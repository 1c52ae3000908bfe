import Mathlib.Data.List.Induction
import TransferRules.Proofs.Compile.Calls
import TransferRules.Proofs.Ordered.Related
import TransferRules.Proofs.Session.Skipping
import TransferRules.Proofs.Session.Trim

/-!
# Definitions that are taken over by name

A session that never loads a file has made all of its definitions itself.  Under the names to
which a rule refers stands what the rule asked for, for as long as the rule is there, if no two
different definitions with one name are asked for in the session.  Sets of disjoint features may
share a name as long as there is no trim, since the macro of each set is kept beside those of the
others.

A trim can remove the macro that is held.  Then the next set gets the name that the sets share,
and if a macro of another set is left under it, this macro is taken over.

## Main Definitions

* `Compilation`, `Specification.compilations` — what is compiled for a specification
* `Compilation.IsServed` — a rule refers to what was asked for when it was compiled
* `Session.origins` — what the rules of a session were compiled from, in their order
* `askedBy` — all that is asked for in a session

## Main Statements

* `Session.Reliable.apply` — **step lemma**: operations keep all rules served
* `Session.served_of_unambiguous` — all rules of a session are served if no name is ambiguous
* `Session.not_served_classOperations_trim` — two disjoint sets that share a name, and a trim
-/

namespace TransferRules

open TransferRules.Action
open TransferRules.Compile
open TransferRules.Markup
open TransferRules.Ordered
open TransferRules.Text
open TransferRules.Transfer

/-! ## What is compiled -/

/-- A rule that is compiled, with the disjoint set that is in effect and with its providers. -/
structure Compilation where
  disjoint : Option DisjointSet
  rule : Rule
  resolution : Resolution
  deriving Repr, DecidableEq

namespace Compilation

/-- What is known about the two languages while the rule is compiled. -/
def lexicons (c : Compilation) (source target : Lexicon) : Lexicons :=
  { source, target, disjoint := c.disjoint }

/-- The macros that the rule asks for. -/
def demands (c : Compilation) (source target : Lexicon) : List MacroDemand :=
  (demandsOf (c.lexicons source target) c.resolution).map Prod.fst

/-- A node is the compiled form of the rule, and it refers to what was asked for. -/
def IsServed (c : Compilation) (source target : Lexicon) (t : TransferDocument) (node : Node) :
    Prop :=
  ∃ (compiled : CompiledRule) (name : String), node = (compiled.toElement name).toNode ∧
    RuleServed (c.lexicons source target) t c.rule c.resolution compiled

end Compilation

/-- The rules that are compiled for a specification, in their order. -/
def Specification.compilations (x : Specification) (settings : GeneratorSettings) :
    List Compilation :=
  ((x.expansions settings).filterMap Rule.resolved?).map fun (rule, r) => ⟨x.disjointSet?, rule, r⟩

theorem Specification.map_compilations (x : Specification) (settings : GeneratorSettings) :
    (x.compilations settings).map (fun c => (c.rule, c.resolution)) =
      (x.expansions settings).filterMap Rule.resolved? := by
  rw [compilations, List.map_map]
  exact List.map_id _

/-- All of them are compiled with the same lexicons. -/
theorem Specification.lexicons_of_mem {x : Specification} {settings : GeneratorSettings}
    {source target : Lexicon} {c : Compilation} (hc : c ∈ x.compilations settings) :
    c.lexicons source target = ⟨source, target, x.disjointSet?⟩ := by
  obtain ⟨⟨rule, r⟩, -, rfl⟩ := List.mem_map.1 hc
  rfl

/-- Whether a specification replaces the rule at a node. -/
def Specification.replaces (x : Specification) (settings : GeneratorSettings) (node : Node) :
    Bool :=
  x.overwriteRules && (askedNames (x.expansions settings)).any fun name =>
    TransferDocument.isDefinitionNamed .rules name node

namespace Operation

/-- The rules that an operation compiles. -/
def compilations (settings : GeneratorSettings) : Operation → List Compilation
  | process x _ => x.compilations settings
  | _ => []

/-- Whether an operation is a trim. -/
def isTrim : Operation → Bool
  | trim => true
  | _ => false

end Operation

/-- All that is asked for while some operations are carried out. -/
def askedBy (source target : Lexicon) (settings : GeneratorSettings) (ops : List Operation) :
    Asked where
  words := (ops.flatMap (Operation.compilations settings)).flatMap fun c => c.rule.source
  macros := (ops.flatMap (Operation.compilations settings)).flatMap fun c => c.demands source target
  trimmed := ops.any Operation.isTrim

namespace Session

/-- What the rules of a session were compiled from, after one more operation: the rules that are
replaced go, and those that are compiled come at the end. -/
def originsAfter (s : Session) (origins : List Compilation) : Operation → List Compilation
  | .process x _ =>
    ((origins.zip (s.document.childrenOf .rules)).filter fun entry =>
      !x.replaces s.settings entry.2).map Prod.fst ++ x.compilations s.settings
  | _ => origins

/-- What the rules of a session were compiled from, after some more operations. -/
def originsFrom (s : Session) (origins : List Compilation) : List Operation → List Compilation
  | [] => origins
  | op :: ops => (s.apply op).originsFrom (s.originsAfter origins op) ops

/-- What the rules of a new session were compiled from, in their order. -/
def origins (source target : Lexicon) (settings : GeneratorSettings) (ops : List Operation) :
    List Compilation :=
  (start source target settings).originsFrom [] ops

theorem applyAll_append (s : Session) (ops more : List Operation) :
    s.applyAll (ops ++ more) = (s.applyAll ops).applyAll more :=
  List.foldl_append

theorem applyAll_eq_run (s : Session) (ops : List Operation) :
    s.applyAll ops = s.run (ops.map .operation) := by
  rw [run, List.foldl_map]
  rfl

theorem originsFrom_append (s : Session) (origins : List Compilation) (ops more : List Operation) :
    s.originsFrom origins (ops ++ more) =
      (s.applyAll ops).originsFrom (s.originsFrom origins ops) more := by
  induction ops generalizing s origins with
  | nil => rfl
  | cons op ops ih => exact ih (s.apply op) (s.originsAfter origins op)

end Session

/-! ## Rules that stay served -/

section Served

variable {source target : Lexicon} {asked : Asked} {t t' : TransferDocument} {c : Compilation}
  {origins : List Compilation} {node : Node} {w w' : Workspace}

/-- A rule stays served if the categories stay and the macros that it calls. -/
theorem Compilation.IsServed.mono (h : c.IsServed source target t node)
    (hcategories : ∀ name e, t.definition? .categories name = some e →
      t'.definition? .categories name = some e)
    (hmacros : ∀ e : Element, e.name = SectionKind.rules.definitionTag → node = e.toNode →
      ∀ name, ⟨.macros, name⟩ ∈ references e → ∀ m,
        t.definition? .macros name = some m → t'.definition? .macros name = some m) :
    c.IsServed source target t' node := by
  obtain ⟨compiled, name, rfl, hserved⟩ := h
  refine ⟨compiled, name, rfl, hserved.mono hcategories fun called position hcall => ?_⟩
  exact hmacros _ rfl rfl _ (mem_references_compiledRule_iff.2 ⟨position, hcall⟩)

/-- Rules stay served while a workspace grows. -/
theorem Compilation.IsServed.grows (h : c.IsServed source target w.document node)
    (hgrows : w.Grows w') : c.IsServed source target w'.document node :=
  h.mono (fun _ _ => hgrows.definition?_eq_some nofun)
    fun _ _ _ _ _ _ => hgrows.definition?_eq_some nofun

theorem Compilation.IsServed.of_untouched (h : c.IsServed source target w.document node)
    (huntouched : w.Untouched w') : c.IsServed source target w'.document node := by
  refine h.mono (fun name e he => ?_) fun _ _ _ name _ e he => ?_
  · rwa [huntouched.definition?_categories]
  · rwa [huntouched.definition?_macros]

/-- Whatever macro a rule calls that is served, it is one that the rule asked for. -/
theorem Compilation.IsServed.standsUnder (h : c.IsServed source target t node) :
    ∀ e ∈ node.element?, ∀ r ∈ references e, r.kind = .macros →
      ∃ d ∈ c.demands source target, d.StandsUnder target t r.name := by
  obtain ⟨compiled, ruleName, rfl, -, -, bound, blocks, steps, hbound, hstatements, hserved⟩ := h
  rintro e he ⟨_, name⟩ hcall rfl
  cases he
  obtain ⟨position, hmem⟩ := mem_references_compiledRule_iff.1 hcall
  rw [hstatements] at hmem
  have hblock : .call name position ∈ blocks.flatten := by simpa using hmem
  obtain ⟨block, hblock, hcalled⟩ := List.mem_flatten.1 hblock
  obtain ⟨b, hb, hserved⟩ := exists_of_forall₂_of_mem hserved hblock
  obtain ⟨demand, hdemand, hstands⟩ := hserved.standsUnder hcalled
  refine ⟨demand, List.mem_map.2 ⟨(demand, b.occurrence.position), ?_, rfl⟩, hstands⟩
  exact mem_demandsOf_of_label (hbound.subset hb) hdemand

/-- Every rule of a document is served, and the rules have the given origins. -/
def AllServed (source target : Lexicon) (t : TransferDocument) (origins : List Compilation) :
    Prop :=
  List.Forall₂ (fun c node => c.IsServed source target t node) origins (t.childrenOf .rules)

/-- So it is for all rules, each with its origin. -/
theorem AllServed.standsUnder (h : AllServed source target t origins) :
    ∀ entry ∈ origins.zip (t.childrenOf .rules), ∀ e ∈ entry.2.element?,
      ∀ r ∈ references e, r.kind = .macros →
        ∃ d ∈ entry.1.demands source target, d.StandsUnder target t r.name :=
  fun _ hentry => ((List.forall₂_iff_zip.1 h).2 hentry).standsUnder

variable (hu : Unambiguous source target asked)

include hu

/-- **Step lemma.**  A rule that is compiled and added is served, and so are the others still. -/
theorem AllServed.addRule {ctx : Lexicons} (hw : w.Coherent) (hf : w.Faithful source target asked)
    (hserved : AllServed source target w.document origins) (hc : c.lexicons source target = ctx)
    (hwords : ∀ word ∈ c.rule.source, word ∈ asked.words)
    (hmacros : ∀ d ∈ c.demands source target, d ∈ asked.macros) :
    (w.addRule ctx c.rule c.resolution).2.Faithful source target asked ∧
      AllServed source target (w.addRule ctx c.rule c.resolution).2.document (origins ++ [c]) := by
  subst hc
  have hsettled : Settled (c.lexicons source target) { workspace := w, report := .empty } :=
    ⟨hw, nofun⟩
  obtain ⟨hmoves, -⟩ := compile_leads hsettled c.rule c.resolution
  have hgrows := (hmoves.extends hw).grows
  obtain ⟨hfaithful, hrule⟩ := compile_serves hu
    (e := { workspace := w, report := .empty }) c.rule c.resolution rfl rfl hwords
    (fun call hcall => hmacros _ (List.mem_map_of_mem hcall)) hw hf rfl rfl
  have htag : ∀ (compiled : CompiledRule) (name : String),
      (compiled.toElement name).name = SectionKind.rules.definitionTag := fun _ _ => rfl
  have huntouched : Workspace.Untouched
      (compile (c.lexicons source target) c.rule c.resolution
        { workspace := w, report := .empty }).2.workspace
      (w.addRule (c.lexicons source target) c.rule c.resolution).2 :=
    .addDefinition (htag _ _) nofun nofun _ _
  refine ⟨hfaithful.of_untouched huntouched, ?_⟩
  unfold AllServed
  rw [(hw.addRule c.rule c.resolution).2]
  refine List.rel_append (hserved.imp fun c' node h => ?_) (.cons ?_ .nil)
  · exact (h.grows hgrows).of_untouched huntouched
  · exact Compilation.IsServed.of_untouched ⟨_, _, rfl, hrule⟩ huntouched

/-- **Run lemma.**  And so for some rules that are compiled one after another. -/
theorem AllServed.addRules {ctx : Lexicons} {compilations : List Compilation} (hw : w.Coherent)
    (hf : w.Faithful source target asked)
    (hserved : AllServed source target w.document origins)
    (hc : ∀ c ∈ compilations, c.lexicons source target = ctx)
    (hwords : ∀ c ∈ compilations, ∀ word ∈ c.rule.source, word ∈ asked.words)
    (hmacros : ∀ c ∈ compilations, ∀ d ∈ c.demands source target, d ∈ asked.macros) :
    (w.addRules ctx (compilations.map fun c => (c.rule, c.resolution))).2.Faithful source target
        asked ∧
      AllServed source target
        (w.addRules ctx (compilations.map fun c => (c.rule, c.resolution))).2.document
        (origins ++ compilations) := by
  induction compilations generalizing w origins with
  | nil => exact ⟨hf, (List.append_nil origins).symm ▸ hserved⟩
  | cons c compilations ih =>
      obtain ⟨hfaithful, hfirst⟩ := hserved.addRule hu hw hf (hc c List.mem_cons_self)
        (hwords c List.mem_cons_self) (hmacros c List.mem_cons_self)
      have hrest := ih (hw.addRule c.rule c.resolution).1 hfaithful hfirst
        (fun c' hc' => hc c' (List.mem_cons_of_mem _ hc'))
        (fun c' hc' => hwords c' (List.mem_cons_of_mem _ hc'))
        (fun c' hc' => hmacros c' (List.mem_cons_of_mem _ hc'))
      rw [List.append_assoc] at hrest
      exact hrest

end Served

/-! ## Sessions -/

namespace Session

/-- The rules that stay when some are replaced. -/
theorem childrenOf_cleared (s : Session) (x : Specification) :
    (s.cleared x).document.childrenOf .rules =
      (s.document.childrenOf .rules).filter fun node => !x.replaces s.settings node := by
  unfold cleared Specification.replaces
  cases x.overwriteRules with
  | false => exact (List.filter_eq_self.2 fun _ _ => rfl).symm
  | true =>
      rw [if_pos rfl]
      refine TransferDocument.childrenOf_removeAll.trans ((if_pos rfl).trans ?_)
      -- Only names that rules have are discarded, which makes no difference to the rules.
      refine List.filter_congr fun node hnode => congrArg _ ?_
      rw [Bool.true_and, List.any_filter, Bool.eq_iff_iff, List.any_eq_true, List.any_eq_true]
      refine exists_congr fun name => and_congr_right fun _ => ?_
      rw [Bool.and_eq_true, List.contains_iff_mem]
      refine and_iff_right_of_imp fun hnamed => ?_
      rw [ruleNames, TransferDocument.definitionNames_eq]
      exact mem_namesIn.2 ⟨node, hnode, hnamed⟩

variable {source target : Lexicon} {settings : GeneratorSettings} {asked : Asked} {s t : Session}
  {origins : List Compilation}

/-- What can be relied on in a session: its definitions are built for what is asked for, and its
rules, which have the given origins, refer to what they asked for. -/
structure Reliable (source target : Lexicon) (settings : GeneratorSettings) (asked : Asked)
    (s : Session) (origins : List Compilation) : Prop where
  source_eq : s.source = source
  target_eq : s.target = target
  settings_eq : s.settings = settings
  faithful : s.workspace.Faithful source target asked
  served : AllServed source target s.document origins

/-- An operation asks for nothing else. -/
structure AsksWithin (source target : Lexicon) (settings : GeneratorSettings) (asked : Asked)
    (op : Operation) : Prop where
  words : ∀ c ∈ op.compilations settings, ∀ word ∈ c.rule.source, word ∈ asked.words
  macros : ∀ c ∈ op.compilations settings, ∀ d ∈ c.demands source target, d ∈ asked.macros
  trimmed : op = .trim → asked.trimmed = true

theorem asksWithin_askedBy {ops : List Operation} {op : Operation} (hop : op ∈ ops) :
    AsksWithin source target settings (askedBy source target settings ops) op where
  words c hc word hword :=
    List.mem_flatMap.2 ⟨c, List.mem_flatMap.2 ⟨op, hop, hc⟩, hword⟩
  macros c hc d hd := List.mem_flatMap.2 ⟨c, List.mem_flatMap.2 ⟨op, hop, hc⟩, hd⟩
  trimmed h := List.any_eq_true.2 ⟨op, hop, by rw [h]; rfl⟩

/-- What neither touches categories and macros nor rules can be relied on still. -/
theorem Reliable.of_untouched (hs : Reliable source target settings asked s origins)
    (hsource : t.source = s.source) (htarget : t.target = s.target)
    (hsettings : t.settings = s.settings)
    (huntouched : s.workspace.Untouched t.workspace)
    (hrules : t.document.childrenOf .rules = s.document.childrenOf .rules) :
    Reliable source target settings asked t origins where
  source_eq := hsource.trans hs.source_eq
  target_eq := htarget.trans hs.target_eq
  settings_eq := hsettings.trans hs.settings_eq
  faithful := hs.faithful.of_untouched huntouched
  served := by
    unfold AllServed
    rw [hrules]
    exact hs.served.imp fun _ _ h => h.of_untouched huntouched

theorem Reliable.process (hu : Unambiguous source target asked)
    (hs : Reliable source target settings asked s origins) (hcoherent : s.workspace.Coherent)
    {x : Specification} {document : String}
    (hasks : AsksWithin source target settings asked (.process x document)) :
    Reliable source target settings asked (s.process x document).2
      (s.originsAfter origins (.process x document)) := by
  obtain ⟨rfl, rfl, rfl, hfaithful, hserved⟩ := hs
  obtain ⟨entries, hprocess, -⟩ := s.process_eq x document
  have huntouched : s.workspace.Untouched (s.cleared x) := by
    unfold cleared
    split
    · exact .discardRules _ _
    · exact .refl _
  have hkept : AllServed s.source s.target (s.cleared x).document
      (((origins.zip (s.document.childrenOf .rules)).filter fun entry =>
        !x.replaces s.settings entry.2).map Prod.fst) := by
    unfold AllServed
    rw [childrenOf_cleared]
    exact (forall₂_filter_right hserved fun node => !x.replaces s.settings node).imp
      fun _ _ h => h.of_untouched huntouched
  have hadded := hkept.addRules hu (coherent_cleared hcoherent x)
    (hfaithful.of_untouched huntouched) (fun _ => Specification.lexicons_of_mem) hasks.words
    hasks.macros
  rw [x.map_compilations] at hadded
  rw [hprocess]
  exact ⟨rfl, rfl, rfl, hadded.1, hadded.2⟩

/-- What stays after a trim is built for what is asked for still.  Now there may be macros of
disjoint sets though none is held. -/
theorem faithful_trim (hf : s.workspace.Faithful source target asked)
    (htrimmed : asked.trimmed = true) : s.trim.2.workspace.Faithful source target asked where
  categories e he :=
    hf.categories e (TransferDocument.mem_definitions_trim_iff.1 he).1
  macros e he := by
    obtain ⟨d, name, hd, hmay, heq, -⟩ :=
      hf.macros e (TransferDocument.mem_definitions_trim_iff.1 he).1
    exact ⟨d, name, hd, hmay, heq, fun _ _ => htrimmed⟩
  lemmaMacros entry hentry := hf.lemmaMacros entry (List.mem_filter.1 hentry).1
  disjoint set handle hheld := by
    obtain ⟨hheld, hkept⟩ := Option.mem_filter_iff.1 hheld
    have hstays : handle.name ∉ s.document.unused.macros := by simpa using hkept
    exact (TransferDocument.definition?_trim hstays).trans (hf.disjoint set handle hheld)

/-- A macro that a rule calls is used, so a trim leaves it. -/
theorem allServed_trim (hnamed : s.document.WellNamed)
    (hserved : AllServed source target s.document origins) :
    AllServed source target s.trim.2.document origins := by
  have hcategories : s.document.trim.2.definitions .categories =
      s.document.definitions .categories := TransferDocument.definitions_trim_of_ne nofun nofun
  have hrules : s.document.trim.2.childrenOf .rules = s.document.childrenOf .rules :=
    TransferDocument.childrenOf_trim.trans (List.filter_eq_self.2 fun _ _ => rfl)
  show List.Forall₂ _ origins (s.document.trim.2.childrenOf .rules)
  rw [hrules]
  refine List.forall₂_iff_zip.2 ⟨hserved.length_eq, fun {c node} hmem => ?_⟩
  refine ((List.forall₂_iff_zip.1 hserved).2 hmem).mono (fun name e he => ?_)
    fun e htag heq name hcall m hm => ?_
  · exact (congrArg (List.find? _) hcategories).trans he
  · have hrule : e ∈ s.document.definitions .rules := by
      rw [TransferDocument.definitions_eq, List.mem_filter, List.mem_filterMap]
      exact ⟨⟨node, (List.of_mem_zip hmem).2, by rw [heq, Element.element?_toNode]⟩,
        beq_iff_eq.2 htag⟩
    have hused : s.document.MacroUsed name := .ofRoot (.ofRule hrule) hcall
    refine (TransferDocument.definition?_trim fun hunused => ?_).trans hm
    exact ((TransferDocument.mem_unused_macros_iff hnamed).1 hunused).2 hused

/-- **Step lemma.**  An operation keeps what can be relied on. -/
theorem Reliable.apply (hu : Unambiguous source target asked)
    (hs : Reliable source target settings asked s origins) (hcoherent : s.workspace.Coherent)
    (hnamed : s.document.WellNamed) {op : Operation}
    (hasks : AsksWithin source target settings asked op) :
    Reliable source target settings asked (s.apply op) (s.originsAfter origins op) := by
  cases op with
  | process x document => exact hs.process hu hcoherent hasks
  | trim =>
      exact ⟨hs.source_eq, hs.target_eq, hs.settings_eq,
        faithful_trim hs.faithful (hasks.trimmed rfl), allServed_trim hnamed hs.served⟩
  | ensureAttribute q =>
      show Reliable source target settings asked (s.ensureAttribute q).2 origins
      unfold ensureAttribute
      cases h : s.workspace.ensureAttribute (s.lexiconOf q.key) q with
      | error issue => exact hs.of_untouched rfl rfl rfl (.refl _) rfl
      | ok answer =>
          exact hs.of_untouched rfl rfl rfl (.ensureAttribute h)
            (hcoherent.ensureAttribute_grows h).1.rules.1
  | addAttribute base values =>
      exact hs.of_untouched rfl rfl rfl (.addAttribute _ base values)
        (hcoherent.addAttribute_grows base values).1.rules.1
  | addVariable name comment? =>
      exact hs.of_untouched rfl rfl rfl (.ensureVariable _ _ comment?)
        (s.workspace.ensureVariable_grows (identifier name) comment?).1.rules.1
  | availableName kind base => exact hs.of_untouched rfl rfl rfl ⟨rfl, rfl, rfl⟩ rfl

/-- There is nothing in a new session. -/
theorem childrenOf_start (source target : Lexicon) (settings : GeneratorSettings)
    (kind : SectionKind) : (start source target settings).document.childrenOf kind = [] := by
  unfold start
  split
  · cases kind <;> rfl
  · cases kind <;> rfl

theorem definitions_start (source target : Lexicon) (settings : GeneratorSettings)
    (kind : SectionKind) : (start source target settings).document.definitions kind = [] := by
  rw [TransferDocument.definitions_eq, childrenOf_start]
  rfl

theorem reliable_start (source target : Lexicon) (settings : GeneratorSettings) (asked : Asked) :
    Reliable source target settings asked (start source target settings) [] := by
  have hdefinitions : ∀ kind e, e ∉ (start source target settings).document.definitions kind := by
    intro kind e he
    rw [definitions_start] at he
    cases he
  refine ⟨rfl, rfl, rfl, ⟨fun e he => absurd he (hdefinitions _ e), fun e he =>
    absurd he (hdefinitions _ e), nofun, nofun⟩, ?_⟩
  unfold AllServed
  rw [childrenOf_start]
  exact .nil

/-- **Run lemma.**  What can be relied on after some operations. -/
theorem reliable_applyAll (hu : Unambiguous source target asked) {ops : List Operation}
    (hasks : ∀ op ∈ ops, AsksWithin source target settings asked op) :
    Reliable source target settings asked ((start source target settings).applyAll ops)
      (Session.origins source target settings ops) := by
  induction ops using List.reverseRecOn with
  | nil => exact reliable_start source target settings asked
  | append_singleton ops op ih =>
      rw [applyAll_append, Session.origins, originsFrom_append]
      refine (ih fun op' hop' => hasks op' (List.mem_append_left _ hop')).apply hu ?_ ?_ ?_
      · rw [applyAll_eq_run]
        exact coherent_run source target settings _
      · rw [applyAll_eq_run]
        exact wellNamed_run source target settings _
      · exact hasks op (List.mem_append_right _ (List.mem_singleton_self _))

/-- **Taking over by name is sound if no name is ambiguous.**  However specifications are processed
and trims are made in a session that never loads a file, every rule refers to what was asked for
when it was compiled: under the names of its pattern stand the categories of its source words, and
under the name of every macro that it calls stands the macro of the feature or the disjoint set
that provides the value.  This is so if no two definitions that are asked for have one name and
differ; without trims, disjoint sets may share a name. -/
theorem served_of_unambiguous (source target : Lexicon) (settings : GeneratorSettings)
    (ops : List Operation)
    (hu : Unambiguous source target (askedBy source target settings ops)) :
    AllServed source target ((start source target settings).applyAll ops).document
      (Session.origins source target settings ops) :=
  (reliable_applyAll hu fun _ hop => asksWithin_askedBy hop).served

/-! ## Two sets that share a name -/

/-- A lexicon that knows nouns and their number. -/
def numberedNouns : Lexicon :=
  ⟨"source", StringMap.empty.insert "n" none,
    StringMap.empty.insert "n" (StringMap.empty.insert "number" { values := ["sg", "pl"] })⟩

/-- A lexicon that knows two parts of the class of nouns, and an affix that agrees with it. -/
def classedNouns : Lexicon :=
  ⟨"target", StringMap.empty.insert "n" none,
    StringMap.empty.insert "n" (((StringMap.empty.insert "agr" { affixes := [⟨"A1", "1"⟩] }).insert
      "sgclass" { lemmas := [⟨"mtu", "1"⟩] }).insert "plclass" { lemmas := [⟨"watu", "2"⟩] })⟩

/-- The class in the singular only. -/
def singularClass : DisjointSet := ⟨"number", "class", [⟨"sg", "sgclass"⟩]⟩

/-- The class in the singular and in the plural, under the same name. -/
def fullClass : DisjointSet := ⟨"number", "class", [⟨"sg", "sgclass"⟩, ⟨"pl", "plclass"⟩]⟩

/-- Process a document with a disjoint set, and with a rule for a noun alone whose suffix agrees
with some features. -/
def processSuffixed (set : DisjointSet) (name : String) (labels : List String) : Operation :=
  .process
    { overwriteRules := true
      disjointSets := [set]
      rules := [{
        rule := {
          name
          source := [⟨"1", some "n", []⟩]
          target := [{
            id := "1"
            isHead := true
            features := labels.map fun label => { label, binding := .agreement "c" }
            affixes := [⟨.after, [{ label := "agr", binding := .agreement "c" }]⟩] }] } }] }
    "spec"

/-- A rule for each of the sets; the second one is then replaced by one that needs neither. -/
def classOperations : List Operation :=
  [processSuffixed singularClass "a" ["class"], processSuffixed fullClass "b" ["class"],
    processSuffixed fullClass "b" []]

/-- Without a trim both macros are kept, and each rule calls the one of its set. -/
theorem served_classOperations :
    Unambiguous numberedNouns classedNouns (askedBy numberedNouns classedNouns {} classOperations) ∧
      AllServed numberedNouns classedNouns
        ((start numberedNouns classedNouns {}).applyAll classOperations).document
        (Session.origins numberedNouns classedNouns {} classOperations) := by
  have hwords : ∀ word ∈ (askedBy numberedNouns classedNouns {} classOperations).words,
      word = ⟨"1", some "n", []⟩ := by decide +kernel
  have hu : Unambiguous numberedNouns classedNouns
      (askedBy numberedNouns classedNouns {} classOperations) := by
    refine ⟨fun word hword word' hword' _ => ?_, by decide +kernel⟩
    rw [hwords word hword, hwords word' hword']
  exact ⟨hu, served_of_unambiguous numberedNouns classedNouns {} classOperations hu⟩

/-- **After a trim a macro is taken over that was built for another set.**  The macro of the full
class is not used any more, so it goes and is forgotten.  A rule that then needs it again calls
the macro that has the name of the set, and this is still the one for the singular. -/
theorem not_served_classOperations_trim :
    ¬ AllServed numberedNouns classedNouns
      ((start numberedNouns classedNouns {}).applyAll
        (classOperations ++ [.trim, processSuffixed fullClass "c" ["class"]])).document
      (Session.origins numberedNouns classedNouns {}
        (classOperations ++ [.trim, processSuffixed fullClass "c" ["class"]])) := by
  have hunused : ((start numberedNouns classedNouns {}).applyAll
      classOperations).document.unused = ⟨["m_class_from_lemma1"], []⟩ := by
    unfold TransferDocument.unused TransferDocument.usedVariables
    rw [TransferDocument.usedMacros_of_uncalled (by decide +kernel)]
    decide +kernel
  generalize hs : (start numberedNouns classedNouns {}).applyAll classOperations = s at hunused
  have htrim : s.trim.2 = { s with
      workspace := (s.workspace.discard .macros ["m_class_from_lemma1"]).discard .vars [] } := by
    show ({ s with
      workspace := (s.workspace.discard .macros s.document.unused.macros).discard .vars
        s.document.unused.vars } : Session) = _
    rw [hunused]
  have hlast : ∀ op, s.applyAll [.trim, op] = s.trim.2.apply op := fun _ => rfl
  have horigins : ∀ origins op,
      s.originsFrom origins [.trim, op] = s.trim.2.originsAfter origins op := fun _ _ => rfl
  intro h
  have hstands := h.standsUnder
  rw [Session.origins, originsFrom_append, applyAll_append, hs, hlast, horigins, htrim,
    ← hs] at hstands
  revert hstands
  decide +kernel

end Session

end TransferRules

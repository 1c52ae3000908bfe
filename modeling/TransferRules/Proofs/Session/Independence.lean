import TransferRules.Proofs.Action.Agreement
import TransferRules.Proofs.Session.Closure

/-!
# What a rule puts out depends on the phrase only

Variables are global, so the action of a rule starts with what the actions for earlier phrases
left in them.  If nothing had to be reported as unresolved, and no disjoint set is in effect, a
rule reads no variable before it has assigned it, itself or by a macro that it calls.  So whatever
the variables hold at first, the rule puts out the same for the same phrase.

## Main Definitions

* `SafeCalls` — calls that keep two runs in agreement
* `TransferDocument.LemmaMacrosOnly` — all macros are lemma macros
* `SelfContained` — a rule that reads only what it has assigned, if some macros do their work
* `Session.Independent` — all rules of a session are self-contained

## Main Statements

* `InOrder.run_agrees` — statements in order bring any two runs into agreement
* `TransferDocument.LemmaMacrosOnly.safeCalls` — calls of lemma macros are safe
* `Session.Step.independent`, `Session.Steps.independent` — processing keeps all rules
  self-contained
* `Session.execute_processAll` — what a rule puts out depends on the phrase only
-/

namespace TransferRules

open TransferRules.Action
open TransferRules.Compile
open TransferRules.Markup
open TransferRules.Transfer

variable {d : TransferDocument} {phrase : Matched} {calls : Calls} {held : List HeldMacro}

/-! ## Runs of statements in order -/

/-- Calls keep two runs in agreement, also on what the macros that are held set. -/
structure SafeCalls (held : List HeldMacro) (calls : Calls) : Prop where
  keeps {known : String → Prop} {m m' : Machine} (h : Agrees known m m') (name : String)
    (positions : List String) : Agrees known (calls name positions m) (calls name positions m')
  sets {known : String → Prop} {m m' : Machine} (h : Agrees known m m') {callee : HeldMacro}
    (hcallee : callee ∈ held) (positions : List String) :
    (calls callee.name positions m).contents callee.result =
      (calls callee.name positions m').contents callee.result

namespace Compile

variable {s : Scene} {m m' : Machine} {before : List Statement} {statement : Statement}

/-- What a last statement adds to the assigned variables. -/
theorem Assigned.snoc_cases {name : String} (h : Assigned held (before ++ [statement]) name) :
    Assigned held before name ∨ name ∈ statement.sets ∨
      ∃ callee ∈ held, ∃ position,
        statement = .call callee.name position ∧ name = callee.result := by
  cases h with
  | set hs hname =>
      rcases List.mem_append.1 hs with hs | hs
      · exact .inl (.set hs hname)
      · rw [List.mem_singleton.1 hs] at hname
        exact .inr (.inl hname)
  | called hm hs hname =>
      rcases List.mem_append.1 hs with hs | hs
      · exact .inl (.called hm hs hname)
      · exact .inr (.inr ⟨_, hm, _, (List.mem_singleton.1 hs).symm, hname⟩)

/-- **Step lemma.**  A statement that reads only what is assigned before it keeps two runs in
agreement on what is assigned. -/
theorem run_agrees_of_reads (hcalls : SafeCalls held calls)
    (h : Agrees (Assigned held before) m m')
    (hreads : ∀ name ∈ statement.reads, Assigned held before name) :
    Agrees (Assigned held (before ++ [statement])) (statement.run s calls m)
      (statement.run s calls m') := by
  cases statement with
  | step step =>
      refine (Step.run_agrees h hreads).mono fun name hname => ?_
      rcases hname.snoc_cases with hname | hname | ⟨callee, -, position, hcall, -⟩
      · exact .inl hname
      · exact .inr hname
      · cases hcall
  | call name position =>
      have hkeeps := hcalls.keeps h name [s.position (toString position)]
      refine ⟨fun n hn => ?_, hkeeps.output⟩
      rcases hn.snoc_cases with hn | hn | ⟨callee, hcallee, position, hcall, rfl⟩
      · exact hkeeps.contents n hn
      · cases hn
      · cases hcall
        exact hcalls.sets h hcallee _

/-- **Run lemma.**  Statements in order bring any two runs into agreement on all that they
assign. -/
theorem InOrder.run_agrees (hcalls : SafeCalls held calls) {statements : List Statement}
    (h : InOrder held statements) (houtput : m.output = m'.output) :
    Agrees (Assigned held statements) (statements.foldl (Statement.run s calls) m)
      (statements.foldl (Statement.run s calls) m') := by
  induction h with
  | nil =>
      refine ⟨fun name hname => ?_, houtput⟩
      cases hname with
      | set hs _ => cases hs
      | called _ hs _ => cases hs
  | snoc _ hreads ih =>
      rw [List.foldl_append, List.foldl_append]
      exact run_agrees_of_reads hcalls ih hreads

end Compile

/-! ## Calls of lemma macros -/

/-- The choice of a value by a lemma reads no variable. -/
theorem reads_lemmaChoice (target : String) (groups : List (String × List String)) :
    (Action.Step.choose (lemmaChoice target groups)).reads = [] := by
  refine List.eq_nil_iff_forall_not_mem.2 fun name hname => ?_
  rcases List.mem_append.1 hname with hname | hname
  · obtain ⟨branch, hbranch, hname⟩ := List.mem_flatMap.1 hname
    obtain ⟨⟨value, lemmas⟩, -, rfl⟩ := List.mem_map.1 hbranch
    rcases List.mem_append.1 hname with hname | hname
    · obtain ⟨equation, hequation, hname⟩ := List.mem_flatMap.1 hname
      obtain ⟨form, -, rfl⟩ := List.mem_map.1 hequation
      cases hname
    · cases hname
  · cases hname

/-- Whichever value it chooses, it sets the variable. -/
theorem mem_sets_lemmaChoice (target : String) (groups : List (String × List String)) :
    target ∈ (Action.Step.choose (lemmaChoice target groups)).sets := by
  refine mem_sets_choice (fun branch hbranch => ?_) rfl
  obtain ⟨group, -, rfl⟩ := List.mem_map.1 hbranch
  rfl

/-- All macros of a document are lemma macros. -/
def Transfer.TransferDocument.LemmaMacrosOnly (d : TransferDocument) : Prop :=
  ∀ e ∈ d.definitions .macros,
    ∃ x category label, e = (lemmaMacroFor x category label).toElement

/-- A call of a lemma macro chooses a value by the lemma. -/
theorem call_lemmaMacro {x : Lexicon} {category label name : String} {e : Element}
    (h : d.definition? .macros name = some e) (he : e = (lemmaMacroFor x category label).toElement)
    (depth : Nat) (positions : List String) (m : Machine) :
    d.call phrase (depth + 1) name positions m =
      (Action.Step.choose (lemmaChoice (lemmaMacroNames category label).2
        (lemmasByValue (x.lemmas category label)))).run ⟨phrase, parameter positions⟩ m := by
  have hchildren : e.children = [((lemmaChoice (lemmaMacroNames category label).2
      (lemmasByValue (x.lemmas category label))).toElement Assignment.toElement).toNode] := by
    subst he
    simp only [lemmaMacroFor, lemmaMacro, lemmaHandle, MacroDefinition.toElement, Choice.toElement,
      Written.element, List.map_map]
    rfl
  rw [TransferDocument.call, h]
  simp only [hchildren]
  exact Scene.exec_choice (fun a m => Scene.exec_assignment a) _

/-- **Calls of lemma macros are safe.**  The name of a macro that is held tells which variable the
macro sets that has this name. -/
theorem Transfer.TransferDocument.LemmaMacrosOnly.safeCalls (hd : d.LemmaMacrosOnly)
    (hheld : ∀ m ∈ held, IsMacroName m.name m.result ∧ m.name ∈ d.definitionNames .macros)
    (depth : Nat) : SafeCalls held (d.call phrase (depth + 1)) where
  keeps := by
    intro known m m' h name positions
    cases hfound : d.definition? .macros name with
    | none =>
        rw [TransferDocument.call, TransferDocument.call, hfound]
        exact h
    | some e =>
        obtain ⟨x, category, label, he⟩ := hd e (TransferDocument.mem_of_definition? hfound).1
        rw [call_lemmaMacro hfound he, call_lemmaMacro hfound he]
        refine (Step.run_agrees h ?_).mono fun name hname => .inl hname
        rw [reads_lemmaChoice]
        exact nofun
  sets := by
    intro known m m' h callee hcallee positions
    obtain ⟨hname, hdefined⟩ := hheld callee hcallee
    obtain ⟨e, hfound⟩ := Option.isSome_iff_exists.1 (TransferDocument.contains_iff.2 hdefined)
    obtain ⟨he, hcallee⟩ := TransferDocument.mem_of_definition? hfound
    obtain ⟨x, category, label, rfl⟩ := hd e he
    rw [Workspace.definitionName?_macroDefinition, Option.some.injEq] at hcallee
    have hresult : callee.result = (lemmaMacroNames category label).2 :=
      (hcallee ▸ hname).result_unique (.lemmaMacro category label)
    rw [call_lemmaMacro hfound rfl, call_lemmaMacro hfound rfl, hresult]
    refine (Step.run_agrees h ?_).contents _ (.inr (mem_sets_lemmaChoice _ _))
    rw [reads_lemmaChoice]
    exact nofun

/-! ## Rules -/

/-- A rule reads only what it has assigned, itself or by one of some macros, which are defined. -/
structure SelfContained (d : TransferDocument) (held : List HeldMacro) (r : CompiledRule) :
    Prop where
  defined : ∀ m ∈ held, IsMacroName m.name m.result ∧ m.name ∈ d.definitionNames .macros
  statements : InOrder held r.statements
  output : ∀ entry ∈ r.output, ∀ name ∈ entry.2.reads, Assigned held r.statements name

namespace SelfContained

variable {d' : TransferDocument} {r : CompiledRule}

theorem mono (h : SelfContained d held r)
    (hnames : ∀ name ∈ d.definitionNames .macros, name ∈ d'.definitionNames .macros) :
    SelfContained d' held r :=
  { h with defined := fun m hm => (h.defined m hm).imp_right (hnames m.name) }

/-- What a self-contained rule puts out does not depend on what the variables hold before. -/
theorem execute_eq (h : SelfContained d held r) (hd : d.LemmaMacrosOnly) (name : String)
    (depth : Nat) (contents contents' : Contents) :
    (d.execute phrase (depth + 1) (r.toElement name) contents).output =
      (d.execute phrase (depth + 1) (r.toElement name) contents').output := by
  have hcalls : SafeCalls held (d.call phrase (depth + 1)) := hd.safeCalls h.defined depth
  have hagrees : Agrees (Assigned held r.statements)
      (r.statements.foldl (Action.Statement.run ⟨phrase, id⟩ (d.call phrase (depth + 1)))
        { contents })
      (r.statements.foldl (Action.Statement.run ⟨phrase, id⟩ (d.call phrase (depth + 1)))
        { contents := contents' }) := h.statements.run_agrees hcalls rfl
  rw [execute_compiledRule, execute_compiledRule, hagrees.output,
    CompiledRule.rendering_congr fun entry hentry n hn =>
      hagrees.contents n (h.output entry hentry n hn)]

end SelfContained

/-! ## Processing without disjoint sets -/

/-- Without a disjoint set in effect, only lemma macros are asked for. -/
theorem Request.lemmaMacrosOnly {ctx : Lexicons} {w w' : Workspace} (hnone : ctx.disjoint = none)
    (h : Request ctx w w') (hw : w.document.LemmaMacrosOnly) : w'.document.LemmaMacrosOnly := by
  intro e he
  rcases h.macros_eq with ⟨hsame, -⟩ | ⟨category, label, handle, h⟩ | ⟨set, handle, hset, -⟩
  · exact hw e (hsame ▸ he)
  · rcases Workspace.ensureLemmaMacro_cases h with ⟨-, rfl⟩ | ⟨rfl, rfl⟩
    · exact hw e he
    · have hmakes := w.makes_makeMacro (lemmaMacroFor ctx.target category label)
        [(lemmaHandle category label).result]
      rw [show (Workspace.holdLemmaMacro _ _ _).document.definitions .macros = _ from
        hmakes.definitions] at he
      split at he
      · exact hw e he
      · rcases List.mem_append.1 he with he | he
        · exact hw e he
        · exact ⟨_, _, _, List.mem_singleton.1 he⟩
  · rw [hnone] at hset
    cases hset

theorem lemmaMacrosOnly_of_moves {ctx : Lexicons} {e e' : Emission} (hnone : ctx.disjoint = none)
    (h : Moves ctx e e') (he : e.workspace.document.LemmaMacrosOnly) :
    e'.workspace.document.LemmaMacrosOnly := by
  induction h with
  | refl => exact he
  | tail _ hmove ih =>
      cases hmove with
      | ask h => exact h.lemmaMacrosOnly hnone ih
      | note _ => exact ih
      | claim _ => exact ih
      | emit _ => exact ih

/-- What compiling a rule leaves is self-contained, unless some feature could not be resolved. -/
theorem selfContained_of_compiled {ctx : Lexicons} {e e' : Emission} {compiled : CompiledRule}
    (he : e.workspace.Coherent) (hmoves : Moves ctx e e') (hstatements : e.statements = [])
    (hcompiled : Compiled ctx compiled e') (hserviced : e'.workspace.Serviced) :
    e'.report.Unresolved ∨
      SelfContained e'.workspace.document (heldFor ctx e'.workspace.macros) compiled := by
  by_cases hresolved : e'.report.Unresolved
  · exact .inl hresolved
  · have horder := (hmoves.inOrder he (.inr (hstatements ▸ .nil))).resolve_left hresolved
    refine .inr ⟨fun m hm => ?_, hcompiled.statements ▸ horder, fun entry hentry name hname => ?_⟩
    · have hm := mem_held_of_heldFor hm
      exact ⟨hserviced.named m hm, hcompiled.settled.coherent.mem_definitionNames_of_held hm⟩
    · rw [OutputWord.mem_reads_iff] at hname
      rcases hcompiled.output entry hentry _ hname with ⟨n, hn, heq⟩ | ⟨hkind, -⟩
      · cases heq
        rw [hcompiled.statements]
        exact ((hcompiled.settled.ready _ hn).resolve_left hresolved).2
      · cases hkind

namespace Session

variable {s t : Session} {replaced : List String}

/-- All macros of a session are lemma macros and, unless some feature could not be resolved, all
its rules are self-contained. -/
structure Independent (s : Session) : Prop where
  macros : s.document.LemmaMacrosOnly
  rules : s.report.Unresolved ∨ ∀ e ∈ s.document.definitions .rules,
    ∃ name held compiled, e = compiled.toElement name ∧ SelfContained s.document held compiled

/-- **Step lemma.**  Without disjoint sets, a step of processing keeps all rules self-contained. -/
theorem Step.independent (hs : s.workspace.Coherent) (hserviced : s.workspace.Serviced)
    (h : Step none replaced s t) (hindependent : s.Independent) : t.Independent := by
  cases h with
  | tell entries =>
      exact ⟨hindependent.macros, hindependent.rules.imp_left fun hunresolved =>
        hunresolved.mono fun entry hentry => List.mem_append_left _ hentry⟩
  | @drop name hname =>
      have hmacros : (s.workspace.discard .rules [name]).document.definitions .macros =
          s.document.definitions .macros := by
        show (s.document.removeAll .rules [name]).definitions .macros = _
        rw [TransferDocument.definitions_eq, TransferDocument.childrenOf_removeAll, if_neg nofun,
          TransferDocument.definitions_eq]
      refine ⟨fun e he => hindependent.macros e (hmacros ▸ he),
        hindependent.rules.imp_right fun hrules e he => ?_⟩
      obtain ⟨n, held, compiled, heq, hself⟩ :=
        hrules e (TransferDocument.mem_definitions_removeAll.1 he).1
      exact ⟨n, held, compiled, heq, hself.mono fun n hn =>
        Workspace.mem_definitionNames_discard.2 ⟨hn, nofun⟩⟩
  | add rule r =>
      obtain ⟨compiled, e, hmoves, hcompiled, heq⟩ := s.addCompiled_spec none rule r hs
      have hextends := Moves.extends hs hmoves
      have hworks : s.workspace.Works [] e.workspace := works_of_moves hs hmoves
      have hnew := selfContained_of_compiled hs hmoves rfl hcompiled
        (hserviced.enriches hs hworks.enriches)
      rw [heq]
      generalize (e.workspace.names.allocate .rules rule.name).1 = name
      have htag : (compiled.toElement name).name = SectionKind.rules.definitionTag := rfl
      have hname := definitionName?_compiledRule name compiled
      have hmacros := lemmaMacrosOnly_of_moves rfl hmoves hindependent.macros
      have hnames : ∀ n ∈ e.workspace.document.definitionNames .macros,
          n ∈ (e.workspace.define .rules name
            (compiled.toElement name)).document.definitionNames .macros :=
        fun n hn => (Workspace.mem_definitionNames_define htag hname).2 (.inl hn)
      have hdefinitions : ∀ kind, (e.workspace.define .rules name
          (compiled.toElement name)).document.definitions kind = _ :=
        fun kind => TransferDocument.definitions_addDefinition htag
      refine ⟨fun e' he' => hmacros e' ?_, ?_⟩
      · exact ((hdefinitions .macros).trans (if_neg nofun)) ▸ he'
      · rcases hindependent.rules with hunresolved | hrules
        · exact .inl (hextends.unresolved hunresolved)
        · refine hnew.imp_right fun hnew e' he' => ?_
          have he' : e' ∈ e.workspace.document.definitions .rules ++ [compiled.toElement name] :=
            ((hdefinitions .rules).trans (if_pos rfl)) ▸ he'
          rcases List.mem_append.1 he' with he' | he'
          · rw [TransferDocument.definitions_eq, hextends.grows.rules.1,
              ← TransferDocument.definitions_eq] at he'
            obtain ⟨n, held, compiled', rfl, hself⟩ := hrules e' he'
            exact ⟨n, held, compiled', rfl, hself.mono fun n hn =>
              hnames n (hextends.grows.mem_definitionNames hn)⟩
          · exact ⟨name, _, compiled, List.mem_singleton.1 he', hnew.mono hnames⟩

/-- **Run lemma.**  And so do any number of steps. -/
theorem Steps.independent (hs : s.workspace.Coherent) (hserviced : s.workspace.Serviced)
    (h : Steps none replaced s t) (hindependent : s.Independent) : t.Independent := by
  induction h with
  | refl => exact hindependent
  | tail hsteps hstep ih =>
      have hworks := Steps.works hs hsteps
      exact hstep.independent (hs.works hworks) (hserviced.enriches hs hworks.enriches) ih

/-- Documents without disjoint sets keep all rules self-contained. -/
theorem independent_processAll (hs : s.workspace.Coherent) (hserviced : s.workspace.Serviced)
    {documents : List (Specification × String)}
    (hdisjoint : ∀ document ∈ documents, document.1.disjointSet? = none)
    (hindependent : s.Independent) : (s.processAll documents).Independent := by
  induction documents generalizing s with
  | nil => exact hindependent
  | cons document documents ih =>
      have hsteps := s.process_steps document.1 document.2
      rw [hdisjoint document List.mem_cons_self] at hsteps
      have hworks := hsteps.works hs
      exact ih (hs.works hworks) (hserviced.enriches hs hworks.enriches)
        (fun document hdocument => hdisjoint document (List.mem_cons_of_mem _ hdocument))
        (hsteps.independent hs hserviced hindependent)

/-- A new session has no macros and no rules. -/
theorem independent_start (source target : Lexicon) (settings : GeneratorSettings) :
    (start source target settings).Independent := by
  have hnone : ∀ kind, (start source target settings).document.definitions kind = [] := by
    intro kind
    unfold start
    split <;> cases kind <;> rfl
  refine ⟨fun e he => ?_, .inr fun e he => ?_⟩
  · rw [hnone] at he
    cases he
  · rw [hnone] at he
    cases he

/-- What could not be resolved is an error. -/
theorem hasErrors_of_unresolved {r : Report} (h : r.Unresolved) : r.hasErrors = true := by
  obtain ⟨category, label, hhas⟩ := h
  have hmessage : (Issue.unresolvedFeature category label).message ∈ r.messages .error :=
    List.mem_map.2 ⟨_, List.mem_filter.2 ⟨hhas, rfl⟩, rfl⟩
  have hpositive : 0 < (r.messages .error).length := List.length_pos_of_mem hmessage
  have herrors : r.summary.errors ≠ 0 := Nat.pos_iff_ne_zero.1 hpositive
  rw [Report.hasErrors, ReportSummary.passed, beq_eq_false_iff_ne.2 herrors]
  rfl

/-- **What a rule puts out depends on the phrase only.**  If specifications without a disjoint set
are processed in a new session and no error is reported, then every rule puts out the same for a
phrase, whatever the variables hold before. -/
theorem execute_processAll (source target : Lexicon) (settings : GeneratorSettings)
    (documents : List (Specification × String))
    (hdisjoint : ∀ document ∈ documents, document.1.disjointSet? = none)
    (hpassed : ((start source target settings).processAll documents).report.hasErrors = false) :
    let d := ((start source target settings).processAll documents).document
    ∀ rule ∈ d.definitions .rules,
      ∀ (phrase : Matched) (depth : Nat) (contents contents' : Contents),
      (d.execute phrase (depth + 1) rule contents).output =
        (d.execute phrase (depth + 1) rule contents').output := by
  intro d rule hrule phrase depth contents contents'
  have hcoherent : (start source target settings).workspace.Coherent :=
    coherent_run source target settings []
  have hserviced : (start source target settings).workspace.Serviced :=
    serviced_run source target settings []
  have hindependent := independent_processAll hcoherent hserviced hdisjoint
    (independent_start source target settings)
  rcases hindependent.rules with hunresolved | hrules
  · rw [hasErrors_of_unresolved hunresolved] at hpassed
    cases hpassed
  · obtain ⟨name, held, compiled, rfl, hself⟩ := hrules rule hrule
    exact hself.execute_eq hindependent.macros name depth contents contents'

/-- The suffix of a noun is chosen by the lemma of the noun, whatever was chosen before. -/
theorem execute_processAll_noun :
    let s := genderedNouns.processAll [(nounSpecification ["gender"], "spec")]
    let phrase : Matched := ⟨fun _ _ part => if part = "lem" then "mtu" else "", fun _ => " "⟩
    s.report.hasErrors = false ∧
      ∃ rule ∈ s.document.definitions .rules, ∀ contents,
        (s.document.execute phrase 1 rule contents).output = "^mtu<A1>$" := by
  intro s phrase
  have hpassed : s.report.hasErrors = false := by decide +kernel
  have houtput : ∃ rule ∈ s.document.definitions .rules,
      (s.document.execute phrase 1 rule fun _ => "").output = "^mtu<A1>$" := by decide +kernel
  obtain ⟨rule, hrule, houtput⟩ := houtput
  have hdisjoint : ∀ document ∈ [(nounSpecification ["gender"], "spec")],
      document.1.disjointSet? = none := by decide
  refine ⟨hpassed, rule, hrule, fun contents => houtput ▸ ?_⟩
  exact execute_processAll genderedNouns.source genderedNouns.target genderedNouns.settings
    [(nounSpecification ["gender"], "spec")] hdisjoint hpassed rule hrule phrase 0 contents _

end Session

end TransferRules

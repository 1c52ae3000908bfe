import TransferRules.Proofs.Compile.Emitting
import TransferRules.Proofs.Workspace.Changes
import TransferRules.Session.Processing

/-!
# Runs of a session

A session is driven by operations, and now and then by the load of a file.  Between two loads its
workspace only changes in the ways of `Workspace.Change`; a load that succeeds starts over with
the workspace of the new file, and one that fails leaves the session as it is.

## Main Definitions

* `Operation` — what can be done with a session between two loads
* `Event`, `Session.run` — operations and loads, and a run of them
* `Operation.replaced` — the names of the rules that an operation may remove

## Main Statements

* `Session.apply_changes` — what an operation does to a coherent workspace is made of changes
* `Session.run_invariant` — induction over runs
* `Session.coherent_run` — the workspace of every session that was started and run is coherent
* `Session.coherent_and_edits_of_run` — and no operation gives a name to a second definition
-/

namespace TransferRules

open TransferRules.Compile
open TransferRules.Ordered
open TransferRules.Text
open TransferRules.Transfer

/-- What can be done with a session between two loads. -/
inductive Operation where
  | process (x : Specification) (document : String)
  | trim
  | ensureAttribute (q : FeatureQuery)
  | addAttribute (base : String) (values : StringSet)
  | addVariable (name : String) (comment? : Option String)
  | availableName (kind : SectionKind) (base : String)

/-- The names of the rules that an operation may remove. -/
def Operation.replaced (settings : GeneratorSettings) : Operation → List String
  | process x _ =>
    if x.overwriteRules then (x.expansions settings).map fun rule => identifier rule.name else []
  | _ => []

/-- An operation, or the load of a file. -/
inductive Event where
  | load (text : String)
  | operation (op : Operation)

namespace Session

/-- The session after an operation. -/
def apply (s : Session) : Operation → Session
  | .process x document => (s.process x document).2
  | .trim => s.trim.2
  | .ensureAttribute q => (s.ensureAttribute q).2
  | .addAttribute base values => (s.addAttribute base values).2
  | .addVariable name comment? => (s.addVariable name comment?).2
  | .availableName kind base => (s.availableName kind base).2

/-- The session after some operations. -/
def applyAll (s : Session) (ops : List Operation) : Session := ops.foldl apply s

/-- The session after an event. -/
def handle (s : Session) : Event → Session
  | .load text =>
    match s.loadText text with
    | .ok loaded => loaded
    | .error _ => s
  | .operation op => s.apply op

/-- The session after some events. -/
def run (s : Session) (events : List Event) : Session := events.foldl handle s

/-! ## Processing -/

section Processing

variable {s t : Session} {disjoint : Option DisjointSet} {replaced : List String}

/-- One step of processing a specification: messages are added to the report, the rules of a name
are removed, or a compiled rule is added. -/
inductive Step (disjoint : Option DisjointSet) (replaced : List String) :
    Session → Session → Prop where
  | tell (s : Session) (entries : List ReportEntry) :
      Step disjoint replaced s { s with report := ⟨s.report.entries ++ entries⟩ }
  | drop (s : Session) {name : String} (hname : name ∈ replaced) :
      Step disjoint replaced s { s with workspace := s.workspace.discard .rules [name] }
  | add (s : Session) (rule : Rule) (r : Resolution) :
      Step disjoint replaced s (s.addCompiled disjoint rule r)

/-- Any number of steps. -/
abbrev Steps (disjoint : Option DisjointSet) (replaced : List String) :
    Session → Session → Prop :=
  Relation.ReflTransGen (Step disjoint replaced)

theorem report_noteAll (r : Report) (issues : List Issue) :
    r.noteAll issues = ⟨r.entries ++ issues.map fun issue => ⟨issue.severity, issue.message⟩⟩ := by
  induction issues generalizing r with
  | nil => exact congrArg Report.mk (List.append_nil _).symm
  | cons issue issues ih =>
      refine (ih (r.note issue)).trans (congrArg Report.mk ?_)
      rw [List.map_cons, ← List.singleton_append, ← List.append_assoc]
      rfl

theorem workspace_replaceRule (s : Session) (name : String) :
    (s.replaceRule name).workspace =
      if name ∈ s.ruleNames then s.workspace.discard .rules [name] else s.workspace := by
  have hcount : s.document.countNamed .rules name = 0 ↔ name ∉ s.ruleNames := by
    rw [TransferDocument.countNamed_eq, List.count_eq_zero]
    rfl
  unfold replaceRule
  by_cases h : name ∈ s.ruleNames
  · rw [if_pos h, if_neg fun hzero => hcount.1 hzero h]
    rfl
  · rw [if_neg h, if_pos (hcount.2 h)]

theorem replaceRule_steps {name : String} (hname : name ∈ replaced) :
    Steps disjoint replaced s (s.replaceRule name) := by
  unfold replaceRule
  split
  · exact .refl
  · exact .tail (.single (.drop s hname)) (.tell _ [⟨.info, _⟩])

theorem replaceRules_steps (rules : List Rule)
    (hreplaced : ∀ rule ∈ rules, identifier rule.name ∈ replaced) :
    Steps disjoint replaced s (s.replaceRules rules) := by
  unfold replaceRules
  induction rules generalizing s with
  | nil => exact .refl
  | cons rule rules ih =>
      rw [List.foldl_cons]
      exact (replaceRule_steps (hreplaced rule List.mem_cons_self)).trans
        (ih fun r hr => hreplaced r (List.mem_cons_of_mem _ hr))

theorem compileRule_steps (s : Session) (rule : Rule) :
    Steps disjoint replaced s (s.compileRule disjoint rule).2 := by
  unfold compileRule
  cases rule.resolve with
  | ok r => exact .single (.add s rule r)
  | error issue => exact .single (.tell s [⟨issue.severity, issue.message⟩])

theorem compileRules_steps (s : Session) (rules : List Rule) :
    Steps disjoint replaced s (s.compileRules disjoint rules).2 := by
  induction rules generalizing s with
  | nil => exact .refl
  | cons rule rules ih => exact (s.compileRule_steps rule).trans (ih _)

/-- **Processing is made of steps**, which are taken with the disjoint set of the specification,
and which remove rules only if the specification says so. -/
theorem process_steps (s : Session) (x : Specification) (document : String) :
    Steps x.disjointSet? (Operation.replaced s.settings (.process x document)) s
      (s.process x document).2 := by
  have hfindings : Steps x.disjointSet? (Operation.replaced s.settings (.process x document)) s
      { s with report := s.report.noteAll (x.findings s.settings) } := by
    rw [report_noteAll]
    exact .single (.tell s _)
  have hcompile : ∀ {t : Session},
      Steps x.disjointSet? (Operation.replaced s.settings (.process x document)) s t →
      ∀ message, Steps x.disjointSet? (Operation.replaced s.settings (.process x document)) s
        ((t.compileRules x.disjointSet? (x.expansions s.settings)).2.inform message) :=
    fun ht message => (ht.trans (compileRules_steps _ _)).tail (.tell _ [⟨.info, message⟩])
  unfold process
  dsimp only
  split
  · next hoverwrite =>
    refine hcompile (hfindings.trans (replaceRules_steps _ fun rule hrule => ?_)) _
    rw [Operation.replaced, if_pos hoverwrite]
    exact List.mem_map_of_mem hrule
  · exact hcompile hfindings _

/-- What becomes of a workspace while a rule is compiled is work. -/
theorem works_of_moves {ctx : Lexicons} {e e' : Emission} (he : e.workspace.Coherent)
    (h : Moves ctx e e') : e.workspace.Works replaced e'.workspace := by
  induction h with
  | refl => exact .refl
  | tail hmoves hmove ih =>
      cases hmove with
      | ask h => exact ih.trans ((Moves.coherent he hmoves).request h)
      | note issue => exact ih
      | claim name => exact ih
      | emit h => exact ih

theorem definitionName?_compiledRule (name : String) (r : Action.CompiledRule) :
    definitionName? .rules (r.toElement name) = some name := by
  simp [definitionName?, Action.CompiledRule.toElement, Action.Written.element,
    Markup.Element.attribute?, SectionKind.nameKey]

/-- The compiled rule is added to what compiling made of the workspace, under a name that is free
there. -/
theorem addCompiled_spec (s : Session) (disjoint : Option DisjointSet) (rule : Rule)
    (r : Resolution) (hs : s.workspace.Coherent) :
    ∃ compiled e, Moves (s.lexicons disjoint) { workspace := s.workspace, report := s.report } e ∧
      Compiled (s.lexicons disjoint) compiled e ∧
      s.addCompiled disjoint rule r = { s with
        report := e.report
        workspace := e.workspace.define .rules (e.workspace.names.allocate .rules rule.name).1
          (compiled.toElement (e.workspace.names.allocate .rules rule.name).1) } := by
  have hsettled : Settled (s.lexicons disjoint)
      { workspace := s.workspace, report := s.report } := ⟨hs, nofun⟩
  have hleads := compile_leads hsettled rule r
  exact ⟨_, _, hleads.1, hleads.2, rfl⟩

theorem addCompiled_eq (s : Session) (disjoint : Option DisjointSet) (rule : Rule)
    (r : Resolution) (hs : s.workspace.Coherent) :
    ∃ w e, s.workspace.Grows w ∧ e.name = SectionKind.rules.definitionTag ∧
      definitionName? .rules e = some (w.names.allocate .rules rule.name).1 ∧
      (s.addCompiled disjoint rule r).workspace =
        w.define .rules (w.names.allocate .rules rule.name).1 e := by
  obtain ⟨compiled, e, hmoves, -, heq⟩ := s.addCompiled_spec disjoint rule r hs
  rw [heq]
  exact ⟨_, _, (hmoves.extends hs).grows, rfl, definitionName?_compiledRule _ compiled, rfl⟩

/-- A step works on the workspace. -/
theorem Step.works (hs : s.workspace.Coherent) (h : Step disjoint replaced s t) :
    s.workspace.Works replaced t.workspace := by
  cases h with
  | tell entries => exact .refl
  | drop hname => exact .single (.dropRule _ hname)
  | add rule r =>
      obtain ⟨compiled, e, hmoves, hcompiled, heq⟩ := s.addCompiled_spec disjoint rule r hs
      rw [heq]
      refine (works_of_moves hs hmoves).tail
        (.addRule _ rfl (definitionName?_compiledRule _ compiled) ?_)
      exact hcompiled.settled.coherent.notMem_of_unused (e.workspace.names.allocate_fst_notMem _)

theorem Steps.works (hs : s.workspace.Coherent) (h : Steps disjoint replaced s t) :
    s.workspace.Works replaced t.workspace := by
  induction h with
  | refl => exact .refl
  | tail _ hstep ih => exact ih.trans (hstep.works (hs.works ih))

theorem Steps.settings (h : Steps disjoint replaced s t) : t.settings = s.settings := by
  induction h with
  | refl => rfl
  | tail _ hstep ih => cases hstep <;> exact ih

end Processing

/-! ## Operations -/

variable {s : Session} {replaced : List String}

theorem trim_changes (s : Session) : s.workspace.Changes replaced s.trim.2.workspace := by
  have hgenerated : ∀ {kind name} {p : String → Bool},
      name ∈ (s.document.generatedNames kind).filter p →
        s.document.provenanceOf? kind name = some .generated := by
    intro kind name p hname
    simpa using (List.mem_filter.1 (List.mem_filter.1 hname).1).2
  have heq : s.trim.2.workspace =
      (s.workspace.discard .macros s.document.unused.macros).discard .vars s.document.unused.vars :=
    rfl
  rw [heq]
  refine .tail (.single (.dropUnused _ (.inl rfl) fun name hname => ?_))
    (.dropUnused _ (.inr rfl) fun name hname => ?_)
  · rw [show s.workspace.document = s.document from rfl, hgenerated hname]
    exact nofun
  · show (s.document.removeAll .macros s.document.unused.macros).provenanceOf? .vars name ≠ _
    rw [TransferDocument.provenanceOf?_removeAll, if_neg (by simp), hgenerated hname]
    exact nofun

/-- Every operation but a trim works on the workspace. -/
theorem apply_works (hs : s.workspace.Coherent) {op : Operation} (hop : op ≠ .trim) :
    s.workspace.Works (op.replaced s.settings) (s.apply op).workspace := by
  cases op with
  | process x document => exact (s.process_steps x document).works hs
  | trim => exact absurd rfl hop
  | ensureAttribute q =>
      show s.workspace.Works _ (s.ensureAttribute q).2.workspace
      unfold ensureAttribute
      cases h : s.workspace.ensureAttribute (s.lexiconOf q.key) q with
      | ok result =>
          exact hs.request (show Request (s.lexicons none) _ _ from .needAttribute h)
      | error issue => exact .refl
  | addAttribute base values =>
      exact hs.request (show Request (s.lexicons none) _ _ from .needValues _ base values)
  | addVariable name comment? =>
      exact hs.request (show Request (s.lexicons none) _ _ from .needVariable _ _ comment?)
  | availableName kind base => exact .single (.take s.workspace kind _)

/-- **What an operation does to a coherent workspace is made of changes.** -/
theorem apply_changes (hs : s.workspace.Coherent) (op : Operation) :
    s.workspace.Changes (op.replaced s.settings) (s.apply op).workspace := by
  by_cases hop : op = .trim
  · subst hop
    exact s.trim_changes
  · exact (apply_works hs hop).changes

theorem settings_process (x : Specification) (document : String) :
    (s.process x document).2.settings = s.settings :=
  (s.process_steps x document).settings

/-- The settings stay as they are. -/
theorem settings_apply (op : Operation) : (s.apply op).settings = s.settings := by
  cases op with
  | process x document => exact settings_process x document
  | ensureAttribute q =>
      show (s.ensureAttribute q).2.settings = s.settings
      unfold ensureAttribute
      cases s.workspace.ensureAttribute (s.lexiconOf q.key) q <;> rfl
  | trim => rfl
  | addAttribute _ _ => rfl
  | addVariable _ _ => rfl
  | availableName _ _ => rfl

/-! ## Runs -/

/-- Nothing but the file decides about the workspace after a load. -/
theorem loadText_eq_ok {text : String} {loaded : Session} (h : s.loadText text = .ok loaded) :
    ∃ d : TransferDocument, d.AsLoaded ∧ loaded = s.load d := by
  unfold loadText at h
  cases hparse : TransferDocument.parse text with
  | error error =>
      rw [hparse] at h
      cases h
  | ok d =>
      rw [hparse] at h
      cases h
      exact ⟨d, TransferDocument.asLoaded_of_parse hparse, rfl⟩

/-- A new session is as if an empty file had been loaded. -/
theorem workspace_start (source target : Lexicon) (settings : GeneratorSettings) :
    ∃ d : TransferDocument, d.AsLoaded ∧
      (start source target settings).workspace = .ofDocument d := by
  cases hdoctype : settings.doctype with
  | true =>
      refine ⟨.blank, TransferDocument.asLoaded_of_sections rfl, ?_⟩
      simp only [start, hdoctype]
      rfl
  | false =>
      refine ⟨{ TransferDocument.blank with doctype := none },
        TransferDocument.asLoaded_of_sections rfl, ?_⟩
      simp only [start, hdoctype]
      rfl

/-- **Induction over runs.**  What holds of every workspace that was just loaded, and is preserved
by changes of coherent workspaces, holds after every run. -/
theorem run_invariant {P : Workspace → Prop}
    (hload : ∀ d : TransferDocument, d.AsLoaded → P (.ofDocument d))
    (hchanges : ∀ (w w' : Workspace) (replaced : List String), w.Coherent → P w →
      w.Changes replaced w' → P w')
    (source target : Lexicon) (settings : GeneratorSettings) (events : List Event) :
    P ((start source target settings).run events).workspace := by
  -- Coherence goes along, because only coherent workspaces change in the known ways.
  have hstep : ∀ (s : Session) (event : Event), s.workspace.Coherent ∧ P s.workspace →
      (s.handle event).workspace.Coherent ∧ P (s.handle event).workspace := by
    rintro s event ⟨hs, hP⟩
    cases event with
    | load text =>
        simp only [handle]
        cases h : s.loadText text with
        | ok loaded =>
            obtain ⟨d, hd, rfl⟩ := loadText_eq_ok h
            exact ⟨.ofDocument hd, hload d hd⟩
        | error error => exact ⟨hs, hP⟩
    | operation op =>
        have hop := apply_changes hs op
        exact ⟨hs.changes hop, hchanges _ _ _ hs hP hop⟩
  have hrun : ∀ s : Session, s.workspace.Coherent ∧ P s.workspace →
      (s.run events).workspace.Coherent ∧ P (s.run events).workspace := by
    induction events with
    | nil => exact fun s hs => hs
    | cons event events ih => exact fun s hs => ih _ (hstep s event hs)
  obtain ⟨d, hd, hstart⟩ := workspace_start source target settings
  refine (hrun _ ?_).2
  rw [hstart]
  exact ⟨.ofDocument hd, hload d hd⟩

/-- The workspace of every session that was started and run is coherent. -/
theorem coherent_run (source target : Lexicon) (settings : GeneratorSettings)
    (events : List Event) :
    ((start source target settings).run events).workspace.Coherent :=
  run_invariant (fun _ hd => .ofDocument hd) (fun _ _ _ hw _ h => hw.changes h) _ _ _ _

/-- All that operations do to a coherent workspace is made of changes, and only rules are removed
that one of the operations may remove. -/
theorem applyAll_changes (hs : s.workspace.Coherent) (ops : List Operation) :
    s.workspace.Changes (ops.flatMap (Operation.replaced s.settings))
      (s.applyAll ops).workspace := by
  induction ops generalizing s with
  | nil => exact .refl
  | cons op ops ih =>
      have hfirst := apply_changes hs op
      have hrest := ih (hs.changes hfirst)
      rw [settings_apply] at hrest
      rw [List.flatMap_cons]
      exact (hfirst.weaken fun name hname => List.mem_append_left _ hname).trans
        (hrest.weaken fun name hname => List.mem_append_right _ hname)

/-- **Every session stays in step.**  However a session has been run, with loads that succeed or
fail, its tables say what its document says.  And every operation edits the document only in the
ways of `Edit`, so that it never gives a name to a second definition. -/
theorem coherent_and_edits_of_run (source target : Lexicon) (settings : GeneratorSettings)
    (events : List Event) :
    ((start source target settings).run events).workspace.Coherent ∧
      ∀ op : Operation,
        Relation.ReflTransGen
            (Edit (op.replaced ((start source target settings).run events).settings))
            ((start source target settings).run events).document
            (((start source target settings).run events).apply op).document ∧
          ∀ kind name,
            (((start source target settings).run events).apply op).document.countNamed kind name
              ≤ max 1
                (((start source target settings).run events).document.countNamed kind name) := by
  have hcoherent := coherent_run source target settings events
  refine ⟨hcoherent, fun op => ?_⟩
  have hedits := (apply_changes hcoherent op).edits
  exact ⟨hedits, countNamed_le_of_edits hedits⟩

end Session

end TransferRules

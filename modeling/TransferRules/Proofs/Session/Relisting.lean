import TransferRules.Proofs.Compile.Relisting
import TransferRules.Proofs.Session.HeldMacros

/-!
# Sessions with relisted lexicons

The order in which a lexicon lists values, lemmas and affix glosses leaves no trace in a session.
Two sessions whose lexicons differ in nothing else answer every event alike, and have the same
report and the same document, however long they run.

## Main Definitions

* `Answer`, `Session.answers` — what is answered to events
* `Session.Relisted` — sessions that differ in the order of their lexicons' lists only

## Main Statements

* `Session.Relisted.process`, `Session.Relisted.handle` — **step lemmas**: an event is answered
  alike, and the sessions stay as close
* `Session.answers_relisted` — so is every run
-/

namespace TransferRules

open TransferRules.Compile
open TransferRules.Ordered
open TransferRules.Text
open TransferRules.Transfer

/-- What is answered to an event. -/
inductive Answer where
  | loaded
  | refused (error : LoadError)
  | added (count : Nat)
  | removed (summary : TrimSummary)
  | attribute (name? : Option String)
  | name (name : String)
  deriving Repr, DecidableEq

namespace Session

/-- What is answered to an event. -/
def answer (s : Session) : Event → Answer
  | .load text =>
    match s.loadText text with
    | .ok _ => .loaded
    | .error error => .refused error
  | .operation op =>
    match op with
    | .process x document => .added (s.process x document).1
    | .trim => .removed s.trim.1
    | .ensureAttribute q => .attribute (s.ensureAttribute q).1
    | .addAttribute base values => .name (s.addAttribute base values).1
    | .addVariable name comment? => .name (s.addVariable name comment?).1
    | .availableName kind base => .name (s.availableName kind base).1

/-- What is answered to some events, one after the other. -/
def answers (s : Session) : List Event → List Answer
  | [] => []
  | event :: events => s.answer event :: (s.handle event).answers events

/-- Two sessions that differ in the order of their lexicons' lists only. -/
structure Relisted (s s' : Session) : Prop where
  source : s.source.Relisted s'.source
  target : s.target.Relisted s'.target
  settings : s'.settings = s.settings
  report : s'.report = s.report
  workspace : s'.workspace = s.workspace

variable {s s' : Session}

namespace Relisted

theorem document (h : s.Relisted s') : s'.document = s.document :=
  congrArg Workspace.document h.workspace

/-- Sessions stay as close when both get the same report and the same workspace. -/
theorem update (h : s.Relisted s') (report : Report) (workspace : Workspace) :
    ({ s with report, workspace } : Session).Relisted { s' with report, workspace } :=
  ⟨h.source, h.target, h.settings, rfl, rfl⟩

theorem withReport (h : s.Relisted s') (report : Report) :
    ({ s with report } : Session).Relisted { s' with report } :=
  ⟨h.source, h.target, h.settings, rfl, h.workspace⟩

theorem withWorkspace (h : s.Relisted s') (workspace : Workspace) :
    ({ s with workspace } : Session).Relisted { s' with workspace } :=
  ⟨h.source, h.target, h.settings, h.report, rfl⟩

theorem note (h : s.Relisted s') (issue : Issue) : (s.note issue).Relisted (s'.note issue) := by
  unfold Session.note
  rw [h.report]
  exact h.withReport _

theorem inform (h : s.Relisted s') (message : String) :
    (s.inform message).Relisted (s'.inform message) := by
  unfold Session.inform
  rw [h.report]
  exact h.withReport _

/-! ## Processing -/

theorem lexicons (h : s.Relisted s') (disjoint : Option DisjointSet) :
    (s.lexicons disjoint).Relisted (s'.lexicons disjoint) :=
  ⟨h.source, h.target, rfl⟩

theorem addCompiled (h : s.Relisted s') (disjoint : Option DisjointSet) (rule : Rule)
    (r : Resolution) :
    (s.addCompiled disjoint rule r).Relisted (s'.addCompiled disjoint rule r) := by
  unfold Session.addCompiled
  rw [compile_relisted (h.lexicons disjoint), h.workspace, h.report]
  exact h.update _ _

theorem compileRule (h : s.Relisted s') (disjoint : Option DisjointSet) (rule : Rule) :
    (s'.compileRule disjoint rule).1 = (s.compileRule disjoint rule).1 ∧
      (s.compileRule disjoint rule).2.Relisted (s'.compileRule disjoint rule).2 := by
  unfold Session.compileRule
  cases rule.resolve with
  | ok r => exact ⟨rfl, h.addCompiled disjoint rule r⟩
  | error issue => exact ⟨rfl, h.note issue⟩

theorem compileRules (h : s.Relisted s') (disjoint : Option DisjointSet) (rules : List Rule) :
    (s'.compileRules disjoint rules).1 = (s.compileRules disjoint rules).1 ∧
      (s.compileRules disjoint rules).2.Relisted (s'.compileRules disjoint rules).2 := by
  induction rules generalizing s s' with
  | nil => exact ⟨rfl, h⟩
  | cons rule rules ih =>
      obtain ⟨hdone, hfirst⟩ := h.compileRule disjoint rule
      obtain ⟨hcount, hrest⟩ := ih hfirst
      refine ⟨?_, hrest⟩
      unfold Session.compileRules
      dsimp only
      rw [hdone, hcount]

theorem replaceRule (h : s.Relisted s') (name : String) :
    (s.replaceRule name).Relisted (s'.replaceRule name) := by
  unfold Session.replaceRule
  rw [h.document, h.workspace]
  split
  · exact h
  · exact (h.withWorkspace _).inform _

theorem replaceRules (h : s.Relisted s') (rules : List Rule) :
    (s.replaceRules rules).Relisted (s'.replaceRules rules) := by
  unfold Session.replaceRules
  induction rules generalizing s s' with
  | nil => exact h
  | cons rule rules ih => exact ih (h.replaceRule _)

/-- **A specification is processed alike**, to the same number of rules. -/
theorem process (h : s.Relisted s') (x : Specification) (document : String) :
    (s'.process x document).1 = (s.process x document).1 ∧
      (s.process x document).2.Relisted (s'.process x document).2 := by
  have hexpansions : x.expansions s'.settings = x.expansions s.settings := by rw [h.settings]
  have hnoted : s'.report.noteAll (x.findings s'.settings) =
      s.report.noteAll (x.findings s.settings) := by
    rw [h.report, h.settings]
  have hfound := h.withReport (s.report.noteAll (x.findings s.settings))
  unfold Session.process
  dsimp only
  rw [hexpansions, hnoted]
  split
  · obtain ⟨hcount, hrules⟩ := (hfound.replaceRules (x.expansions s.settings)).compileRules
      x.disjointSet? (x.expansions s.settings)
    rw [hcount]
    exact ⟨rfl, hrules.inform _⟩
  · obtain ⟨hcount, hrules⟩ := hfound.compileRules x.disjointSet? (x.expansions s.settings)
    rw [hcount]
    exact ⟨rfl, hrules.inform _⟩

/-! ## Events -/

theorem ensureAttribute (h : s.Relisted s') (q : FeatureQuery) :
    (s'.ensureAttribute q).1 = (s.ensureAttribute q).1 ∧
      (s.ensureAttribute q).2.Relisted (s'.ensureAttribute q).2 := by
  have hlexicon : (s.lexiconOf q.key).Relisted (s'.lexiconOf q.key) := by
    unfold lexiconOf
    split
    · exact h.source
    · exact h.target
  unfold Session.ensureAttribute
  rw [Workspace.ensureAttribute_relisted _ hlexicon, h.workspace]
  cases s.workspace.ensureAttribute (s.lexiconOf q.key) q with
  | ok result => exact ⟨rfl, h.withWorkspace _⟩
  | error issue => exact ⟨rfl, h.note issue⟩

theorem trim (h : s.Relisted s') : s'.trim.1 = s.trim.1 ∧ s.trim.2.Relisted s'.trim.2 := by
  unfold Session.trim
  rw [h.document, h.workspace]
  exact ⟨rfl, h.withWorkspace _⟩

/-- **An event is answered alike**, and the sessions stay as close. -/
theorem handle (h : s.Relisted s') (event : Event) :
    s'.answer event = s.answer event ∧ (s.handle event).Relisted (s'.handle event) := by
  cases event with
  | load text =>
      simp only [answer, Session.handle, loadText]
      cases TransferDocument.parse text with
      | ok d => exact ⟨rfl, h.withWorkspace _⟩
      | error error => exact ⟨rfl, h⟩
  | operation op =>
      cases op with
      | process x document =>
          obtain ⟨hcount, hrest⟩ := h.process x document
          exact ⟨congrArg Answer.added hcount, hrest⟩
      | trim =>
          obtain ⟨hsummary, hrest⟩ := h.trim
          exact ⟨congrArg Answer.removed hsummary, hrest⟩
      | ensureAttribute q =>
          obtain ⟨hname, hrest⟩ := h.ensureAttribute q
          exact ⟨congrArg Answer.attribute hname, hrest⟩
      | addAttribute base values =>
          show Answer.name (s'.workspace.addAttribute base values).1 = _ ∧ Relisted _ { s' with
            workspace := (s'.workspace.addAttribute base values).2 }
          rw [h.workspace]
          exact ⟨rfl, h.withWorkspace _⟩
      | addVariable name comment? =>
          show _ ∧ Relisted _ { s' with
            workspace := s'.workspace.ensureVariable (identifier name) comment? }
          rw [h.workspace]
          exact ⟨rfl, h.withWorkspace _⟩
      | availableName kind base =>
          show Answer.name (s'.workspace.allocate kind base).1 = _ ∧ Relisted _ { s' with
            workspace := (s'.workspace.allocate kind base).2 }
          rw [h.workspace]
          exact ⟨rfl, h.withWorkspace _⟩

/-- So is every run. -/
theorem run (h : s.Relisted s') (events : List Event) :
    s'.answers events = s.answers events ∧ (s.run events).Relisted (s'.run events) := by
  induction events generalizing s s' with
  | nil => exact ⟨rfl, h⟩
  | cons event events ih =>
      obtain ⟨hanswer, hnext⟩ := h.handle event
      obtain ⟨hanswers, hrun⟩ := ih hnext
      refine ⟨?_, hrun⟩
      rw [answers, answers, hanswer, hanswers]

end Relisted

/-- **The order of a lexicon's lists leaves no trace.**  However a session is used, with its
lexicons listed in another order it gives the same answers, and has the same messages in its report
and the same document; nor can it be told from what is written or from the macro in use. -/
theorem answers_relisted {source' target' : Lexicon} (s : Session)
    (hsource : s.source.Relisted source') (htarget : s.target.Relisted target')
    (events : List Event) :
    let s' : Session := { s with source := source', target := target' }
    s'.answers events = s.answers events ∧
      (s'.run events).report = (s.run events).report ∧
      (s'.run events).document = (s.run events).document ∧
      (s'.run events).write = (s.run events).write ∧
      (s'.run events).disjointMacro? = (s.run events).disjointMacro? := by
  intro s'
  have hs : s.Relisted s' := ⟨hsource, htarget, rfl, rfl, rfl⟩
  obtain ⟨hanswers, hrun⟩ := hs.run events
  refine ⟨hanswers, hrun.report, hrun.document, ?_, ?_⟩
  · rw [Session.write, Session.write, hrun.document, hrun.settings]
  · rw [disjointMacro?, disjointMacro?, hrun.workspace]

/-- A lexicon that knows lemmas and affixes for the gender of nouns. -/
def genderLexicon (lemmas affixes : List Exponent) : Lexicon where
  projectName := "target"
  categories := StringMap.empty.insert "n" none
  features := StringMap.empty.insert "n"
    (StringMap.empty.insert "gender" { lemmas := lemmas, affixes := affixes })

/-- It does not matter whether persons or things come first; of the two genders of a noun the first
one counts in any case. -/
theorem answers_relisted_gender :
    let s := start (genderLexicon [] [])
      (genderLexicon [⟨"mtu", "1"⟩, ⟨"kitu", "7"⟩, ⟨"mtu", "2"⟩] [⟨"A1", "1"⟩, ⟨"A7", "7"⟩]) {}
    let s' : Session := { s with
      target :=
        genderLexicon [⟨"kitu", "7"⟩, ⟨"mtu", "1"⟩, ⟨"mtu", "2"⟩] [⟨"A7", "7"⟩, ⟨"A1", "1"⟩] }
    let events : List Event := [.operation (processNoun ["gender"]), .operation .trim]
    s'.target ≠ s.target ∧
      (s.run events).report.hasErrors = false ∧
      s'.answers events = s.answers events ∧
      (s'.run events).document = (s.run events).document := by
  intro s s' events
  have hsource : s.source.Relisted s.source :=
    ⟨rfl, rfl, .cons ⟨rfl, .cons ⟨rfl, .refl _, .refl _, .refl _⟩ .nil⟩ .nil⟩
  have htarget : s.target.Relisted s'.target :=
    ⟨rfl, rfl,
      .cons ⟨rfl, .cons ⟨rfl, .refl _, .swap (by decide) _, .swap (by decide) _⟩ .nil⟩ .nil⟩
  obtain ⟨hanswers, -, hdocument, -, -⟩ := answers_relisted s hsource htarget events
  exact ⟨by decide +kernel, by decide +kernel, hanswers, hdocument⟩

end Session

end TransferRules

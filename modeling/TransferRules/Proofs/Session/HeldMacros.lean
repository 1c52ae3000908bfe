import Mathlib.Data.List.Induction
import TransferRules.Proofs.Session.Trim
import TransferRules.Proofs.Workspace.HeldMacros

/-!
# Held macros between trims

A macro that is held is answered without a look at the document, so a rule that is compiled later
relies on its variables.  Work keeps them defined.  A trim removes every generated variable that
no rule and no macro that stays mentions; this does no harm to a macro that was generated, which
mentions the variable that it sets, but a macro that was loaded may mention anything.

## Main Statements

* `Session.run_induction` — induction over runs, one event after the other
* `Session.serviced_trim`, `Session.macrosMade_trim` — what a trim keeps
* `Session.supplied_trim_iff` — when a trim takes away a variable of a held macro
* `Session.heldMacros_of_run` — what a session can rely on
* `Session.heldMacros_stubFile_unsupplied` — and what it cannot
-/

namespace TransferRules

open TransferRules.Markup
open TransferRules.Ordered
open TransferRules.Transfer

namespace Session

variable {s : Session}

/-! ## Runs, one event after the other -/

theorem run_append (s : Session) (events : List Event) (event : Event) :
    s.run (events ++ [event]) = (s.run events).handle event := by
  rw [run, List.foldl_append]
  rfl

/-- **Induction over runs.**  What holds of every workspace that was just loaded, is preserved by
work and is preserved by trims, holds after every run. -/
theorem run_induction {P : Workspace → Prop}
    (hload : ∀ d : TransferDocument, d.AsLoaded → P (.ofDocument d))
    (hworks : ∀ (w w' : Workspace) (replaced : List String), w.Coherent → P w →
      w.Works replaced w' → P w')
    (htrim : ∀ s : Session, s.document.WellNamed → P s.workspace → P s.trim.2.workspace)
    (source target : Lexicon) (settings : GeneratorSettings) (events : List Event) :
    P ((start source target settings).run events).workspace := by
  induction events using List.reverseRecOn with
  | nil =>
      obtain ⟨d, hd, hstart⟩ := workspace_start source target settings
      show P (start source target settings).workspace
      rw [hstart]
      exact hload d hd
  | append_singleton events event ih =>
      have hcoherent := coherent_run source target settings events
      have hnamed := wellNamed_run source target settings events
      rw [run_append]
      generalize (start source target settings).run events = s at ih hcoherent hnamed ⊢
      cases event with
      | load text =>
          simp only [handle]
          cases h : s.loadText text with
          | ok loaded =>
              obtain ⟨d, hd, rfl⟩ := loadText_eq_ok h
              exact hload d hd
          | error error => exact ih
      | operation op =>
          by_cases hop : op = .trim
          · subst hop
            exact htrim s hnamed ih
          · exact hworks _ _ _ hcoherent ih (apply_works hcoherent hop)

/-! ## Trims -/

/-- What a macro that stays mentions is used, and nothing that is used is removed. -/
theorem serviced_trim (hd : s.document.WellNamed) (hs : s.workspace.Serviced) :
    s.trim.2.workspace.Serviced where
  named m hm := hs.named m (MacroTable.mem_held_of_forget hm)
  mentioned m hm e he hname v hv hmentioned := by
    have huser : s.document.IsUser e :=
      TransferDocument.isUser_of_mem_trim hd (.inr ⟨he, by rw [hname]; rfl⟩)
    have hdefined : v ∈ s.document.definitionNames .vars :=
      hs.mentioned m (MacroTable.mem_held_of_forget hm) e
        (TransferDocument.mem_definitions_trim_iff.1 he).1 hname v hv hmentioned
    exact TransferDocument.mem_definitionNames_trim_of_used hd
      (.inr ⟨rfl, e, huser, hmentioned⟩) hdefined

theorem macrosMade_trim (hd : s.document.WellNamed) (hs : s.workspace.MacrosMade) :
    s.trim.2.workspace.MacrosMade := by
  intro e he n hname hgenerated
  have hbefore : s.document.provenanceOf? .macros n = some .generated := by
    rw [show s.trim.2.workspace.document = s.document.trim.2 from rfl,
      TransferDocument.provenanceOf?_trim hd] at hgenerated
    split at hgenerated
    · cases hgenerated
    · exact hgenerated
  exact hs e (TransferDocument.mem_definitions_trim_iff.1 he).1 n hname hbefore

/-- A variable is there after a trim if it was there before and, unless it was loaded, is used. -/
theorem mem_vars_trim_iff (hd : s.document.WellNamed) {v : String} :
    v ∈ s.trim.2.document.definitionNames .vars ↔ v ∈ s.document.definitionNames .vars ∧
      (s.document.provenanceOf? .vars v = some .generated → s.document.VariableUsed v) := by
  rw [show s.trim.2.document = s.document.trim.2 from rfl,
    TransferDocument.definitionNames_trim, List.mem_filter]
  refine and_congr_right fun _ => ?_
  rw [Bool.not_eq_true', ← Bool.not_eq_true, List.contains_iff_mem, TrimSummary.names,
    TransferDocument.mem_unused_vars_iff hd, not_and, not_not]

/-- A trim takes away the generated variables of held macros that are not used. -/
theorem supplied_trim_iff (hd : s.document.WellNamed) : s.trim.2.workspace.Supplied ↔
    ∀ m ∈ s.trim.2.workspace.macros.held, ∀ v ∈ m.variables,
      v ∈ s.document.definitionNames .vars ∧
        (s.document.provenanceOf? .vars v = some .generated → s.document.VariableUsed v) := by
  refine forall₂_congr fun m _ => forall₂_congr fun v _ => ?_
  exact mem_vars_trim_iff hd

/-! ## Runs -/

/-- Every event but a trim keeps a session supplied. -/
theorem supplied_handle (hs : s.workspace.Coherent) (hsupplied : s.workspace.Supplied)
    {event : Event} (hevent : event ≠ .operation .trim) :
    (s.handle event).workspace.Supplied := by
  cases event with
  | load text =>
      simp only [handle]
      cases h : s.loadText text with
      | ok loaded =>
          obtain ⟨d, -, rfl⟩ := loadText_eq_ok h
          exact Workspace.supplied_ofDocument d
      | error error => exact hsupplied
  | operation op =>
      exact hsupplied.enriches (apply_works hs fun hop => hevent (hop ▸ rfl)).enriches

theorem serviced_run (source target : Lexicon) (settings : GeneratorSettings)
    (events : List Event) :
    ((start source target settings).run events).workspace.Serviced :=
  run_induction (fun d _ => Workspace.serviced_ofDocument d)
    (fun _ _ _ hcoherent hw h => hw.enriches hcoherent h.enriches)
    (fun _ hd hw => serviced_trim hd hw) _ _ _ _

theorem macrosMade_run (source target : Lexicon) (settings : GeneratorSettings)
    (events : List Event) :
    ((start source target settings).run events).workspace.MacrosMade :=
  run_induction (fun _ hd => Workspace.macrosMade_ofDocument hd)
    (fun _ _ _ _ hw h => hw.enriches h.enriches) (fun _ hd hw => macrosMade_trim hd hw) _ _ _ _

/-- Without trims the variables of held macros are defined. -/
theorem supplied_run (source target : Lexicon) (settings : GeneratorSettings)
    {events : List Event} (hevents : ∀ event ∈ events, event ≠ .operation .trim) :
    ((start source target settings).run events).workspace.Supplied := by
  induction events using List.reverseRecOn with
  | nil =>
      obtain ⟨d, -, hstart⟩ := workspace_start source target settings
      show (start source target settings).workspace.Supplied
      rw [hstart]
      exact Workspace.supplied_ofDocument d
  | append_singleton events event ih =>
      rw [run_append]
      refine supplied_handle (coherent_run source target settings events)
        (ih fun e he => hevents e (List.mem_append_left _ he)) (hevents event ?_)
      exact List.mem_append_right _ (List.mem_singleton_self _)

/-- **What a session can rely on.**  However a session has been run, a variable of a held macro is
defined if a macro of its name mentions it, and the variable that the macro sets is defined if the
macro was generated.  Only a trim can take a variable of a held macro away, and it takes those
that were generated and that nothing uses. -/
theorem heldMacros_of_run (source target : Lexicon) (settings : GeneratorSettings)
    (events : List Event) :
    let s := (start source target settings).run events
    let defined := s.document.definitionNames .vars
    (∀ m ∈ s.workspace.macros.held,
      (∀ v ∈ m.variables, ∀ e ∈ s.document.definitions .macros,
        definitionName? .macros e = some m.name → ⟨.vars, v⟩ ∈ references e → v ∈ defined) ∧
      (s.document.provenanceOf? .macros m.name = some .generated → m.result ∈ defined)) ∧
    ((∀ event ∈ events, event ≠ .operation .trim) → s.workspace.Supplied) ∧
    (∀ event, event ≠ .operation .trim → s.workspace.Supplied →
      (s.handle event).workspace.Supplied) ∧
    (s.trim.2.workspace.Supplied ↔
      ∀ m ∈ s.trim.2.workspace.macros.held, ∀ v ∈ m.variables, v ∈ defined ∧
        (s.document.provenanceOf? .vars v = some .generated → s.document.VariableUsed v)) := by
  intro s defined
  have hcoherent : s.workspace.Coherent := coherent_run source target settings events
  have hserviced : s.workspace.Serviced := serviced_run source target settings events
  have hmade : s.workspace.MacrosMade := macrosMade_run source target settings events
  refine ⟨fun m hm => ⟨fun v hv e he hname => ?_, ?_⟩, supplied_run source target settings,
    fun event hevent hsupplied => supplied_handle hcoherent hsupplied hevent,
    supplied_trim_iff (wellNamed_run source target settings events)⟩
  · exact hserviced.mentioned m hm e he hname v hv
  · exact hserviced.mem_definitionNames_result hcoherent hmade hm

/-! ## A macro that was loaded -/

/-- Without generated macros, a trim removes all generated variables if nothing mentions any. -/
theorem trim_of_unmentioned (hd : s.document.WellNamed)
    (hmacros : s.document.generatedNames .macros = [])
    (hvars : ∀ e ∈ s.document.definitions .rules ++ s.document.definitions .macros,
      ∀ v ∈ s.document.generatedNames .vars, ⟨.vars, v⟩ ∉ references e) :
    s.trim.2 = { s with
      workspace := (s.workspace.discard .macros []).discard .vars
        (s.document.generatedNames .vars) } := by
  have hunused : s.document.unused = ⟨[], s.document.generatedNames .vars⟩ := by
    unfold TransferDocument.unused
    rw [hmacros]
    refine congrArg (TrimSummary.mk []) (List.filter_eq_self.2 fun v hv => ?_)
    rw [Bool.not_eq_true', ← Bool.not_eq_true, List.contains_iff_mem,
      TransferDocument.mem_usedVariables_iff hd]
    rintro ⟨e, huser, hmentioned⟩
    exact hvars e huser.mem v hv hmentioned
  show ({ s with
    workspace := (s.workspace.discard .macros s.document.unused.macros).discard .vars
      s.document.unused.vars } : Session) = _
  rw [hunused]

/-- A file in which the lemma macro for the gender of nouns has been emptied. -/
def stubFile : String :=
  "<transfer><section-def-macros><def-macro n=\"m_n_gender_from_lemma\"/>" ++
    "</section-def-macros></transfer>"

/-- Its document. -/
def stubDocument : TransferDocument where
  doctype := none
  sections := PerSection.set (.const none) .macros
    (some ⟨[], [.element "def-macro" [("n", "m_n_gender_from_lemma")] []], .loaded,
      [("m_n_gender_from_lemma", .loaded)]⟩)

theorem parse_stubFile : TransferDocument.parse stubFile = .ok stubDocument := by
  with_unfolding_all rfl

/-- A session with a lexicon that knows one lemma and one affix for the gender of nouns. -/
def genderedNouns : Session :=
  let nouns : StringMap (Option String) := StringMap.empty.insert "n" none
  start ⟨"source", nouns, .empty⟩
    ⟨"target", nouns, StringMap.empty.insert "n" (StringMap.empty.insert "gender"
      { lemmas := [⟨"mtu", "1"⟩], affixes := [⟨"A1", "1"⟩] })⟩ {}

/-- A document with a rule for a noun alone, with some features of its suffixes, which agree with
the noun. -/
def nounSpecification (labels : List String) : Specification where
  overwriteRules := true
  rules := [{
    rule := {
      name := "noun"
      source := [⟨"1", some "n", []⟩]
      target := [{
        id := "1"
        isHead := true
        features := [{ label := "gender", binding := .agreement "g" }]
        affixes := labels.map fun label => ⟨.after, [{ label, binding := .agreement "g" }]⟩ }] }
    permuted := none }]

/-- Process such a document. -/
def processNoun (labels : List String) : Operation := .process (nounSpecification labels) "spec"

/-- **A loaded macro may be held without its variable.**  The emptied macro is held and its
variable defined for a rule that is then replaced by one that does not need it.  A trim removes the
variable, but the macro is not forgotten, so that the next rule that needs it refers to a variable
that is not defined. -/
theorem heldMacros_stubFile_unsupplied :
    let s := genderedNouns.run [.load stubFile, .operation (processNoun ["gender"]),
      .operation (processNoun []), .operation .trim]
    let t := s.apply (processNoun ["gender"])
    (∃ m ∈ s.workspace.macros.held, ∃ v ∈ m.variables,
      v ∉ s.document.definitionNames .vars) ∧
    ∃ e ∈ t.document.definitions .rules, ∃ r ∈ references e, r.kind = .vars ∧
      r.name ∉ t.document.definitionNames .vars := by
  have hload : genderedNouns.handle (.load stubFile) = genderedNouns.load stubDocument := by
    rw [handle, loadText, parse_stubFile]
    rfl
  have hrun : genderedNouns.run [.load stubFile, .operation (processNoun ["gender"]),
      .operation (processNoun [])] = ((genderedNouns.load stubDocument).apply
        (processNoun ["gender"])).apply (processNoun []) := by
    rw [run, List.foldl_cons, hload]
    simp only [List.foldl_cons, List.foldl_nil, handle]
  have htrim : genderedNouns.run [.load stubFile, .operation (processNoun ["gender"]),
      .operation (processNoun []), .operation .trim] = (((genderedNouns.load stubDocument).apply
        (processNoun ["gender"])).apply (processNoun [])).trim.2 := by
    rw [← hrun]
    exact run_append genderedNouns [.load stubFile, .operation (processNoun ["gender"]),
      .operation (processNoun [])] (.operation .trim)
  have hd := wellNamed_run genderedNouns.source genderedNouns.target genderedNouns.settings
    [.load stubFile, .operation (processNoun ["gender"]), .operation (processNoun [])]
  rw [show start genderedNouns.source genderedNouns.target genderedNouns.settings = genderedNouns
    from rfl, hrun] at hd
  rw [htrim, trim_of_unmentioned hd (by decide +kernel) (by decide +kernel)]
  decide +kernel

end Session

end TransferRules

import TransferRules.Proofs.Action.References
import TransferRules.Proofs.Workspace.MacroNames

/-!
# Macros that are made

A macro is made for a feature, from the lemmas that express its values, or for a disjoint set,
from the lemmas of its parts.  Macros are the only definitions that refer to others, and all they
refer to are variables: the one that their name says, which they set, and for a disjoint set that
of the co-feature, which they read.

## Main Definitions

* `lemmaMacroFor`, `disjointMacroFor` — the macro that is made for a feature, or for a disjoint set
* `Synthesized` — the macros that are made, with their variables

## Main Statements

* `Synthesized.eq_of_mem_references` — a macro that is made refers to its variables only
* `Synthesized.mentions_result` — and to the one that its name says
-/

namespace TransferRules

open TransferRules.Action

/-- A lemma macro as its callers see it. -/
def lemmaHandle (category label : String) : MacroHandle :=
  ⟨(lemmaMacroNames category label).1, (lemmaMacroNames category label).2, [category]⟩

/-- The lemma macro that is made for a feature. -/
def lemmaMacroFor (x : Lexicon) (category label : String) : MacroDefinition :=
  lemmaMacro (lemmaHandle category label) category (lemmasByValue (x.lemmas category label))

/-- The macro of a disjoint set as its callers see it, under a given name. -/
def disjointHandle (x : Lexicon) (set : DisjointSet) (name : String) : MacroHandle :=
  ⟨name, (disjointNames set).2.1, disjointCategories x set⟩

/-- The macro that is made for a disjoint set, under a given name. -/
def disjointMacroFor (x : Lexicon) (set : DisjointSet) (name : String) : MacroDefinition :=
  disjointMacro (disjointHandle x set name) set (disjointNames set).2.2
    (set.pairings.map fun pairing => (pairing.coValue, lemmasByValue (allLemmas x pairing.part)))

/-- The macros that are made from a lexicon, with the variables that come with them: the one that
the macro sets, and for a disjoint set that of the co-feature. -/
inductive Synthesized (x : Lexicon) : MacroDefinition → List String → Prop where
  | lemmaMacro (category label : String) :
      Synthesized x (lemmaMacroFor x category label) [(lemmaMacroNames category label).2]
  | disjointMacro (set : DisjointSet) {name : String}
      (hname : IsMacroName name (disjointNames set).2.1) :
      Synthesized x (disjointMacroFor x set name)
        [(disjointNames set).2.1, (disjointNames set).2.2]

/-- The choice of a value by a lemma refers to the variable that it sets, and to nothing else. -/
theorem mem_references_lemmaChoice {target : String} {groups : List (String × List String)}
    {r : Reference} :
    r ∈ (lemmaChoice target groups).references Assignment.references ↔ r = ⟨.vars, target⟩ := by
  have hassign : ∀ value : String,
      Assignment.references ⟨target, .tag value⟩ = [⟨.vars, target⟩] := fun _ => rfl
  have htest : ∀ lemmas : List String, Test.references
      (.any (lemmas.map fun form => ⟨.clip 1 .target "lem", .lit form⟩)) = [] := by
    intro lemmas
    simp [Test.references, Test.equations, Equation.references, Value.references, builtinParts]
  simp only [Choice.references, lemmaChoice, List.mem_append, List.mem_flatMap, List.mem_map,
    Option.toList_some, List.mem_singleton, exists_eq_left]
  constructor
  · rintro (⟨branch, ⟨group, -, rfl⟩, hr⟩ | hr)
    · rw [htest, hassign] at hr
      simpa using hr
    · exact List.mem_singleton.1 hr
  · rintro rfl
    exact .inr (List.mem_singleton_self _)

theorem references_lemmaMacro (handle : MacroHandle) (category : String)
    (groups : List (String × List String)) : (lemmaMacro handle category groups).references =
      (lemmaChoice handle.result groups).references Assignment.references := by
  simp only [MacroDefinition.references, lemmaMacro, Choice.references, List.flatMap_map]
  rfl

/-- So does what a disjoint macro does for one part. -/
theorem mem_references_partStep {target : String} {groups : List (String × List String)}
    {r : Reference} : r ∈ (partStep target groups).references ↔ r = ⟨.vars, target⟩ := by
  unfold partStep
  split
  · exact List.mem_singleton
  · exact mem_references_lemmaChoice

/-- A disjoint macro refers to the variable that it sets and, as far as it has parts, to that of
the co-feature. -/
theorem mem_references_disjointMacro {handle : MacroHandle} {set : DisjointSet} {co : String}
    {parts : List (String × List (String × List String))} {r : Reference} :
    r ∈ (disjointMacro handle set co parts).references ↔
      r = ⟨.vars, handle.result⟩ ∨ parts ≠ [] ∧ r = ⟨.vars, co⟩ := by
  have htest : ∀ value : String,
      Test.references (.all [⟨.var co, .tag value⟩]) = [⟨.vars, co⟩] := fun _ => rfl
  have hclear : Step.references (.assign (.clear handle.result)) = [⟨.vars, handle.result⟩] := rfl
  simp only [MacroDefinition.references, disjointMacro, Choice.references, List.mem_append,
    List.mem_flatMap, List.mem_map, Option.toList_some, List.mem_singleton, exists_eq_left, hclear]
  constructor
  · rintro (⟨branch, ⟨part, hpart, rfl⟩, hr⟩ | hr)
    · rw [htest, List.mem_singleton, mem_references_partStep] at hr
      rcases hr with hr | hr
      · exact .inr ⟨List.ne_nil_of_mem hpart, hr⟩
      · exact .inl hr
    · exact .inl hr
  · rintro (hr | ⟨hparts, hr⟩)
    · exact .inr hr
    · obtain ⟨part, hpart⟩ := List.exists_mem_of_ne_nil parts hparts
      exact .inl ⟨_, ⟨part, hpart, rfl⟩, .inl (by rw [htest, hr]; exact List.mem_singleton_self _)⟩

namespace Synthesized

variable {x : Lexicon} {m : MacroDefinition} {vs : List String}

/-- A macro that is made refers to its variables only. -/
theorem eq_of_mem_references (h : Synthesized x m vs) {r : Reference}
    (hr : r ∈ m.references) : ∃ v ∈ vs, r = ⟨.vars, v⟩ := by
  cases h with
  | lemmaMacro category label =>
      rw [lemmaMacroFor, references_lemmaMacro, mem_references_lemmaChoice] at hr
      exact ⟨_, List.mem_singleton_self _, hr⟩
  | disjointMacro set hname =>
      rcases mem_references_disjointMacro.1 hr with hr | ⟨-, hr⟩
      · exact ⟨_, List.mem_cons_self, hr⟩
      · exact ⟨_, List.mem_cons_of_mem _ (List.mem_singleton_self _), hr⟩

/-- It sets the variable that its name says. -/
theorem mentions_result (h : Synthesized x m vs) {result : String}
    (hname : IsMacroName m.name result) : ⟨.vars, result⟩ ∈ m.references := by
  cases h with
  | lemmaMacro category label =>
      rw [hname.result_unique (.lemmaMacro category label), lemmaMacroFor, references_lemmaMacro,
        mem_references_lemmaChoice]
      rfl
  | disjointMacro set hset =>
      rw [hname.result_unique hset]
      exact mem_references_disjointMacro.2 (.inl rfl)

end Synthesized

end TransferRules

import TransferRules.Action.Basic
import TransferRules.Transfer.Usage

/-!
# What actions refer to

An element of a rule or macro may refer to a definition of the transfer file: an item of a
pattern to a category, a clip to an attribute, a call to a macro, and a variable to its own
definition.  For what the compiler generates, the references are read off the action itself, so
that no proof about a compilation has to look at the tree that is written.

## Main Definitions

* `Reference`, `references` — a reference to a definition, and those inside an element
* `Statement.references`, `CompiledRule.references` and the like — the references of actions
* `Statement.reads`, `Statement.sets` — the variables that a statement reads, and those that it
  sets whichever branch is taken

## Main Statements

* `mem_calledMacros_iff`, `mem_mentionedVariables_iff` — what counts for a trim are references
* `references_compiledRule`, `references_macroDefinition` — what is written refers to what the
  action refers to
-/

namespace TransferRules

open TransferRules.Action
open TransferRules.Markup
open TransferRules.Transfer

/-- A reference to a definition: the section of the definition and its name. -/
structure Reference where
  kind : SectionKind
  name : String
  deriving Repr, DecidableEq

/-- The parts of a word that need no attribute: its lemma, and all of its tags. -/
def builtinParts : List String := ["lem", "tags"]

/-- To which section an element of the given name refers, and by which attribute. -/
def referenceKey? (name : String) : Option (SectionKind × String) :=
  if name = "pattern-item" then some (.categories, "n")
  else if name = "clip" then some (.attributes, "part")
  else if name = "call-macro" then some (.macros, "n")
  else if name = "var" ∨ name = "append" then some (.vars, "n")
  else none

/-- The definition to which an element refers.  A builtin part is no definition. -/
def reference? (name : String) (attributes : List (String × String)) : Option Reference := do
  let (kind, key) ← referenceKey? name
  let target ← (⟨name, attributes, []⟩ : Element).attribute? key
  if kind = .attributes ∧ target ∈ builtinParts then none else some ⟨kind, target⟩

/-- The references inside an element, in document order. -/
def references (e : Element) : List Reference :=
  e.walk.filterMap fun inner => reference? inner.name inner.attributes

/-! ## References that count for a trim -/

theorem mem_referencesIn_iff {tags : List String} {kind : SectionKind} {e : Element}
    {name : String} (hkind : kind ≠ .attributes)
    (hkey : ∀ tag, referenceKey? tag = some (kind, "n") ↔ tag ∈ tags)
    (honly : ∀ tag key, referenceKey? tag = some (kind, key) → key = "n") :
    name ∈ referencesIn tags e ↔ ⟨kind, name⟩ ∈ references e := by
  have hinner : ∀ inner : Element, reference? inner.name inner.attributes = some ⟨kind, name⟩ ↔
      inner.name ∈ tags ∧ inner.attribute? "n" = some name := by
    intro inner
    simp only [reference?, Option.bind_eq_bind, Option.bind_eq_some_iff, ← hkey]
    constructor
    · rintro ⟨⟨k, key⟩, hk, target, htarget, hif⟩
      split at hif
      · cases hif
      · cases hif
        cases honly _ _ hk
        exact ⟨hk, htarget⟩
    · rintro ⟨hk, htarget⟩
      exact ⟨_, hk, name, htarget, if_neg fun h => hkind h.1⟩
  simp only [referencesIn, references, List.mem_filterMap, List.mem_filter, List.contains_iff_mem,
    and_assoc, hinner]

theorem mem_calledMacros_iff {e : Element} {name : String} :
    name ∈ calledMacros e ↔ ⟨.macros, name⟩ ∈ references e := by
  refine mem_referencesIn_iff nofun (fun tag => ?_) fun tag key h => ?_
  · grind [referenceKey?]
  · grind [referenceKey?]

theorem mem_mentionedVariables_iff {e : Element} {name : String} :
    name ∈ mentionedVariables e ↔ ⟨.vars, name⟩ ∈ references e := by
  refine mem_referencesIn_iff nofun (fun tag => ?_) fun tag key h => ?_
  · grind [referenceKey?]
  · grind [referenceKey?]

/-! ## References of actions -/

namespace Action

/-- The references of a value. -/
def Value.references : Value → List Reference
  | var name => [⟨.vars, name⟩]
  | clip _ _ part => if part ∈ builtinParts then [] else [⟨.attributes, part⟩]
  | _ => []

/-- The references of an equation. -/
def Equation.references (e : Equation) : List Reference := e.left.references ++ e.right.references

/-- The equations of a test. -/
def Test.equations : Test → List Equation
  | all equations => equations
  | any equations => equations

/-- The references of a test. -/
def Test.references (t : Test) : List Reference := t.equations.flatMap Equation.references

/-- The references of an assignment. -/
def Assignment.references (a : Assignment) : List Reference :=
  ⟨.vars, a.target⟩ :: a.value.references

/-- The references of a choice, given those of its alternatives. -/
def Choice.references {α : Type} (body : α → List Reference) (c : Choice α) : List Reference :=
  c.branches.flatMap (fun (test, a) => test.references ++ body a) ++ c.otherwise.toList.flatMap body

/-- The references of a step. -/
def Step.references : Step → List Reference
  | assign assignment => assignment.references
  | choose choice => choice.references Assignment.references

/-- The references of a statement. -/
def Statement.references : Statement → List Reference
  | step s => s.references
  | call name _ => [⟨.macros, name⟩]

/-- The references of a word of the output. -/
def OutputWord.references (w : OutputWord) : List Reference :=
  (w.lemmaValue :: w.tags).flatMap Value.references

/-- The references of a rule. -/
def CompiledRule.references (r : CompiledRule) : List Reference :=
  r.pattern.map (⟨.categories, ·⟩) ++
    (r.statements.flatMap Statement.references ++ r.output.flatMap fun entry => entry.2.references)

/-- The references of a macro. -/
def MacroDefinition.references (m : MacroDefinition) : List Reference :=
  m.body.references Step.references

/-! ## Variables that are read and set -/

/-- The variable that a value reads. -/
def Value.variables : Value → List String
  | var name => [name]
  | _ => []

/-- The variables that a test reads. -/
def Test.reads (t : Test) : List String :=
  t.equations.flatMap fun e => e.left.variables ++ e.right.variables

namespace Choice

variable {α : Type}

/-- The variables that a choice reads, given what its alternatives read. -/
def reads (body : α → List String) (c : Choice α) : List String :=
  c.branches.flatMap (fun (test, a) => test.reads ++ body a) ++ c.otherwise.toList.flatMap body

/-- The variables that every alternative sets.  Without an alternative for the case that no test
holds, no variable is set for sure. -/
def sets (body : α → List String) (c : Choice α) : List String :=
  match c.otherwise with
  | none => []
  | some a => (body a).filter fun name => c.branches.all fun branch => name ∈ body branch.2

end Choice

/-- The variables that a step reads. -/
def Step.reads : Step → List String
  | assign assignment => assignment.value.variables
  | choose choice => choice.reads fun assignment => assignment.value.variables

/-- The variables that a step sets whichever branch is taken. -/
def Step.sets : Step → List String
  | assign assignment => [assignment.target]
  | choose choice => choice.sets fun assignment => [assignment.target]

/-- The variables that a statement reads itself.  What a macro reads is the matter of the macro. -/
def Statement.reads : Statement → List String
  | step s => s.reads
  | call _ _ => []

/-- The variables that a statement sets itself whichever branch is taken. -/
def Statement.sets : Statement → List String
  | step s => s.sets
  | call _ _ => []

/-- The variables that a word of the output reads. -/
def OutputWord.reads (w : OutputWord) : List String :=
  (w.lemmaValue :: w.tags).flatMap Value.variables

/-- What a value reads is a reference. -/
theorem Value.mem_variables_iff {v : Value} {name : String} :
    name ∈ v.variables ↔ ⟨.vars, name⟩ ∈ v.references := by
  cases v with
  | clip position side part => simp [Value.variables, references]
  | _ => simp [Value.variables, references]

theorem OutputWord.mem_reads_iff {w : OutputWord} {name : String} :
    name ∈ w.reads ↔ ⟨.vars, name⟩ ∈ w.references := by
  simp only [reads, references, List.mem_flatMap, Value.mem_variables_iff]

end Action

/-! ## References of what is written -/

theorem walkAll_map_toNode (es : List Element) :
    Node.walkAll (es.map Element.toNode) = es.flatMap Element.walk := by
  induction es with
  | nil => rfl
  | cons e es ih => rw [List.map_cons, Node.walkAll, ih, List.flatMap_cons, Element.walk]

/-- What an element refers to itself depends on its name and attributes; after that come the
references of its children. -/
theorem references_element (name : String) (attributes : List (String × String))
    (children : List Element) : references (Written.element name attributes children) =
      (reference? name attributes).toList ++ children.flatMap references := by
  unfold references
  rw [Element.walk_eq, Written.element, walkAll_map_toNode, List.filterMap_cons,
    List.filterMap_flatMap]
  cases reference? name attributes <;> rfl

/-- An element that refers to nothing itself. -/
theorem references_group {name : String} {attributes : List (String × String)}
    (children : List Element) (h : reference? name attributes = none) :
    references (Written.element name attributes children) = children.flatMap references := by
  rw [references_element, h]
  rfl

@[simp] theorem references_value (v : Value) : references v.toElement = v.references := by
  cases v with
  | var name => exact references_element "var" [("n", name)] []
  | lit text => exact references_group [] rfl
  | tag name => exact references_group [] rfl
  | clip position side part =>
      refine (references_element "clip" _ []).trans ?_
      by_cases hpart : part ∈ builtinParts
      · simp [Value.references, reference?, referenceKey?, Element.attribute?, hpart]
      · simp [Value.references, reference?, referenceKey?, Element.attribute?, hpart]

@[simp] theorem references_equation (e : Equation) : references e.toElement = e.references := by
  refine (references_group _ rfl).trans ?_
  simp [Equation.references]

@[simp] theorem references_test (t : Test) : references t.toElement = t.references := by
  -- A single equation stands for itself, which makes no difference for the references.
  have hequations : ∀ equations : List Equation,
      (equations.map Equation.toElement).flatMap references =
        equations.flatMap Equation.references := by
    intro equations
    rw [List.flatMap_map]
    congr 1
    funext e
    exact references_equation e
  cases t with
  | all equations =>
      rw [Test.references, Test.equations, ← hequations, Test.toElement]
      unfold Written.allOf
      split
      · next h => rw [h, List.flatMap_singleton]
      · exact references_group _ rfl
  | any equations =>
      rw [Test.references, Test.equations, ← hequations, Test.toElement]
      unfold Written.anyOf
      split
      · next h => rw [h, List.flatMap_singleton]
      · exact references_group _ rfl

@[simp] theorem references_assignment (a : Assignment) : references a.toElement = a.references := by
  refine (references_group _ rfl).trans ?_
  rw [List.flatMap_cons, List.flatMap_singleton, references_value]
  exact congrArg (· ++ _) (references_value (.var a.target))

theorem references_choice {α : Type} {body : α → Element} {refs : α → List Reference}
    (h : ∀ a, references (body a) = refs a) (c : Choice α) :
    references (c.toElement body) = c.references refs := by
  have hbranch : ∀ (test : Test) (a : α),
      references (Written.branch test.toElement [body a]) = test.references ++ refs a := by
    intro test a
    refine (references_group _ rfl).trans ?_
    rw [List.flatMap_cons, references_group _ rfl, List.flatMap_singleton, List.flatMap_singleton,
      references_test, h]
  refine (references_group _ rfl).trans ?_
  rw [List.flatMap_append, List.flatMap_map]
  simp only [hbranch, Choice.references]
  congr 1
  cases c.otherwise with
  | none => rfl
  | some a =>
      simp only [Option.map_some, List.flatMap_singleton, Option.toList_some]
      rw [references_group _ rfl, List.flatMap_singleton, h]

@[simp] theorem references_step (s : Step) : references s.toElement = s.references := by
  cases s with
  | assign assignment => exact references_assignment assignment
  | choose choice => exact references_choice references_assignment choice

@[simp] theorem references_statement (s : Statement) : references s.toElement = s.references := by
  cases s with
  | step s => exact references_step s
  | call name position =>
      refine (references_element "call-macro" [("n", name)] _).trans ?_
      rw [List.map_singleton, List.flatMap_singleton, references_group _ rfl]
      rfl

@[simp] theorem references_outputWord (w : OutputWord) :
    references w.toElement = w.references := by
  refine (references_group _ rfl).trans ?_
  rw [List.flatMap_map, OutputWord.references]
  simp only [references_value]

theorem references_outputElements (output : List (Nat × OutputWord)) :
    (CompiledRule.outputElements output).flatMap references =
      output.flatMap fun entry => entry.2.references := by
  rw [CompiledRule.outputElements, List.flatMap_assoc]
  congr 1
  funext ⟨index, word⟩
  dsimp only
  split
  · rw [List.flatMap_singleton, references_outputWord]
  · rw [List.flatMap_cons, List.flatMap_singleton, references_outputWord, Written.blank,
      references_group [] rfl, List.flatMap_nil, List.nil_append]

/-- **What is written of a rule** refers to what the rule refers to. -/
theorem references_compiledRule (name : String) (r : CompiledRule) :
    references (r.toElement name) = r.references := by
  have hpattern : references (CompiledRule.patternElement r.pattern) =
      r.pattern.map (⟨.categories, ·⟩) := by
    refine (references_group _ rfl).trans ?_
    rw [List.flatMap_map, List.map_eq_flatMap]
    rfl
  refine (references_group _ rfl).trans ?_
  rw [List.flatMap_cons, List.flatMap_singleton, hpattern, references_group _ rfl,
    List.flatMap_append, List.flatMap_map, List.flatMap_singleton, references_group _ rfl,
    references_outputElements, CompiledRule.references]
  simp only [references_statement]

/-- **What is written of a macro** refers to what the macro refers to. -/
theorem references_macroDefinition (m : MacroDefinition) :
    references m.toElement = m.references := by
  refine (references_group _ rfl).trans ?_
  rw [List.flatMap_singleton, references_choice references_step, MacroDefinition.references]

end TransferRules

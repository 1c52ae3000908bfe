import TransferRules.Proofs.Action.References

/-!
# The grammar of transfer rules

The engine that reads a transfer file expects rules of a certain form.  It rejects a choice without
branches, a test without a condition, a connective of a single condition, and a position at which
the pattern has no word.  This form is written down here for the elements alone, as far as rules
that were compiled make use of it, with the positions that may occur left open.

What the compiler puts together is not an element yet.  For every type of an action there is a
condition under which what is written has the form: no choice is empty, no list of equations is,
and all positions are among those that may occur.

## Main Definitions

* `IsValue`, `IsCondition`, `IsLet`, `IsChoose`, `IsCall`, `IsStatement` — the form of elements
* `spaced` — the form of the output
* `Value.Within`, `Choice.Fits`, `Statement.Fits` — the conditions on what is written

## Main Statements

* `Statement.Fits.isStatement` — a statement that fits is written in the form
* `outputElements_eq_spaced` — the output is spaced, if its words are numbered
-/

namespace TransferRules.Action

open TransferRules.Markup
open TransferRules.Action.Written

/-! ## Elements -/

section Elements

variable (allowed : Nat → Prop)

/-- A variable, a text, a tag, or a part of the word at a position. -/
inductive IsValue : Element → Prop where
  | var (name : String) : IsValue (element "var" [("n", name)] [])
  | lit (text : String) : IsValue (element "lit" [("v", text)] [])
  | tag (tag : String) : IsValue (element "lit-tag" [("v", tag)] [])
  | clip {position : Nat} (side part : String) (h : allowed position) :
      IsValue (element "clip" [("pos", toString position), ("side", side), ("part", part)] [])

/-- An equation, or a connective of at least two. -/
inductive IsCondition : Element → Prop where
  | equal {left right : Element} (hleft : IsValue allowed left) (hright : IsValue allowed right) :
      IsCondition (element "equal" [] [left, right])
  | several {name : String} {conditions : List Element} (hname : name = "and" ∨ name = "or")
      (hseveral : 2 ≤ conditions.length) (hall : ∀ c ∈ conditions, IsCondition c) :
      IsCondition (element name [] conditions)

/-- A variable followed by one value. -/
inductive IsLet : Element → Prop where
  | mk (name : String) {value : Element} (h : IsValue allowed value) :
      IsLet (element "let" [] [element "var" [("n", name)] [], value])

/-- One test with one condition, and something that is done then. -/
inductive IsWhen : Element → Prop where
  | mk {condition : Element} {body : List Element} (hcondition : IsCondition allowed condition)
      (hbody : body ≠ []) (hall : ∀ s ∈ body, IsLet allowed s) :
      IsWhen (element "when" [] (element "test" [] [condition] :: body))

/-- What is done if no branch is taken. -/
inductive IsOtherwise : Element → Prop where
  | mk {body : List Element} (hall : ∀ s ∈ body, IsLet allowed s) :
      IsOtherwise (element "otherwise" [] body)

/-- At least one branch, and what is done otherwise, if anything. -/
inductive IsChoose : Element → Prop where
  | mk {branches otherwise : List Element} (hbranches : branches ≠ [])
      (hall : ∀ b ∈ branches, IsWhen allowed b) (hone : otherwise.length ≤ 1)
      (hotherwise : ∀ o ∈ otherwise, IsOtherwise allowed o) :
      IsChoose (element "choose" [] (branches ++ otherwise))

/-- The call of a macro for words at some positions. -/
inductive IsCall : Element → Prop where
  | mk (name : String) {positions : List Nat} (hall : ∀ position ∈ positions, allowed position) :
      IsCall (element "call-macro" [("n", name)]
        (positions.map fun position => element "with-param" [("pos", toString position)] []))

/-- A statement of a rule's action. -/
def IsStatement (e : Element) : Prop := IsLet allowed e ∨ IsChoose allowed e ∨ IsCall allowed e

end Elements

/-- Words of the output, of which the first has the given number.  Before each but the one with the
number zero stands the blank behind the word of the pattern with its number. -/
def spaced : Nat → List Element → List Element
  | _, [] => []
  | 0, w :: ws => w :: spaced 1 ws
  | n + 1, w :: ws => element "b" [("pos", toString (n + 1))] [] :: w :: spaced (n + 2) ws

/-! ## What is written -/

/-- A value takes nothing from a word at a position that does not occur. -/
def Value.Within (allowed : Nat → Prop) : Value → Prop
  | .clip position _ _ => allowed position
  | _ => True

/-- Both sides of an equation are within the positions. -/
structure Equation.Within (allowed : Nat → Prop) (e : Equation) : Prop where
  left : e.left.Within allowed
  right : e.right.Within allowed

/-- A test compares something, and is within the positions. -/
structure Test.Fits (allowed : Nat → Prop) (t : Test) : Prop where
  nonempty : t.equations ≠ []
  within : ∀ e ∈ t.equations, e.Within allowed

/-- A choice has a branch, and all that it compares and assigns is within the positions. -/
structure Choice.Fits (allowed : Nat → Prop) (c : Choice Assignment) : Prop where
  nonempty : c.branches ≠ []
  tests : ∀ branch ∈ c.branches, branch.1.Fits allowed
  assigned : ∀ branch ∈ c.branches, branch.2.value.Within allowed
  otherwise : ∀ a ∈ c.otherwise, a.value.Within allowed

/-- A statement that can be written in the form. -/
def Statement.Fits (allowed : Nat → Prop) : Statement → Prop
  | .step (.assign a) => a.value.Within allowed
  | .step (.choose c) => c.Fits allowed
  | .call _ position => allowed position

variable {allowed : Nat → Prop}

theorem Value.Within.mono {allowed' : Nat → Prop} {v : Value} (h : v.Within allowed)
    (hmono : ∀ position, allowed position → allowed' position) : v.Within allowed' := by
  cases v with
  | clip position side part => exact hmono position h
  | _ => exact trivial

theorem Value.Within.isValue {v : Value} (h : v.Within allowed) :
    IsValue allowed v.toElement := by
  cases v with
  | var name => exact .var name
  | lit text => exact .lit text
  | tag tag => exact .tag tag
  | clip position side part => exact .clip side.code part h

theorem Equation.Within.isCondition {e : Equation} (h : e.Within allowed) :
    IsCondition allowed e.toElement :=
  .equal h.left.isValue h.right.isValue

/-- A test is written as a connective only if it compares at least twice. -/
theorem Test.Fits.isCondition {t : Test} (h : t.Fits allowed) :
    IsCondition allowed t.toElement := by
  have hall : ∀ c ∈ t.equations.map Equation.toElement, IsCondition allowed c := by
    intro c hc
    obtain ⟨e, he, rfl⟩ := List.mem_map.1 hc
    exact (h.within e he).isCondition
  have hsome : t.equations.map Equation.toElement ≠ [] := by
    rw [ne_eq, List.map_eq_nil_iff]
    exact h.nonempty
  -- What holds of both connectives: they are left out for a single condition.
  have hwrite : ∀ (name : String) (connect : List Element → Element), name = "and" ∨ name = "or" →
      (∀ c, connect [c] = c) →
      (∀ c c' rest, connect (c :: c' :: rest) = element name [] (c :: c' :: rest)) →
      IsCondition allowed (connect (t.equations.map Equation.toElement)) := by
    intro name connect hname hsingle hseveral
    cases hconditions : t.equations.map Equation.toElement with
    | nil => exact absurd hconditions hsome
    | cons first rest =>
        rw [hconditions] at hall
        cases rest with
        | nil => exact (hsingle first).symm ▸ hall first List.mem_cons_self
        | cons second rest =>
            rw [hseveral]
            exact .several hname (Nat.le_add_left 2 rest.length) hall
  cases t with
  | all equations => exact hwrite "and" Written.allOf (.inl rfl) (fun _ => rfl) fun _ _ _ => rfl
  | any equations => exact hwrite "or" Written.anyOf (.inr rfl) (fun _ => rfl) fun _ _ _ => rfl

theorem Assignment.isLet {a : Assignment} (h : a.value.Within allowed) :
    IsLet allowed a.toElement :=
  .mk a.target h.isValue

theorem Choice.Fits.isChoose {c : Choice Assignment} (h : c.Fits allowed) :
    IsChoose allowed (c.toElement Assignment.toElement) := by
  have hbody : ∀ a : Assignment, a.value.Within allowed →
      ∀ s ∈ [a.toElement], IsLet allowed s := by
    intro a ha s hs
    rw [List.mem_singleton.1 hs]
    exact Assignment.isLet ha
  have hbranches : ∀ b ∈ c.branches.map fun (test, a) =>
      Written.branch test.toElement [a.toElement], IsWhen allowed b := by
    intro b hb
    obtain ⟨branch, hbranch, rfl⟩ := List.mem_map.1 hb
    exact .mk (h.tests branch hbranch).isCondition (List.cons_ne_nil _ _)
      (hbody _ (h.assigned branch hbranch))
  have hnonempty : (c.branches.map fun (test, a) =>
      Written.branch test.toElement [a.toElement]) ≠ [] := by
    rw [ne_eq, List.map_eq_nil_iff]
    exact h.nonempty
  unfold Choice.toElement Written.choice
  cases hotherwise : c.otherwise with
  | none => exact .mk hnonempty hbranches (Nat.zero_le 1) nofun
  | some a =>
      refine .mk hnonempty hbranches (Nat.le_refl 1) fun o ho => ?_
      rw [List.mem_singleton.1 ho]
      exact .mk (hbody a (h.otherwise a hotherwise))

/-- **A statement that fits** is written in the form. -/
theorem Statement.Fits.isStatement {s : Statement} (h : s.Fits allowed) :
    IsStatement allowed s.toElement := by
  cases s with
  | step step =>
      cases step with
      | assign a => exact .inl (Assignment.isLet h)
      | choose c => exact .inr (.inl (Choice.Fits.isChoose h))
  | call name position =>
      refine .inr (.inr (@IsCall.mk allowed name [position] fun p hp => ?_))
      rw [List.mem_singleton.1 hp]
      exact h

/-- **The output is spaced**, if its words are numbered. -/
theorem outputElements_eq_spaced {output : List (Nat × OutputWord)} {n : Nat}
    (h : output.map Prod.fst = List.range' n output.length) :
    CompiledRule.outputElements output =
      spaced n (output.map fun word => word.2.toElement) := by
  induction output generalizing n with
  | nil => rfl
  | cons word output ih =>
      obtain ⟨index, word⟩ := word
      rw [List.map_cons, List.length_cons, List.range'_succ] at h
      obtain ⟨rfl, hrest⟩ := List.cons.inj h
      have hwords := ih hrest
      unfold CompiledRule.outputElements at hwords ⊢
      rw [List.flatMap_cons, hwords]
      cases index with
      | zero => rfl
      | succ n => rfl

end TransferRules.Action

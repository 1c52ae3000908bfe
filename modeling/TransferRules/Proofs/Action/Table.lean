import Mathlib.Logic.Function.Basic
import TransferRules.Proofs.Action.Execution

/-!
# Tables

The compiler looks values up by choices that are tables: every alternative assigns a value to one
and the same variable, and the first row whose test holds counts.  What a table does is said for
any way of reading tags.  For the engine the dots of a tag separate tags, so two tags with angle
brackets in them may be read alike; for the tables it only matters whether the tags that stand in
them are told apart.

## Main Definitions

* `Reading` — a scene, and how tags are read; `Reading.engine` is that of the engine
* `Value.read`, `Test.isMet`, `Choice.result` — values, tests and choices for a reading
* `table` — a choice that is a table

## Main Statements

* `Choice.run_engine` — for the engine this is how choices are executed
* `result_table`, `read_table` — a table sets its variable to the value of the first row that is met
-/

namespace TransferRules

open TransferRules.Action

/-- How the values of an action are read: where it is executed, and the text of a tag. -/
structure Reading where
  scene : Scene
  tag : String → String

/-- The reading of the engine. -/
def Reading.engine (s : Scene) : Reading := ⟨s, tagText⟩

namespace Action

section Reading

variable (r : Reading)

/-- What a value is read as. -/
def Value.read (contents : Contents) : Value → String
  | var name => contents name
  | lit text => text
  | tag name => r.tag name
  | clip position side part =>
    r.scene.phrase.part (r.scene.position (toString position)) side.code part

/-- Whether an equation holds. -/
def Equation.isMet (contents : Contents) (e : Equation) : Bool :=
  e.left.read r contents == e.right.read r contents

/-- Whether a test holds. -/
def Test.isMet (contents : Contents) : Test → Bool
  | all equations => equations.all (Equation.isMet r contents)
  | any equations => equations.any (Equation.isMet r contents)

/-- The contents of the variables after an assignment. -/
def Assignment.result (contents : Contents) (a : Assignment) : Contents :=
  fun name => if name = a.target then a.value.read r contents else contents name

/-- The contents of the variables after a choice among assignments. -/
def Choice.result (contents : Contents) (c : Choice Assignment) : Contents :=
  match (c.branches.find? fun branch => branch.1.isMet r contents).map Prod.snd <|>
      c.otherwise with
  | some a => a.result r contents
  | none => contents

end Reading

/-! ## The engine -/

section Engine

variable {s : Scene} {contents : Contents}

theorem eq_of_flatMap_dots_eq {cs cs' : List Char} (hcs : '>' ∉ cs) (hcs' : '>' ∉ cs')
    (h : (cs.flatMap fun c => if c = '.' then ['>', '<'] else [c]) =
      cs'.flatMap fun c => if c = '.' then ['>', '<'] else [c]) : cs = cs' := by
  induction cs generalizing cs' with
  | nil =>
      cases cs' with
      | nil => rfl
      | cons c' cs' =>
          rw [List.flatMap_nil, List.flatMap_cons] at h
          split at h <;> cases h
  | cons c cs ih =>
      cases cs' with
      | nil =>
          rw [List.flatMap_nil, List.flatMap_cons] at h
          split at h <;> cases h
      | cons c' cs' =>
          rw [List.mem_cons, not_or] at hcs hcs'
          rw [List.flatMap_cons, List.flatMap_cons] at h
          by_cases hc : c = '.'
          · by_cases hc' : c' = '.'
            · rw [if_pos hc, if_pos hc'] at h
              rw [hc, hc', ih hcs.2 hcs'.2 (List.append_cancel_left h)]
            · rw [if_pos hc, if_neg hc'] at h
              exact absurd (List.cons.inj h).1 hcs'.1
          · by_cases hc' : c' = '.'
            · rw [if_neg hc, if_pos hc'] at h
              exact absurd (List.cons.inj h).1.symm hcs.1
            · rw [if_neg hc, if_neg hc'] at h
              obtain ⟨rfl, hrest⟩ := List.cons.inj h
              rw [ih hcs.2 hcs'.2 hrest]

/-- The text of a tag is not empty. -/
theorem tagText_ne_empty (tag : String) : tagText tag ≠ "" := by
  intro h
  have htext := congrArg String.toList h
  simp [tagText] at htext

/-- The engine tells tags apart that have no angle brackets in them. -/
theorem eq_of_tagText_eq {tag tag' : String} (htag : '>' ∉ tag.toList) (htag' : '>' ∉ tag'.toList)
    (h : tagText tag = tagText tag') : tag = tag' := by
  have hlists := congrArg String.toList h
  simp only [tagText, String.toList_append, String.toList_ofList] at hlists
  have hinner := List.append_cancel_left (List.append_cancel_right hlists)
  exact String.toList_injective (eq_of_flatMap_dots_eq htag htag' hinner)

theorem Value.read_engine (v : Value) : v.read (.engine s) contents = v.eval s contents := by
  cases v with
  | var name => rfl
  | lit text => rfl
  | tag name => rfl
  | clip position side part => rfl

theorem Test.isMet_engine (t : Test) : t.isMet (.engine s) contents = t.holds s contents := by
  have hequation : Equation.isMet (.engine s) contents = Equation.holds s contents := by
    funext e
    rw [Equation.isMet, Equation.holds, Value.read_engine, Value.read_engine]
  cases t with
  | all equations => rw [isMet, holds, hequation]
  | any equations => rw [isMet, holds, hequation]

/-- The engine executes a choice by this reading. -/
theorem Choice.run_engine (c : Choice Assignment) (m : Machine) :
    c.run s (Assignment.run s) m = { m with contents := c.result (.engine s) m.contents } := by
  unfold run result taken?
  simp only [Test.isMet_engine]
  cases (c.branches.find? fun branch => branch.1.holds s m.contents).map Prod.snd <|>
      c.otherwise with
  | none => rfl
  | some a =>
      show m.assign a.target (a.value.eval s m.contents) = _
      rw [← Value.read_engine]
      rfl

end Engine

/-! ## Tables -/

/-- The table that sets a variable to the value of the first row whose test holds, and to another
value if there is none. -/
def table (target : String) (rows : List (Test × Value)) (other : Value) : Choice Assignment where
  branches := rows.map fun row => (row.1, ⟨target, row.2⟩)
  otherwise := some ⟨target, other⟩

theorem result_assign (r : Reading) (contents : Contents) (target : String) (value : Value) :
    (⟨target, value⟩ : Assignment).result r contents =
      Function.update contents target (value.read r contents) :=
  funext fun name => (Function.update_apply contents target _ name).symm

/-- **A table sets its variable** to the value of the first row that is met, and no other one. -/
theorem result_table (r : Reading) (contents : Contents) (target : String)
    (rows : List (Test × Value)) (other : Value) :
    (table target rows other).result r contents =
      Function.update contents target
        ((((rows.find? fun row => row.1.isMet r contents).map Prod.snd).getD other).read r
          contents) := by
  have hbranches : ((table target rows other).branches.find? fun branch =>
      branch.1.isMet r contents) =
        (rows.find? fun row => row.1.isMet r contents).map fun row => (row.1, ⟨target, row.2⟩) := by
    rw [table, List.find?_map]
    rfl
  unfold Choice.result
  rw [hbranches]
  cases rows.find? fun row => row.1.isMet r contents with
  | none => exact result_assign r contents target other
  | some row => exact result_assign r contents target row.2

/-- So it is read there. -/
theorem read_table (r : Reading) (contents : Contents) (target : String)
    (rows : List (Test × Value)) (other : Value) :
    (Value.var target).read r ((table target rows other).result r contents) =
      (((rows.find? fun row => row.1.isMet r contents).map Prod.snd).getD other).read r
        contents := by
  rw [result_table]
  exact Function.update_self target _ contents

end Action

end TransferRules

import TransferRules.Proofs.Action.References

/-!
# Executing actions

The engine that reads a transfer file executes the action of a rule for a phrase that matches its
pattern: it assigns values to variables, takes the first branch of a choice whose test holds, runs
the macros that are called, and puts out words.  Variables are global, so an action starts with
whatever the actions before it left in them.  Here this is said for elements as they stand in the
file, and for the actions that the compiler generates; the two agree.

## Main Definitions

* `Matched`, `Machine` — the phrase that is translated, and the state of the execution
* `Scene.value`, `Scene.holds`, `Scene.exec` — values, tests and statements as they are written
* `TransferDocument.execute` — the action of a rule, with the macros of the file
* `Value.eval`, `Test.holds`, `Step.run`, `Statement.run` — the same for what is generated

## Main Statements

* `Scene.exec_statement`, `execute_compiledRule` — what is generated is executed
  as it is meant
-/

namespace TransferRules

open TransferRules.Action
open TransferRules.Markup
open TransferRules.Transfer

/-- The phrase that a rule has matched: what is found at the position of a word, on a side, under
the name of a part, and the blanks between the words. -/
structure Matched where
  part : (position side part : String) → String
  blank : (position : String) → String

/-- The contents of the variables. -/
abbrev Contents := String → String

/-- The state of an execution: the contents of the variables, and what has been put out. -/
structure Machine where
  contents : Contents
  output : String := ""

/-- Assign a value to a variable. -/
def Machine.assign (m : Machine) (name value : String) : Machine :=
  { m with contents := fun n => if n = name then value else m.contents n }

/-- The text of a tag; a dot separates tags. -/
def tagText (tag : String) : String :=
  "<" ++ String.ofList (tag.toList.flatMap fun c => if c = '.' then ['>', '<'] else [c]) ++ ">"

/-- What a macro does, given its name and the positions of the words that it is called for. -/
abbrev Calls := String → List String → Machine → Machine

/-- The value of an attribute that should be there. -/
def Markup.Element.text (e : Element) (key : String) : String := (e.attribute? key).getD ""

/-- Where an action is executed: the phrase, and for every position as it is written the position
in the phrase that it stands for. -/
structure Scene where
  phrase : Matched
  position : String → String

namespace Scene

variable (s : Scene)

/-! ## Execution of elements -/

/-- The value of an element. -/
def value (contents : Contents) (e : Element) : String :=
  if e.name = "var" then contents (e.text "n")
  else if e.name = "lit" then e.text "v"
  else if e.name = "lit-tag" then tagText (e.text "v")
  else if e.name = "clip" then
    s.phrase.part (s.position (e.text "pos")) (e.text "side") (e.text "part")
  else ""

mutual

/-- Whether a condition holds. -/
def holds (contents : Contents) : Node → Bool
  | .element name _ children =>
    if name = "test" ∨ name = "and" then allHold contents children
    else if name = "or" then someHolds contents children
    else if name = "not" then !someHolds contents children
    else if name = "equal" then
      match children.filterMap Node.element? with
      | [left, right] => s.value contents left == s.value contents right
      | _ => false
    else false
  | .text _ => false
  | .comment _ => false
  | .instruction _ => false

/-- Whether all conditions among some nodes hold. -/
def allHold (contents : Contents) : List Node → Bool
  | [] => true
  | node :: nodes => (node.element?.isNone || holds contents node) && allHold contents nodes

/-- Whether some condition among some nodes holds. -/
def someHolds (contents : Contents) : List Node → Bool
  | [] => false
  | node :: nodes => holds contents node || someHolds contents nodes

end

/-- Whether the test of a branch holds. -/
def takes (contents : Contents) (children : List Node) : Bool :=
  match (children.filterMap Node.element?).find? fun e => e.name == "test" with
  | some test => s.holds contents test.toNode
  | none => false

/-- What an element of the output puts out. -/
def rendering (contents : Contents) (e : Element) : String :=
  if e.name = "lu" then "^" ++ String.join (e.elements.map (s.value contents)) ++ "$"
  else if e.name = "b" then s.phrase.blank (s.position (e.text "pos"))
  else ""

mutual

/-- Execute a statement. -/
def exec (calls : Calls) : Node → Machine → Machine
  | .element name attributes children, m =>
    if name = "let" then
      match children.filterMap Node.element? with
      | [target, value] => m.assign (target.text "n") (s.value m.contents value)
      | _ => m
    else if name = "choose" then choose calls children m
    else if name = "call-macro" then
      calls ((⟨name, attributes, children⟩ : Element).text "n")
        ((children.filterMap Node.element?).map fun word => s.position (word.text "pos")) m
    else if name = "out" then
      { m with
        output := m.output ++
          String.join ((children.filterMap Node.element?).map (s.rendering m.contents)) }
    else m
  | .text _, m => m
  | .comment _, m => m
  | .instruction _, m => m

/-- Execute some statements one after the other. -/
def execAll (calls : Calls) : List Node → Machine → Machine
  | [], m => m
  | node :: nodes, m => execAll calls nodes (exec calls node m)

/-- Execute the first branch whose test holds, or else what is to be done otherwise. -/
def choose (calls : Calls) : List Node → Machine → Machine
  | [], m => m
  | .element name _ children :: rest, m =>
    if name = "when" then
      if s.takes m.contents children then execAll calls children m else choose calls rest m
    else if name = "otherwise" then execAll calls children m
    else choose calls rest m
  | _ :: rest, m => choose calls rest m

end

end Scene

/-- The position that a parameter of a macro stands for. -/
def parameter (positions : List String) (position : String) : String :=
  ((position.toNat?).bind fun n => positions[n - 1]?).getD ""

/-- Call a macro of a document, with calls of macros in it up to some depth. -/
def Transfer.TransferDocument.call (d : TransferDocument) (phrase : Matched) : Nat → Calls
  | 0, _, _, m => m
  | depth + 1, name, positions, m =>
    match d.definition? .macros name with
    | none => m
    | some e => Scene.execAll ⟨phrase, parameter positions⟩ (d.call phrase depth) e.children m

/-- Execute the action of a rule, with calls of the macros of a document up to some depth. -/
def Transfer.TransferDocument.execute (d : TransferDocument) (phrase : Matched) (depth : Nat)
    (rule : Element) (contents : Contents) : Machine :=
  match rule.child? "action" with
  | none => { contents }
  | some action => Scene.execAll ⟨phrase, id⟩ (d.call phrase depth) action.children { contents }

/-! ## Execution of what is generated -/

namespace Action

variable (s : Scene)

/-- The value of a value. -/
def Value.eval (contents : Contents) : Value → String
  | var name => contents name
  | lit text => text
  | tag name => tagText name
  | clip position side part => s.phrase.part (s.position (toString position)) side.code part

/-- Whether an equation holds. -/
def Equation.holds (contents : Contents) (e : Equation) : Bool :=
  e.left.eval s contents == e.right.eval s contents

/-- Whether a test holds. -/
def Test.holds (contents : Contents) : Test → Bool
  | all equations => equations.all (Equation.holds s contents)
  | any equations => equations.any (Equation.holds s contents)

/-- Execute an assignment. -/
def Assignment.run (a : Assignment) (m : Machine) : Machine :=
  m.assign a.target (a.value.eval s m.contents)

/-- The alternative that is taken, if one is. -/
def Choice.taken? {α : Type} (contents : Contents) (c : Choice α) : Option α :=
  ((c.branches.find? fun branch => branch.1.holds s contents).map Prod.snd) <|> c.otherwise

/-- Execute a choice, given how its alternatives are executed. -/
def Choice.run {α : Type} (body : α → Machine → Machine) (c : Choice α) (m : Machine) : Machine :=
  match c.taken? s m.contents with
  | some a => body a m
  | none => m

/-- Execute a step. -/
def Step.run (m : Machine) : Step → Machine
  | assign assignment => assignment.run s m
  | choose choice => choice.run s (Assignment.run s) m

/-- Execute a statement. -/
def Statement.run (calls : Calls) (m : Machine) : Statement → Machine
  | .step body => body.run s m
  | .call name position => calls name [s.position (toString position)] m

/-- What a word of the output puts out. -/
def OutputWord.rendering (contents : Contents) (w : OutputWord) : String :=
  "^" ++ String.join ((w.lemmaValue :: w.tags).map (Value.eval s contents)) ++ "$"

end Action

/-! ## Adequacy -/

section Adequacy

variable {s : Scene} {contents : Contents} {m : Machine} {calls : Calls}

theorem elements_map_toNode (es : List Element) :
    (es.map Element.toNode).filterMap Node.element? = es := by
  rw [List.filterMap_map, show Node.element? ∘ Element.toNode = some from
    funext Element.element?_toNode, List.filterMap_some]

namespace Scene

theorem value_value (v : Value) : s.value contents v.toElement = v.eval s contents := by
  cases v <;> rfl

/-! ### Tests -/

theorem holds_equation (e : Equation) :
    s.holds contents e.toElement.toNode = e.holds s contents := by
  simp only [Equation.toElement, Written.equal, Written.element, Element.toNode, holds,
    elements_map_toNode, value_value, Equation.holds]
  rfl

theorem allHold_equations (es : List Equation) :
    s.allHold contents ((es.map Equation.toElement).map Element.toNode) =
      es.all (Equation.holds s contents) := by
  induction es with
  | nil => rfl
  | cons e es ih =>
      rw [List.map_cons, List.map_cons, allHold, ih, holds_equation, List.all_cons]
      rfl

theorem someHolds_equations (es : List Equation) :
    s.someHolds contents ((es.map Equation.toElement).map Element.toNode) =
      es.any (Equation.holds s contents) := by
  induction es with
  | nil => rfl
  | cons e es ih => rw [List.map_cons, List.map_cons, someHolds, ih, holds_equation, List.any_cons]

/-- A test that is written holds if it is meant to hold; a single equation stands for itself. -/
theorem holds_test (t : Test) : s.holds contents t.toElement.toNode = t.holds s contents := by
  cases t with
  | all es =>
      simp only [Test.toElement, Test.holds]
      unfold Written.allOf
      split
      · next h =>
        rw [List.map_eq_singleton_iff] at h
        obtain ⟨e, rfl, rfl⟩ := h
        rw [holds_equation]
        exact (Bool.and_true _).symm
      · exact (holds.eq_1 ..).trans (allHold_equations es)
  | any es =>
      simp only [Test.toElement, Test.holds]
      unfold Written.anyOf
      split
      · next h =>
        rw [List.map_eq_singleton_iff] at h
        obtain ⟨e, rfl, rfl⟩ := h
        rw [holds_equation]
        exact (Bool.or_false _).symm
      · exact (holds.eq_1 ..).trans (someHolds_equations es)

/-! ### Statements -/

theorem exec_assignment (a : Assignment) : s.exec calls a.toElement.toNode m = a.run s m := by
  simp only [Assignment.toElement, Written.assign, Written.element, Element.toNode, exec,
    elements_map_toNode, value_value, Assignment.run]
  rfl

/-- The branches of a choice are tried in order. -/
theorem choose_branches {α : Type} {body : α → Element} {run : α → Machine → Machine}
    (hbody : ∀ a m, s.exec calls (body a).toNode m = run a m) (branches : List (Test × α))
    (rest : List Node) :
    s.choose calls ((branches.map fun branch =>
        Written.branch branch.1.toElement [body branch.2]).map Element.toNode ++ rest) m =
      match (branches.find? fun branch => branch.1.holds s m.contents).map Prod.snd with
      | some a => run a m
      | none => s.choose calls rest m := by
  induction branches with
  | nil => rfl
  | cons branch branches ih =>
      have htakes : ∀ nodes, s.takes m.contents
          ((Written.element "test" [] [branch.1.toElement]).toNode :: nodes) =
            branch.1.holds s m.contents := by
        intro nodes
        rw [← holds_test]
        exact Bool.and_true _
      have hnode : ((Written.branch branch.1.toElement [body branch.2]).toNode) =
          .element "when" [] [(Written.element "test" [] [branch.1.toElement]).toNode,
            (body branch.2).toNode] := rfl
      have hexec : s.execAll calls [(Written.element "test" [] [branch.1.toElement]).toNode,
          (body branch.2).toNode] m = run branch.2 m := hbody branch.2 m
      rw [List.map_cons, List.map_cons, List.cons_append, hnode, choose, htakes, hexec, ih,
        List.find?_cons]
      cases branch.1.holds s m.contents <;> rfl

theorem exec_choice {α : Type} {body : α → Element} {run : α → Machine → Machine}
    (hbody : ∀ a m, s.exec calls (body a).toNode m = run a m) (c : Choice α) :
    s.exec calls (c.toElement body).toNode m = c.run s run m := by
  have hbranches := choose_branches (m := m) hbody c.branches
  have hnode : s.exec calls (c.toElement body).toNode m = s.choose calls
      ((c.branches.map fun branch =>
        Written.branch branch.1.toElement [body branch.2]).map Element.toNode ++
          (c.otherwise.map fun a => Written.element "otherwise" [] [body a]).toList.map
            Element.toNode) m := by
    rw [← List.map_append, Choice.toElement]
    cases c.otherwise with
    | none => rfl
    | some a => rfl
  rw [hnode, hbranches, Choice.run, Choice.taken?]
  cases (c.branches.find? fun branch => branch.1.holds s m.contents).map Prod.snd with
  | some a => rfl
  | none =>
      cases c.otherwise with
      | none => rfl
      | some a => exact hbody a m

theorem exec_step (step : Step) : s.exec calls step.toElement.toNode m = step.run s m := by
  cases step with
  | assign a => exact exec_assignment a
  | choose c => exact exec_choice (fun a m => exec_assignment a) c

theorem exec_statement (statement : Statement) :
    s.exec calls statement.toElement.toNode m = statement.run s calls m := by
  cases statement with
  | step step => exact exec_step step
  | call name position => rfl

/-- Statements that are written are executed one after the other. -/
theorem execAll_statements (statements : List Statement) (nodes : List Node) :
    s.execAll calls ((statements.map Statement.toElement).map Element.toNode ++ nodes) m =
      s.execAll calls nodes (statements.foldl (Statement.run s calls) m) := by
  induction statements generalizing m with
  | nil => rfl
  | cons statement statements ih =>
      rw [List.map_cons, List.map_cons, List.cons_append, execAll, exec_statement, ih,
        List.foldl_cons]

theorem rendering_outputWord (w : OutputWord) :
    s.rendering contents w.toElement = w.rendering s contents := by
  have helements : w.toElement.elements = (w.lemmaValue :: w.tags).map Value.toElement :=
    elements_map_toNode _
  have hvalues : ((w.lemmaValue :: w.tags).map Value.toElement).map (s.value contents) =
      (w.lemmaValue :: w.tags).map (Value.eval s contents) := by
    rw [List.map_map]
    exact List.map_congr_left fun v _ => value_value v
  rw [OutputWord.rendering, ← hvalues, ← helements]
  rfl

end Scene

/-- What the output of a rule puts out. -/
def Action.CompiledRule.rendering (s : Scene) (contents : Contents)
    (output : List (Nat × OutputWord)) : String :=
  String.join (output.flatMap fun entry =>
    if entry.1 = 0 then [entry.2.rendering s contents]
    else [s.phrase.blank (s.position (toString entry.1)), entry.2.rendering s contents])

theorem Scene.rendering_outputElements (output : List (Nat × OutputWord)) :
    String.join ((CompiledRule.outputElements output).map (s.rendering contents)) =
      CompiledRule.rendering s contents output := by
  rw [CompiledRule.outputElements, List.map_flatMap, CompiledRule.rendering]
  congr 2
  funext entry
  dsimp only
  split
  · rw [List.map_singleton, Scene.rendering_outputWord]
  · rw [List.map_cons, List.map_singleton, Scene.rendering_outputWord]
    rfl

/-- **A compiled rule is executed as it is meant:** its statements one after the other, and then
its output. -/
theorem execute_compiledRule (d : TransferDocument) (phrase : Matched) (depth : Nat)
    (name : String) (r : CompiledRule) (contents : Contents) :
    let m := r.statements.foldl (Statement.run ⟨phrase, id⟩ (d.call phrase depth)) { contents }
    (d.execute phrase depth (r.toElement name) contents).output =
      m.output ++ CompiledRule.rendering ⟨phrase, id⟩ m.contents r.output := by
  have haction : (r.toElement name).child? "action" = some (Written.element "action" []
      (r.statements.map Statement.toElement ++
        [Written.element "out" [] (CompiledRule.outputElements r.output)])) := rfl
  have hout : ∀ m : Machine, (Scene.execAll ⟨phrase, id⟩ (d.call phrase depth)
      [(Written.element "out" [] (CompiledRule.outputElements r.output)).toNode] m).output =
        m.output ++ CompiledRule.rendering ⟨phrase, id⟩ m.contents r.output := by
    intro m
    rw [← Scene.rendering_outputElements]
    exact congrArg (fun es => m.output ++ String.join (es.map (Scene.rendering ⟨phrase, id⟩
      m.contents))) (elements_map_toNode (CompiledRule.outputElements r.output))
  intro m
  rw [← hout]
  unfold TransferDocument.execute
  rw [haction]
  simp only [Written.element, List.map_append]
  exact congrArg Machine.output (Scene.execAll_statements r.statements _)

end Adequacy

end TransferRules

import TransferRules.Action.Written

/-!
# Actions

What the compiler puts into transfer rules and macros.  A statement assigns a value to a
variable, chooses among such assignments, or calls a macro; the body of a macro is one choice
among steps.  Nothing else is ever generated, so these types are flat.

## Main Definitions

* `Value`, `Test`, `Assignment` — values, tests and assignments
* `Choice` — the first alternative whose test holds
* `Statement` — a statement of a rule's action
* `OutputWord`, `CompiledRule` — what a rule puts out, and a rule as a whole
* `MacroDefinition` — a macro
-/

namespace TransferRules.Action

open TransferRules.Markup

/-- The language of the word from which a part is taken. -/
inductive Side where
  | source
  | target
  deriving Repr, DecidableEq

/-- The code of a side. -/
def Side.code : Side → String
  | .source => "sl"
  | .target => "tl"

/-- A value: the content of a variable, a given text or tag, or a part of a word. -/
inductive Value where
  | var (name : String)
  | lit (text : String)
  | tag (tag : String)
  | clip (position : Nat) (side : Side) (part : String)
  deriving Repr, DecidableEq

/-- How a value is written. -/
def Value.toElement : Value → Element
  | var name => Written.var name
  | lit text => Written.lit text
  | tag name => Written.litTag name
  | clip position side part => Written.clip position side.code part

/-- The statement that two values are equal. -/
structure Equation where
  left : Value
  right : Value
  deriving Repr, DecidableEq

/-- How an equation is written. -/
def Equation.toElement (e : Equation) : Element :=
  Written.equal e.left.toElement e.right.toElement

/-- A test: all, or some, of a list of equations hold. -/
inductive Test where
  | all (equations : List Equation)
  | any (equations : List Equation)
  deriving Repr, DecidableEq

/-- How a test is written. -/
def Test.toElement : Test → Element
  | all equations => Written.allOf (equations.map Equation.toElement)
  | any equations => Written.anyOf (equations.map Equation.toElement)

/-- The assignment of a value to a variable. -/
structure Assignment where
  target : String
  value : Value
  deriving Repr, DecidableEq

/-- The assignment of the empty text. -/
def Assignment.clear (target : String) : Assignment := ⟨target, .lit ""⟩

/-- How an assignment is written. -/
def Assignment.toElement (a : Assignment) : Element :=
  Written.assign a.target a.value.toElement

/-- The first branch whose test holds, or else what is to be done otherwise. -/
structure Choice (α : Type) where
  branches : List (Test × α)
  otherwise : Option α := none
  deriving Repr, DecidableEq

/-- How a choice is written. -/
def Choice.toElement {α : Type} (body : α → Element) (c : Choice α) : Element :=
  Written.choice (c.branches.map fun (test, a) => Written.branch test.toElement [body a])
    (c.otherwise.map fun a => [body a])

/-- An assignment, or a choice among assignments. -/
inductive Step where
  | assign (assignment : Assignment)
  | choose (choice : Choice Assignment)
  deriving Repr, DecidableEq

/-- How a step is written. -/
def Step.toElement : Step → Element
  | assign assignment => assignment.toElement
  | choose choice => choice.toElement Assignment.toElement

/-- A statement of a rule's action. -/
inductive Statement where
  | step (step : Step)
  | call (name : String) (position : Nat)
  deriving Repr, DecidableEq

namespace Statement

/-- Assign a value to a variable. -/
def assign (target : String) (value : Value) : Statement := .step (.assign ⟨target, value⟩)

/-- Choose among assignments. -/
def choose (choice : Choice Assignment) : Statement := .step (.choose choice)

/-- How a statement is written. -/
def toElement : Statement → Element
  | step s => s.toElement
  | call name position => Written.callMacro name [position]

end Statement

/-- A word of the output: its lemma and its tags. -/
structure OutputWord where
  lemmaValue : Value
  tags : List Value
  deriving Repr, DecidableEq

/-- How a word of the output is written. -/
def OutputWord.toElement (w : OutputWord) : Element :=
  Written.element "lu" [] ((w.lemmaValue :: w.tags).map Value.toElement)

/-- A rule: the categories of its pattern, its statements, and the words that it puts out, each
with its place in the target phrase. -/
structure CompiledRule where
  pattern : List String
  statements : List Statement
  output : List (Nat × OutputWord)
  deriving Repr, DecidableEq

namespace CompiledRule

/-- How the output is written: a blank stands before every word but the first of the phrase. -/
def outputElements (output : List (Nat × OutputWord)) : List Element :=
  output.flatMap fun (index, word) =>
    if index = 0 then [word.toElement] else [Written.blank index, word.toElement]

/-- How the pattern is written. -/
def patternElement (pattern : List String) : Element :=
  Written.element "pattern" []
    (pattern.map fun category => Written.element "pattern-item" [("n", category)] [])

/-- How a rule with the given name is written. -/
def toElement (name : String) (r : CompiledRule) : Element :=
  Written.element "rule" [("comment", name)]
    [patternElement r.pattern,
      Written.element "action" []
        (r.statements.map Statement.toElement ++
          [Written.element "out" [] (outputElements r.output)])]

end CompiledRule

/-- A macro for one word, with a comment for the reader. -/
structure MacroDefinition where
  name : String
  comment : String
  body : Choice Step
  deriving Repr, DecidableEq

/-- How a macro is written. -/
def MacroDefinition.toElement (m : MacroDefinition) : Element :=
  Written.element "def-macro" [("n", m.name), ("npar", "1"), ("c", m.comment)]
    [m.body.toElement Step.toElement]

end TransferRules.Action

import TransferRules.Markup.Tree

/-!
# Actions as they are written

The elements of which the action of a transfer rule is made.  These functions only know how an
action is written; what may be combined with what is the matter of
`TransferRules.Action.Basic`.
-/

namespace TransferRules.Action.Written

open TransferRules.Markup

/-- An element with the given attributes and child elements. -/
def element (name : String) (attributes : List (String × String)) (children : List Element) :
    Element :=
  ⟨name, attributes, children.map Element.toNode⟩

/-- A variable. -/
def var (name : String) : Element := element "var" [("n", name)] []

/-- A literal text. -/
def lit (text : String) : Element := element "lit" [("v", text)] []

/-- A literal tag. -/
def litTag (tag : String) : Element := element "lit-tag" [("v", tag)] []

/-- A part of the word at a position; the side is `sl` or `tl`. -/
def clip (position : Nat) (side part : String) : Element :=
  element "clip" [("pos", toString position), ("side", side), ("part", part)] []

/-- The assignment of a value to a variable. -/
def assign (name : String) (value : Element) : Element := element "let" [] [var name, value]

/-- The assignment of the empty text to a variable. -/
def clear (name : String) : Element := assign name (lit "")

/-- The test whether two values are equal. -/
def equal (left right : Element) : Element := element "equal" [] [left, right]

/-- The test that all conditions hold; a single one stands for itself. -/
def allOf : List Element → Element
  | [condition] => condition
  | conditions => element "and" [] conditions

/-- The test that some condition holds; a single one stands for itself. -/
def anyOf : List Element → Element
  | [condition] => condition
  | conditions => element "or" [] conditions

/-- A branch: what is done if a condition holds. -/
def branch (condition : Element) (body : List Element) : Element :=
  element "when" [] (element "test" [] [condition] :: body)

/-- The first branch whose condition holds, or else the other body, if there is one. -/
def choice (branches : List Element) (otherwise : Option (List Element)) : Element :=
  element "choose" []
    (branches ++
      match otherwise with
      | some body => [element "otherwise" [] body]
      | none => [])

/-- The call of a macro for the words at some positions. -/
def callMacro (name : String) (positions : List Nat) : Element :=
  element "call-macro" [("n", name)]
    (positions.map fun position => element "with-param" [("pos", toString position)] [])

/-- The blank behind the word at a position. -/
def blank (position : Nat) : Element := element "b" [("pos", toString position)] []

end TransferRules.Action.Written

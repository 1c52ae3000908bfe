/-!
# Markup trees

A document is edited as a tree: elements gain and lose children while comments,
instructions and unknown markup around them stay where they are.  The tree is therefore an
ordered list of nodes of four kinds; nothing is interpreted here.

## Main Definitions

* `Node` — an element, a text, a comment or a processing instruction
* `Element` — the contents of an element node, as a record
* `Document` — a root element with what surrounds it
* `Element.walk` — an element and all elements below it, in document order

## Design Notes

`Node` is the only recursive type.  `Element` packs the three arguments of `Node.element`
into a record, so that operations on an element need no recursion of their own;
`Node.element?` and `Element.toNode` pass between the two.
-/

namespace TransferRules.Markup

/-- A node of a markup tree.  Attributes are ordered pairs of a key and a value; an
instruction holds its whole body, target included. -/
inductive Node where
  | element (name : String) (attributes : List (String × String)) (children : List Node)
  | text (content : String)
  | comment (content : String)
  | instruction (content : String)
  deriving Repr, Inhabited

mutual

/-- Structural equality of nodes is decidable. -/
def Node.decEq : (a b : Node) → Decidable (a = b)
  | .element n as cs, .element m bs ds =>
    if hname : n = m then
      if hattributes : as = bs then
        match Node.decEqList cs ds with
        | isTrue h => isTrue (by rw [hname, hattributes, h])
        | isFalse h => isFalse fun heq => h (Node.element.inj heq).2.2
      else isFalse fun heq => hattributes (Node.element.inj heq).2.1
    else isFalse fun heq => hname (Node.element.inj heq).1
  | .text a, .text b =>
    if h : a = b then isTrue (by rw [h]) else isFalse fun heq => h (Node.text.inj heq)
  | .comment a, .comment b =>
    if h : a = b then isTrue (by rw [h]) else isFalse fun heq => h (Node.comment.inj heq)
  | .instruction a, .instruction b =>
    if h : a = b then isTrue (by rw [h]) else isFalse fun heq => h (Node.instruction.inj heq)
  | .element .., .text _ => isFalse nofun
  | .element .., .comment _ => isFalse nofun
  | .element .., .instruction _ => isFalse nofun
  | .text _, .element .. => isFalse nofun
  | .text _, .comment _ => isFalse nofun
  | .text _, .instruction _ => isFalse nofun
  | .comment _, .element .. => isFalse nofun
  | .comment _, .text _ => isFalse nofun
  | .comment _, .instruction _ => isFalse nofun
  | .instruction _, .element .. => isFalse nofun
  | .instruction _, .text _ => isFalse nofun
  | .instruction _, .comment _ => isFalse nofun

/-- Structural equality of lists of nodes is decidable. -/
def Node.decEqList : (as bs : List Node) → Decidable (as = bs)
  | [], [] => isTrue rfl
  | [], _ :: _ => isFalse nofun
  | _ :: _, [] => isFalse nofun
  | a :: as, b :: bs =>
    match Node.decEq a b with
    | isFalse h => isFalse fun heq => h (List.cons.inj heq).1
    | isTrue h =>
      match Node.decEqList as bs with
      | isFalse hs => isFalse fun heq => hs (List.cons.inj heq).2
      | isTrue hs => isTrue (by rw [h, hs])

end

instance : DecidableEq Node := Node.decEq

/-- An element with ordered attributes and children. -/
structure Element where
  name : String
  attributes : List (String × String) := []
  children : List Node := []
  deriving Repr, DecidableEq, Inhabited

/-- A root element, the body of the document type declaration, and the comments and
instructions before and after the root. -/
structure Document where
  doctype : Option String := none
  prolog : List Node := []
  root : Element
  epilog : List Node := []
  deriving Repr, DecidableEq, Inhabited

/-- The element of an element node. -/
def Node.element? : Node → Option Element
  | .element name attributes children => some ⟨name, attributes, children⟩
  | _ => none

/-- Whether a node is a text. -/
def Node.isText : Node → Bool
  | .text _ => true
  | _ => false

namespace Element

/-- The node of an element. -/
def toNode (e : Element) : Node := .element e.name e.attributes e.children

@[simp] theorem element?_toNode (e : Element) : e.toNode.element? = some e := rfl

/-- An element without attributes and children. -/
def named (name : String) : Element := ⟨name, [], []⟩

/-- The value of the first attribute with the given key. -/
def attribute? (e : Element) (key : String) : Option String :=
  (e.attributes.find? fun pair => pair.1 == key).map Prod.snd

/-- Give the first pair with key `key` the value `value`; without one, add the pair at the
end. -/
def setPair (key value : String) : List (String × String) → List (String × String)
  | [] => [(key, value)]
  | (k, v) :: rest => if k = key then (k, value) :: rest else (k, v) :: setPair key value rest

/-- The element with the attribute set, in place of an earlier value. -/
def setAttribute (e : Element) (key value : String) : Element :=
  { e with attributes := setPair key value e.attributes }

/-- The element with one more child element at the end. -/
def push (e : Element) (child : Element) : Element :=
  { e with children := e.children ++ [child.toNode] }

/-- The element with more child elements at the end. -/
def pushAll (e : Element) (children : List Element) : Element :=
  { e with children := e.children ++ children.map toNode }

/-- The child elements, without texts, comments and instructions. -/
def elements (e : Element) : List Element := e.children.filterMap Node.element?

/-- The child elements with the given name. -/
def childrenNamed (e : Element) (name : String) : List Element :=
  e.elements.filter fun child => child.name == name

/-- The first child element with the given name. -/
def child? (e : Element) (name : String) : Option Element :=
  e.elements.find? fun child => child.name == name

/-- Whether there is no child element; comments and texts do not count. -/
def hasNoElements (e : Element) : Bool := e.elements.isEmpty

/-- Keep the child elements that satisfy `keep`, and every other child. -/
def retainElements (e : Element) (keep : Element → Bool) : Element :=
  { e with children := e.children.filter fun node => (node.element?.map keep).getD true }

/-- Change every child element by `f`, and no other child. -/
def mapElements (e : Element) (f : Element → Element) : Element :=
  { e with children := e.children.map fun node =>
      match node.element? with
      | some child => (f child).toNode
      | none => node }

end Element

mutual

/-- The elements of a node in document order: itself first, if it is one. -/
def Node.walk : Node → List Element
  | .element name attributes children => ⟨name, attributes, children⟩ :: Node.walkAll children
  | .text _ => []
  | .comment _ => []
  | .instruction _ => []

/-- The elements of a list of nodes in document order. -/
def Node.walkAll : List Node → List Element
  | [] => []
  | node :: nodes => node.walk ++ Node.walkAll nodes

end

/-- The element and all elements below it, in document order. -/
def Element.walk (e : Element) : List Element := e.toNode.walk

@[simp] theorem Element.walk_eq (e : Element) : e.walk = e :: Node.walkAll e.children := by
  simp [Element.walk, Element.toNode, Node.walk]

/-- Setting an attribute makes it readable. -/
@[simp] theorem Element.attribute?_setAttribute_self (e : Element) (key value : String) :
    (e.setAttribute key value).attribute? key = some value := by
  obtain ⟨name, attributes, children⟩ := e
  simp only [setAttribute, attribute?]
  induction attributes with
  | nil => simp [setPair]
  | cons pair rest ih =>
    obtain ⟨k, v⟩ := pair
    unfold setPair
    split
    · next h => simp [h]
    · next h =>
      have hk : (k == key) = false := by simpa using h
      simpa [List.find?_cons, hk] using ih

/-- The children pushed last come last. -/
@[simp] theorem Element.elements_push (e child : Element) :
    (e.push child).elements = e.elements ++ [child] := by
  simp [elements, push, toNode, Node.element?]

end TransferRules.Markup

import TransferRules.Markup.Entity
import TransferRules.Markup.Tree

/-!
# Writing a document

A document is written with one node on a line, indented by its depth.  Only an element whose
children are all texts stays on one line, with the texts as they are.  Texts and attribute
values are escaped; comments, instructions and the document type are written as they are.

## Main Definitions

* `writeNode`, `writeNodes` — the lines of a node and of a list of nodes
* `Document.write` — the text of a document

## Main Statements

* `writeNode_append`, `writeNodes_append` — what stands behind the lines does not change them

## Design Notes

The lines are put before what follows them, so that no line is copied again for every element
around it.
-/

namespace TransferRules.Markup

/-- The spaces before a line at some depth. -/
def padding (depth indent : Nat) : List Char := List.replicate (depth * indent) ' '

/-- The attributes of a tag, a space before each. -/
def writeAttributes (attributes : List (String × String)) : List Char :=
  attributes.flatMap fun (key, value) =>
    ' ' :: key.toList ++ '=' :: '"' :: escape value.toList ++ ['"']

/-- The texts among some nodes, escaped and joined. -/
def writeTexts (nodes : List Node) : List Char :=
  nodes.flatMap fun
    | .text content => escape content.toList
    | _ => []

mutual

/-- The lines of a node at the given depth, and `rest` behind them. -/
def writeNode (indent depth : Nat) : Node → List Char → List Char
  | .element name attributes children, rest =>
    let start := padding depth indent ++ '<' :: name.toList ++ writeAttributes attributes
    let stop := '<' :: '/' :: name.toList ++ ['>', '\n']
    if children.isEmpty then start ++ '/' :: '>' :: '\n' :: rest
    else if children.all Node.isText then start ++ '>' :: writeTexts children ++ (stop ++ rest)
    else
      start ++ '>' :: '\n' ::
        writeNodes indent (depth + 1) children (padding depth indent ++ (stop ++ rest))
  | .text content, rest => padding depth indent ++ escape content.toList ++ '\n' :: rest
  | .comment content, rest =>
    padding depth indent ++ "<!--".toList ++ content.toList ++ ("-->\n".toList ++ rest)
  | .instruction content, rest =>
    padding depth indent ++ "<?".toList ++ content.toList ++ ("?>\n".toList ++ rest)

/-- The lines of some nodes at the given depth, and `rest` behind them. -/
def writeNodes (indent depth : Nat) : List Node → List Char → List Char
  | [], rest => rest
  | node :: nodes, rest => writeNode indent depth node (writeNodes indent depth nodes rest)

end

mutual

theorem writeNode_append (indent depth : Nat) (node : Node) (rest more : List Char) :
    writeNode indent depth node (rest ++ more) = writeNode indent depth node rest ++ more := by
  cases node with
  | element name attributes children =>
    simp only [writeNode]
    split
    · simp
    · split
      · simp
      · have h := writeNodes_append indent (depth + 1) children
          (padding depth indent ++ ('<' :: '/' :: name.toList ++ ['>', '\n'] ++ rest)) more
        simp only [List.append_assoc, List.cons_append] at h ⊢
        rw [h]
  | text content => simp [writeNode]
  | comment content => simp [writeNode]
  | instruction content => simp [writeNode]

theorem writeNodes_append (indent depth : Nat) (nodes : List Node) (rest more : List Char) :
    writeNodes indent depth nodes (rest ++ more) =
      writeNodes indent depth nodes rest ++ more := by
  cases nodes with
  | nil => simp [writeNodes]
  | cons node nodes =>
    simp only [writeNodes]
    rw [writeNodes_append indent depth nodes, writeNode_append indent depth node]

end

/-- The first line of every document. -/
def declarationLine : List Char := "<?xml version=\"1.0\" encoding=\"utf-8\"?>\n".toList

/-- The line of the document type declaration, if there is one. -/
def writeDoctype : Option String → List Char
  | none => []
  | some body => "<!DOCTYPE ".toList ++ body.toList ++ ['>', '\n']

/-- The characters of a document. -/
def Document.writeChars (indent : Nat) (d : Document) : List Char :=
  declarationLine ++ writeDoctype d.doctype ++
    writeNodes indent 0 d.prolog
      (writeNode indent 0 d.root.toNode (writeNodes indent 0 d.epilog []))

/-- The text of a document, with the given number of spaces per level. -/
def Document.write (indent : Nat) (d : Document) : String :=
  String.ofList (d.writeChars indent)

/-- The text of a document that holds just this element. -/
def Element.write (indent : Nat) (e : Element) : String :=
  Document.write indent { root := e }

end TransferRules.Markup

import TransferRules.Markup.Token
import TransferRules.Markup.Tree

/-!
# Reading a document

The tokens of a text are put together to a tree by keeping the elements that are open,
innermost first.  A closing tag hands the innermost element over to the one around it; the
outermost element becomes the root.  Comments and instructions outside the root belong to the
prolog or the epilog; a document type declaration counts wherever it stands, the last one
winning.

## Main Definitions

* `ReadError` — why a text is no document
* `Assembly` — the elements that are open, and what was completed
* `Document.parse` — the document of a text
-/

namespace TransferRules.Markup

open TransferRules.Text

/-- Why a text is no document. -/
inductive ReadError where
  | fault (fault : ReadFault)
  | badAttribute (error : AttributeError)
  | badText (error : EntityError)
  | textOutsideRoot
  | secondRoot
  | neverClosed (name : String)
  | noRoot
  deriving Repr, DecidableEq

/-- The wording of a read error. -/
def ReadError.message : ReadError → String
  | .fault found => found.message
  | .badAttribute error => error.message
  | .badText error => error.message
  | .textOutsideRoot => "text outside the root element"
  | .secondRoot => "more than one root element"
  | .neverClosed name => "element <" ++ name ++ "> is never closed"
  | .noRoot => "document has no root element"

/-- A document under construction: the open elements, innermost first, the root once it is
closed, and what stands around it.  The children of an open element are held last first. -/
structure Assembly where
  openElements : List Element := []
  root : Option Element := none
  doctype : Option String := none
  prolog : List Node := []
  epilog : List Node := []

namespace Assembly

/-- Add a node to the innermost open element; outside the root, to the prolog or epilog. -/
def place (a : Assembly) (node : Node) : Assembly :=
  match a.openElements with
  | e :: rest => { a with openElements := { e with children := node :: e.children } :: rest }
  | [] =>
    if a.root.isSome then { a with epilog := a.epilog ++ [node] }
    else { a with prolog := a.prolog ++ [node] }

/-- Add a completed element: to the innermost open element, or as the root. -/
def complete (a : Assembly) (element : Element) : Except ReadError Assembly :=
  match a.openElements with
  | _ :: _ => .ok (a.place element.toNode)
  | [] =>
    if a.root.isSome then .error .secondRoot
    else .ok { a with root := some element }

/-- Add a text, trimmed; nothing is left of a blank one. -/
def addText (a : Assembly) (content : List Char) : Except ReadError Assembly :=
  match strip isBlank content with
  | [] => .ok a
  | trimmed =>
    match a.openElements with
    | _ :: _ => .ok (a.place (.text (String.ofList trimmed)))
    | [] => .error .textOutsideRoot

/-- The element of a tag, still without children. -/
def elementOfTag (content : List Char) : Except ReadError Element :=
  match readAttributes content with
  | .ok attributes => .ok ⟨String.ofList (tagName content), attributes, []⟩
  | .error error => .error (.badAttribute error)

/-- An open element as it is when it gets closed. -/
def closed (e : Element) : Element := { e with children := e.children.reverse }

/-- Add one token of a text of `total` bytes. -/
def step (total : Nat) (a : Assembly) : Token → Except ReadError Assembly
  | .opening content => do
    let element ← elementOfTag content
    return { a with openElements := element :: a.openElements }
  | .empty content => do
    let element ← elementOfTag content
    a.complete element
  | .closing name unread =>
    match a.openElements with
    | [] => .error (.fault ⟨.unmatchedEnd (String.ofList name), total - byteSize unread⟩)
    | element :: rest =>
      if element.name = String.ofList name then
        complete { a with openElements := rest } (closed element)
      else
        .error (.fault
          ⟨.mismatchedEnd element.name (String.ofList name), total - byteSize unread⟩)
  | .text content =>
    match unescape content with
    | .ok plain => a.addText plain
    | .error error => .error (.badText error)
  | .data content => a.addText content
  | .comment content => .ok (a.place (.comment (String.ofList content)))
  | .instruction content =>
    .ok (a.place (.instruction (String.ofList (strip isBlank content))))
  | .declaration => .ok a
  | .doctype content => .ok { a with doctype := some (String.ofList (strip isBlank content)) }

/-- The document that was put together, if every element is closed and there is a root. -/
def finish (a : Assembly) : Except ReadError Document :=
  match a.openElements with
  | element :: _ => .error (.neverClosed element.name)
  | [] =>
    match a.root with
    | none => .error .noRoot
    | some root => .ok ⟨a.doctype, a.prolog, root, a.epilog⟩

end Assembly

/-- The document of the tokens of a text of `total` bytes, or the first error: a fault of the
text itself comes after all tokens read before it. -/
def Document.ofTokens (total : Nat) (tokens : List Token) (fault? : Option ReadFault) :
    Except ReadError Document := do
  let assembly ← tokens.foldlM (Assembly.step total) {}
  match fault? with
  | some fault => throw (.fault fault)
  | none => assembly.finish

/-- A text without the byte order mark at its start, which is no part of it. -/
def withoutMark : List Char → List Char
  | '\uFEFF' :: cs => cs
  | cs => cs

/-- The document of a text. -/
def Document.parse (text : String) : Except ReadError Document :=
  let cs := withoutMark text.toList
  let (tokens, fault?) := tokens cs
  Document.ofTokens (byteSize cs) tokens fault?

end TransferRules.Markup

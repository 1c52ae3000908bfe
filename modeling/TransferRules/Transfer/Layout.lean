import TransferRules.Markup.Reading
import TransferRules.Markup.Writing
import TransferRules.Transfer.Document

/-!
# Transfer documents as markup

A loaded file is sorted into its sections: a repeated section adds its children to the first
one, and every other node under the root is kept aside.  Written, the sections come first, in
their fixed order, and the other nodes follow.  A section is written if the file had it, if it
is mandatory, or if it holds an element.

## Main Definitions

* `TransferDocument.ofMarkup` — sort a markup document into sections
* `TransferDocument.toElement` — the root as it is written
* `TransferDocument.parse`, `TransferDocument.write` — from and to text
-/

namespace TransferRules.Transfer

open TransferRules.Markup

/-- Why a text is no transfer file, or no file of some other kind with a fixed root. -/
inductive LoadError where
  | unreadable (error : ReadError)
  | wrongRoot (expected found : String)
  deriving Repr, DecidableEq

/-- The wording of a load error. -/
def LoadError.message : LoadError → String
  | .unreadable error => error.message
  | .wrongRoot expected found =>
    "expected <" ++ expected ++ "> root element, found <" ++ found ++ ">"

/-- The markup document of a text whose root has the given name. -/
def parseRooted (expected : String) (text : String) : Except LoadError Markup.Document :=
  match Markup.Document.parse text with
  | .error error => .error (.unreadable error)
  | .ok document =>
    if document.root.name = expected then .ok document
    else .error (.wrongRoot expected document.root.name)

namespace TransferDocument

/-- Record every definition of an element of the given kind as loaded. -/
def markLoaded (kind : SectionKind) (e : Element) (s : Section) : Section :=
  ((e.childrenNamed kind.definitionTag).filterMap (definitionName? kind)).foldl
    (fun s name => s.setProvenance name .loaded) s

/-- Add a section of the file: its children follow those of an earlier section of its kind. -/
def absorbSection (d : TransferDocument) (kind : SectionKind) (e : Element) : TransferDocument :=
  match d.sectionOf? kind with
  | some s =>
    d.setSection kind
      (markLoaded kind e
        { s with children := s.children ++ e.children, provenance := .loaded })
  | none =>
    d.setSection kind
      (markLoaded kind e ⟨e.attributes, e.children, .loaded, []⟩)

/-- Add a node under the root of the file. -/
def absorbNode (d : TransferDocument) (node : Node) : TransferDocument :=
  match node.element? with
  | none => { d with extras := d.extras ++ [node] }
  | some e =>
    match SectionKind.ofTag? e.name with
    | some kind => d.absorbSection kind e
    | none => { d with extras := d.extras ++ [node] }

/-- Sort a markup document into sections. -/
def ofMarkup (document : Markup.Document) : TransferDocument :=
  document.root.children.foldl absorbNode
    { doctype := document.doctype
      prolog := document.prolog
      epilog := document.epilog
      rootAttributes := document.root.attributes }

/-- The transfer document of a text. -/
def parse (text : String) : Except LoadError TransferDocument :=
  (parseRooted rootTag text).map ofMarkup

/-- Whether a section is written. -/
def isRetained (d : TransferDocument) (kind : SectionKind) : Bool :=
  kind.isMandatory ||
    match d.sectionOf? kind with
    | none => false
    | some s =>
      match s.provenance with
      | .loaded => true
      | .generated => !(s.toElement kind).hasNoElements

/-- The sections that are written, in order. -/
def retainedSections (d : TransferDocument) : List SectionKind :=
  SectionKind.all.filter d.isRetained

/-- The root as it is written. -/
def toElement (d : TransferDocument) : Element where
  name := rootTag
  attributes := d.rootAttributes
  children :=
    (d.retainedSections.map fun kind =>
      ((d.sectionElement? kind).getD (Element.named kind.tag)).toNode) ++ d.extras

/-- The markup document as it is written. -/
def toMarkup (d : TransferDocument) : Markup.Document :=
  ⟨d.doctype, d.prolog, d.toElement, d.epilog⟩

/-- The text of a transfer document. -/
def write (indent : Nat) (d : TransferDocument) : String := d.toMarkup.write indent

end TransferDocument

end TransferRules.Transfer

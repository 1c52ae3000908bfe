import TransferRules.Markup.Tree
import TransferRules.Transfer.Section

/-!
# Transfer documents

A transfer document holds its sections, and around them whatever else the file had: the
document type, comments and instructions around the root, attributes of the root, and nodes
under the root that are no sections.  Definitions are the children of a section with its
definition tag; those with a name carry a provenance.

## Main Definitions

* `Section` — the attributes and children of a section, and where its definitions come from
* `TransferDocument` — a transfer file that is being edited
* `TransferDocument.addDefinition`, `TransferDocument.removeDefinition` — the two edits

## Design Notes

Children that are no definitions are never touched, and a definition is only ever added at the
end of its section, so hand-written content keeps its place.
-/

namespace TransferRules.Transfer

open TransferRules.Markup

/-- The root of a transfer file. -/
def rootTag : String := "transfer"

/-- The document type of a new transfer file. -/
def standardDoctype : String := "transfer PUBLIC \"-//XMLmind//DTD transfer//EN\" \"transfer.dtd\""

/-- The name of a definition of the given section. -/
def definitionName? (kind : SectionKind) (e : Element) : Option String :=
  e.attribute? kind.nameKey

/-- A section: its attributes and children, whether it was loaded, and the provenance of the
names that its definitions have. -/
structure Section where
  attributes : List (String × String) := []
  children : List Node := []
  provenance : Provenance
  nameProvenance : List (String × Provenance) := []
  deriving Repr, DecidableEq

namespace Section

/-- The element of a section. -/
def toElement (kind : SectionKind) (s : Section) : Element := ⟨kind.tag, s.attributes, s.children⟩

/-- The definitions of a section in document order. -/
def definitions (kind : SectionKind) (s : Section) : List Element :=
  (s.toElement kind).childrenNamed kind.definitionTag

/-- The provenance of a name. -/
def provenanceOf? (s : Section) (name : String) : Option Provenance :=
  (s.nameProvenance.find? fun pair => pair.1 == name).map Prod.snd

/-- Record a provenance for a name, in place of an earlier one. -/
def setProvenance (s : Section) (name : String) (p : Provenance) : Section :=
  { s with nameProvenance := (s.nameProvenance.filter fun pair => pair.1 != name) ++ [(name, p)] }

/-- Record a name as generated, unless it has a provenance. -/
def markGenerated (s : Section) (name : String) : Section :=
  if (s.provenanceOf? name).isSome then s else s.setProvenance name .generated

/-- Forget the provenance of a name. -/
def forget (s : Section) (name : String) : Section :=
  { s with nameProvenance := s.nameProvenance.filter fun pair => pair.1 != name }

/-- An empty section that was not in a file. -/
def fresh : Section := { provenance := .generated }

end Section

/-- A transfer file that is being edited. -/
structure TransferDocument where
  doctype : Option String := some standardDoctype
  prolog : List Node := []
  epilog : List Node := []
  rootAttributes : List (String × String) := []
  sections : PerSection (Option Section) := .const none
  /-- Nodes under the root that are no sections. -/
  extras : List Node := []
  deriving Repr, DecidableEq

namespace TransferDocument

/-- A transfer file without content. -/
def blank : TransferDocument := {}

/-- The section of a kind, if there is one. -/
def sectionOf? (d : TransferDocument) (kind : SectionKind) : Option Section := d.sections.get kind

/-- The section of a kind, a fresh one if there is none. -/
def sectionOrFresh (d : TransferDocument) (kind : SectionKind) : Section :=
  (d.sectionOf? kind).getD Section.fresh

/-- The document with a section put in. -/
def setSection (d : TransferDocument) (kind : SectionKind) (s : Section) : TransferDocument :=
  { d with sections := d.sections.set kind (some s) }

/-- The document in which the section of a kind exists. -/
def touchSection (d : TransferDocument) (kind : SectionKind) : TransferDocument :=
  d.setSection kind (d.sectionOrFresh kind)

/-- The element of a section, if there is one. -/
def sectionElement? (d : TransferDocument) (kind : SectionKind) : Option Element :=
  (d.sectionOf? kind).map (Section.toElement kind)

/-- The definitions of a section in document order. -/
def definitions (d : TransferDocument) (kind : SectionKind) : List Element :=
  match d.sectionOf? kind with
  | some s => s.definitions kind
  | none => []

/-- The names of the definitions of a section in document order. -/
def definitionNames (d : TransferDocument) (kind : SectionKind) : List String :=
  (d.definitions kind).filterMap (definitionName? kind)

/-- The first definition with the given name. -/
def definition? (d : TransferDocument) (kind : SectionKind) (name : String) : Option Element :=
  (d.definitions kind).find? fun e => definitionName? kind e == some name

/-- Whether a definition has the given name. -/
def contains (d : TransferDocument) (kind : SectionKind) (name : String) : Bool :=
  (d.definition? kind name).isSome

/-- The provenance of a name. -/
def provenanceOf? (d : TransferDocument) (kind : SectionKind) (name : String) :
    Option Provenance :=
  (d.sectionOf? kind).bind fun s => s.provenanceOf? name

/-- Whether a name was in the loaded file. -/
def isLoaded (d : TransferDocument) (kind : SectionKind) (name : String) : Bool :=
  d.provenanceOf? kind name == some .loaded

/-- The names of the generated definitions of a section in document order. -/
def generatedNames (d : TransferDocument) (kind : SectionKind) : List String :=
  (d.definitionNames kind).filter fun name => d.provenanceOf? kind name == some .generated

/-- Whether no section holds a definition. -/
def isEmpty (d : TransferDocument) : Bool :=
  SectionKind.all.all fun kind => (d.definitions kind).isEmpty

/-- Add an element at the end of a section, which is created if need be. -/
def pushElement (d : TransferDocument) (kind : SectionKind) (e : Element) : TransferDocument :=
  let s := d.sectionOrFresh kind
  d.setSection kind { s with children := s.children ++ [e.toNode] }

/-- Add a definition at the end of its section and record its name as generated. -/
def addDefinition (d : TransferDocument) (kind : SectionKind) (e : Element) : TransferDocument :=
  let s := d.sectionOrFresh kind
  let s := match definitionName? kind e with
    | some name => s.markGenerated name
    | none => s
  d.setSection kind { s with children := s.children ++ [e.toNode] }

/-- Whether a node is a definition of the given name. -/
def isDefinitionNamed (kind : SectionKind) (name : String) (node : Node) : Bool :=
  match node.element? with
  | some e => e.name == kind.definitionTag && definitionName? kind e == some name
  | none => false

/-- Remove every definition with the given name. -/
def removeDefinition (d : TransferDocument) (kind : SectionKind) (name : String) :
    TransferDocument :=
  match d.sectionOf? kind with
  | none => d
  | some s =>
    if s.children.any (isDefinitionNamed kind name) then
      let kept := s.children.filter fun node => !isDefinitionNamed kind name node
      d.setSection kind { s.forget name with children := kept }
    else d

/-- How many definitions have the given name. -/
def countNamed (d : TransferDocument) (kind : SectionKind) (name : String) : Nat :=
  (d.definitions kind).countP fun e => definitionName? kind e == some name

/-- Change the first node that is a definition of the given name. -/
def updateFirst (kind : SectionKind) (name : String) (f : Element → Element) :
    List Node → List Node
  | [] => []
  | node :: nodes =>
    if isDefinitionNamed kind name node then
      match node.element? with
      | some e => (f e).toNode :: nodes
      | none => node :: nodes
    else node :: updateFirst kind name f nodes

/-- Change the first definition with the given name. -/
def updateDefinition (d : TransferDocument) (kind : SectionKind) (name : String)
    (f : Element → Element) : TransferDocument :=
  match d.sectionOf? kind with
  | none => d
  | some s => d.setSection kind { s with children := updateFirst kind name f s.children }

end TransferDocument

end TransferRules.Transfer

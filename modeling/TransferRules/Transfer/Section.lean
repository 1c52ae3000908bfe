/-!
# Sections of a transfer file

A transfer file groups its definitions in six sections, which are written in a fixed order.
Every section has its own tag, the tag of the definitions it holds, and the attribute that
names them.

## Main Definitions

* `SectionKind` — the six sections
* `PerSection` — one value for every section
* `Provenance` — whether something was loaded or generated
-/

namespace TransferRules.Transfer

/-- The six sections of a transfer file. -/
inductive SectionKind where
  | categories
  | attributes
  | vars
  | lists
  | macros
  | rules
  deriving Repr, DecidableEq

namespace SectionKind

/-- All sections in the order in which they are written. -/
def all : List SectionKind := [categories, attributes, vars, lists, macros, rules]

theorem mem_all (kind : SectionKind) : kind ∈ all := by
  cases kind <;> decide

/-- The name of the section's element. -/
def tag : SectionKind → String
  | categories => "section-def-cats"
  | attributes => "section-def-attrs"
  | vars => "section-def-vars"
  | lists => "section-def-lists"
  | macros => "section-def-macros"
  | rules => "section-rules"

/-- The name of the elements that are the section's definitions. -/
def definitionTag : SectionKind → String
  | categories => "def-cat"
  | attributes => "def-attr"
  | vars => "def-var"
  | lists => "def-list"
  | macros => "def-macro"
  | rules => "rule"

/-- The attribute that names a definition: a rule is named by its comment. -/
def nameKey : SectionKind → String
  | rules => "comment"
  | _ => "n"

/-- The section whose element has the given name. -/
def ofTag? (tag : String) : Option SectionKind := all.find? fun kind => kind.tag == tag

/-- Whether a transfer file needs the section even when it is empty. -/
def isMandatory : SectionKind → Bool
  | categories => true
  | rules => true
  | _ => false

theorem ofTag?_tag (kind : SectionKind) : ofTag? kind.tag = some kind := by
  cases kind <;> decide

end SectionKind

/-- Where a section or a definition comes from. -/
inductive Provenance where
  /-- It was in the file that was loaded. -/
  | loaded
  /-- It was added since. -/
  | generated
  deriving Repr, DecidableEq

/-- A value for every section. -/
structure PerSection (α : Type) where
  categories : α
  attributes : α
  vars : α
  lists : α
  macros : α
  rules : α
  deriving Repr, DecidableEq

namespace PerSection

variable {α : Type}

/-- The same value for every section. -/
def const (a : α) : PerSection α := ⟨a, a, a, a, a, a⟩

/-- The value of a section. -/
def get (t : PerSection α) : SectionKind → α
  | .categories => t.categories
  | .attributes => t.attributes
  | .vars => t.vars
  | .lists => t.lists
  | .macros => t.macros
  | .rules => t.rules

/-- The table with a new value for one section. -/
def set (t : PerSection α) (kind : SectionKind) (a : α) : PerSection α :=
  match kind with
  | .categories => { t with categories := a }
  | .attributes => { t with attributes := a }
  | .vars => { t with vars := a }
  | .lists => { t with lists := a }
  | .macros => { t with macros := a }
  | .rules => { t with rules := a }

@[simp] theorem get_const (a : α) (kind : SectionKind) : (const a).get kind = a := by
  cases kind <;> rfl

@[simp] theorem get_set_self (t : PerSection α) (kind : SectionKind) (a : α) :
    (t.set kind a).get kind = a := by
  cases kind <;> rfl

theorem get_set_of_ne (t : PerSection α) {kind other : SectionKind} (a : α) (h : other ≠ kind) :
    (t.set kind a).get other = t.get other := by
  cases kind <;> cases other <;> first | rfl | exact absurd rfl h

/-- Two tables with the same values are equal. -/
theorem ext {t u : PerSection α} (h : ∀ kind, t.get kind = u.get kind) : t = u := by
  cases t
  cases u
  have h1 := h .categories
  have h2 := h .attributes
  have h3 := h .vars
  have h4 := h .lists
  have h5 := h .macros
  have h6 := h .rules
  simp only [get] at h1 h2 h3 h4 h5 h6
  subst h1 h2 h3 h4 h5 h6
  rfl

end PerSection

end TransferRules.Transfer

import TransferRules.Text.Identifier
import TransferRules.Transfer.Document

/-!
# Names in use

Every section has a name space of its own.  A new name is the identifier of what was asked
for, if that is free, or else the identifier with the least positive number that makes it free.

## Main Definitions

* `firstFree` — the first of a sequence of candidates that is not in use
* `freeName` — a free name made from a base
* `NameTable` — the names in use in every section
* `NameTable.allocate` — find a free name and take it

## Main Statements

* `firstFree_filter`, `freeName_eq` — only names that may be candidates matter for the search

## Design Notes

The search drops every candidate that it meets from the list of used names, so the list gets
shorter with every step.  Because the candidates are distinct, what is dropped is not asked for
again.  Names stand in the order in which they were taken.  Among the names of one base that is
mostly the order in which the search asks for them, so each is met near the front.
-/

namespace TransferRules.Transfer

open TransferRules.Text

/-- The first candidate, from the `n`-th on, that is not in use. -/
def firstFree (candidate : Nat → String) (n : Nat) (used : List String) : String :=
  if candidate n ∈ used then firstFree candidate (n + 1) (used.erase (candidate n))
  else candidate n
termination_by used.length
decreasing_by
  rw [List.length_erase_of_mem ‹_›]
  have := List.length_pos_of_mem ‹candidate n ∈ used›
  omega

/-- Names that are no candidates do not matter for the search. -/
theorem firstFree_filter {candidate : Nat → String} {p : String → Bool}
    (h : ∀ n, p (candidate n) = true) (n : Nat) (used : List String) :
    firstFree candidate n (used.filter p) = firstFree candidate n used := by
  fun_induction firstFree candidate n used with
  | case1 n used hmem ih =>
    rw [firstFree, if_pos (List.mem_filter.2 ⟨hmem, h n⟩), List.erase_filter, ih]
  | case2 n used hmem =>
    rw [firstFree, if_neg fun hfilter => hmem (List.mem_filter.1 hfilter).1]

/-- A base with a number. -/
def numbered (base : String) (n : Nat) : String := base ++ toString n

/-- Whether a name is a base with figures behind it. -/
def isNumbered (base name : List Char) : Bool :=
  base.isPrefixOf name && (name.drop base.length).all Char.isDigit

theorem isNumbered_numbered (base : String) (n : Nat) :
    isNumbered base.toList (numbered base n).toList = true := by
  simp only [isNumbered, numbered, String.toList_append, Nat.toString_eq_repr, Nat.toList_repr,
    List.drop_left, List.isPrefixOf_iff_prefix, List.prefix_append, List.all_eq_true,
    Bool.and_eq_true, true_and]
  exact fun _ h => Nat.isDigit_of_mem_toDigits (by decide) (by decide) h

/-- A free name: the base, or the base with the least positive number that makes it free. -/
def freeName (base : String) (used : List String) : String :=
  if base ∈ used then
    let chars := base.toList
    firstFree (numbered base) 1 (used.filter fun name => isNumbered chars name.toList)
  else base

/-- The number is the first one that is free among all names in use. -/
theorem freeName_eq (base : String) (used : List String) :
    freeName base used = if base ∈ used then firstFree (numbered base) 1 used else base := by
  unfold freeName
  split
  · exact firstFree_filter (fun n => isNumbered_numbered base n) 1 used
  · rfl

/-- The names in use in every section, the last one taken at the end. -/
structure NameTable where
  used : PerSection (List String) := .const []
  deriving Repr, DecidableEq

namespace NameTable

/-- Whether a name is in use. -/
def isUsed (t : NameTable) (kind : SectionKind) (name : String) : Bool :=
  (t.used.get kind).contains name

/-- Take a name, in use or not. -/
def reserve (t : NameTable) (kind : SectionKind) (name : String) : NameTable :=
  if t.isUsed kind name then t else ⟨t.used.set kind (t.used.get kind ++ [name])⟩

/-- Give a name back. -/
def release (t : NameTable) (kind : SectionKind) (name : String) : NameTable :=
  ⟨t.used.set kind ((t.used.get kind).filter (· != name))⟩

/-- Give several names back. -/
def releaseAll (t : NameTable) (kind : SectionKind) (names : List String) : NameTable :=
  names.foldl (fun t name => t.release kind name) t

/-- Take a free name made from the identifier of `base`. -/
def allocate (t : NameTable) (kind : SectionKind) (base : String) : String × NameTable :=
  let name := freeName (identifier base) (t.used.get kind)
  (name, t.reserve kind name)

/-- The names that the definitions of a document use. -/
def ofDocument (d : TransferDocument) : NameTable :=
  SectionKind.all.foldl
    (fun t kind => (d.definitionNames kind).foldl (fun t name => t.reserve kind name) t) {}

end NameTable

end TransferRules.Transfer

/-!
# Sets of strings in order

A set of strings is the strictly ascending list of its members, in the order of code points.
Because the order is part of the type, two sets with the same members are equal, and every
listing made from a set comes out sorted.

## Main Definitions

* `StringSet` — a strictly ascending list
* `StringSet.insert`, `StringSet.ofList`, `StringSet.union` — building sets

## Main Statements

* `StringSet.mem_insert`, `StringSet.mem_ofList`, `StringSet.mem_union` — what is in them
* `StringSet.ext` — extensionality
-/

namespace TransferRules.Ordered

/-- Insert into an ascending list, unless the string is there. -/
def insertString (s : String) : List String → List String
  | [] => [s]
  | t :: ts =>
    if s < t then s :: t :: ts
    else if s = t then t :: ts
    else t :: insertString s ts

theorem mem_insertString {s x : String} {l : List String} :
    x ∈ insertString s l ↔ x = s ∨ x ∈ l := by
  induction l with
  | nil => simp [insertString]
  | cons t ts ih =>
    unfold insertString
    split
    · simp
    · split
      · next h => subst h; simp
      · simp only [List.mem_cons, ih]
        constructor
        · rintro (h | h | h) <;> simp [h]
        · rintro (h | h | h) <;> simp [h]

theorem pairwise_insertString {s : String} {l : List String}
    (hsorted : l.Pairwise (· < ·)) : (insertString s l).Pairwise (· < ·) := by
  induction l with
  | nil => simp [insertString]
  | cons t ts ih =>
    have hcons := List.pairwise_cons.1 hsorted
    unfold insertString
    split
    · next hlt =>
      refine List.pairwise_cons.2 ⟨fun x hx => ?_, hsorted⟩
      rcases List.mem_cons.1 hx with rfl | hx
      · exact hlt
      · exact String.lt_trans hlt (hcons.1 x hx)
    · split
      · exact hsorted
      · next hlt hne =>
        refine List.pairwise_cons.2 ⟨fun x hx => ?_, ih hcons.2⟩
        rcases mem_insertString.1 hx with rfl | hx
        · exact Std.lt_of_le_of_ne (String.not_lt.1 hlt) (fun h => hne h.symm)
        · exact hcons.1 x hx

/-- A finite set of strings, listed in ascending order. -/
structure StringSet where
  toList : List String
  sorted : toList.Pairwise (· < ·)
  deriving DecidableEq

namespace StringSet

instance : Membership String StringSet := ⟨fun set s => s ∈ set.toList⟩

instance (s : String) (set : StringSet) : Decidable (s ∈ set) :=
  inferInstanceAs (Decidable (s ∈ set.toList))

/-- The set without members. -/
def empty : StringSet := ⟨[], List.Pairwise.nil⟩

instance : Inhabited StringSet := ⟨empty⟩

/-- The set with `s` as one of its members. -/
def insert (set : StringSet) (s : String) : StringSet :=
  ⟨insertString s set.toList, pairwise_insertString set.sorted⟩

/-- The set of all strings of a list. -/
def ofList (l : List String) : StringSet :=
  l.foldl insert empty

/-- The set with the members of both. -/
def union (set other : StringSet) : StringSet :=
  other.toList.foldl insert set

/-- Whether the set has no member. -/
def isEmpty (set : StringSet) : Bool := set.toList.isEmpty

theorem mem_def {s : String} {set : StringSet} : s ∈ set ↔ s ∈ set.toList := Iff.rfl

@[simp] theorem notMem_empty (s : String) : ¬ s ∈ empty := by
  simp [mem_def, empty]

@[simp] theorem mem_insert {x s : String} {set : StringSet} :
    x ∈ set.insert s ↔ x = s ∨ x ∈ set :=
  mem_insertString

theorem mem_foldl_insert {x : String} {l : List String} {set : StringSet} :
    x ∈ l.foldl insert set ↔ x ∈ l ∨ x ∈ set := by
  induction l generalizing set with
  | nil => simp
  | cons s l ih =>
    simp only [List.foldl_cons, ih, mem_insert, List.mem_cons]
    constructor
    · rintro (h | h | h) <;> simp [h]
    · rintro ((h | h) | h) <;> simp [h]

@[simp] theorem mem_ofList {x : String} {l : List String} : x ∈ ofList l ↔ x ∈ l := by
  simp [ofList, mem_foldl_insert]

@[simp] theorem mem_union {x : String} {set other : StringSet} :
    x ∈ set.union other ↔ x ∈ set ∨ x ∈ other :=
  mem_foldl_insert.trans or_comm

/-- An ascending list is determined by its members. -/
theorem toList_eq_of_mem_iff {l m : List String} (hl : l.Pairwise (· < ·))
    (hm : m.Pairwise (· < ·)) (h : ∀ x, x ∈ l ↔ x ∈ m) : l = m := by
  induction l generalizing m with
  | nil =>
    cases m with
    | nil => rfl
    | cons b m => exact absurd ((h b).2 List.mem_cons_self) (by simp)
  | cons a l ih =>
    cases m with
    | nil => exact absurd ((h a).1 List.mem_cons_self) (by simp)
    | cons b m =>
      have hl' := List.pairwise_cons.1 hl
      have hm' := List.pairwise_cons.1 hm
      have hab : a = b := by
        rcases List.mem_cons.1 ((h a).1 List.mem_cons_self) with hab | ham
        · exact hab
        rcases List.mem_cons.1 ((h b).2 List.mem_cons_self) with hba | hbl
        · exact hba.symm
        exact absurd (hl'.1 b hbl) (String.lt_asymm (hm'.1 a ham))
      subst hab
      refine congrArg (a :: ·) (ih hl'.2 hm'.2 fun x => ?_)
      constructor
      · intro hx
        rcases List.mem_cons.1 ((h x).1 (List.mem_cons_of_mem a hx)) with rfl | hxm
        · exact absurd (hl'.1 x hx) (String.lt_irrefl x)
        · exact hxm
      · intro hx
        rcases List.mem_cons.1 ((h x).2 (List.mem_cons_of_mem a hx)) with rfl | hxl
        · exact absurd (hm'.1 x hx) (String.lt_irrefl x)
        · exact hxl

/-- Two sets with the same members are equal. -/
theorem ext {set other : StringSet} (h : ∀ x, x ∈ set ↔ x ∈ other) : set = other := by
  cases set
  cases other
  congr 1
  exact toList_eq_of_mem_iff ‹_› ‹_› h

end StringSet

/-- The strings of a list in ascending order, each once. -/
def sortStrings (l : List String) : List String := (StringSet.ofList l).toList

@[simp] theorem mem_sortStrings {x : String} {l : List String} : x ∈ sortStrings l ↔ x ∈ l :=
  StringSet.mem_ofList

/-- Sorting depends on the members only. -/
theorem sortStrings_congr {l m : List String} (h : ∀ x, x ∈ l ↔ x ∈ m) :
    sortStrings l = sortStrings m :=
  congrArg StringSet.toList (StringSet.ext fun x => by rw [StringSet.mem_ofList,
    StringSet.mem_ofList, h])

theorem pairwise_sortStrings (l : List String) : (sortStrings l).Pairwise (· < ·) :=
  (StringSet.ofList l).sorted

end TransferRules.Ordered

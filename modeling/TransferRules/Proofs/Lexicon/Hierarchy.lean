import Mathlib.Logic.Relation
import TransferRules.Lexicon.Basic
import TransferRules.Proofs.Ordered.Reachable
import TransferRules.Proofs.Ordered.Related

/-!
# The hierarchy of categories

A category is below another one if the links from categories to the one directly above lead from the
first to the second.  Nothing keeps these links from forming cycles, so a category may be below
itself.  The search for subcategories finds what is below a category, and leaves out the category
itself.

## Main Definitions

* `Lexicon.IsBelow` — one or more links lead from a category to another one

## Main Statements

* `Lexicon.mem_covered_iff` — a category with its subcategories is all that is below it, and itself
-/

namespace TransferRules

open TransferRules.Ordered

/-- The first entry of a key is the only one. -/
theorem Ordered.StringMap.find?_eq_some_iff {α : Type} {m : StringMap α} {key : String}
    {value : α} : m.find? key = some value ↔ (key, value) ∈ m.entries := by
  refine ⟨mem_of_find?_key, fun h => ?_⟩
  have hfound : (m.entries.find? fun entry => entry.1 == key) = some (key, value) :=
    find?_key_eq m.nodup_keys h
  unfold StringMap.find?
  rw [hfound]
  rfl

namespace Lexicon

variable {x : Lexicon} {category other : String}

/-- One or more links lead up from a category to another one. -/
def IsBelow (x : Lexicon) (category other : String) : Prop :=
  Relation.TransGen (fun lower upper => x.parent? lower = some upper) category other

/-- The categories directly below are those whose link leads to the category. -/
theorem mem_children_iff : other ∈ x.children category ↔ x.parent? other = some category := by
  unfold children parent?
  rw [Option.join_eq_some_iff, StringMap.find?_eq_some_iff, List.mem_map]
  constructor
  · rintro ⟨⟨name, upper⟩, hentry, rfl⟩
    obtain ⟨hentry, hupper⟩ := List.mem_filter.1 hentry
    obtain rfl : upper = some category := beq_iff_eq.1 hupper
    exact hentry
  · exact fun hentry => ⟨_, List.mem_filter.2 ⟨hentry, beq_self_eq_true _⟩, rfl⟩

theorem mem_categoryNames_of_mem_children (h : other ∈ x.children category) :
    other ∈ x.categoryNames := by
  obtain ⟨entry, hentry, rfl⟩ := List.mem_map.1 h
  exact List.mem_map_of_mem (List.mem_filter.1 hentry).1

/-- What is below a category is among the known ones. -/
theorem IsBelow.mem_categoryNames (h : x.IsBelow other category) : other ∈ x.categoryNames := by
  obtain ⟨upper, hlink, -⟩ := Relation.TransGen.head'_iff.1 h
  exact mem_categoryNames_of_mem_children (mem_children_iff.2 hlink)

/-- Going down from a category leads to itself and to what is below it. -/
theorem linked_children_iff :
    Linked x.children [category] other ↔ other = category ∨ x.IsBelow other category := by
  constructor
  · intro h
    induction h with
    | root h => exact .inl (List.mem_singleton.1 h)
    | link _ hchild ih =>
        have hlink := mem_children_iff.1 hchild
        rcases ih with rfl | hbelow
        · exact .inr (.single hlink)
        · exact .inr (.head hlink hbelow)
  · have hroot : Linked x.children [category] category := .root (List.mem_singleton_self _)
    rintro (rfl | hbelow)
    · exact hroot
    · induction hbelow using Relation.TransGen.head_induction_on with
      | single hlink => exact .link hroot (mem_children_iff.2 hlink)
      | head hlink _ ih => exact .link ih (mem_children_iff.2 hlink)

/-- What is explored from a category is the category and its subcategories. -/
theorem explore_eq_cons (x : Lexicon) (category : String) :
    explore x.categoryNames x.children [category] [category] =
      category :: x.subcategories category := by
  obtain ⟨found, hfound⟩ : [category] <+:
      explore x.categoryNames x.children [category] [category] := prefix_explore
  rw [subcategories, ← hfound]
  rfl

/-- **A category with its subcategories** is all that is below it, and itself, whatever cycles the
links form. -/
theorem mem_covered_iff : other ∈ category :: x.subcategories category ↔
    other = category ∨ x.IsBelow other category := by
  rw [← explore_eq_cons, mem_explore_iff (fun _ _ => mem_categoryNames_of_mem_children)
    (fun _ h => h) fun _ h hout => absurd h hout]
  exact linked_children_iff

end Lexicon

end TransferRules

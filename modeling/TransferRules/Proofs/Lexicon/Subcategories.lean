import TransferRules.Proofs.Lexicon.Hierarchy

/-!
# The search for subcategories

The search goes down from a category.  It keeps the categories whose children it has not looked at
on a stack, and takes the one that it found last.  Each step takes one category off the stack and
puts on those of its children that were not found before, so no category is found twice and none is
looked at twice.  This is why the search ends, though the links between categories may form cycles
or lead to categories that are not known.

## Main Definitions

* `Lexicon.freshChildren`, `Lexicon.SearchStep` — a step of the search

## Main Statements

* `Lexicon.steps_explore` — the search is a sequence of such steps, up to the empty stack
* `Lexicon.subcategories_exact` — the search ends with all that is below a category, each once
-/

namespace TransferRules.Lexicon

open TransferRules.Ordered

variable {x : Lexicon} {category : String}

/-- The categories directly below a category that have not been found. -/
def freshChildren (x : Lexicon) (found : List String) (current : String) : List String :=
  (x.children current).filter fun child => !found.contains child

/-- A step of the search, from the stack and what has been found: the category on top makes way for
its children that have not been found. -/
inductive SearchStep (x : Lexicon) : List String × List String → List String × List String → Prop
  | descend (current : String) (stack found : List String) :
      SearchStep x (current :: stack, found)
        ((x.freshChildren found current).reverse ++ stack, found ++ x.freshChildren found current)

/-- A category is listed once among the children of another one. -/
theorem nodup_children (x : Lexicon) (category : String) : (x.children category).Nodup :=
  x.categories.nodup_keys.sublist (List.filter_sublist.map _)

/-- Only known categories have a parent, so no child is left out because it is not known. -/
theorem newNames_children (x : Lexicon) (found : List String) (current : String) :
    newNames x.categoryNames found (x.children current) = x.freshChildren found current :=
  newNames_eq_filter (fun _ => mem_categoryNames_of_mem_children) (x.nodup_children current)

/-- **The search ends.**  It is a sequence of steps, after which nothing is left on the stack. -/
theorem steps_explore (x : Lexicon) (stack found : List String) :
    Relation.ReflTransGen x.SearchStep (stack, found)
      ([], explore x.categoryNames x.children stack found) := by
  fun_induction explore x.categoryNames x.children stack found with
  | case1 found => exact .refl
  | case2 current stack found fresh ih =>
      have hfresh : fresh = x.freshChildren found current := x.newNames_children found current
      have hstep : x.SearchStep (current :: stack, found)
          (fresh.reverse ++ stack, found ++ fresh) := by
        rw [hfresh]
        exact .descend current stack found
      exact .head hstep ih

/-- **The subcategories of a category**, whatever cycles the links form and wherever they lead: the
search for them ends, lists no category twice and not the category itself, and lists another one if
and only if one or more links lead up from it to the category. -/
theorem subcategories_exact (x : Lexicon) (category : String) :
    Relation.ReflTransGen x.SearchStep ([category], [category])
        ([], category :: x.subcategories category) ∧
      (category :: x.subcategories category).Nodup ∧
      ∀ other, other ∈ x.subcategories category ↔
        other ≠ category ∧ x.IsBelow other category := by
  have hsteps := x.steps_explore [category] [category]
  have hnodup : (explore x.categoryNames x.children [category] [category]).Nodup :=
    nodup_explore (List.nodup_singleton category)
  rw [explore_eq_cons] at hsteps hnodup
  refine ⟨hsteps, hnodup, fun other => ?_⟩
  have hcovered : other ∈ category :: x.subcategories category ↔
      other = category ∨ x.IsBelow other category := mem_covered_iff
  rw [List.mem_cons] at hcovered
  constructor
  · intro hother
    have hne : other ≠ category := fun h => (List.nodup_cons.1 hnodup).1 (h ▸ hother)
    exact ⟨hne, (hcovered.1 (.inr hother)).resolve_left hne⟩
  · rintro ⟨hne, hbelow⟩
    exact (hcovered.2 (.inr hbelow)).resolve_left hne

/-- Two categories may each be above the other one. -/
example : ({ projectName := "cycle"
             categories := ((StringMap.empty.insert "n" (some "np")).insert "np" (some "n")).insert
               "pn" (some "np") } : Lexicon).subcategories "n" = ["np", "pn"] := by
  cbv

end TransferRules.Lexicon

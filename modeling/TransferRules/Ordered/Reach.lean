/-!
# What can be reached

Subcategories of a category and macros called by macros are both found by following links
from known names to new ones.  `explore` does this depth first inside a finite universe of
names, so it ends whatever cycles the links form; it lists the names in the order in which
they were found.
-/

namespace TransferRules.Ordered

/-- The names of a list that are in the universe and not yet seen, each once. -/
def newNames (pool : List String) : List String → List String → List String
  | _, [] => []
  | seen, x :: xs =>
    if x ∈ pool ∧ x ∉ seen then x :: newNames pool (seen ++ [x]) xs
    else newNames pool seen xs

theorem mem_newNames {pool seen names : List String} {x : String}
    (h : x ∈ newNames pool seen names) : x ∈ pool ∧ x ∉ seen ∧ x ∈ names := by
  induction names generalizing seen with
  | nil => simp [newNames] at h
  | cons y ys ih =>
    unfold newNames at h
    split at h
    · next hy =>
      rcases List.mem_cons.1 h with rfl | h
      · exact ⟨hy.1, hy.2, List.mem_cons_self⟩
      · obtain ⟨hpool, hseen, hys⟩ := ih h
        exact ⟨hpool, fun hx => hseen (List.mem_append_left _ hx), List.mem_cons_of_mem _ hys⟩
    · obtain ⟨hpool, hseen, hys⟩ := ih h
      exact ⟨hpool, hseen, List.mem_cons_of_mem _ hys⟩

/-- How many names of the universe are still unseen. -/
def unseenCount (pool seen : List String) : Nat :=
  (pool.filter fun x => !seen.contains x).length

theorem unseenCount_lt {pool seen more : List String} {x : String} (hpool : x ∈ pool)
    (hseen : x ∉ seen) (hmore : x ∈ more) :
    unseenCount pool (seen ++ more) < unseenCount pool seen := by
  unfold unseenCount
  rw [← List.countP_eq_length_filter, ← List.countP_eq_length_filter]
  induction pool with
  | nil => simp at hpool
  | cons y ys ih =>
    have hle : ys.countP (fun x => !(seen ++ more).contains x) ≤
        ys.countP (fun x => !seen.contains x) := by
      apply List.countP_mono_left
      intro z _ hz
      simp only [Bool.not_eq_true', List.contains_eq_mem, decide_eq_false_iff_not,
        List.mem_append, not_or] at hz ⊢
      exact hz.1
    rw [List.countP_cons, List.countP_cons]
    rcases List.mem_cons.1 hpool with rfl | hys
    · have h1 : (!(seen ++ more).contains x) = false := by simp [hmore]
      have h2 : (!seen.contains x) = true := by simpa using hseen
      rw [h1, h2]
      simp only [Bool.false_eq_true, if_false, if_true]
      omega
    · have hlt := ih hys
      have hstep : (if (!(seen ++ more).contains y) = true then 1 else 0) ≤
          (if (!seen.contains y) = true then 1 else 0) := by
        by_cases hy : y ∈ seen
        · simp [hy]
        · simp only [List.contains_eq_mem, List.mem_append, hy, false_or, decide_false,
            Bool.not_false, if_true]
          split <;> omega
      omega

/-- Follow the links `next` from the names on the stack, inside `pool`; the names seen so far
come first in the result, the new ones after them in the order in which they were found. -/
def explore (pool : List String) (next : String → List String) :
    List String → List String → List String
  | [], seen => seen
  | current :: stack, seen =>
    let fresh := newNames pool seen (next current)
    explore pool next (fresh.reverse ++ stack) (seen ++ fresh)
termination_by stack seen => (unseenCount pool seen, stack.length)
decreasing_by
  by_cases hfresh : newNames pool seen (next current) = []
  · simp only [hfresh, List.append_nil, List.reverse_nil, List.nil_append]
    exact Prod.Lex.right _ (by simp)
  · obtain ⟨x, hx⟩ := List.exists_mem_of_ne_nil _ hfresh
    have hmem := mem_newNames hx
    exact Prod.Lex.left _ _ (unseenCount_lt hmem.1 hmem.2.1 hx)

/-- The names of the pool that the links lead to from the given names, these included, in the
order in which they are found. -/
def reachable (pool : List String) (next : String → List String) (roots : List String) :
    List String :=
  let fresh := newNames pool [] roots
  explore pool next fresh.reverse fresh

end TransferRules.Ordered

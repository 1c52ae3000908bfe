import TransferRules.Ordered.Reach

/-!
# What the search finds

`explore` is a depth-first search with a stack and a list of the names seen so far.  It finds
exactly the names to which links lead, whatever cycles the links form, as long as no link leads
out of the universe in which it searches.

## Main Definitions

* `Linked` — the least set of names that holds the roots and is closed under links

## Main Statements

* `mem_explore_iff` — the search finds what is linked to the names seen at its start
* `nodup_explore` — the search finds no name twice
* `mem_reachable_iff` — `reachable` lists exactly what is linked to the roots
* `reachable_of_unlinked` — without links this is nothing but the roots
-/

namespace TransferRules.Ordered

/-- The names to which links lead from the roots, these included. -/
inductive Linked (next : String → List String) (roots : List String) : String → Prop where
  | root {x : String} (h : x ∈ roots) : Linked next roots x
  | link {x y : String} (hx : Linked next roots x) (hy : y ∈ next x) : Linked next roots y

variable {pool roots seen : List String} {next : String → List String}

/-- What is linked to names that are themselves linked to the roots is linked to the roots. -/
theorem Linked.trans {more : List String} (hmore : ∀ r ∈ more, Linked next roots r) {x : String}
    (h : Linked next more x) : Linked next roots x := by
  induction h with
  | root h => exact hmore _ h
  | link _ hy ih => exact .link ih hy

theorem Linked.mono {more : List String} (hmore : ∀ r ∈ roots, r ∈ more) {x : String}
    (h : Linked next roots x) : Linked next more x :=
  h.trans fun r hr => .root (hmore r hr)

/-- A set that holds the roots and is closed under links holds all that is linked. -/
theorem Linked.mem_of_closed (hroots : ∀ r ∈ roots, r ∈ seen)
    (hclosed : ∀ x ∈ seen, ∀ y ∈ next x, y ∈ seen) {x : String} (h : Linked next roots x) :
    x ∈ seen := by
  induction h with
  | root h => exact hroots _ h
  | link _ hy ih => exact hclosed _ ih _ hy

theorem mem_newNames_iff {names : List String} {x : String} :
    x ∈ newNames pool seen names ↔ x ∈ pool ∧ x ∉ seen ∧ x ∈ names := by
  refine ⟨mem_newNames, ?_⟩
  rintro ⟨hpool, hseen, hx⟩
  induction names generalizing seen with
  | nil => exact absurd hx (by simp)
  | cons y ys ih =>
      unfold newNames
      by_cases hxy : x = y
      · subst hxy
        rw [if_pos ⟨hpool, hseen⟩]
        exact List.mem_cons_self
      · have hys : x ∈ ys := (List.mem_cons.1 hx).resolve_left hxy
        split
        · refine List.mem_cons_of_mem _ (ih ?_ hys)
          simp [hseen, hxy]
        · exact ih hseen hys

/-- New names are listed once. -/
theorem nodup_newNames (pool seen names : List String) : (newNames pool seen names).Nodup := by
  induction names generalizing seen with
  | nil => exact List.nodup_nil
  | cons y ys ih =>
      unfold newNames
      split
      · refine List.nodup_cons.2 ⟨fun hy => ?_, ih _⟩
        exact (mem_newNames hy).2.1 (List.mem_append_right _ (List.mem_singleton_self y))
      · exact ih _

/-- Of names that are listed once, all in the universe, the new ones are those not seen. -/
theorem newNames_eq_filter {names : List String} (hpool : ∀ x ∈ names, x ∈ pool)
    (hnodup : names.Nodup) :
    newNames pool seen names = names.filter fun x => !seen.contains x := by
  induction names generalizing seen with
  | nil => rfl
  | cons y ys ih =>
      obtain ⟨hy, hys⟩ := List.nodup_cons.1 hnodup
      have hpool' : ∀ x ∈ ys, x ∈ pool := fun x hx => hpool x (List.mem_cons_of_mem _ hx)
      unfold newNames
      by_cases hseen : y ∈ seen
      · rw [if_neg fun h => h.2 hseen, ih hpool' hys,
          List.filter_cons_of_neg (by simpa using hseen)]
      · rw [if_pos ⟨hpool y List.mem_cons_self, hseen⟩, ih hpool' hys,
          List.filter_cons_of_pos (by simpa using hseen)]
        -- That `y` has been seen by now does not matter for the others.
        refine congrArg (y :: ·) (List.filter_congr fun x hx => ?_)
        have hxy : x ≠ y := fun h => hy (h ▸ hx)
        simp [hxy]

/-- **The search is exact.**  The invariant: everything on the stack has been seen, and every
link from a name that has left the stack leads to a name that has been seen. -/
theorem mem_explore_iff (hpool : ∀ x, ∀ y ∈ next x, y ∈ pool) {stack : List String}
    (hstack : ∀ x ∈ stack, x ∈ seen)
    (hdone : ∀ x ∈ seen, x ∉ stack → ∀ y ∈ next x, y ∈ seen) {x : String} :
    x ∈ explore pool next stack seen ↔ Linked next seen x := by
  fun_induction explore pool next stack seen with
  | case1 seen =>
      refine ⟨.root, Linked.mem_of_closed (fun _ h => h) fun y hy => hdone y hy ?_⟩
      exact List.not_mem_nil
  | case2 current stack seen fresh ih =>
      have hcurrent : current ∈ seen := hstack current List.mem_cons_self
      have hfresh : ∀ y ∈ fresh, y ∈ next current := fun y hy => (mem_newNames hy).2.2
      rw [ih ?_ ?_]
      · constructor
        · refine Linked.trans fun r hr => ?_
          rcases List.mem_append.1 hr with hr | hr
          · exact .root hr
          · exact .link (.root hcurrent) (hfresh r hr)
        · exact Linked.mono fun r hr => List.mem_append_left _ hr
      · intro y hy
        rcases List.mem_append.1 hy with hy | hy
        · exact List.mem_append_right _ (List.mem_reverse.1 hy)
        · exact List.mem_append_left _ (hstack y (List.mem_cons_of_mem _ hy))
      · -- Links from `current` lead to what was seen before or is fresh; all other names had left
        -- the stack earlier.
        intro y hy hout z hz
        rw [List.mem_append, List.mem_reverse, not_or] at hout
        have hy : y ∈ seen := (List.mem_append.1 hy).resolve_right hout.1
        by_cases hyc : y = current
        · subst hyc
          by_cases hzs : z ∈ seen
          · exact List.mem_append_left _ hzs
          · exact List.mem_append_right _ (mem_newNames_iff.2 ⟨hpool _ _ hz, hzs, hz⟩)
        · refine List.mem_append_left _ (hdone y hy ?_ z hz)
          rw [List.mem_cons, not_or]
          exact ⟨hyc, hout.2⟩

/-- What is found comes after what has been seen. -/
theorem prefix_explore {stack : List String} : seen <+: explore pool next stack seen := by
  fun_induction explore pool next stack seen with
  | case1 seen => exact List.prefix_rfl
  | case2 current stack seen fresh ih => exact (List.prefix_append seen fresh).trans ih

/-- No name is found twice. -/
theorem nodup_explore {stack : List String} (h : seen.Nodup) :
    (explore pool next stack seen).Nodup := by
  fun_induction explore pool next stack seen with
  | case1 seen => exact h
  | case2 current stack seen fresh ih =>
      refine ih (List.nodup_append.2 ⟨h, nodup_newNames _ _ _, ?_⟩)
      rintro y hseen z hfresh rfl
      exact (mem_newNames hfresh).2.1 hseen

/-- `reachable` lists exactly what is linked to the roots. -/
theorem mem_reachable_iff (hroots : ∀ x ∈ roots, x ∈ pool)
    (hpool : ∀ x, ∀ y ∈ next x, y ∈ pool) {x : String} :
    x ∈ reachable pool next roots ↔ Linked next roots x := by
  have hnew : ∀ y, y ∈ newNames pool [] roots ↔ y ∈ roots := by
    intro y
    rw [mem_newNames_iff]
    exact ⟨fun h => h.2.2, fun h => ⟨hroots y h, List.not_mem_nil, h⟩⟩
  unfold reachable
  rw [mem_explore_iff hpool ?_ ?_]
  · exact ⟨.mono fun y hy => (hnew y).1 hy, .mono fun y hy => (hnew y).2 hy⟩
  · exact fun y hy => List.mem_reverse.1 hy
  · exact fun y hy hout => absurd (List.mem_reverse.2 hy) hout

/-- Without links only the roots are found. -/
theorem reachable_of_unlinked (h : ∀ x, next x = []) :
    reachable pool next roots = newNames pool [] roots := by
  have hexplore : ∀ stack seen, explore pool next stack seen = seen := by
    intro stack
    induction stack with
    | nil =>
        intro seen
        rw [explore]
    | cons current stack ih =>
        intro seen
        rw [explore, h current]
        simpa only [newNames, List.reverse_nil, List.nil_append, List.append_nil] using ih seen
  exact hexplore _ _

end TransferRules.Ordered

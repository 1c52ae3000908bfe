import Mathlib.Tactic.Tauto
import TransferRules.Transfer.Names

/-!
# Free names

A name that is allocated is not in use, and it is the first such name among the base and its
numbered forms.  So the search depends on the names in use only as a set.

## Main Statements

* `firstFree_spec` — the search ends at the first candidate that is not in use
* `freeName_notMem`, `freeName_congr` — a free name is free, and determined by the set of used names
* `NameTable.mem_used_reserve`, `NameTable.mem_used_release` — what is in use after a step
-/

namespace TransferRules.Transfer

open TransferRules.Text

/-- **The search is exact.**  It ends at a candidate that is not in use, and every candidate
before that one is in use.  Distinct candidates are needed: dropping the candidate that was met
must not free a later one. -/
theorem firstFree_spec {candidate : Nat → String}
    (hinj : ∀ m n, candidate m = candidate n → m = n) (n : Nat) (used : List String) :
    ∃ m, n ≤ m ∧ firstFree candidate n used = candidate m ∧ candidate m ∉ used ∧
      ∀ k, n ≤ k → k < m → candidate k ∈ used := by
  fun_induction firstFree candidate n used with
  | case1 n used hmem ih =>
      obtain ⟨m, hle, heq, hfree, hbefore⟩ := ih
      have hne : candidate m ≠ candidate n := fun h => by
        have := hinj m n h
        omega
      -- Only candidate `n` was dropped from the used names, and the search never returns to it.
      refine ⟨m, by omega, heq, ?_, ?_⟩
      · exact fun h => hfree ((List.mem_erase_of_ne hne).2 h)
      · intro k hk hkm
        by_cases hkn : k = n
        · exact hkn ▸ hmem
        · exact List.mem_of_mem_erase (hbefore k (by omega) hkm)
  | case2 n used hmem =>
      exact ⟨n, Nat.le_refl n, rfl, hmem, fun k hk hkn => by omega⟩

theorem numbered_injective (base : String) (m n : Nat)
    (h : numbered base m = numbered base n) : m = n := by
  have hlists := congrArg String.toList h
  simp only [numbered, String.toList_append, List.append_cancel_left_eq, Nat.toString_eq_repr,
    Nat.toList_repr] at hlists
  simpa using congrArg (fun digits => Nat.ofDigitChars 10 digits 0) hlists

/-- A free name is the base, or else the base with the least positive number that makes it
free. -/
theorem freeName_spec (base : String) (used : List String) :
    (base ∉ used ∧ freeName base used = base) ∨
      base ∈ used ∧ ∃ m, 1 ≤ m ∧ freeName base used = numbered base m ∧
        numbered base m ∉ used ∧ ∀ k, 1 ≤ k → k < m → numbered base k ∈ used := by
  rw [freeName_eq]
  by_cases h : base ∈ used
  · rw [if_pos h]
    exact .inr ⟨h, firstFree_spec (numbered_injective base) 1 used⟩
  · rw [if_neg h]
    exact .inl ⟨h, rfl⟩

theorem freeName_notMem (base : String) (used : List String) : freeName base used ∉ used := by
  rcases freeName_spec base used with ⟨hfree, heq⟩ | ⟨-, m, -, heq, hfree, -⟩
  · rwa [heq]
  · rwa [heq]

theorem freeName_of_notMem {base : String} {used : List String} (h : base ∉ used) :
    freeName base used = base := by
  rw [freeName_eq, if_neg h]

/-- The free name depends on the names in use only as a set. -/
theorem freeName_congr (base : String) {used other : List String}
    (h : ∀ n, n ∈ used ↔ n ∈ other) : freeName base used = freeName base other := by
  rcases freeName_spec base used with ⟨hu, hused⟩ | ⟨hu, m, hm, hused, hfree, hbefore⟩
  · rw [hused, freeName_of_notMem fun ho => hu ((h _).2 ho)]
  · rcases freeName_spec base other with ⟨ho, -⟩ | ⟨-, k, hk, hother, hfree', hbefore'⟩
    · exact absurd ((h _).1 hu) ho
    · -- Both searches stop at the least number that makes the name free, so at the same one.
      have hmk : m = k := by
        rcases Nat.lt_trichotomy m k with hlt | heq | hgt
        · exact absurd ((h _).2 (hbefore' m hm hlt)) hfree
        · exact heq
        · exact absurd ((h _).1 (hbefore k hk hgt)) hfree'
      rw [hused, hother, hmk]

namespace NameTable

variable {t : NameTable} {kind other : SectionKind} {name n : String}

theorem isUsed_iff : t.isUsed kind name = true ↔ name ∈ t.used.get kind := by
  simp [isUsed]

theorem mem_used_reserve : n ∈ (t.reserve kind name).used.get other ↔
    n ∈ t.used.get other ∨ other = kind ∧ n = name := by
  unfold reserve
  split
  · next hused =>
    refine ⟨.inl, ?_⟩
    rintro (h | ⟨rfl, rfl⟩)
    · exact h
    · exact isUsed_iff.1 hused
  · by_cases h : other = kind
    · subst h
      rw [PerSection.get_set_self]
      simp
    · rw [PerSection.get_set_of_ne _ _ h]
      simp [h]

/-- Taking a name does not affect other sections. -/
theorem used_reserve_of_ne (name : String) (h : other ≠ kind) :
    (t.reserve kind name).used.get other = t.used.get other := by
  unfold reserve
  split
  · rfl
  · exact PerSection.get_set_of_ne _ _ h

theorem mem_used_release : n ∈ (t.release kind name).used.get other ↔
    n ∈ t.used.get other ∧ ¬ (other = kind ∧ n = name) := by
  unfold release
  by_cases h : other = kind
  · subst h
    rw [PerSection.get_set_self]
    simp
  · rw [PerSection.get_set_of_ne _ _ h]
    simp [h]

theorem mem_used_releaseAll {names : List String} :
    n ∈ (t.releaseAll kind names).used.get other ↔
      n ∈ t.used.get other ∧ ¬ (other = kind ∧ n ∈ names) := by
  unfold releaseAll
  induction names generalizing t with
  | nil => simp
  | cons name names ih =>
      rw [List.foldl_cons, ih, mem_used_release]
      simp only [List.mem_cons]
      tauto

/-- The name that is allocated was free. -/
theorem allocate_fst_notMem (base : String) : (t.allocate kind base).1 ∉ t.used.get kind :=
  freeName_notMem _ _

theorem mem_used_foldl_reserve {names : List String} :
    n ∈ (names.foldl (fun t name => t.reserve kind name) t).used.get other ↔
      n ∈ t.used.get other ∨ other = kind ∧ n ∈ names := by
  induction names generalizing t with
  | nil => simp
  | cons name names ih =>
      rw [List.foldl_cons, ih, mem_used_reserve]
      simp only [List.mem_cons]
      tauto

/-- Exactly the names of its definitions are in use for a document that was loaded. -/
theorem mem_used_ofDocument (d : TransferDocument) :
    n ∈ (ofDocument d).used.get kind ↔ n ∈ d.definitionNames kind := by
  have hkinds : ∀ (kinds : List SectionKind) (t : NameTable),
      n ∈ (kinds.foldl (fun t k =>
          (d.definitionNames k).foldl (fun t name => t.reserve k name) t) t).used.get kind ↔
        n ∈ t.used.get kind ∨ kind ∈ kinds ∧ n ∈ d.definitionNames kind := by
    intro kinds
    induction kinds with
    | nil => intro t; simp
    | cons k kinds ih =>
        intro t
        rw [List.foldl_cons, ih, mem_used_foldl_reserve]
        by_cases h : kind = k
        · subst h
          simp only [List.mem_cons]
          tauto
        · simp [h]
  unfold ofDocument
  rw [hkinds]
  simp [SectionKind.mem_all]

end NameTable

end TransferRules.Transfer

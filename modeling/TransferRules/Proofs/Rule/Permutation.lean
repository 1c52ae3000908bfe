import Mathlib.Algebra.Group.Nat.Defs
import Mathlib.Data.List.Dedup
import Mathlib.Data.List.Perm.Subperm
import TransferRules.Rule.Permutation

/-!
# The choices of a permutation

A permutation of a rule is given by a number, whose bits say which of the optional words are kept.
The numbers below `2 ^ k` and the selections from `k` words are the same thing: every number keeps
a sublist of the words, and every sublist is kept by some number.  So whoever wants a permutation
that keeps certain words can have it.

## Main Definitions

* `Rule.fullPhrase` — the permutation that keeps every word

## Main Statements

* `exists_choice` — every sublist is kept by some choice
* `Rule.length_permutations`, `Rule.mem_permutations` — one permutation for each choice
* `Rule.exists_choice_keeping` — the choice that keeps some words and no other optional ones
* `Rule.fullPhrase_eq` — in a rule without stray target words nothing is left out
-/

namespace TransferRules

section Choices

variable {choice : Nat} {id : String} {ids kept : List String}

/-- The lowest bit decides about the first word, and the others about the rest. -/
theorem keptIds_cons (choice : Nat) (id : String) (ids : List String) :
    keptIds choice (id :: ids) =
      if choice.testBit 0 then id :: keptIds (choice / 2) ids else keptIds (choice / 2) ids := by
  have hrest : ((ids.zipIdx 1).filter fun entry => choice.testBit entry.2).map Prod.fst =
      keptIds (choice / 2) ids := by
    rw [List.zipIdx_succ, List.filter_map, List.map_map]
    simp only [keptIds, Function.comp_def, Nat.testBit_add_one]
  unfold keptIds at hrest ⊢
  rw [List.zipIdx_cons, List.filter_cons, ← hrest]
  split
  · rfl
  · rfl

/-- A choice keeps a sublist. -/
theorem sublist_keptIds (choice : Nat) (ids : List String) : (keptIds choice ids).Sublist ids := by
  induction ids generalizing choice with
  | nil => exact .slnil
  | cons id ids ih =>
      rw [keptIds_cons]
      split
      · exact (ih _).cons_cons id
      · exact (ih _).cons id

/-- **Every sublist is kept** by some choice. -/
theorem exists_choice (h : kept.Sublist ids) :
    ∃ choice < 2 ^ ids.length, keptIds choice ids = kept := by
  induction h with
  | slnil => exact ⟨0, Nat.one_pos, rfl⟩
  | cons id _ ih =>
      obtain ⟨choice, hlt, hkept⟩ := ih
      refine ⟨2 * choice, ?_, ?_⟩
      · rw [List.length_cons, Nat.pow_succ]
        omega
      · rw [keptIds_cons, if_neg (by simp), Nat.mul_div_cancel_left _ Nat.two_pos, hkept]
  | cons_cons id _ ih =>
      obtain ⟨choice, hlt, hkept⟩ := ih
      refine ⟨2 * choice + 1, ?_, ?_⟩
      · rw [List.length_cons, Nat.pow_succ]
        omega
      · rw [keptIds_cons, if_pos (by simp), show (2 * choice + 1) / 2 = choice by omega, hkept]

/-- The highest choice keeps everything. -/
theorem keptIds_full (ids : List String) : keptIds (2 ^ ids.length - 1) ids = ids := by
  induction ids with
  | nil => rfl
  | cons id ids ih =>
      have hpos : 0 < 2 ^ ids.length := Nat.two_pow_pos _
      have hhalf : (2 ^ (id :: ids).length - 1) / 2 = 2 ^ ids.length - 1 := by
        rw [List.length_cons, Nat.pow_succ]
        omega
      have hlow : (2 ^ (id :: ids).length - 1).testBit 0 = true := by
        rw [Nat.testBit_two_pow_sub_one]
        simp
      rw [keptIds_cons, if_pos hlow, hhalf, ih]

/-- Some words, listed in any order and perhaps more than once, are kept by a choice that keeps
nothing else. -/
theorem exists_choice_of_subset {words : List String} (h : words ⊆ ids) :
    ∃ choice < 2 ^ ids.length, (keptIds choice ids).length ≤ words.length ∧
      ∀ id, id ∈ keptIds choice ids ↔ id ∈ words := by
  have hsubset : words.dedup ⊆ ids := fun id hid => h (List.mem_dedup.1 hid)
  obtain ⟨sublist, hperm, hsublist⟩ := (List.nodup_dedup words).subperm hsubset
  obtain ⟨choice, hlt, hkept⟩ := exists_choice hsublist
  refine ⟨choice, hlt, ?_, fun id => ?_⟩
  · rw [hkept, hperm.length_eq]
    exact (List.dedup_sublist words).length_le
  · rw [hkept, hperm.mem_iff, List.mem_dedup]

end Choices

/-- What is found in a list is still found if only other entries are left out. -/
theorem find?_filter_of_find? {α : Type} {p q : α → Bool} {l : List α}
    (h : ∀ a, l.find? q = some a → p a = true) : (l.filter p).find? q = l.find? q := by
  induction l with
  | nil => rfl
  | cons a l ih =>
      by_cases hq : q a = true
      · have hp : p a = true := h a (List.find?_cons_of_pos hq)
        rw [List.filter_cons_of_pos hp, List.find?_cons_of_pos hq, List.find?_cons_of_pos hq]
      · rw [List.find?_cons_of_neg hq] at h ⊢
        rw [List.filter_cons]
        split
        · rw [List.find?_cons_of_neg hq, ih h]
        · exact ih h

namespace Rule

variable {r : Rule} {choice : Nat} {name id : String} {keep : String → Bool}

/-- If the head is kept, it is still the head. -/
theorem head?_retain (hhead : ∀ w, r.head? = some w → keep w.id = true) :
    (r.retain name keep).head? = r.head? :=
  find?_filter_of_find? hhead

/-- The permutation that keeps every word. -/
def fullPhrase (r : Rule) : Rule :=
  r.permutation (choiceCount r.optionalIds.length - 1) (choiceCount r.optionalIds.length - 1)

theorem length_permutations (r : Rule) : r.permutations.length = 2 ^ r.optionalIds.length := by
  have hpos : 0 < 2 ^ r.optionalIds.length := Nat.two_pow_pos _
  rw [permutations, List.length_map, List.length_range]
  exact Nat.sub_add_cancel hpos

/-- There is one permutation for each choice. -/
theorem mem_permutations {subset : Rule} : subset ∈ r.permutations ↔
    ∃ choice < 2 ^ r.optionalIds.length,
      r.permutation (choiceCount r.optionalIds.length - 1) choice = subset := by
  have hcount : choiceCount r.optionalIds.length = 2 ^ r.optionalIds.length := rfl
  have hpos : 0 < 2 ^ r.optionalIds.length := Nat.two_pow_pos _
  simp only [permutations, List.mem_map, List.mem_range, hcount]
  constructor
  · rintro ⟨i, hi, rfl⟩
    exact ⟨2 ^ r.optionalIds.length - 1 - i, by omega, rfl⟩
  · rintro ⟨choice, hlt, rfl⟩
    refine ⟨2 ^ r.optionalIds.length - 1 - choice, by omega, ?_⟩
    rw [Nat.sub_sub_self (by omega)]

theorem keeps_iff : r.keeps choice id = true ↔
    r.head?.map TargetWord.id = some id ∨ id ∈ keptIds choice r.optionalIds := by
  rw [keeps, Bool.or_eq_true, beq_iff_eq, List.contains_iff_mem]

/-- The head stays. -/
theorem keeps_head {w : TargetWord} (h : r.head? = some w) : r.keeps choice w.id = true := by
  rw [keeps_iff, h]
  exact .inl rfl

theorem keeps_full : r.keeps (choiceCount r.optionalIds.length - 1) id = true ↔
    r.head?.map TargetWord.id = some id ∨ id ∈ r.optionalIds := by
  rw [keeps_iff, show choiceCount r.optionalIds.length = 2 ^ r.optionalIds.length from rfl,
    keptIds_full]

/-- What any choice keeps stands in the full phrase. -/
theorem keeps_full_of_keeps (h : r.keeps choice id = true) :
    r.keeps (choiceCount r.optionalIds.length - 1) id = true :=
  keeps_full.2 ((keeps_iff.1 h).imp_right ((sublist_keptIds choice _).subset ·))

/-- A word of the source is the head's or an optional one. -/
theorem keeps_full_of_mem {w : SourceWord} (h : w ∈ r.source) :
    r.keeps (choiceCount r.optionalIds.length - 1) w.id = true := by
  rw [keeps_full, or_iff_not_imp_left]
  intro hhead
  exact List.mem_filter.2 ⟨List.mem_map_of_mem h, by simpa using hhead⟩

/-- Of all that a choice keeps, another one keeps some words and no other optional ones. -/
theorem exists_choice_keeping (r : Rule) (choice : Nat) (words : List String) :
    ∃ small < 2 ^ r.optionalIds.length,
      (keptIds small r.optionalIds).length ≤ words.length ∧
      (∀ id, r.keeps small id = true → r.keeps choice id = true) ∧
      ∀ id ∈ words, r.keeps choice id = true → r.keeps small id = true := by
  -- The head is kept anyway, so it is enough to choose among those of the words that are optional.
  let optional := words.filter (keptIds choice r.optionalIds).contains
  have hoptional : ∀ id, id ∈ optional ↔ id ∈ words ∧ id ∈ keptIds choice r.optionalIds := by
    intro id
    rw [List.mem_filter, List.contains_iff_mem]
  obtain ⟨small, hlt, hlength, hsmall⟩ := exists_choice_of_subset fun id hid =>
    (sublist_keptIds choice r.optionalIds).subset ((hoptional id).1 hid).2
  refine ⟨small, hlt, Nat.le_trans hlength (List.length_filter_le _ _), fun id hid => ?_,
    fun id hid hkeep => ?_⟩
  · refine keeps_iff.2 ((keeps_iff.1 hid).imp_right fun hmem => ?_)
    exact ((hoptional id).1 ((hsmall id).1 hmem)).2
  · refine keeps_iff.2 ((keeps_iff.1 hkeep).imp_right fun hmem => ?_)
    exact (hsmall id).2 ((hoptional id).2 ⟨hid, hmem⟩)

/-- **A rule whose target words all translate source words** is its own full phrase. -/
theorem fullPhrase_eq (h : ∀ w ∈ r.target, ∃ v ∈ r.source, v.id = w.id) :
    r.fullPhrase = { r with permuted := false } := by
  have hsource : r.source.filter
      (fun w => r.keeps (choiceCount r.optionalIds.length - 1) w.id) = r.source :=
    List.filter_eq_self.2 fun w hw => keeps_full_of_mem hw
  have htarget : r.target.filter
      (fun w => r.keeps (choiceCount r.optionalIds.length - 1) w.id) = r.target := by
    refine List.filter_eq_self.2 fun w hw => ?_
    obtain ⟨v, hv, hid⟩ := h w hw
    rw [← hid]
    exact keeps_full_of_mem hv
  rw [fullPhrase, permutation, if_pos rfl, retain, hsource, htarget]

end Rule

end TransferRules

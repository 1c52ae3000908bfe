import Mathlib.Data.Nat.Bitwise
import TransferRules.Proofs.Rule.WellFormed

/-!
# The power set of a phrase

The permutations of a well-formed rule are the subsets of its optional words, each of them once.
The choices run through the numbers below `2 ^ k`, so it is enough to know two things: a choice is
determined by the words that it keeps, since these have ids of their own, and the optional words of
a permutation are the words that its choice keeps.

## Main Definitions

* `Rule.Retains` — a choice retains a word: it is the head, or the bit of the word is set
* `Rule.IsSubsetFor` — the words of a rule that a choice retains, in their order

## Main Statements

* `mem_keptIds_iff` — a choice keeps the words whose bits are set
* `keptIds_injective` — different choices keep different words
* `Rule.WellFormed.isSubsetFor_permutation`, `Rule.WellFormed.permutation` — what the rule of a
  choice is, and that it is well formed
* `Rule.expand_powerSet` — the permutations of a rule, in their order
-/

namespace TransferRules

open TransferRules.Ordered

section Choices

variable {choice choice' : Nat} {id : String} {ids : List String}

/-- **A choice keeps the words whose bits are set.** -/
theorem mem_keptIds_iff :
    id ∈ keptIds choice ids ↔ ∃ j, ids[j]? = some id ∧ choice.testBit j = true := by
  simp only [keptIds, List.mem_map, List.mem_filter, Prod.exists, List.mem_zipIdx_iff_getElem?,
    exists_and_right, exists_eq_right]

/-- Among words that do not repeat, a word that is kept has its own bit set. -/
theorem getElem_mem_keptIds_iff (hnodup : ids.Nodup) {j : Nat} (hj : j < ids.length) :
    ids[j] ∈ keptIds choice ids ↔ choice.testBit j = true := by
  rw [mem_keptIds_iff]
  constructor
  · rintro ⟨i, hi, hbit⟩
    obtain ⟨hlt, heq⟩ := List.getElem?_eq_some_iff.1 hi
    rwa [← (hnodup.getElem_inj_iff).1 heq]
  · intro hbit
    exact ⟨j, List.getElem?_eq_getElem hj, hbit⟩

/-- **Different choices keep different words**, if no word is repeated. -/
theorem keptIds_injective (hnodup : ids.Nodup) (hlt : choice < 2 ^ ids.length)
    (hlt' : choice' < 2 ^ ids.length) (h : keptIds choice ids = keptIds choice' ids) :
    choice = choice' := by
  apply Nat.eq_of_testBit_eq
  intro j
  by_cases hj : j < ids.length
  · rw [Bool.eq_iff_iff, ← getElem_mem_keptIds_iff hnodup hj, h, getElem_mem_keptIds_iff hnodup hj]
  · have hle : 2 ^ ids.length ≤ 2 ^ j := Nat.pow_le_pow_right Nat.two_pos (Nat.le_of_not_lt hj)
    rw [Nat.testBit_lt_two_pow (Nat.lt_of_lt_of_le hlt hle),
      Nat.testBit_lt_two_pow (Nat.lt_of_lt_of_le hlt' hle)]

/-- In a list that does not repeat, the entries of a sublist make up the sublist. -/
theorem filter_contains_eq_of_sublist {kept : List String} (hnodup : ids.Nodup)
    (h : kept.Sublist ids) : ids.filter kept.contains = kept := by
  have hkept : kept.filter kept.contains = kept :=
    List.filter_eq_self.2 fun id hid => List.contains_iff_mem.2 hid
  have hsublist : kept.Sublist (ids.filter kept.contains) := by
    have hfilter := h.filter kept.contains
    rwa [hkept] at hfilter
  have hsubset : ids.filter kept.contains ⊆ kept := fun id hid =>
    List.contains_iff_mem.1 (List.mem_filter.1 hid).2
  exact (hsublist.eq_of_length_le ((hnodup.filter _).subperm hsubset).length_le).symm

end Choices

namespace Rule

variable {r : Rule} {i full choice : Nat} {id : String}

/-- The permutations run from the highest choice down. -/
theorem getElem?_permutations (hi : i < 2 ^ r.optionalIds.length) :
    r.permutations[i]? = some (r.permutation (2 ^ r.optionalIds.length - 1)
      (2 ^ r.optionalIds.length - 1 - i)) := by
  have hlt : i < 2 ^ r.optionalIds.length - 1 + 1 := by omega
  have hcount : choiceCount r.optionalIds.length = 2 ^ r.optionalIds.length := rfl
  rw [permutations, hcount, List.getElem?_map, List.getElem?_range hlt, Option.map_some]

/-- A choice retains the head, and the optional words whose bits are set. -/
def Retains (r : Rule) (choice : Nat) (id : String) : Prop :=
  (∃ w, r.head? = some w ∧ w.id = id) ∨
    ∃ j, r.optionalIds[j]? = some id ∧ choice.testBit j = true

theorem keeps_iff_retains : r.keeps choice id = true ↔ r.Retains choice id := by
  rw [keeps_iff, mem_keptIds_iff, Retains, Option.map_eq_some_iff]

/-- A rule whose words are those that a choice retains, in their order: a word of the source phrase
is left out if the choice does not retain it, and a word of the target phrase with the word that it
translates. -/
structure IsSubsetFor (r : Rule) (choice : Nat) (subset : Rule) : Prop where
  source : subset.source.Sublist r.source
  mem_source : ∀ w ∈ r.source, w ∈ subset.source ↔ r.Retains choice w.id
  target : subset.target.Sublist r.target
  mem_target : ∀ w ∈ r.target, w ∈ subset.target ↔ ∃ v ∈ subset.source, v.id = w.id
  permuted : subset.permuted = false

namespace WellFormed

/-- Optional words have ids of their own. -/
theorem nodup_optionalIds (h : r.WellFormed) : r.optionalIds.Nodup := h.sourceIds.filter _

/-- **The rule of a choice** has the words that the choice retains. -/
theorem isSubsetFor_permutation (h : r.WellFormed) (full choice : Nat) :
    r.IsSubsetFor choice (r.permutation full choice) where
  source := List.filter_sublist
  mem_source := by
    intro w hw
    rw [permutation, Rule.retain, List.mem_filter, keeps_iff_retains]
    exact and_iff_right hw
  target := List.filter_sublist
  mem_target := by
    intro w hw
    simp only [permutation, Rule.retain, List.mem_filter]
    constructor
    · rintro ⟨-, hkeep⟩
      obtain ⟨v, hv, hid⟩ := h.translated w hw
      exact ⟨v, ⟨hv, hid ▸ hkeep⟩, hid⟩
    · rintro ⟨v, ⟨-, hkeep⟩, hid⟩
      exact ⟨hw, hid ▸ hkeep⟩
  permuted := rfl

/-- The rule of a choice is well formed. -/
theorem permutation (h : r.WellFormed) (full choice : Nat) :
    (r.permutation full choice).WellFormed :=
  h.retain fun _ hw => keeps_head hw

/-- **The optional words of a permutation** are those that its choice keeps. -/
theorem optionalIds_permutation (h : r.WellFormed) (full choice : Nat) :
    (r.permutation full choice).optionalIds = keptIds choice r.optionalIds := by
  have hhead : (r.permutation full choice).head? = r.head? := head?_retain fun _ hw => keeps_head hw
  have hids : (r.permutation full choice).source.map SourceWord.id =
      (r.source.map SourceWord.id).filter (r.keeps choice) := by
    rw [List.filter_map]
    rfl
  rw [Rule.optionalIds, hhead, hids, List.filter_comm]
  conv_rhs => rw [← filter_contains_eq_of_sublist h.nodup_optionalIds (sublist_keptIds choice _)]
  refine List.filter_congr fun id hid => ?_
  -- An optional word is not the head, so it is kept for its bit.
  have hne : (r.head?.map TargetWord.id == some id) = false :=
    beq_eq_false_iff_ne.2 (bne_iff_ne.1 (List.mem_filter.1 hid).2)
  rw [keeps, hne, Bool.false_or]

/-- The permutations have different optional words. -/
theorem nodup_optionalIds_permutations (h : r.WellFormed) :
    (r.permutations.map optionalIds).Nodup := by
  rw [List.nodup_iff_getElem?_ne_getElem?]
  intro i j hij hj heq
  rw [List.length_map, length_permutations] at hj
  have hi : i < 2 ^ r.optionalIds.length := Nat.lt_trans hij hj
  rw [List.getElem?_map, List.getElem?_map, getElem?_permutations hi, getElem?_permutations hj,
    Option.map_some, Option.map_some, h.optionalIds_permutation, h.optionalIds_permutation] at heq
  have hchoice := keptIds_injective h.nodup_optionalIds (by omega) (by omega) (Option.some.inj heq)
  omega

/-- Every choice among the optional words is made. -/
theorem mem_optionalIds_permutations (h : r.WellFormed) {ids : List String} :
    ids ∈ r.permutations.map optionalIds ↔ ids.Sublist r.optionalIds := by
  simp only [List.mem_map, mem_permutations]
  constructor
  · rintro ⟨_, ⟨choice, -, rfl⟩, rfl⟩
    rw [h.optionalIds_permutation]
    exact sublist_keptIds choice _
  · intro hsublist
    obtain ⟨choice, hlt, hkept⟩ := exists_choice hsublist
    exact ⟨_, ⟨choice, hlt, rfl⟩, (h.optionalIds_permutation _ choice).trans hkept⟩

/-- The lowest choice retains the head alone. -/
theorem permutation_zero (h : r.WellFormed) (full : Nat) :
    ∃ head v, r.head? = some head ∧ v ∈ r.source ∧ v.id = head.id ∧
      (r.permutation full 0).source = [v] ∧ (r.permutation full 0).target = [head] := by
  obtain ⟨head, hhead, hsome, -⟩ := h.exists_head
  obtain ⟨v, hv, hid⟩ := h.translated head hhead
  have hretains : ∀ id, r.keeps 0 id = true ↔ id = head.id := by
    intro id
    rw [keeps_iff_retains, Retains, hsome]
    simp [eq_comm]
  refine ⟨head, v, hsome, hv, hid, ?_, ?_⟩
  · have hnodup : (r.permutation full 0).source.Nodup := h.sourceIds.of_map.filter _
    refine (eq_singleton_iff hnodup).2 ⟨List.mem_filter.2 ⟨hv, (hretains _).2 hid⟩, fun w hw => ?_⟩
    obtain ⟨hw, hkeep⟩ := List.mem_filter.1 hw
    exact h.sourceWord_unique hw hv (((hretains _).1 hkeep).trans hid.symm)
  · have hnodup : (r.permutation full 0).target.Nodup := h.targetIds.of_map.filter _
    refine (eq_singleton_iff hnodup).2
      ⟨List.mem_filter.2 ⟨hhead, (hretains _).2 rfl⟩, fun w hw => ?_⟩
    obtain ⟨hw, hkeep⟩ := List.mem_filter.1 hw
    exact h.targetWord_unique hw hhead ((hretains _).1 hkeep)

end WellFormed

/-- A rule with permutations and too many optional words is not expanded. -/
theorem expand_eq_error (hpermuted : r.permuted = true) {limit : Nat}
    (hlimit : min limit permutationBound < r.optionalIds.length) :
    r.expand limit = .error (.tooManyPermutationWords r.name r.optionalIds.length
      (min limit permutationBound)) := by
  rw [expand, hpermuted]
  exact if_pos hlimit

/-- A rule with permutations and few enough optional words stands for its permutations. -/
theorem expand_eq_ok (hpermuted : r.permuted = true) {limit : Nat}
    (hlimit : r.optionalIds.length ≤ min limit permutationBound) :
    r.expand limit = .ok r.permutations := by
  rw [expand, hpermuted]
  exact if_neg (Nat.not_lt.2 hlimit)

/-- **The permutations of a well-formed rule** are the subsets of its optional words: the `i`-th one
retains what the bits of `2 ^ k - 1 - i` say, each choice among the optional words is made once, the
whole rule comes first and its head alone last.  Beyond the limit there are none. -/
theorem expand_powerSet (h : r.WellFormed) (hpermuted : r.permuted = true) (limit : Nat) :
    (r.optionalIds.length ≤ min limit permutationBound → ∃ rules, r.expand limit = .ok rules ∧
      rules.length = 2 ^ r.optionalIds.length ∧
      (∀ (i : Nat) (subset : Rule), rules[i]? = some subset →
        r.IsSubsetFor (2 ^ r.optionalIds.length - 1 - i) subset ∧ subset.WellFormed) ∧
      (rules.map optionalIds).Nodup ∧
      (∀ ids, ids ∈ rules.map optionalIds ↔ ids.Sublist r.optionalIds) ∧
      rules[0]? = some { r with permuted := false } ∧
      ∃ last head v, rules[2 ^ r.optionalIds.length - 1]? = some last ∧ r.head? = some head ∧
        v ∈ r.source ∧ v.id = head.id ∧ last.source = [v] ∧ last.target = [head]) ∧
    (min limit permutationBound < r.optionalIds.length →
      r.expand limit = .error (.tooManyPermutationWords r.name r.optionalIds.length
        (min limit permutationBound))) ∧
    ∀ rules, r.expand limit = .ok rules → r.optionalIds.length ≤ 16 := by
  have hpos : 0 < 2 ^ r.optionalIds.length := Nat.two_pow_pos _
  refine ⟨fun hlimit => ⟨r.permutations, expand_eq_ok hpermuted hlimit, length_permutations r, ?_,
    h.nodup_optionalIds_permutations, fun _ => h.mem_optionalIds_permutations, ?_, ?_⟩,
    expand_eq_error hpermuted, fun rules hrules => ?_⟩
  · intro i subset hsubset
    have hi : i < 2 ^ r.optionalIds.length := by
      rw [← length_permutations]
      exact (List.getElem?_eq_some_iff.1 hsubset).choose
    rw [getElem?_permutations hi] at hsubset
    cases hsubset
    exact ⟨h.isSubsetFor_permutation _ _, h.permutation _ _⟩
  · rw [getElem?_permutations hpos, Nat.sub_zero]
    exact congrArg some (fullPhrase_eq h.translated)
  · obtain ⟨head, v, hhead, hv, hid, hsource, htarget⟩ :=
      h.permutation_zero (2 ^ r.optionalIds.length - 1)
    refine ⟨_, head, v, getElem?_permutations (Nat.sub_lt hpos Nat.one_pos), hhead, hv, hid, ?_⟩
    rw [Nat.sub_self]
    exact ⟨hsource, htarget⟩
  · by_contra hmany
    have hlimit : min limit permutationBound < r.optionalIds.length :=
      Nat.lt_of_le_of_lt (Nat.min_le_right _ _) (Nat.lt_of_not_le hmany)
    rw [expand_eq_error hpermuted hlimit] at hrules
    cases hrules

/-- A noun with an article and an adjective, which change their order and may be left out. -/
def describedNoun : Rule where
  name := "described noun"
  source := [⟨"1", some "det", []⟩, ⟨"2", some "adj", []⟩, ⟨"3", some "n", []⟩]
  target := [{ id := "1" }, { id := "3", isHead := true }, { id := "2" }]
  permuted := true

/-- It stands for four rules, unless only one word may be left out. -/
theorem expand_powerSet_describedNoun :
    describedNoun.WellFormed ∧ describedNoun.permuted = true ∧
      (∃ rules, describedNoun.expand 16 = .ok rules ∧ rules.length = 4 ∧
        (∀ ids, ids ∈ rules.map optionalIds ↔ ids.Sublist ["1", "2"]) ∧
        rules[0]? = some { describedNoun with permuted := false }) ∧
      describedNoun.expand 1 = .error (.tooManyPermutationWords "described noun" 2 1) := by
  have hwell : describedNoun.WellFormed := by decide
  obtain ⟨rules, hrules, hlength, -, -, hmem, hfirst, -⟩ :=
    (expand_powerSet hwell rfl 16).1 (by decide)
  exact ⟨hwell, rfl, ⟨rules, hrules, hlength, hmem, hfirst⟩,
    (expand_powerSet hwell rfl 1).2.1 (by decide)⟩

end Rule

end TransferRules

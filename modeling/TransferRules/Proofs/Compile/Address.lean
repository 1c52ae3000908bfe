import Mathlib.Data.List.Perm.Basic
import TransferRules.Proofs.Compile.Permutation
import TransferRules.Proofs.Rule.WellFormed

/-!
# Addresses of features

The place of an occurrence in the list of occurrences changes with the order of the words.  What
does not change is its address: the word, the part of the word, and the place of the feature there.
The features of a rule are listed here with their addresses, in the order of the occurrences, but
without anything that is said by the position of a word.  So words in another order give the same
list in another order, and what matters about an occurrence can be read off its entry.

Features of one word keep their order whatever happens to the words.  This is said by the order of
their addresses, so that of two features of one word it is known which comes first.

## Main Definitions

* `Address`, `Address.Before` — addresses, and which of two on one word comes first
* `Rule.addressed` — the features of a rule with their addresses
* `Rule.addressAt?`, `Rule.featureAt?` — the address of an occurrence, and the feature at an address

## Main Statements

* `Rule.standing_eq` — the entry of an occurrence says what matters about it
* `Rule.pairwise_before_addressed` — features of one word stand in the order of their addresses
* `Rule.featureAt?_of_mem_addressed` — an address leads to the feature
-/

namespace TransferRules

open TransferRules.Compile
open TransferRules.Ordered

namespace Compile

/-- Where a feature stands: on which word, on which part of it, and as which feature there. -/
structure Address where
  wordId : String
  site : Site
  place : Nat
  deriving Repr, DecidableEq

/-- The order of the parts of a word. -/
def Site.order : Site → Nat
  | .source => 0
  | .word => 1
  | .affix index => index + 2

/-- On one word the features of the source phrase come first, then those of the target word itself,
then those of its affixes. -/
def Address.Before (a b : Address) : Prop :=
  a.site.order < b.site.order ∨ a.site = b.site ∧ a.place < b.place

theorem Address.Before.irrefl (a : Address) : ¬ a.Before a := by
  rintro (h | ⟨-, h⟩)
  · exact Nat.lt_irrefl _ h
  · exact Nat.lt_irrefl _ h

theorem Address.Before.asymm {a b : Address} (h : a.Before b) : ¬ b.Before a := by
  rintro (h' | ⟨hsite', h'⟩)
  · rcases h with h | ⟨hsite, h⟩
    · exact Nat.lt_asymm h h'
    · rw [hsite] at h'
      exact Nat.lt_irrefl _ h'
  · rcases h with h | ⟨-, h⟩
    · rw [hsite'] at h
      exact Nat.lt_irrefl _ h
    · exact Nat.lt_asymm h h'

end Compile

/-- The features of a source word that agree with others, with their addresses. -/
def SourceWord.addressed (w : SourceWord) : List (Address × Feature) :=
  (w.features.zipIdx.filter fun (f, _) => f.binding.label?.isSome).map fun (f, place) =>
    (⟨w.id, .source, place⟩, f)

/-- The features on a part of a target word, with their addresses. -/
def TargetWord.addressedOn (w : TargetWord) (site : Site) (features : List Feature) :
    List (Address × Feature) :=
  features.zipIdx.map fun (f, place) => (⟨w.id, site, place⟩, f)

/-- The features of a target word and its affixes, with their addresses. -/
def TargetWord.addressed (w : TargetWord) : List (Address × Feature) :=
  w.addressedOn .word w.features ++
    w.affixes.zipIdx.flatMap fun (affix, index) => w.addressedOn (.affix index) affix.features

/-- The features of a target word at a part of it. -/
def TargetWord.featuresOn (w : TargetWord) : Site → List Feature
  | .source => []
  | .word => w.features
  | .affix index => ((w.affixes[index]?).map Affix.features).getD []

namespace Rule

/-- The features of a target word with their addresses, if it translates a source word. -/
def addressedOf (r : Rule) (w : TargetWord) : List (Address × Feature) :=
  if (r.position? w.id).isSome then w.addressed else []

/-- The features of a rule that occur, with their addresses. -/
def addressed (r : Rule) : List (Address × Feature) :=
  r.source.flatMap SourceWord.addressed ++ r.target.flatMap r.addressedOf

/-- The address of an occurrence, given its place among the occurrences. -/
def addressAt? (r : Rule) (index : Nat) : Option Address := (r.addressed[index]?).map Prod.fst

/-- The features of a rule on a part of a word. -/
def featuresOn (r : Rule) (id : String) (site : Site) : List Feature :=
  match site with
  | .source => ((r.sourceWord? id).map SourceWord.features).getD []
  | _ => ((r.target.find? fun w => w.id == id).map fun w => w.featuresOn site).getD []

/-- The feature at an address. -/
def featureAt? (r : Rule) (a : Address) : Option Feature := (r.featuresOn a.wordId a.site)[a.place]?

/-! ## Occurrences -/

variable {r : Rule}

/-- What matters about an occurrence, read off its address and feature. -/
def candidateAt (r : Rule) (entry : Address × Feature) : Candidate :=
  ⟨entry.1.wordId, entry.2.binding.label?, entry.1.site,
    r.head?.map TargetWord.id == some entry.1.wordId, entry.2.ranking.getD lastRank⟩

theorem map_candidateAt_source (w : SourceWord) (position : Nat) :
    (r.sourceOccurrences w position).map (fun o => (o.candidate, o.feature)) =
      w.addressed.map fun entry => (r.candidateAt entry, entry.2) := by
  have hfeatures : w.features.filter (fun f => f.binding.label?.isSome) =
      (w.features.zipIdx.filter fun entry => entry.1.binding.label?.isSome).map Prod.fst := by
    conv_lhs => rw [← List.zipIdx_map_fst 0 w.features, List.filter_map]
    rfl
  rw [sourceOccurrences, hfeatures, SourceWord.addressed, List.map_map, List.map_map, List.map_map]
  rfl

theorem map_targetFeatures {α : Type} (w : TargetWord) (g : Site × Feature → α) :
    (targetFeatures w).map g = w.addressed.map fun entry => g (entry.1.site, entry.2) := by
  have hon : ∀ site features, (w.addressedOn site features).map
      (fun entry => g (entry.1.site, entry.2)) = features.map fun f => g (site, f) := by
    intro site features
    conv_rhs => rw [← List.zipIdx_map_fst 0 features, List.map_map]
    rw [TargetWord.addressedOn, List.map_map]
    rfl
  rw [targetFeatures, TargetWord.addressed, List.map_append, List.map_append, List.map_map, hon,
    List.map_flatMap, List.map_flatMap]
  refine congrArg _ (List.flatMap_congr fun entry _ => ?_)
  rw [hon, List.map_map]
  rfl

theorem wordId_of_mem_addressed {w : TargetWord} {entry : Address × Feature}
    (h : entry ∈ w.addressed) : entry.1.wordId = w.id := by
  rcases List.mem_append.1 h with h | h
  · obtain ⟨f, -, rfl⟩ := List.mem_map.1 h
    rfl
  · obtain ⟨affix, -, h⟩ := List.mem_flatMap.1 h
    obtain ⟨f, -, rfl⟩ := List.mem_map.1 h
    rfl

theorem map_candidateAt_target (h : r.Identified) {w : TargetWord} (hw : w ∈ r.target)
    (index : Nat) :
    (r.targetOccurrences w index).map (fun o => (o.candidate, o.feature)) =
      (r.addressedOf w).map fun entry => (r.candidateAt entry, entry.2) := by
  unfold targetOccurrences addressedOf
  cases r.position? w.id with
  | none => rfl
  | some position =>
      rw [Option.isSome_some, if_pos rfl, List.map_map, map_targetFeatures]
      refine List.map_congr_left fun entry hentry => ?_
      rw [candidateAt, wordId_of_mem_addressed hentry, ← h.isHead_eq hw]
      rfl

/-- **The entry of an occurrence** says what matters about it. -/
theorem standing_eq (h : r.Identified) :
    r.occurrences.map (fun o => (o.candidate, o.feature)) =
      r.addressed.map fun entry => (r.candidateAt entry, entry.2) := by
  rw [occurrences, addressed, List.map_append, List.map_append]
  refine congrArg₂ (· ++ ·) ?_ ?_
  · refine Eq.trans ?_ List.map_flatMap.symm
    exact map_flatMap_zipIdx fun w _ i => map_candidateAt_source w (i + 1)
  · refine Eq.trans ?_ List.map_flatMap.symm
    exact map_flatMap_zipIdx fun w hw i => map_candidateAt_target h hw i

/-- An occurrence and the entry at its place say the same. -/
theorem exists_entry (h : r.Identified) {index : Nat} {o : Occurrence}
    (ho : r.occurrences[index]? = some o) :
    ∃ a, r.addressed[index]? = some (a, o.feature) ∧
      o.candidate = r.candidateAt (a, o.feature) := by
  have hstanding : (r.addressed[index]?).map (fun entry => (r.candidateAt entry, entry.2)) =
      some (o.candidate, o.feature) := by
    rw [← List.getElem?_map, ← standing_eq h, List.getElem?_map, ho, Option.map_some]
  obtain ⟨⟨a, f⟩, hentry, heq⟩ := Option.map_eq_some_iff.1 hstanding
  obtain ⟨hcandidate, rfl⟩ := Prod.mk.inj heq
  exact ⟨a, hentry, hcandidate.symm⟩

/-- Every entry is that of an occurrence. -/
theorem exists_occurrence (h : r.Identified) {index : Nat} {entry : Address × Feature}
    (hentry : r.addressed[index]? = some entry) :
    ∃ o, r.occurrences[index]? = some o ∧ o.feature = entry.2 ∧
      o.candidate = r.candidateAt entry := by
  have hstanding : (r.occurrences[index]?).map (fun o => (o.candidate, o.feature)) =
      some (r.candidateAt entry, entry.2) := by
    rw [← List.getElem?_map, standing_eq h, List.getElem?_map, hentry, Option.map_some]
  obtain ⟨o, ho, heq⟩ := Option.map_eq_some_iff.1 hstanding
  obtain ⟨hcandidate, hfeature⟩ := Prod.mk.inj heq
  exact ⟨o, ho, hfeature, hcandidate⟩

/-! ## The order of addresses -/

theorem pairwise_addressed_source (w : SourceWord) :
    w.addressed.Pairwise fun x y => x.1.Before y.1 := by
  refine List.pairwise_map.2 (((pairwise_zipIdx w.features).filter _).imp fun hlt => ?_)
  exact .inr ⟨rfl, hlt⟩

theorem pairwise_addressed_target (w : TargetWord) :
    w.addressed.Pairwise fun x y => x.1.Before y.1 := by
  have hon : ∀ site features,
      (w.addressedOn site features).Pairwise fun x y => x.1.Before y.1 := by
    intro site features
    exact List.pairwise_map.2 ((pairwise_zipIdx features).imp fun hlt => .inr ⟨rfl, hlt⟩)
  have hsite : ∀ {site features entry}, entry ∈ w.addressedOn site features →
      entry.1.site = site := by
    intro site features entry hentry
    obtain ⟨f, -, rfl⟩ := List.mem_map.1 hentry
    rfl
  refine List.pairwise_append.2 ⟨hon _ _, List.pairwise_flatMap.2 ⟨fun affix _ => hon _ _, ?_⟩, ?_⟩
  · refine (pairwise_zipIdx w.affixes).imp fun hlt x hx y hy => .inl ?_
    rw [hsite hx, hsite hy]
    exact Nat.add_lt_add_right hlt 2
  · intro x hx y hy
    obtain ⟨affix, -, hy⟩ := List.mem_flatMap.1 hy
    refine .inl ?_
    rw [hsite hx, hsite hy]
    exact Nat.one_lt_succ_succ _

theorem site_of_mem_addressed_source {w : SourceWord} {entry : Address × Feature}
    (h : entry ∈ w.addressed) : entry.1.wordId = w.id ∧ entry.1.site = .source := by
  obtain ⟨f, -, rfl⟩ := List.mem_map.1 h
  exact ⟨rfl, rfl⟩

theorem mem_addressedOf {w : TargetWord} {entry : Address × Feature} (h : entry ∈ r.addressedOf w) :
    entry ∈ w.addressed := by
  unfold addressedOf at h
  split at h
  · exact h
  · cases h

theorem order_of_mem_addressed {w : TargetWord} {entry : Address × Feature}
    (h : entry ∈ w.addressed) : 0 < entry.1.site.order := by
  rcases List.mem_append.1 h with h | h
  · obtain ⟨f, -, rfl⟩ := List.mem_map.1 h
    exact Nat.one_pos
  · obtain ⟨affix, -, h⟩ := List.mem_flatMap.1 h
    obtain ⟨f, -, rfl⟩ := List.mem_map.1 h
    exact Nat.succ_pos _

/-- **Features of one word** stand in the order of their addresses. -/
theorem pairwise_before_addressed (h : r.Identified) :
    r.addressed.Pairwise fun x y => x.1.wordId = y.1.wordId → x.1.Before y.1 := by
  refine List.pairwise_append.2 ⟨List.pairwise_flatMap.2 ⟨fun w _ => ?_, ?_⟩,
    List.pairwise_flatMap.2 ⟨fun w _ => ?_, ?_⟩, fun x hx y hy _ => ?_⟩
  · refine (pairwise_addressed_source w).imp ?_
    exact fun hbefore _ => hbefore
  · refine (List.pairwise_map.1 h.sourceIds).imp fun hne x hx y hy heq => absurd ?_ hne
    rw [← (site_of_mem_addressed_source hx).1, heq, (site_of_mem_addressed_source hy).1]
  · unfold addressedOf
    split
    · refine (pairwise_addressed_target w).imp ?_
      exact fun hbefore _ => hbefore
    · exact List.Pairwise.nil
  · refine (List.pairwise_map.1 h.targetIds).imp fun hne x hx y hy heq => absurd ?_ hne
    rw [← wordId_of_mem_addressed (mem_addressedOf hx), heq,
      wordId_of_mem_addressed (mem_addressedOf hy)]
  · obtain ⟨v, -, hx⟩ := List.mem_flatMap.1 hx
    obtain ⟨w, -, hy⟩ := List.mem_flatMap.1 hy
    refine .inl ?_
    rw [(site_of_mem_addressed_source hx).2]
    exact order_of_mem_addressed (mem_addressedOf hy)

/-- On one word, what comes first in the list comes first by its address. -/
theorem before_iff (h : r.Identified) {i j : Nat} {x y : Address × Feature}
    (hx : r.addressed[i]? = some x) (hy : r.addressed[j]? = some y)
    (hword : x.1.wordId = y.1.wordId) : x.1.Before y.1 ↔ i < j := by
  have hforth : ∀ {i j : Nat} {x y : Address × Feature}, r.addressed[i]? = some x →
      r.addressed[j]? = some y → x.1.wordId = y.1.wordId → i < j → x.1.Before y.1 := by
    intro i j x y hx hy hword hlt
    obtain ⟨hi, rfl⟩ := List.getElem?_eq_some_iff.1 hx
    obtain ⟨hj, rfl⟩ := List.getElem?_eq_some_iff.1 hy
    exact List.pairwise_iff_getElem.1 (pairwise_before_addressed h) i j hi hj hlt hword
  refine ⟨fun hbefore => ?_, hforth hx hy hword⟩
  rcases Nat.lt_trichotomy i j with hlt | rfl | hgt
  · exact hlt
  · rw [hx] at hy
    cases hy
    exact absurd hbefore (Address.Before.irrefl _)
  · exact absurd (hforth hy hx hword.symm hgt) hbefore.asymm

/-- **An address stands for one occurrence.** -/
theorem addressed_inj (h : r.Identified) {i j : Nat} {x y : Address × Feature}
    (hx : r.addressed[i]? = some x) (hy : r.addressed[j]? = some y) (heq : x.1 = y.1) : i = j := by
  have hword : x.1.wordId = y.1.wordId := by rw [heq]
  rcases Nat.lt_trichotomy i j with hlt | rfl | hgt
  · exact absurd (heq ▸ (before_iff h hx hy hword).2 hlt) (Address.Before.irrefl _)
  · rfl
  · exact absurd (heq ▸ (before_iff h hy hx hword.symm).2 hgt) (Address.Before.irrefl _)

/-! ## What stands at an address -/

/-- **An address leads to the feature.** -/
theorem featureAt?_of_mem_addressed (h : r.Identified) {entry : Address × Feature}
    (hentry : entry ∈ r.addressed) : r.featureAt? entry.1 = some entry.2 := by
  rcases List.mem_append.1 hentry with hentry | hentry
  · obtain ⟨w, hw, hentry⟩ := List.mem_flatMap.1 hentry
    obtain ⟨⟨f, place⟩, hf, rfl⟩ := List.mem_map.1 hentry
    have hfound : r.sourceWord? w.id = some w := find?_key_eq h.sourceIds hw
    show (((r.sourceWord? w.id).map SourceWord.features).getD [])[place]? = some f
    rw [hfound]
    exact List.mem_zipIdx_iff_getElem?.1 (List.mem_filter.1 hf).1
  · obtain ⟨w, hw, hentry⟩ := List.mem_flatMap.1 hentry
    have hfound : (r.target.find? fun v => v.id == w.id) = some w := find?_key_eq h.targetIds hw
    rcases List.mem_append.1 (mem_addressedOf hentry) with hentry | hentry
    · obtain ⟨⟨f, place⟩, hf, rfl⟩ := List.mem_map.1 hentry
      show (((r.target.find? fun v => v.id == w.id).map _).getD [])[place]? = some f
      rw [hfound]
      exact List.mem_zipIdx_iff_getElem?.1 hf
    · obtain ⟨⟨affix, index⟩, haffix, hentry⟩ := List.mem_flatMap.1 hentry
      obtain ⟨⟨f, place⟩, hf, rfl⟩ := List.mem_map.1 hentry
      show (((r.target.find? fun v => v.id == w.id).map _).getD [])[place]? = some f
      rw [hfound]
      show (((w.affixes[index]?).map Affix.features).getD [])[place]? = some f
      rw [List.mem_zipIdx_iff_getElem?.1 haffix]
      exact List.mem_zipIdx_iff_getElem?.1 hf

end Rule

end TransferRules

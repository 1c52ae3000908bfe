import TransferRules.Proofs.Compile.Address
import TransferRules.Proofs.Compile.Precedence

/-!
# The order of words does not matter

Occurrences are listed in the order of the words, and what is found first in the list may win.  All
the same, who provides the value of a match label does not depend on this order.  What is found
first is found on the head word, and on one word features keep their order; everywhere else the
compiler looks for the best, and a tie is a tie in any order.

So the occurrences of a rule are matched with those of the rule in another order, by their
addresses.  Matched occurrences are alike in all that counts, and those of the head word come in the
same order.  This is all that the choice of a provider depends on.

## Main Definitions

* `Matching` — two lists of occurrences that are alike but for the order of words
* `Rule.SameFeatures` — two rules that have the same features, each at its address
* `Rule.StandsAt` — a provider stands at an address

## Main Statements

* `Matching.isProvider` — matching occurrences provide the same
* `Rule.SameFeatures.matching_members` — the occurrences with a match label match one another
* `Rule.providersOf_reorder` — a rule is resolved in any order of its words, with the same providers
-/

namespace TransferRules

open TransferRules.Compile
open TransferRules.Ordered

/-! ## Matching occurrences -/

namespace Compile

/-- Two lists of occurrences match if their entries go together one by one, are alike where they go
together, and those on the head of the target phrase stand in the same order. -/
structure Matching (goes : Occurrence × Nat → Occurrence × Nat → Prop)
    (members members' : List (Occurrence × Nat)) : Prop where
  total : ∀ c ∈ members, ∃ c' ∈ members', goes c c'
  onto : ∀ c' ∈ members', ∃ c ∈ members, goes c c'
  unique : ∀ c ∈ members, ∀ c' ∈ members', ∀ d ∈ members, ∀ d' ∈ members', goes c c' →
    goes d d' → (c = d ↔ c' = d')
  site : ∀ c ∈ members, ∀ c' ∈ members', goes c c' → c.1.site = c'.1.site
  onHead : ∀ c ∈ members, ∀ c' ∈ members', goes c c' → c.1.onHead = c'.1.onHead
  rank : ∀ c ∈ members, ∀ c' ∈ members', goes c c' → c.1.rank = c'.1.rank
  order : ∀ c ∈ members, ∀ c' ∈ members', ∀ d ∈ members, ∀ d' ∈ members', goes c c' →
    goes d d' → c.1.onHead = true → d.1.onHead = true → (c.2 ≤ d.2 ↔ c'.2 ≤ d'.2)

namespace Matching

variable {goes : Occurrence × Nat → Occurrence × Nat → Prop}
  {members members' : List (Occurrence × Nat)} {c c' : Occurrence × Nat}

theorem symm (h : Matching goes members members') :
    Matching (fun c' c => goes c c') members' members where
  total := h.onto
  onto := h.total
  unique := fun c' hc' c hc d' hd' d hd hgoes hgoes' =>
    (h.unique c hc c' hc' d hd d' hd' hgoes hgoes').symm
  site := fun c' hc' c hc hgoes => (h.site c hc c' hc' hgoes).symm
  onHead := fun c' hc' c hc hgoes => (h.onHead c hc c' hc' hgoes).symm
  rank := fun c' hc' c hc hgoes => (h.rank c hc c' hc' hgoes).symm
  order := by
    intro c' hc' c hc d' hd' d hd hgoes hgoes' hhead hhead'
    rw [← h.onHead c hc c' hc' hgoes] at hhead
    rw [← h.onHead d hd d' hd' hgoes'] at hhead'
    exact (h.order c hc c' hc' d hd d' hd' hgoes hgoes' hhead hhead').symm

/-- Of lists that match, the occurrences on source words match. -/
theorem onSource (h : Matching goes members members') :
    Matching goes (members.filter fun c => c.1.site == .source)
      (members'.filter fun c => c.1.site == .source) where
  total := by
    intro c hc
    obtain ⟨hc, hsite⟩ := List.mem_filter.1 hc
    obtain ⟨c', hc', hgoes⟩ := h.total c hc
    exact ⟨c', List.mem_filter.2 ⟨hc', h.site c hc c' hc' hgoes ▸ hsite⟩, hgoes⟩
  onto := by
    intro c' hc'
    obtain ⟨hc', hsite⟩ := List.mem_filter.1 hc'
    obtain ⟨c, hc, hgoes⟩ := h.onto c' hc'
    refine ⟨c, List.mem_filter.2 ⟨hc, ?_⟩, hgoes⟩
    rwa [h.site c hc c' hc' hgoes]
  unique := fun c hc c' hc' d hd d' hd' =>
    h.unique c (List.mem_of_mem_filter hc) c' (List.mem_of_mem_filter hc') d
      (List.mem_of_mem_filter hd) d' (List.mem_of_mem_filter hd')
  site := fun c hc c' hc' => h.site c (List.mem_of_mem_filter hc) c' (List.mem_of_mem_filter hc')
  onHead := fun c hc c' hc' =>
    h.onHead c (List.mem_of_mem_filter hc) c' (List.mem_of_mem_filter hc')
  rank := fun c hc c' hc' => h.rank c (List.mem_of_mem_filter hc) c' (List.mem_of_mem_filter hc')
  order := fun c hc c' hc' d hd d' hd' =>
    h.order c (List.mem_of_mem_filter hc) c' (List.mem_of_mem_filter hc') d
      (List.mem_of_mem_filter hd) d' (List.mem_of_mem_filter hd')

theorem isBest (h : Matching goes members members') (hc' : c' ∈ members') (hgoes : goes c c')
    (hbest : IsBest Occurrence.RankLe members c) : IsBest Occurrence.RankLe members' c' where
  mem := hc'
  le := by
    intro d' hd'
    obtain ⟨d, hd, hgoes'⟩ := h.onto d' hd'
    have hle : c.1.rank ≤ d.1.rank := hbest.le d hd
    rwa [h.rank c hbest.mem c' hc' hgoes, h.rank d hd d' hd' hgoes'] at hle

theorem isPicked (h : Matching goes members members') (hc' : c' ∈ members') (hgoes : goes c c')
    (hpicked : IsPicked Occurrence.RankLe members c) :
    IsPicked Occurrence.RankLe members' c' := by
  have hback : ∀ d', IsBest Occurrence.RankLe members' d' →
      ∃ d, goes d d' ∧ IsBest Occurrence.RankLe members d := by
    intro d' hd'
    obtain ⟨d, hd, hgoes'⟩ := h.onto d' hd'.mem
    exact ⟨d, hgoes', h.symm.isBest hd hgoes' hd'⟩
  cases hpicked with
  | single hbest honly =>
      refine .single (h.isBest hc' hgoes hbest) fun d' hd' => ?_
      obtain ⟨d, hgoes', hd⟩ := hback d' hd'
      exact (h.unique d hd.mem d' hd'.mem c hbest.mem c' hc' hgoes' hgoes).1 (honly d hd)
  | onHead hbest hhead honly =>
      refine .onHead (h.isBest hc' hgoes hbest) ?_ fun d' hd' hhead' => ?_
      · rwa [← h.onHead c hbest.mem c' hc' hgoes]
      · obtain ⟨d, hgoes', hd⟩ := hback d' hd'
        rw [← h.onHead d hd.mem d' hd'.mem hgoes'] at hhead'
        exact (h.unique d hd.mem d' hd'.mem c hbest.mem c' hc' hgoes' hgoes).1 (honly d hd hhead')

theorem isFirst (h : Matching goes members members') {p : Site → Prop} (hc' : c' ∈ members')
    (hgoes : goes c c') (hfirst : IsFirst (fun o => o.onHead = true ∧ p o.site) members c) :
    IsFirst (fun o => o.onHead = true ∧ p o.site) members' c' where
  mem := hc'
  holds := by
    rw [← h.onHead c hfirst.mem c' hc' hgoes, ← h.site c hfirst.mem c' hc' hgoes]
    exact hfirst.holds
  first := by
    rintro d' hd' ⟨hhead, hsite⟩
    obtain ⟨d, hd, hgoes'⟩ := h.onto d' hd'
    rw [← h.onHead d hd d' hd' hgoes'] at hhead
    rw [← h.site d hd d' hd' hgoes'] at hsite
    exact (h.order c hfirst.mem c' hc' d hd d' hd' hgoes hgoes' hfirst.holds.1 hhead).1
      (hfirst.first d hd ⟨hhead, hsite⟩)

/-- **Matching occurrences provide the same.** -/
theorem isProvider (h : Matching goes members members') (hc' : c' ∈ members') (hgoes : goes c c')
    (hprovider : IsProvider Occurrence.RankLe members c) :
    IsProvider Occurrence.RankLe members' c' := by
  have htarget' : (∀ d ∈ members, d.1.site ≠ .source) → ∀ d' ∈ members', d'.1.site ≠ .source := by
    intro htarget d' hd'
    obtain ⟨d, hd, hgoes'⟩ := h.onto d' hd'
    rw [← h.site d hd d' hd' hgoes']
    exact htarget d hd
  cases hprovider with
  | source hpicked =>
      obtain ⟨hc, hsite⟩ := List.mem_filter.1 hpicked.mem
      rw [h.site c hc c' hc' hgoes] at hsite
      exact .source (h.onSource.isPicked (List.mem_filter.2 ⟨hc', hsite⟩) hgoes hpicked)
  | headWord htarget hfirst =>
      exact .headWord (htarget' htarget)
        (h.isFirst (p := fun site => site = .word) hc' hgoes hfirst)
  | headAffix htarget hnoWord hfirst =>
      refine .headAffix (htarget' htarget) (fun d' hd' hhead => ?_)
        (h.isFirst (p := fun site => site.isAffix = true) hc' hgoes hfirst)
      obtain ⟨d, hd, hgoes'⟩ := h.onto d' hd'
      rw [← h.onHead d hd d' hd' hgoes'] at hhead
      rw [← h.site d hd d' hd' hgoes']
      exact hnoWord d hd hhead
  | other htarget hothers hpicked =>
      refine .other (htarget' htarget) (fun d' hd' => ?_) (h.isPicked hc' hgoes hpicked)
      obtain ⟨d, hd, hgoes'⟩ := h.onto d' hd'
      rw [← h.onHead d hd d' hd' hgoes']
      exact hothers d hd

end Matching

end Compile

/-! ## Rules -/

namespace Rule

variable {r r' : Rule} {label : String} {c c' d d' : Occurrence × Nat}

/-- What is chosen for a match label is its provider by rank. -/
theorem choice_eq_ok_iff_isProvider {p : Provider} : r.choice label = .ok p ↔
    p.label = label ∧ IsProvider Occurrence.RankLe (r.members label) (p.occurrence, p.index) :=
  choice_eq_ok_iff fun _ _ _ _ => Iff.rfl

/-- Occurrences of two rules have the same address and feature. -/
def SameEntry (r r' : Rule) (c c' : Occurrence × Nat) : Prop :=
  ∃ entry, r.addressed[c.2]? = some entry ∧ r'.addressed[c'.2]? = some entry

theorem mem_members_iff :
    c ∈ r.members label ↔ r.occurrences[c.2]? = some c.1 ∧ c.1.label? = some label := by
  rw [members, List.mem_filter, List.mem_zipIdx_iff_getElem?, beq_iff_eq]

theorem candidate_eq_of_getElem? (h : r.Identified) (hc : r.occurrences[c.2]? = some c.1)
    {entry : Address × Feature} (hentry : r.addressed[c.2]? = some entry) :
    c.1.candidate = r.candidateAt entry := by
  obtain ⟨a, hsame, hcandidate⟩ := exists_entry h hc
  rw [hentry] at hsame
  cases hsame
  exact hcandidate

/-- Two rules have the same features with the same addresses, and the same head. -/
structure SameFeatures (r r' : Rule) : Prop where
  identified : r.Identified
  identified' : r'.Identified
  head : r'.head? = r.head?
  addressed : r'.addressed.Perm r.addressed

namespace SameFeatures

theorem symm (h : r.SameFeatures r') : r'.SameFeatures r :=
  ⟨h.identified', h.identified, h.head.symm, h.addressed.symm⟩

/-- What has the same entry is the same candidate. -/
theorem candidate_eq (h : r.SameFeatures r') (hc : c ∈ r.members label)
    (hc' : c' ∈ r'.members label) (hsame : r.SameEntry r' c c') :
    c.1.candidate = c'.1.candidate := by
  obtain ⟨entry, hentry, hentry'⟩ := hsame
  rw [candidate_eq_of_getElem? h.identified (mem_members_iff.1 hc).1 hentry,
    candidate_eq_of_getElem? h.identified' (mem_members_iff.1 hc').1 hentry', candidateAt,
    candidateAt, h.head]

/-- Every occurrence with a match label has one with the same entry. -/
theorem exists_sameEntry (h : r.SameFeatures r') (hc : c ∈ r.members label) :
    ∃ c' ∈ r'.members label, r.SameEntry r' c c' := by
  obtain ⟨hplace, hlabel⟩ := mem_members_iff.1 hc
  obtain ⟨a, hentry, -⟩ := exists_entry h.identified hplace
  have hmem : (a, c.1.feature) ∈ r'.addressed :=
    h.addressed.mem_iff.2 (List.mem_of_getElem? hentry)
  obtain ⟨index, hentry'⟩ := List.mem_iff_getElem?.1 hmem
  obtain ⟨o, ho, hfeature, -⟩ := exists_occurrence h.identified' hentry'
  refine ⟨(o, index), mem_members_iff.2 ⟨ho, ?_⟩, _, hentry, hentry'⟩
  rwa [Occurrence.label?, hfeature]

theorem eq_of_eq (h : r.SameFeatures r') (hc' : c' ∈ r'.members label)
    (hd' : d' ∈ r'.members label) (hsame : r.SameEntry r' c c') (hsame' : r.SameEntry r' d d')
    (heq : c = d) : c' = d' := by
  obtain ⟨entry, hentry, hentry'⟩ := hsame
  obtain ⟨other, hother, hother'⟩ := hsame'
  rw [heq, hother] at hentry
  cases hentry
  have hplace : c'.2 = d'.2 := addressed_inj h.identified' hentry' hother' rfl
  have ho := (mem_members_iff.1 hc').1
  rw [hplace, (mem_members_iff.1 hd').1] at ho
  exact Prod.ext (Option.some.inj ho).symm hplace

/-- Occurrences on the head word are on one word. -/
theorem wordId_eq_of_onHead (h : r.Identified) (hc : c ∈ r.members label)
    (hd : d ∈ r.members label) (hhead : c.1.onHead = true) (hhead' : d.1.onHead = true) :
    c.1.wordId = d.1.wordId := by
  have hword : ∀ {e}, e ∈ r.members label → e.1.onHead = true →
      r.head?.map TargetWord.id = some e.1.wordId := by
    intro e he hehead
    obtain ⟨a, -, hcandidate⟩ := exists_entry h (mem_members_iff.1 he).1
    have hon : e.1.onHead = (r.head?.map TargetWord.id == some a.wordId) :=
      congrArg Candidate.onHead hcandidate
    have hid : e.1.wordId = a.wordId := congrArg Candidate.wordId hcandidate
    rw [hehead] at hon
    rw [hid]
    exact beq_iff_eq.1 hon.symm
  exact Option.some.inj ((hword hc hhead).symm.trans (hword hd hhead'))

/-- **The occurrences of a rule match** those of a rule with the same features. -/
theorem matching_members (h : r.SameFeatures r') (label : String) :
    Matching (r.SameEntry r') (r.members label) (r'.members label) where
  total := fun c hc => h.exists_sameEntry hc
  onto := by
    intro c' hc'
    obtain ⟨c, hc, entry, hentry', hentry⟩ := h.symm.exists_sameEntry hc'
    exact ⟨c, hc, entry, hentry, hentry'⟩
  unique := by
    intro c hc c' hc' d hd d' hd' hsame hsame'
    refine ⟨h.eq_of_eq hc' hd' hsame hsame', h.symm.eq_of_eq hc hd ?_ ?_⟩
    · obtain ⟨entry, hentry, hentry'⟩ := hsame
      exact ⟨entry, hentry', hentry⟩
    · obtain ⟨entry, hentry, hentry'⟩ := hsame'
      exact ⟨entry, hentry', hentry⟩
  site := fun c hc c' hc' hsame => congrArg Candidate.site (h.candidate_eq hc hc' hsame)
  onHead := fun c hc c' hc' hsame => congrArg Candidate.onHead (h.candidate_eq hc hc' hsame)
  rank := fun c hc c' hc' hsame => congrArg Candidate.rank (h.candidate_eq hc hc' hsame)
  order := by
    intro c hc c' hc' d hd d' hd' hsame hsame' hhead hhead'
    have hword := wordId_eq_of_onHead h.identified hc hd hhead hhead'
    obtain ⟨x, hx, hx'⟩ := hsame
    obtain ⟨y, hy, hy'⟩ := hsame'
    have hwordId : y.1.wordId = x.1.wordId := by
      have hcx := candidate_eq_of_getElem? h.identified (mem_members_iff.1 hc).1 hx
      have hdy := candidate_eq_of_getElem? h.identified (mem_members_iff.1 hd).1 hy
      exact ((congrArg Candidate.wordId hcx).symm.trans
        (hword.trans (congrArg Candidate.wordId hdy))).symm
    rw [← Nat.not_lt, ← Nat.not_lt, ← before_iff h.identified hy hx hwordId,
      ← before_iff h.identified' hy' hx' hwordId]

/-- The provider of a match label has the same entry in both. -/
theorem exists_choice (h : r.SameFeatures r') {p : Provider} (hp : r.choice label = .ok p) :
    ∃ p', r'.choice label = .ok p' ∧
      r.SameEntry r' (p.occurrence, p.index) (p'.occurrence, p'.index) := by
  obtain ⟨-, hprovider⟩ := choice_eq_ok_iff_isProvider.1 hp
  have hmatching := h.matching_members label
  obtain ⟨c', hc', hsame⟩ := hmatching.total _ hprovider.mem
  exact ⟨⟨label, c'.1, c'.2⟩, choice_eq_ok_iff_isProvider.2
    ⟨rfl, hmatching.isProvider hc' hsame hprovider⟩, hsame⟩

theorem mem_labelsOf_of_mem (h : r.SameFeatures r') (hlabel : label ∈ labelsOf r.occurrences) :
    label ∈ labelsOf r'.occurrences := by
  simp only [labelsOf, List.mem_eraseDups, List.mem_filterMap] at hlabel ⊢
  obtain ⟨o, ho, heq⟩ := hlabel
  obtain ⟨index, hindex⟩ := List.mem_iff_getElem?.1 ho
  obtain ⟨c', hc', -⟩ := h.exists_sameEntry (c := (o, index)) (mem_members_iff.2 ⟨hindex, heq⟩)
  exact ⟨c'.1, mem_occurrences_of_mem_members hc', (mem_members_iff.1 hc').2⟩

theorem exists_providersOf (h : r.SameFeatures r') {ps : List Provider}
    (hps : providersOf r.name r.occurrences = .ok ps) :
    ∃ ps', providersOf r'.name r'.occurrences = .ok ps' := by
  rw [providersOf_eq, mapM_eq_ok_iff] at hps
  simp only [providersOf_eq, mapM_eq_ok_iff]
  refine exists_forall₂_iff.2 fun label hlabel => ?_
  obtain ⟨p, -, hp⟩ := exists_of_forall₂_of_mem hps.flip (h.symm.mem_labelsOf_of_mem hlabel)
  obtain ⟨p', hp', -⟩ := h.exists_choice hp
  exact ⟨p', hp'⟩

end SameFeatures

/-- A provider stands at an address: this is the address of the occurrence at its place, and it is
a feature of the word, on the part of the word, that the address says. -/
structure StandsAt (r : Rule) (p : Provider) (a : Address) : Prop where
  occurrence : r.occurrences[p.index]? = some p.occurrence
  address : r.addressAt? p.index = some a
  wordId : p.occurrence.wordId = a.wordId
  site : p.occurrence.site = a.site
  feature : r.featureAt? a = some p.occurrence.feature

theorem standsAt_of_entry (h : r.Identified) {p : Provider}
    (hp : r.occurrences[p.index]? = some p.occurrence) {entry : Address × Feature}
    (hentry : r.addressed[p.index]? = some entry) : r.StandsAt p entry.1 := by
  obtain ⟨a, hsame, hcandidate⟩ := exists_entry h hp
  rw [hentry] at hsame
  cases hsame
  exact ⟨hp, by rw [addressAt?, hentry, Option.map_some], congrArg Candidate.wordId hcandidate,
    congrArg Candidate.site hcandidate, featureAt?_of_mem_addressed h (List.mem_of_getElem? hentry)⟩

/-- At an address there is one occurrence. -/
theorem StandsAt.unique (h : r.Identified) {p q : Provider} {a : Address} (hp : r.StandsAt p a)
    (hq : r.StandsAt q a) : p.index = q.index := by
  obtain ⟨x, hx, rfl⟩ := Option.map_eq_some_iff.1 hp.address
  obtain ⟨y, hy, heq⟩ := Option.map_eq_some_iff.1 hq.address
  exact addressed_inj h hx hy heq.symm

/-- What is chosen is chosen for its label, and stands somewhere among the occurrences. -/
theorem choice_of_mem_providersOf {ps : List Provider}
    (hps : providersOf r.name r.occurrences = .ok ps) {p : Provider} (hp : p ∈ ps) :
    p.label ∈ labelsOf r.occurrences ∧ r.choice p.label = .ok p ∧
      r.occurrences[p.index]? = some p.occurrence := by
  rw [providersOf_eq, mapM_eq_ok_iff] at hps
  obtain ⟨label, hlabel, hchoice⟩ := exists_of_forall₂_of_mem hps hp
  obtain ⟨rfl, hprovider⟩ := choice_eq_ok_iff_isProvider.1 hchoice
  exact ⟨hlabel, hchoice, (mem_members_iff.1 hprovider.mem).1⟩

/-- What is chosen for a match label is among the providers. -/
theorem mem_providersOf_of_choice {ps : List Provider}
    (hps : providersOf r.name r.occurrences = .ok ps) (hlabel : label ∈ labelsOf r.occurrences)
    {p : Provider} (hp : r.choice label = .ok p) : p ∈ ps := by
  rw [providersOf_eq] at hps
  obtain ⟨q, hq, hchoice⟩ := exists_of_mapM_ok hps hlabel
  rw [hp] at hchoice
  cases hchoice
  exact hq

theorem SameFeatures.exists_provider_at (h : r.SameFeatures r') {ps ps' : List Provider}
    (hps : providersOf r.name r.occurrences = .ok ps)
    (hps' : providersOf r'.name r'.occurrences = .ok ps') {p : Provider} (hp : p ∈ ps)
    {a : Address} (ha : r.StandsAt p a) :
    ∃ p' ∈ ps', p'.label = p.label ∧ r'.StandsAt p' a := by
  obtain ⟨hlabel, hchoice, -⟩ := choice_of_mem_providersOf hps hp
  obtain ⟨p', hchoice', entry, hentry, hentry'⟩ := h.exists_choice hchoice
  have hp' := mem_providersOf_of_choice hps' (h.mem_labelsOf_of_mem hlabel) hchoice'
  have hlabel' : p'.label = p.label := (choice_eq_ok_iff_isProvider.1 hchoice').1
  have haddress : entry.1 = a := by
    have ha' := ha.address
    rw [addressAt?, hentry, Option.map_some] at ha'
    exact Option.some.inj ha'
  refine ⟨p', hp', hlabel', ?_⟩
  rw [← haddress]
  exact standsAt_of_entry h.identified' (choice_of_mem_providersOf hps' hp').2.2 hentry'

/-! ## The order of words -/

variable {source : List SourceWord} {target : List TargetWord}

/-- In another order a source word still has a position. -/
theorem isSome_position?_reorder (hsource : source.Perm r.source) (id : String) :
    ({ r with source, target }.position? id).isSome = (r.position? id).isSome := by
  rw [position?, position?, Option.isSome_map, Option.isSome_map, List.findIdx?_isSome,
    List.findIdx?_isSome]
  exact hsource.any_eq

/-- **In another order** a rule has the same features. -/
theorem sameFeatures_reorder (h : r.Identified) (hsource : source.Perm r.source)
    (htarget : target.Perm r.target) : r.SameFeatures { r with source, target } where
  identified := h
  identified' := h.reorder hsource htarget
  head := h.head?_reorder hsource htarget
  addressed := by
    refine (hsource.flatMap_right _).append (htarget.flatMap fun w _ => ?_)
    rw [addressedOf, addressedOf, isSome_position?_reorder hsource]

/-- A rule is compiled if no word has two features of the same ranking and all match labels have
providers. -/
theorem isCompilable_iff : r.isCompilable = true ↔
    r.rankingTie? = none ∧ ∃ ps, providersOf r.name r.occurrences = .ok ps := by
  unfold isCompilable resolve
  cases r.rankingTie? with
  | some issue => exact ⟨nofun, nofun⟩
  | none =>
      cases providersOf r.name r.occurrences with
      | error issue => exact ⟨nofun, nofun⟩
      | ok ps => exact ⟨fun _ => ⟨rfl, ps, rfl⟩, fun _ => rfl⟩

/-- **Agreement does not depend on the order of words.**  If the ids of a rule are its own and it
has one head, then providers are found for it in one order of its words just if they are found in
another one, and for every match label the same feature of the same word is chosen.  So it is also
compiled in any order or in none. -/
theorem providersOf_reorder (h : r.Identified) (hsource : source.Perm r.source)
    (htarget : target.Perm r.target) :
    let r' : Rule := { r with source, target }
    ((∃ ps', providersOf r'.name r'.occurrences = .ok ps') ↔
        ∃ ps, providersOf r.name r.occurrences = .ok ps) ∧
      r'.isCompilable = r.isCompilable ∧
      ∀ ps ps', providersOf r.name r.occurrences = .ok ps →
        providersOf r'.name r'.occurrences = .ok ps' →
        (∀ p ∈ ps, ∃ a, r.StandsAt p a) ∧
          ∀ label a, (∃ p ∈ ps, p.label = label ∧ r.StandsAt p a) ↔
            ∃ p' ∈ ps', p'.label = label ∧ r'.StandsAt p' a := by
  intro r'
  have hsame : r.SameFeatures r' := sameFeatures_reorder h hsource htarget
  have hfound : (∃ ps', providersOf r'.name r'.occurrences = .ok ps') ↔
      ∃ ps, providersOf r.name r.occurrences = .ok ps :=
    ⟨fun ⟨_, hps'⟩ => hsame.symm.exists_providersOf hps',
      fun ⟨_, hps⟩ => hsame.exists_providersOf hps⟩
  have htie : r'.rankingTie? = none ↔ r.rankingTie? = none := by
    rw [rankingTie?_eq_none_iff, rankingTie?_eq_none_iff]
    exact forall_congr' fun w => by rw [show w ∈ r'.target ↔ w ∈ r.target from htarget.mem_iff]
  refine ⟨hfound, ?_, fun ps ps' hps hps' => ⟨fun p hp => ?_, fun label a => ⟨?_, ?_⟩⟩⟩
  · rw [Bool.eq_iff_iff, isCompilable_iff, isCompilable_iff, htie, hfound]
  · have hplace := (choice_of_mem_providersOf hps hp).2.2
    obtain ⟨a, hentry, -⟩ := exists_entry h hplace
    exact ⟨a, standsAt_of_entry h hplace hentry⟩
  · rintro ⟨p, hp, rfl, ha⟩
    exact hsame.exists_provider_at hps hps' hp ha
  · rintro ⟨p', hp', rfl, ha⟩
    exact hsame.symm.exists_provider_at hps' hps hp' ha

/-- A noun and an adjective that both know their number, with a determiner that agrees. -/
def numberedNoun : Rule where
  name := "numbered noun"
  source := [⟨"1", some "det", []⟩,
    ⟨"2", some "adj", [{ label := "number", binding := .agreement "a" }]⟩,
    ⟨"3", some "n", [{ label := "number", binding := .agreement "a" }]⟩]
  target := [
    { id := "1", affixes := [⟨.after, [{ label := "number", binding := .agreement "a" }]⟩] },
    { id := "3", isHead := true }, { id := "2" }]

/-- With its words in reverse order the noun still provides the number. -/
theorem providersOf_reorder_numberedNoun :
    numberedNoun.Identified ∧ numberedNoun.source.reverse.Perm numberedNoun.source ∧
      numberedNoun.target.reverse.Perm numberedNoun.target ∧
      let reversed : Rule := { numberedNoun with
        source := numberedNoun.source.reverse
        target := numberedNoun.target.reverse }
      ∃ ps, providersOf reversed.name reversed.occurrences = .ok ps ∧
        ∃ p ∈ ps, p.label = "a" ∧ reversed.StandsAt p ⟨"3", .source, 0⟩ := by
  have hids : numberedNoun.Identified := by decide
  have hsource := numberedNoun.source.reverse_perm
  have htarget := numberedNoun.target.reverse_perm
  obtain ⟨hfound, -, hpicks⟩ := providersOf_reorder hids hsource htarget
  obtain ⟨ps, hps⟩ := hfound.2 ⟨_, rfl⟩
  refine ⟨hids, hsource, htarget, ps, hps, ((hpicks _ ps rfl hps).2 "a" _).1 ?_⟩
  exact ⟨_, List.mem_singleton_self _, rfl, rfl, rfl, rfl, rfl, rfl⟩

end Rule

end TransferRules

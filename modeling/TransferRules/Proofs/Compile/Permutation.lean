import TransferRules.Proofs.Compile.Candidates
import TransferRules.Proofs.Rule.Permutation
import TransferRules.Proofs.Session.Skipping

/-!
# Rules without some of their words

Leaving words out of a rule leaves out the candidates on these words and changes nothing about the
others.  So whether a permutation is compiled can be read off the candidates of the rule: for each
match label that it still has, one of those on the words that it keeps must win.

## Main Definitions

* `Rule.candidates`, `Rule.candidatesFor` — the candidates of a rule, and those with one match label

## Main Statements

* `Rule.exists_provider`, `Rule.exists_ambiguous` — a rule is compiled if a candidate wins for each
  match label, and not otherwise
* `Rule.candidates_retain` — the candidates of a rule without some words
* `Rule.resolve_permutation` — a permutation that is skipped lacks the word of a provider
* `Rule.forall_isCompilable_iff` — permutations that keep two words decide for all
-/

namespace TransferRules.Rule

open TransferRules.Compile
open TransferRules.Ordered

variable {r : Rule} {label name : String} {keep : String → Bool}

/-- The candidates of a rule. -/
def candidates (r : Rule) : List Candidate := r.occurrences.map Occurrence.candidate

/-- The candidates with one match label. -/
def candidatesFor (r : Rule) (label : String) : List Candidate :=
  r.candidates.filter fun c => c.label? == some label

theorem candidatesOf_members (r : Rule) (label : String) :
    candidatesOf (r.occurrences.zipIdx.filter fun m => m.1.label? == some label) =
      r.candidatesFor label := by
  have hmap : r.candidates = r.occurrences.zipIdx.map fun m => m.1.candidate := by
    conv_lhs => rw [candidates, ← List.zipIdx_map_fst 0 r.occurrences, List.map_map]
    rfl
  rw [candidatesFor, hmap, List.filter_map]
  rfl

theorem mem_labelsOf : label ∈ labelsOf r.occurrences ↔ r.candidatesFor label ≠ [] := by
  rw [labelsOf, List.mem_eraseDups, List.mem_filterMap]
  constructor
  · rintro ⟨o, ho, hlabel⟩
    exact List.ne_nil_of_mem (List.mem_filter.2 ⟨List.mem_map_of_mem ho, beq_iff_eq.2 hlabel⟩)
  · intro hne
    obtain ⟨c, hc⟩ := List.exists_mem_of_ne_nil _ hne
    obtain ⟨hmem, hlabel⟩ := List.mem_filter.1 hc
    obtain ⟨o, ho, rfl⟩ := List.mem_map.1 hmem
    exact ⟨o, ho, beq_iff_eq.1 hlabel⟩

/-- A rule that is resolved has no tie of rankings. -/
theorem rankingTie?_of_resolve {resolution : Resolution} (h : r.resolve = .ok resolution) :
    r.rankingTie? = none := by
  unfold resolve at h
  cases htie : r.rankingTie? with
  | none => rfl
  | some issue =>
      rw [htie] at h
      cases h

/-- Without one, it is resolved by choosing providers. -/
theorem resolve_of_rankingTie?_eq_none (h : r.rankingTie? = none) :
    r.resolve = (providersOf r.name r.occurrences).map fun providers =>
      ⟨r.occurrences, providers⟩ := by
  rw [resolve, h]

/-- **In a rule that is resolved** each match label has a provider that wins. -/
theorem exists_provider {resolution : Resolution} (h : r.resolve = .ok resolution)
    (hlabel : r.candidatesFor label ≠ []) :
    ∃ p ∈ resolution.providers, p.label = label ∧
      Candidate.Wins (r.candidatesFor label) p.occurrence.candidate := by
  rw [resolve_of_rankingTie?_eq_none (rankingTie?_of_resolve h)] at h
  cases hproviders : providersOf r.name r.occurrences with
  | error issue =>
      rw [hproviders] at h
      cases h
  | ok providers =>
      rw [hproviders] at h
      cases h
      obtain ⟨p, hp, hsome⟩ := exists_of_mapM_ok hproviders (mem_labelsOf.2 hlabel)
      split at hsome
      · next o index hprovider =>
        cases hsome
        refine ⟨_, hp, rfl, ?_⟩
        rw [← candidatesOf_members]
        exact wins_of_provider? hprovider
      · cases hsome

/-- A rule with a match label for which no candidate wins is not compiled. -/
theorem not_isCompilable_of_not_wins (hlabel : r.candidatesFor label ≠ [])
    (h : ∀ c, ¬ Candidate.Wins (r.candidatesFor label) c) : r.isCompilable = false := by
  unfold isCompilable
  cases hresolve : r.resolve with
  | error issue => rfl
  | ok resolution =>
      obtain ⟨p, -, -, hwins⟩ := exists_provider hresolve hlabel
      exact absurd hwins (h _)

/-- **A rule that is not compiled**, though no word has two features of the same ranking, has a
match label for which no candidate wins. -/
theorem exists_ambiguous (htie : r.rankingTie? = none) (h : r.isCompilable = false) :
    ∃ label, r.resolve = .error (.ambiguousBinding r.name label) ∧
      r.candidatesFor label ≠ [] ∧ ∀ c, ¬ Candidate.Wins (r.candidatesFor label) c := by
  have hresolve := resolve_of_rankingTie?_eq_none htie
  rw [isCompilable, hresolve] at h
  cases hproviders : providersOf r.name r.occurrences with
  | ok providers =>
      rw [hproviders] at h
      cases h
  | error issue =>
      obtain ⟨label, hlabel, hissue⟩ := exists_of_mapM_error hproviders
      split at hissue
      · cases hissue
      · next hprovider =>
        cases hissue
        refine ⟨label, ?_, mem_labelsOf.1 hlabel, fun c => ?_⟩
        · rw [hresolve, hproviders]
          rfl
        · rw [← candidatesOf_members]
          exact not_wins_of_provider?_eq_none hprovider c

theorem rankingTie?_eq_none_iff : r.rankingTie? = none ↔
    ∀ w ∈ r.target, firstRepeated? [] (w.features.filterMap Feature.ranking) = none := by
  rw [rankingTie?, List.findSome?_eq_none_iff]
  exact forall₂_congr fun w _ => Option.map_eq_none_iff

/-! ## Leaving words out -/

/-- A word that is kept still translates a source word. -/
theorem isSome_position?_retain {id : String} (hkeep : keep id = true) :
    ((r.retain name keep).position? id).isSome = (r.position? id).isSome := by
  rw [position?, position?, Option.isSome_map, Option.isSome_map, List.findIdx?_isSome,
    List.findIdx?_isSome]
  show (r.source.filter fun w => keep w.id).any _ = _
  rw [List.any_filter]
  refine List.any_congr rfl fun w => ?_
  by_cases hid : w.id = id
  · simp [hid, hkeep]
  · simp [hid]

/-- The candidates on a source word. -/
def sourceCandidates (r : Rule) (w : SourceWord) : List Candidate :=
  (w.features.filter fun f => f.binding.label?.isSome).map fun f =>
    ⟨w.id, f.binding.label?, .source, r.head?.map TargetWord.id == some w.id,
      f.ranking.getD lastRank⟩

/-- The candidates on a target word. -/
def targetCandidates (r : Rule) (w : TargetWord) : List Candidate :=
  if (r.position? w.id).isSome then
    (targetFeatures w).map fun (site, f) =>
      ⟨w.id, f.binding.label?, site, w.isHead, f.ranking.getD lastRank⟩
  else []

theorem map_flatMap_zipIdx {α β γ : Type} {f : α → Nat → List β} {g : β → γ} {F : α → List γ}
    {l : List α} (h : ∀ a ∈ l, ∀ i, (f a i).map g = F a) :
    (l.zipIdx.flatMap fun entry => f entry.1 entry.2).map g = l.flatMap F := by
  conv_rhs => rw [← List.zipIdx_map_fst 0 l, List.flatMap_map]
  rw [List.map_flatMap]
  exact List.flatMap_congr fun entry hentry => h _ (List.fst_mem_of_mem_zipIdx hentry) _

theorem candidates_eq (r : Rule) :
    r.candidates = r.source.flatMap r.sourceCandidates ++ r.target.flatMap r.targetCandidates := by
  have hsource : ∀ (w : SourceWord) (i : Nat),
      (r.sourceOccurrences w (i + 1)).map Occurrence.candidate = r.sourceCandidates w := by
    intro w i
    rw [sourceOccurrences, List.map_map]
    rfl
  have htarget : ∀ (w : TargetWord) (i : Nat),
      (r.targetOccurrences w i).map Occurrence.candidate = r.targetCandidates w := by
    intro w i
    unfold targetOccurrences targetCandidates
    cases r.position? w.id with
    | none => rfl
    | some position =>
        rw [List.map_map]
        rfl
  rw [candidates, occurrences, List.map_append]
  exact congrArg₂ (· ++ ·) (map_flatMap_zipIdx fun w _ => hsource w)
    (map_flatMap_zipIdx fun w _ => htarget w)

theorem flatMap_filter_eq {α β : Type} {p : α → Bool} {q : β → Bool} {F F' : α → List β}
    (h : ∀ a, (F a).filter q = if p a then F' a else []) (l : List α) :
    (l.filter p).flatMap F' = (l.flatMap F).filter q := by
  induction l with
  | nil => rfl
  | cons a l ih =>
      rw [List.flatMap_cons, List.filter_append, h, ← ih, List.filter_cons]
      split
      · rw [List.flatMap_cons]
      · rw [List.nil_append]

/-- **Without some words**, the candidates of a rule are those on the words that are kept. -/
theorem candidates_retain (hhead : ∀ w, r.head? = some w → keep w.id = true) :
    (r.retain name keep).candidates = r.candidates.filter fun c => keep c.wordId := by
  have hkept : ∀ (id : String) (cs : List Candidate), (∀ c ∈ cs, c.wordId = id) →
      cs.filter (fun c => keep c.wordId) = if keep id then cs else [] := by
    intro id cs hcs
    split
    · next hkeep =>
      exact List.filter_eq_self.2 fun c hc => by rw [hcs c hc, hkeep]
    · next hkeep =>
      exact List.filter_eq_nil_iff.2 fun c hc => by rwa [hcs c hc]
  rw [candidates_eq, candidates_eq, List.filter_append]
  refine congrArg₂ (· ++ ·) (flatMap_filter_eq (fun w => ?_) _) (flatMap_filter_eq (fun w => ?_) _)
  · rw [hkept w.id _ fun c hc => ?_]
    · have hsame : (r.retain name keep).sourceCandidates w = r.sourceCandidates w := by
        rw [sourceCandidates, head?_retain hhead]
        rfl
      rw [hsame]
    · obtain ⟨f, -, rfl⟩ := List.mem_map.1 hc
      rfl
  · rw [hkept w.id _ fun c hc => ?_]
    · refine if_ctx_congr Iff.rfl (fun hkeep => ?_) fun _ => rfl
      rw [targetCandidates, targetCandidates, isSome_position?_retain hkeep]
    · unfold targetCandidates at hc
      split at hc
      · obtain ⟨f, -, rfl⟩ := List.mem_map.1 hc
        rfl
      · cases hc

/-! ## Permutations -/

variable {n choice : Nat}

/-- The candidates of a permutation are those on the words that the choice keeps. -/
theorem candidates_permutation :
    (r.permutation n choice).candidates =
      r.candidates.filter fun c => r.keeps choice c.wordId :=
  candidates_retain fun _ hw => keeps_head hw

/-- What a smaller choice keeps can be read off the permutation of a greater one. -/
theorem candidatesFor_permutation {m other : Nat}
    (h : ∀ id, r.keeps choice id = true → r.keeps other id = true) :
    (r.permutation n choice).candidatesFor label =
      ((r.permutation m other).candidatesFor label).filter fun c => r.keeps choice c.wordId := by
  have hkept : r.candidates.filter (fun c => r.keeps choice c.wordId) =
      (r.candidates.filter fun c => r.keeps other c.wordId).filter
        fun c => r.keeps choice c.wordId := by
    rw [List.filter_filter]
    refine List.filter_congr fun c _ => ?_
    cases hc : r.keeps choice c.wordId with
    | false => rfl
    | true => rw [h _ hc, Bool.and_self]
  rw [candidatesFor, candidatesFor, candidates_permutation, candidates_permutation, hkept,
    List.filter_comm]

/-- A tie of rankings is one of the full phrase. -/
theorem rankingTie?_permutation (h : r.fullPhrase.rankingTie? = none) :
    (r.permutation n choice).rankingTie? = none := by
  rw [rankingTie?_eq_none_iff] at h ⊢
  intro w hw
  obtain ⟨hmem, hkeep⟩ := List.mem_filter.1 hw
  exact h w (List.mem_filter.2 ⟨hmem, keeps_full_of_keeps hkeep⟩)

/-- **A permutation that is not compiled** lacks a word of the full phrase, the one that provides
the value of a match label there. -/
theorem resolve_permutation {resolution : Resolution}
    (hfull : r.fullPhrase.resolve = .ok resolution)
    (h : (r.permutation n choice).isCompilable = false) :
    ∃ label,
      (r.permutation n choice).resolve =
        .error (.ambiguousBinding (r.permutation n choice).name label) ∧
      ∃ p ∈ resolution.providers, p.label = label ∧
        ∀ w ∈ (r.permutation n choice).source, w.id ≠ p.occurrence.wordId := by
  obtain ⟨label, herror, hne, hwins⟩ :=
    exists_ambiguous (rankingTie?_permutation (rankingTie?_of_resolve hfull)) h
  have hcandidates : (r.permutation n choice).candidatesFor label =
      (r.fullPhrase.candidatesFor label).filter fun c => r.keeps choice c.wordId :=
    candidatesFor_permutation fun _ => keeps_full_of_keeps
  rw [hcandidates] at hne hwins
  obtain ⟨p, hp, hlabel, hprovider⟩ := exists_provider hfull fun hnil => hne (by rw [hnil]; rfl)
  refine ⟨label, herror, p, hp, hlabel, fun w hw heq => ?_⟩
  have hkeep : r.keeps choice w.id = true := (List.mem_filter.1 hw).2
  rw [heq] at hkeep
  exact hwins _ (hprovider.filter hkeep)

theorem site_ne_source_of_mem_targetFeatures {w : TargetWord} {entry : Site × Feature}
    (h : entry ∈ targetFeatures w) : entry.1 ≠ .source := by
  rcases List.mem_append.1 h with h | h
  · obtain ⟨f, -, rfl⟩ := List.mem_map.1 h
    exact nofun
  · obtain ⟨affix, -, h⟩ := List.mem_flatMap.1 h
    obtain ⟨f, -, rfl⟩ := List.mem_map.1 h
    exact nofun

/-- A candidate on a source word is on the head word if the word has the id of the head. -/
theorem id_head?_of_onHead {c : Candidate} (hc : c ∈ r.candidates) (hsource : c.onSource = true)
    (hhead : c.onHead = true) : r.head?.map TargetWord.id = some c.wordId := by
  rw [candidates_eq, List.mem_append] at hc
  rcases hc with hc | hc
  · obtain ⟨w, -, hc⟩ := List.mem_flatMap.1 hc
    obtain ⟨f, -, rfl⟩ := List.mem_map.1 hc
    exact beq_iff_eq.1 hhead
  · obtain ⟨w, -, hc⟩ := List.mem_flatMap.1 hc
    unfold targetCandidates at hc
    split at hc
    · obtain ⟨entry, hentry, rfl⟩ := List.mem_map.1 hc
      exact absurd (beq_iff_eq.1 hsource) (site_ne_source_of_mem_targetFeatures hentry)
    · cases hc

/-- **An ambiguity needs two words.**  If some permutation is not compiled, then one is not that
keeps at most two optional words, which that one keeps too. -/
theorem exists_small_choice (htie : r.fullPhrase.rankingTie? = none)
    (h : (r.permutation n choice).isCompilable = false) :
    ∃ small < 2 ^ r.optionalIds.length,
      (keptIds small r.optionalIds).length ≤ 2 ∧
      (∀ id, r.keeps small id = true → r.keeps choice id = true) ∧
      ∀ m, (r.permutation m small).isCompilable = false := by
  obtain ⟨label, -, hne, hwins⟩ := exists_ambiguous (rankingTie?_permutation htie) h
  obtain ⟨a, ha, b, hb, hpair⟩ := Candidate.exists_pair_of_not_wins hne hwins
  have hkept : ∀ c ∈ (r.permutation n choice).candidatesFor label,
      c ∈ r.candidates ∧ r.keeps choice c.wordId = true := by
    intro c hc
    have hmem := (List.mem_filter.1 hc).1
    rw [candidates_permutation] at hmem
    exact List.mem_filter.1 hmem
  obtain ⟨small, hlt, hlength, hpart, hwords⟩ :=
    r.exists_choice_keeping choice [a.wordId, b.wordId]
  have hkeepa : r.keeps small a.wordId = true :=
    hwords a.wordId List.mem_cons_self (hkept a ha).2
  have hkeepb : r.keeps small b.wordId = true :=
    hwords b.wordId (List.mem_cons_of_mem _ List.mem_cons_self) (hkept b hb).2
  refine ⟨small, hlt, hlength, hpart, fun m => ?_⟩
  obtain ⟨hne', hwins'⟩ := hpair (fun c => r.keeps small c.wordId) hkeepa hkeepb
    fun d hd hsource hhead => keeps_iff.2 (.inl (id_head?_of_onHead (hkept d hd).1 hsource hhead))
  rw [← candidatesFor_permutation (n := m) hpart] at hne' hwins'
  exact not_isCompilable_of_not_wins hne' hwins'

theorem exists_resolve (h : r.isCompilable = true) :
    ∃ resolution, r.resolve = .ok resolution := by
  unfold isCompilable at h
  cases hresolve : r.resolve with
  | ok resolution => exact ⟨resolution, rfl⟩
  | error issue =>
      rw [hresolve] at h
      cases h

/-- **All permutations are compiled** if those are that keep at most two of the optional words. -/
theorem forall_isCompilable_iff (htie : r.fullPhrase.rankingTie? = none) :
    (∀ subset ∈ r.permutations, subset.isCompilable = true) ↔
      ∀ choice < 2 ^ r.optionalIds.length, (keptIds choice r.optionalIds).length ≤ 2 →
        (r.permutation (2 ^ r.optionalIds.length - 1) choice).isCompilable = true := by
  constructor
  · intro h choice hlt _
    exact h _ (mem_permutations.2 ⟨choice, hlt, rfl⟩)
  · intro h subset hsubset
    obtain ⟨choice, hlt, rfl⟩ := mem_permutations.1 hsubset
    rw [← Bool.not_eq_false]
    intro hfalse
    obtain ⟨small, hsmall, hlength, -, hfails⟩ := exists_small_choice htie hfalse
    have hcompiled := h small hsmall hlength
    rw [hfails] at hcompiled
    cases hcompiled

end TransferRules.Rule

import Mathlib.Data.List.MinMax
import TransferRules.Compile.Provider

/-!
# Choosing a provider

Which occurrence provides the value of a match label hangs on little: on which word and on which
part of it the occurrences stand, and how they are ranked.  None of this changes when other words
are left out.  So it is asked here of some candidates who wins, and what becomes of this when some
of them are left out.

The one that wins also wins among fewer, as long as it is there.  And whether any wins is decided by
two of them: if none does, then two tie that are as good as any, and they still tie when others are
left out.

## Main Definitions

* `Candidate` — what matters about an occurrence
* `Candidate.Wins` — when one of some candidates is chosen

## Main Statements

* `Candidate.Wins.filter` — the one that wins also wins among fewer
* `Candidate.exists_pair_of_not_wins` — two candidates because of which none wins
* `wins_of_provider?`, `not_wins_of_provider?_eq_none` — the provider is the one that wins

## Design Notes

An occurrence also carries its place among the words, which changes when words are left out.
Candidates forget it.  This is why the candidates of a rule and of a part of it can be compared by
`List.filter`.
-/

namespace TransferRules.Compile

/-- What matters about an occurrence when a provider is chosen. -/
structure Candidate where
  wordId : String
  label? : Option String
  site : Site
  onHead : Bool
  rank : Nat

/-- The candidate that an occurrence is. -/
def Occurrence.candidate (o : Occurrence) : Candidate :=
  ⟨o.wordId, o.label?, o.site, o.onHead, o.rank⟩

namespace Candidate

variable {candidates : List Candidate} {c : Candidate} {keep : Candidate → Bool}

/-- Whether a candidate is on a source word. -/
def onSource (c : Candidate) : Bool := c.site == .source

/-- The candidates to choose from: those on source words, if there are any. -/
def eligible (candidates : List Candidate) : List Candidate :=
  if candidates.any onSource then candidates.filter onSource else candidates

/-- The candidates with the lowest rank. -/
def lowest (candidates : List Candidate) : List Candidate :=
  candidates.filter fun c => candidates.all fun d => decide (c.rank ≤ d.rank)

/-- The best of the candidates to choose from. -/
def best (candidates : List Candidate) : List Candidate := lowest (eligible candidates)

/-- When a candidate is chosen among others. -/
inductive Wins (candidates : List Candidate) (c : Candidate) : Prop
  /-- It is on the head word, and there are none on source words. -/
  | onHead (hmem : c ∈ candidates) (hhead : c.onHead = true)
      (htarget : ∀ d ∈ candidates, d.onSource = false)
  /-- No other one is as good. -/
  | best (h : best candidates = [c])
  /-- No other one that is as good is on the head word. -/
  | bestOnHead (h : (Candidate.best candidates).filter Candidate.onHead = [c])

theorem eligible_of_forall (h : ∀ d ∈ candidates, d.onSource = false) :
    eligible candidates = candidates := by
  refine if_neg fun hany => ?_
  obtain ⟨d, hd, hsource⟩ := List.any_eq_true.1 hany
  rw [h d hd] at hsource
  cases hsource

theorem eligible_sublist : (eligible candidates).Sublist candidates := by
  unfold eligible
  split
  · exact List.filter_sublist
  · exact List.Sublist.refl _

theorem best_sublist : (best candidates).Sublist candidates :=
  List.filter_sublist.trans eligible_sublist

/-- There is a best one among some candidates. -/
theorem exists_mem_lowest (h : candidates ≠ []) : ∃ c, c ∈ lowest candidates := by
  obtain ⟨c, hc⟩ := Option.ne_none_iff_exists'.1 (mt (List.argmin_eq_none (f := rank)).1 h)
  refine ⟨c, List.mem_filter.2 ⟨List.argmin_mem hc, ?_⟩⟩
  rw [List.all_eq_true]
  exact fun d hd => decide_eq_true (List.le_of_mem_argmin hd hc)

theorem exists_mem_best (h : candidates ≠ []) : ∃ c, c ∈ best candidates := by
  refine exists_mem_lowest ?_
  unfold eligible
  split
  · next hany =>
    obtain ⟨d, hd, hsource⟩ := List.any_eq_true.1 hany
    exact List.ne_nil_of_mem (List.mem_filter.2 ⟨hd, hsource⟩)
  · exact h

/-- If one of the best is not on a source word, then none is. -/
theorem onSource_of_mem_best (hc : c ∈ best candidates) (hsource : c.onSource = false) :
    ∀ d ∈ candidates, d.onSource = false := by
  intro d hd
  rw [← Bool.not_eq_true]
  intro hd'
  have helig : c ∈ eligible candidates := (List.mem_filter.1 hc).1
  rw [eligible, if_pos (List.any_eq_true.2 ⟨d, hd, hd'⟩)] at helig
  rw [(List.mem_filter.1 helig).2] at hsource
  cases hsource

/-! ## Leaving candidates out -/

/-- If one of the lowest is kept, the lowest are those that are kept. -/
theorem lowest_filter (hc : c ∈ lowest candidates) (hkeep : keep c = true) :
    lowest (candidates.filter keep) = (lowest candidates).filter keep := by
  obtain ⟨hmem, hlowest⟩ := List.mem_filter.1 hc
  have hle : ∀ d ∈ candidates, c.rank ≤ d.rank :=
    fun d hd => of_decide_eq_true (List.all_eq_true.1 hlowest d hd)
  rw [lowest, lowest, List.filter_filter, List.filter_filter]
  refine List.filter_congr fun d _ => ?_
  rw [Bool.and_comm]
  by_cases hd : keep d = true
  · simp only [hd, Bool.true_and]
    rw [Bool.eq_iff_iff, List.all_eq_true, List.all_eq_true]
    constructor
    · intro h e he
      have hdc : d.rank ≤ c.rank :=
        of_decide_eq_true (h c (List.mem_filter.2 ⟨hmem, hkeep⟩))
      exact decide_eq_true (hdc.trans (hle e he))
    · exact fun h e he => h e (List.mem_filter.1 he).1
  · simp [hd]

/-- If one of those to choose from is kept, the choice is between those of them that are kept. -/
theorem eligible_filter (hc : c ∈ eligible candidates) (hkeep : keep c = true) :
    eligible (candidates.filter keep) = (eligible candidates).filter keep := by
  by_cases hany : candidates.any onSource = true
  · rw [eligible, if_pos hany] at hc
    obtain ⟨hmem, hsource⟩ := List.mem_filter.1 hc
    have hkept : (candidates.filter keep).any onSource = true :=
      List.any_eq_true.2 ⟨c, List.mem_filter.2 ⟨hmem, hkeep⟩, hsource⟩
    rw [eligible, eligible, if_pos hany, if_pos hkept, List.filter_comm]
  · have hnone : ∀ d ∈ candidates, d.onSource = false := by
      simpa [List.any_eq_false] using hany
    rw [eligible_of_forall hnone,
      eligible_of_forall fun d hd => hnone d (List.mem_filter.1 hd).1]

/-- If one of the best is kept, the best are those that are kept. -/
theorem best_filter (hc : c ∈ best candidates) (hkeep : keep c = true) :
    best (candidates.filter keep) = (best candidates).filter keep := by
  rw [best, eligible_filter (List.mem_filter.1 hc).1 hkeep]
  exact lowest_filter hc hkeep

/-- **The one that wins** also wins among fewer, if it is kept. -/
theorem Wins.filter (h : Wins candidates c) (hkeep : keep c = true) :
    Wins (candidates.filter keep) c := by
  cases h with
  | onHead hmem hhead htarget =>
      exact .onHead (List.mem_filter.2 ⟨hmem, hkeep⟩) hhead
        fun d hd => htarget d (List.mem_filter.1 hd).1
  | best h =>
      have hc : c ∈ Candidate.best candidates := h ▸ List.mem_singleton_self c
      refine .best ?_
      rw [best_filter hc hkeep, h, List.filter_cons_of_pos hkeep, List.filter_nil]
  | bestOnHead h =>
      have hc : c ∈ Candidate.best candidates :=
        (List.mem_filter.1 (h ▸ List.mem_singleton_self c)).1
      refine .bestOnHead ?_
      rw [best_filter hc hkeep, List.filter_comm, h, List.filter_cons_of_pos hkeep, List.filter_nil]

/-- If none wins, then at least two are the best. -/
theorem exists_two_best_of_not_wins (hne : candidates ≠ []) (h : ∀ c, ¬ Wins candidates c) :
    ∃ a b rest, best candidates = a :: b :: rest := by
  obtain ⟨c, hc⟩ := exists_mem_best hne
  match hbest : best candidates with
  | [] =>
      rw [hbest] at hc
      cases hc
  | [a] => exact absurd (.best hbest) (h a)
  | a :: b :: rest => exact ⟨a, b, rest, rfl⟩

/-- All of the best that are on the head word are then on its source word, so that they stay if
these do. -/
theorem onHead_best_of_not_wins (h : ∀ c, ¬ Wins candidates c)
    (hheads : ∀ d ∈ candidates, d.onSource = true → d.onHead = true → keep d = true) :
    ((best candidates).filter keep).filter onHead = (best candidates).filter onHead := by
  rw [List.filter_filter]
  refine List.filter_congr fun d hd => ?_
  cases hhead : d.onHead with
  | false => rfl
  | true =>
      rw [Bool.true_and]
      refine hheads d (best_sublist.subset hd) ?_ hhead
      -- If it were not, it would win, being on the head word.
      by_contra hsource
      rw [Bool.not_eq_true] at hsource
      exact h d (.onHead (best_sublist.subset hd) hhead (onSource_of_mem_best hd hsource))

/-- **If none wins**, this is because of two candidates: none wins among fewer either, as long as
these two are kept and all that stand on the source word of the head. -/
theorem exists_pair_of_not_wins (hne : candidates ≠ []) (h : ∀ c, ¬ Wins candidates c) :
    ∃ a ∈ candidates, ∃ b ∈ candidates, ∀ keep : Candidate → Bool,
      keep a = true → keep b = true →
      (∀ d ∈ candidates, d.onSource = true → d.onHead = true → keep d = true) →
      candidates.filter keep ≠ [] ∧ ∀ c, ¬ Wins (candidates.filter keep) c := by
  obtain ⟨a, b, rest, hbest⟩ := exists_two_best_of_not_wins hne h
  have ha : a ∈ best candidates := hbest ▸ List.mem_cons_self
  have hb : b ∈ best candidates := hbest ▸ List.mem_cons_of_mem _ List.mem_cons_self
  have hmem : a ∈ candidates := best_sublist.subset ha
  refine ⟨a, hmem, b, best_sublist.subset hb, fun keep hka hkb hheads => ?_⟩
  have hkept : a ∈ candidates.filter keep := List.mem_filter.2 ⟨hmem, hka⟩
  refine ⟨List.ne_nil_of_mem hkept, fun c hc => ?_⟩
  -- Whichever way one wins among fewer, it wins among all of them.
  cases hc with
  | onHead hc hhead htarget =>
      have hnone := onSource_of_mem_best ha (htarget a hkept)
      exact h c (.onHead (List.mem_filter.1 hc).1 hhead hnone)
  | best hsingle =>
      rw [best_filter ha hka, hbest, List.filter_cons_of_pos hka, List.filter_cons_of_pos hkb]
        at hsingle
      cases hsingle
  | bestOnHead hsingle =>
      rw [best_filter ha hka, onHead_best_of_not_wins h hheads] at hsingle
      exact h c (.bestOnHead hsingle)

end Candidate

/-! ## The provider among some occurrences -/

section Providers

variable {members : List (Occurrence × Nat)} {m : Occurrence × Nat}

/-- The candidates that some occurrences are. -/
def candidatesOf (members : List (Occurrence × Nat)) : List Candidate :=
  members.map fun m => m.1.candidate

theorem lowest_candidatesOf :
    Candidate.lowest (candidatesOf members) = candidatesOf (lowest members) := by
  rw [Candidate.lowest, candidatesOf, List.filter_map, candidatesOf, lowest]
  refine congrArg _ (List.filter_congr fun m _ => ?_)
  rw [Function.comp_apply, List.all_map]
  rfl

theorem onHead_candidatesOf :
    (candidatesOf members).filter Candidate.onHead =
      candidatesOf (members.filter fun m => m.1.onHead) := by
  rw [candidatesOf, List.filter_map]
  rfl

theorem onSource_candidatesOf :
    (candidatesOf members).filter Candidate.onSource =
      candidatesOf (members.filter fun m => m.1.site == .source) := by
  rw [candidatesOf, List.filter_map]
  rfl

/-- What is picked is the only one of the lowest, or the only one of them on the head word. -/
theorem lowest_of_pickRanked? (h : pickRanked? members = some m) :
    Candidate.lowest (candidatesOf members) = [m.1.candidate] ∨
      (Candidate.lowest (candidatesOf members)).filter Candidate.onHead = [m.1.candidate] := by
  rw [lowest_candidatesOf, onHead_candidatesOf]
  unfold pickRanked? at h
  split at h
  · next hsingle =>
    cases h
    exact .inl (congrArg candidatesOf hsingle)
  · split at h
    · next hsingle =>
      cases h
      exact .inr (congrArg candidatesOf hsingle)
    · cases h

/-- If none is picked, neither of the two is unique. -/
theorem lowest_of_pickRanked?_eq_none (h : pickRanked? members = none) (c : Candidate) :
    Candidate.lowest (candidatesOf members) ≠ [c] ∧
      (Candidate.lowest (candidatesOf members)).filter Candidate.onHead ≠ [c] := by
  rw [lowest_candidatesOf, onHead_candidatesOf]
  unfold pickRanked? at h
  split at h
  · cases h
  · next hseveral =>
    split at h
    · cases h
    · next hundecided =>
      refine ⟨fun hsingle => ?_, fun hsingle => ?_⟩
      · obtain ⟨m, hm, -⟩ := List.map_eq_singleton_iff.1 hsingle
        exact hseveral m hm
      · obtain ⟨m, hm, -⟩ := List.map_eq_singleton_iff.1 hsingle
        exact hundecided m hm

/-- If there are occurrences on source words, the provider is picked among them. -/
theorem provider?_of_source {source : List (Occurrence × Nat)}
    (hsource : members.filter (fun m => m.1.site == .source) = source) (hne : source ≠ []) :
    (∃ c ∈ candidatesOf members, c.onSource = true) ∧
      Candidate.best (candidatesOf members) = Candidate.lowest (candidatesOf source) ∧
      provider? members = pickRanked? source := by
  obtain ⟨m, hm⟩ := List.exists_mem_of_ne_nil _ hne
  obtain ⟨hmem, honSource⟩ := List.mem_filter.1 (hsource ▸ hm)
  have hany : ∃ c ∈ candidatesOf members, c.onSource = true :=
    ⟨m.1.candidate, List.mem_map_of_mem hmem, honSource⟩
  refine ⟨hany, ?_, ?_⟩
  · rw [Candidate.best, Candidate.eligible, if_pos (List.any_eq_true.2 hany),
      onSource_candidatesOf, hsource]
  · unfold provider?
    rw [hsource]
    cases source with
    | nil => exact absurd rfl hne
    | cons m source => rfl

/-- If there are none, occurrences on the head word come first. -/
theorem provider?_of_target (htarget : members.filter (fun m => m.1.site == .source) = []) :
    (∀ c ∈ candidatesOf members, c.onSource = false) ∧
      Candidate.best (candidatesOf members) = Candidate.lowest (candidatesOf members) ∧
      provider? members =
        ((members.find? fun m => m.1.onHead && m.1.site == .word) <|>
          (members.find? fun m => m.1.onHead && m.1.site.isAffix) <|> pickRanked? members) := by
  have hnone : ∀ c ∈ candidatesOf members, c.onSource = false := by
    intro c hc
    obtain ⟨m, hm, rfl⟩ := List.mem_map.1 hc
    exact Bool.eq_false_iff.2 (List.filter_eq_nil_iff.1 htarget m hm)
  refine ⟨hnone, congrArg Candidate.lowest (Candidate.eligible_of_forall hnone), ?_⟩
  unfold provider?
  rw [htarget]

/-- What is not on a source word is on a target word or on an affix of one. -/
theorem Site.word_or_isAffix {site : Site} (h : (site == .source) = false) :
    (site == .word) = true ∨ site.isAffix = true := by
  cases site with
  | source => cases h
  | word => exact .inl rfl
  | affix index => exact .inr rfl

/-- The provider is a candidate that wins. -/
theorem wins_of_provider? (h : provider? members = some m) :
    Candidate.Wins (candidatesOf members) m.1.candidate := by
  by_cases hsource : members.filter (fun m => m.1.site == .source) = []
  · obtain ⟨hnone, hbest, heq⟩ := provider?_of_target hsource
    -- An occurrence that is found on the head word wins at once.
    have hfound : ∀ p : Site → Bool,
        (members.find? fun m => m.1.onHead && p m.1.site) = some m →
          Candidate.Wins (candidatesOf members) m.1.candidate := by
      intro p hp
      have hhead := List.find?_some hp
      rw [Bool.and_eq_true] at hhead
      exact .onHead (List.mem_map_of_mem (List.mem_of_find?_eq_some hp)) hhead.1 hnone
    rw [heq, Option.orElse_eq_some, Option.orElse_eq_some] at h
    rcases h with hword | ⟨-, haffix | ⟨-, hpicked⟩⟩
    · exact hfound (· == .word) hword
    · exact hfound Site.isAffix haffix
    · rcases lowest_of_pickRanked? hpicked with hsingle | hsingle
      · exact .best (hbest.trans hsingle)
      · exact .bestOnHead (hbest ▸ hsingle)
  · obtain ⟨-, hbest, heq⟩ := provider?_of_source rfl hsource
    rcases lowest_of_pickRanked? (heq ▸ h) with hsingle | hsingle
    · exact .best (hbest.trans hsingle)
    · exact .bestOnHead (hbest ▸ hsingle)

/-- **Without a provider** no candidate wins. -/
theorem not_wins_of_provider?_eq_none (h : provider? members = none) (c : Candidate) :
    ¬ Candidate.Wins (candidatesOf members) c := by
  intro hwins
  by_cases hsource : members.filter (fun m => m.1.site == .source) = []
  · obtain ⟨hnone, hbest, heq⟩ := provider?_of_target hsource
    rw [heq, Option.orElse_eq_none, Option.orElse_eq_none] at h
    obtain ⟨hword, haffix, hpicked⟩ := h
    obtain ⟨hlowest, honHead⟩ := lowest_of_pickRanked?_eq_none hpicked c
    cases hwins with
    | onHead hmem hhead _ =>
        obtain ⟨m, hm, rfl⟩ := List.mem_map.1 hmem
        rcases Site.word_or_isAffix (hnone _ hmem) with hsite | hsite
        · exact List.find?_eq_none.1 hword m hm (Bool.and_eq_true_iff.2 ⟨hhead, hsite⟩)
        · exact List.find?_eq_none.1 haffix m hm (Bool.and_eq_true_iff.2 ⟨hhead, hsite⟩)
    | best hsingle => exact hlowest (hbest ▸ hsingle)
    | bestOnHead hsingle => exact honHead (hbest ▸ hsingle)
  · obtain ⟨⟨d, hd, honSource⟩, hbest, heq⟩ := provider?_of_source rfl hsource
    obtain ⟨hlowest, honHead⟩ := lowest_of_pickRanked?_eq_none (heq ▸ h) c
    cases hwins with
    | onHead _ _ htarget =>
        rw [htarget d hd] at honSource
        cases honSource
    | best hsingle => exact hlowest (hbest ▸ hsingle)
    | bestOnHead hsingle => exact honHead (hbest ▸ hsingle)

end Providers

end TransferRules.Compile

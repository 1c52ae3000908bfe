import TransferRules.Proofs.Compile.Permutation
import TransferRules.Proofs.Ordered.Related

/-!
# Which occurrence provides a value

The value of a match label comes from one of the occurrences that carry it.  Those on source words
come first.  Without them, the first feature of the head word itself counts, or else the first one
of its affixes; and if none is on the head word, all of them compete.  Occurrences compete by their
rankings, and of several that are equally good one wins if it is the only one on the head word.  If
none wins, the rule is ambiguous.

All this is said here for any order in which occurrences may compete.  The order that is meant puts
every occurrence with a ranking before those without one.  The compiler counts no ranking as the
highest one there is, so it follows this order as long as no occurrence has just that ranking.

## Main Definitions

* `Occurrence.NotAfter` — the order that is meant; `Occurrence.RankLe` is that of the compiler
* `IsPicked`, `IsFirst` — how an occurrence wins among candidates
* `IsProvider` — the occurrence that provides the value of a match label
* `Rule.ResolvesBy` — a rule is resolved by an order

## Main Statements

* `provider?_eq_some_iff` — the provider of a match label
* `Rule.resolvesBy_of_byRank` — by which orders rules are resolved
* `Rule.resolvesBy_rankings` — how rules are resolved, and when this is as it is meant
* `Rule.not_resolvesBy_notAfter_highestRanked` — the highest ranking does not beat no ranking
-/

namespace TransferRules.Compile

open TransferRules.Ordered

/-- One occurrence does not come after another: if the other one has a ranking, so has this one, and
it is not higher. -/
def Occurrence.NotAfter (o o' : Occurrence) : Prop :=
  ∀ n, o'.feature.ranking = some n → ∃ m, o.feature.ranking = some m ∧ m ≤ n

/-- The order by rank, in which no ranking counts as the highest one. -/
def Occurrence.RankLe (o o' : Occurrence) : Prop := o.rank ≤ o'.rank

/-- The two orders are the same unless the highest ranking is compared with no ranking. -/
theorem Occurrence.notAfter_iff {o o' : Occurrence}
    (ho : ∀ n, o.feature.ranking = some n → n ≤ lastRank)
    (ho' : ∀ n, o'.feature.ranking = some n → n ≤ lastRank)
    (hlast : o.feature.ranking = none → o'.feature.ranking ≠ some lastRank) :
    o.NotAfter o' ↔ o.rank ≤ o'.rank := by
  unfold NotAfter rank
  cases hranking : o.feature.ranking with
  | none =>
      cases hranking' : o'.feature.ranking with
      | none => simp
      | some n =>
          have hn : n ≠ lastRank := fun h => hlast hranking (h ▸ hranking')
          simpa using Nat.lt_of_le_of_ne (ho' n hranking') hn
  | some m =>
      cases hranking' : o'.feature.ranking with
      | none => simpa using ho m hranking
      | some n => simp

section Order

/-- A candidate that comes after no other one. -/
structure IsBest (le : Occurrence → Occurrence → Prop) (candidates : List (Occurrence × Nat))
    (c : Occurrence × Nat) : Prop where
  mem : c ∈ candidates
  le : ∀ d ∈ candidates, le c.1 d.1

/-- The candidate that is picked: the best one, or of several the only one on the head word. -/
inductive IsPicked (le : Occurrence → Occurrence → Prop) (candidates : List (Occurrence × Nat))
    (c : Occurrence × Nat) : Prop
  | single (best : IsBest le candidates c) (only : ∀ d, IsBest le candidates d → d = c)
  | onHead (best : IsBest le candidates c) (head : c.1.onHead = true)
      (only : ∀ d, IsBest le candidates d → d.1.onHead = true → d = c)

/-- The first of some occurrences with a property. -/
structure IsFirst (p : Occurrence → Prop) (members : List (Occurrence × Nat))
    (c : Occurrence × Nat) : Prop where
  mem : c ∈ members
  holds : p c.1
  first : ∀ d ∈ members, p d.1 → c.2 ≤ d.2

/-- The provider among the occurrences with one match label. -/
inductive IsProvider (le : Occurrence → Occurrence → Prop) (members : List (Occurrence × Nat))
    (c : Occurrence × Nat) : Prop
  /-- Those on source words come first. -/
  | source (picked : IsPicked le (members.filter fun d => d.1.site == .source) c)
  /-- Then the features of the head word. -/
  | headWord (target : ∀ d ∈ members, d.1.site ≠ .source)
      (first : IsFirst (fun o => o.onHead = true ∧ o.site = .word) members c)
  /-- Then those of its affixes. -/
  | headAffix (target : ∀ d ∈ members, d.1.site ≠ .source)
      (noWord : ∀ d ∈ members, d.1.onHead = true → d.1.site ≠ .word)
      (first : IsFirst (fun o => o.onHead = true ∧ o.site.isAffix = true) members c)
  /-- Then all. -/
  | other (target : ∀ d ∈ members, d.1.site ≠ .source)
      (others : ∀ d ∈ members, d.1.onHead = false) (picked : IsPicked le members c)

variable {le : Occurrence → Occurrence → Prop} {members candidates : List (Occurrence × Nat)}
  {c : Occurrence × Nat}

theorem IsPicked.mem (h : IsPicked le members c) : c ∈ members := by
  cases h with
  | single hbest _ => exact hbest.mem
  | onHead hbest _ _ => exact hbest.mem

theorem IsProvider.mem (h : IsProvider le members c) : c ∈ members := by
  cases h with
  | source hpicked => exact List.mem_of_mem_filter hpicked.mem
  | headWord _ hfirst => exact hfirst.mem
  | headAffix _ _ hfirst => exact hfirst.mem
  | other _ _ hpicked => exact hpicked.mem

/-- An order that is that of the ranks, as far as some occurrences are concerned. -/
def ByRank (le : Occurrence → Occurrence → Prop) (members : List (Occurrence × Nat)) : Prop :=
  ∀ c ∈ members, ∀ d ∈ members, le c.1 d.1 ↔ c.1.rank ≤ d.1.rank

/-- The occurrences stand in the order of their places. -/
def InPlace (members : List (Occurrence × Nat)) : Prop := members.Pairwise fun c d => c.2 < d.2

theorem ByRank.sublist (h : ByRank le members) (hsub : candidates.Sublist members) :
    ByRank le candidates :=
  fun c hc d hd => h c (hsub.subset hc) d (hsub.subset hd)

theorem InPlace.nodup (h : InPlace members) : members.Nodup := by
  refine List.Pairwise.imp (fun {c d} hlt heq => ?_) h
  rw [heq] at hlt
  exact Nat.lt_irrefl _ hlt

/-! ## Candidates -/

theorem mem_lowest_iff (hle : ByRank le candidates) :
    c ∈ lowest candidates ↔ IsBest le candidates c := by
  rw [lowest, List.mem_filter, List.all_eq_true]
  constructor
  · rintro ⟨hmem, hall⟩
    exact ⟨hmem, fun d hd => (hle c hmem d hd).2 (of_decide_eq_true (hall d hd))⟩
  · rintro ⟨hmem, hall⟩
    exact ⟨hmem, fun d hd => decide_eq_true ((hle c hmem d hd).1 (hall d hd))⟩

/-- **What is picked** is the best candidate, or the only one of the best on the head word. -/
theorem pickRanked?_eq_some_iff (hle : ByRank le candidates) (hnodup : candidates.Nodup) :
    pickRanked? candidates = some c ↔ IsPicked le candidates c := by
  have hlow : (lowest candidates).Nodup := hnodup.sublist List.filter_sublist
  have hlowest : ∀ d, lowest candidates = [d] ↔
      IsBest le candidates d ∧ ∀ e, IsBest le candidates e → e = d := by
    intro d
    rw [eq_singleton_iff hlow]
    simp only [mem_lowest_iff hle]
  have hheads : ∀ d, ((lowest candidates).filter fun e => e.1.onHead) = [d] ↔
      (IsBest le candidates d ∧ d.1.onHead = true) ∧
        ∀ e, IsBest le candidates e → e.1.onHead = true → e = d := by
    intro d
    rw [eq_singleton_iff (hlow.filter _)]
    simp only [List.mem_filter, mem_lowest_iff hle, and_imp]
  unfold pickRanked?
  split
  · next d hd =>
    obtain ⟨hbest, honly⟩ := (hlowest d).1 hd
    constructor
    · rintro ⟨⟩
      exact .single hbest honly
    · rintro (⟨hbest', -⟩ | ⟨hbest', -, -⟩)
      · rw [honly c hbest']
      · rw [honly c hbest']
  · next hseveral =>
    split
    · next d hd =>
      obtain ⟨⟨hbest, hhead⟩, honly⟩ := (hheads d).1 hd
      constructor
      · rintro ⟨⟩
        exact .onHead hbest hhead honly
      · rintro (⟨hbest', honly'⟩ | ⟨hbest', hhead', -⟩)
        · exact absurd ((hlowest c).2 ⟨hbest', honly'⟩) (hseveral c)
        · rw [honly c hbest' hhead']
    · next hundecided =>
      refine ⟨nofun, ?_⟩
      rintro (⟨hbest', honly'⟩ | ⟨hbest', hhead', honly'⟩)
      · exact absurd ((hlowest c).2 ⟨hbest', honly'⟩) (hseveral c)
      · exact absurd ((hheads c).2 ⟨⟨hbest', hhead'⟩, honly'⟩) (hundecided c)

/-- What is found in a list of occurrences is the first of its kind. -/
theorem find?_eq_some_iff_isFirst (hplaces : InPlace members) {p : Occurrence → Bool}
    {q : Occurrence → Prop} (hp : ∀ o, p o = true ↔ q o) :
    (members.find? fun d => p d.1) = some c ↔ IsFirst q members c := by
  rw [List.find?_eq_some_iff_append]
  constructor
  · rintro ⟨hc, before, after, rfl, hbefore⟩
    refine ⟨List.mem_append_right _ List.mem_cons_self, (hp _).1 hc, fun d hd hq => ?_⟩
    rcases List.mem_append.1 hd with hd | hd
    · exact absurd ((hp _).2 hq) (by simpa using hbefore d hd)
    · rcases List.mem_cons.1 hd with rfl | hd
      · exact Nat.le_refl _
      · exact ((List.pairwise_cons.1 (List.pairwise_append.1 hplaces).2.1).1 d hd).le
  · rintro ⟨hmem, hq, hfirst⟩
    obtain ⟨before, after, rfl⟩ := List.append_of_mem hmem
    refine ⟨(hp _).2 hq, before, after, rfl, fun d hd => ?_⟩
    have hlt : d.2 < c.2 := (List.pairwise_append.1 hplaces).2.2 d hd c List.mem_cons_self
    rw [Bool.not_eq_true', ← Bool.not_eq_true, hp]
    exact fun hd' => Nat.lt_irrefl _ (hlt.trans_le (hfirst d (List.mem_append_left _ hd) hd'))

/-! ## Providers -/

/-- **The provider of a match label** is chosen on the source words, on the head word, on its
affixes, or among all. -/
theorem provider?_eq_some_iff (hle : ByRank le members) (hplaces : InPlace members) :
    provider? members = some c ↔ IsProvider le members c := by
  have hpick : ∀ {candidates : List (Occurrence × Nat)}, candidates.Sublist members →
      (pickRanked? candidates = some c ↔ IsPicked le candidates c) :=
    fun hsub => pickRanked?_eq_some_iff (hle.sublist hsub) (hplaces.nodup.sublist hsub)
  have hword : ∀ o : Occurrence, (o.onHead && o.site == .word) = true ↔
      o.onHead = true ∧ o.site = .word := fun o => by simp
  have haffix : ∀ o : Occurrence, (o.onHead && o.site.isAffix) = true ↔
      o.onHead = true ∧ o.site.isAffix = true := fun o => by simp
  by_cases hsource : members.filter (fun d => d.1.site == .source) = []
  · have htarget : ∀ d ∈ members, d.1.site ≠ .source := by
      intro d hd hsite
      exact List.filter_eq_nil_iff.1 hsource d hd (beq_iff_eq.2 hsite)
    rw [(provider?_of_target hsource).2.2, Option.orElse_eq_some, Option.orElse_eq_some,
      find?_eq_some_iff_isFirst hplaces hword, find?_eq_some_iff_isFirst hplaces haffix,
      hpick (.refl _), List.find?_eq_none, List.find?_eq_none]
    constructor
    · rintro (hfirst | ⟨hnoWord, hfirst | ⟨hnoAffix, hpicked⟩⟩)
      · exact .headWord htarget hfirst
      · exact .headAffix htarget (fun d hd hhead hsite => hnoWord d hd ((hword _).2 ⟨hhead, hsite⟩))
          hfirst
      · refine .other htarget (fun d hd => Bool.eq_false_iff.2 fun hhead => ?_) hpicked
        rcases Site.word_or_isAffix (beq_eq_false_iff_ne.2 (htarget d hd)) with hsite | hsite
        · exact hnoWord d hd (Bool.and_eq_true_iff.2 ⟨hhead, hsite⟩)
        · exact hnoAffix d hd (Bool.and_eq_true_iff.2 ⟨hhead, hsite⟩)
    · rintro (hpicked | ⟨-, hfirst⟩ | ⟨-, hnoWord, hfirst⟩ | ⟨-, hothers, hpicked⟩)
      · rw [hsource] at hpicked
        rcases hpicked with ⟨⟨hmem, -⟩, -⟩ | ⟨⟨hmem, -⟩, -, -⟩ <;> cases hmem
      · exact .inl hfirst
      · refine .inr ⟨fun d hd hfound => ?_, .inl hfirst⟩
        exact hnoWord d hd ((hword _).1 hfound).1 ((hword _).1 hfound).2
      · refine .inr ⟨fun d hd hfound => ?_, .inr ⟨fun d hd hfound => ?_, hpicked⟩⟩
        · exact Bool.eq_false_iff.1 (hothers d hd) ((hword _).1 hfound).1
        · exact Bool.eq_false_iff.1 (hothers d hd) ((haffix _).1 hfound).1
  · obtain ⟨d, hd⟩ := List.exists_mem_of_ne_nil _ hsource
    have hsite : d.1.site = .source := beq_iff_eq.1 (List.mem_filter.1 hd).2
    have hnot : ¬ ∀ d ∈ members, d.1.site ≠ .source :=
      fun htarget => htarget d (List.mem_filter.1 hd).1 hsite
    rw [(provider?_of_source rfl hsource).2.2, hpick List.filter_sublist]
    constructor
    · exact .source
    · rintro (hpicked | ⟨htarget, -⟩ | ⟨htarget, -, -⟩ | ⟨htarget, -, -⟩)
      · exact hpicked
      · exact absurd htarget hnot
      · exact absurd htarget hnot
      · exact absurd htarget hnot

end Order

end TransferRules.Compile

/-! ## Rules -/

namespace TransferRules.Rule

open TransferRules.Compile
open TransferRules.Ordered

variable {r : Rule} {le : Occurrence → Occurrence → Prop} {label : String}

/-- The occurrences of a rule with a match label, with their places. -/
def members (r : Rule) (label : String) : List (Occurrence × Nat) :=
  r.occurrences.zipIdx.filter fun c => c.1.label? == some label

/-- A rule is resolved by an order: by the providers of its match labels if all have one, and
otherwise it is ambiguous because of the first label that has none.  Before that a rule is refused
if a word has two features with the same ranking. -/
structure ResolvesBy (r : Rule) (le : Occurrence → Occurrence → Prop) : Prop where
  ok (resolution : Resolution) : r.resolve = .ok resolution ↔
    r.rankingTie? = none ∧ resolution.occurrences = r.occurrences ∧
      List.Forall₂ (fun label p =>
          p.label = label ∧ IsProvider le (r.members label) (p.occurrence, p.index))
        (labelsOf r.occurrences) resolution.providers
  ambiguous (name label : String) : r.resolve = .error (.ambiguousBinding name label) ↔
    r.rankingTie? = none ∧ name = r.name ∧ ∃ before after,
      labelsOf r.occurrences = before ++ label :: after ∧
        (∀ earlier ∈ before, ∃ c, IsProvider le (r.members earlier) c) ∧
        ∀ c, ¬ IsProvider le (r.members label) c

theorem inPlace_members (r : Rule) (label : String) : InPlace (r.members label) :=
  (pairwise_zipIdx r.occurrences).filter _

/-- What is chosen for a match label. -/
def choice (r : Rule) (label : String) : Except Issue Provider :=
  match provider? (r.members label) with
  | some (occurrence, index) => .ok ⟨label, occurrence, index⟩
  | none => .error (.ambiguousBinding r.name label)

theorem choice_eq_ok_iff (hle : ByRank le (r.members label)) {p : Provider} :
    r.choice label = .ok p ↔
      p.label = label ∧ IsProvider le (r.members label) (p.occurrence, p.index) := by
  rw [← provider?_eq_some_iff hle (r.inPlace_members label), choice]
  cases provider? (r.members label) with
  | none => exact ⟨nofun, fun h => nomatch h.2⟩
  | some c =>
      constructor
      · rintro ⟨⟩
        exact ⟨rfl, rfl⟩
      · rintro ⟨rfl, ⟨⟩⟩
        rfl

theorem choice_eq_error_iff (hle : ByRank le (r.members label)) {issue : Issue} :
    r.choice label = .error issue ↔
      issue = .ambiguousBinding r.name label ∧ ∀ c, ¬ IsProvider le (r.members label) c := by
  simp only [← provider?_eq_some_iff hle (r.inPlace_members label)]
  rw [choice]
  cases provider? (r.members label) with
  | none => exact ⟨fun h => ⟨(Except.error.inj h).symm, nofun⟩, fun h => h.1 ▸ rfl⟩
  | some c => exact ⟨nofun, fun h => absurd rfl (h.2 c)⟩

theorem providersOf_eq (r : Rule) :
    providersOf r.name r.occurrences = (labelsOf r.occurrences).mapM r.choice :=
  rfl

/-- A tie of rankings is an issue of its own. -/
theorem ne_ambiguous_of_rankingTie? {issue : Issue} (h : r.rankingTie? = some issue)
    (name label : String) : issue ≠ .ambiguousBinding name label := by
  obtain ⟨w, -, hw⟩ := List.exists_of_findSome?_eq_some h
  obtain ⟨ranking, -, rfl⟩ := Option.map_eq_some_iff.1 hw
  nofun

theorem mem_occurrences_of_mem_members {c : Occurrence × Nat} (h : c ∈ r.members label) :
    c.1 ∈ r.occurrences :=
  List.fst_mem_of_mem_zipIdx (List.mem_filter.1 h).1

/-- All match labels have their providers. -/
theorem choices_eq_ok_iff (hrank : ∀ label, ByRank le (r.members label))
    {providers : List Provider} :
    (labelsOf r.occurrences).mapM r.choice = .ok providers ↔
      List.Forall₂ (fun label p =>
          p.label = label ∧ IsProvider le (r.members label) (p.occurrence, p.index))
        (labelsOf r.occurrences) providers := by
  rw [mapM_eq_ok_iff]
  simp only [choice_eq_ok_iff (hrank _)]

/-- Or there is a first one without a provider. -/
theorem choices_eq_error_iff (hrank : ∀ label, ByRank le (r.members label)) {name : String} :
    (labelsOf r.occurrences).mapM r.choice = .error (.ambiguousBinding name label) ↔
      name = r.name ∧ ∃ before after, labelsOf r.occurrences = before ++ label :: after ∧
        (∀ earlier ∈ before, ∃ c, IsProvider le (r.members earlier) c) ∧
        ∀ c, ¬ IsProvider le (r.members label) c := by
  rw [mapM_eq_error_iff]
  simp only [choice_eq_ok_iff (hrank _), choice_eq_error_iff (hrank _)]
  constructor
  · rintro ⟨before, _, after, hlabels, hbefore, ⟨⟩, hnone⟩
    refine ⟨rfl, before, after, hlabels, fun earlier hearlier => ?_, hnone⟩
    obtain ⟨p, -, hp⟩ := hbefore earlier hearlier
    exact ⟨_, hp⟩
  · rintro ⟨rfl, before, after, hlabels, hbefore, hnone⟩
    refine ⟨before, label, after, hlabels, fun earlier hearlier => ?_, rfl, hnone⟩
    obtain ⟨c, hc⟩ := hbefore earlier hearlier
    exact ⟨⟨earlier, c.1, c.2⟩, rfl, hc⟩

/-- **A rule is resolved by any order** that is that of the ranks for each match label. -/
theorem resolvesBy_of_byRank (hrank : ∀ label, ByRank le (r.members label)) : r.ResolvesBy le := by
  cases htie : r.rankingTie? with
  | some issue =>
      have hresolve : r.resolve = .error issue := by rw [resolve, htie]
      refine ⟨fun resolution => ?_, fun name label => ?_⟩
      · rw [hresolve, htie]
        constructor
        · intro h
          cases h
        · rintro ⟨h, -⟩
          cases h
      · rw [hresolve, htie]
        constructor
        · exact fun h => absurd (Except.error.inj h) (ne_ambiguous_of_rankingTie? htie name label)
        · rintro ⟨h, -⟩
          cases h
  | none =>
      have hresolve := resolve_of_rankingTie?_eq_none htie
      rw [providersOf_eq] at hresolve
      refine ⟨fun resolution => ?_, fun name label => ?_⟩
      · rw [hresolve, htie, ← choices_eq_ok_iff hrank]
        cases (labelsOf r.occurrences).mapM r.choice with
        | error issue =>
            constructor
            · intro h
              cases h
            · rintro ⟨-, -, h⟩
              cases h
        | ok providers =>
            constructor
            · rintro ⟨⟩
              exact ⟨rfl, rfl, rfl⟩
            · rintro ⟨-, hoccurrences, ⟨⟩⟩
              rw [← hoccurrences]
              rfl
      · rw [hresolve, htie, ← choices_eq_error_iff hrank]
        cases (labelsOf r.occurrences).mapM r.choice with
        | error issue =>
            refine ⟨fun h => ⟨rfl, congrArg _ (Except.error.inj h)⟩, fun h => ?_⟩
            exact congrArg _ (Except.error.inj h.2)
        | ok providers =>
            constructor
            · intro h
              cases h
            · rintro ⟨-, h⟩
              cases h

/-- In a rule that is resolved every match label has its own provider, which is an occurrence of the
rule with this label. -/
theorem resolve_eq_ok {resolution : Resolution} (h : r.resolve = .ok resolution) :
    resolution.occurrences = r.occurrences ∧
      resolution.providers.map Provider.label = labelsOf r.occurrences ∧
      ∀ p ∈ resolution.providers, p.occurrence ∈ r.occurrences ∧
        p.occurrence.label? = some p.label := by
  have hby : r.ResolvesBy Occurrence.RankLe := resolvesBy_of_byRank fun _ _ _ _ _ => Iff.rfl
  obtain ⟨-, hoccurrences, hproviders⟩ := (hby.ok resolution).1 h
  refine ⟨hoccurrences, ?_, fun p hp => ?_⟩
  · refine (List.forall₂_eq_eq_eq.le _ _ ?_).symm
    rw [List.forall₂_map_right_iff]
    exact hproviders.imp fun label p hp => hp.1.symm
  · obtain ⟨label, -, rfl, hprovider⟩ := exists_of_forall₂_of_mem hproviders hp
    obtain ⟨hmem, hlabel⟩ := List.mem_filter.1 hprovider.mem
    exact ⟨List.fst_mem_of_mem_zipIdx hmem, beq_iff_eq.1 hlabel⟩

/-- **How rules are resolved.**  They are resolved by rank, so that no ranking counts as the highest
one.  Rankings go up to this one; as long as no match label has an occurrence with it beside one
without a ranking, rules are resolved by the order that is meant. -/
theorem resolvesBy_rankings (r : Rule) :
    r.ResolvesBy Occurrence.RankLe ∧
      ((∀ o ∈ r.occurrences, ∀ n, o.feature.ranking = some n → n ≤ lastRank) →
        (∀ label, ∀ c ∈ r.members label, ∀ d ∈ r.members label,
          c.1.feature.ranking = some lastRank → d.1.feature.ranking ≠ none) →
        r.ResolvesBy Occurrence.NotAfter) := by
  refine ⟨resolvesBy_of_byRank fun _ _ _ _ _ => Iff.rfl, fun hrange hlast => ?_⟩
  refine resolvesBy_of_byRank fun label c hc d hd => ?_
  exact Occurrence.notAfter_iff (hrange _ (mem_occurrences_of_mem_members hc))
    (hrange _ (mem_occurrences_of_mem_members hd))
    fun hnone hhighest => hlast label d hd c hc hhighest hnone

/-- A noun with a determiner and an adjective that agree in number, without a word about the noun:
the determiner has a ranking, and the adjective none. -/
def rankedPhrase (ranking : Nat) : Rule where
  name := "noun phrase"
  source := [⟨"1", some "det", []⟩, ⟨"2", some "adj", []⟩, ⟨"3", some "n", []⟩]
  target :=
    [{ id := "1", affixes := [⟨.after, [⟨"number", .agreement "α", some ranking, none⟩]⟩] },
      { id := "2", affixes := [⟨.after, [⟨"number", .agreement "α", none, none⟩]⟩] },
      { id := "3", isHead := true }]

/-- A ranking below the highest one beats no ranking, as it is meant: the determiner provides the
number. -/
theorem resolvesBy_rankings_rankedPhrase :
    (rankedPhrase 7).ResolvesBy Occurrence.NotAfter ∧
      (rankedPhrase 7).resolve.map (fun r =>
        r.providers.map fun p => (p.label, p.occurrence.wordId)) = .ok [("α", "1")] := by
  have hnotLast : ∀ o ∈ (rankedPhrase 7).occurrences, o.feature.ranking ≠ some lastRank := by
    decide +kernel
  refine ⟨(resolvesBy_rankings (rankedPhrase 7)).2 (by decide +kernel)
    fun label c hc d _ hlast => ?_, by decide +kernel⟩
  exact absurd hlast (hnotLast _ (mem_occurrences_of_mem_members hc))

/-! ## The highest ranking -/

/-- The determiner has the highest ranking there is. -/
def highestRanked : Rule := rankedPhrase lastRank

/-- **The highest ranking does not beat no ranking.**  The determiner should provide the number, but
the rule is ambiguous. -/
theorem not_resolvesBy_notAfter_highestRanked :
    (∃ c, c.1.wordId = "1" ∧ IsProvider Occurrence.NotAfter (highestRanked.members "α") c) ∧
      highestRanked.resolve = .error (.ambiguousBinding "noun phrase" "α") ∧
      ¬ highestRanked.ResolvesBy Occurrence.NotAfter := by
  let det : Occurrence :=
    ⟨"1", 1, "det", "det", false, .affix 0, some 0, ⟨"number", .agreement "α", some lastRank, none⟩⟩
  let adj : Occurrence :=
    ⟨"2", 2, "adj", "adj", false, .affix 0, some 1, ⟨"number", .agreement "α", none, none⟩⟩
  have hmembers : highestRanked.members "α" = [(det, 0), (adj, 1)] := by decide +kernel
  have hresolve : highestRanked.resolve = .error (.ambiguousBinding "noun phrase" "α") := by
    decide +kernel
  have hbest : IsBest Occurrence.NotAfter [(det, 0), (adj, 1)] (det, 0) := by
    refine ⟨List.mem_cons_self, fun d hd n hn => ?_⟩
    rcases List.mem_pair.1 hd with rfl | rfl
    · exact ⟨n, hn, Nat.le_refl n⟩
    · cases hn
  have hprovider : IsProvider Occurrence.NotAfter (highestRanked.members "α") (det, 0) := by
    rw [hmembers]
    refine .other (by decide) (by decide) (.single hbest fun d hd => ?_)
    rcases List.mem_pair.1 hd.mem with rfl | rfl
    · rfl
    · obtain ⟨m, hm, -⟩ := hd.le (det, 0) List.mem_cons_self lastRank rfl
      cases hm
  refine ⟨⟨_, rfl, hprovider⟩, hresolve, fun h => ?_⟩
  obtain ⟨-, -, before, after, -, -, hnone⟩ := (h.ambiguous _ _).1 hresolve
  exact hnone _ hprovider

end TransferRules.Rule

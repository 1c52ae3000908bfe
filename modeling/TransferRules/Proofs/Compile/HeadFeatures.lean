import TransferRules.Proofs.Compile.Reordering

/-!
# The features of the head word

The head word chooses no lemma, so a feature of its own is only good for providing a value.  It
provides the value of its match label if no source word carries the label and no earlier feature of
the word does.  The value is of use if an affix carries the label too, or a word that is not the
head.  A feature that does not provide a value is idle, and a feature that provides nothing of use
is unused.

The compiler looks at providers only, so the features that it takes for ignored are those that are
idle, and not all that are unused.

## Main Definitions

* `Rule.sourceLabels`, `Rule.Consumes` — where a match label may stand
* `Rule.providedLabel?` — the match label that a feature of the head word provides
* `Rule.idleFeatures`, `Rule.unusedFeatures` — the features that provide nothing, or nothing of use

## Main Statements

* `Rule.isConsumed_iff` — which match labels are of use
* `Rule.provides_iff` — which features of the head word provide a value
* `Rule.ignoredFeatures_eq` — the compiler ignores the features that are idle
* `Rule.idleFeatures_eq_unusedFeatures_iff` — when these are all that are unused
-/

namespace TransferRules

/-- Whether an address is on a part of a word. -/
def Compile.Address.isOn (a : Address) (id : String) (site : Site) : Bool :=
  a.wordId == id && a.site == site

namespace Rule

open TransferRules.Compile

/-- The match labels of the source phrase. -/
def sourceLabels (r : Rule) : List String :=
  r.source.flatMap fun w => w.features.filterMap fun f => f.binding.label?

/-- The value of a match label is used for the output: by an affix, or by a word that is not the
head. -/
def Consumes (r : Rule) (label : String) : Prop :=
  ∃ w ∈ r.target, (w.isHead = false ∧ ∃ f ∈ w.features, f.binding.label? = some label) ∨
    ∃ affix ∈ w.affixes, ∃ f ∈ affix.features, f.binding.label? = some label

instance (r : Rule) (label : String) : Decidable (r.Consumes label) :=
  inferInstanceAs (Decidable (∃ w ∈ r.target, _))

/-- The match label whose value a feature of the head word provides: its own, unless a source word
or an earlier feature of the head word has it too. -/
def providedLabel? (r : Rule) (head : TargetWord) (entry : Feature × Nat) : Option String :=
  entry.1.binding.label?.filter fun label =>
    decide (label ∉ r.sourceLabels ∧
      ∀ f ∈ head.features.take entry.2, f.binding.label? ≠ some label)

/-- The features of the head word that provide no value. -/
def idleFeatures (r : Rule) (head : TargetWord) : List Feature :=
  (head.features.zipIdx.filter fun entry => (r.providedLabel? head entry).isNone).map Prod.fst

/-- The features of the head word that provide no value that is of use. -/
def unusedFeatures (r : Rule) (head : TargetWord) : List Feature :=
  (head.features.zipIdx.filter fun entry =>
    (r.providedLabel? head entry).all fun label => !decide (r.Consumes label)).map Prod.fst

variable {r : Rule} {head : TargetWord} {label : String}

theorem providedLabel?_eq_some_iff {entry : Feature × Nat} :
    r.providedLabel? head entry = some label ↔
      entry.1.binding.label? = some label ∧ label ∉ r.sourceLabels ∧
        ∀ f ∈ head.features.take entry.2, f.binding.label? ≠ some label := by
  rw [providedLabel?, Option.filter_eq_some_iff, decide_eq_true_iff]

/-! ## Where match labels stand -/

/-- What some occurrence is for the choice of a provider, some entry is. -/
theorem exists_candidate_iff (h : r.Identified) {p : Candidate → Prop} :
    (∃ o ∈ r.occurrences, p o.candidate) ↔ ∃ entry ∈ r.addressed, p (r.candidateAt entry) := by
  have hmem : ∀ c, (∃ o ∈ r.occurrences, o.candidate = c) ↔
      ∃ entry ∈ r.addressed, r.candidateAt entry = c := by
    have hfirst := congrArg (List.map Prod.fst) (standing_eq h)
    rw [List.map_map, List.map_map] at hfirst
    intro c
    exact List.mem_map.symm.trans ((iff_of_eq (congrArg (c ∈ ·) hfirst)).trans List.mem_map)
  constructor
  · rintro ⟨o, ho, hp⟩
    obtain ⟨entry, hentry, heq⟩ := (hmem o.candidate).1 ⟨o, ho, rfl⟩
    exact ⟨entry, hentry, heq ▸ hp⟩
  · rintro ⟨entry, hentry, hp⟩
    obtain ⟨o, ho, heq⟩ := (hmem (r.candidateAt entry)).2 ⟨entry, hentry, rfl⟩
    exact ⟨o, ho, heq ▸ hp⟩

/-- In a well-formed rule all target words have entries. -/
theorem addressed_eq (h : r.WellFormed) :
    r.addressed =
      r.source.flatMap SourceWord.addressed ++ r.target.flatMap TargetWord.addressed := by
  refine congrArg _ (List.flatMap_congr fun w hw => ?_)
  obtain ⟨position, hposition, -⟩ := h.exists_position hw
  rw [addressedOf, hposition, Option.isSome_some, if_pos rfl]

theorem mem_addressed_iff (h : r.WellFormed) {entry : Address × Feature} :
    entry ∈ r.addressed ↔
      (∃ w ∈ r.source, entry ∈ w.addressed) ∨ ∃ w ∈ r.target, entry ∈ w.addressed := by
  rw [addressed_eq h, List.mem_append, List.mem_flatMap, List.mem_flatMap]

/-- The match labels of the source phrase are those of the occurrences on source words. -/
theorem mem_sourceLabels_iff (h : r.WellFormed) :
    label ∈ r.sourceLabels ↔ ∃ o ∈ r.occurrences, o.site = .source ∧ o.label? = some label := by
  refine Iff.trans ?_ (exists_candidate_iff h.toIdentified
    (p := fun c => c.site = .source ∧ c.label? = some label)).symm
  simp only [sourceLabels, List.mem_flatMap, List.mem_filterMap, mem_addressed_iff h]
  constructor
  · rintro ⟨w, hw, f, hf, hlabel⟩
    obtain ⟨place, hplace⟩ := List.mem_iff_getElem?.1 hf
    refine ⟨(⟨w.id, .source, place⟩, f), .inl ⟨w, hw, List.mem_map.2 ⟨(f, place), ?_, rfl⟩⟩,
      rfl, hlabel⟩
    exact List.mem_filter.2 ⟨List.mem_zipIdx_iff_getElem?.2 hplace, congrArg Option.isSome hlabel⟩
  · rintro ⟨entry, ⟨w, hw, hentry⟩ | ⟨w, -, hentry⟩, hsite, hlabel⟩
    · obtain ⟨⟨f, place⟩, hf, rfl⟩ := List.mem_map.1 hentry
      exact ⟨w, hw, f, List.fst_mem_of_mem_zipIdx (List.mem_filter.1 hf).1, hlabel⟩
    · have horder := order_of_mem_addressed hentry
      rw [show entry.1.site = .source from hsite] at horder
      exact absurd horder (Nat.lt_irrefl 0)

theorem isConsumer_iff {o : Occurrence} :
    o.isConsumer = true ↔ o.site ≠ .source ∧ (o.site = .word → o.onHead = false) := by
  unfold Occurrence.isConsumer
  cases o.site with
  | source => simp
  | word => simp
  | affix index => simp

/-- **A match label is consumed** just if its value is used for the output. -/
theorem isConsumed_iff (h : r.WellFormed) :
    isConsumed r.occurrences label = true ↔ r.Consumes label := by
  have hentries : isConsumed r.occurrences label = true ↔ ∃ entry ∈ r.addressed,
      entry.2.binding.label? = some label ∧ entry.1.site ≠ .source ∧
        (entry.1.site = .word → (r.head?.map TargetWord.id == some entry.1.wordId) = false) := by
    refine Iff.trans ?_ (exists_candidate_iff h.toIdentified (p := fun c =>
      c.label? = some label ∧ c.site ≠ .source ∧ (c.site = .word → c.onHead = false)))
    simp only [isConsumed, List.any_eq_true, Bool.and_eq_true, beq_iff_eq, isConsumer_iff]
    rfl
  simp only [hentries, mem_addressed_iff h]
  constructor
  · rintro ⟨entry, ⟨w, -, hentry⟩ | ⟨w, hw, hentry⟩, hlabel, hsite, hhead⟩
    · exact absurd (site_of_mem_addressed_source hentry).2 hsite
    · rcases List.mem_append.1 hentry with hentry | hentry
      · obtain ⟨⟨f, place⟩, hf, rfl⟩ := List.mem_map.1 hentry
        refine ⟨w, hw, .inl ⟨?_, f, List.fst_mem_of_mem_zipIdx hf, hlabel⟩⟩
        rw [h.isHead_eq hw]
        exact hhead rfl
      · obtain ⟨⟨affix, index⟩, haffix, hentry⟩ := List.mem_flatMap.1 hentry
        obtain ⟨⟨f, place⟩, hf, rfl⟩ := List.mem_map.1 hentry
        exact ⟨w, hw, .inr ⟨affix, List.fst_mem_of_mem_zipIdx haffix, f,
          List.fst_mem_of_mem_zipIdx hf, hlabel⟩⟩
  · rintro ⟨w, hw, ⟨hhead, f, hf, hlabel⟩ | ⟨affix, haffix, f, hf, hlabel⟩⟩
    · obtain ⟨place, hplace⟩ := List.mem_iff_getElem?.1 hf
      refine ⟨(⟨w.id, .word, place⟩, f), .inr ⟨w, hw, List.mem_append_left _ ?_⟩, hlabel, nofun,
        fun _ => (h.isHead_eq hw).symm.trans hhead⟩
      exact List.mem_map.2 ⟨(f, place), List.mem_zipIdx_iff_getElem?.2 hplace, rfl⟩
    · obtain ⟨index, hindex⟩ := List.mem_iff_getElem?.1 haffix
      obtain ⟨place, hplace⟩ := List.mem_iff_getElem?.1 hf
      refine ⟨(⟨w.id, .affix index, place⟩, f), .inr ⟨w, hw, List.mem_append_right _ ?_⟩, hlabel,
        nofun, nofun⟩
      refine List.mem_flatMap.2 ⟨(affix, index), List.mem_zipIdx_iff_getElem?.2 hindex, ?_⟩
      exact List.mem_map.2 ⟨(f, place), List.mem_zipIdx_iff_getElem?.2 hplace, rfl⟩

/-! ## The head word -/

section Head

variable {f : Feature} {place i : Nat} {o : Occurrence}

theorem mem_target_of_head? (hhead : r.head? = some head) : head ∈ r.target :=
  List.mem_of_find?_eq_some hhead

/-- The entries of the head word itself are its features. -/
theorem mem_addressed_head_iff (h : r.WellFormed) (hhead : r.head? = some head) :
    (⟨head.id, .word, place⟩, f) ∈ r.addressed ↔ head.features[place]? = some f := by
  have hmem := mem_target_of_head? hhead
  constructor
  · intro hentry
    have hfound : (r.target.find? fun w => w.id == head.id) = some head :=
      Ordered.find?_key_eq h.targetIds hmem
    have hfeature : (((r.target.find? fun w => w.id == head.id).map fun w =>
        w.featuresOn .word).getD [])[place]? = some f :=
      featureAt?_of_mem_addressed h.toIdentified hentry
    rwa [hfound] at hfeature
  · intro hplace
    refine (mem_addressed_iff h).2 (.inr ⟨head, hmem, List.mem_append_left _ ?_⟩)
    exact List.mem_map.2 ⟨(f, place), List.mem_zipIdx_iff_getElem?.2 hplace, rfl⟩

/-- An occurrence on the head word itself is one of its features. -/
theorem exists_place (h : r.WellFormed) (hhead : r.head? = some head)
    (ho : r.occurrences[i]? = some o) (hon : o.onHead = true) (hword : o.site = .word) :
    ∃ place, r.addressed[i]? = some (⟨head.id, .word, place⟩, o.feature) ∧
      head.features[place]? = some o.feature := by
  obtain ⟨⟨id, site, place⟩, hentry, hcandidate⟩ := exists_entry h.toIdentified ho
  obtain rfl : site = .word := (congrArg Candidate.site hcandidate).symm.trans hword
  have hid : (r.head?.map TargetWord.id == some id) = true :=
    (congrArg Candidate.onHead hcandidate).symm.trans hon
  rw [hhead, Option.map_some, beq_iff_eq, Option.some.injEq] at hid
  obtain rfl := hid
  exact ⟨place, hentry, (mem_addressed_head_iff h hhead).1 (List.mem_of_getElem? hentry)⟩

/-- A feature of the head word is an occurrence on the head word itself. -/
theorem exists_head_occurrence (h : r.WellFormed) (hhead : r.head? = some head)
    (hplace : head.features[place]? = some f) :
    ∃ (i : Nat) (o : Occurrence), r.addressed[i]? = some (⟨head.id, .word, place⟩, f) ∧
      r.occurrences[i]? = some o ∧ o.feature = f ∧ o.onHead = true ∧ o.site = .word := by
  obtain ⟨i, hentry⟩ :=
    List.mem_iff_getElem?.1 ((mem_addressed_head_iff h hhead).2 hplace)
  obtain ⟨o, ho, hfeature, hcandidate⟩ := exists_occurrence h.toIdentified hentry
  refine ⟨i, o, hentry, ho, hfeature, ?_, congrArg Candidate.site hcandidate⟩
  refine (congrArg Candidate.onHead hcandidate).trans ?_
  rw [candidateAt, hhead, Option.map_some]
  exact beq_self_eq_true _

/-- What stands on the head word itself is one of its features. -/
theorem exists_feature_of_standsAt (h : r.WellFormed) (hhead : r.head? = some head) {p : Provider}
    (hstands : r.StandsAt p ⟨head.id, .word, place⟩) : ∃ f, head.features[place]? = some f := by
  obtain ⟨⟨a, f⟩, hentry, heq⟩ := Option.map_eq_some_iff.1 hstands.address
  obtain rfl : a = ⟨head.id, .word, place⟩ := heq
  exact ⟨f, (mem_addressed_head_iff h hhead).1 (List.mem_of_getElem? hentry)⟩

/-- **A feature of the head word** is the provider of a match label just if it provides its
value. -/
theorem isProvider_head_iff (h : r.WellFormed) (hhead : r.head? = some head)
    (hentry : r.addressed[i]? = some (⟨head.id, .word, place⟩, o.feature))
    (ho : r.occurrences[i]? = some o) (hon : o.onHead = true) (hword : o.site = .word) :
    IsProvider Occurrence.RankLe (r.members label) (o, i) ↔
      r.providedLabel? head (o.feature, place) = some label := by
  rw [providedLabel?_eq_some_iff, mem_sourceLabels_iff h]
  constructor
  · intro hprovider
    have hlabel : o.label? = some label := (mem_members_iff.1 hprovider.mem).2
    cases hprovider with
    | source hpicked =>
        have hsite : o.site = .source := beq_iff_eq.1 (List.mem_filter.1 hpicked.mem).2
        rw [hword] at hsite
        cases hsite
    | headWord htarget hfirst =>
        refine ⟨hlabel, ?_, fun g hg hg' => ?_⟩
        · rintro ⟨o', ho', hsite, hlabel'⟩
          obtain ⟨j, hj⟩ := List.mem_iff_getElem?.1 ho'
          exact htarget (o', j) (mem_members_iff.2 ⟨hj, hlabel'⟩) hsite
        · -- an earlier feature with the label would come first
          obtain ⟨k, hk, hgk⟩ := List.mem_take_iff_getElem.1 hg
          obtain ⟨j, o', hentry', hj, rfl, hon', hword'⟩ :=
            exists_head_occurrence h hhead (List.getElem?_eq_some_iff.2 ⟨_, hgk⟩)
          have hle : i ≤ j := hfirst.first (o', j) (mem_members_iff.2 ⟨hj, hg'⟩) ⟨hon', hword'⟩
          have hbefore : Address.Before ⟨head.id, .word, k⟩ ⟨head.id, .word, place⟩ :=
            .inr ⟨rfl, (Nat.lt_min.1 hk).1⟩
          exact absurd ((before_iff h.toIdentified hentry' hentry rfl).1 hbefore) (Nat.not_lt.2 hle)
    | headAffix _ _ hfirst =>
        have haffix : o.site.isAffix = true := hfirst.holds.2
        rw [hword] at haffix
        cases haffix
    | other _ hothers hpicked =>
        have hoff : o.onHead = false := hothers _ hpicked.mem
        rw [hon] at hoff
        cases hoff
  · rintro ⟨hlabel, hsource, hearlier⟩
    refine .headWord (fun d hd hsite => ?_) ⟨mem_members_iff.2 ⟨ho, hlabel⟩, ⟨hon, hword⟩, ?_⟩
    · exact hsource ⟨d.1, mem_occurrences_of_mem_members hd, hsite, (mem_members_iff.1 hd).2⟩
    · rintro d hd ⟨hon', hword'⟩
      obtain ⟨hj, hlabel'⟩ := mem_members_iff.1 hd
      obtain ⟨k, hentry', hk⟩ := exists_place h hhead hj hon' hword'
      refine Nat.not_lt.1 fun hlt => ?_
      rcases (before_iff h.toIdentified hentry' hentry rfl).2 hlt with horder | ⟨-, hlt'⟩
      · exact Nat.lt_irrefl _ horder
      · obtain ⟨hbound, hget⟩ := List.getElem?_eq_some_iff.1 hk
        refine hearlier d.1.feature ?_ hlabel'
        exact List.mem_take_iff_getElem.2 ⟨k, Nat.lt_min.2 ⟨hlt', hbound⟩, hget⟩

variable {resolution : Resolution}

/-- The providers are what is chosen for the match labels. -/
theorem mem_providers_iff (hr : r.resolve = .ok resolution) {p : Provider} :
    p ∈ resolution.providers ↔
      IsProvider Occurrence.RankLe (r.members p.label) (p.occurrence, p.index) := by
  have hps : providersOf r.name r.occurrences = .ok resolution.providers := by
    have hresolve := resolve_of_rankingTie?_eq_none (rankingTie?_of_resolve hr)
    rw [hr] at hresolve
    cases hfound : providersOf r.name r.occurrences with
    | error issue =>
        rw [hfound] at hresolve
        cases hresolve
    | ok ps =>
        rw [hfound] at hresolve
        cases hresolve
        rfl
  have hchoice : r.choice p.label = .ok p ↔
      IsProvider Occurrence.RankLe (r.members p.label) (p.occurrence, p.index) :=
    choice_eq_ok_iff_isProvider.trans (and_iff_right rfl)
  refine ⟨fun hp => hchoice.1 (choice_of_mem_providersOf hps hp).2.1, fun hprovider => ?_⟩
  obtain ⟨ho, hlabel⟩ := mem_members_iff.1 hprovider.mem
  refine mem_providersOf_of_choice hps ?_ (hchoice.2 hprovider)
  exact List.mem_eraseDups.2 (List.mem_filterMap.2 ⟨_, List.mem_of_getElem? ho, hlabel⟩)

/-- **Which features of the head word provide a value**: the provider of a match label stands on
the head word just if the feature there provides its value. -/
theorem provides_iff (h : r.WellFormed) (hr : r.resolve = .ok resolution)
    (hhead : r.head? = some head) (hplace : head.features[place]? = some f) :
    (∃ p ∈ resolution.providers, p.label = label ∧ r.StandsAt p ⟨head.id, .word, place⟩) ↔
      r.providedLabel? head (f, place) = some label := by
  obtain ⟨i, o, hentry, ho, rfl, hon, hword⟩ := exists_head_occurrence h hhead hplace
  rw [← isProvider_head_iff h hhead hentry ho hon hword]
  constructor
  · rintro ⟨p, hp, rfl, hstands⟩
    obtain ⟨entry, hentry', heq⟩ := Option.map_eq_some_iff.1 hstands.address
    obtain rfl : p.index = i := addressed_inj h.toIdentified hentry' hentry heq
    obtain rfl : p.occurrence = o := Option.some.inj (hstands.occurrence.symm.trans ho)
    exact (mem_providers_iff hr).1 hp
  · intro hprovider
    have hstands : r.StandsAt ⟨label, o, i⟩ ⟨head.id, .word, place⟩ :=
      standsAt_of_entry (p := ⟨label, o, i⟩) h.toIdentified ho hentry
    exact ⟨_, (mem_providers_iff hr).2 hprovider, rfl, hstands⟩

/-- Whether the place of a feature of the head word is that of a provider. -/
theorem provides_eq (h : r.WellFormed) (hr : r.resolve = .ok resolution)
    (hhead : r.head? = some head)
    (hentry : r.addressed[i]? = some (⟨head.id, .word, place⟩, f)) :
    resolution.provides i = (r.providedLabel? head (f, place)).isSome := by
  have hplace := (mem_addressed_head_iff h hhead).1 (List.mem_of_getElem? hentry)
  rw [Bool.eq_iff_iff, Option.isSome_iff_exists, Resolution.provides, List.any_eq_true]
  simp only [← provides_iff h hr hhead hplace, beq_iff_eq]
  constructor
  · rintro ⟨p, hp, rfl⟩
    have ho := (mem_members_iff.1 ((mem_providers_iff hr).1 hp).mem).1
    exact ⟨p.label, p, hp, rfl, standsAt_of_entry h.toIdentified ho hentry⟩
  · rintro ⟨-, p, hp, -, hstands⟩
    obtain ⟨entry, hentry', heq⟩ := Option.map_eq_some_iff.1 hstands.address
    exact ⟨p, hp, addressed_inj h.toIdentified hentry' hentry heq⟩

/-! ## Ignored features -/

theorem filter_addressed_source (words : List SourceWord) (id : String) :
    ((words.flatMap SourceWord.addressed).filter fun entry => entry.1.isOn id .word) = [] := by
  refine List.filter_eq_nil_iff.2 fun entry hentry hmatch => ?_
  obtain ⟨w, -, hentry⟩ := List.mem_flatMap.1 hentry
  have hsite : entry.1.site = .word := beq_iff_eq.1 (Bool.and_eq_true_iff.1 hmatch).2
  rw [(site_of_mem_addressed_source hentry).2] at hsite
  cases hsite

theorem filter_addressed_self (w : TargetWord) :
    (w.addressed.filter fun entry => entry.1.isOn w.id .word) =
      w.addressedOn .word w.features := by
  rw [TargetWord.addressed, List.filter_append, List.filter_eq_self.2, List.filter_eq_nil_iff.2,
    List.append_nil]
  · intro entry hentry hmatch
    obtain ⟨affix, -, hentry⟩ := List.mem_flatMap.1 hentry
    obtain ⟨f, -, rfl⟩ := List.mem_map.1 hentry
    cases (Bool.and_eq_true_iff.1 hmatch).2
  · intro entry hentry
    obtain ⟨f, -, rfl⟩ := List.mem_map.1 hentry
    exact Bool.and_eq_true_iff.2 ⟨beq_self_eq_true _, rfl⟩

theorem filter_addressed_others {words : List TargetWord} {id : String}
    (h : ∀ w ∈ words, w.id ≠ id) :
    ((words.flatMap TargetWord.addressed).filter fun entry => entry.1.isOn id .word) = [] := by
  refine List.filter_eq_nil_iff.2 fun entry hentry hmatch => ?_
  obtain ⟨w, hw, hentry⟩ := List.mem_flatMap.1 hentry
  refine h w hw ?_
  rw [← wordId_of_mem_addressed hentry]
  exact beq_iff_eq.1 (Bool.and_eq_true_iff.1 hmatch).1

/-- The entries of the head word itself stand together. -/
theorem filter_addressed_head (h : r.WellFormed) (hhead : r.head? = some head) :
    (r.addressed.filter fun entry => entry.1.isOn head.id .word) =
      head.addressedOn .word head.features := by
  obtain ⟨before, after, htarget⟩ := List.append_of_mem (mem_target_of_head? hhead)
  have hids := h.targetIds
  rw [htarget, List.map_append, List.map_cons] at hids
  have hothers : ∀ w ∈ before ++ after, w.id ≠ head.id := by
    intro w hw hid
    refine (List.nodup_cons.1 (List.nodup_middle.1 hids)).1 ?_
    rw [← List.map_append, ← hid]
    exact List.mem_map_of_mem hw
  rw [addressed_eq h, List.filter_append, filter_addressed_source, List.nil_append, htarget,
    List.flatMap_append, List.flatMap_cons, List.filter_append, List.filter_append,
    filter_addressed_others fun w hw => hothers w (List.mem_append_left _ hw),
    filter_addressed_others fun w hw => hothers w (List.mem_append_right _ hw),
    filter_addressed_self, List.nil_append, List.append_nil]

/-- What is chosen from two lists is the same if the choice looks only at what is the same. -/
theorem map_filter_eq_of_map_eq {α β γ δ : Type} {l : List α} {l' : List β} {f : α → γ} {g : β → γ}
    (h : l.map f = l'.map g) (p : γ → Bool) (q : γ → δ) :
    (l.filter (p ∘ f)).map (q ∘ f) = (l'.filter (p ∘ g)).map (q ∘ g) := by
  rw [← List.map_map, ← List.filter_map, h, List.filter_map, List.map_map]

/-- **The features that the compiler ignores** are the idle features of the head word. -/
theorem ignoredFeatures_eq (h : r.WellFormed) (hr : r.resolve = .ok resolution)
    (hhead : r.head? = some head) :
    ignoredFeatures r.name resolution =
      (r.idleFeatures head).map fun f => .ignoredHeadFeature r.name head.id f.label := by
  have hoccurrences : resolution.occurrences = r.occurrences := (resolve_eq_ok hr).1
  have hstanding := congrArg List.zipIdx (standing_eq h.toIdentified)
  rw [List.zipIdx_map, List.zipIdx_map] at hstanding
  let issue (entry : Address × Feature) : Issue :=
    .ignoredHeadFeature r.name entry.1.wordId entry.2.label
  let idle (entry : Address × Feature) : Bool :=
    (r.providedLabel? head (entry.2, entry.1.place)).isNone
  have hon : ∀ entry, (r.candidateAt entry).onHead = (entry.1.wordId == head.id) := by
    intro entry
    rw [candidateAt, hhead, Option.map_some, Bool.eq_iff_iff, beq_iff_eq, beq_iff_eq,
      Option.some.injEq, eq_comm]
  calc ignoredFeatures r.name resolution
    _ = (r.addressed.zipIdx.filter fun c => (r.candidateAt c.1).onHead &&
          c.1.1.site == .word && !resolution.provides c.2).map fun c => issue c.1 := by
        rw [ignoredFeatures, hoccurrences]
        exact map_filter_eq_of_map_eq hstanding
          (fun c => c.1.1.onHead && c.1.1.site == .word && !resolution.provides c.2)
          (fun c => Issue.ignoredHeadFeature r.name c.1.1.wordId c.1.2.label)
    _ = (r.addressed.zipIdx.filter fun c => idle c.1 && c.1.1.isOn head.id .word).map fun c =>
          issue c.1 := by
        refine congrArg (List.map _) (List.filter_congr fun c hc => ?_)
        obtain ⟨⟨⟨id, site, place⟩, f⟩, i⟩ := c
        rw [hon, Bool.and_comm (idle _)]
        -- what is not on the head word itself is left out on both sides
        cases hself : (⟨id, site, place⟩ : Address).isOn head.id .word with
        | false => exact congrArg (· && _) hself
        | true =>
            obtain ⟨hid, hsite⟩ := Bool.and_eq_true_iff.1 hself
            obtain rfl : id = head.id := beq_iff_eq.1 hid
            obtain rfl : site = .word := beq_iff_eq.1 hsite
            have hentry := List.mem_zipIdx_iff_getElem?.1 hc
            rw [provides_eq h hr hhead hentry, Option.not_isSome]
            exact congrArg (· && _) hself
    _ = (r.addressed.filter fun entry => idle entry && entry.1.isOn head.id .word).map issue :=
        map_filter_eq_of_map_eq (g := id) ((List.zipIdx_map_fst 0 _).trans (List.map_id _).symm)
          (fun entry => idle entry && entry.1.isOn head.id .word) issue
    _ = ((head.addressedOn .word head.features).filter idle).map issue := by
        rw [← List.filter_filter, filter_addressed_head h hhead]
    _ = (r.idleFeatures head).map fun f => .ignoredHeadFeature r.name head.id f.label := by
        rw [TargetWord.addressedOn, List.filter_map, List.map_map, idleFeatures, List.map_map]
        rfl

end Head

/-! ## Idle and unused features -/

/-- What provides nothing provides nothing of use. -/
theorem filter_idle_sublist (r : Rule) (head : TargetWord) :
    (head.features.zipIdx.filter fun entry => (r.providedLabel? head entry).isNone).Sublist
      (head.features.zipIdx.filter fun entry =>
        (r.providedLabel? head entry).all fun label => !decide (r.Consumes label)) := by
  refine List.monotone_filter_right _ fun entry hidle => ?_
  rw [Option.isNone_iff_eq_none.1 hidle]
  rfl

/-- So an idle feature is unused. -/
theorem idleFeatures_sublist (r : Rule) (head : TargetWord) :
    (r.idleFeatures head).Sublist (r.unusedFeatures head) :=
  (r.filter_idle_sublist head).map Prod.fst

/-- **No other feature is unused** if every value that the head word provides is of use. -/
theorem idleFeatures_eq_unusedFeatures_iff :
    r.idleFeatures head = r.unusedFeatures head ↔
      ∀ place f, head.features[place]? = some f →
        ∀ label, r.providedLabel? head (f, place) = some label → r.Consumes label := by
  constructor
  · intro heq place f hplace label hlabel
    by_contra hunused
    -- otherwise the feature is among the unused ones, which are as many as the idle ones
    have hlength := congrArg List.length heq
    rw [idleFeatures, unusedFeatures, List.length_map, List.length_map] at hlength
    have hfilter := (r.filter_idle_sublist head).eq_of_length hlength
    have hmem : (f, place) ∈ head.features.zipIdx.filter fun entry =>
        (r.providedLabel? head entry).all fun label => !decide (r.Consumes label) := by
      refine List.mem_filter.2 ⟨List.mem_zipIdx_iff_getElem?.2 hplace, ?_⟩
      rw [hlabel, Option.all_some, decide_eq_false hunused]
      rfl
    rw [← hfilter] at hmem
    have hidle := (List.mem_filter.1 hmem).2
    rw [hlabel] at hidle
    cases hidle
  · intro hconsumed
    refine congrArg (List.map Prod.fst) (List.filter_congr fun entry hentry => ?_)
    cases hlabel : r.providedLabel? head entry with
    | none => rfl
    | some label =>
        have huse := hconsumed entry.2 entry.1 (List.mem_zipIdx_iff_getElem?.1 hentry) label hlabel
        rw [Option.all_some, decide_eq_true huse]
        rfl

/-- The values that the head word provides are of use if the match labels of the providers on it
are consumed. -/
theorem consumes_provided_iff (h : r.WellFormed) {resolution : Resolution}
    (hr : r.resolve = .ok resolution) (hhead : r.head? = some head) :
    (∀ place f, head.features[place]? = some f →
        ∀ label, r.providedLabel? head (f, place) = some label → r.Consumes label) ↔
      ∀ p ∈ resolution.providers, ∀ place, r.StandsAt p ⟨head.id, .word, place⟩ →
        r.Consumes p.label := by
  constructor
  · intro hconsumed p hp place hstands
    obtain ⟨f, hplace⟩ := exists_feature_of_standsAt h hhead hstands
    exact hconsumed place f hplace p.label
      ((provides_iff h hr hhead hplace).1 ⟨p, hp, rfl, hstands⟩)
  · intro hconsumed place f hplace label hlabel
    obtain ⟨p, hp, rfl, hstands⟩ := (provides_iff h hr hhead hplace).2 hlabel
    exact hconsumed p hp place hstands

end Rule

end TransferRules

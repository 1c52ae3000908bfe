import TransferRules.Proofs.Compile.Comparison

/-!
# The agreement of a lemma

A word that is not the head puts out a lemma that agrees with as many of its features as possible,
counted from the lowest ranking up.  The compiler cannot know what the variables will hold, so it
lists the best lemma for every combination of the values that the lexicon has.  When the rule is
executed, a combination is met only if every variable holds the tag of a value that the lexicon has
for its feature, and no more than one is met if tags are told apart.  If a variable holds anything
else, the table has no row for it, and the word keeps its own lemma, whatever the other features
ask for.

## Main Definitions

* `RankedOrder` — an order of occurrences by their rankings
* `Comparison.Asks` — the value that a feature asks for
* `AgreesOn`, `IsRanked` — agreement with the first features, and the lemma that agrees best
* `Comparison.IsCarried` — whether a lemma carries what a feature asks for
* `TellsApart` — a reading of tags for which this is no more than one value

## Main Statements

* `rankedOrder_byRanking` — features are taken in the order of their rankings
* `isRanked_bestLemma?` — the compiler finds the lemma that agrees best
* `mem_lemmaSelections_iff`, `asks_iff` — the rows are what the features can ask for
* `tellsApart_engine` — the engine tells tags apart
* `emitLemma_ranked` — the output is the lemma that agrees best
* `emitLemma_keeps_first` — what becomes of the first feature whatever the variables hold
-/

namespace TransferRules.Compile

open TransferRules.Action
open TransferRules.Ordered
open TransferRules.Text

/-! ## The order of the features -/

/-- Occurrences are ordered by their rankings: those with a ranking in ascending order, and then
the others; occurrences with the same ranking, or none, stay in the order in which they were. -/
structure RankedOrder (occurrences ordered : List Occurrence) : Prop where
  ascending : ordered.Pairwise fun a b =>
    ∀ n, b.feature.ranking = some n → ∃ m, a.feature.ranking = some m ∧ m ≤ n
  stable : ∀ ranking, (ordered.filter fun o => o.feature.ranking == ranking) =
    occurrences.filter fun o => o.feature.ranking == ranking

theorem rankingLe_iff {a b : Option Nat} :
    rankingLe a b = true ↔ ∀ n, b = some n → ∃ m, a = some m ∧ m ≤ n := by
  cases a with
  | none => cases b <;> simp [rankingLe]
  | some m => cases b <;> simp [rankingLe]

theorem rankingLe_trans {a b c : Option Nat} (hab : rankingLe a b = true)
    (hbc : rankingLe b c = true) : rankingLe a c = true := by
  rw [rankingLe_iff] at hab hbc ⊢
  intro n hn
  obtain ⟨m, hm, hmn⟩ := hbc n hn
  obtain ⟨l, hl, hlm⟩ := hab m hm
  exact ⟨l, hl, Nat.le_trans hlm hmn⟩

theorem rankingLe_total (a b : Option Nat) : (rankingLe a b || rankingLe b a) = true := by
  cases a with
  | none => cases b <;> rfl
  | some m =>
      cases b with
      | none => rfl
      | some n => simpa [rankingLe] using Nat.le_total m n

/-- **Features are taken in the order of their rankings.** -/
theorem rankedOrder_byRanking (occurrences : List Occurrence) :
    RankedOrder occurrences (byRanking occurrences) where
  ascending := by
    refine (List.pairwise_mergeSort ?_ ?_ occurrences).imp fun h => rankingLe_iff.1 h
    · exact fun _ _ _ => rankingLe_trans
    · exact fun a b => rankingLe_total a.feature.ranking b.feature.ranking
  stable ranking := by
    -- occurrences with one ranking are in order from the start, so sorting keeps them as they are
    have hsub : (occurrences.filter fun o => o.feature.ranking == ranking).Sublist
        (byRanking occurrences) := by
      refine @List.sublist_mergeSort _ (fun a b => rankingLe a.feature.ranking b.feature.ranking)
        occurrences (fun _ _ _ => rankingLe_trans) (fun _ _ => rankingLe_total _ _) _ ?_
        List.filter_sublist
      refine List.pairwise_filter.2 (List.pairwise_of_forall fun a b ha hb => ?_)
      rw [beq_iff_eq.1 ha, beq_iff_eq.1 hb, rankingLe_iff]
      exact fun n hn => ⟨n, hn, Nat.le_refl n⟩
    have hkept := hsub.filter fun o => o.feature.ranking == ranking
    rw [List.filter_filter] at hkept
    simp only [Bool.and_self] at hkept
    refine (hkept.eq_of_length ?_).symm
    exact ((List.mergeSort_perm occurrences _).filter _).length_eq.symm

/-! ## Agreement -/

/-- The value that a feature asks for: the one that is given, or one that some form carries and
whose tag the variable holds. -/
structure Comparison.Asks (r : Reading) (contents : Contents) (forms : String → List Exponent)
    (c : Comparison) (value : String) : Prop where
  given : ∀ given, c.operand = .given given → value = given
  stored : ∀ name, c.operand = .stored name →
    contents name = r.tag value ∧ ∃ form, firstValue? (forms c.label) form = some value

/-- A form carries what a feature asks for. -/
def Comparison.IsCarried (r : Reading) (contents : Contents) (forms : String → List Exponent)
    (c : Comparison) (form : String) : Prop :=
  ∃ value, c.Asks r contents forms value ∧ firstValue? (forms c.label) form = some value

/-- The tags of the values that are compared with variables are read as different texts, so that
contents of the variables ask for one value of a feature at most. -/
def TellsApart (r : Reading) (forms : String → List Exponent) (features : List Comparison) : Prop :=
  ∀ c ∈ features, ∀ name, c.operand = .stored name → ∀ form form' value value',
    firstValue? (forms c.label) form = some value →
      firstValue? (forms c.label) form' = some value' →
        r.tag value = r.tag value' → value = value'

/-- A form agrees with the first features if it carries the values that they ask for. -/
def AgreesOn (forms : String → List Exponent) (features : List Comparison) (values : List String)
    (count : Nat) (form : String) : Prop :=
  ∀ c value, (c, value) ∈ (features.take count).zip (values.take count) →
    firstValue? (forms c.label) form = some value

/-- The form that agrees with as many features as any does, counted from the first one: the least
of several, and the word's own if no form agrees with the first feature. -/
inductive IsRanked (forms : String → List Exponent) (features : List Comparison)
    (values : List String) (own : String) : String → Prop
  | best (count : Nat) (form : String) (pos : 1 ≤ count) (le : count ≤ features.length)
      (agrees : AgreesOn forms features values count form)
      (least : ∀ other, AgreesOn forms features values count other → ¬ other < form)
      (most : ∀ more, count < more → more ≤ features.length →
        ∀ other, ¬ AgreesOn forms features values more other) :
      IsRanked forms features values own form
  | own (none : features = [] ∨ ∀ form, ¬ AgreesOn forms features values 1 form) :
      IsRanked forms features values own own

section Agreement

variable {lemmas : String → List Exponent} {features : List Comparison} {values : List String}
  {form own : String} {count : Nat} {r : Reading} {contents : Contents}

theorem agrees_iff :
    agrees form ((features.map (Comparison.usable lemmas)).take count) (values.take count) = true ↔
      AgreesOn lemmas features values count form := by
  rw [agrees, ← List.map_take, List.zip_map_left, List.all_map, List.all_eq_true]
  simp only [Function.comp_def, Prod.forall, Prod.map_fst, Prod.map_snd, id_eq, beq_iff_eq,
    Comparison.valueOf?_usable]
  rfl

/-- A lemma that agrees with some feature is among those that are looked at. -/
theorem AgreesOn.mem_lemmasOf (h : AgreesOn lemmas features values count form) (hpos : 1 ≤ count)
    (hfeatures : features ≠ []) (hlength : features.length = values.length) :
    form ∈ lemmasOf (features.map (Comparison.usable lemmas)) := by
  obtain ⟨count, rfl⟩ := Nat.exists_eq_add_of_le' hpos
  cases features with
  | nil => exact absurd rfl hfeatures
  | cons c features =>
      cases values with
      | nil => exact absurd hlength (Nat.succ_ne_zero _)
      | cons value values =>
          have hvalue : firstValue? (lemmas c.label) form = some value :=
            h c value List.mem_cons_self
          rw [lemmasOf, mem_sortStrings, List.map_cons, List.flatMap_cons, List.mem_append]
          exact .inl (c.mem_forms_usable.2 ⟨value, hvalue⟩)

/-- The search goes down from all features, so what it finds agrees with as many as possible. -/
theorem bestAmong?_eq_some {candidates : List String} (hcandidates : candidates.Pairwise (· < ·))
    {us : List Usable} (h : bestAmong? candidates us values count = some form) :
    ∃ m, 1 ≤ m ∧ m ≤ count ∧ agrees form (us.take m) (values.take m) = true ∧
      (∀ other ∈ candidates, agrees other (us.take m) (values.take m) = true → ¬ other < form) ∧
      ∀ more, m < more → more ≤ count → ∀ other ∈ candidates,
        ¬ agrees other (us.take more) (values.take more) = true := by
  induction count with
  | zero => cases h
  | succ count ih =>
      rw [bestAmong?] at h
      cases hfind : candidates.find? fun form =>
          agrees form (us.take (count + 1)) (values.take (count + 1)) with
      | some found =>
          rw [hfind] at h
          obtain rfl : found = form := Option.some.inj h
          have hagrees := List.find?_some hfind
          refine ⟨count + 1, Nat.le_add_left 1 count, Nat.le_refl _, hagrees,
            fun other hother hagrees => ?_, fun more hlt hle => absurd hle (Nat.not_le.2 hlt)⟩
          exact @least_of_find? _ id _ _ hcandidates _ hfind _ hother hagrees
      | none =>
          rw [hfind] at h
          obtain ⟨m, hpos, hle, hagrees, hleast, hmost⟩ := ih h
          refine ⟨m, hpos, Nat.le_succ_of_le hle, hagrees, hleast, fun more hlt hmore => ?_⟩
          rcases Nat.le_succ_iff.1 hmore with hmore | rfl
          · exact hmost more hlt hmore
          · exact List.find?_eq_none.1 hfind

theorem bestAmong?_eq_none {candidates : List String} {us : List Usable}
    (h : bestAmong? candidates us values count = none) {m : Nat} (hpos : 1 ≤ m) (hle : m ≤ count) :
    ∀ other ∈ candidates, ¬ agrees other (us.take m) (values.take m) = true := by
  induction count with
  | zero => exact absurd (Nat.le_trans hpos hle) (Nat.not_succ_le_zero 0)
  | succ count ih =>
      rw [bestAmong?] at h
      cases hfind : candidates.find? fun form =>
          agrees form (us.take (count + 1)) (values.take (count + 1)) with
      | some found =>
          rw [hfind] at h
          cases h
      | none =>
          rw [hfind] at h
          rcases Nat.le_succ_iff.1 hle with hle | rfl
          · exact ih h hle
          · exact List.find?_eq_none.1 hfind

/-- **The compiler finds the lemma that agrees best.** -/
theorem isRanked_bestLemma? (own : String) (hlength : features.length = values.length) :
    IsRanked lemmas features values own
      ((bestLemma? (features.map (Comparison.usable lemmas)) values).getD own) := by
  cases hbest : bestLemma? (features.map (Comparison.usable lemmas)) values with
  | some form =>
      obtain ⟨count, hpos, hle, hagrees, hleast, hmost⟩ :=
        bestAmong?_eq_some (pairwise_sortStrings _) hbest
      rw [agrees_iff] at hagrees
      rw [← hlength] at hle
      have hfeatures : features ≠ [] := by
        rintro rfl
        exact absurd (Nat.le_trans hpos hle) (Nat.not_succ_le_zero 0)
      refine .best count form hpos hle hagrees (fun other hother => ?_)
        fun more hlt hmore other hother => ?_
      · exact hleast other (hother.mem_lemmasOf hpos hfeatures hlength) (agrees_iff.2 hother)
      · have hpos' := Nat.le_trans hpos (Nat.le_of_lt hlt)
        exact hmost more hlt (hlength ▸ hmore) other (hother.mem_lemmasOf hpos' hfeatures hlength)
          (agrees_iff.2 hother)
  | none =>
      refine .own ?_
      by_cases hfeatures : features = []
      · exact .inl hfeatures
      · refine .inr fun form hform => ?_
        have hone : 1 ≤ values.length := hlength ▸ List.length_pos_iff.2 hfeatures
        exact bestAmong?_eq_none hbest (Nat.le_refl 1) hone form
          (hform.mem_lemmasOf (Nat.le_refl 1) hfeatures hlength) (agrees_iff.2 hform)

/-! ## The first feature -/

section First

variable {first : Comparison} {rest : List Comparison}

theorem agreesOn_one {value : String} :
    AgreesOn lemmas (first :: rest) (value :: values) 1 form ↔
      firstValue? (lemmas first.label) form = some value := by
  constructor
  · intro h
    exact h first value List.mem_cons_self
  · rintro h c _ hmem
    obtain ⟨rfl, rfl⟩ := Prod.mk.inj (List.mem_singleton.1 hmem)
    exact h

/-- The best lemma carries what the first feature asks for. -/
theorem isCarried_of_bestLemma?
    (hasks : List.Forall₂ (Comparison.Asks r contents lemmas) (first :: rest) values)
    (hbest : bestLemma? ((first :: rest).map (Comparison.usable lemmas)) values = some form) :
    first.IsCarried r contents lemmas form := by
  obtain ⟨value, values, hvalue, -, rfl⟩ := List.forall₂_cons_left_iff.1 hasks
  obtain ⟨count, hpos, -, hagrees, -⟩ := bestAmong?_eq_some (pairwise_sortStrings _) hbest
  obtain ⟨count, rfl⟩ := Nat.exists_eq_add_of_le' hpos
  exact ⟨value, hvalue, agrees_iff.1 hagrees first value List.mem_cons_self⟩

/-- There is a best lemma if some lemma carries what the first feature asks for. -/
theorem bestLemma?_ne_none
    (hasks : List.Forall₂ (Comparison.Asks r contents lemmas) (first :: rest) values)
    (hcarried : ∃ form, first.IsCarried r contents lemmas form) :
    bestLemma? ((first :: rest).map (Comparison.usable lemmas)) values ≠ none := by
  intro hnone
  have hlength := hasks.length_eq
  obtain ⟨value, values, hvalue, -, rfl⟩ := List.forall₂_cons_left_iff.1 hasks
  obtain ⟨form, hform⟩ : ∃ form, firstValue? (lemmas first.label) form = some value := by
    cases hoperand : first.operand with
    | stored name => exact (hvalue.stored name hoperand).2
    | given given =>
        obtain ⟨form, value', hvalue', hform⟩ := hcarried
        rw [hvalue'.given given hoperand, ← hvalue.given given hoperand] at hform
        exact ⟨form, hform⟩
  have hagrees : AgreesOn lemmas (first :: rest) (value :: values) 1 form := agreesOn_one.2 hform
  exact bestAmong?_eq_none hnone (Nat.le_refl 1) (Nat.le_add_left 1 _) form
    (hagrees.mem_lemmasOf (Nat.le_refl 1) (List.cons_ne_nil _ _) hlength) (agrees_iff.2 hagrees)

end First

/-! ## Rows -/

theorem mem_combinations_iff {us : List Usable} :
    values ∈ combinations us ↔ List.Forall₂ (fun u value =>
      (∀ given, u.operand = .given given → value = given) ∧
        ∀ name, u.operand = .stored name → value ∈ u.values) us values := by
  induction us generalizing values with
  | nil => simp [combinations]
  | cons u us ih =>
      rw [combinations, List.mem_flatMap, List.forall₂_cons_left_iff]
      simp only [List.mem_map, ih]
      constructor
      · rintro ⟨value, hvalue, rest, hrest, rfl⟩
        refine ⟨value, rest, ?_, hrest, rfl⟩
        cases hoperand : u.operand with
        | stored name =>
            rw [hoperand] at hvalue
            constructor
            · intro given h
              cases h
            · intro _ _
              exact hvalue
        | given given =>
            rw [hoperand] at hvalue
            constructor
            · intro _ h
              cases h
              exact List.mem_singleton.1 hvalue
            · intro name h
              cases h
      · rintro ⟨value, rest, ⟨hgiven, hstored⟩, hrest, rfl⟩
        refine ⟨value, ?_, rest, hrest, rfl⟩
        cases hoperand : u.operand with
        | stored name => exact hstored name hoperand
        | given given => exact List.mem_singleton.2 (hgiven given hoperand)

/-- **The rows are what the features can ask for:** a combination of values is listed and met if
the features ask for them. -/
theorem asks_iff :
    values ∈ combinations (features.map (Comparison.usable lemmas)) ∧
        (Test.all (storedEquations (features.map (Comparison.usable lemmas)) values)).isMet r
          contents = true ↔
      List.Forall₂ (Comparison.Asks r contents lemmas) features values := by
  rw [mem_combinations_iff, List.forall₂_map_left_iff, isMet_storedEquations, List.forall₂_iff_zip,
    List.forall₂_iff_zip]
  simp only [Comparison.mem_values_usable]
  constructor
  · rintro ⟨⟨hlength, hlisted⟩, hmet⟩
    refine ⟨hlength, fun {c value} hmem => ⟨(hlisted hmem).1, fun name hname => ?_⟩⟩
    exact ⟨hmet c value hmem name hname, (hlisted hmem).2 name hname⟩
  · rintro ⟨hlength, hasks⟩
    refine ⟨⟨hlength, fun {c value} hmem => ⟨(hasks hmem).given, fun name hname => ?_⟩⟩,
      fun c value hmem name hname => ?_⟩
    · exact ((hasks hmem).stored name hname).2
    · exact ((hasks hmem).stored name hname).1

theorem mem_lemmaSelections_iff {us : List Usable} :
    (values, form) ∈ lemmaSelections us ↔
      values ∈ combinations us ∧ bestLemma? us values = some form := by
  simp only [lemmaSelections, List.mem_filterMap, Option.map_eq_some_iff, Prod.mk.injEq]
  constructor
  · rintro ⟨_, hvalues, _, hform, rfl, rfl⟩
    exact ⟨hvalues, hform⟩
  · rintro ⟨hvalues, hform⟩
    exact ⟨values, hvalues, form, hform, rfl, rfl⟩

/-- The rows of the table of a word. -/
def lemmaRows (us : List Usable) : List (List String × Value) :=
  (lemmaSelections us).map fun row => (row.1, .lit row.2)

theorem lemmaSelection_eq (target : String) (position : Nat) (us : List Usable)
    (selections : List (List String × String)) :
    lemmaSelection target position us selections =
      storedTable target us (selections.map fun row => (row.1, .lit row.2))
        (.clip position .target "lem") := by
  rw [lemmaSelection, storedTable, table, List.map_map, List.map_map]
  rfl

/-- The table selects the best lemma for values that the features ask for, or if there is none the
other value. -/
theorem rowValue_lemmaRows (other : Value) :
    let us := features.map (Comparison.usable lemmas)
    (∃ values form, List.Forall₂ (Comparison.Asks r contents lemmas) features values ∧
        bestLemma? us values = some form ∧
        rowValue r contents us (lemmaRows us) other = .lit form) ∨
      (∀ values, List.Forall₂ (Comparison.Asks r contents lemmas) features values →
        bestLemma? us values = none) ∧
        rowValue r contents us (lemmaRows us) other = other := by
  intro us
  rw [rowValue, lemmaRows, List.find?_map]
  cases hfind : (lemmaSelections us).find? ((fun row =>
      (Test.all (storedEquations us row.1)).isMet r contents) ∘
        fun row => (row.1, Value.lit row.2)) with
  | some row =>
      -- a row that is met has values that the features ask for, whichever row it is
      obtain ⟨values, form⟩ := row
      obtain ⟨hlisted, hbest⟩ := mem_lemmaSelections_iff.1 (List.mem_of_find?_eq_some hfind)
      have hmet := List.find?_some hfind
      exact .inl ⟨values, form, asks_iff.1 ⟨hlisted, hmet⟩, hbest, rfl⟩
  | none =>
      refine .inr ⟨fun values hasks => ?_, rfl⟩
      obtain ⟨hlisted, hmet⟩ := asks_iff.2 hasks
      cases hbest : bestLemma? us values with
      | none => rfl
      | some form =>
          have hrow := mem_lemmaSelections_iff.2 ⟨hlisted, hbest⟩
          exact absurd hmet (List.find?_eq_none.1 hfind _ hrow)

/-- The engine tells the tags of a lexicon apart if it has no values with angle brackets. -/
theorem tellsApart_engine (s : Scene)
    (hvalues : ∀ c ∈ features, ∀ x ∈ lemmas c.label, '>' ∉ x.value.toList) :
    TellsApart (.engine s) lemmas features := by
  intro c hc _ _ form form' value value' hform hform' htags
  obtain ⟨x, hx, rfl⟩ := Option.map_eq_some_iff.1 hform
  obtain ⟨x', hx', rfl⟩ := Option.map_eq_some_iff.1 hform'
  exact eq_of_tagText_eq (hvalues c hc x (List.mem_of_find?_eq_some hx))
    (hvalues c hc x' (List.mem_of_find?_eq_some hx')) htags

/-- If tags are told apart, features can only ask for one combination of values. -/
theorem asks_unique (htags : TellsApart r lemmas features) {values values' : List String}
    (h : List.Forall₂ (Comparison.Asks r contents lemmas) features values)
    (h' : List.Forall₂ (Comparison.Asks r contents lemmas) features values') :
    values' = values := by
  induction h generalizing values' with
  | nil => exact List.forall₂_nil_left_iff.1 h'
  | @cons c value features values hasks _ ih =>
      obtain ⟨value', values', hasks', hrest, rfl⟩ := List.forall₂_cons_left_iff.1 h'
      rw [ih (fun c hc => htags c (List.mem_cons_of_mem _ hc)) hrest]
      congr 1
      cases hoperand : c.operand with
      | given given => rw [hasks.given given hoperand, hasks'.given given hoperand]
      | stored name =>
          obtain ⟨htag, form, hform⟩ := hasks.stored name hoperand
          obtain ⟨htag', form', hform'⟩ := hasks'.stored name hoperand
          exact htags c List.mem_cons_self name hoperand form' form value' value hform' hform
            (htag'.symm.trans htag)

/-! ## What is emitted -/

/-- If all values are given, there is just one combination of values. -/
theorem combinations_given {us : List Usable}
    (hus : (us.all fun u => u.operand.name?.isNone) = true) :
    combinations us = [us.filterMap fun u => u.operand.value?] := by
  induction us with
  | nil => rfl
  | cons u us ih =>
      rw [List.all_cons, Bool.and_eq_true] at hus
      obtain ⟨hu, hus⟩ := hus
      rw [combinations, ih hus, List.filterMap_cons]
      cases hoperand : u.operand with
      | stored name =>
          rw [hoperand] at hu
          cases hu
      | given given => rfl

theorem lemmaSelections_given {us : List Usable}
    (hus : (us.all fun u => u.operand.name?.isNone) = true) :
    lemmaSelections us = ((bestLemma? us (us.filterMap fun u => u.operand.value?)).map fun form =>
      (us.filterMap fun u => u.operand.value?, form)).toList := by
  rw [lemmaSelections, combinations_given hus, List.filterMap_cons]
  cases bestLemma? us (us.filterMap fun u => u.operand.value?) with
  | none => rfl
  | some form => rfl

/-- What is reported of a word without rows: a lemma for given values. -/
def missingLemma? (category : String) (us : List Usable) : Option Issue :=
  if us.isEmpty then none
  else if us.all fun u => u.operand.name?.isNone then
    some (.unresolvedFeatureValue category "lemma"
      (String.intercalate "+" (us.filterMap fun u => u.operand.value?)))
  else none

/-- A word emits the table of its rows. -/
theorem emitLemma_eq (ctx : Lexicons) (bindings : Bindings) (position : Nat) (category : String)
    (occurrences : List Occurrence) :
    emitLemma ctx bindings position category occurrences =
      emitTable bindings position category (ctx.target.lemmas category) (byRanking occurrences)
        (fun _ => "v_" ++ identifier (category ++ "_lemma")) lemmaRows
        (.clip position .target "lem") (missingLemma? category) := by
  unfold emitLemma emitTable
  refine congrArg (bind _) (funext fun us => ?_)
  cases us with
  | nil => rfl
  | cons first rest =>
      unfold emitRows missingLemma?
      simp only [List.isEmpty_cons, Bool.false_eq_true, if_false, lemmaRows, lemmaSelection_eq]
      by_cases hgiven : ((first :: rest).all fun u => u.operand.name?.isNone) = true
      -- with given values only there is at most one row, the lemma that is looked up
      · rw [if_pos hgiven, if_pos hgiven, lemmaSelections_given hgiven]
        cases bestLemma? (first :: rest) ((first :: rest).filterMap fun u => u.operand.value?) with
        | none => rfl
        | some form => exact (if_pos hgiven).symm
      · rw [if_neg hgiven, if_neg hgiven]
        cases lemmaSelections (first :: rest) with
        | nil => rfl
        | cons row rows => exact (if_neg hgiven).symm

/-- The branches of a choice test variables of features for tags. -/
def TestsStored (features : List Comparison) (choice : Choice Assignment) : Prop :=
  ∀ branch ∈ choice.branches, ∃ equations, branch.1 = .all equations ∧
    ∀ q ∈ equations, ∃ c ∈ features, ∃ name value, c.operand = .stored name ∧
      q = ⟨.var name, .tag value⟩

theorem testsStored_storedTable (target : String) (rows : List (List String × Value))
    (other : Value) :
    TestsStored features
      (storedTable target (features.map (Comparison.usable lemmas)) rows other) := by
  intro branch hbranch
  obtain ⟨_, hrow, rfl⟩ := List.mem_map.1 hbranch
  obtain ⟨row, -, rfl⟩ := List.mem_map.1 hrow
  refine ⟨_, rfl, fun q hq => ?_⟩
  obtain ⟨⟨u, value⟩, hmem, hq⟩ := List.mem_filterMap.1 hq
  obtain ⟨c, hc, rfl⟩ := List.mem_map.1 (List.of_mem_zip hmem).1
  obtain ⟨name, hname, rfl⟩ := Option.map_eq_some_iff.1 hq
  exact ⟨c, hc, name, value, Operand.name?_eq_some_iff.1 hname, rfl⟩

end Agreement

/-! ## An article -/

/-- A lexicon that knows articles for two genders and two numbers. -/
def articles : Lexicon :=
  ⟨"target", StringMap.empty.insert "det" none,
    StringMap.empty.insert "det"
      ((StringMap.empty.insert "gender" { lemmas := [⟨"un", "m"⟩, ⟨"une", "f"⟩] }).insert
        "number" { lemmas := [⟨"un", "sg"⟩, ⟨"une", "sg"⟩, ⟨"des", "pl"⟩] })⟩

/-- The variables for the noun of the article. -/
def nounBindings : Bindings :=
  [("α", ⟨"v_n_gender", "gender", none⟩), ("β", ⟨"v_n_number", "number", none⟩)]

/-- An article that agrees with its noun in number, and before that in gender. -/
def articleFeatures : List Occurrence :=
  [⟨"1", 1, "det", "det", false, .word, some 0, ⟨"number", .agreement "β", some 2, none⟩⟩,
    ⟨"1", 1, "det", "det", false, .word, some 0, ⟨"gender", .agreement "α", some 1, none⟩⟩]

/-- What is emitted for the article. -/
def emittedArticle : Option Value × Emission :=
  emitLemma ⟨.named "source", articles, none⟩ nounBindings 1 "det" articleFeatures ⟨{}, {}, [], []⟩

/-- A phrase with the article *un*. -/
def articlePhrase : Scene := ⟨⟨fun _ _ _ => "un", fun _ => ""⟩, id⟩

/-- The contents of the variables for a feminine noun. -/
def feminine (number : String) : Contents := fun name =>
  if name = "v_n_gender" then "<f>" else if name = "v_n_number" then number else ""

theorem byRanking_articleFeatures : byRanking articleFeatures = articleFeatures.reverse := by
  simp [byRanking, articleFeatures, List.mergeSort, rankingLe]

theorem comparisons_articleFeatures :
    comparisons nounBindings (articles.lemmas "det") (byRanking articleFeatures) =
      [⟨"gender", .stored "v_n_gender"⟩, ⟨"number", .stored "v_n_number"⟩] := by
  rw [byRanking_articleFeatures]
  decide +kernel

/-! ## The output of a word -/

section Output

variable (ctx : Lexicons) (bindings : Bindings) (position : Nat) (category : String)
  (occurrences : List Occurrence) (e : Emission)

/-- The choice that is added tests variables, and the output is read at the first row that is
met. -/
theorem emitLemma_spec :
    let lemmas := ctx.target.lemmas category
    let features := comparisons bindings lemmas (byRanking occurrences)
    let us := features.map (Comparison.usable lemmas)
    let emitted := emitLemma ctx bindings position category occurrences e
    let own := Value.clip position .target "lem"
    ∃ choice?, AddsChoice e emitted.2 choice? ∧ (∀ choice ∈ choice?, TestsStored features choice) ∧
      ∀ r contents, readAfter r contents choice? (emitted.1.getD own) =
        (rowValue r contents us (lemmaRows us) own).read r contents := by
  intro lemmas features us emitted own
  obtain ⟨-, -, -, choice?, hadds, htable, hread⟩ :=
    @emitTable_spec bindings lemmas e position category (byRanking occurrences)
      (fun _ => "v_" ++ identifier (category ++ "_lemma")) lemmaRows own (missingLemma? category)
  rw [← emitLemma_eq] at hadds hread
  refine ⟨choice?, hadds, fun choice hmem => ?_, hread⟩
  obtain ⟨name, rfl⟩ := htable choice hmem
  exact testsStored_storedTable name _ _

/-- **The lemma of a word agrees with as many of its features as any lemma does.**  The features
are taken in the order of their rankings, and the choice that is added tests their variables.
Suppose that all of them ask for something.  Then the output is the best lemma for values that they
ask for, or the word's own if no lemma agrees with the first feature; and if tags are told apart,
these values are the only ones that they ask for. -/
theorem emitLemma_ranked :
    let lemmas := ctx.target.lemmas category
    let features := comparisons bindings lemmas (byRanking occurrences)
    let emitted := emitLemma ctx bindings position category occurrences e
    let own := Value.clip position .target "lem"
    RankedOrder occurrences (byRanking occurrences) ∧
      ∃ choice?, AddsChoice e emitted.2 choice? ∧
        (∀ choice ∈ choice?, TestsStored features choice) ∧
        ∀ r contents, (∀ c ∈ features, ∃ value, c.Asks r contents lemmas value) →
          ∃ values, List.Forall₂ (Comparison.Asks r contents lemmas) features values ∧
            (TellsApart r lemmas features → ∀ other,
              List.Forall₂ (Comparison.Asks r contents lemmas) features other → other = values) ∧
            IsRanked lemmas features values (own.read r contents)
              (readAfter r contents choice? (emitted.1.getD own)) := by
  intro lemmas features emitted own
  obtain ⟨choice?, hadds, htests, hread⟩ :=
    emitLemma_spec ctx bindings position category occurrences e
  refine ⟨rankedOrder_byRanking occurrences, choice?, hadds, htests, fun r contents hall => ?_⟩
  have hranked : ∀ values, List.Forall₂ (Comparison.Asks r contents lemmas) features values →
      IsRanked lemmas features values (own.read r contents)
        ((bestLemma? (features.map (Comparison.usable lemmas)) values).getD
          (own.read r contents)) :=
    fun values hasks => isRanked_bestLemma? (own.read r contents) hasks.length_eq
  rw [hread r contents]
  rcases @rowValue_lemmaRows lemmas features r contents own with
    ⟨values, form, hasks, hbest, hvalue⟩ | ⟨hnone, hvalue⟩
  · refine ⟨values, hasks, fun htags other hother => asks_unique htags hasks hother, ?_⟩
    have hform := hranked values hasks
    rw [hbest] at hform
    rw [hvalue]
    exact hform
  · obtain ⟨values, hasks⟩ := exists_forall₂_iff.2 hall
    refine ⟨values, hasks, fun htags other hother => asks_unique htags hasks hother, ?_⟩
    have hown := hranked values hasks
    rw [hnone values hasks] at hown
    rw [hvalue]
    exact hown

/-- The variable of a feminine noun asks for its gender, whatever its number is. -/
theorem asks_feminine (number : String) :
    Comparison.Asks (.engine articlePhrase) (feminine number) (articles.lemmas "det")
      ⟨"gender", .stored "v_n_gender"⟩ "f" := by
  refine ⟨nofun, ?_⟩
  rintro _ ⟨⟩
  exact ⟨(if_pos rfl).trans (by decide +kernel), "une", by decide +kernel⟩

/-- In the plural its other variable asks for the number. -/
theorem asks_plural :
    Comparison.Asks (.engine articlePhrase) (feminine "<pl>") (articles.lemmas "det")
      ⟨"number", .stored "v_n_number"⟩ "pl" := by
  refine ⟨nofun, ?_⟩
  rintro _ ⟨⟩
  exact ⟨by decide +kernel, "des", by decide +kernel⟩

/-- The plural has no article with a gender, so the feminine one is taken. -/
theorem emitLemma_ranked_articles :
    let lemmas := articles.lemmas "det"
    let features := comparisons nounBindings lemmas (byRanking articleFeatures)
    let r := Reading.engine articlePhrase
    TellsApart r lemmas features ∧
      List.Forall₂ (Comparison.Asks r (feminine "<pl>") lemmas) features ["f", "pl"] ∧
      ∃ choice?, AddsChoice ⟨{}, {}, [], []⟩ emittedArticle.2 choice? ∧
        IsRanked lemmas features ["f", "pl"] "un"
          (readAfter r (feminine "<pl>") choice?
            (emittedArticle.1.getD (.clip 1 .target "lem"))) := by
  intro lemmas features r
  have hfeatures : features = _ := comparisons_articleFeatures
  have htags : TellsApart r lemmas features := by
    refine tellsApart_engine articlePhrase ?_
    rw [hfeatures]
    decide +kernel
  have hasks : List.Forall₂ (Comparison.Asks r (feminine "<pl>") lemmas) features ["f", "pl"] := by
    rw [hfeatures]
    exact .cons (asks_feminine "<pl>") (.cons asks_plural .nil)
  obtain ⟨-, choice?, hadds, -, hranked⟩ :=
    emitLemma_ranked ⟨.named "source", articles, none⟩ nounBindings 1 "det" articleFeatures
      ⟨{}, {}, [], []⟩
  obtain ⟨values, -, hunique, hout⟩ :=
    hranked r (feminine "<pl>") (exists_forall₂_iff.1 ⟨["f", "pl"], hasks⟩)
  rw [← hunique htags ["f", "pl"] hasks] at hout
  exact ⟨htags, hasks, choice?, hadds, hout⟩

/-- **What becomes of the first feature.**  Suppose some lemma carries what it asks for.  If every
other feature asks for something too, the output carries what the first one asks for; but if the
variable of one of them is empty, or holds a tag of which the lexicon knows nothing, the word keeps
its own lemma. -/
theorem emitLemma_keeps_first :
    let lemmas := ctx.target.lemmas category
    let features := comparisons bindings lemmas (byRanking occurrences)
    let emitted := emitLemma ctx bindings position category occurrences e
    let own := Value.clip position .target "lem"
    ∃ choice?, AddsChoice e emitted.2 choice? ∧ ∀ r contents, ∀ first ∈ features.head?,
      (∃ form, first.IsCarried r contents lemmas form) →
        ((∀ c ∈ features, ∃ value, c.Asks r contents lemmas value) →
          first.IsCarried r contents lemmas (readAfter r contents choice? (emitted.1.getD own))) ∧
        ((∃ c ∈ features, ∀ value, ¬ c.Asks r contents lemmas value) →
          readAfter r contents choice? (emitted.1.getD own) = own.read r contents) := by
  intro lemmas features emitted own
  obtain ⟨choice?, hadds, -, hread⟩ :=
    emitLemma_spec ctx bindings position category occurrences e
  refine ⟨choice?, hadds, fun r contents first hfirst hcarried => ?_⟩
  rw [hread r contents]
  obtain ⟨rest, hfeatures⟩ : ∃ rest, features = first :: rest := List.head?_eq_some_iff.1 hfirst
  rcases @rowValue_lemmaRows lemmas features r contents own with
    ⟨values, form, hasks, hbest, hvalue⟩ | ⟨hnone, hvalue⟩
  · rw [hvalue]
    refine ⟨fun _ => ?_, fun ⟨c, hc, hnot⟩ => ?_⟩
    · rw [hfeatures] at hasks hbest
      exact isCarried_of_bestLemma? hasks hbest
    · obtain ⟨value, hvalue⟩ := exists_forall₂_iff.1 ⟨values, hasks⟩ c hc
      exact absurd hvalue (hnot value)
  · rw [hvalue]
    refine ⟨fun hall => ?_, fun _ => rfl⟩
    obtain ⟨values, hasks⟩ := exists_forall₂_iff.2 hall
    have hbest := hnone values hasks
    rw [hfeatures] at hasks hbest
    exact absurd hbest (bestLemma?_ne_none hasks hcarried)

/-- In the plural the article carries the gender of the noun, but it stays what it is if the number
is not specified. -/
theorem emitLemma_keeps_first_articles :
    let lemmas := articles.lemmas "det"
    let gender : Comparison := ⟨"gender", .stored "v_n_gender"⟩
    let r := Reading.engine articlePhrase
    let output := emittedArticle.1.getD (.clip 1 .target "lem")
    ∃ choice?, AddsChoice ⟨{}, {}, [], []⟩ emittedArticle.2 choice? ∧
      gender.IsCarried r (feminine "<pl>") lemmas
        (readAfter r (feminine "<pl>") choice? output) ∧
      readAfter r (feminine "") choice? output = "un" := by
  intro lemmas gender r output
  obtain ⟨choice?, hadds, hkeeps⟩ :=
    emitLemma_keeps_first ⟨.named "source", articles, none⟩ nounBindings 1 "det" articleFeatures
      ⟨{}, {}, [], []⟩
  rw [comparisons_articleFeatures] at hkeeps
  have hcarried : ∀ number, ∃ form, gender.IsCarried r (feminine number) lemmas form :=
    fun number => ⟨"une", "f", asks_feminine number, by decide +kernel⟩
  refine ⟨choice?, hadds, (hkeeps r _ gender rfl (hcarried "<pl>")).1 ?_,
    (hkeeps r _ gender rfl (hcarried "")).2 ?_⟩
  · exact exists_forall₂_iff.1
      ⟨["f", "pl"], .cons (asks_feminine "<pl>") (.cons asks_plural .nil)⟩
  · -- The variable is empty, so it holds no tag.
    refine ⟨⟨"number", .stored "v_n_number"⟩, by decide, fun value hasks => ?_⟩
    have htag : "" = tagText value := (hasks.stored _ rfl).1
    exact tagText_ne_empty value htag.symm

/-- **A feature that is not specified is not dropped.**  There is a feminine article, but if the
number of the noun is not specified, the article stays masculine. -/
theorem not_isCarried_emittedArticle :
    let lemmas := articles.lemmas "det"
    let gender : Comparison := ⟨"gender", .stored "v_n_gender"⟩
    let r := Reading.engine articlePhrase
    let after := emittedArticle.2.statements.foldl (Statement.run articlePhrase fun _ _ m => m)
      { contents := feminine "" }
    (comparisons nounBindings lemmas (byRanking articleFeatures)).head? = some gender ∧
      gender.IsCarried r (feminine "") lemmas "une" ∧
      ¬ gender.IsCarried r (feminine "") lemmas
        ((emittedArticle.1.getD (.clip 1 .target "lem")).eval articlePhrase after.contents) := by
  intro lemmas gender r after
  have hout :
      (emittedArticle.1.getD (.clip 1 .target "lem")).eval articlePhrase after.contents = "un" := by
    unfold after emittedArticle emitLemma
    rw [byRanking_articleFeatures]
    decide +kernel
  refine ⟨by rw [comparisons_articleFeatures]; rfl,
    ⟨"f", asks_feminine "", by decide +kernel⟩, ?_⟩
  rw [hout]
  rintro ⟨value, hasks, hvalue⟩
  obtain rfl : "m" = value := by
    have hm : firstValue? (lemmas "gender") "un" = some "m" := by decide +kernel
    exact Option.some.inj (hm.symm.trans hvalue)
  have htag : feminine "" "v_n_gender" = tagText "m" := (hasks.stored _ rfl).1
  revert htag
  decide +kernel

end Output

end TransferRules.Compile

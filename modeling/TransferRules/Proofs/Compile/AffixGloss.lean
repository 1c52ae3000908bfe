import TransferRules.Proofs.Compile.Comparison

/-!
# The gloss of an affix

An affix puts out a gloss that carries the values of all its features.  Of the features with a
given value this is known when the rule is compiled; for the others the glosses that are left
become the rows of a table, in ascending order.  Several rows may be met, if glosses carry the same
values, and then the first one counts: the least gloss.

## Main Definitions

* `IsCandidate` — a gloss that has a value of every feature, and the given ones
* `Fits` — a gloss whose values are those that the variables hold
* `Renders` — what an affix should render to

## Main Statements

* `mem_affixCandidates_iff`, `isCandidate_iff` — the rows are the candidates
* `emitAffix_eq` — an affix emits the table of its rows
* `renders_rowValue`, `emitAffix_renders` — so it renders to the least candidate that fits
-/

namespace TransferRules.Compile

open TransferRules.Action
open TransferRules.Ordered
open TransferRules.Text

/-- A gloss is a candidate for an affix if it carries a value of every feature, and the given one
of a feature that is compared with a given value. -/
def IsCandidate (glosses : String → List Exponent) (features : List Comparison) (form : String) :
    Prop :=
  ∀ c ∈ features, ∃ value, firstValue? (glosses c.label) form = some value ∧
    ∀ given, c.operand = .given given → value = given

/-- A gloss fits the contents of the variables if they hold the tags of the values that it
carries. -/
def Fits (r : Reading) (contents : Contents) (glosses : String → List Exponent)
    (features : List Comparison) (form : String) : Prop :=
  ∀ c ∈ features, ∀ name, c.operand = .stored name →
    ∃ value, firstValue? (glosses c.label) form = some value ∧ contents name = r.tag value

/-- What an affix renders to for contents of the variables: the least candidate that fits, and
nothing if no candidate fits. -/
inductive Renders (r : Reading) (contents : Contents) (glosses : String → List Exponent)
    (features : List Comparison) : String → Prop
  | gloss (form : String) (candidate : IsCandidate glosses features form)
      (fits : Fits r contents glosses features form)
      (least : ∀ other, IsCandidate glosses features other →
        Fits r contents glosses features other → ¬ other < form) :
      Renders r contents glosses features (r.tag form)
  | empty (none : ∀ form, IsCandidate glosses features form →
      ¬ Fits r contents glosses features form) :
      Renders r contents glosses features ""

variable {glosses : String → List Exponent} {features : List Comparison} {form : String}
  {values : List String} {r : Reading} {contents : Contents}

/-! ## Candidates -/

theorem admits_iff {u : Usable} {value : String} :
    u.admits value = true ↔ ∀ given, u.operand = .given given → value = given := by
  unfold Usable.admits
  cases u.operand with
  | stored name => simp
  | given given =>
      constructor
      · rintro h _ ⟨⟩
        exact (beq_iff_eq.1 h).symm
      · intro h
        exact beq_iff_eq.2 (h given rfl).symm

/-- The values that a gloss carries are those of the features, one after the other. -/
theorem carriedValues?_eq_some_iff {us : List Usable} :
    carriedValues? us form = some values ↔
      List.Forall₂ (fun u value => u.valueOf? form = some value ∧ u.admits value = true) us
        values := by
  unfold carriedValues?
  induction us generalizing values with
  | nil => cases values <;> simp
  | cons u us ih =>
      simp only [List.mapM_cons, List.forall₂_cons_left_iff, ← ih, Option.bind_eq_bind,
        Option.pure_def, Option.bind_eq_some_iff, Option.filter_eq_some_iff, Option.some.injEq]
      constructor
      · rintro ⟨value, hvalue, rest, hrest, rfl⟩
        exact ⟨value, rest, hvalue, hrest, rfl⟩
      · rintro ⟨value, rest, hvalue, hrest, rfl⟩
        exact ⟨value, hvalue, rest, hrest, rfl⟩

theorem isCandidate_iff :
    IsCandidate glosses features form ↔
      ∃ values, carriedValues? (features.map (Comparison.usable glosses)) form = some values := by
  simp only [carriedValues?_eq_some_iff, List.forall₂_map_left_iff, admits_iff,
    Comparison.valueOf?_usable]
  exact exists_forall₂_iff.symm

/-- **The rows are the candidates**, with their values. -/
theorem mem_affixCandidates_iff {us : List Usable} :
    (form, values) ∈ affixCandidates us ↔ us ≠ [] ∧ carriedValues? us form = some values := by
  cases us with
  | nil => simp [affixCandidates]
  | cons first rest =>
      simp only [affixCandidates, List.mem_filterMap, Option.map_eq_some_iff, Prod.mk.injEq,
        mem_sortStrings, List.mem_map]
      constructor
      · rintro ⟨_, -, _, hvalues, rfl, rfl⟩
        exact ⟨List.cons_ne_nil _ _, hvalues⟩
      · rintro ⟨-, hvalues⟩
        refine ⟨form, ?_, values, hvalues, rfl, rfl⟩
        -- only the forms of the first feature are tried, but a candidate is among these
        obtain ⟨value, _, ⟨hvalue, -⟩, -⟩ :=
          List.forall₂_cons_left_iff.1 (carriedValues?_eq_some_iff.1 hvalues)
        obtain ⟨x, hx, -⟩ := Option.map_eq_some_iff.1 hvalue
        exact ⟨x, List.mem_of_find?_eq_some hx, by simpa using List.find?_some hx⟩

theorem affixCandidates_eq_nil_iff :
    affixCandidates (features.map (Comparison.usable glosses)) = [] ↔
      features = [] ∨ ∀ form, ¬ IsCandidate glosses features form := by
  rw [List.eq_nil_iff_forall_not_mem]
  simp only [Prod.forall, mem_affixCandidates_iff, isCandidate_iff, ne_eq, List.map_eq_nil_iff,
    not_and, not_exists]
  constructor
  · intro h
    by_cases hfeatures : features = []
    · exact .inl hfeatures
    · exact .inr fun form values => h form values hfeatures
  · rintro (hfeatures | hnone) form values hne
    · exact absurd hfeatures hne
    · exact hnone form values

/-- The rows stand in ascending order of their glosses. -/
theorem pairwise_affixCandidates (us : List Usable) :
    (affixCandidates us).Pairwise fun a b => a.1 < b.1 := by
  cases us with
  | nil => exact .nil
  | cons first rest =>
      refine (pairwise_sortStrings _).filterMap _ fun form form' hlt => ?_
      simp only [Option.map_eq_some_iff]
      rintro _ ⟨values, -, rfl⟩ _ ⟨values', -, rfl⟩
      exact hlt

/-- A row is met if its gloss fits. -/
theorem isMet_iff_fits
    (h : carriedValues? (features.map (Comparison.usable glosses)) form = some values) :
    (Test.all (storedEquations (features.map (Comparison.usable glosses)) values)).isMet r
        contents = true ↔
      Fits r contents glosses features form := by
  rw [carriedValues?_eq_some_iff, List.forall₂_map_left_iff, List.forall₂_iff_zip] at h
  obtain ⟨hlength, hvalues⟩ := h
  simp only [Comparison.valueOf?_usable] at hvalues
  rw [isMet_storedEquations]
  constructor
  · intro hmet c hc name hname
    rw [← List.map_fst_zip (Nat.le_of_eq hlength), List.mem_map] at hc
    obtain ⟨⟨_, value⟩, hmem, rfl⟩ := hc
    exact ⟨value, (hvalues hmem).1, hmet _ _ hmem name hname⟩
  · intro hfits c value hmem name hname
    obtain ⟨value', hvalue', hname'⟩ := hfits c (List.of_mem_zip hmem).1 name hname
    rw [(hvalues hmem).1] at hvalue'
    rwa [Option.some.inj hvalue']

/-! ## The output -/

/-- The rows of the table of an affix. -/
def glossRows (us : List Usable) : List (List String × Value) :=
  (affixCandidates us).map fun row => (row.2, .tag row.1)

theorem affixChoice_eq (target : String) (us : List Usable)
    (candidates : List (String × List String)) :
    affixChoice target us candidates =
      storedTable target us (candidates.map fun row => (row.2, .tag row.1)) (.lit "") := by
  rw [affixChoice, storedTable, table, List.map_map, List.map_map]
  rfl

/-- What is reported of an affix without rows. -/
def missingGloss? (category : String) (us : List Usable) : Option Issue :=
  if us.isEmpty then none else some (missingForm category (us.map Usable.label) us)

/-- The name that the variable of an affix gets if the rule does not use it. -/
def affixVariable (category : String) (us : List Usable) : String :=
  "v_" ++ identifier (category ++ "_" ++ String.intercalate "_" (us.map Usable.label) ++ "_affix")

/-- An affix emits the table of its rows. -/
theorem emitAffix_eq (ctx : Lexicons) (bindings : Bindings) (position : Nat) (category : String)
    (occurrences : List Occurrence) :
    emitAffix ctx bindings position category occurrences =
      emitTable bindings position category (ctx.target.affixes category) occurrences
        (affixVariable category) glossRows (.lit "") (missingGloss? category) := by
  unfold emitAffix emitTable
  refine congrArg (bind _) (funext fun us => ?_)
  cases us with
  | nil => rfl
  | cons first rest =>
      -- with the choice written as a table, both sides agree case by case
      unfold emitRows
      simp only [List.isEmpty_cons, Bool.false_eq_true, if_false, glossRows, affixChoice_eq]
      cases affixCandidates (first :: rest) with
      | nil => rfl
      | cons row rows => rfl

/-- The first row that is met is that of the least candidate that fits. -/
theorem renders_rowValue (hfeatures : features ≠ []) :
    Renders r contents glosses features
      ((rowValue r contents (features.map (Comparison.usable glosses))
        (glossRows (features.map (Comparison.usable glosses))) (.lit "")).read r contents) := by
  have hrow : ∀ form, IsCandidate glosses features form → Fits r contents glosses features form →
      ∃ row ∈ affixCandidates (features.map (Comparison.usable glosses)), row.1 = form ∧
        (Test.all (storedEquations (features.map (Comparison.usable glosses)) row.2)).isMet r
          contents = true := by
    intro form hform hfits
    obtain ⟨values, hvalues⟩ := isCandidate_iff.1 hform
    refine ⟨(form, values), mem_affixCandidates_iff.2 ⟨?_, hvalues⟩, rfl, ?_⟩
    · exact fun h => hfeatures (List.map_eq_nil_iff.1 h)
    · exact (isMet_iff_fits hvalues).2 hfits
  -- rows stand in ascending order, so the one that is found is that of the least gloss
  rw [rowValue, glossRows, List.find?_map]
  cases hfind : (affixCandidates (features.map (Comparison.usable glosses))).find? ((fun row =>
      (Test.all (storedEquations (features.map (Comparison.usable glosses)) row.1)).isMet r
        contents) ∘ fun row => (row.2, Value.tag row.1)) with
  | none =>
      refine .empty fun form hform hfits => ?_
      obtain ⟨row, hmem, -, hmet⟩ := hrow form hform hfits
      exact List.find?_eq_none.1 hfind row hmem hmet
  | some row =>
      obtain ⟨form, values⟩ := row
      have hvalues := (mem_affixCandidates_iff.1 (List.mem_of_find?_eq_some hfind)).2
      have hmet := List.find?_some hfind
      refine .gloss form (isCandidate_iff.2 ⟨values, hvalues⟩) ((isMet_iff_fits hvalues).1 hmet)
        fun other hother hfits => ?_
      obtain ⟨row, hmem, rfl, hmet'⟩ := hrow other hother hfits
      exact least_of_find? (pairwise_affixCandidates _) hfind hmem hmet'

theorem missingGloss?_of_ne (category : String) (hfeatures : features ≠ []) :
    missingGloss? category (features.map (Comparison.usable glosses)) =
      some (.unresolvedFeatureValue category
        (String.intercalate "+" (features.map Comparison.label))
        (String.intercalate "+" (features.filterMap fun c => c.operand.value?))) := by
  have hne : ¬ (features.map (Comparison.usable glosses)).isEmpty = true := by
    rw [List.isEmpty_iff, List.map_eq_nil_iff]
    exact hfeatures
  rw [missingGloss?, if_neg hne, missingForm, List.map_map, List.filterMap_map]
  rfl

/-- **An affix renders to the least gloss that carries the values.**  It has no output exactly if
nothing is compared or no gloss is a candidate, and the second is reported.  Otherwise what its
output is read as is the least candidate that fits the contents of the variables before the
choice, or empty if none fits. -/
theorem emitAffix_renders (ctx : Lexicons) (bindings : Bindings) (position : Nat)
    (category : String) (occurrences : List Occurrence) (e : Emission) :
    let glosses := ctx.target.affixes category
    let features := comparisons bindings glosses occurrences
    let emitted := emitAffix ctx bindings position category occurrences e
    let noted := e.report.noteAll (unlistedFeatures category glosses occurrences)
    let missing : Issue := .unresolvedFeatureValue category
      (String.intercalate "+" (features.map Comparison.label))
      (String.intercalate "+" (features.filterMap fun c => c.operand.value?))
    (emitted.1 = none ↔ features = [] ∨ ∀ form, ¬ IsCandidate glosses features form) ∧
      (features ≠ [] ∧ (∀ form, ¬ IsCandidate glosses features form) →
        emitted.2.report = noted.note missing) ∧
      (features = [] ∨ (∃ form, IsCandidate glosses features form) →
        emitted.2.report = noted) ∧
      ∃ choice?, AddsChoice e emitted.2 choice? ∧ ∀ v ∈ emitted.1, ∀ r contents,
        Renders r contents glosses features (readAfter r contents choice? v) := by
  intro glosses features emitted noted missing
  have hrows : glossRows (features.map (Comparison.usable glosses)) = [] ↔
      features = [] ∨ ∀ form, ¬ IsCandidate glosses features form := by
    rw [glossRows, List.map_eq_nil_iff, affixCandidates_eq_nil_iff]
  obtain ⟨hnone, hmissing, hnoted, choice?, hadds, -, hread⟩ :=
    @emitTable_spec bindings glosses e position category occurrences (affixVariable category)
      glossRows (.lit "") (missingGloss? category)
  rw [← emitAffix_eq] at hnone hmissing hnoted hadds hread
  refine ⟨hnone.trans hrows, ?_, ?_, choice?, hadds, ?_⟩
  · rintro ⟨hfeatures, hcandidates⟩
    rw [hmissing (hrows.2 (.inr hcandidates)), missingGloss?_of_ne category hfeatures]
    rfl
  · intro h
    by_cases hfeatures : features = []
    · rw [hmissing (hrows.2 (.inl hfeatures)), show comparisons bindings glosses occurrences = []
        from hfeatures]
      rfl
    · obtain ⟨form, hform⟩ := h.resolve_left hfeatures
      refine hnoted fun hnil => ?_
      exact (hrows.1 hnil).elim hfeatures fun hnot => hnot form hform
  · intro v hv r contents
    have hfeatures : features ≠ [] := by
      intro hfeatures
      rw [(hnone.trans hrows).2 (.inl hfeatures)] at hv
      exact Option.not_mem_none v hv
    have hvalue := hread r contents
    rw [hv, Option.getD_some] at hvalue
    rw [hvalue]
    exact renders_rowValue hfeatures

end TransferRules.Compile

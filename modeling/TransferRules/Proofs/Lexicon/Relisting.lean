import Mathlib.Data.List.Forall2
import Mathlib.Data.List.Perm.Basic
import TransferRules.Workspace.Attribute
import TransferRules.Workspace.Category
import TransferRules.Workspace.Macro

/-!
# Lexicons that are listed in another order

A lexicon lists the values of a feature, and the lemmas and affix glosses that express them, in some
order.  The order says nothing, except that of two entries with the same form the first one counts.
So a lexicon in which the lists are put in another order, without exchanging entries with the same
form, answers all questions alike: whatever is made from a list is sorted, or found by its form.

## Main Definitions

* `SameEntries` — the same exponents in another order
* `StringMap.Related` — maps with the same keys and related values
* `Lexicon.Relisted` — the same lexicon with its lists in another order

## Main Statements

* `SameEntries.find?` — the same exponent counts for a form
* `featureValues_relisted`, `lemmasByValue_relisted`, `allLemmas_relisted` — what is made from the
  lists
* `Workspace.ensureCategory_relisted`, `Workspace.ensureAttribute_relisted`,
  `Workspace.ensureLemmaMacro_relisted`, `Workspace.ensureDisjointMacro_relisted` — requests of a
  workspace are answered alike
-/

namespace TransferRules

open TransferRules.Ordered

/-! ## Exponents -/

/-- The same exponents in another order, where those with the same form keep their order. -/
structure SameEntries (es es' : List Exponent) : Prop where
  perm : es.Perm es'
  byForm : ∀ form,
    es'.filter (fun e => e.form == form) = es.filter fun e => e.form == form

namespace SameEntries

variable {es es' : List Exponent}

theorem refl (es : List Exponent) : SameEntries es es := ⟨.refl es, fun _ => rfl⟩

/-- Entries with different forms may change places. -/
theorem swap {e f : Exponent} (h : e.form ≠ f.form) (es : List Exponent) :
    SameEntries (e :: f :: es) (f :: e :: es) where
  perm := .swap f e es
  byForm form := by
    by_cases he : e.form = form
    · have hf : f.form ≠ form := fun hf => h (he.trans hf.symm)
      simp [he, hf]
    · simp [List.filter_cons, he]

theorem isEmpty_eq (h : SameEntries es es') : es'.isEmpty = es.isEmpty := by
  rw [Bool.eq_iff_iff, List.isEmpty_iff, List.isEmpty_iff]
  constructor
  · rintro rfl
    exact h.perm.eq_nil
  · rintro rfl
    exact h.perm.nil_eq.symm

/-- The same exponent counts for a form, the first one that has it. -/
theorem find? (h : SameEntries es es') (form : String) :
    es'.find? (fun e => e.form == form) = es.find? fun e => e.form == form := by
  rw [← List.head?_filter, ← List.head?_filter, h.byForm]

/-- Lists of exponents may be put together. -/
theorem flatMap {α : Type} {f g : α → List Exponent} (h : ∀ a, SameEntries (f a) (g a))
    (l : List α) : SameEntries (l.flatMap f) (l.flatMap g) where
  perm := List.Perm.flatMap_left l fun a _ => (h a).perm
  byForm form := by
    rw [List.filter_flatMap, List.filter_flatMap]
    congr 1
    funext a
    exact (h a).byForm form

end SameEntries

/-- An exponent is kept if it is the first one with its form. -/
theorem mem_firstExponents_iff {seen : List String} {es : List Exponent} {e : Exponent} :
    e ∈ firstExponents seen es ↔
      e.form ∉ seen ∧ es.find? (fun other => other.form == e.form) = some e := by
  induction es generalizing seen with
  | nil => simp [firstExponents]
  | cons first es ih =>
      unfold firstExponents
      by_cases hseen : first.form ∈ seen
      · rw [if_pos hseen, ih]
        refine and_congr_right fun he => ?_
        have hne : first.form ≠ e.form := fun heq => he (heq ▸ hseen)
        rw [List.find?_cons_of_neg (by simpa using hne)]
      · rw [if_neg hseen, List.mem_cons, ih]
        by_cases hform : first.form = e.form
        · rw [List.find?_cons_of_pos (by simpa using hform), Option.some_inj]
          constructor
          · rintro (rfl | ⟨hnot, -⟩)
            · exact ⟨hseen, rfl⟩
            · exact absurd (hform ▸ List.mem_cons_self) hnot
          · rintro ⟨-, rfl⟩
            exact .inl rfl
        · rw [List.find?_cons_of_neg (by simpa using hform), List.mem_cons, not_or]
          constructor
          · rintro (rfl | ⟨⟨-, hnot⟩, hfound⟩)
            · exact absurd rfl hform
            · exact ⟨hnot, hfound⟩
          · rintro ⟨hnot, hfound⟩
            exact .inr ⟨⟨Ne.symm hform, hnot⟩, hfound⟩

/-- Looking up a form among the exponents that are kept is looking it up among all of them. -/
theorem find?_firstExponents {seen : List String} {es : List Exponent} {form : String}
    (hform : form ∉ seen) :
    (firstExponents seen es).find? (fun e => e.form == form) =
      es.find? fun e => e.form == form := by
  induction es generalizing seen with
  | nil => rfl
  | cons first es ih =>
      unfold firstExponents
      by_cases hseen : first.form ∈ seen
      · have hne : first.form ≠ form := fun heq => hform (heq ▸ hseen)
        rw [if_pos hseen, ih hform, List.find?_cons_of_neg (by simpa using hne)]
      · rw [if_neg hseen]
        by_cases heq : first.form = form
        · rw [List.find?_cons_of_pos (by simpa using heq),
            List.find?_cons_of_pos (by simpa using heq)]
        · rw [List.find?_cons_of_neg (by simpa using heq),
            List.find?_cons_of_neg (by simpa using heq)]
          apply ih
          simp [hform, Ne.symm heq]

theorem mem_firstExponents_relisted {es es' : List Exponent} (h : SameEntries es es')
    (e : Exponent) : e ∈ firstExponents [] es' ↔ e ∈ firstExponents [] es := by
  rw [mem_firstExponents_iff, mem_firstExponents_iff, h.find?]

/-- The groups depend on the members only. -/
theorem groupByValue_congr {es es' : List Exponent} (h : ∀ e, e ∈ es' ↔ e ∈ es) :
    groupByValue es' = groupByValue es := by
  have hvalues : sortStrings (es'.map Exponent.value) = sortStrings (es.map Exponent.value) := by
    apply sortStrings_congr
    simp [h]
  have hforms : ∀ value,
      sortStrings ((es'.filter fun e => e.value == value).map Exponent.form) =
        sortStrings ((es.filter fun e => e.value == value).map Exponent.form) := by
    intro value
    apply sortStrings_congr
    simp [h]
  unfold groupByValue
  rw [hvalues]
  simp only [hforms]

theorem lemmasByValue_relisted {es es' : List Exponent} (h : SameEntries es es') :
    lemmasByValue es' = lemmasByValue es :=
  groupByValue_congr (mem_firstExponents_relisted h)

/-! ## Lexicons -/

/-- What is known about a feature, listed in another order. -/
structure FeatureEntry.Relisted (known known' : FeatureEntry) : Prop where
  values : known.values.Perm known'.values
  lemmas : SameEntries known.lemmas known'.lemmas
  affixes : SameEntries known.affixes known'.affixes

/-- Maps with the same keys in which the values of a key are related. -/
def Ordered.StringMap.Related {α : Type} (R : α → α → Prop) (m m' : StringMap α) : Prop :=
  List.Forall₂ (fun entry entry' => entry.1 = entry'.1 ∧ R entry.2 entry'.2) m.entries m'.entries

theorem Ordered.StringMap.Related.find? {α : Type} {R : α → α → Prop} {m m' : StringMap α}
    (h : m.Related R m') (key : String) : Option.Rel R (m.find? key) (m'.find? key) := by
  unfold Ordered.StringMap.find?
  unfold Ordered.StringMap.Related at h
  generalize m.entries = entries at h
  generalize m'.entries = entries' at h
  induction h with
  | nil => exact .none
  | @cons entry entry' rest rest' hentry _ ih =>
      obtain ⟨hkey, hvalue⟩ := hentry
      by_cases hfound : entry.1 = key
      · rw [List.find?_cons_of_pos (by simpa using hfound),
          List.find?_cons_of_pos (by simpa [← hkey] using hfound)]
        exact .some hvalue
      · rw [List.find?_cons_of_neg (by simpa using hfound),
          List.find?_cons_of_neg (by simpa [← hkey] using hfound)]
        exact ih

/-- The same lexicon with its lists in another order. -/
structure Lexicon.Relisted (x x' : Lexicon) : Prop where
  projectName : x.projectName = x'.projectName
  categories : x.categories = x'.categories
  features : x.features.Related (StringMap.Related FeatureEntry.Relisted) x'.features

namespace Lexicon.Relisted

variable {x x' : Lexicon}

theorem lookup? (h : x.Relisted x') (category label : String) :
    Option.Rel FeatureEntry.Relisted (x.lookup? category label) (x'.lookup? category label) := by
  have hlabels := h.features.find? category
  unfold Lexicon.lookup?
  generalize x.features.find? category = labels at hlabels
  generalize x'.features.find? category = labels' at hlabels
  cases hlabels with
  | none => exact .none
  | some hlabels => exact hlabels.find? label

theorem values (h : x.Relisted x') (category label : String) :
    (x.values category label).Perm (x'.values category label) := by
  have hknown := h.lookup? category label
  unfold Lexicon.values
  generalize x.lookup? category label = known at hknown
  generalize x'.lookup? category label = known' at hknown
  cases hknown with
  | none => exact .refl _
  | some hknown => exact hknown.values

theorem lemmas (h : x.Relisted x') (category label : String) :
    SameEntries (x.lemmas category label) (x'.lemmas category label) := by
  have hknown := h.lookup? category label
  unfold Lexicon.lemmas
  generalize x.lookup? category label = known at hknown
  generalize x'.lookup? category label = known' at hknown
  cases hknown with
  | none => exact .refl _
  | some hknown => exact hknown.lemmas

theorem affixes (h : x.Relisted x') (category label : String) :
    SameEntries (x.affixes category label) (x'.affixes category label) := by
  have hknown := h.lookup? category label
  unfold Lexicon.affixes
  generalize x.lookup? category label = known at hknown
  generalize x'.lookup? category label = known' at hknown
  cases hknown with
  | none => exact .refl _
  | some hknown => exact hknown.affixes

theorem categoryNames (h : x.Relisted x') : x'.categoryNames = x.categoryNames := by
  rw [Lexicon.categoryNames, Lexicon.categoryNames, h.categories]

theorem subcategories (h : x.Relisted x') (category : String) :
    x'.subcategories category = x.subcategories category := by
  have hchildren : x'.children = x.children := by
    funext category
    rw [Lexicon.children, Lexicon.children, h.categories]
  rw [Lexicon.subcategories, Lexicon.subcategories, hchildren, h.categoryNames]

end Lexicon.Relisted

variable {x x' : Lexicon}

theorem featureValues_relisted (h : x.Relisted x') (key : FeatureKey) :
    featureValues x' key = featureValues x key := by
  apply StringSet.ext
  intro value
  unfold featureValues
  rw [StringSet.mem_ofList, StringSet.mem_ofList]
  have hvalues := h.values key.category key.label
  by_cases haffix : key.isAffix = true
  · rw [if_pos haffix, if_pos haffix]
    exact ((h.affixes key.category key.label).perm.map Exponent.form).symm.mem_iff
  · rw [if_neg haffix, if_neg haffix]
    cases hfeature : x.values key.category key.label with
    | nil =>
        rw [hfeature] at hvalues
        rw [hvalues.nil_eq.symm]
        exact (h.values "" key.label).symm.mem_iff
    | cons first rest =>
        rw [hfeature] at hvalues
        cases hfeature' : x'.values key.category key.label with
        | nil =>
            rw [hfeature'] at hvalues
            exact absurd hvalues.eq_nil nofun
        | cons first' rest' =>
            rw [hfeature'] at hvalues
            exact hvalues.symm.mem_iff

theorem allLemmas_relisted (h : x.Relisted x') (label : String) :
    SameEntries (allLemmas x label) (allLemmas x' label) := by
  unfold allLemmas
  rw [h.categoryNames]
  exact SameEntries.flatMap (fun category => h.lemmas category label) _

theorem disjointCategories_relisted (h : x.Relisted x') (set : DisjointSet) :
    disjointCategories x' set = disjointCategories x set := by
  unfold disjointCategories
  rw [h.categoryNames]
  congr 2
  funext pairing
  congr 1
  funext category
  rw [(h.lemmas category pairing.part).isEmpty_eq]

/-! ## Requests -/

namespace Workspace

variable (w : Workspace)

theorem ensureCategory_relisted (h : x.Relisted x') (category : String) (values : List String) :
    w.ensureCategory x' category values = w.ensureCategory x category values := by
  unfold ensureCategory
  rw [h.subcategories]

theorem ensureAttribute_relisted (h : x.Relisted x') (q : FeatureQuery) :
    w.ensureAttribute x' q = w.ensureAttribute x q := by
  unfold ensureAttribute
  rw [featureValues_relisted h]

theorem ensureLemmaMacro_relisted (h : x.Relisted x') (category label : String) :
    w.ensureLemmaMacro x' category label = w.ensureLemmaMacro x category label := by
  unfold ensureLemmaMacro
  rw [lemmasByValue_relisted (h.lemmas category label)]

theorem ensureDisjointMacro_relisted (h : x.Relisted x') (set : DisjointSet) :
    w.ensureDisjointMacro x' set = w.ensureDisjointMacro x set := by
  have hparts : ∀ part, lemmasByValue (allLemmas x' part) = lemmasByValue (allLemmas x part) :=
    fun part => lemmasByValue_relisted (allLemmas_relisted h part)
  unfold ensureDisjointMacro
  simp only [hparts, disjointCategories_relisted h]

end Workspace

end TransferRules

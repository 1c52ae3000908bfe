import TransferRules.Proofs.Ordered.Related
import TransferRules.Proofs.Text.Trimming
import TransferRules.Specification.Reading

/-!
# Well-formed rules

A rule of a specification may be any element.  Whatever is wrong in it is noted, and the faulty
word, affix or feature is left out.  So the compiler relies on this: a rule without issues has
words with ids of their own, one head, and no target word that translates nothing, and it lists all
that stands in the element.  Here both sides of this are said of the element alone.

For every part there is a relation between an element and what is meant by it, and the reader of the
part finds nothing wrong just if it gives back something to which the element is related.

## Main Definitions

* `Element.Says`, `Element.SaysYes` — what an attribute says
* `featureElements`, `affixElements`, `wordElements` — where the parts of a rule stand
* `FeatureOf`, `AffixOf`, `SourceWordOf`, `TargetWordOf`, `RuleOf` — what an element means
* `IsFeature`, `IsAffix`, `IsRule` — the elements that mean something

## Main Statements

* `readFeature_eq_ok_iff`, `readSourceWords_eq_iff`, `readTargetWords_eq_iff` — a reader finds
  nothing wrong just if it gives back what is meant
* `readRule_wellFormed` — just the well-formed rules are read without an issue
-/

namespace TransferRules

open TransferRules.Markup
open TransferRules.Ordered
open TransferRules.Text

/-! ## Attributes -/

namespace Markup.Element

/-- An attribute says what is left of its value without the blanks at its ends, if anything is. -/
def Says (e : Element) (key value : String) : Prop :=
  ∃ raw, e.attribute? key = some raw ∧ trim raw = value ∧ value ≠ ""

/-- An attribute says yes, in whatever case. -/
def SaysYes (e : Element) (key : String) : Prop :=
  ∃ raw, e.attribute? key = some raw ∧ lowerAscii (trim raw) = "yes"

end Markup.Element

variable {e : Element} {key : String}

theorem givenAttribute?_eq_some_iff {value : String} :
    givenAttribute? e key = some value ↔ e.Says key value := by
  simp only [givenAttribute?, Option.filter_eq_some_iff, Option.map_eq_some_iff,
    Bool.not_eq_true', Element.Says, ← Bool.not_eq_true, String.isEmpty_iff]
  constructor
  · rintro ⟨⟨raw, hraw, htrim⟩, hne⟩
    exact ⟨raw, hraw, htrim, hne⟩
  · rintro ⟨raw, hraw, htrim, hne⟩
    exact ⟨⟨raw, hraw, htrim⟩, hne⟩

theorem givenAttribute?_eq_none_iff :
    givenAttribute? e key = none ↔ ∀ value, ¬ e.Says key value := by
  simp only [Option.eq_none_iff_forall_ne_some, ne_eq, givenAttribute?_eq_some_iff]

/-- An attribute says one thing. -/
theorem Markup.Element.Says.unique {value value' : String} (h : e.Says key value)
    (h' : e.Says key value') : value = value' :=
  Option.some.inj ((givenAttribute?_eq_some_iff.2 h).symm.trans (givenAttribute?_eq_some_iff.2 h'))

theorem flag?_eq_some_true_iff : flag? e key = some true ↔ e.SaysYes key := by
  simp [flag?, Element.SaysYes]

instance : Decidable (e.SaysYes key) := decidable_of_iff _ flag?_eq_some_true_iff

theorem flag?_getD_eq_true_iff : (flag? e key).getD false = true ↔ e.SaysYes key := by
  rw [← flag?_eq_some_true_iff]
  cases flag? e key with
  | none => simp
  | some flag => simp

/-- What an attribute says has no blanks at its ends. -/
theorem Markup.Element.Says.trim_eq {value : String} (h : e.Says key value) :
    trim value = value := by
  obtain ⟨raw, -, rfl, -⟩ := h
  simp only [trim, String.toList_ofList, strip_strip]

/-! ## What elements mean -/

/-- A feature has a fixed value if one is given, else it agrees by a match label. -/
inductive BindingOf (e : Element) : Binding → Prop where
  | fixed {value : String} (h : e.Says "value" value) : BindingOf e (.fixed value)
  | agreement {label : String} (hvalue : ∀ value, ¬ e.Says "value" value)
      (h : e.Says "match" label) : BindingOf e (.agreement label)

/-- A ranking that is given is a numeral. -/
inductive RankingOf (e : Element) : Option Nat → Prop where
  | unranked (h : ∀ raw, ¬ e.Says "ranking" raw) : RankingOf e none
  | ranked {raw : String} {n : Nat} (h : e.Says "ranking" raw) (hn : IsUnsigned raw.toList n) :
      RankingOf e (some n)

/-- The feature that an element means. -/
structure FeatureOf (e : Element) (f : Feature) : Prop where
  label : e.Says "label" f.label
  binding : BindingOf e f.binding
  ranking : RankingOf e f.ranking
  fallback : ∀ value, f.fallback = some value ↔ e.Says "unmarked_default" value

/-- The first of the children with a tag, if there is one. -/
def firstNamed (e : Element) (tag : String) : List Element := (e.childrenNamed tag).take 1

theorem firstNamed_eq (e : Element) (tag : String) : firstNamed e tag = (e.child? tag).toList := by
  rw [firstNamed, List.take_one, Element.childrenNamed, List.head?_filter, Element.child?]

/-- The elements of the features of a word or affix: those in its first list of features, or in
itself. -/
def featureElements (owner : Element) : List Element :=
  ((firstNamed owner "Features").headD owner).childrenNamed "Feature"

/-- The side of an affix is after the stem unless it is given. -/
inductive SideOf (e : Element) : AffixSide → Prop where
  | unsaid (h : ∀ raw, ¬ e.Says "type" raw) : SideOf e .after
  | before {raw : String} (h : e.Says "type" raw) (hside : lowercase raw = "prefix") :
      SideOf e .before
  | after {raw : String} (h : e.Says "type" raw) (hside : lowercase raw = "suffix") :
      SideOf e .after

/-- The affix that an element means. -/
structure AffixOf (e : Element) (a : Affix) : Prop where
  side : SideOf e a.side
  features : List.Forall₂ FeatureOf (featureElements e) a.features

/-- The elements of the affixes of a word: those in its first list of affixes. -/
def affixElements (e : Element) : List Element :=
  (firstNamed e "Affixes").flatMap fun list => list.childrenNamed "Affix"

/-- The word of the source phrase that an element means. -/
structure SourceWordOf (e : Element) (w : SourceWord) : Prop where
  id : e.Says "id" w.id
  category : ∃ category, e.Says "category" category ∧ w.category = some category
  features : List.Forall₂ FeatureOf (featureElements e) w.features

/-- The word of the target phrase that an element means. -/
structure TargetWordOf (e : Element) (w : TargetWord) : Prop where
  id : e.Says "id" w.id
  isHead : w.isHead = true ↔ e.SaysYes "head"
  category : ∀ category, w.category = some category ↔ e.Says "category" category
  features : List.Forall₂ FeatureOf (featureElements e) w.features
  affixes : List.Forall₂ AffixOf (affixElements e) w.affixes

/-- The elements of the words of a phrase: those in the first list of words of the first phrase in
the first element of its name. -/
def wordElements (rule : Element) (phrase : String) : List Element :=
  (firstNamed rule phrase).flatMap fun side =>
    (firstNamed side "Phrase").flatMap fun inner =>
      (firstNamed inner "Words").flatMap fun words => words.childrenNamed "Word"

/-- The rule that an element means; a rule without a name is named by its number. -/
structure RuleOf (e : Element) (number : Nat) (r : Rule) : Prop where
  name : e.Says "name" r.name ∨
    (∀ name, ¬ e.Says "name" name) ∧ r.name = "Rule " ++ toString number
  source : List.Forall₂ SourceWordOf (wordElements e "Source") r.source
  target : List.Forall₂ TargetWordOf (wordElements e "Target") r.target
  permuted : r.permuted = false

/-! ## Where the parts of a rule stand -/

theorem featureElements_eq (owner : Element) :
    featureElements owner = ((owner.child? "Features").getD owner).childrenNamed "Feature" := by
  rw [featureElements, firstNamed_eq]
  cases owner.child? "Features" with
  | none => rfl
  | some list => rfl

theorem affixElements_eq (e : Element) : affixElements e =
    match e.child? "Affixes" with
    | some list => list.childrenNamed "Affix"
    | none => [] := by
  rw [affixElements, firstNamed_eq]
  cases e.child? "Affixes" with
  | none => rfl
  | some list => exact List.append_nil _

/-- The words of a phrase are read from where they stand. -/
theorem phraseWords_eq (rule : Element) (phrase : String) :
    phraseWords rule phrase = wordElements rule phrase := by
  simp only [wordElements, firstNamed_eq, phraseWords]
  cases rule.child? phrase with
  | none => rfl
  | some side =>
      rw [Option.bind_some, Option.toList_some, List.flatMap_singleton]
      cases side.child? "Phrase" with
      | none => rfl
      | some inner =>
          rw [Option.bind_some, Option.toList_some, List.flatMap_singleton]
          cases inner.child? "Words" with
          | none => rfl
          | some words => exact (List.append_nil _).symm

/-! ## Features -/

/-- A feature can be read if it has a label, a fixed value or a match label, and a numeral for a
ranking if it has one. -/
structure IsFeature (e : Element) : Prop where
  label : ∃ label, e.Says "label" label
  binding : (∃ value, e.Says "value" value) ∨ ∃ label, e.Says "match" label
  ranking : ∀ raw, e.Says "ranking" raw → ∃ n, IsUnsigned raw.toList n

theorem exists_bindingOf_iff :
    (∃ b, BindingOf e b) ↔ (∃ value, e.Says "value" value) ∨ ∃ label, e.Says "match" label := by
  constructor
  · rintro ⟨_, ⟨h⟩ | ⟨-, h⟩⟩
    · exact .inl ⟨_, h⟩
    · exact .inr ⟨_, h⟩
  · intro h
    by_cases hvalue : ∃ value, e.Says "value" value
    · obtain ⟨value, hvalue⟩ := hvalue
      exact ⟨_, .fixed hvalue⟩
    · obtain ⟨label, hlabel⟩ := h.resolve_left hvalue
      exact ⟨_, .agreement (not_exists.1 hvalue) hlabel⟩

theorem exists_rankingOf_iff :
    (∃ r, RankingOf e r) ↔ ∀ raw, e.Says "ranking" raw → ∃ n, IsUnsigned raw.toList n := by
  constructor
  · rintro ⟨_, ⟨hnone⟩ | ⟨hsaid, hn⟩⟩ raw hraw
    · exact absurd hraw (hnone raw)
    · exact ⟨_, hraw.unique hsaid ▸ hn⟩
  · intro h
    by_cases hranking : ∃ raw, e.Says "ranking" raw
    · obtain ⟨raw, hraw⟩ := hranking
      obtain ⟨n, hn⟩ := h raw hraw
      exact ⟨_, .ranked hraw hn⟩
    · exact ⟨_, .unranked (not_exists.1 hranking)⟩

theorem exists_featureOf_iff : (∃ f, FeatureOf e f) ↔ IsFeature e := by
  constructor
  · rintro ⟨f, h⟩
    exact ⟨⟨_, h.label⟩, exists_bindingOf_iff.1 ⟨_, h.binding⟩,
      exists_rankingOf_iff.1 ⟨_, h.ranking⟩⟩
  · intro h
    obtain ⟨label, hlabel⟩ := h.label
    obtain ⟨binding, hbinding⟩ := exists_bindingOf_iff.2 h.binding
    obtain ⟨ranking, hranking⟩ := exists_rankingOf_iff.2 h.ranking
    exact ⟨⟨label, binding, ranking, givenAttribute? e "unmarked_default"⟩, hlabel, hbinding,
      hranking, fun value => givenAttribute?_eq_some_iff⟩

theorem bindingOf_iff {b : Binding} :
    BindingOf e b ↔
      (match givenAttribute? e "value" with
        | some value => some (Binding.fixed value)
        | none => (givenAttribute? e "match").map Binding.agreement) = some b := by
  cases hvalue : givenAttribute? e "value" with
  | some value =>
      have hsaid := givenAttribute?_eq_some_iff.1 hvalue
      constructor
      · rintro (h | ⟨hnone, -⟩)
        · rw [h.unique hsaid]
        · exact absurd hsaid (hnone value)
      · rintro ⟨⟩
        exact .fixed hsaid
  | none =>
      have hnone := givenAttribute?_eq_none_iff.1 hvalue
      simp only [Option.map_eq_some_iff, givenAttribute?_eq_some_iff]
      constructor
      · rintro (h | ⟨-, h⟩)
        · exact absurd h (hnone _)
        · exact ⟨_, h, rfl⟩
      · rintro ⟨label, h, rfl⟩
        exact .agreement hnone h

theorem rankingOf_iff {r : Option Nat} :
    RankingOf e r ↔
      (match givenAttribute? e "ranking" with
        | some raw => (readUnsigned raw.toList).toOption.map some
        | none => some none) = some r := by
  cases hranking : givenAttribute? e "ranking" with
  | some raw =>
      have hsaid := givenAttribute?_eq_some_iff.1 hranking
      have hread : ∀ n, (readUnsigned raw.toList).toOption = some n ↔ IsUnsigned raw.toList n := by
        intro n
        rw [← readUnsigned_eq_ok_iff]
        cases readUnsigned raw.toList <;> simp [Except.toOption]
      simp only [Option.map_eq_some_iff, hread]
      constructor
      · rintro (hnone | ⟨h, hn⟩)
        · exact absurd hsaid (hnone raw)
        · exact ⟨_, hsaid.unique h ▸ hn, rfl⟩
      · rintro ⟨n, hn, rfl⟩
        exact .ranked hsaid hn
  | none =>
      have hnone := givenAttribute?_eq_none_iff.1 hranking
      constructor
      · rintro (- | ⟨h, -⟩)
        · rfl
        · exact absurd h (hnone _)
      · rintro ⟨⟩
        exact .unranked hnone

/-- What the attributes have to give for a feature. -/
theorem featureOf_iff {f : Feature} :
    FeatureOf e f ↔ givenAttribute? e "label" = some f.label ∧
      (match givenAttribute? e "value" with
        | some value => some (Binding.fixed value)
        | none => (givenAttribute? e "match").map Binding.agreement) = some f.binding ∧
      (match givenAttribute? e "ranking" with
        | some raw => (readUnsigned raw.toList).toOption.map some
        | none => some none) = some f.ranking ∧
      givenAttribute? e "unmarked_default" = f.fallback := by
  rw [← bindingOf_iff, ← rankingOf_iff, givenAttribute?_eq_some_iff, Option.ext_iff]
  simp only [givenAttribute?_eq_some_iff]
  constructor
  · rintro ⟨hlabel, hbinding, hranking, hfallback⟩
    exact ⟨hlabel, hbinding, hranking, fun value => (hfallback value).symm⟩
  · rintro ⟨hlabel, hbinding, hranking, hfallback⟩
    exact ⟨hlabel, hbinding, hranking, fun value => (hfallback value).symm⟩

/-- A feature is read just if an element means it. -/
theorem readFeature_eq_ok_iff {rule word : String} {f : Feature} :
    readFeature rule word e = .ok f ↔ FeatureOf e f := by
  have hlabel : ∀ label, givenAttribute? e "label" = some label → label.isEmpty = false := by
    intro label h
    obtain ⟨raw, -, -, hne⟩ := givenAttribute?_eq_some_iff.1 h
    exact Bool.eq_false_iff.2 fun hempty => hne (String.isEmpty_iff.1 hempty)
  rw [featureOf_iff, readFeature]
  obtain ⟨label, binding, ranking, fallback⟩ := f
  cases hgiven : givenAttribute? e "label" with
  | none =>
      cases givenAttribute? e "value" <;> cases givenAttribute? e "match" <;>
        simp [bind, Except.bind]
  | some label =>
      have hne := hlabel label hgiven
      cases givenAttribute? e "ranking" with
      | none =>
          cases givenAttribute? e "value" <;> cases givenAttribute? e "match" <;>
            simp [bind, Except.bind, pure, Except.pure, hne]
      | some raw =>
          cases hread : readUnsigned raw.toList <;>
          cases givenAttribute? e "value" <;> cases givenAttribute? e "match" <;>
            simp [bind, Except.bind, pure, Except.pure, hne, hread, Except.toOption]

/-- Nothing is wrong just if everything could be read. -/
theorem separate_eq_iff {α : Type} {items : List (Except Issue α)} {as : List α} :
    separate items = (as, []) ↔ items = as.map .ok := by
  induction items generalizing as with
  | nil => cases as <;> simp [separate]
  | cons item items ih =>
      cases item with
      | error issue => cases as <;> simp [separate]
      | ok a =>
          rcases hrest : separate items with ⟨rest, issues⟩
          rw [hrest] at ih
          cases as with
          | nil => simp [separate]
          | cons b as =>
              simp only [separate, hrest, Prod.mk.injEq, List.cons.injEq, List.map_cons,
                Except.ok.injEq, ← ih, and_assoc]

theorem readFeatures_eq_iff {rule word : String} {owner : Element} {fs : List Feature} :
    readFeatures rule word owner = (fs, []) ↔
      List.Forall₂ FeatureOf (featureElements owner) fs := by
  rw [readFeatures, ← featureElements_eq, separate_eq_iff, ← List.forall₂_eq_eq_eq,
    List.forall₂_map_left_iff, List.forall₂_map_right_iff]
  simp only [readFeature_eq_ok_iff]

/-! ## Affixes -/

theorem AffixSide.parse_eq_ok_iff {text : String} {side : AffixSide} :
    AffixSide.parse text = .ok side ↔ lowercase (trim text) = side.word := by
  have hwords : AffixSide.before.word ≠ AffixSide.after.word := by decide
  unfold parse
  dsimp only
  split
  · next hbefore => cases side <;> simp [hbefore, hwords]
  · next hbefore =>
    split
    · next hafter => cases side <;> simp [hafter, hwords.symm]
    · next hafter => cases side <;> simp [hbefore, hafter]

theorem readAffixSide_eq_ok_iff {rule word : String} {side : AffixSide} :
    readAffixSide rule word e = .ok side ↔ SideOf e side := by
  unfold readAffixSide
  cases htype : givenAttribute? e "type" with
  | none =>
      have hnone := givenAttribute?_eq_none_iff.1 htype
      constructor
      · rintro ⟨⟩
        exact .unsaid hnone
      · rintro (- | ⟨h, -⟩ | ⟨h, -⟩)
        · rfl
        · exact absurd h (hnone _)
        · exact absurd h (hnone _)
  | some raw =>
      have hsaid := givenAttribute?_eq_some_iff.1 htype
      have hparse : AffixSide.parse raw = .ok side ↔ SideOf e side := by
        rw [AffixSide.parse_eq_ok_iff, hsaid.trim_eq]
        constructor
        · intro hside
          cases side with
          | before => exact .before hsaid hside
          | after => exact .after hsaid hside
        · rintro (hnone | ⟨h, hside⟩ | ⟨h, hside⟩)
          · exact absurd hsaid (hnone raw)
          · exact hsaid.unique h ▸ hside
          · exact hsaid.unique h ▸ hside
      rw [← hparse]
      dsimp only
      cases AffixSide.parse raw <;> simp

theorem readAffixes_eq_iff {rule word : String} {es : List Element} {affixes : List Affix} :
    readAffixes rule word es = (affixes, []) ↔ List.Forall₂ AffixOf es affixes := by
  induction es generalizing affixes with
  | nil => cases affixes <;> simp [readAffixes]
  | cons e es ih =>
      rcases hrest : readAffixes rule word es with ⟨rest, issues⟩
      rw [hrest] at ih
      rw [readAffixes, hrest]
      dsimp only
      cases hside : readAffixSide rule word e with
      | error issue =>
          constructor
          · nofun
          · rintro (- | ⟨haffix, -⟩)
            rw [readAffixSide_eq_ok_iff.2 haffix.side] at hside
            cases hside
      | ok side =>
          rcases hfeatures : readFeatures rule word e with ⟨features, featureIssues⟩
          constructor
          · intro h
            obtain ⟨rfl, hissues⟩ := Prod.mk.inj h
            obtain ⟨rfl, rfl⟩ := List.append_eq_nil_iff.1 hissues
            exact .cons ⟨readAffixSide_eq_ok_iff.1 hside, readFeatures_eq_iff.1 hfeatures⟩
              (ih.1 rfl)
          · rintro (- | ⟨⟨haffixSide, haffixFeatures⟩, haffixes⟩)
            rw [readAffixSide_eq_ok_iff.2 haffixSide] at hside
            rw [readFeatures_eq_iff.2 haffixFeatures] at hfeatures
            cases hside
            cases hfeatures
            cases ih.2 haffixes
            rfl

/-! ## Words -/

/-- Words have ids of their own, and none of those that are seen. -/
def OwnIds (seen : List String) (es : List Element) : Prop :=
  es.Pairwise (fun v w => ∀ id, v.Says "id" id → ¬ w.Says "id" id) ∧
    ∀ w ∈ es, ∀ id ∈ seen, ¬ w.Says "id" id

theorem ownIds_cons {seen : List String} {es : List Element} {id : String}
    (hid : e.Says "id" id) :
    OwnIds seen (e :: es) ↔ id ∉ seen ∧ OwnIds (id :: seen) es := by
  simp only [OwnIds, List.pairwise_cons, List.forall_mem_cons]
  constructor
  · rintro ⟨⟨hothers, hes⟩, he, hseen⟩
    exact ⟨fun h => he id h hid, hes, fun w hw => ⟨hothers w hw id hid, hseen w hw⟩⟩
  · rintro ⟨hnot, hes, hseen⟩
    refine ⟨⟨fun w hw other hother => ?_, hes⟩, fun other hother hsaid => ?_,
      fun w hw => (hseen w hw).2⟩
    · rw [hother.unique hid]
      exact (hseen w hw).1
    · exact hnot (hid.unique hsaid ▸ hother)

theorem readSourceWords_eq_iff {rule : String} {seen : List String} {es : List Element}
    {ws : List SourceWord} :
    readSourceWords rule seen es = (ws, []) ↔
      List.Forall₂ SourceWordOf es ws ∧ OwnIds seen es := by
  induction es generalizing seen ws with
  | nil => cases ws <;> simp [readSourceWords, OwnIds]
  | cons e es ih =>
      rw [readSourceWords]
      cases hid : givenAttribute? e "id" with
      | none =>
          constructor
          · nofun
          · rintro ⟨- | ⟨hword, -⟩, -⟩
            exact absurd hword.id (givenAttribute?_eq_none_iff.1 hid _)
      | some id =>
          have hsaid := givenAttribute?_eq_some_iff.1 hid
          rw [ownIds_cons hsaid]
          dsimp only
          split
          · next hseen =>
            constructor
            · nofun
            · exact fun h => absurd hseen h.2.1
          · next hseen =>
            rcases hrest : readSourceWords rule (id :: seen) es with ⟨rest, issues⟩
            rcases hfeatures : readFeatures rule id e with ⟨features, featureIssues⟩
            dsimp only
            constructor
            · intro h
              obtain ⟨rfl, hissues⟩ := Prod.mk.inj h
              obtain ⟨hown, rfl⟩ := List.append_eq_nil_iff.1 hissues
              obtain ⟨hcategory, rfl⟩ := List.append_eq_nil_iff.1 hown
              obtain ⟨hwords, hids⟩ := ih.1 hrest
              refine ⟨.cons ⟨hsaid, ?_, readFeatures_eq_iff.1 hfeatures⟩ hwords, hseen, hids⟩
              cases hgiven : givenAttribute? e "category" with
              | none => simp [hgiven] at hcategory
              | some category => exact ⟨category, givenAttribute?_eq_some_iff.1 hgiven, rfl⟩
            · rintro ⟨- | @⟨_, word, _, _, hword, hwords⟩, -, hids⟩
              obtain ⟨wordId, _, _⟩ := word
              obtain ⟨hwordId, ⟨category, hgiven, rfl⟩, hwordFeatures⟩ := hword
              rw [ih.2 ⟨hwords, hids⟩] at hrest
              rw [readFeatures_eq_iff.2 hwordFeatures] at hfeatures
              cases hrest
              cases hfeatures
              cases hsaid.unique hwordId
              rw [givenAttribute?_eq_some_iff.2 hgiven]
              rfl

theorem readTargetWord_eq_iff {rule id : String} {w : TargetWord} (hid : e.Says "id" id) :
    readTargetWord rule id e = (w, []) ↔ TargetWordOf e w := by
  have hread : readTargetWord rule id e =
      ({ id
         isHead := (flag? e "head").getD false
         category := givenAttribute? e "category"
         features := (readFeatures rule id e).1
         affixes := (readAffixes rule id (affixElements e)).1 },
        (readFeatures rule id e).2 ++ (readAffixes rule id (affixElements e)).2) := by
    rw [affixElements_eq]
    rfl
  rw [hread]
  rcases hfeatures : readFeatures rule id e with ⟨features, featureIssues⟩
  rcases haffixes : readAffixes rule id (affixElements e) with ⟨affixes, affixIssues⟩
  dsimp only
  constructor
  · intro h
    obtain ⟨rfl, hissues⟩ := Prod.mk.inj h
    obtain ⟨rfl, rfl⟩ := List.append_eq_nil_iff.1 hissues
    exact {
      id := hid
      isHead := flag?_getD_eq_true_iff
      category := fun _ => givenAttribute?_eq_some_iff
      features := readFeatures_eq_iff.1 hfeatures
      affixes := readAffixes_eq_iff.1 haffixes }
  · intro h
    rw [readFeatures_eq_iff.2 h.features] at hfeatures
    rw [readAffixes_eq_iff.2 h.affixes] at haffixes
    cases hfeatures
    cases haffixes
    have hhead : (flag? e "head").getD false = w.isHead :=
      Bool.eq_iff_iff.2 (flag?_getD_eq_true_iff.trans h.isHead.symm)
    have hcategory : givenAttribute? e "category" = w.category :=
      Option.ext fun _ => givenAttribute?_eq_some_iff.trans (h.category _).symm
    rw [hhead, hcategory, hid.unique h.id]
    rfl

/-- The words of the target phrase are read just if they are meant and translate words with the
given ids. -/
theorem readTargetWords_eq_iff {rule : String} {sourceIds seen : List String} {es : List Element}
    {ws : List TargetWord} :
    readTargetWords rule sourceIds seen es = (ws, []) ↔
      List.Forall₂ TargetWordOf es ws ∧ OwnIds seen es ∧
        ∀ w ∈ es, ∀ id, w.Says "id" id → id ∈ sourceIds := by
  induction es generalizing seen ws with
  | nil => cases ws <;> simp [readTargetWords, OwnIds]
  | cons e es ih =>
      rw [readTargetWords]
      cases hid : givenAttribute? e "id" with
      | none =>
          constructor
          · nofun
          · rintro ⟨- | ⟨hword, -⟩, -⟩
            exact absurd hword.id (givenAttribute?_eq_none_iff.1 hid _)
      | some id =>
          have hsaid := givenAttribute?_eq_some_iff.1 hid
          rw [ownIds_cons hsaid, List.forall_mem_cons]
          dsimp only
          split
          · next hseen =>
            constructor
            · nofun
            · exact fun h => absurd hseen h.2.1.1
          · next hseen =>
            rcases hrest : readTargetWords rule sourceIds (id :: seen) es with ⟨rest, issues⟩
            rcases hfirst : readTargetWord rule id e with ⟨first, firstIssues⟩
            dsimp only
            constructor
            · intro h
              obtain ⟨rfl, hissues⟩ := Prod.mk.inj h
              obtain ⟨hown, rfl⟩ := List.append_eq_nil_iff.1 hissues
              obtain ⟨hunknown, rfl⟩ := List.append_eq_nil_iff.1 hown
              obtain ⟨hwords, hids, hknown⟩ := ih.1 hrest
              refine ⟨.cons ((readTargetWord_eq_iff hsaid).1 hfirst) hwords, ⟨hseen, hids⟩, ?_,
                hknown⟩
              intro id' hid'
              rw [hid'.unique hsaid]
              by_contra hnot
              simp [hnot] at hunknown
            · rintro ⟨- | ⟨hword, hwords⟩, ⟨-, hids⟩, hid', hknown⟩
              rw [ih.2 ⟨hwords, hids, hknown⟩] at hrest
              rw [(readTargetWord_eq_iff hsaid).2 hword] at hfirst
              cases hrest
              cases hfirst
              rw [if_pos (hid' id hsaid)]
              rfl

/-! ## The elements that mean something -/

/-- Some elements of features can be read. -/
theorem exists_features_iff {es : List Element} :
    (∃ fs, List.Forall₂ FeatureOf es fs) ↔ ∀ e ∈ es, IsFeature e := by
  simp only [exists_forall₂_iff, exists_featureOf_iff]

/-- An affix can be read if its type, if it has one, is one of the two, and its features can be
read. -/
structure IsAffix (e : Element) : Prop where
  type : ∀ raw, e.Says "type" raw → lowercase raw = "prefix" ∨ lowercase raw = "suffix"
  features : ∀ f ∈ featureElements e, IsFeature f

theorem exists_affixOf_iff : (∃ a, AffixOf e a) ↔ IsAffix e := by
  constructor
  · rintro ⟨⟨side, features⟩, hside, hfeatures⟩
    refine ⟨fun raw hraw => ?_, exists_features_iff.1 ⟨_, hfeatures⟩⟩
    rcases hside with hnone | ⟨h, hside⟩ | ⟨h, hside⟩
    · exact absurd hraw (hnone raw)
    · exact .inl (hraw.unique h ▸ hside)
    · exact .inr (hraw.unique h ▸ hside)
  · rintro ⟨htype, hfeatures⟩
    obtain ⟨features, hfeatures⟩ := exists_features_iff.2 hfeatures
    by_cases hsaid : ∃ raw, e.Says "type" raw
    · obtain ⟨raw, hraw⟩ := hsaid
      rcases htype raw hraw with hside | hside
      · exact ⟨⟨.before, features⟩, .before hraw hside, hfeatures⟩
      · exact ⟨⟨.after, features⟩, .after hraw hside, hfeatures⟩
    · exact ⟨⟨.after, features⟩, .unsaid (not_exists.1 hsaid), hfeatures⟩

/-- A word of the source phrase can be read if it has an id and a category, and its features can
be read. -/
structure IsSourceWord (e : Element) : Prop where
  id : ∃ id, e.Says "id" id
  category : ∃ category, e.Says "category" category
  features : ∀ f ∈ featureElements e, IsFeature f

theorem exists_sourceWordOf_iff : (∃ w, SourceWordOf e w) ↔ IsSourceWord e := by
  constructor
  · rintro ⟨w, hid, ⟨category, hcategory, -⟩, hfeatures⟩
    exact ⟨⟨_, hid⟩, ⟨_, hcategory⟩, exists_features_iff.1 ⟨_, hfeatures⟩⟩
  · rintro ⟨⟨id, hid⟩, ⟨category, hcategory⟩, hfeatures⟩
    obtain ⟨features, hfeatures⟩ := exists_features_iff.2 hfeatures
    exact ⟨⟨id, some category, features⟩, hid, ⟨category, hcategory, rfl⟩, hfeatures⟩

/-- A word of the target phrase can be read if it has an id, and its affixes and features can be
read. -/
structure IsTargetWord (e : Element) : Prop where
  id : ∃ id, e.Says "id" id
  affixes : ∀ a ∈ affixElements e, IsAffix a
  features : ∀ f ∈ featureElements e, IsFeature f

theorem exists_targetWordOf_iff : (∃ w, TargetWordOf e w) ↔ IsTargetWord e := by
  constructor
  · rintro ⟨w, h⟩
    have haffixes := exists_forall₂_iff.1 ⟨_, h.affixes⟩
    exact ⟨⟨_, h.id⟩, fun a ha => exists_affixOf_iff.1 (haffixes a ha),
      exists_features_iff.1 ⟨_, h.features⟩⟩
  · rintro ⟨⟨id, hid⟩, haffixes, hfeatures⟩
    obtain ⟨features, hfeatures⟩ := exists_features_iff.2 hfeatures
    obtain ⟨affixes, haffixes⟩ := exists_forall₂_iff.2 fun a ha =>
      exists_affixOf_iff.2 (haffixes a ha)
    exact ⟨{ id
             isHead := decide (e.SaysYes "head")
             category := givenAttribute? e "category"
             features
             affixes },
      hid, decide_eq_true_iff, fun _ => givenAttribute?_eq_some_iff, hfeatures, haffixes⟩

/-- A rule is well formed if it has a word in the source phrase, all its words can be read, their
ids are their own within each phrase, every word of the target phrase translates one of the source
phrase, and one word of the target phrase is the head. -/
structure IsRule (e : Element) : Prop where
  nonempty : wordElements e "Source" ≠ []
  source : ∀ w ∈ wordElements e "Source", IsSourceWord w
  target : ∀ w ∈ wordElements e "Target", IsTargetWord w
  sourceIds : (wordElements e "Source").Pairwise fun v w =>
    ∀ id, v.Says "id" id → ¬ w.Says "id" id
  targetIds : (wordElements e "Target").Pairwise fun v w =>
    ∀ id, v.Says "id" id → ¬ w.Says "id" id
  translated : ∀ w ∈ wordElements e "Target", ∀ id, w.Says "id" id →
    ∃ v ∈ wordElements e "Source", v.Says "id" id
  head : (wordElements e "Target").countP (fun w => decide (w.SaysYes "head")) = 1

/-! ## Rules -/

/-- The heads among the words that are meant are the elements that say so. -/
theorem countP_isHead {es : List Element} {ws : List TargetWord}
    (h : List.Forall₂ TargetWordOf es ws) :
    ws.countP TargetWord.isHead = es.countP fun e => decide (e.SaysYes "head") := by
  induction h with
  | nil => rfl
  | @cons e w es ws hword _ ih =>
      have hhead : w.isHead = decide (e.SaysYes "head") := by
        rw [Bool.eq_iff_iff, decide_eq_true_iff, hword.isHead]
      rw [List.countP_cons, List.countP_cons, ih, hhead]

theorem headIssues_eq_nil_iff {name : String} {target : List TargetWord} :
    headIssues name target = [] ↔ target.countP TargetWord.isHead = 1 := by
  unfold headIssues
  split
  · next h => simp [h]
  · next h => simp [h]
  · next h => simpa using h

theorem ownIds_nil_iff {es : List Element} :
    OwnIds [] es ↔ es.Pairwise fun v w => ∀ id, v.Says "id" id → ¬ w.Says "id" id := by
  simp [OwnIds]

theorem mem_givenIds_iff {es : List Element} {id : String} :
    id ∈ (es.filterMap fun e => givenAttribute? e "id") ↔ ∃ e ∈ es, e.Says "id" id := by
  simp only [List.mem_filterMap, givenAttribute?_eq_some_iff]

/-- A rule is named by its attribute, or else by its number. -/
theorem ruleName_eq_iff {number : Nat} {name : String} :
    (givenAttribute? e "name").getD ("Rule " ++ toString number) = name ↔
      e.Says "name" name ∨ (∀ name, ¬ e.Says "name" name) ∧ name = "Rule " ++ toString number := by
  cases hgiven : givenAttribute? e "name" with
  | none =>
      have hnone := givenAttribute?_eq_none_iff.1 hgiven
      constructor
      · rintro rfl
        exact .inr ⟨hnone, rfl⟩
      · rintro (h | ⟨-, rfl⟩)
        · exact absurd h (hnone name)
        · rfl
  | some given =>
      have hsaid := givenAttribute?_eq_some_iff.1 hgiven
      constructor
      · rintro rfl
        exact .inl hsaid
      · rintro (h | ⟨hnone, -⟩)
        · exact hsaid.unique h
        · exact absurd hsaid (hnone given)

/-- A rule is read without an issue just if its words are meant and go together. -/
theorem readRule_eq_iff {number : Nat} {r : Rule} :
    (readRule e number).issues = [] ∧ (readRule e number).rule = r ↔
      RuleOf e number r ∧ r.source ≠ [] ∧ OwnIds [] (wordElements e "Source") ∧
        OwnIds [] (wordElements e "Target") ∧
        (∀ w ∈ wordElements e "Target", ∀ id, w.Says "id" id →
          ∃ v ∈ wordElements e "Source", v.Says "id" id) ∧
        r.target.countP TargetWord.isHead = 1 := by
  have hread : readRule e number =
      let name := (givenAttribute? e "name").getD ("Rule " ++ toString number)
      let source := readSourceWords name [] (wordElements e "Source")
      let target := readTargetWords name
        ((wordElements e "Source").filterMap fun w => givenAttribute? w "id") []
        (wordElements e "Target")
      { rule := { name, source := source.1, target := target.1 }
        permuted := flag? e "create_permutations"
        issues := source.2 ++
          (if source.1.isEmpty && source.2.isEmpty then [.emptySourcePhrase name] else []) ++
          target.2 ++ headIssues name target.1 } := by
    simp only [← phraseWords_eq]
    rfl
  rw [hread]
  dsimp only
  generalize hname : (givenAttribute? e "name").getD ("Rule " ++ toString number) = name
  rcases hsource : readSourceWords name [] (wordElements e "Source") with ⟨source, sourceIssues⟩
  rcases htarget : readTargetWords name
    ((wordElements e "Source").filterMap fun w => givenAttribute? w "id") []
    (wordElements e "Target") with ⟨target, targetIssues⟩
  dsimp only
  constructor
  · rintro ⟨hissues, rfl⟩
    obtain ⟨hwords, hhead⟩ := List.append_eq_nil_iff.1 hissues
    obtain ⟨hsourceIssues, rfl⟩ := List.append_eq_nil_iff.1 hwords
    obtain ⟨rfl, hnonempty⟩ := List.append_eq_nil_iff.1 hsourceIssues
    obtain ⟨hsourceWords, hsourceIds⟩ := readSourceWords_eq_iff.1 hsource
    obtain ⟨htargetWords, htargetIds, hknown⟩ := readTargetWords_eq_iff.1 htarget
    refine ⟨⟨ruleName_eq_iff.1 hname, hsourceWords, htargetWords, rfl⟩, ?_, hsourceIds,
      htargetIds, fun w hw id hid => mem_givenIds_iff.1 (hknown w hw id hid),
      headIssues_eq_nil_iff.1 hhead⟩
    rintro rfl
    simp at hnonempty
  · rintro ⟨⟨hruleName, hsourceWords, htargetWords, hpermuted⟩, hnonempty, hsourceIds, htargetIds,
      hknown, hhead⟩
    rw [readSourceWords_eq_iff.2 ⟨hsourceWords, hsourceIds⟩] at hsource
    rw [readTargetWords_eq_iff.2 ⟨htargetWords, htargetIds,
      fun w hw id hid => mem_givenIds_iff.2 (hknown w hw id hid)⟩] at htarget
    cases hsource
    cases htarget
    obtain rfl := hname.symm.trans (ruleName_eq_iff.2 hruleName)
    rw [headIssues_eq_nil_iff.2 hhead, if_neg (by simp [hnonempty])]
    refine ⟨rfl, ?_⟩
    rw [← hpermuted]

/-! ## What is found wrong -/

theorem mem_issues_separate {α : Type} {items : List (Except Issue α)} {issue : Issue}
    (h : issue ∈ (separate items).2) : .error issue ∈ items := by
  induction items with
  | nil => cases h
  | cons item items ih =>
      cases item with
      | ok a => exact List.mem_cons_of_mem _ (ih h)
      | error first =>
          rcases List.mem_cons.1 h with rfl | h
          · exact List.mem_cons_self
          · exact List.mem_cons_of_mem _ (ih h)

theorem skipsRule_of_readFeature {rule word : String} {issue : Issue}
    (h : readFeature rule word e = .error issue) : issue.skipsRule = true := by
  unfold readFeature at h
  simp only [bind, Except.bind, pure, Except.pure] at h
  repeat' split at h
  all_goals cases h <;> rfl

theorem skipsRule_of_readFeatures {rule word : String} {owner : Element} {issue : Issue}
    (h : issue ∈ (readFeatures rule word owner).2) : issue.skipsRule = true := by
  obtain ⟨feature, -, hfeature⟩ := List.mem_map.1 (mem_issues_separate h)
  exact skipsRule_of_readFeature hfeature

theorem skipsRule_of_readAffixes {rule word : String} {es : List Element} {issue : Issue}
    (h : issue ∈ (readAffixes rule word es).2) : issue.skipsRule = true := by
  induction es with
  | nil => cases h
  | cons e es ih =>
      rw [readAffixes] at h
      dsimp only at h
      cases hside : readAffixSide rule word e with
      | error first =>
          rw [hside] at h
          rcases List.mem_cons.1 h with rfl | h
          · unfold readAffixSide at hside
            repeat' split at hside
            all_goals cases hside <;> rfl
          · exact ih h
      | ok side =>
          rw [hside] at h
          rcases List.mem_append.1 h with h | h
          · exact skipsRule_of_readFeatures h
          · exact ih h

theorem skipsRule_of_readSourceWords {rule : String} {seen : List String} {es : List Element}
    {issue : Issue} (h : issue ∈ (readSourceWords rule seen es).2) : issue.skipsRule = true := by
  induction es generalizing seen with
  | nil => cases h
  | cons e es ih =>
      rw [readSourceWords] at h
      dsimp only at h
      split at h
      · rcases List.mem_cons.1 h with rfl | h
        · rfl
        · exact ih h
      · split at h
        · rcases List.mem_cons.1 h with rfl | h
          · rfl
          · exact ih h
        · rcases List.mem_append.1 h with h | h
          · rcases List.mem_append.1 h with h | h
            · split at h
              · cases List.mem_singleton.1 h
                rfl
              · cases h
            · exact skipsRule_of_readFeatures h
          · exact ih h

theorem skipsRule_of_readTargetWords {rule : String} {sourceIds seen : List String}
    {es : List Element} {issue : Issue}
    (h : issue ∈ (readTargetWords rule sourceIds seen es).2) : issue.skipsRule = true := by
  induction es generalizing seen with
  | nil => cases h
  | cons e es ih =>
      rw [readTargetWords] at h
      dsimp only at h
      split at h
      · rcases List.mem_cons.1 h with rfl | h
        · rfl
        · exact ih h
      · split at h
        · rcases List.mem_cons.1 h with rfl | h
          · rfl
          · exact ih h
        · rcases List.mem_append.1 h with h | h
          · rcases List.mem_append.1 h with h | h
            · split at h
              · cases h
              · cases List.mem_singleton.1 h
                rfl
            · rcases List.mem_append.1 h with h | h
              · exact skipsRule_of_readFeatures h
              · exact skipsRule_of_readAffixes h
          · exact ih h

/-- Whatever is found wrong in a rule skips it. -/
theorem skipsRule_of_readRule {number : Nat} {issue : Issue}
    (h : issue ∈ (readRule e number).issues) : issue.skipsRule = true := by
  unfold readRule at h
  rcases List.mem_append.1 h with h | h
  · rcases List.mem_append.1 h with h | h
    · rcases List.mem_append.1 h with h | h
      · exact skipsRule_of_readSourceWords h
      · split at h
        · cases List.mem_singleton.1 h
          rfl
        · cases h
    · exact skipsRule_of_readTargetWords h
  · unfold headIssues at h
    split at h
    · cases List.mem_singleton.1 h
      rfl
    · cases h
    · cases List.mem_singleton.1 h
      rfl

/-- So nothing skips a rule just if nothing is found wrong in it. -/
theorem isValid_readRule_iff {number : Nat} :
    (readRule e number).isValid = true ↔ (readRule e number).issues = [] := by
  rw [SpecifiedRule.isValid, Bool.not_eq_true', List.any_eq_false, List.eq_nil_iff_forall_not_mem]
  constructor
  · exact fun h issue hissue => h issue hissue (skipsRule_of_readRule hissue)
  · exact fun h issue hissue => absurd hissue (h issue)

/-- **Just the well-formed rules are read without an issue**, which is to say that nothing skips
them, and what is read lists their words, affixes and features. -/
theorem readRule_wellFormed (e : Element) (number : Nat) :
    ((readRule e number).issues = [] ↔ IsRule e) ∧
      ((readRule e number).isValid = true ↔ IsRule e) ∧
      (IsRule e → RuleOf e number (readRule e number).rule) := by
  have hissues : (readRule e number).issues = [] ↔ IsRule e := by
    constructor
    · intro h
      obtain ⟨hrule, hnonempty, hsourceIds, htargetIds, hknown, hhead⟩ := readRule_eq_iff.1 ⟨h, rfl⟩
      exact {
        nonempty := fun hnil => hnonempty (List.forall₂_nil_left_iff.1 (hnil ▸ hrule.source))
        source := fun w hw =>
          exists_sourceWordOf_iff.1 (exists_forall₂_iff.1 ⟨_, hrule.source⟩ w hw)
        target := fun w hw =>
          exists_targetWordOf_iff.1 (exists_forall₂_iff.1 ⟨_, hrule.target⟩ w hw)
        sourceIds := ownIds_nil_iff.1 hsourceIds
        targetIds := ownIds_nil_iff.1 htargetIds
        translated := hknown
        head := countP_isHead hrule.target ▸ hhead }
    · intro h
      obtain ⟨source, hsource⟩ := exists_forall₂_iff.2 fun w hw =>
        exists_sourceWordOf_iff.2 (h.source w hw)
      obtain ⟨target, htarget⟩ := exists_forall₂_iff.2 fun w hw =>
        exists_targetWordOf_iff.2 (h.target w hw)
      have hrule : RuleOf e number
          ⟨(givenAttribute? e "name").getD ("Rule " ++ toString number), source, target, false⟩ :=
        ⟨ruleName_eq_iff.1 rfl, hsource, htarget, rfl⟩
      refine (readRule_eq_iff.2 ⟨hrule, ?_, ownIds_nil_iff.2 h.sourceIds,
        ownIds_nil_iff.2 h.targetIds, h.translated, (countP_isHead htarget).trans h.head⟩).1
      rintro rfl
      exact h.nonempty (List.forall₂_nil_right_iff.1 hsource)
  exact ⟨hissues, isValid_readRule_iff.trans hissues,
    fun h => (readRule_eq_iff.1 ⟨hissues.2 h, rfl⟩).1⟩

/-- The element of a rule for a determiner and a noun.  The determiner has a prefix that agrees in
number with the noun, a suffix for a case, and a feature with both a value and a match label. -/
def agreeingElement : Element :=
  ⟨"FLExTransRule", [("name", " Det N "), ("create_permutations", "no")], [
    .element "Source" [] [.element "Phrase" [] [.element "Words" [] [
      .element "Word" [("id", "1"), ("category", " det ")] [],
      .element "Word" [("id", "2"), ("category", "n")] [.element "Features" [] [
        .element "Feature" [("label", "number"), ("match", "α"), ("ranking", "2")] []]]]]],
    .comment "the second phrase is not read",
    .element "Target" [] [.element "Phrase" [] [.element "Words" [] [
      .element "Word" [("id", "2"), ("head", " YES ")] [],
      .element "Word" [("id", "1")] [
        .element "Feature" [("label", "gender"), ("value", "m"), ("match", "β")] [],
        .element "Affixes" [] [
          .element "Affix" [("type", "Prefix")] [
            .element "Features" [] [.element "Feature" [("label", "number"), ("value", " "),
              ("match", "α"), ("unmarked_default", "sg")] []]],
          .element "Affix" [("type", "SUFFIX ")] [
            .element "Feature" [("label", "case"), ("value", "nom")] []]]]]]],
    .element "Target" [] []]⟩

/-- The rule that the element means. -/
def agreeingRule : Rule where
  name := "Det N"
  source := [⟨"1", some "det", []⟩, ⟨"2", some "n", [⟨"number", .agreement "α", some 2, none⟩]⟩]
  target := [
    { id := "2", isHead := true },
    { id := "1"
      features := [⟨"gender", .fixed "m", none, none⟩]
      affixes := [⟨.before, [⟨"number", .agreement "α", none, some "sg"⟩]⟩,
        ⟨.after, [⟨"case", .fixed "nom", none, none⟩]⟩] }]

/-- The element is well formed, and it is read as what it means. -/
theorem readRule_wellFormed_agreeingElement :
    IsRule agreeingElement ∧ RuleOf agreeingElement 1 agreeingRule ∧
      readRule agreeingElement 1 = { rule := agreeingRule, permuted := some false } := by
  have hread : readRule agreeingElement 1 = { rule := agreeingRule, permuted := some false } := by
    decide +kernel
  obtain ⟨hissues, -, hrule⟩ := readRule_wellFormed agreeingElement 1
  rw [hread] at hissues hrule
  have hwell : IsRule agreeingElement := hissues.1 rfl
  exact ⟨hwell, hrule hwell, hread⟩

end TransferRules

import TransferRules.Proofs.Lexicon.Hierarchy
import TransferRules.Proofs.Workspace.Requests
import TransferRules.Text.Fields

/-!
# What a category covers

The items of a category are patterns for the tags of a word.  Points divide a pattern into parts; a
star stands for one or more tags, and any other part for itself.  Between two values there may be
other tags or none, and so behind the last one, which a star cannot say by itself: so there is a
pattern with a star and one without for each of these places.  Together they say that the values are
among the tags, in their order.

## Main Definitions

* `Matches` — the tags of a word go with the parts of a pattern
* `Covers` — the tags of a word go with some item of a category
* `IsTag` — a text that is written into a pattern for itself

## Main Statements

* `exists_tagPatterns_matches_iff` — what the patterns for a grammatical category stand for
* `Workspace.ensureCategory_covers` — what a category covers when it is defined
-/

namespace TransferRules

open TransferRules.Markup
open TransferRules.Text
open TransferRules.Transfer

/-! ## Patterns -/

/-- Tags that go with the parts of a pattern: a star stands for one or more tags, and any other part
for itself. -/
inductive Matches : List String → List String → Prop where
  | nil : Matches [] []
  | tag {tag : String} {parts tags : List String} (htag : tag ≠ "*") (h : Matches parts tags) :
      Matches (tag :: parts) (tag :: tags)
  | star {skipped parts tags : List String} (hskipped : skipped ≠ []) (h : Matches parts tags) :
      Matches ("*" :: parts) (skipped ++ tags)

/-- A text that stands for itself in a pattern: it is neither divided nor taken for a star. -/
structure IsTag (s : String) : Prop where
  point : '.' ∉ s.toList
  star : '*' ∉ s.toList

instance (s : String) : Decidable (IsTag s) :=
  decidable_of_iff ('.' ∉ s.toList ∧ '*' ∉ s.toList) ⟨fun h => ⟨h.1, h.2⟩, fun h => ⟨h.1, h.2⟩⟩

/-- The tags that the items of a category list. -/
def categoryItems (e : Element) : List String :=
  (e.childrenNamed "cat-item").filterMap fun item => item.attribute? "tags"

/-- A category covers a word with the given tags. -/
def Covers (e : Element) (tags : List String) : Prop :=
  ∃ item ∈ categoryItems e, Matches (fieldsOf '.' item) tags

section Matching

variable {parts more tags : List String} {p s : String}

theorem IsTag.ne_star (h : IsTag s) : s ≠ "*" := by
  rintro rfl
  exact h.star (by decide)

theorem IsTag.fieldsOf_eq (h : IsTag s) : fieldsOf '.' s = [s] := by
  rw [fieldsOf, fields_of_notMem h.point, List.map_singleton, String.ofList_toList]

/-- A pattern that is joined from two has the parts of both. -/
theorem fieldsOf_join (p s : String) :
    fieldsOf '.' (p ++ "." ++ s) = fieldsOf '.' p ++ fieldsOf '.' s := by
  have hpoint : (p ++ "." ++ s).toList = p.toList ++ '.' :: s.toList := by
    rw [String.toList_append, String.toList_append, List.append_assoc]
    rfl
  rw [fieldsOf, hpoint, fields_append_cons, List.map_append]
  rfl

theorem fieldsOf_star_join (p s : String) :
    fieldsOf '.' (p ++ ".*." ++ s) = fieldsOf '.' p ++ "*" :: fieldsOf '.' s := by
  have hjoin : p ++ ".*." ++ s = p ++ "." ++ ("*" ++ "." ++ s) := by
    simp only [String.append_assoc]
    rfl
  rw [hjoin, fieldsOf_join, fieldsOf_join]
  rfl

theorem fieldsOf_star (p : String) : fieldsOf '.' (p ++ ".*") = fieldsOf '.' p ++ ["*"] := by
  have hjoin : p ++ ".*" = p ++ "." ++ "*" := by
    rw [String.append_assoc]
    rfl
  rw [hjoin, fieldsOf_join]
  rfl

/-- The parts of two patterns one after the other go with tags of which the first ones go with the
one and the others with the other. -/
theorem matches_append_iff : Matches (parts ++ more) tags ↔
    ∃ front back, tags = front ++ back ∧ Matches parts front ∧ Matches more back := by
  constructor
  · intro h
    induction parts generalizing tags with
    | nil => exact ⟨[], tags, rfl, .nil, h⟩
    | cons part parts ih =>
        cases h with
        | tag htag h =>
            obtain ⟨front, back, rfl, hfront, hback⟩ := ih h
            exact ⟨part :: front, back, rfl, .tag htag hfront, hback⟩
        | star hskipped h =>
            obtain ⟨front, back, rfl, hfront, hback⟩ := ih h
            exact ⟨_ ++ front, back, (List.append_assoc _ _ _).symm, .star hskipped hfront, hback⟩
  · rintro ⟨front, back, rfl, hfront, hback⟩
    induction hfront with
    | nil => exact hback
    | tag htag _ ih => exact .tag htag ih
    | star hskipped _ ih =>
        rw [List.append_assoc]
        exact .star hskipped ih

theorem matches_star_iff : Matches ["*"] tags ↔ tags ≠ [] := by
  constructor
  · rintro (_ | ⟨htag, -⟩ | ⟨hskipped, h⟩)
    · exact absurd rfl htag
    · cases h
      rwa [List.append_nil]
  · intro h
    exact List.append_nil tags ▸ .star h .nil

/-- A part that stands for itself. -/
theorem IsTag.matches_iff (h : IsTag s) : Matches [s] tags ↔ tags = [s] := by
  constructor
  · rintro (_ | ⟨-, hrest⟩ | ⟨-, -⟩)
    · cases hrest
      rfl
    · exact absurd rfl h.ne_star
  · rintro rfl
    exact .tag h.ne_star .nil

end Matching

/-! ## The patterns of a category -/

section Patterns

variable {category : String} {values tags : List String}

/-- **What the patterns stand for** that are made from some others: tags of which the first ones go
with one of these, and among the rest of which the values are found, in their order. -/
theorem exists_valuePatterns_matches_iff {patterns : List String}
    (hvalues : ∀ value ∈ values, IsTag (identifier value)) :
    (∃ p ∈ (valuePatterns patterns values).flatMap (fun p => [p, p ++ ".*"]),
        Matches (fieldsOf '.' p) tags) ↔
      ∃ p ∈ patterns, ∃ front back, tags = front ++ back ∧ Matches (fieldsOf '.' p) front ∧
        (values.map identifier).Sublist back := by
  induction values generalizing patterns with
  | nil =>
      simp only [valuePatterns, List.mem_flatMap, List.mem_cons, List.not_mem_nil, or_false,
        List.map_nil, List.nil_sublist, and_true]
      constructor
      · rintro ⟨item, ⟨p, hp, hitem | hitem⟩, hmatches⟩
        · exact ⟨p, hp, tags, [], (List.append_nil tags).symm, hitem ▸ hmatches⟩
        · rw [hitem, fieldsOf_star, matches_append_iff] at hmatches
          obtain ⟨front, back, heq, hfront, -⟩ := hmatches
          exact ⟨p, hp, front, back, heq, hfront⟩
      · rintro ⟨p, hp, front, back, rfl, hfront⟩
        by_cases hback : back = []
        · rw [hback, List.append_nil]
          exact ⟨p, ⟨p, hp, .inl rfl⟩, hfront⟩
        · refine ⟨p ++ ".*", ⟨p, hp, .inr rfl⟩, ?_⟩
          rw [fieldsOf_star, matches_append_iff]
          exact ⟨front, back, rfl, hfront, matches_star_iff.2 hback⟩
  | cons value values ih =>
      have hvalue : IsTag (identifier value) := hvalues value List.mem_cons_self
      rw [valuePatterns, ih fun v hv => hvalues v (List.mem_cons_of_mem _ hv)]
      constructor
      · rintro ⟨_, hp, front, back, rfl, hfront, hback⟩
        obtain ⟨p, hp, hchoice⟩ := List.mem_flatMap.1 hp
        refine ⟨p, hp, ?_⟩
        simp only [List.mem_cons, List.not_mem_nil, or_false] at hchoice
        -- The value comes right after what goes with `p`, or some tags are skipped before it.
        rcases hchoice with rfl | rfl
        · rw [fieldsOf_join, hvalue.fieldsOf_eq, matches_append_iff] at hfront
          obtain ⟨start, last, rfl, hstart, hlast⟩ := hfront
          rw [hvalue.matches_iff.1 hlast]
          exact ⟨start, _, List.append_assoc _ _ _, hstart, hback.cons_cons _⟩
        · rw [fieldsOf_star_join, hvalue.fieldsOf_eq, matches_append_iff] at hfront
          obtain ⟨start, rest, rfl, hstart, hrest⟩ := hfront
          rw [show "*" :: [identifier value] = ["*"] ++ [identifier value] from rfl,
            matches_append_iff] at hrest
          obtain ⟨skipped, last, rfl, -, hlast⟩ := hrest
          rw [hvalue.matches_iff.1 hlast]
          refine ⟨start, _, List.append_assoc _ _ _, hstart, ?_⟩
          rw [List.append_assoc]
          exact (hback.cons_cons _).trans (List.sublist_append_right _ _)
      · rintro ⟨p, hp, front, back, rfl, hfront, hback⟩
        obtain ⟨before, after, rfl, hmem, hafter⟩ := List.cons_sublist_iff.1 hback
        obtain ⟨skipped, rest, rfl⟩ := List.append_of_mem hmem
        by_cases hskipped : skipped = []
        · subst hskipped
          refine ⟨_, List.mem_flatMap.2 ⟨p, hp, List.mem_cons_self⟩, front ++ [identifier value],
            rest ++ after, by simp, ?_, hafter.trans (List.sublist_append_right _ _)⟩
          rw [fieldsOf_join, hvalue.fieldsOf_eq, matches_append_iff]
          exact ⟨front, _, rfl, hfront, hvalue.matches_iff.2 rfl⟩
        · refine ⟨_, List.mem_flatMap.2 ⟨p, hp, List.mem_cons_of_mem _ List.mem_cons_self⟩,
            front ++ (skipped ++ [identifier value]), rest ++ after, by simp, ?_,
            hafter.trans (List.sublist_append_right _ _)⟩
          rw [fieldsOf_star_join, hvalue.fieldsOf_eq, matches_append_iff]
          exact ⟨front, _, rfl, hfront, .star hskipped (hvalue.matches_iff.2 rfl)⟩

/-- So the patterns for a grammatical category stand for the tags that begin with it and have the
values among the rest. -/
theorem exists_tagPatterns_matches_iff (hcategory : IsTag (identifier category))
    (hvalues : ∀ value ∈ values, IsTag (identifier value)) :
    (∃ p ∈ tagPatterns category values, Matches (fieldsOf '.' p) tags) ↔
      ∃ rest, tags = identifier category :: rest ∧ (values.map identifier).Sublist rest := by
  rw [tagPatterns, exists_valuePatterns_matches_iff hvalues]
  constructor
  · rintro ⟨p, hp, front, back, rfl, hfront, hback⟩
    rw [List.mem_singleton.1 hp, hcategory.fieldsOf_eq, hcategory.matches_iff] at hfront
    exact ⟨back, by rw [hfront]; rfl, hback⟩
  · rintro ⟨rest, rfl, hrest⟩
    refine ⟨_, List.mem_singleton_self _, [identifier category], rest, rfl, ?_, hrest⟩
    rw [hcategory.fieldsOf_eq]
    exact hcategory.matches_iff.2 rfl

end Patterns

/-! ## Categories -/

theorem categoryItems_categoryElement (name : String) (covered values : List String) :
    categoryItems (categoryElement name covered values) =
      covered.flatMap fun category => tagPatterns category values := by
  generalize hitems : (covered.flatMap fun category => tagPatterns category values) = items
  have hchildren : ((items.map fun tags =>
        (⟨"cat-item", [("tags", tags)], []⟩ : Element)).map Element.toNode).filterMap
      Node.element? = items.map fun tags => ⟨"cat-item", [("tags", tags)], []⟩ := by
    rw [List.filterMap_map]
    simp [Function.comp_def]
  unfold categoryItems categoryElement
  simp only [hitems, Element.childrenNamed, Element.elements, Element.pushAll, List.nil_append,
    hchildren]
  rw [List.filter_eq_self.2, List.filterMap_map]
  · simp [Function.comp_def, Element.attribute?]
  · intro item hitem
    obtain ⟨tags, -, rfl⟩ := List.mem_map.1 hitem
    rfl

namespace Workspace

variable {w : Workspace} {x : Lexicon} {category : String} {values : List String}

/-- **What a category covers** when it is defined.  It covers exactly the words whose first tag is
the grammatical category or one below it, and among whose other tags are the fixed values, in their
order, with any other tags between them. -/
theorem ensureCategory_covers (hnew : categoryName category values ∉
      w.document.definitionNames .categories)
    (hcategory : IsTag (identifier category))
    (hnames : ∀ name ∈ x.categoryNames, IsTag (identifier name))
    (hvalues : ∀ value ∈ values, IsTag (identifier value)) :
    ∃ e, (w.ensureCategory x category values).2.document.definitions .categories =
        w.document.definitions .categories ++ [e] ∧
      definitionName? .categories e = some (w.ensureCategory x category values).1 ∧
      ∀ tags, Covers e tags ↔ ∃ first rest, tags = first :: rest ∧
        (first = identifier category ∨
          ∃ below, x.IsBelow below category ∧ first = identifier below) ∧
        (values.map identifier).Sublist rest := by
  have htag : ∀ covered, (categoryElement (categoryName category values) covered values).name =
      SectionKind.categories.definitionTag := fun _ => rfl
  refine ⟨categoryElement (categoryName category values)
    (category :: x.subcategories category) values, ?_, ?_, fun tags => ?_⟩
  · unfold ensureCategory
    dsimp only
    rw [if_neg (not_contains_iff.2 hnew)]
    exact (TransferDocument.definitions_addDefinition (htag _)).trans (if_pos rfl)
  · unfold ensureCategory
    dsimp only
    rw [if_neg (not_contains_iff.2 hnew)]
    simp [definitionName?, categoryElement, Element.pushAll, Element.attribute?,
      SectionKind.nameKey]
  · have hcovers : ∀ covered, covered = category ∨ x.IsBelow covered category →
        IsTag (identifier covered) := by
      rintro covered (rfl | hbelow)
      · exact hcategory
      · exact hnames covered hbelow.mem_categoryNames
    unfold Covers
    rw [categoryItems_categoryElement]
    constructor
    · rintro ⟨p, hp, hmatches⟩
      obtain ⟨covered, hcovered, hp⟩ := List.mem_flatMap.1 hp
      rw [Lexicon.mem_covered_iff] at hcovered
      obtain ⟨rest, rfl, hrest⟩ :=
        (exists_tagPatterns_matches_iff (hcovers covered hcovered) hvalues).1 ⟨p, hp, hmatches⟩
      refine ⟨_, rest, rfl, ?_, hrest⟩
      rcases hcovered with rfl | hbelow
      · exact .inl rfl
      · exact .inr ⟨covered, hbelow, rfl⟩
    · rintro ⟨first, rest, rfl, hfirst, hrest⟩
      obtain ⟨covered, hcovered, rfl⟩ : ∃ covered,
          (covered = category ∨ x.IsBelow covered category) ∧ first = identifier covered := by
        rcases hfirst with rfl | ⟨below, hbelow, rfl⟩
        · exact ⟨category, .inl rfl, rfl⟩
        · exact ⟨below, .inr hbelow, rfl⟩
      obtain ⟨p, hp, hmatches⟩ :=
        (exists_tagPatterns_matches_iff (hcovers covered hcovered) hvalues).2 ⟨rest, rfl, hrest⟩
      exact ⟨p, List.mem_flatMap.2 ⟨covered, Lexicon.mem_covered_iff.2 hcovered, hp⟩, hmatches⟩

/-- A language with nouns and, below them, proper nouns. -/
def properNouns : Lexicon where
  projectName := "source"
  categories := .ofList [("n", none), ("proper noun", some "n")]

/-- Plural nouns: proper ones are among them, whatever tags they have before the number. -/
theorem ensureCategory_covers_pluralNoun :
    (∀ name ∈ properNouns.categoryNames, IsTag (identifier name)) ∧
    ∃ e, definitionName? .categories e = some "c_n_pl" ∧
      Covers e ["proper_noun", "f", "pl"] ∧ ¬ Covers e ["n", "sg"] := by
  have hnames : ∀ name ∈ properNouns.categoryNames, IsTag (identifier name) := by decide
  have hnew : categoryName "n" ["pl"] ∉
      ({} : Workspace).document.definitionNames .categories := nofun
  obtain ⟨e, -, hname, hcovers⟩ :=
    ensureCategory_covers hnew (by decide) hnames (by decide)
  refine ⟨hnames, e, hname.trans (by decide), (hcovers _).2 ?_, fun h => ?_⟩
  · have hbelow : properNouns.IsBelow "proper noun" "n" := .single (by decide)
    exact ⟨_, _, rfl, .inr ⟨_, hbelow, by decide⟩, by decide⟩
  · obtain ⟨first, rest, heq, -, hsublist⟩ := (hcovers _).1 h
    cases heq
    exact absurd hsublist (by decide)

end Workspace

end TransferRules

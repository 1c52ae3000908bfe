import TransferRules.Proofs.Action.Macro
import TransferRules.Proofs.Compile.Comparison
import TransferRules.Proofs.Compile.Demands
import TransferRules.Proofs.Workspace.Repetition

/-!
# Tables that look values up

What the lexicon lists is regrouped before it becomes a table: the forms of each value in a row of
their own, in the order of the values and not in that of the list, and without repetitions.  Read
at its first row, the table gives back what was listed.  A row is met if one of its forms is found,
so among the values of a form the least counts; and where a form keeps its first value only, that
is the one.

Macros look the lemma of a word up.  The macro of a disjoint set first takes the part whose
co-feature value the variable of the co-feature holds.  The affixes of a source word are looked up
in the rule itself.

## Main Definitions

* `leastValue?` — the least value that is listed for some forms
* `lookupTable` — the table for values and their forms
* `MacroDemand.Builds` — a macro is built when it is asked for
* `Finds` — what is found for a source word, as the feature itself or among its affixes

## Main Statements

* `find?_groupByValue` — the row that is met, in terms of what is listed
* `result_lookupTable` — what a table sets its variable to
* `runsAs_lemmaMacro`, `runsAs_disjointMacro` — what macros look up
* `readSource_finds`, `readSource_refused` — what is found is read, and nothing else is emitted
* `lookups_compute_lexicon` — every table computes what the lexicon lists
-/

namespace TransferRules

open TransferRules.Action
open TransferRules.Ordered
open TransferRules.Transfer

/-! ## Texts -/

namespace Reading

variable (r : Reading)

/-- The text for a value, empty if there is none. -/
def textOf (value? : Option String) : String := value?.elim "" r.tag

/-- Whether a text is the tag of a value. -/
def shows (text value : String) : Bool := text == r.tag value

/-- The part of the word at a position. -/
def part (position : Nat) (side : Side) (name : String) : String :=
  r.scene.phrase.part (r.scene.position (toString position)) side.code name

/-- Where tags are told apart, a tag is that of one value only. -/
theorem shows_tag_iff (htag : Function.Injective r.tag) {value value' : String} :
    r.shows (r.tag value) value' = true ↔ value' = value := by
  rw [shows, beq_iff_eq, htag.eq_iff, eq_comm]

end Reading

/-! ## Groups -/

/-- The least of the values that are listed for some forms. -/
def leastValue? (es : List Exponent) (found : String → Bool) : Option String :=
  (sortStrings ((es.filter fun e => found e.form).map Exponent.value)).head?

section Groups

variable {es : List Exponent} {found : String → Bool} {value : String}

/-- The least value is listed, and none that is listed is below it. -/
theorem leastValue?_eq_some (h : leastValue? es found = some value) :
    (∃ e ∈ es, found e.form = true ∧ e.value = value) ∧
      ∀ e ∈ es, found e.form = true → ¬ e.value < value := by
  obtain ⟨hmem, hleast⟩ := least_of_head?_sortStrings h
  obtain ⟨e, he, rfl⟩ := List.mem_map.1 hmem
  refine ⟨⟨e, (List.mem_filter.1 he).1, (List.mem_filter.1 he).2, rfl⟩,
    fun other hother hfound => ?_⟩
  exact hleast other.value (List.mem_map_of_mem (List.mem_filter.2 ⟨hother, hfound⟩))

/-- There is none just if none of the forms is listed. -/
theorem leastValue?_eq_none_iff :
    leastValue? es found = none ↔ ∀ e ∈ es, found e.form = false := by
  rw [leastValue?, head?_sortStrings_eq_none_iff, List.map_eq_nil_iff, List.filter_eq_nil_iff]
  simp only [Bool.not_eq_true]

/-- **The first group with one of the forms** is that of the least value. -/
theorem find?_groupByValue (es : List Exponent) (found : String → Bool) :
    ((groupByValue es).find? fun group => group.2.any found).map Prod.fst =
      leastValue? es found := by
  have hvalues : ((sortStrings (es.map Exponent.value)).filter fun value =>
      (sortStrings ((es.filter fun e => e.value == value).map Exponent.form)).any found) =
        sortStrings ((es.filter fun e => found e.form).map Exponent.value) := by
    refine StringSet.toList_eq_of_mem_iff ((pairwise_sortStrings _).filter _)
      (pairwise_sortStrings _) fun value => ?_
    simp only [List.mem_filter, mem_sortStrings, List.mem_map, List.any_eq_true, beq_iff_eq]
    constructor
    · rintro ⟨-, _, ⟨e, ⟨he, rfl⟩, rfl⟩, hfound⟩
      exact ⟨e, ⟨he, hfound⟩, rfl⟩
    · rintro ⟨e, ⟨he, hfound⟩, rfl⟩
      exact ⟨⟨e, he, rfl⟩, e.form, ⟨e, ⟨he, rfl⟩, rfl⟩, hfound⟩
  rw [leastValue?, ← hvalues, List.head?_filter, groupByValue, List.find?_map, Option.map_map]
  exact Option.map_id'

end Groups

namespace Compile

variable {r : Reading} {contents : Contents} {target : String} {es : List Exponent}

/-- Where forms that were listed before are dropped, a form has one value, its first. -/
theorem leastValue?_firstExponents (es : List Exponent) (form : String) :
    leastValue? (firstExponents [] es) (· == form) = firstValue? es form := by
  have hkept : ∀ e ∈ firstExponents [] es, (e.form == form) = true →
      firstValue? es form = some e.value := by
    intro e he hform
    rw [firstValue?, ← beq_iff_eq.1 hform, (mem_firstExponents_iff.1 he).2, Option.map_some]
  cases hleast : leastValue? (firstExponents [] es) (· == form) with
  | some value =>
      obtain ⟨e, he, hform, rfl⟩ := (leastValue?_eq_some hleast).1
      exact (hkept e he hform).symm
  | none =>
      have hnone := leastValue?_eq_none_iff.1 hleast
      have hfind := @find?_firstExponents [] es form List.not_mem_nil
      rw [firstValue?, ← hfind, List.find?_eq_none.2 fun e he => by simp [hnone e he]]
      rfl

/-! ## Tables -/

/-- The table for values and their forms, given the equation that says that a form is found. -/
def lookupTable (target : String) (equation : String → Equation) (es : List Exponent) :
    Choice Assignment :=
  table target ((groupByValue es).map fun group => (.any (group.2.map equation), .tag group.1))
    (.lit "")

/-- **A lookup** sets the variable to the least value of the forms that are found. -/
theorem result_lookupTable {equation : String → Equation} {found : String → Bool}
    (h : ∀ form, (equation form).isMet r contents = found form) :
    (lookupTable target equation es).result r contents =
      Function.update contents target (r.textOf (leastValue? es found)) := by
  have htest : ∀ forms : List String,
      (Test.any (forms.map equation)).isMet r contents = forms.any found := by
    intro forms
    rw [Test.isMet, List.any_map]
    exact congrArg forms.any (funext h)
  rw [lookupTable, result_table, List.find?_map, ← find?_groupByValue]
  simp only [Function.comp_def, htest]
  cases (groupByValue es).find? fun group => group.2.any found with
  | none => rfl
  | some group => rfl

theorem lemmaChoice_eq (target : String) (es : List Exponent) :
    lemmaChoice target (lemmasByValue es) =
      lookupTable target (fun form => ⟨.clip 1 .target "lem", .lit form⟩)
        (firstExponents [] es) := by
  simp only [lemmaChoice, lemmasByValue, lookupTable, table, List.map_map]
  rfl

theorem glossChoice_eq (position : Nat) (part target : String) (es : List Exponent) :
    glossChoice position part target (groupByValue es) =
      lookupTable target (fun gloss => ⟨.clip position .source part, .tag gloss⟩) es := by
  simp only [glossChoice, lookupTable, table, List.map_map]
  rfl

/-- The choice by the lemma of a word gives the first value that is listed for the lemma. -/
theorem result_lemmaChoice (r : Reading) (contents : Contents) (target : String)
    (es : List Exponent) :
    (lemmaChoice target (lemmasByValue es)).result r contents =
      Function.update contents target (r.textOf (firstValue? es (r.part 1 .target "lem"))) := by
  have hfound : ∀ form, Equation.isMet r contents ⟨.clip 1 .target "lem", .lit form⟩ =
      (form == r.part 1 .target "lem") := fun form => Bool.beq_comm
  rw [lemmaChoice_eq, result_lookupTable hfound, leastValue?_firstExponents]

/-- The choice by a gloss gives the least value that is listed for the gloss. -/
theorem result_glossChoice (r : Reading) (contents : Contents) (position : Nat)
    (part target : String) (es : List Exponent) :
    (glossChoice position part target (groupByValue es)).result r contents =
      Function.update contents target
        (r.textOf (leastValue? es (r.shows (r.part position .source part)))) := by
  rw [glossChoice_eq]
  exact result_lookupTable fun gloss => rfl

/-! ## Macros -/

/-- A macro that assigns by a choice does what the choice does. -/
theorem result_of_assignments {m : MacroDefinition} {choice : Choice Assignment}
    (hbranches : m.body.branches = choice.branches.map fun branch => (branch.1, .assign branch.2))
    (hotherwise : m.body.otherwise = choice.otherwise.map .assign) :
    m.result r contents = choice.result r contents := by
  unfold MacroDefinition.result Choice.result
  rw [hbranches, hotherwise, List.find?_map]
  simp only [Function.comp_def]
  cases choice.branches.find? fun branch => branch.1.isMet r contents with
  | some branch => rfl
  | none =>
      cases choice.otherwise with
      | some a => rfl
      | none => rfl

theorem result_lemmaMacroFor (r : Reading) (contents : Contents) (x : Lexicon)
    (category label : String) :
    (lemmaMacroFor x category label).result r contents =
      Function.update contents (lemmaMacroNames category label).2
        (r.textOf (firstValue? (x.lemmas category label) (r.part 1 .target "lem"))) := by
  rw [← result_lemmaChoice]
  exact result_of_assignments rfl rfl

/-- A part without lemmas is a choice without branches. -/
theorem result_partStep (r : Reading) (contents : Contents) (target : String)
    (groups : List (String × List String)) :
    (partStep target groups).result r contents =
      (lemmaChoice target groups).result r contents := by
  unfold partStep
  split
  · next hempty =>
    rw [List.isEmpty_iff.1 hempty]
    rfl
  · rfl

/-- The value of a lemma in the part of a disjoint set that applies: the one that is listed first
for it, in the first category that has one. -/
def partValue? (x : Lexicon) (set : DisjointSet) (applies : String → Bool) (form : String) :
    Option String :=
  (set.pairings.find? fun pairing => applies pairing.coValue).bind fun pairing =>
    x.categoryNames.findSome? fun category => firstValue? (x.lemmas category pairing.part) form

theorem firstValue?_allLemmas (x : Lexicon) (label form : String) :
    firstValue? (allLemmas x label) form =
      x.categoryNames.findSome? fun category => firstValue? (x.lemmas category label) form := by
  rw [firstValue?, allLemmas, List.find?_flatMap, List.map_findSome?]
  rfl

theorem result_disjointMacroFor (r : Reading) (contents : Contents) (x : Lexicon)
    (set : DisjointSet) (name : String) :
    (disjointMacroFor x set name).result r contents =
      Function.update contents (disjointNames set).2.1
        (r.textOf (partValue? x set (r.shows (contents (disjointNames set).2.2))
          (r.part 1 .target "lem"))) := by
  have htest : ∀ coValue : String,
      (Test.all [⟨.var (disjointNames set).2.2, .tag coValue⟩]).isMet r contents =
        r.shows (contents (disjointNames set).2.2) coValue :=
    fun coValue => Bool.and_true _
  unfold MacroDefinition.result partValue?
  simp only [disjointMacroFor, disjointMacro, List.map_map, List.find?_map, Function.comp_def,
    htest]
  cases set.pairings.find? fun pairing =>
      r.shows (contents (disjointNames set).2.2) pairing.coValue with
  | none => exact result_assign r contents _ _
  | some pairing =>
      rw [Option.bind_some, ← firstValue?_allLemmas]
      exact (result_partStep r contents _ _).trans (result_lemmaChoice r contents _ _)

/-- A macro is built when it is asked for: there was none under the name that is answered. -/
structure MacroDemand.Builds (d : MacroDemand) (x : Lexicon) (w : Workspace) (handle : MacroHandle)
    (w' : Workspace) : Prop where
  answered : d.request x w = .ok (handle, w')
  fresh : handle.name ∉ w.document.definitionNames .macros
  defined : handle.name ∈ w'.document.definitionNames .macros

section Builds

variable {x : Lexicon} {w w' w'' : Workspace} {handle : MacroHandle} {d : MacroDemand}
  {category label name : String} {set : DisjointSet}

/-- The macro that is built stands under its name from then on. -/
theorem MacroDemand.Builds.standsUnder (h : d.Builds x w handle w') (hgrows : w'.Grows w'') :
    d.StandsUnder x w''.document handle.name := by
  refine hgrows.definition?_eq_some nofun ?_
  have hfresh := h.fresh
  cases d with
  | lemmaMacro category label =>
      rcases Workspace.ensureLemmaMacro_cases h.answered with ⟨-, rfl⟩ | ⟨rfl, rfl⟩
      · exact absurd h.defined hfresh
      · have hmay := MayHave.own (.lemmaMacro category label)
        have hmade := @Workspace.Faithful.standsUnder_makeMacro w x _ _ hmay
          (fun hdefined => absurd hdefined hfresh) [(lemmaHandle category label).result]
        exact hmade
  | disjointMacro set =>
      rcases Workspace.ensureDisjointMacro_named h.answered with
        ⟨-, rfl⟩ | ⟨-, name, w₁, hname, rfl, rfl⟩
      · exact absurd h.defined hfresh
      · obtain ⟨hmay, hdocument⟩ : (disjointMacro set).MayHave name ∧
            w₁.document = w.document := by
          rcases hname with ⟨-, rfl, rfl⟩ | ⟨rfl, rfl⟩
          · exact ⟨.own (.disjointMacro set), rfl⟩
          · exact ⟨mayHave_allocate set w.names, rfl⟩
        rw [← hdocument] at hfresh
        have hmade := @Workspace.Faithful.standsUnder_makeMacro w₁ x _ _ hmay
          (fun hdefined => absurd hdefined hfresh)
          [(disjointHandle x set name).result, (disjointNames set).2.2]
        exact hmade

/-- **A lemma macro** looks up the first value that is listed for the lemma of the word. -/
theorem runsAs_lemmaMacro {t : TransferDocument}
    (h : (MacroDemand.lemmaMacro category label).StandsUnder x t name) :
    t.RunsAs name fun r contents => Function.update contents (lemmaMacroNames category label).2
      (r.textOf (firstValue? (x.lemmas category label) (r.part 1 .target "lem"))) :=
  ⟨lemmaMacroFor x category label, h, fun r contents => result_lemmaMacroFor r contents x _ _⟩

/-- **The macro of a disjoint set** looks it up in the part that applies. -/
theorem runsAs_disjointMacro {t : TransferDocument}
    (h : (MacroDemand.disjointMacro set).StandsUnder x t name) :
    t.RunsAs name fun r contents => Function.update contents (disjointNames set).2.1
      (r.textOf (partValue? x set (r.shows (contents (disjointNames set).2.2))
        (r.part 1 .target "lem"))) :=
  ⟨disjointMacroFor x set name, h, fun r contents => result_disjointMacroFor r contents x _ _⟩

/-- The variable that a macro sets. -/
def MacroDemand.result : MacroDemand → String
  | lemmaMacro category label => (lemmaMacroNames category label).2
  | disjointMacro set => (disjointNames set).2.1

/-- It is the one that its callers read. -/
theorem MacroDemand.Builds.result_eq (h : d.Builds x w handle w') : handle.result = d.result := by
  cases d with
  | lemmaMacro category label =>
      rcases Workspace.ensureLemmaMacro_cases h.answered with ⟨-, rfl⟩ | ⟨rfl, -⟩
      · exact absurd h.defined h.fresh
      · rfl
  | disjointMacro set =>
      rcases Workspace.ensureDisjointMacro_named h.answered with ⟨-, rfl⟩ | ⟨-, _, _, -, rfl, -⟩
      · exact absurd h.defined h.fresh
      · rfl

end Builds

/-! ## Source words -/

/-- What is found for a source word, as the feature itself or among its affixes: the attribute that
is answered.  It is what is tried first, unless this is refused. -/
structure Finds (ctx : Lexicons) (category label : String) (affixFirst : Bool) (w : Workspace)
    (isAffix : Bool) (part : String) (w' : Workspace) : Prop where
  answered : w.ensureAttribute ctx.source { key := ⟨category, label, isAffix, true⟩ } =
    .ok (part, w')
  foremost : isAffix = affixFirst ∨ ∃ issue,
    w.ensureAttribute ctx.source { key := ⟨category, label, affixFirst, true⟩ } = .error issue

section Source

variable {ctx : Lexicons} {category label : String} {affixFirst isAffix : Bool} {part : String}
  {w w' : Workspace} {e : Emission}

/-- Something is found, or both are refused. -/
theorem finds_or_refused (ctx : Lexicons) (category label : String) (affixFirst : Bool)
    (w : Workspace) :
    (∃ isAffix part w', Finds ctx category label affixFirst w isAffix part w') ∨
      ∀ isAffix, ∃ issue,
        w.ensureAttribute ctx.source { key := ⟨category, label, isAffix, true⟩ } =
          .error issue := by
  cases hfirst : w.ensureAttribute ctx.source { key := ⟨category, label, affixFirst, true⟩ } with
  | ok answer => exact .inl ⟨affixFirst, answer.1, answer.2, hfirst, .inl rfl⟩
  | error issue =>
      cases hsecond : w.ensureAttribute ctx.source
          { key := ⟨category, label, !affixFirst, true⟩ } with
      | ok answer => exact .inl ⟨!affixFirst, answer.1, answer.2, hsecond, .inr ⟨issue, hfirst⟩⟩
      | error issue' =>
          refine .inr fun isAffix => ?_
          by_cases hsame : isAffix = affixFirst
          · exact hsame ▸ ⟨issue, hfirst⟩
          · exact (Bool.eq_not_of_ne hsame) ▸ ⟨issue', hsecond⟩

/-- Affixes that are listed are found if they are tried first, and else if the feature itself is
refused. -/
theorem exists_finds_affix (hlisted : ctx.source.affixes category label ≠ [])
    (hforemost : affixFirst = true ∨ ∃ issue,
      w.ensureAttribute ctx.source { key := ⟨category, label, false, true⟩ } = .error issue) :
    ∃ part w', Finds ctx category label affixFirst w true part w' := by
  have hvalues : (featureValues ctx.source ⟨category, label, true, true⟩).isEmpty = false := by
    obtain ⟨e, he⟩ := List.exists_mem_of_ne_nil _ hlisted
    have hgloss : e.form ∈ featureValues ctx.source ⟨category, label, true, true⟩ := by
      rw [featureValues, if_pos rfl, StringSet.mem_ofList]
      exact List.mem_map_of_mem he
    exact List.isEmpty_eq_false_iff.2 (List.ne_nil_of_mem hgloss)
  obtain ⟨part, w', hanswered⟩ :=
    (Workspace.resolvable_iff (q := { key := ⟨category, label, true, true⟩ })).2 (.inr hvalues)
  refine ⟨part, w', hanswered, ?_⟩
  cases affixFirst with
  | true => exact .inl rfl
  | false => exact .inr (hforemost.resolve_left nofun)

/-- **What is found is read** by one statement. -/
theorem readSource_finds (position : Nat) (target : String)
    (h : Finds ctx category label affixFirst e.workspace isAffix part w') :
    readSource ctx position category label target affixFirst e =
      (.ok (), { e with
        workspace := w'
        statements := e.statements ++
          [sourceStatement ctx.source ⟨category, label, isAffix, true⟩ position part
            target] }) := by
  unfold readSource
  simp only [bind_apply, tryWorkspace_apply]
  by_cases hsame : isAffix = affixFirst
  · subst hsame
    rw [h.answered]
    rfl
  · obtain ⟨issue, hrefused⟩ := h.foremost.resolve_left hsame
    obtain rfl := Bool.eq_not_of_ne hsame
    rw [hrefused]
    simp only [bind_apply, tryWorkspace_apply]
    rw [h.answered]
    rfl

/-- If nothing is found, nothing changes. -/
theorem readSource_refused (position : Nat) (target : String)
    (h : ∀ isAffix, ∃ issue, e.workspace.ensureAttribute ctx.source
      { key := ⟨category, label, isAffix, true⟩ } = .error issue) :
    readSource ctx position category label target affixFirst e =
      (.error (.unresolvedFeature category label), e) := by
  obtain ⟨_, hfirst⟩ := h affixFirst
  obtain ⟨_, hsecond⟩ := h !affixFirst
  unfold readSource
  simp only [bind_apply, tryWorkspace_apply]
  rw [hfirst]
  simp only [bind_apply, tryWorkspace_apply]
  rw [hsecond]
  rfl

end Source

/-! ## All tables -/

/-- **Tables compute what the lexicon lists.**  Whatever the lexicons, and for any way of reading
tags: A lemma macro that was built sets its variable to the first value that is listed for the lemma
of the word.  The macro of a disjoint set does so in the first part whose co-feature value the
variable of the co-feature shows, and over all categories.  If the affixes of a source word are
found, just one statement is emitted, and it sets its variable to the least value of the gloss that
the word shows; they are found if some are listed and they are tried first, or the feature itself is
refused.  Where nothing is listed, each clears its variable.  If tags are told apart, a text shows
only the value whose tag it is. -/
theorem lookups_compute_lexicon :
    (∀ (x : Lexicon) (w w' w'' : Workspace) (category label : String) (handle : MacroHandle),
      (MacroDemand.lemmaMacro category label).Builds x w handle w' → w'.Grows w'' →
        w''.document.RunsAs handle.name fun r contents => Function.update contents handle.result
          (r.textOf (firstValue? (x.lemmas category label) (r.part 1 .target "lem")))) ∧
    (∀ (x : Lexicon) (w w' w'' : Workspace) (set : DisjointSet) (handle : MacroHandle),
      (MacroDemand.disjointMacro set).Builds x w handle w' → w'.Grows w'' →
        w''.document.RunsAs handle.name fun r contents => Function.update contents handle.result
          (r.textOf (partValue? x set (r.shows (contents (disjointNames set).2.2))
            (r.part 1 .target "lem")))) ∧
    (∀ (ctx : Lexicons) (position : Nat) (category label target : String) (affixFirst : Bool)
      (e : Emission),
      (∀ part w', Finds ctx category label affixFirst e.workspace true part w' →
        ∃ choice, readSource ctx position category label target affixFirst e =
            (.ok (), { e with
              workspace := w', statements := e.statements ++ [.choose choice] }) ∧
          ∀ r contents, choice.result r contents = Function.update contents target
            (r.textOf (leastValue? (ctx.source.affixes category label)
              (r.shows (r.part position .source part))))) ∧
      (ctx.source.affixes category label ≠ [] → (affixFirst = true ∨ ∃ issue,
          e.workspace.ensureAttribute ctx.source { key := ⟨category, label, false, true⟩ } =
            .error issue) →
        ∃ part w', Finds ctx category label affixFirst e.workspace true part w')) ∧
    ∀ r : Reading, Function.Injective r.tag → ∀ value value' : String,
      r.shows (r.tag value) value' = true ↔ value' = value := by
  refine ⟨?_, ?_, fun ctx position category label target affixFirst e =>
    ⟨fun part w' h => ?_, exists_finds_affix⟩, fun r htag value value' => r.shows_tag_iff htag⟩
  · intro x w w' w'' category label handle h hgrows
    rw [h.result_eq]
    exact runsAs_lemmaMacro (h.standsUnder hgrows)
  · intro x w w' w'' set handle h hgrows
    rw [h.result_eq]
    exact runsAs_disjointMacro (h.standsUnder hgrows)
  · exact ⟨_, readSource_finds position target h,
      fun r contents => result_glossChoice r contents position part target _⟩

/-- A lexicon with noun classes, where a lemma is listed in two of them. -/
def nounClasses : Lexicon :=
  ⟨"target", StringMap.empty.insert "n" none,
    StringMap.empty.insert "n" (StringMap.empty.insert "class"
      { lemmas := [⟨"mtu", "m"⟩, ⟨"watu", "wa"⟩, ⟨"mtu", "a"⟩] })⟩

/-- The noun class, which is split by number. -/
def splitClass : DisjointSet := ⟨"number", "class", [⟨"sg", "class sg"⟩, ⟨"pl", "class pl"⟩]⟩

/-- Nouns with a number in the source language, and noun classes in the target language. -/
def bantuNouns : Lexicons where
  source := ⟨"source", StringMap.empty.insert "n" none,
    StringMap.empty.insert "n" (StringMap.empty.insert "number" { values := ["sg", "pl"] })⟩
  target := ⟨"target", StringMap.empty.insert "n" none,
    StringMap.empty.insert "n" ((StringMap.empty.insert "class sg"
      { lemmas := [⟨"mtu", "1"⟩, ⟨"kitu", "7"⟩] }).insert "class pl"
        { lemmas := [⟨"mtu", "2"⟩, ⟨"kitu", "8"⟩] })⟩
  disjoint := some splitClass

/-- Noun classes that are listed for adjectives, too, in the plural. -/
def adjectiveClasses : Lexicon :=
  ⟨"target", (StringMap.empty.insert "n" none).insert "adj" none,
    bantuNouns.target.features.insert "adj" (StringMap.empty.insert "class pl"
      { lemmas := [⟨"kitu", "10"⟩] })⟩

/-- Nouns with a case, where one gloss stands for two of them. -/
def obliqueNouns : Lexicons where
  source := ⟨"source", StringMap.empty.insert "n" none,
    StringMap.empty.insert "n" (StringMap.empty.insert "case"
      { affixes := [⟨"OBL", "dat"⟩, ⟨"NOM", "nom"⟩, ⟨"OBL", "acc"⟩] })⟩
  target := .named "target"

/-- A phrase in which every part of every word is the same text. -/
def lemmaPhrase (form : String) : Matched := ⟨fun _ _ _ => form, fun _ => ""⟩

/-- Macros for noun classes are built in an empty file.  Called, they give the class that is listed
first, or the one that is listed for the number in the first category that has one, or none.  The
case of a noun is read from its gloss: it is the least one, or none. -/
theorem lookups_compute_nounClasses :
    (∃ handle w', (MacroDemand.lemmaMacro "n" "class").Builds nounClasses {} handle w' ∧
      (w'.document.call (lemmaPhrase "mtu") 1 handle.name ["2"]
        { contents := fun _ => "" }).contents handle.result = "<m>" ∧
      (w'.document.call (lemmaPhrase "kitu") 1 handle.name ["2"]
        { contents := fun _ => "<wa>" }).contents handle.result = "") ∧
    (∃ handle w', (MacroDemand.disjointMacro splitClass).Builds adjectiveClasses {} handle w' ∧
      (w'.document.call (lemmaPhrase "kitu") 1 handle.name ["2"]
        { contents := fun _ => "<sg>" }).contents handle.result = "<7>" ∧
      (w'.document.call (lemmaPhrase "kitu") 1 handle.name ["2"]
        { contents := fun _ => "<pl>" }).contents handle.result = "<10>" ∧
      (w'.document.call (lemmaPhrase "kitu") 1 handle.name ["2"]
        { contents := fun _ => "<du>" }).contents handle.result = "") ∧
    (∃ w' choice, Finds obliqueNouns "n" "case" true {} true "a_n_case" w' ∧
      readSource obliqueNouns 1 "n" "case" "v_n_case" true ⟨{}, {}, [], []⟩ =
        (.ok (), ⟨w', {}, [], [.choose choice]⟩) ∧
      choice.result (.engine ⟨lemmaPhrase "<OBL>", id⟩) (fun _ => "") "v_n_case" = "<acc>" ∧
      choice.result (.engine ⟨lemmaPhrase "<GEN>", id⟩) (fun _ => "<nom>") "v_n_case" = "") ∧
    Reading.shows ⟨⟨lemmaPhrase "", id⟩, id⟩ "acc" "acc" = true := by
  obtain ⟨hlemma, hdisjoint, hsource, htag⟩ := lookups_compute_lexicon
  refine ⟨?_, ?_, ?_, (htag ⟨⟨lemmaPhrase "", id⟩, id⟩ Function.injective_id "acc" "acc").2 rfl⟩
  · obtain ⟨w', hbuilds⟩ : ∃ w', (MacroDemand.lemmaMacro "n" "class").Builds nounClasses {}
        (lemmaHandle "n" "class") w' :=
      ⟨_, rfl, by decide +kernel, by decide +kernel⟩
    have hruns := hlemma nounClasses {} _ _ "n" "class" _ hbuilds .refl
    refine ⟨_, w', hbuilds, ?_, ?_⟩
    · rw [hruns.call 0 ["2"]]
      decide +kernel
    · rw [hruns.call 0 ["2"]]
      decide +kernel
  · obtain ⟨w', hbuilds⟩ : ∃ w', (MacroDemand.disjointMacro splitClass).Builds adjectiveClasses {}
        (disjointHandle adjectiveClasses splitClass "m_class_from_lemma") w' :=
      ⟨_, rfl, by decide +kernel, by decide +kernel⟩
    have hruns := hdisjoint adjectiveClasses {} _ _ splitClass _ hbuilds .refl
    refine ⟨_, w', hbuilds, ?_, ?_, ?_⟩
    · rw [hruns.call 0 ["2"]]
      decide +kernel
    · rw [hruns.call 0 ["2"]]
      decide +kernel
    · rw [hruns.call 0 ["2"]]
      decide +kernel
  · obtain ⟨w', hfinds⟩ : ∃ w', Finds obliqueNouns "n" "case" true {} true "a_n_case" w' :=
      ⟨_, rfl, .inl rfl⟩
    obtain ⟨choice, hread, hresult⟩ := (hsource obliqueNouns 1 "n" "case" "v_n_case" true
      ⟨{}, {}, [], []⟩).1 "a_n_case" w' hfinds
    refine ⟨w', choice, hfinds, hread, ?_, ?_⟩
    · rw [hresult]
      decide +kernel
    · rw [hresult]
      decide +kernel

end Compile

end TransferRules

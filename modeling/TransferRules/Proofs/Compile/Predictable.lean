import TransferRules.Proofs.Compile.Demands
import TransferRules.Proofs.Workspace.Assets

/-!
# Requests whose answers can be predicted

Macros are taken over by name, and a macro that is there is taken over without a look at the
lexicon.  So in general the answer to a request depends on all that was asked for before it.  It
does not if what is asked for in all is such that two things cannot happen: that a macro that cannot
be made finds one of its name, and that the macro of a disjoint set has to make way for that of
another set.  Then a macro is answered under its own name exactly if there are lemmas to make it of,
whatever is in the workspace, and it is added with its variables unless it is there.  The same holds
for the attributes of features, but for their names.

## Main Definitions

* `MacroDemand.isAnswerable` — there are lemmas to make a macro of
* `Reusable` — what is asked for is found again by its name
* `Workspace.Predictable` — all that was made is what is asked for and can be made

## Main Statements

* `Predictable.request_ok`, `Predictable.request_error` — **step lemmas** for macros
* `Predictable.ensureAttribute_ok`, `Predictable.ensureAttribute_error` — and for attributes
-/

namespace TransferRules

open TransferRules.Action
open TransferRules.Compile
open TransferRules.Markup
open TransferRules.Ordered
open TransferRules.Transfer

/-! ## What is asked for -/

namespace Compile

namespace MacroDemand

/-- There are lemmas from which the macro can be made. -/
def isAnswerable (x : Lexicon) : MacroDemand → Bool
  | lemmaMacro category label => !(lemmasByValue (x.lemmas category label)).isEmpty
  | disjointMacro set =>
    set.pairings.any fun pairing => !(lemmasByValue (allLemmas x pairing.part)).isEmpty

/-- The macro under its own name, as its callers see it. -/
def handle (x : Lexicon) : MacroDemand → MacroHandle
  | lemmaMacro category label => lemmaHandle category label
  | disjointMacro set => disjointHandle x set (disjointNames set).1

/-- The variables that come with the macro. -/
def vars : MacroDemand → List String
  | lemmaMacro category label => [(lemmaMacroNames category label).2]
  | disjointMacro set => [(disjointNames set).2.1, (disjointNames set).2.2]

/-- What there is once the macro was made. -/
def assets (d : MacroDemand) : Set Asset :=
  {asset | asset = .definition .macros d.name ∨ ∃ v ∈ d.vars, asset = .definition .vars v}

/-- Why the macro is refused. -/
def refusal : MacroDemand → Issue
  | lemmaMacro category label => .unresolvedFeature category label
  | disjointMacro set => .unresolvedFeature "*" set.name

end MacroDemand

/-- What is asked for is found again by its name, whatever else is asked for before.  No macro that
can be made has the name of a macro of a feature that cannot, and there is at most one disjoint set
whose macro can be made. -/
structure Reusable (x : Lexicon) (asked : List MacroDemand) : Prop where
  refused : ∀ d ∈ asked, ∀ d' ∈ asked, d.isDisjoint = false → d.isAnswerable x = false →
    d'.isAnswerable x = true → d'.name ≠ d.name
  sets : ∀ d ∈ asked, ∀ d' ∈ asked, d.isDisjoint = true → d'.isDisjoint = true →
    d.isAnswerable x = true → d'.isAnswerable x = true → d = d'

instance (x : Lexicon) (asked : List MacroDemand) : Decidable (Reusable x asked) :=
  decidable_of_iff (_ ∧ _) ⟨fun h => ⟨h.1, h.2⟩, fun h => ⟨h.refused, h.sets⟩⟩

end Compile

/-! ## Macros that are held -/

/-- The macro that is held for what is asked for. -/
def MacroTable.answer? (t : MacroTable) : MacroDemand → Option MacroHandle
  | .lemmaMacro category label => t.lemmaMacro? category label
  | .disjointMacro set => (t.disjoint.filter fun entry => decide (entry.1 = set)).map Prod.snd

namespace Workspace

/-- Hold the macro that was asked for. -/
def hold (w : Workspace) (handle : MacroHandle) : MacroDemand → Workspace
  | .lemmaMacro category label => w.holdLemmaMacro (category, label) handle
  | .disjointMacro set => w.holdDisjointMacro set handle

variable {w w' : Workspace} {x : Lexicon} {d d' : MacroDemand} {handle handle' : MacroHandle}

theorem assets_hold (w : Workspace) (handle : MacroHandle) (d : MacroDemand) :
    (w.hold handle d).assets = w.assets := by
  cases d with
  | lemmaMacro category label => rfl
  | disjointMacro set => rfl

/-- What is held for something else was held before. -/
theorem answer?_hold (h : (w.hold handle d).macros.answer? d' = some handle') :
    w.macros.answer? d' = some handle' ∨ d' = d ∧ handle' = handle := by
  cases d with
  | lemmaMacro category label =>
      cases d' with
      | disjointMacro set => exact .inl h
      | lemmaMacro category' label' =>
          have hfind : ((w.macros.lemmaMacros ++ [((category, label), handle)]).find? fun entry =>
              entry.1 == (category', label')).map Prod.snd = some handle' := h
          rw [List.find?_append, Option.map_or] at hfind
          rcases Option.or_eq_some_iff.1 hfind with hold | ⟨-, hnew⟩
          · exact .inl hold
          · obtain ⟨entry, hentry, rfl⟩ := Option.map_eq_some_iff.1 hnew
            obtain rfl := List.mem_singleton.1 (List.mem_of_find?_eq_some hentry)
            have hkey := List.find?_some hentry
            rw [beq_iff_eq, Prod.mk.injEq] at hkey
            exact .inr ⟨by rw [hkey.1, hkey.2], rfl⟩
  | disjointMacro set =>
      cases d' with
      | lemmaMacro category label => exact .inl h
      | disjointMacro set' =>
          obtain ⟨entry, hentry, rfl⟩ := Option.map_eq_some_iff.1 h
          obtain ⟨hheld, hset⟩ := Option.filter_eq_some_iff.1 hentry
          cases hheld
          obtain rfl : set = set' := of_decide_eq_true hset
          exact .inr ⟨rfl, rfl⟩

/-- What is held is answered, and nothing changes. -/
theorem request_of_answer? (h : w.macros.answer? d = some handle) :
    d.request x w = .ok (handle, w) := by
  cases d with
  | lemmaMacro category label =>
      have hheld : w.macros.lemmaMacro? category label = some handle := h
      show w.ensureLemmaMacro x category label = _
      unfold Workspace.ensureLemmaMacro
      rw [hheld]
  | disjointMacro set =>
      obtain ⟨⟨held, found⟩, hentry, rfl⟩ := Option.map_eq_some_iff.1 h
      show w.ensureDisjointMacro x set = _
      unfold Workspace.ensureDisjointMacro
      rw [hentry]

/-- What is not held is made, as long as no disjoint set is in the way. -/
theorem request_of_unheld (h : w.macros.answer? d = none) (hanswerable : d.isAnswerable x = true)
    (hfree : d.isDisjoint = true → w.macros.disjoint = none) : d.request x w =
      .ok (d.handle x, (w.makeMacro (d.macroFor x d.name) d.vars).hold (d.handle x) d) := by
  cases d with
  | lemmaMacro category label =>
      have hunheld : w.macros.lemmaMacro? category label = none := h
      have hknown : (lemmasByValue (x.lemmas category label)).isEmpty = false := by
        simpa [MacroDemand.isAnswerable] using hanswerable
      show w.ensureLemmaMacro x category label = _
      unfold Workspace.ensureLemmaMacro
      simp only [hunheld, hknown, Bool.and_false]
      rfl
  | disjointMacro set =>
      have hnone := hfree rfl
      have hknown : ((set.pairings.map fun pairing =>
          (pairing.coValue, lemmasByValue (allLemmas x pairing.part))).all fun part =>
            part.2.isEmpty) = false := by
        rw [List.all_map, List.all_eq_false]
        obtain ⟨pairing, hpairing, hlemmas⟩ := List.any_eq_true.1 hanswerable
        exact ⟨pairing, hpairing, by simpa using hlemmas⟩
      show w.ensureDisjointMacro x set = _
      unfold Workspace.ensureDisjointMacro
      simp only [hnone, Option.filter_none, hknown]
      rfl

/-- What can neither be made nor found is refused. -/
theorem request_of_unanswerable (h : w.macros.answer? d = none)
    (hanswerable : d.isAnswerable x = false)
    (hfresh : d.isDisjoint = false → d.name ∉ w.document.definitionNames .macros) :
    d.request x w = .error d.refusal := by
  cases d with
  | lemmaMacro category label =>
      have hunheld : w.macros.lemmaMacro? category label = none := h
      have hunknown : (lemmasByValue (x.lemmas category label)).isEmpty = true := by
        simpa [MacroDemand.isAnswerable] using hanswerable
      have hmissing : w.document.contains .macros (lemmaMacroNames category label).1 = false :=
        Bool.eq_false_iff.2 (not_contains_iff.2 (hfresh rfl))
      show w.ensureLemmaMacro x category label = _
      unfold Workspace.ensureLemmaMacro
      simp only [hunheld, hunknown, hmissing]
      rfl
  | disjointMacro set =>
      have hunheld : (w.macros.disjoint.filter fun entry => decide (entry.1 = set)) = none :=
        Option.map_eq_none_iff.1 h
      have hunknown : ((set.pairings.map fun pairing =>
          (pairing.coValue, lemmasByValue (allLemmas x pairing.part))).all fun part =>
            part.2.isEmpty) = true := by
        rw [List.all_map, List.all_eq_true]
        intro pairing hpairing
        simpa using List.any_eq_false.1 hanswerable pairing hpairing
      show w.ensureDisjointMacro x set = _
      unfold Workspace.ensureDisjointMacro
      simp only [hunheld, hunknown]
      rfl

/-! ## Predictable workspaces -/

/-- All macros of a workspace are asked for and can be made; those that are held have their own
names, and their variables are there.  And the source lexicon knows values of all features that are
resolved. -/
structure Predictable (source target : Lexicon) (asked : List MacroDemand) (w : Workspace) :
    Prop where
  coherent : w.Coherent
  known : w.KnownTo source
  macros : ∀ n ∈ w.document.definitionNames .macros,
    ∃ d ∈ asked, d.isAnswerable target = true ∧ d.name = n
  held : ∀ d handle, w.macros.answer? d = some handle →
    d ∈ asked ∧ d.isAnswerable target = true ∧ handle = d.handle target ∧ d.assets ⊆ w.assets

/-- A document that was just loaded, with no other macros. -/
theorem predictable_ofDocument {source target : Lexicon} {asked : List MacroDemand}
    {t : TransferDocument} (ht : t.AsLoaded) (hmacros : ∀ n ∈ t.definitionNames .macros,
      ∃ d ∈ asked, d.isAnswerable target = true ∧ d.name = n) :
    (ofDocument t).Predictable source target asked where
  coherent := .ofDocument ht
  known := nofun
  macros := hmacros
  held d handle h := by cases d <;> cases h

namespace Predictable

variable {source target : Lexicon} {asked : List MacroDemand}

/-- A change that is not about macros. -/
theorem of_macros (hw : w.Predictable source target asked) (hcoherent : w'.Coherent)
    (hknown : w'.KnownTo source)
    (hmacros : w'.document.definitions .macros = w.document.definitions .macros)
    (hheld : w'.macros = w.macros) (hassets : w.assets ⊆ w'.assets) :
    w'.Predictable source target asked where
  coherent := hcoherent
  known := hknown
  macros n hn := by
    refine hw.macros n ?_
    rwa [TransferDocument.definitionNames, hmacros] at hn
  held d handle h := by
    obtain ⟨hd, hanswerable, heq, hold⟩ := hw.held d handle (hheld ▸ h)
    exact ⟨hd, hanswerable, heq, hold.trans hassets⟩

theorem ensureVariable (hw : w.Predictable source target asked) (name : String)
    (comment? : Option String) :
    (w.ensureVariable name comment?).Predictable source target asked := by
  have huntouched := Untouched.ensureVariable w name comment?
  have hgrows := (w.ensureVariable_grows name comment?).1
  refine hw.of_macros (hw.coherent.grows hgrows) ?_ huntouched.macros huntouched.held
    hgrows.assets_subset
  exact hw.known.of_resolved_eq (congrArg _ (attributes_ensureVariable name comment?))

theorem ensureCategory (hw : w.Predictable source target asked) (x : Lexicon) (category : String)
    (values : List String) :
    (w.ensureCategory x category values).2.Predictable source target asked := by
  have hgrows := (w.ensureCategory_grows x category values).1
  have hheld : (w.ensureCategory x category values).2.macros = w.macros := by
    unfold Workspace.ensureCategory
    dsimp only
    split <;> rfl
  refine hw.of_macros (hw.coherent.grows hgrows) ?_ (w.definitions_ensureCategory _ _ _ nofun) hheld
    hgrows.assets_subset
  exact hw.known.of_resolved_eq (congrArg _ (attributes_ensureCategory category values))

theorem ensureGramCat (hw : w.Predictable source target asked) (categories : StringSet) :
    (w.ensureGramCat categories).Predictable source target asked := by
  have huntouched := Untouched.ensureGramCat w categories
  refine hw.of_macros (hw.coherent.grows (hw.coherent.ensureGramCat_grows categories).1) ?_
    huntouched.macros huntouched.held (w.assets_ensureGramCat categories).ge
  exact hw.known.of_resolved_eq (resolved_ensureGramCat categories)

/-- **A macro that can be made is answered under its own name**, and it is there afterwards with its
variables. -/
theorem request_ok (hr : Reusable target asked) (hw : w.Predictable source target asked)
    (hd : d ∈ asked) (hanswerable : d.isAnswerable target = true) :
    ∃ w', d.request target w = .ok (d.handle target, w') ∧
      w'.Predictable source target asked ∧ w'.assets = w.assets ∪ d.assets ∧
        w'.document.definitions .attributes = w.document.definitions .attributes := by
  cases hfound : w.macros.answer? d with
  | some handle =>
      obtain ⟨-, -, rfl, hassets⟩ := hw.held d handle hfound
      exact ⟨w, request_of_answer? hfound, hw, (Set.union_eq_left.2 hassets).symm, rfl⟩
  | none =>
      -- If the macro of a disjoint set were held, it would be that of this one.
      have hfree : d.isDisjoint = true → w.macros.disjoint = none := by
        intro hdisjoint
        cases hheld : w.macros.disjoint with
        | none => rfl
        | some entry =>
            have hanswer : w.macros.answer? (.disjointMacro entry.1) = some entry.2 := by
              simp [MacroTable.answer?, hheld]
            obtain ⟨hentry, hknown, -⟩ := hw.held _ _ hanswer
            rw [hr.sets d hd _ hentry hdisjoint rfl hanswerable hknown, hanswer] at hfound
            cases hfound
      have hrequest := request_of_unheld hfound hanswerable hfree
      have hname : (d.macroFor target d.name).name = d.name :=
        MacroDemand.name_macroFor (.own d)
      have hassets : ((w.makeMacro (d.macroFor target d.name) d.vars).hold (d.handle target)
          d).assets = w.assets ∪ d.assets := by
        rw [assets_hold, assets_makeMacro, hname]
        rfl
      have hmakes := w.makes_makeMacro (d.macroFor target d.name) d.vars
      have hdefinitions : ((w.makeMacro (d.macroFor target d.name) d.vars).hold
          (d.handle target) d).document = (w.makeMacro (d.macroFor target d.name)
            d.vars).document := by
        cases d <;> rfl
      refine ⟨_, hrequest, ⟨hw.coherent.grows (d.request_grows hrequest), ?_, fun n hn => ?_,
        fun d' handle hheld => ?_⟩, hassets, ?_⟩
      · refine hw.known.of_resolved_eq (congrArg _ ?_)
        cases d with
        | lemmaMacro category label => exact attributes_ensureLemmaMacro hrequest
        | disjointMacro set => exact attributes_ensureDisjointMacro hrequest
      · have hasset : Asset.definition .macros n ∈ w.assets ∪ d.assets := by
          rw [← hassets]
          exact ⟨nofun, nofun, hn⟩
        rcases hasset with hold | heq | ⟨v, -, heq⟩
        · exact hw.macros n hold.2.2
        · cases heq
          exact ⟨d, hd, hanswerable, rfl⟩
        · cases heq
      · rw [hassets]
        rcases answer?_hold hheld with hold | ⟨rfl, rfl⟩
        · rw [hmakes.macros] at hold
          obtain ⟨hd', hknown, heq, hsubset⟩ := hw.held d' handle hold
          exact ⟨hd', hknown, heq, hsubset.trans Set.subset_union_left⟩
        · exact ⟨hd, hanswerable, rfl, Set.subset_union_right⟩
      · rw [hdefinitions]
        exact w.definitions_makeMacro _ _ .attributes nofun nofun

/-- **A macro that cannot be made is refused.** -/
theorem request_error (hr : Reusable target asked) (hw : w.Predictable source target asked)
    (hd : d ∈ asked) (hanswerable : d.isAnswerable target = false) :
    d.request target w = .error d.refusal := by
  refine request_of_unanswerable ?_ hanswerable fun hdisjoint hdefined => ?_
  · cases hfound : w.macros.answer? d with
    | none => rfl
    | some handle =>
        rw [(hw.held d handle hfound).2.1] at hanswerable
        cases hanswerable
  · obtain ⟨d', hd', hknown, hname⟩ := hw.macros _ hdefined
    exact hr.refused d hd d' hd' hdisjoint hanswerable hknown hname

variable {q : FeatureQuery}

/-- **A feature with known values is resolved**, and no attribute is added if there is one with
these values. -/
theorem ensureAttribute_ok (hw : w.Predictable source target asked)
    (hvalues : (featureValues source q.key).isEmpty = false) :
    ∃ name w', w.ensureAttribute source q = .ok (name, w') ∧ w'.Predictable source target asked ∧
      w'.assets = insert (.feature q.key) w.assets ∧
        (HasValues w.document (featureValues source q.key) →
          w'.document.definitions .attributes = w.document.definitions .attributes) := by
  obtain ⟨name, w', hok⟩ := resolvable_iff.2 (.inr hvalues : w.Resolvable source q.key)
  have huntouched := Untouched.ensureAttribute hok
  have hgrows := (hw.coherent.ensureAttribute_grows hok).1
  refine ⟨name, w', hok, ?_, assets_ensureAttribute hok,
    definitions_ensureAttribute_of_hasValues hw.coherent hok⟩
  exact hw.of_macros (hw.coherent.grows hgrows)
    (hw.known.ensureAttribute (fun _ => rfl) hok).1 huntouched.macros huntouched.held
    hgrows.assets_subset

/-- **A feature without known values is refused.** -/
theorem ensureAttribute_error (hw : w.Predictable source target asked)
    (hsource : q.key.isSource = true) (hvalues : (featureValues source q.key).isEmpty = true) :
    w.ensureAttribute source q =
      .error (.unresolvedFeature q.key.category q.key.label) := by
  refine ensureAttribute_eq_error_iff.2 ⟨⟨?_, hvalues⟩, rfl⟩
  cases hfound : w.attributes.resolved? q.key with
  | none => rfl
  | some name =>
      have hknown := hw.known _ (mem_of_find?_key hfound) hsource
      rw [hvalues] at hknown
      cases hknown

end Predictable

end Workspace

end TransferRules

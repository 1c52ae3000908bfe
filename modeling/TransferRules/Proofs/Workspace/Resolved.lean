import TransferRules.Proofs.Ordered.Related
import TransferRules.Proofs.Workspace.Requests

/-!
# Features that are resolved

A feature is resolved to an attribute only if the lexicon knows values of it.  Once resolved it is
found again without a look at the lexicon, so that the lexicon still knows these values has to be
kept in mind from then on.  Nothing that is asked of a workspace does away with it, as long as it is
always asked about the same languages.

## Main Definitions

* `Workspace.KnownTo` — the source lexicon knows values of the features that are resolved

## Main Statements

* `Workspace.KnownTo.ensureAttribute` — a feature is only resolved if the lexicon knows values
* `Request.knownTo` — this is so after any request
-/

namespace TransferRules

open TransferRules.Compile
open TransferRules.Ordered
open TransferRules.Transfer

namespace Workspace

/-- The source lexicon knows values of every feature of the source language that is resolved. -/
def KnownTo (w : Workspace) (x : Lexicon) : Prop :=
  ∀ entry ∈ w.attributes.resolved, entry.1.isSource = true →
    (featureValues x entry.1).isEmpty = false

variable {w w' : Workspace} {x y : Lexicon}

theorem KnownTo.of_resolved_eq (h : w.KnownTo x)
    (heq : w'.attributes.resolved = w.attributes.resolved) : w'.KnownTo x := by
  unfold KnownTo
  rw [heq]
  exact h

theorem resolved_addAttribute (base : String) (values : StringSet) :
    (w.addAttribute base values).2.attributes.resolved = w.attributes.resolved := by
  unfold addAttribute
  split
  · rfl
  · rfl

/-- **A feature is only resolved if the lexicon knows values of it.** -/
theorem KnownTo.ensureAttribute (h : w.KnownTo x) {q : FeatureQuery} {name : String}
    (hq : q.key.isSource = true → y = x) (hok : w.ensureAttribute y q = .ok (name, w')) :
    w'.KnownTo x ∧ (q.key.isSource = true → (featureValues x q.key).isEmpty = false) := by
  unfold Workspace.ensureAttribute at hok
  cases hresolved : w.attributes.resolved? q.key with
  | some found =>
      rw [hresolved] at hok
      cases hok
      exact ⟨h, h _ (mem_of_find?_key hresolved)⟩
  | none =>
      rw [hresolved] at hok
      dsimp only at hok
      split at hok
      · cases hok
      · next hvalues =>
        cases hok
        have hknown : q.key.isSource = true → (featureValues x q.key).isEmpty = false := by
          intro hsource
          rw [← hq hsource]
          exact Bool.eq_false_iff.2 hvalues
        refine ⟨fun entry hentry => ?_, hknown⟩
        rcases List.mem_append.1 hentry with hentry | hentry
        · exact h entry (resolved_addAttribute _ _ ▸ hentry)
        · rw [List.mem_singleton.1 hentry]
          exact hknown

theorem attributes_ensureVariable (name : String) (comment? : Option String) :
    (w.ensureVariable name comment?).attributes = w.attributes := by
  unfold ensureVariable
  split
  · rfl
  · rfl

theorem attributes_ensureMacro (m : Action.MacroDefinition) :
    (w.ensureMacro m).attributes = w.attributes := by
  unfold ensureMacro
  split
  · rfl
  · rfl

theorem attributes_ensureCategory (category : String) (values : List String) :
    (w.ensureCategory x category values).2.attributes = w.attributes := by
  unfold ensureCategory
  dsimp only
  split
  · rfl
  · rfl

theorem attributes_ensureLemmaMacro {category label : String} {handle : MacroHandle}
    (h : w.ensureLemmaMacro x category label = .ok (handle, w')) :
    w'.attributes = w.attributes := by
  unfold ensureLemmaMacro at h
  split at h
  · cases h
    rfl
  · dsimp only at h
    split at h
    · cases h
    · cases h
      exact (attributes_ensureVariable _ _).trans (attributes_ensureMacro _)

theorem attributes_ensureDisjointMacro {set : DisjointSet} {handle : MacroHandle}
    (h : w.ensureDisjointMacro x set = .ok (handle, w')) : w'.attributes = w.attributes := by
  unfold ensureDisjointMacro at h
  split at h
  · cases h
    rfl
  · dsimp only at h
    split at h
    · cases h
    · cases h
      refine (attributes_ensureVariable _ _).trans ((attributes_ensureVariable _ _).trans
        ((attributes_ensureMacro _).trans ?_))
      split
      · rfl
      · rfl

theorem resolved_ensureGramCat (categories : StringSet) :
    (w.ensureGramCat categories).attributes.resolved = w.attributes.resolved := by
  unfold ensureGramCat
  split
  · rfl
  · rfl

end Workspace

/-- **After any request** the source lexicon knows values of the features that are resolved, if it
did before. -/
theorem Request.knownTo {ctx : Lexicons} {w w' : Workspace} (h : Request ctx w w')
    (hw : w.KnownTo ctx.source) : w'.KnownTo ctx.source := by
  cases h with
  | needCategory category values =>
      exact hw.of_resolved_eq (congrArg _ (Workspace.attributes_ensureCategory _ _))
  | needAttribute hok => exact (hw.ensureAttribute (fun hsource => if_pos hsource) hok).1
  | needValues base values => exact hw.of_resolved_eq (Workspace.resolved_addAttribute _ _)
  | needVariable name comment? =>
      exact hw.of_resolved_eq (congrArg _ (Workspace.attributes_ensureVariable _ _))
  | needLemmaMacro hok =>
      exact hw.of_resolved_eq (congrArg _ (Workspace.attributes_ensureLemmaMacro hok))
  | needDisjointMacro _ hok =>
      exact hw.of_resolved_eq (congrArg _ (Workspace.attributes_ensureDisjointMacro hok))
  | needGramCat categories => exact hw.of_resolved_eq (Workspace.resolved_ensureGramCat _)

end TransferRules

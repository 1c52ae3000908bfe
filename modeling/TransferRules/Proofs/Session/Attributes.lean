import TransferRules.Proofs.Session.GramCat
import TransferRules.Proofs.Workspace.FeatureValues

/-!
# Attributes of a session

However a session has been run, an attribute that it made has its value set for itself.  Whoever
asks for the attribute of a feature for the first time gets one that lists exactly the values of the
feature, whether it was made for it or not, and gets the same one from then on.

That attribute goes on listing the values, and if it is not the category attribute, it lists no
others.  The category attribute may have been taken for a feature with the same values; then every
rule that asks for a category which it does not list yet adds to what the feature is said to have.

## Main Statements

* `Session.deduplicated_of_run` — what becomes of attributes, and of a request for one
* `Session.provides_of_run` — what the attribute of a feature lists later
* `Session.not_hasAttribute_derivedNouns` — a feature that has the category attribute
-/

namespace TransferRules

open TransferRules.Ordered
open TransferRules.Transfer

/-! ## Features that are resolved -/

/-- What is resolved is found first. -/
theorem AttributeTable.resolved?_append {t t' : AttributeTable} {key : FeatureKey} {name : String}
    {more : List (FeatureKey × String)} (h : t.resolved? key = some name)
    (heq : t'.resolved = t.resolved ++ more) : t'.resolved? key = some name := by
  unfold resolved? at h ⊢
  rw [heq, List.find?_append, Option.map_or, h, Option.some_or]

section Kept

variable (source target : Lexicon)

/-- A feature stays resolved to the same attribute. -/
theorem keptByRequests_resolved? (key : FeatureKey) (name : String) :
    KeptByRequests source target fun w => w.attributes.resolved? key = some name where
  request _ h hrequest := by
    rcases hrequest.resolved with heq | ⟨q, found, -, -, heq⟩
    · exact AttributeTable.resolved?_append h (heq.trans (List.append_nil _).symm)
    · exact AttributeTable.resolved?_append h heq
  attributes h _ hattributes := hattributes ▸ h

/-- All features that are resolved keep attributes that list their values. -/
theorem keptByRequests_listsValues :
    KeptByRequests source target fun w => w.ListsValues source target where
  request hw h hrequest := hrequest.listsValues hw h
  attributes h hdefinitions hattributes := h.of_definitions hdefinitions (congrArg _ hattributes)

end Kept

namespace Session

variable {s : Session} {q : FeatureQuery} {name : String}

/-- A feature that is answered is resolved in the workspace. -/
theorem ensureAttribute_eq_some (h : (s.ensureAttribute q).1 = some name) :
    ∃ w, s.workspace.ensureAttribute (s.lexiconOf q.key) q = .ok (name, w) ∧
      (s.ensureAttribute q).2 = { s with workspace := w } := by
  unfold ensureAttribute at h ⊢
  cases hresult : s.workspace.ensureAttribute (s.lexiconOf q.key) q with
  | ok result =>
      rw [hresult] at h
      cases h
      exact ⟨result.2, rfl, rfl⟩
  | error issue =>
      rw [hresult] at h
      cases h

/-- One that is not answered was not resolved, the lexicon knows no values of it, and this is
reported. -/
theorem ensureAttribute_fst_eq_none_iff : (s.ensureAttribute q).1 = none ↔
    s.workspace.attributes.resolved? q.key = none ∧
      (featureValues (s.lexiconOf q.key) q.key).isEmpty = true := by
  unfold ensureAttribute
  cases hresult : s.workspace.ensureAttribute (s.lexiconOf q.key) q with
  | ok result =>
      refine ⟨nofun, fun h => ?_⟩
      have herror := Workspace.ensureAttribute_eq_error_iff.2 ⟨h, rfl⟩
      rw [hresult] at herror
      cases herror
  | error issue =>
      exact ⟨fun _ => (Workspace.ensureAttribute_eq_error_iff.1 hresult).1, fun _ => rfl⟩

theorem ensureAttribute_of_unresolved (h : (s.ensureAttribute q).1 = none) :
    (s.ensureAttribute q).2 = s.note (.unresolvedFeature q.key.category q.key.label) := by
  have herror := Workspace.ensureAttribute_eq_error_iff.2
    ⟨ensureAttribute_fst_eq_none_iff.1 h, rfl⟩
  unfold ensureAttribute
  rw [herror]

/-- A feature that is resolved is looked up, and nothing changes. -/
theorem ensureAttribute_of_resolved (h : s.workspace.attributes.resolved? q.key = some name) :
    s.ensureAttribute q = (some name, s) := by
  unfold ensureAttribute
  rw [Workspace.ensureAttribute_of_resolved h]

/-- Asked again, a session gives the same answer and stays as it is. -/
theorem ensureAttribute_twice (h : (s.ensureAttribute q).1 = some name) :
    (s.ensureAttribute q).2.ensureAttribute q = (some name, (s.ensureAttribute q).2) := by
  obtain ⟨w, hok, heq⟩ := ensureAttribute_eq_some h
  rw [heq]
  exact ensureAttribute_of_resolved (Workspace.resolved?_ensureAttribute hok)

/-- **Attributes are not doubled.**  After every run no attribute that was made lists the same tags
as another one, the category attribute aside.  A feature that is resolved for the first time gets
an attribute with exactly its values; asked again, the session gives the same answer and stays as it
is.  And only a feature without known values is refused, which changes nothing but the report. -/
theorem deduplicated_of_run (source target : Lexicon) (settings : GeneratorSettings)
    (events : List Event) :
    let s := (start source target settings).run events
    Deduplicated s.document ∧ ∀ q : FeatureQuery,
      (∀ name, (s.ensureAttribute q).1 = some name →
        (s.workspace.attributes.resolved? q.key = none →
          HasAttribute (s.ensureAttribute q).2.document name
            (featureValues (s.lexiconOf q.key) q.key)) ∧
        (s.ensureAttribute q).2.ensureAttribute q = (some name, (s.ensureAttribute q).2)) ∧
      ((s.ensureAttribute q).1 = none ↔ s.workspace.attributes.resolved? q.key = none ∧
        (featureValues (s.lexiconOf q.key) q.key).isEmpty = true) ∧
      ((s.ensureAttribute q).1 = none →
        (s.ensureAttribute q).2 = s.note (.unresolvedFeature q.key.category q.key.label)) := by
  intro s
  have hcoherent : s.workspace.Coherent := coherent_run source target settings events
  have hunshared : s.workspace.Unshared :=
    run_invariant (fun _ hd => Workspace.unshared_ofDocument hd)
      (fun _ _ _ hw h hchanges => h.changes hw hchanges) source target settings events
  refine ⟨hunshared.deduplicated hcoherent, fun q =>
    ⟨fun name hname => ⟨fun hfirst => ?_, ensureAttribute_twice hname⟩,
      ensureAttribute_fst_eq_none_iff, ensureAttribute_of_unresolved⟩⟩
  obtain ⟨w, hok, heq⟩ := ensureAttribute_eq_some hname
  rw [heq]
  exact hcoherent.ensureAttribute_lists hok hfirst

/-! ## What the attribute of a feature lists later -/

/-- **The attribute of a feature goes on listing its values.**  However a session has been run, and
whatever is done with it until the next load, a feature that is resolved stays resolved to the same
attribute, and some attribute of this name lists all values of the feature.  It lists no others
unless it is the category attribute; and this lists, beside what it listed before, just what was
asked for. -/
theorem provides_of_run (source target : Lexicon) (settings : GeneratorSettings)
    (events : List Event) (ops : List Operation) :
    let s := (start source target settings).run events
    let t := s.applyAll ops
    (∀ q name, s.workspace.attributes.resolved? q.key = some name →
      t.ensureAttribute q = (some name, t) ∧
        Provides t.document name (valuesIn source target q.key)) ∧
    ∀ e, s.document.definition? .attributes gramCatName = some e →
      ∃ e', t.document.definition? .attributes gramCatName = some e' ∧
        ∀ tag, tag ∈ attributeItems e' ↔ tag ∈ attributeItems e ∨
          IsAsked (ops.flatMap (Operation.categories source target settings)) tag := by
  intro s t
  have hs : s.workspace.Coherent := coherent_run source target settings events
  have hsetup := (start source target settings).sameSetup_run events
  have hsource : s.source = source := hsetup.source
  have htarget : s.target = target := hsetup.target
  have hsettings : s.settings = settings := hsetup.settings
  have hlists : s.workspace.ListsValues s.source s.target := by
    rw [hsource, htarget]
    exact (keptByRequests_listsValues source target).run (fun _ _ => List.forall_mem_nil _)
      settings events
  have hlater : t.workspace.ListsValues s.source s.target :=
    (keptByRequests_listsValues _ _).applyAll hs hlists ops
  rw [hsource, htarget] at hlater
  refine ⟨fun q name hname => ?_, fun e he => ?_⟩
  · have hstays : t.workspace.attributes.resolved? q.key = some name :=
      (keptByRequests_resolved? _ _ q.key name).applyAll hs hname ops
    exact ⟨ensureAttribute_of_resolved hstays,
      hlater _ (mem_of_find?_key hstays)⟩
  · have hall := enlarges_applyAll hs ops
    rw [hsource, htarget, hsettings] at hall
    simp only [TransferDocument.definition?_eq_head?] at he ⊢
    exact Enlarged.exists_mem_iff hall he

/-! ## A feature that has the category attribute -/

/-- A language in which nouns are derived from adjectives and from other nouns. -/
def derivedNouns : Lexicon where
  projectName := "source"
  categories := .ofList [("adj", none), ("n", none)]
  features := .ofList [("n", .ofList [("base", { values := ["adj", "n"] })])]

/-- A language of which nothing is known but the categories. -/
def plainNouns : Lexicon where
  projectName := "target"
  categories := .ofList [("adj", none), ("n", none)]

/-- The base of a noun. -/
def baseOfNoun : FeatureQuery := { key := ⟨"n", "base", false, true⟩ }

/-- Process a document with a rule for a noun behind a word of the given category. -/
def processPhrase (category : String) : Operation :=
  .process
    { rules := [{
        rule := {
          name := category
          source := [⟨"1", some category, []⟩, ⟨"2", some "n", []⟩]
          target := [{ id := "1" }, { id := "2", isHead := true }] }
        permuted := none }] } "spec"

/-- **The attribute of a feature may list more than its values.**  A rule for adjectives makes the
category attribute.  The base of a noun has the same values, so it gets this attribute.  Then a rule
for numerals, of which neither lexicon knows, adds their category to it; and the session goes on
answering with this attribute when it is asked for the base of a noun. -/
theorem not_hasAttribute_derivedNouns :
    let s := (start derivedNouns plainNouns {}).run [.operation (processPhrase "adj"),
      .operation (.ensureAttribute baseOfNoun)]
    let t := s.applyAll [processPhrase "num"]
    s.workspace.attributes.resolved? baseOfNoun.key = some gramCatName ∧
      HasAttribute s.document gramCatName (featureValues derivedNouns baseOfNoun.key) ∧
      (t.ensureAttribute baseOfNoun).1 = some gramCatName ∧
      ¬ HasAttribute t.document gramCatName (featureValues derivedNouns baseOfNoun.key) := by
  decide +kernel

end Session

end TransferRules

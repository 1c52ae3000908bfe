import TransferRules.Proofs.Session.Accounting
import TransferRules.Proofs.Session.Writing
import TransferRules.Proofs.Transfer.Retrimming
import TransferRules.Proofs.Workspace.FeatureValues

/-!
# Running again on what was written

Some specifications are processed in a new session, which is trimmed and written.  Then they are
processed again in a session that goes on with the file, and this is trimmed, too.  The second run
finds all that the first one has left, but under three conditions only.  Macros are taken over by
name, so what is asked for must be found again by its name.  The rules that stand in the end must be
the same ones, since whatever only other rules use was trimmed.  And attributes are shared by what
they list; the category attribute may have been that of some feature before it was enlarged, and
then the feature needs another one.

## Main Definitions

* `Session.generation` — the operations of a run
* `Session.reopened` — a session that goes on with what was written
* `Session.Reran` — two runs before they are trimmed, one on what the other one has written

## Main Statements

* `Session.Reran.growsBack` — the second run only brings back what was trimmed
* `Session.Reran.attributes_iff` — when attributes are found again
* `Session.definitions_rerun` — **a second run defines what the first one has defined**
-/

namespace TransferRules

open TransferRules.Compile
open TransferRules.Markup
open TransferRules.Ordered
open TransferRules.Transfer

/-! ## Attributes that stay as they are -/

namespace Workspace

variable {source target : Lexicon} {base w : Workspace}

/-- Every feature that is resolved has an attribute that lists exactly its values. -/
def ListsResolved (source target : Lexicon) (w : Workspace) : Prop :=
  ∀ entry ∈ w.attributes.resolved,
    HasValues w.document (featureValues (if entry.1.isSource then source else target) entry.1)

instance (source target : Lexicon) (w : Workspace) : Decidable (w.ListsResolved source target) :=
  inferInstanceAs (Decidable (∀ entry ∈ w.attributes.resolved, _))

theorem listsResolved_congr {w' : Workspace}
    (hsame : w'.document.definitions .attributes = w.document.definitions .attributes)
    (hresolved : w'.attributes.resolved = w.attributes.resolved) :
    w'.ListsResolved source target ↔ w.ListsResolved source target := by
  unfold ListsResolved
  simp only [hresolved, hasValues_congr hsame]

/-- The attributes are those of another workspace and list all that is resolved, or there is more in
them. -/
def Exceeds (source target : Lexicon) (base w : Workspace) : Prop :=
  w.document.definitions .attributes = base.document.definitions .attributes ∧
      w.ListsResolved source target ∨
    attributeWeight (base.document.definitions .attributes) <
      attributeWeight (w.document.definitions .attributes)

/-- Once there is more in the attributes, it stays so. -/
theorem keptByRequests_exceeds (source target : Lexicon) (base : Workspace) :
    KeptByRequests source target (Exceeds source target base) where
  request := by
    intro disjoint w w' hw h hrequest
    rcases h with ⟨hsame, hlists⟩ | hmore
    · rcases (hrequest.grows hw).attributes_eq_or_lt with hstill | hnow
      · refine .inl ⟨hstill.trans hsame, fun entry hentry => ?_⟩
        rcases hrequest.resolved with hresolved | ⟨q, name, hok, hfirst, hresolved⟩
        · exact (hasValues_congr hstill).2 (hlists entry (hresolved ▸ hentry))
        · rw [hresolved, List.mem_append, List.mem_singleton] at hentry
          rcases hentry with hold | rfl
          · exact (hasValues_congr hstill).2 (hlists entry hold)
          · exact ⟨name, hw.ensureAttribute_lists hok hfirst⟩
      · exact .inr (hsame ▸ hnow)
    · rcases (hrequest.grows hw).attributes_eq_or_lt with hstill | hnow
      · exact .inr (hstill ▸ hmore)
      · exact .inr (hmore.trans hnow)
  attributes := by
    intro w w' h hsame htable
    unfold Exceeds at h ⊢
    rwa [hsame, listsResolved_congr hsame (congrArg _ htable)]

end Workspace

namespace Session

variable {source target : Lexicon} {settings : GeneratorSettings} {asked : List MacroDemand}
  {base : Workspace} {compiled origins origins' : List Compilation} {s t : Session}
  {documents : List (Specification × String)}

/-- Process some specifications, and trim. -/
def generation (documents : List (Specification × String)) : List Operation :=
  processing documents ++ [.trim]

/-- A new session that goes on with what a session has written. -/
def reopened (s : Session) : Session :=
  (start s.source s.target s.settings).load (TransferDocument.ofMarkup s.document.toMarkup)

/-- A trim leaves the attributes as they are. -/
theorem listsResolved_trim : s.trim.2.workspace.ListsResolved source target ↔
    s.workspace.ListsResolved source target := by
  refine Workspace.listsResolved_congr ?_ rfl
  exact TransferDocument.definitions_trim_of_ne nofun nofun

/-! ## Runs -/

theorem applyAll_generation (s : Session) (documents : List (Specification × String)) :
    s.applyAll (generation documents) = (s.applyAll (processing documents)).trim.2 :=
  s.applyAll_append _ _

/-- A trim leaves the rules where they are. -/
theorem originsFrom_generation (s : Session) (origins : List Compilation)
    (documents : List (Specification × String)) :
    s.originsFrom origins (generation documents) = s.originsFrom origins (processing documents) :=
  s.originsFrom_append origins _ _

/-- A rule that stands in the end stood before, or it was compiled since. -/
theorem mem_originsFrom {c : Compilation} {ops : List Operation}
    (hc : c ∈ s.originsFrom origins ops) :
    c ∈ origins ∨ c ∈ ops.flatMap (Operation.compilations s.settings) := by
  induction ops generalizing s origins with
  | nil => exact .inl hc
  | cons op ops ih =>
      rw [List.flatMap_cons, List.mem_append]
      rcases ih hc with hbefore | hlater
      · cases op with
        | process x document =>
            rcases List.mem_append.1 hbefore with hkept | hnew
            · obtain ⟨⟨c', node⟩, hmem, rfl⟩ := List.mem_map.1 hkept
              exact .inl (List.of_mem_zip (List.mem_filter.1 hmem).1).1
            · exact .inr (.inl hnew)
        | _ => exact .inl hbefore
      · rw [(s.sameSetup_apply op).settings] at hlater
        exact .inr (.inr hlater)

/-- Processing specifications works on the workspace. -/
theorem works_processing (hs : s.workspace.Coherent)
    (documents : List (Specification × String)) :
    ∃ replaced, s.workspace.Works replaced (s.applyAll (processing documents)).workspace := by
  induction documents generalizing s with
  | nil => exact ⟨[], .refl⟩
  | cons d documents ih =>
      have hfirst : s.workspace.Works (Operation.replaced s.settings (.process d.1 d.2))
          (s.apply (.process d.1 d.2)).workspace := apply_works hs nofun
      obtain ⟨replaced, hrest⟩ := ih (hs.works hfirst)
      refine ⟨Operation.replaced s.settings (.process d.1 d.2) ++ replaced, ?_⟩
      exact (hfirst.weaken fun _ hname => List.mem_append_left _ hname).trans
        (hrest.weaken fun _ hname => List.mem_append_right _ hname)

/-- The category attribute lists what the rules ask for that were compiled. -/
theorem covers_applyAll (hs : s.workspace.Coherent) {ops : List Operation} {c : Compilation}
    (hc : c ∈ ops.flatMap (Operation.compilations s.settings))
    (hneeds : needsGramCat c.rule = true) :
    (s.applyAll ops).workspace.Covers (ruleCategories (c.lexicons s.source s.target) c.rule) := by
  have hasked : ruleCategories (c.lexicons s.source s.target) c.rule ∈
      ops.flatMap (Operation.categories s.source s.target s.settings) := by
    obtain ⟨op, hop, hcompiled⟩ := List.mem_flatMap.1 hc
    refine List.mem_flatMap.2 ⟨op, hop, List.mem_flatMap.2 ⟨c, hcompiled, ?_⟩⟩
    rw [categoriesFor, if_pos hneeds]
    exact List.mem_singleton_self _
  obtain ⟨e, he, hlists⟩ := Enlarged.covers (enlarges_applyAll hs ops) hasked
  exact ⟨e, TransferDocument.definition?_eq_head?.trans he, hlists⟩

/-- A new session holds nothing. -/
theorem accounted_start (source target : Lexicon) (settings : GeneratorSettings)
    (asked : List MacroDemand) :
    Accounted source target settings asked (start source target settings).workspace []
      (start source target settings) [] := by
  obtain ⟨d, hd, hstart⟩ := workspace_start source target settings
  have hempty : ∀ n, n ∉ d.definitionNames .macros := by
    intro n hn
    have hdocument : (start source target settings).document = d := by
      rw [document, hstart]
      rfl
    rw [← hdocument, TransferDocument.definitionNames, definitions_start] at hn
    cases hn
  refine ⟨rfl, rfl, rfl, .refl ?_, ?_⟩
  · rw [hstart]
    exact Workspace.predictable_ofDocument hd fun n hn => absurd hn (hempty n)
  · rw [childrenOf_start]
    exact .nil

/-- What a session holds that goes on with what was written is what was written. -/
theorem definitions_reopened (hs : s.document.Plain) (kind : SectionKind) :
    s.reopened.document.definitions kind = s.document.definitions kind :=
  hs.definitions_ofMarkup kind

/-- What is left after a trim was there before. -/
theorem definitionNames_trim_subset {kind : SectionKind} {n : String}
    (h : n ∈ s.trim.2.document.definitionNames kind) : n ∈ s.document.definitionNames kind := by
  have hleft : n ∈ s.document.trim.2.definitionNames kind := h
  rw [TransferDocument.definitionNames_trim] at hleft
  exact (List.mem_filter.1 hleft).1

/-- **The file of a run** is loaded with its macros and rules. -/
theorem Accounted.reopened (hs : Accounted source target settings asked base compiled s origins)
    (hplain : s.trim.2.document.Plain) :
    Accounted source target settings asked s.trim.2.reopened.workspace [] s.trim.2.reopened
      origins := by
  refine ⟨hs.source_eq, hs.target_eq, hs.settings_eq, .refl ?_, ?_⟩
  · refine Workspace.predictable_ofDocument (TransferDocument.asLoaded_ofMarkup _) fun n hn => ?_
    rw [TransferDocument.definitionNames, hplain.definitions_ofMarkup] at hn
    exact hs.workspace.predictable.macros n (definitionNames_trim_subset hn)
  · have hrules : s.trim.2.reopened.document.childrenOf .rules = s.document.childrenOf .rules :=
      hplain.rules_ofMarkup.trans
        (TransferDocument.childrenOf_trim.trans (List.filter_eq_self.2 fun _ _ => rfl))
    rw [hrules]
    exact hs.rules

/-! ## Two runs -/

/-- Two runs before they are trimmed: the second one compiles the same rules, and goes on with what
the first one has written. -/
structure Reran (source target : Lexicon) (settings : GeneratorSettings) (asked : List MacroDemand)
    (compiled : List Compilation) (s t : Session) (origins origins' : List Compilation) : Prop where
  first : Accounted source target settings asked (start source target settings).workspace compiled s
    origins
  second : Accounted source target settings asked s.trim.2.reopened.workspace compiled t origins'
  plain : s.trim.2.document.Plain
  named : s.document.WellNamed
  works : ∃ replaced, s.trim.2.reopened.workspace.Works replaced t.workspace
  covered : ∀ c ∈ compiled, needsGramCat c.rule = true →
    s.workspace.Covers (ruleCategories (c.lexicons source target) c.rule)
  exceeds : Workspace.Exceeds source target s.trim.2.reopened.workspace t.workspace

namespace Reran

variable {kind : SectionKind} {n : String}

/-- What is loaded for the second run is what was left by the first one. -/
theorem definitionNames_reopened
    (h : Reran source target settings asked compiled s t origins origins') :
    s.trim.2.reopened.document.definitionNames kind = s.trim.2.document.definitionNames kind :=
  congrArg _ (definitions_reopened h.plain kind)

/-- The second run defines no name that the first one did not define before it was trimmed. -/
theorem mem_definitionNames_first
    (h : Reran source target settings asked compiled s t origins origins')
    (hattributes : kind ≠ .attributes) (hrules : kind ≠ .rules)
    (hn : n ∈ t.document.definitionNames kind) : n ∈ s.document.definitionNames kind := by
  have hasset : Asset.definition kind n ∈ t.workspace.assets := ⟨hattributes, hrules, hn⟩
  rcases (h.second.workspace.assets _).1 hasset with hloaded | hneeded
  · refine definitionNames_trim_subset ?_
    rw [← h.definitionNames_reopened]
    exact hloaded.2.2
  · have hfirst : Asset.definition kind n ∈ s.workspace.assets :=
      (h.first.workspace.assets _).2 (.inr hneeded)
    exact hfirst.2.2

/-- Attributes and rules aside, what was left stays where it is, and other names come behind it. -/
theorem definitions (h : Reran source target settings asked compiled s t origins origins')
    (hattributes : kind ≠ .attributes) (hrules : kind ≠ .rules) :
    ∃ new, t.document.definitions kind = s.trim.2.document.definitions kind ++ new ∧
      ∀ e ∈ new, ∃ name, definitionName? kind e = some name ∧
        name ∈ s.document.definitionNames kind ∧
          name ∉ s.trim.2.document.definitionNames kind := by
  obtain ⟨replaced, hworks⟩ := h.works
  obtain ⟨⟨new, hnew, hfresh⟩, -⟩ := hworks.definitions hattributes hrules
  refine ⟨new, hnew.trans (congrArg (· ++ new) (definitions_reopened h.plain kind)),
    fun e he => ?_⟩
  obtain ⟨name, hname, hfree⟩ := hfresh e he
  have hdefined : name ∈ t.document.definitionNames kind := by
    refine TransferDocument.mem_definitionNames.2 ⟨e, ?_, hname⟩
    rw [document, hnew]
    exact List.mem_append_right _ he
  refine ⟨name, hname, h.mem_definitionNames_first hattributes hrules hdefined, ?_⟩
  rwa [← h.definitionNames_reopened]

/-- The names of what was left are loaded, and no others are. -/
theorem loaded_iff (h : Reran source target settings asked compiled s t origins origins')
    (hattributes : kind ≠ .attributes) (hrules : kind ≠ .rules) :
    t.document.provenanceOf? kind n = some .loaded ↔
      n ∈ s.trim.2.document.definitionNames kind := by
  obtain ⟨replaced, hworks⟩ := h.works
  obtain ⟨-, hprovenance⟩ := hworks.definitions hattributes hrules
  have hloaded : s.trim.2.reopened.document.provenanceOf? kind n = some .loaded ↔
      n ∈ s.trim.2.reopened.document.definitionNames kind := by
    have hfile := TransferDocument.asLoaded_ofMarkup s.trim.2.document.toMarkup kind n
    show (TransferDocument.ofMarkup s.trim.2.document.toMarkup).provenanceOf? kind n = _ ↔
      n ∈ (TransferDocument.ofMarkup s.trim.2.document.toMarkup).definitionNames kind
    rw [hfile]
    simp
  rw [← h.definitionNames_reopened, ← hloaded]
  constructor
  · exact loaded_of_edits hworks.changes.edits
  · exact fun hbefore => (hprovenance n (hloaded.1 hbefore)).trans hbefore

/-- The second run keeps generated names apart, too. -/
theorem wellNamed (h : Reran source target settings asked compiled s t origins origins') :
    t.document.WellNamed := by
  obtain ⟨replaced, hworks⟩ := h.works
  refine ⟨h.second.workspace.predictable.coherent.provenance, ?_⟩
  refine GeneratedOnce.edits (d := s.trim.2.reopened.document) ?_ hworks.changes.edits
  intro kind name hgenerated
  have hfile := TransferDocument.asLoaded_ofMarkup s.trim.2.document.toMarkup kind name
  rw [show (TransferDocument.ofMarkup s.trim.2.document.toMarkup).provenanceOf? kind name = _ from
    hgenerated] at hfile
  split at hfile
  · cases hfile
  · cases hfile

/-- A rule of the second run stands for one of the first run, if both stand for the same rule by
itself. -/
theorem rulesWithin (h : Reran source target settings asked compiled s t origins origins')
    (hsurvive : ∀ c ∈ origins', c ∈ origins) : s.document.RulesWithin t.document := by
  intro e he
  rw [TransferDocument.definitions_eq, List.mem_filter, List.mem_filterMap] at he
  obtain ⟨⟨node, hnode, helement⟩, -⟩ := he
  obtain ⟨c, hc, e₂, rfl, -, hsecond⟩ := exists_of_forall₂_of_mem h.second.rules hnode
  rw [Element.element?_toNode, Option.some.injEq] at helement
  subst helement
  obtain ⟨node, hnode, e₁, rfl, htag, hfirst⟩ :=
    exists_of_forall₂_of_mem h.first.rules.flip (hsurvive c hc)
  refine ⟨e₁, ?_, fun name hname => ?_, fun name hname => ?_⟩
  · rw [TransferDocument.definitions_eq, List.mem_filter, List.mem_filterMap]
    exact ⟨⟨_, hnode, Element.element?_toNode e₁⟩, beq_iff_eq.2 htag⟩
  · exact (hfirst ⟨.macros, name⟩ nofun).1 ((hsecond ⟨.macros, name⟩ nofun).2 hname)
  · exact (hfirst ⟨.vars, name⟩ nofun).1 ((hsecond ⟨.vars, name⟩ nofun).2 hname)

/-- **The second run only brings back what was trimmed.** -/
theorem growsBack (h : Reran source target settings asked compiled s t origins origins') :
    TransferDocument.GrowsBack s.document t.document where
  loaded kind hkind name := by
    rcases hkind with rfl | rfl
    · exact h.loaded_iff nofun nofun
    · exact h.loaded_iff nofun nofun
  definitions kind hkind := by
    rcases hkind with rfl | rfl
    · exact h.definitions nofun nofun
    · exact h.definitions nofun nofun

/-- Categories are not trimmed, so there are no others. -/
theorem categories (h : Reran source target settings asked compiled s t origins origins') :
    t.document.definitions .categories = s.document.definitions .categories := by
  have hkept : s.trim.2.document.definitions .categories = s.document.definitions .categories :=
    TransferDocument.definitions_trim_of_ne nofun nofun
  obtain ⟨new, hnew, hremoved⟩ : ∃ new, t.document.definitions .categories =
      s.trim.2.document.definitions .categories ++ new ∧ _ := h.definitions nofun nofun
  rw [hkept] at hnew
  cases new with
  | nil => exact hnew.trans (List.append_nil _)
  | cons e new =>
      obtain ⟨name, -, hdefined, hgone⟩ := hremoved e List.mem_cons_self
      rw [TransferDocument.definitionNames, hkept] at hgone
      exact absurd hdefined hgone

/-- **When attributes are found again.**  The second run leaves them as they are exactly if in the
end of the first run every feature that it has resolved has an attribute that lists its values. -/
theorem attributes_iff (h : Reran source target settings asked compiled s t origins origins') :
    t.document.definitions .attributes = s.document.definitions .attributes ↔
      s.workspace.ListsResolved source target := by
  have hloaded : s.trim.2.reopened.workspace.document.definitions .attributes =
      s.document.definitions .attributes :=
    (definitions_reopened h.plain .attributes).trans
      (TransferDocument.definitions_trim_of_ne nofun nofun)
  constructor
  · intro hsame entry hentry
    have hlists : t.workspace.ListsResolved source target := by
      rcases h.exceeds with ⟨-, hlists⟩ | hmore
      · exact hlists
      · rw [hloaded, ← hsame] at hmore
        exact absurd hmore (Nat.lt_irrefl _)
    have hnone : Asset.feature entry.1 ∉ (start source target settings).workspace.assets := by
      obtain ⟨d, -, hstart⟩ := workspace_start source target settings
      rw [hstart]
      nofun
    have hasset : Asset.feature entry.1 ∈ t.workspace.assets :=
      (h.second.workspace.assets _).2 (.inr (((h.first.workspace.assets _).1
        (Workspace.feature_mem_assets.2 (List.mem_map_of_mem hentry))).resolve_left hnone))
    obtain ⟨again, hagain, hkey⟩ := List.mem_map.1 (Workspace.feature_mem_assets.1 hasset)
    rw [← hkey]
    exact (hasValues_congr hsame).1 (hlists again hagain)
  · intro hlists
    refine (h.second.workspace.attributes fun c hc => ?_).trans hloaded
    have hlisted : c.IsListed source target s.workspace := by
      refine ⟨fun key hkey => ?_, h.covered c hc⟩
      obtain ⟨entry, hentry, rfl⟩ := List.mem_map.1 (Workspace.feature_mem_assets.1
        ((h.first.workspace.assets (.feature key)).2 (.inr ⟨c, hc, hkey⟩)))
      exact hlists entry hentry
    exact hlisted.congr hloaded

/-- **After a trim the second run defines what the first one has defined**, and what it defines
beside that was trimmed by the first one.  If it has no other rules, there is nothing beside. -/
theorem definitions_trim (h : Reran source target settings asked compiled s t origins origins') :
    t.trim.2.document.definitions .categories = s.trim.2.document.definitions .categories ∧
      (t.trim.2.document.definitions .attributes = s.trim.2.document.definitions .attributes ↔
        s.trim.2.workspace.ListsResolved source target) ∧
      ∀ kind, kind = .macros ∨ kind = .vars →
        (∃ back, t.trim.2.document.definitions kind = s.trim.2.document.definitions kind ++ back ∧
          ∀ e ∈ back, ∃ name, definitionName? kind e = some name ∧
            name ∈ s.document.definitionNames kind) ∧
        ((∀ c ∈ origins', c ∈ origins) →
          t.trim.2.document.definitions kind = s.trim.2.document.definitions kind) := by
  have hkept : ∀ (u : Session) kind, kind ≠ .macros → kind ≠ .vars →
      u.trim.2.document.definitions kind = u.document.definitions kind :=
    fun u kind hmacros hvars => TransferDocument.definitions_trim_of_ne hmacros hvars
  refine ⟨?_, ?_, fun kind hkind => ⟨?_, fun hsurvive => ?_⟩⟩
  · rw [hkept t .categories nofun nofun, hkept s .categories nofun nofun]
    exact h.categories
  · rw [hkept t .attributes nofun nofun, hkept s .attributes nofun nofun, listsResolved_trim]
    exact h.attributes_iff
  · obtain ⟨back, hback, hremoved⟩ := h.growsBack.exists_definitions_trim h.wellNamed hkind
    refine ⟨back, hback, fun e he => ?_⟩
    obtain ⟨name, hname, hbefore, -⟩ := hremoved e he
    exact ⟨name, hname, hbefore⟩
  · exact h.growsBack.definitions_trim (h.rulesWithin hsurvive) h.named h.wellNamed hkind

/-- **Two runs** of the same specifications, if what they ask for is found again by its name. -/
theorem of_documents (source target : Lexicon) (settings : GeneratorSettings)
    (documents : List (Specification × String))
    (hreusable : Reusable target (askedBy source target settings (processing documents)).macros) :
    let s := (start source target settings).applyAll (processing documents)
    let origins := Session.origins source target settings (processing documents)
    Reran source target settings (askedBy source target settings (processing documents)).macros
      ((processing documents).flatMap (Operation.compilations settings)) s
      (s.trim.2.reopened.applyAll (processing documents)) origins
      (s.trim.2.reopened.originsFrom origins (processing documents)) := by
  intro s origins
  have hcompiled : (processing documents).flatMap (Operation.compilations settings) =
      documents.flatMap fun d => d.1.compilations settings := List.flatMap_map ..
  have hasked : ∀ d ∈ documents, ∀ c ∈ d.1.compilations settings,
      ∀ demand ∈ c.demands source target,
        demand ∈ (askedBy source target settings (processing documents)).macros := by
    intro d hd
    have hop : Operation.process d.1 d.2 ∈ processing documents := List.mem_map.2 ⟨d, hd, rfl⟩
    exact (asksWithin_askedBy hop).macros
  have hfirst := (accounted_start source target settings _).processAll hreusable hasked
  have hplain : s.trim.2.document.Plain := by
    have h := plain_of_start source target settings (generation documents)
    rwa [generation, applyAll_append] at h
  have hloaded : Accounted source target settings _ s.trim.2.reopened.workspace [] s.trim.2.reopened
      origins := hfirst.reopened hplain
  have hsecond := hloaded.processAll hreusable hasked
  have hcoherent := hloaded.workspace.predictable.coherent
  have hkept : KeptByRequests s.trim.2.reopened.source s.trim.2.reopened.target
      (Workspace.Exceeds source target s.trim.2.reopened.workspace) := by
    rw [hloaded.source_eq, hloaded.target_eq]
    exact Workspace.keptByRequests_exceeds _ _ _
  rw [List.nil_append, ← hcompiled] at hfirst hsecond
  refine ⟨hfirst, hsecond, hplain, ?_, works_processing hcoherent documents, fun c hc hneeds => ?_,
    hkept.applyAll hcoherent (.inl ⟨rfl, nofun⟩) _⟩
  · show ((start source target settings).applyAll (processing documents)).document.WellNamed
    rw [applyAll_eq_run]
    exact wellNamed_run source target settings _
  · exact covers_applyAll (coherent_run source target settings []) hc hneeds

end Reran

/-- If no rule of the first run was replaced, no other rules stand after the second one. -/
theorem survive_of_kept {source target : Lexicon} {settings : GeneratorSettings}
    {documents : List (Specification × String)}
    (hkept : ∀ c ∈ (processing documents).flatMap (Operation.compilations settings),
      c ∈ Session.origins source target settings (processing documents)) :
    let first := (start source target settings).applyAll (generation documents)
    let origins := Session.origins source target settings (generation documents)
    ∀ c ∈ first.reopened.originsFrom origins (generation documents), c ∈ origins := by
  intro first origins c hc
  have hbefore : origins = Session.origins source target settings (processing documents) :=
    originsFrom_generation _ _ _
  rw [originsFrom_generation] at hc
  rcases mem_originsFrom hc with hold | hnew
  · exact hold
  · have hsettings : first.settings = settings :=
      (sameSetup_applyAll (start source target settings) _).settings
    rw [hbefore]
    exact hkept c (hsettings ▸ hnew)

/-- **A second run defines what the first one has defined.**  Some specifications are processed by a
new session, which is trimmed and written.  A new session with the same lexicons loads the file,
processes the specifications again, and is trimmed.  Every macro that is asked for shall be found
again by its name.  Then the macros and variables of the file are there, and any other has a name
that was defined before the first trim; so there are no numbered copies.  There are no others if the
rules that stand in the end come from rules that stood before.  Categories are the same, and
attributes are so exactly if in the end of the first run every feature that it has resolved has one
that lists just its values. -/
theorem definitions_rerun (source target : Lexicon) (settings : GeneratorSettings)
    (documents : List (Specification × String))
    (hreusable : Reusable target (askedBy source target settings (generation documents)).macros) :
    let processed := (start source target settings).applyAll (processing documents)
    let first := (start source target settings).applyAll (generation documents)
    let second := first.reopened.applyAll (generation documents)
    let origins := Session.origins source target settings (generation documents)
    let origins' := first.reopened.originsFrom origins (generation documents)
    (start source target settings).loadText first.write = .ok first.reopened ∧
      second.document.definitions .categories = first.document.definitions .categories ∧
      (second.document.definitions .attributes = first.document.definitions .attributes ↔
        first.workspace.ListsResolved source target) ∧
      ∀ kind, kind = .macros ∨ kind = .vars →
        (∃ back, second.document.definitions kind = first.document.definitions kind ++ back ∧
          ∀ e ∈ back, ∃ name, definitionName? kind e = some name ∧
            name ∈ processed.document.definitionNames kind) ∧
        ((∀ c ∈ origins', c ∈ origins) →
          second.document.definitions kind = first.document.definitions kind) := by
  have hasked : (askedBy source target settings (generation documents)).macros =
      (askedBy source target settings (processing documents)).macros := by
    simp only [askedBy, generation, List.flatMap_append, List.flatMap_singleton,
      Operation.compilations, List.append_nil]
  intro processed first second origins origins'
  have hfirst : first = processed.trim.2 := applyAll_generation _ _
  have hsecond : second = (processed.trim.2.reopened.applyAll (processing documents)).trim.2 := by
    rw [← hfirst]
    exact applyAll_generation _ _
  refine ⟨?_, ?_⟩
  · have hsetup : SameSetup (start source target settings) first := sameSetup_applyAll _ _
    rw [reopened, hsetup.source, hsetup.target, hsetup.settings]
    exact (loadText_write source target settings (generation documents) _).1
  · have hbefore : origins = Session.origins source target settings (processing documents) :=
      originsFrom_generation _ _ _
    have hafter : origins' = processed.trim.2.reopened.originsFrom
        (Session.origins source target settings (processing documents)) (processing documents) := by
      rw [← hfirst, ← hbefore]
      exact originsFrom_generation _ _ _
    rw [hsecond, hfirst, hbefore, hafter]
    have h := Reran.of_documents source target settings documents (hasked ▸ hreusable)
    exact h.definitions_trim

/-! ## Two sets with one pairing -/

/-- A specification with a disjoint set that gives the class in the singular only, and with a rule
for a noun alone whose suffix agrees with the noun in this set. -/
def suffixed (set name : String) : Specification × String :=
  ({  overwriteRules := true
      disjointSets := [⟨"number", set, [⟨"sg", "sgclass"⟩]⟩]
      rules := [{
        rule := {
          name
          source := [⟨"1", some "n", []⟩]
          target := [{
            id := "1"
            isHead := true
            features := [{ label := set, binding := .agreement "c" }]
            affixes := [⟨.after, [{ label := "agr", binding := .agreement "c" }]⟩] }] } }] },
    "spec")

/-- Two rules with the same disjoint set. -/
def oneSet : List (Specification × String) := [suffixed "class" "a", suffixed "class" "b"]

/-- Two rules with disjoint sets that differ in their names. -/
def twoSets : List (Specification × String) := [suffixed "class" "a", suffixed "kind" "b"]

/-- With one set, a second run defines the same. -/
theorem definitions_rerun_oneSet :
    Reusable classedNouns (askedBy numberedNouns classedNouns {} (generation oneSet)).macros ∧
      let first := (start numberedNouns classedNouns {}).applyAll (generation oneSet)
      let second := first.reopened.applyAll (generation oneSet)
      ∀ kind ∈ [SectionKind.categories, .attributes, .vars, .macros],
        second.document.definitions kind = first.document.definitions kind := by
  have hreusable : Reusable classedNouns
      (askedBy numberedNouns classedNouns {} (generation oneSet)).macros := by decide +kernel
  have hkept : ∀ c ∈ (processing oneSet).flatMap (Operation.compilations {}),
      c ∈ Session.origins numberedNouns classedNouns {} (processing oneSet) := by decide +kernel
  have hlists : ((start numberedNouns classedNouns {}).applyAll
      (generation oneSet)).workspace.ListsResolved numberedNouns classedNouns := by
    rw [applyAll_generation, listsResolved_trim]
    decide +kernel
  obtain ⟨-, hcategories, hattributes, hothers⟩ :=
    definitions_rerun numberedNouns classedNouns {} oneSet hreusable
  refine ⟨hreusable, ?_⟩
  intro first second
  simp only [List.forall_mem_cons, List.not_mem_nil, false_implies, implies_true, and_true]
  exact ⟨hcategories, hattributes.2 hlists, (hothers .vars (.inr rfl)).2 (survive_of_kept hkept),
    (hothers .macros (.inl rfl)).2 (survive_of_kept hkept)⟩

/-- **With two sets there is a numbered copy.**  Only the macro of one set is held.  A second run
takes over the macro of the first set by its name.  When it asks for that of the other set, it gets
a name that is free, although the file has the macro under the right one. -/
theorem definitionNames_rerun_twoSets :
    let first := (start numberedNouns classedNouns {}).applyAll (generation twoSets)
    let second := first.reopened.applyAll (generation twoSets)
    first.document.definitionNames .macros = ["m_class_from_lemma", "m_kind_from_lemma"] ∧
      second.document.definitionNames .macros =
        ["m_class_from_lemma", "m_kind_from_lemma", "m_kind_from_lemma1"] := by
  have hfirst : (start numberedNouns classedNouns {}).applyAll (generation twoSets) =
      (start numberedNouns classedNouns {}).applyAll (processing twoSets) := by
    rw [applyAll_generation, trim_of_unused]
    unfold TransferDocument.unused TransferDocument.usedVariables
    rw [TransferDocument.usedMacros_of_uncalled (by decide +kernel)]
    decide +kernel
  have hsecond : ((start numberedNouns classedNouns {}).applyAll (processing
      twoSets)).reopened.applyAll (generation twoSets) =
        ((start numberedNouns classedNouns {}).applyAll
          (processing twoSets)).reopened.applyAll (processing twoSets) := by
    rw [applyAll_generation, trim_of_unused]
    unfold TransferDocument.unused TransferDocument.usedVariables
    rw [TransferDocument.usedMacros_of_uncalled (by decide +kernel)]
    decide +kernel
  intro first second
  have hnames : first.document.definitionNames .macros =
      ["m_class_from_lemma", "m_kind_from_lemma"] := by
    show ((start numberedNouns classedNouns {}).applyAll (generation
      twoSets)).document.definitionNames .macros = _
    rw [hfirst]
    decide +kernel
  refine ⟨hnames, ?_⟩
  show (((start numberedNouns classedNouns {}).applyAll
    (generation twoSets)).reopened.applyAll (generation twoSets)).document.definitionNames
      .macros = _
  rw [hfirst, hsecond]
  decide +kernel

end Session

end TransferRules

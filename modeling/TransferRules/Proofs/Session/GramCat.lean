import TransferRules.Proofs.Compile.GramCat
import TransferRules.Proofs.Session.Requests
import TransferRules.Proofs.Session.Reuse

/-!
# The category attribute of a session

A rule whose output takes the category from some word relies on the category attribute for as long
as it stands, whatever is done afterwards.  From one load to the next this attribute is only ever
enlarged by what the rules ask for, so it goes on listing the categories of every rule that was
compiled, behind the items that came from the file.

## Main Definitions

* `Session.sinceLoad` — the session right after the last load, and what was done since
* `Operation.categories` — the categories for which an operation asks

## Main Statements

* `Session.enlarges_apply` — **step lemma**: an operation asks for the categories of its rules
* `Session.enlarges_applyAll` — **run lemma**
* `Session.gramCat_of_run` — the category attribute covers every rule that reads it
-/

namespace TransferRules

open TransferRules.Compile
open TransferRules.Markup
open TransferRules.Ordered
open TransferRules.Transfer

/-! ## Compiling some rules -/

namespace Workspace

variable {w : Workspace} {ctx : Lexicons}

theorem Coherent.enlarges_addRule (hw : w.Coherent) (rule : Rule) (r : Resolution) :
    w.Enlarges (categoriesFor ctx rule) (w.addRule ctx rule r).2 := by
  have he : ({ workspace := w, report := .empty } : Emission).workspace.Coherent := hw
  refine (compile_enlarges he rule r).trans_quiet (.of_definitions ?_)
  exact (TransferDocument.definitions_addDefinition rfl).trans (if_neg nofun)

theorem Coherent.enlarges_addRules (hw : w.Coherent) (rules : List (Rule × Resolution)) :
    w.Enlarges (rules.flatMap fun c => categoriesFor ctx c.1) (w.addRules ctx rules).2 := by
  induction rules generalizing w with
  | nil => exact .refl w
  | cons first rules ih =>
      rw [List.flatMap_cons]
      exact (hw.enlarges_addRule first.1 first.2).trans (ih (hw.addRule first.1 first.2).1)

/-- Rules whose output reads the category asked for their categories. -/
theorem Coherent.addRules_asked (hw : w.Coherent) (rules : List (Rule × Resolution)) :
    List.Forall₂ (fun c e => OutputReads e gramCatName →
      ruleCategories ctx c.1 ∈ categoriesFor ctx c.1) rules (w.addRules ctx rules).1 := by
  induction rules generalizing w with
  | nil => exact .nil
  | cons first rules ih =>
      have hsettled : Settled ctx { workspace := w, report := .empty } := ⟨hw, nofun⟩
      exact .cons (fun hreads => outputReads_gramCat hsettled hreads)
        (ih (hw.addRule first.1 first.2).1)

end Workspace

/-- The categories for which an operation asks. -/
def Operation.categories (source target : Lexicon) (settings : GeneratorSettings)
    (op : Operation) : List StringSet :=
  (op.compilations settings).flatMap fun c => categoriesFor (c.lexicons source target) c.rule

/-- What one of the rules asks for is asked for. -/
theorem Operation.mem_categories {source target : Lexicon} {settings : GeneratorSettings}
    {x : Specification} {document : String} {c : Rule × Resolution}
    (hc : c ∈ (x.expansions settings).filterMap Rule.resolved?) {categories : StringSet}
    (h : categories ∈ categoriesFor ⟨source, target, x.disjointSet?⟩ c.1) :
    categories ∈ (process x document).categories source target settings :=
  List.mem_flatMap.2 ⟨⟨x.disjointSet?, c.1, c.2⟩, List.mem_map.2 ⟨c, hc, rfl⟩, h⟩

namespace Session

variable {s : Session}

/-! ## Operations -/

theorem enlarges_cleared (s : Session) (x : Specification) :
    s.workspace.Enlarges [] (s.cleared x) := by
  unfold cleared
  split
  · exact .of_definitions (Workspace.definitions_discard nofun)
  · exact .refl _

/-- **Step lemma.**  An operation asks for the categories of the rules that it compiles, and for no
others. -/
theorem enlarges_apply (hs : s.workspace.Coherent) (op : Operation) :
    s.workspace.Enlarges (op.categories s.source s.target s.settings) (s.apply op).workspace := by
  cases op with
  | process x document =>
      obtain ⟨entries, hprocess, -⟩ := s.process_eq x document
      have hrules := @Workspace.Coherent.enlarges_addRules _ (s.lexicons x.disjointSet?)
        (coherent_cleared hs x) ((x.expansions s.settings).filterMap Rule.resolved?)
      simp only [apply, hprocess]
      have hcategories : (Operation.process x document).categories s.source s.target s.settings =
          ((x.expansions s.settings).filterMap Rule.resolved?).flatMap fun c =>
            categoriesFor (s.lexicons x.disjointSet?) c.1 := by
        unfold Operation.categories Operation.compilations Specification.compilations
        rw [List.flatMap_map]
        rfl
      rw [hcategories]
      exact (s.enlarges_cleared x).quiet_trans hrules
  | trim =>
      exact .of_definitions (TransferDocument.definitions_trim_of_ne (by decide) (by decide))
  | ensureAttribute q =>
      show s.workspace.Enlarges [] (s.ensureAttribute q).2.workspace
      unfold ensureAttribute
      cases h : s.workspace.ensureAttribute (s.lexiconOf q.key) q with
      | ok result => exact hs.enlarges_ensureAttribute h
      | error issue => exact .refl _
  | addAttribute base values => exact hs.enlarges_addAttribute base values
  | addVariable name comment? => exact Workspace.enlarges_ensureVariable _ comment?
  | availableName kind base => exact .refl _

/-- **Run lemma.**  What some operations ask for is what each of them asks for. -/
theorem enlarges_applyAll (hs : s.workspace.Coherent) (ops : List Operation) :
    s.workspace.Enlarges (ops.flatMap (Operation.categories s.source s.target s.settings))
      (s.applyAll ops).workspace := by
  induction ops generalizing s with
  | nil => exact .refl _
  | cons op ops ih =>
      have hsetup := s.sameSetup_apply op
      have hrest := ih (hs.changes (apply_changes hs op))
      rw [hsetup.source, hsetup.target, hsetup.settings] at hrest
      rw [List.flatMap_cons]
      exact (enlarges_apply hs op).trans hrest

/-! ## Since the last load -/

/-- The session right after the last load that succeeded, and the operations since. -/
def sinceLoad (s : Session) (events : List Event) : Session × List Operation :=
  events.foldl (fun (loaded, ops) event =>
    match event with
    | .operation op => (loaded, ops ++ [op])
    | .load text =>
      match (loaded.applyAll ops).loadText text with
      | .ok new => (new, [])
      | .error _ => (loaded, ops)) (s, [])

theorem sinceLoad_append (s : Session) (events : List Event) (event : Event) :
    s.sinceLoad (events ++ [event]) =
      match event with
      | .operation op => ((s.sinceLoad events).1, (s.sinceLoad events).2 ++ [op])
      | .load text =>
        match ((s.sinceLoad events).1.applyAll (s.sinceLoad events).2).loadText text with
        | .ok new => (new, [])
        | .error _ => s.sinceLoad events := by
  unfold sinceLoad
  rw [List.foldl_append]
  rfl

/-- The operations since the last load lead from there to where the session is. -/
theorem run_eq_sinceLoad (s : Session) (events : List Event) :
    s.run events = (s.sinceLoad events).1.applyAll (s.sinceLoad events).2 := by
  induction events using List.reverseRecOn with
  | nil => rfl
  | append_singleton events event ih =>
      rw [run_append, ih, sinceLoad_append]
      cases event with
      | operation op =>
          dsimp only
          rw [applyAll_append]
          rfl
      | load text =>
          simp only [handle]
          cases ((s.sinceLoad events).1.applyAll (s.sinceLoad events).2).loadText text with
          | ok new => rfl
          | error error => rfl

/-- A session starts over with every load that succeeds, with the lexicons and settings that it
has. -/
structure JustLoaded (s : Session) (source target : Lexicon) (settings : GeneratorSettings) :
    Prop where
  source : s.source = source
  target : s.target = target
  settings : s.settings = settings
  document : ∃ d : TransferDocument, d.AsLoaded ∧ s.workspace = .ofDocument d

theorem JustLoaded.coherent {source target : Lexicon} {settings : GeneratorSettings}
    (h : s.JustLoaded source target settings) : s.workspace.Coherent := by
  obtain ⟨d, hd, hworkspace⟩ := h.document
  rw [hworkspace]
  exact .ofDocument hd

theorem justLoaded_sinceLoad (source target : Lexicon) (settings : GeneratorSettings)
    (events : List Event) :
    ((start source target settings).sinceLoad events).1.JustLoaded source target settings := by
  induction events using List.reverseRecOn with
  | nil => exact ⟨rfl, rfl, rfl, workspace_start source target settings⟩
  | append_singleton events event ih =>
      rw [sinceLoad_append]
      cases event with
      | operation op => exact ih
      | load text =>
          dsimp only
          generalize (start source target settings).sinceLoad events = before at ih ⊢
          obtain ⟨hsource, htarget, hsettings⟩ := before.1.sameSetup_applyAll before.2
          cases h : (before.1.applyAll before.2).loadText text with
          | ok new =>
              obtain ⟨d, hd, rfl⟩ := loadText_eq_ok h
              exact ⟨hsource.trans ih.source, htarget.trans ih.target,
                hsettings.trans ih.settings, d, hd, rfl⟩
          | error error => exact ih

/-! ## Rules that read the category -/

/-- **The category attribute covers every rule that reads it.**  Of the rules that were compiled
since the last load, every one whose output takes the category from some word finds the attribute,
and it lists every category of both languages and every one that the rule names for its words.  What
came from the file stays in front as it is, and so do other definitions of the name; and a tag is
only listed twice if it was listed as often in the file. -/
theorem gramCat_of_run (source target : Lexicon) (settings : GeneratorSettings)
    (events : List Event) :
    let loaded := ((start source target settings).sinceLoad events).1
    let ops := ((start source target settings).sinceLoad events).2
    let s := (start source target settings).run events
    (∀ before x document after, ops = before ++ .process x document :: after →
      let t := loaded.applyAll before
      ∃ added : List Element,
        (t.process x document).2.document.childrenOf .rules =
          (t.cleared x).document.childrenOf .rules ++ added.map Element.toNode ∧
        List.Forall₂ (fun c e => OutputReads e gramCatName →
            ∃ g, s.document.definition? .attributes gramCatName = some g ∧
              ∀ category, (category ∈ source.categoryNames ∨ category ∈ target.categoryNames ∨
                  (∃ w ∈ c.1.source, w.category = some category) ∨
                  ∃ w ∈ c.1.target, w.category = some category) →
                category ∈ attributeItems g)
          ((x.expansions t.settings).filterMap Rule.resolved?) added) ∧
    (∀ g others, loaded.document.definitionsNamed .attributes gramCatName = g :: others →
      ∃ tags : List String, s.document.definitionsNamed .attributes gramCatName =
        g.pushAll (tags.map attributeItem) :: others) ∧
    ∀ g, s.document.definition? .attributes gramCatName = some g → ∀ tag,
      (attributeItems g).count tag ≤ 1 ∨
        ∃ first, loaded.document.definition? .attributes gramCatName = some first ∧
          (attributeItems g).count tag = (attributeItems first).count tag := by
  intro loaded ops s
  have hloaded : loaded.JustLoaded source target settings :=
    justLoaded_sinceLoad source target settings events
  have hrun : s = loaded.applyAll ops := (start source target settings).run_eq_sinceLoad events
  have hall : loaded.workspace.Enlarges
      (ops.flatMap (Operation.categories source target settings)) s.workspace := by
    have h := enlarges_applyAll hloaded.coherent ops
    rwa [hloaded.source, hloaded.target, hloaded.settings, ← hrun] at h
  refine ⟨fun before x document after hops => ?_, fun g others hg => ?_, fun g hg tag => ?_⟩
  · obtain ⟨hsource, htarget, hsettings⟩ := loaded.sameSetup_applyAll before
    have ht : (loaded.applyAll before).workspace.Coherent :=
      hloaded.coherent.changes (applyAll_changes hloaded.coherent before)
    rw [hloaded.source] at hsource
    rw [hloaded.target] at htarget
    rw [hloaded.settings] at hsettings
    generalize loaded.applyAll before = t at ht hsource htarget hsettings ⊢
    have hlexicons : t.lexicons x.disjointSet? = ⟨source, target, x.disjointSet?⟩ := by
      rw [lexicons, hsource, htarget]
    have hcleared := coherent_cleared ht x
    have hasked := @Workspace.Coherent.addRules_asked _ (t.lexicons x.disjointSet?) hcleared
      ((x.expansions t.settings).filterMap Rule.resolved?)
    obtain ⟨entries, hprocess, -⟩ := t.process_eq x document
    refine ⟨((t.cleared x).addRules (t.lexicons x.disjointSet?)
      ((x.expansions t.settings).filterMap Rule.resolved?)).1, ?_, ?_⟩
    · rw [hprocess]
      exact hcleared.addRules _
    refine List.forall₂_iff_zip.2 ⟨hasked.length_eq, fun {c e} hmem hreads => ?_⟩
    have hrule := (List.forall₂_iff_zip.1 hasked).2 hmem hreads
    have hc := (List.of_mem_zip hmem).1
    rw [hlexicons] at hrule
    rw [hsettings] at hc
    have hop : Operation.process x document ∈ ops := by
      rw [hops]
      exact List.mem_append_right _ List.mem_cons_self
    obtain ⟨g, hg, hlists⟩ :=
      Enlarged.covers hall (List.mem_flatMap.2 ⟨_, hop, Operation.mem_categories hc hrule⟩)
    refine ⟨g, TransferDocument.definition?_eq_head?.trans hg, fun category hcategory =>
      hlists category (StringSet.mem_ofList.2 ?_)⟩
    simp only [List.mem_append, List.mem_filterMap, or_assoc]
    exact hcategory
  · have hextended : Enlarged _ _ _ := hall
    rw [show loaded.workspace.document.definitionsNamed .attributes gramCatName = g :: others
      from hg] at hextended
    generalize hafter : s.workspace.document.definitionsNamed .attributes gramCatName = after
      at hextended
    cases hextended with
    | extended _ _ _ _ => exact ⟨_, hafter⟩
  · rw [TransferDocument.definition?_eq_head?] at hg ⊢
    exact Enlarged.count_le hall hg tag

end Session

end TransferRules

import TransferRules.Proofs.Compile.Footprint
import TransferRules.Proofs.Session.GramCat

/-!
# What a session holds in the end

Where requests are predictable, a session holds what it held when it began, and what each of the
rules that were compiled needs by itself.  It does not matter in which order they were compiled, or
how often.  And every rule that is there refers to the names to which the rule would refer that it
was compiled from, if it were compiled alone.

## Main Definitions

* `Compilation.alone` — a rule that is compiled where there is nothing
* `Compilation.StandsAt` — a node refers to the same names as the rule by itself
* `Workspace.Accounts`, `Session.Accounted` — a workspace and a session hold what they have to
* `Session.processing` — the operations that process some specifications

## Main Statements

* `Workspace.Accounts.addRule`, `Session.Accounted.process` — **step lemmas**
* `Session.Accounted.processAll` — **run lemma**
-/

namespace TransferRules

open TransferRules.Compile
open TransferRules.Markup
open TransferRules.Ordered
open TransferRules.Transfer

/-! ## Rules by themselves -/

namespace Compilation

/-- The rule, compiled where there is nothing: its element, and all that it needs. -/
def alone (c : Compilation) (source target : Lexicon) : Element × Workspace :=
  (Workspace.ofDocument .blank).addRule (c.lexicons source target) c.rule c.resolution

/-- A node is a rule that refers to the same names as this rule by itself, attributes aside. -/
def StandsAt (c : Compilation) (source target : Lexicon) (node : Node) : Prop :=
  ∃ e, node = e.toNode ∧ e.name = SectionKind.rules.definitionTag ∧
    SameNames (references (c.alone source target).1) (references e)

/-- The attributes of a workspace are all that the rule needs. -/
structure IsListed (c : Compilation) (source target : Lexicon) (w : Workspace) : Prop where
  features : Listed (c.lexicons source target) w.document (c.alone source target).2
  categories : needsGramCat c.rule = true →
    w.Covers (ruleCategories (c.lexicons source target) c.rule)

/-- Nothing but the attributes matters. -/
theorem IsListed.congr {c : Compilation} {source target : Lexicon} {w w' : Workspace}
    (h : c.IsListed source target w)
    (heq : w'.document.definitions .attributes = w.document.definitions .attributes) :
    c.IsListed source target w' where
  features key hkey := (hasValues_congr heq).2 (h.features key hkey)
  categories hneeds := (covers_congr heq).2 (h.categories hneeds)

end Compilation

/-! ## Workspaces -/

namespace Workspace

variable {source target : Lexicon} {asked : List MacroDemand} {base w w' : Workspace}
  {compiled : List Compilation}

/-- Rules and names do not count as assets, so whatever is done with them makes no difference. -/
theorem assets_of_rules (hdefinitions : ∀ kind, kind ≠ .rules →
      w'.document.definitions kind = w.document.definitions kind)
    (hattributes : w'.attributes = w.attributes) : w'.assets = w.assets := by
  refine assets_congr (fun kind _ hrules => ?_) (congrArg _ hattributes)
  rw [TransferDocument.definitionNames, hdefinitions kind hrules]
  rfl

theorem Predictable.of_rules (hw : w.Predictable source target asked) (hcoherent : w'.Coherent)
    (hdefinitions : ∀ kind, kind ≠ .rules →
      w'.document.definitions kind = w.document.definitions kind)
    (hattributes : w'.attributes = w.attributes) (hmacros : w'.macros = w.macros) :
    w'.Predictable source target asked :=
  hw.of_macros hcoherent (hw.known.of_resolved_eq (congrArg _ hattributes))
    (hdefinitions .macros nofun) hmacros (assets_of_rules hdefinitions hattributes).ge

/-- A workspace holds what another one holds, and what some rules need by themselves.  No attribute
is added if the attributes are all that the rules need. -/
structure Accounts (source target : Lexicon) (asked : List MacroDemand) (base : Workspace)
    (compiled : List Compilation) (w : Workspace) : Prop where
  predictable : w.Predictable source target asked
  assets : ∀ asset, asset ∈ w.assets ↔
    asset ∈ base.assets ∨ ∃ c ∈ compiled, asset ∈ (c.alone source target).2.assets
  attributes : (∀ c ∈ compiled, c.IsListed source target base) →
    w.document.definitions .attributes = base.document.definitions .attributes

namespace Accounts

theorem refl (hw : w.Predictable source target asked) : Accounts source target asked w [] w where
  predictable := hw
  assets asset := by simp
  attributes _ := rfl

theorem of_rules (h : Accounts source target asked base compiled w) (hcoherent : w'.Coherent)
    (hdefinitions : ∀ kind, kind ≠ .rules →
      w'.document.definitions kind = w.document.definitions kind)
    (hattributes : w'.attributes = w.attributes) (hmacros : w'.macros = w.macros) :
    Accounts source target asked base compiled w' where
  predictable := h.predictable.of_rules hcoherent hdefinitions hattributes hmacros
  assets asset := by
    rw [assets_of_rules hdefinitions hattributes]
    exact h.assets asset
  attributes hlisted := (hdefinitions .attributes nofun).trans (h.attributes hlisted)

/-- **Step lemma.**  A rule that is compiled and added refers to the same names as by itself, and
adds what it needs by itself. -/
theorem addRule (hr : Reusable target asked) (h : Accounts source target asked base compiled w)
    {c : Compilation} (hasked : ∀ d ∈ c.demands source target, d ∈ asked) :
    Accounts source target asked base (compiled ++ [c])
        (w.addRule (c.lexicons source target) c.rule c.resolution).2 ∧
      c.StandsAt source target
        (w.addRule (c.lexicons source target) c.rule c.resolution).1.toNode := by
  obtain ⟨hnames, hpredictable, hassets, hattributes⟩ :=
    compile_parallel (show Reusable (c.lexicons source target).target asked from hr) c.rule
      (fun call hcall => hasked _ (List.mem_map_of_mem hcall)) (.start h.predictable)
  -- The rule itself is none of the assets.
  have hrule : ∀ w : Workspace, ∀ kind, kind ≠ .rules →
      (w.addRule (c.lexicons source target) c.rule c.resolution).2.document.definitions kind =
        (compile (c.lexicons source target) c.rule c.resolution
          { workspace := w, report := .empty }).2.workspace.document.definitions kind :=
    fun w kind hkind => (TransferDocument.definitions_addDefinition rfl).trans (if_neg hkind)
  have hafter : Accounts source target asked w [c]
      (w.addRule (c.lexicons source target) c.rule c.resolution).2 := by
    refine ⟨hpredictable.of_rules (h.predictable.coherent.addRule _ _).1 (hrule w) rfl rfl,
      fun asset => ?_, fun hlisted => ?_⟩
    · simp only [List.mem_singleton, exists_eq_left]
      rw [assets_of_rules (hrule w) rfl, hassets, Set.mem_union, Compilation.alone,
        assets_of_rules (hrule _) rfl]
    · have hc := hlisted c (List.mem_singleton_self c)
      refine (hrule w .attributes nofun).trans (hattributes (fun key hkey => ?_) hc.categories)
      refine hc.features key ?_
      rwa [Compilation.alone, assets_of_rules (hrule _) rfl]
  refine ⟨⟨hafter.predictable, fun asset => ?_, fun hlisted => ?_⟩, _, rfl, rfl, ?_⟩
  · rw [hafter.assets, h.assets, or_assoc]
    simp only [List.mem_append, List.mem_singleton, or_and_right, exists_or, exists_eq_left]
  · have hbefore := h.attributes fun c' hc' => hlisted c' (List.mem_append_left _ hc')
    refine (hafter.attributes fun c' hc' => ?_).trans hbefore
    exact (hlisted c' (List.mem_append_right _ hc')).congr hbefore
  · have hreferences : ∀ w : Workspace,
        references (w.addRule (c.lexicons source target) c.rule c.resolution).1 =
          (compile (c.lexicons source target) c.rule c.resolution
            { workspace := w, report := .empty }).1.references :=
      fun w => references_compiledRule _ _
    rw [Compilation.alone, hreferences, hreferences]
    exact hnames

/-- **Run lemma.**  And so for some rules that are compiled one after another. -/
theorem addRules (hr : Reusable target asked) {ctx : Lexicons} {more : List Compilation}
    (h : Accounts source target asked base compiled w)
    (hc : ∀ c ∈ more, c.lexicons source target = ctx)
    (hasked : ∀ c ∈ more, ∀ d ∈ c.demands source target, d ∈ asked) :
    Accounts source target asked base (compiled ++ more)
        (w.addRules ctx (more.map fun c => (c.rule, c.resolution))).2 ∧
      List.Forall₂ (fun c node => c.StandsAt source target node) more
        ((w.addRules ctx (more.map fun c => (c.rule, c.resolution))).1.map Element.toNode) := by
  induction more generalizing w compiled with
  | nil => exact ⟨(List.append_nil compiled).symm ▸ h, .nil⟩
  | cons c more ih =>
      obtain rfl := hc c List.mem_cons_self
      obtain ⟨hfirst, hstands⟩ := h.addRule hr (hasked c List.mem_cons_self)
      obtain ⟨hrest, hothers⟩ := ih hfirst (fun c' hc' => hc c' (List.mem_cons_of_mem _ hc'))
        fun c' hc' => hasked c' (List.mem_cons_of_mem _ hc')
      rw [List.append_assoc] at hrest
      exact ⟨hrest, .cons hstands hothers⟩

end Accounts

end Workspace

/-! ## Sessions -/

namespace Session

variable {source target : Lexicon} {settings : GeneratorSettings} {asked : List MacroDemand}
  {base : Workspace} {compiled origins : List Compilation} {s : Session}

/-- A session holds what it held when it began, and what the rules that were compiled since need;
its rules have the given origins. -/
structure Accounted (source target : Lexicon) (settings : GeneratorSettings)
    (asked : List MacroDemand) (base : Workspace) (compiled : List Compilation) (s : Session)
    (origins : List Compilation) : Prop where
  source_eq : s.source = source
  target_eq : s.target = target
  settings_eq : s.settings = settings
  workspace : Workspace.Accounts source target asked base compiled s.workspace
  rules : List.Forall₂ (fun c node => c.StandsAt source target node) origins
    (s.document.childrenOf .rules)

/-- **Step lemma.**  Processing a specification adds what its rules need. -/
theorem Accounted.process (hr : Reusable target asked)
    (hs : Accounted source target settings asked base compiled s origins) {x : Specification}
    {document : String}
    (hasked : ∀ c ∈ x.compilations settings, ∀ d ∈ c.demands source target, d ∈ asked) :
    Accounted source target settings asked base (compiled ++ x.compilations settings)
      (s.process x document).2 (s.originsAfter origins (.process x document)) := by
  obtain ⟨rfl, rfl, rfl, hworkspace, hrules⟩ := hs
  obtain ⟨entries, hprocess, -⟩ := s.process_eq x document
  have hcoherent := coherent_cleared hworkspace.predictable.coherent x
  have hcleared : Workspace.Accounts s.source s.target asked base compiled (s.cleared x) := by
    refine hworkspace.of_rules hcoherent (fun kind hkind => ?_) ?_ ?_
    · unfold cleared
      split
      · exact Workspace.definitions_discard hkind
      · rfl
    · unfold cleared
      split <;> rfl
    · unfold cleared
      split <;> rfl
  obtain ⟨hadded, hnew⟩ :=
    hcleared.addRules hr (fun _ => Specification.lexicons_of_mem) hasked
  rw [x.map_compilations] at hadded hnew
  have hkept : List.Forall₂ (fun (c : Compilation) node => c.StandsAt s.source s.target node)
      (((origins.zip (s.document.childrenOf .rules)).filter fun entry =>
        !x.replaces s.settings entry.2).map Prod.fst)
      ((s.cleared x).document.childrenOf .rules) := by
    rw [childrenOf_cleared]
    exact forall₂_filter_right hrules fun node => !x.replaces s.settings node
  rw [hprocess]
  refine ⟨rfl, rfl, rfl, hadded, ?_⟩
  show List.Forall₂ _ _ (((s.cleared x).addRules _ _).2.document.childrenOf .rules)
  rw [hcoherent.addRules]
  exact List.rel_append hkept hnew

/-- Process some specifications. -/
def processing (documents : List (Specification × String)) : List Operation :=
  documents.map fun d => .process d.1 d.2

/-- **Run lemma.**  And so do some specifications that are processed one after another. -/
theorem Accounted.processAll (hr : Reusable target asked)
    {documents : List (Specification × String)}
    (hs : Accounted source target settings asked base compiled s origins)
    (hasked : ∀ d ∈ documents, ∀ c ∈ d.1.compilations settings, ∀ demand ∈ c.demands source target,
      demand ∈ asked) :
    Accounted source target settings asked base
      (compiled ++ documents.flatMap fun d => d.1.compilations settings)
      (s.applyAll (processing documents)) (s.originsFrom origins (processing documents)) := by
  induction documents generalizing s compiled origins with
  | nil => exact (List.append_nil compiled).symm ▸ hs
  | cons d documents ih =>
      have hfirst : Accounted source target settings asked base
          (compiled ++ d.1.compilations settings) (s.apply (.process d.1 d.2)) _ :=
        hs.process hr (hasked d List.mem_cons_self)
      have hrest := ih hfirst fun d' hd' => hasked d' (List.mem_cons_of_mem _ hd')
      rw [List.append_assoc] at hrest
      exact hrest

end Session

end TransferRules

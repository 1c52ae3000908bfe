import TransferRules.Proofs.Compile.RuleForm
import TransferRules.Proofs.Session.Permutations
import TransferRules.Proofs.Session.Requests

/-!
# Rules of a session have the form

Whether a choice among glosses has a branch depends on the lexicon, but a feature that has been
resolved is not looked up again.  It is the session that makes sure of this: its lexicons never
change, and a file that is loaded brings no features with it.  So in every session that was started
and run the source lexicon knows values of the features that are resolved, and every well-formed
rule that is processed is added in the form that the engine expects.

## Main Statements

* `Session.knownTo_run` — the source lexicon knows values of the features that are resolved
* `Session.process_inForm` — what processing a specification adds has the form
-/

namespace TransferRules

open TransferRules.Compile
open TransferRules.Markup
open TransferRules.Ordered
open TransferRules.Transfer

theorem keptByRequests_knownTo (source target : Lexicon) :
    KeptByRequests source target fun w => w.KnownTo source where
  request _ h hrequest := hrequest.knownTo h
  attributes h _ hattributes := h.of_resolved_eq (congrArg _ hattributes)

/-! ## Compiling some rules -/

namespace Workspace

variable {ctx : Lexicons} {w : Workspace}

theorem KnownTo.addRule (h : w.KnownTo ctx.source) (hw : w.Coherent) (rule : Rule)
    (r : Resolution) : (w.addRule ctx rule r).2.KnownTo ctx.source :=
  (keptByRequests_knownTo ctx.source ctx.target).addRule hw h rule r

/-- Well-formed rules are added in the form. -/
theorem KnownTo.isRuleOf_addRules (h : w.KnownTo ctx.source) (hw : w.Coherent)
    {rules : List (Rule × Resolution)} (hrules : ∀ c ∈ rules, c.1.resolve = .ok c.2) :
    List.Forall₂ (fun c e => c.1.WellFormed → IsRuleOf ctx c.1 c.2 e) rules
      (w.addRules ctx rules).1 := by
  induction rules generalizing w with
  | nil => exact .nil
  | cons first rules ih =>
      refine .cons (fun hwell => ?_) (ih (h.addRule hw first.1 first.2)
        (hw.addRule first.1 first.2).1 fun c hc => hrules c (List.mem_cons_of_mem _ hc))
      exact compile_isRuleOf hwell (hrules first List.mem_cons_self)
        (e := { workspace := w, report := .empty }) h rfl _

end Workspace

theorem Rule.resolve_of_resolved? {rule : Rule} {c : Rule × Resolution}
    (h : rule.resolved? = some c) : c.1 = rule ∧ c.1.resolve = .ok c.2 := by
  unfold Rule.resolved? at h
  cases hresolve : rule.resolve with
  | ok r =>
      rw [hresolve] at h
      cases h
      exact ⟨rfl, hresolve⟩
  | error issue =>
      rw [hresolve] at h
      cases h

/-! ## Sessions -/

namespace Session

variable {s : Session}

theorem knownTo_cleared (h : s.workspace.KnownTo s.source) (x : Specification) :
    (s.cleared x).KnownTo s.source :=
  (keptByRequests_knownTo s.source s.target).cleared h x

/-- **The source lexicon knows values of the features that are resolved**, in every session that
was started and run. -/
theorem knownTo_run (source target : Lexicon) (settings : GeneratorSettings)
    (events : List Event) :
    let s := (start source target settings).run events
    s.workspace.KnownTo s.source := by
  intro s
  rw [show s.source = source from (sameSetup_run _ events).source]
  exact (keptByRequests_knownTo source target).run (fun _ _ => List.forall_mem_nil _) settings
    events

/-- **Rules are added in the form that the engine expects.**  In every session that was started and
run, processing a specification adds one rule for each that can be compiled, in their order, and
what it adds for a well-formed rule has the form: an item of the pattern for every source word,
statements about words of the pattern, and then a word of the output for every target word. -/
theorem process_inForm (source target : Lexicon) (settings : GeneratorSettings)
    (events : List Event) (x : Specification) (document : String) :
    let s := (start source target settings).run events
    let compiled := (x.expansions s.settings).filterMap Rule.resolved?
    ∃ added : List Element,
      (s.process x document).2.document.childrenOf .rules =
        (s.cleared x).document.childrenOf .rules ++ added.map Element.toNode ∧
      List.Forall₂ (fun c e => c.1.WellFormed → IsRuleOf (s.lexicons x.disjointSet?) c.1 c.2 e)
        compiled added := by
  intro s compiled
  have hs : s.workspace.Coherent := coherent_run source target settings events
  have hknown : s.workspace.KnownTo s.source := knownTo_run source target settings events
  obtain ⟨entries, hprocess, -⟩ := s.process_eq x document
  refine ⟨((s.cleared x).addRules (s.lexicons x.disjointSet?) compiled).1, ?_, ?_⟩
  · rw [hprocess]
    exact (coherent_cleared hs x).addRules compiled
  · have hcleared : (s.cleared x).KnownTo (s.lexicons x.disjointSet?).source :=
      knownTo_cleared hknown x
    refine hcleared.isRuleOf_addRules (coherent_cleared hs x) fun c hc => ?_
    obtain ⟨rule, -, hresolved⟩ := List.mem_filterMap.1 hc
    exact (Rule.resolve_of_resolved? hresolved).2

/-- All four permutations of a phrase are well formed, and they are added in the form. -/
theorem process_inForm_agreeingPhrase :
    let s := start numberedAdjectives numberedDeterminers {}
    let x := agreeingPhrase [.after]
    let compiled := (x.expansions s.settings).filterMap Rule.resolved?
    compiled.length = 4 ∧ (∀ c ∈ compiled, c.1.WellFormed) ∧
      ∃ added : List Element,
        (s.process x "spec").2.document.childrenOf .rules = added.map Element.toNode ∧
        List.Forall₂ (fun c e => IsRuleOf (s.lexicons none) c.1 c.2 e) compiled added := by
  intro s x compiled
  have hwell : ∀ c ∈ compiled, c.1.WellFormed := by decide +kernel
  obtain ⟨added, hrules, hform⟩ := process_inForm numberedAdjectives numberedDeterminers {} []
    (agreeingPhrase [.after]) "spec"
  refine ⟨by decide +kernel, hwell, added, hrules, ?_⟩
  exact List.forall₂_iff_zip.2 ⟨hform.length_eq, fun hmem =>
    (List.forall₂_iff_zip.1 hform).2 hmem (hwell _ (List.of_mem_zip hmem).1)⟩

end Session

end TransferRules

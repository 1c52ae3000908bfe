import TransferRules.Proofs.Compile.Variables
import TransferRules.Proofs.Rule.WellFormed
import TransferRules.Proofs.Session.HeldMacros
import TransferRules.Proofs.Session.Skipping

/-!
# Variables that are used twice

All variables of a rule are different, except where a copy with a fallback is asked for whose
variable the rule uses already.  Such a copy is not made, whatever the variable is used for, so a
consumer is compared with a value that has nothing to do with its match label.  The variables of
macros are not claimed at all; but the variable of an affix is never one of them, because it ends
differently.

## Main Statements

* `Workspace.Enriches.addRules` — compiling rules enriches a workspace
* `Session.uses_of_run` — which variables of a rule are used for two purposes
* `Compile.not_distinctUses_dualNoun` — a variable that holds a value and stands in for a copy
-/

namespace TransferRules

open TransferRules.Compile
open TransferRules.Ordered
open TransferRules.Transfer

/-! ## Macros that are held while rules are compiled -/

namespace Workspace.Enriches

variable {ctx : Lexicons} {w : Workspace}

/-- Compiling a rule enriches a workspace. -/
theorem compile (hw : w.Coherent) (rule : Rule) (r : Resolution) :
    Enriches w (Compile.compile ctx rule r { workspace := w, report := .empty }).2.workspace := by
  have hsettled : Settled ctx { workspace := w, report := .empty } := ⟨hw, nofun⟩
  have hworks : w.Works [] _ := Session.works_of_moves hw (compile_leads hsettled rule r).1
  exact hworks.enriches

/-- And so does adding it. -/
theorem addRule (hw : w.Coherent) (rule : Rule) (r : Resolution) :
    Enriches w (w.addRule ctx rule r).2 := by
  have hsettled : Settled ctx { workspace := w, report := .empty } := ⟨hw, nofun⟩
  obtain ⟨hmoves, hcompiled⟩ := compile_leads hsettled rule r
  have hworks : w.Works [] _ := Session.works_of_moves hw hmoves
  let e := (Compile.compile ctx rule r { workspace := w, report := .empty }).2
  have hfree : (e.workspace.names.allocate .rules rule.name).1 ∉
      e.workspace.document.definitionNames .rules :=
    hcompiled.settled.coherent.notMem_of_unused (e.workspace.names.allocate_fst_notMem _)
  exact Works.enriches
    (hworks.tail (.addRule _ rfl (Session.definitionName?_compiledRule _ _) hfree))

theorem addRules (hw : w.Coherent) (rules : List (Rule × Resolution)) :
    (w.addRules ctx rules).2.Coherent ∧ Enriches w (w.addRules ctx rules).2 := by
  induction rules generalizing w with
  | nil => exact ⟨hw, .refl w⟩
  | cons first rules ih =>
      obtain ⟨hcoherent, hrest⟩ := ih (hw.addRule first.1 first.2).1
      exact ⟨hcoherent, (addRule hw first.1 first.2).trans hrest⟩

end Workspace.Enriches

namespace Session

/-- The variables of all macros that are held while rules are compiled end in the same way. -/
theorem endsStem_of_held {w w' : Workspace} (hw : ∀ m ∈ w.macros.held, IsMacroName m.name m.result)
    (h : w.Enriches w') {m : HeldMacro} (hm : m ∈ w'.macros.held) : EndsStem m.result := by
  have hnamed : IsMacroName m.name m.result :=
    (h.held m hm).elim (hw m) And.left
  obtain ⟨stem, hstem, hresult, -⟩ := hnamed.stem
  exact hresult ▸ hstem.append "v_"

theorem enriches_cleared (s : Session) (x : Specification) :
    s.workspace.Enriches (s.cleared x) := by
  unfold cleared
  split
  · exact .discardRules s.workspace _
  · exact .refl s.workspace

/-- **Variables that are used for two purposes.**  If a rule is compiled at any time while a
specification is processed, and uses a variable for two purposes, one of them is a copy that is not
made.  If a copy is not made, its variable has another purpose, unless some feature of the rule
could not be resolved.  And the variable of an affix is not that of any macro that is held. -/
theorem uses_of_run (source target : Lexicon) (settings : GeneratorSettings) (events : List Event)
    (x : Specification) (earlier : List (Rule × Resolution)) (rule : Rule) (r : Resolution) :
    let s := (start source target settings).run events
    let ctx := s.lexicons x.disjointSet?
    let e : Emission :=
      { workspace := ((s.cleared x).addRules ctx earlier).2, report := .empty }
    let compiled := (Compile.compile ctx rule r e).1
    let after := (Compile.compile ctx rule r e).2
    (∀ p q name, RuleUses ctx rule r e p name → RuleUses ctx rule r e q name → p ≠ q →
      ∃ c ∈ askedCopies ctx rule r e, (p = c.purpose ∨ q = c.purpose) ∧ ¬ c.MadeIn compiled) ∧
    (∀ c ∈ askedCopies ctx rule r e, ¬ c.MadeIn compiled →
      (∃ q, q ≠ c.purpose ∧ RuleUses ctx rule r e q c.name) ∨ after.report.Unresolved) ∧
    ∀ word part name, RuleUses ctx rule r e (.output word (part + 1)) name →
      ∀ m ∈ after.workspace.macros.held, m.result ≠ name := by
  intro s ctx e compiled after
  obtain ⟨bound, claims, hbindings, h, htags⟩ :=
    @compile_allotted ctx rule r e rfl rfl
  have hcopies : askedCopies ctx rule r e =
      copiesOfWords ctx (bound.map BoundLabel.entry) rule r rule.target.zipIdx := by
    rw [askedCopies, hbindings]
  simp only [RuleUses]
  rw [hcopies, hbindings]
  refine ⟨fun p q name hp hq hne => h.exists_not_madeIn hp hq hne,
    fun c hc hmade => h.exists_uses hc hmade, fun word part name huses m hm hsame => ?_⟩
  -- A variable among the tags does not end like that of a macro.
  have hs : s.workspace.Coherent := coherent_run source target settings events
  have hserviced : s.workspace.Serviced := serviced_run source target settings events
  obtain ⟨hcoherent, hadded⟩ := @Workspace.Enriches.addRules ctx _ (coherent_cleared hs x) earlier
  have henriches : s.workspace.Enriches after.workspace :=
    ((s.enriches_cleared x).trans hadded).trans (.compile hcoherent rule r)
  obtain ⟨w, hword, hpart⟩ : PutOut compiled.output word (part + 1) name := by
    cases huses with
    | output hput => exact hput
  refine htags w (List.mem_of_getElem? hword) name ?_
    (hsame ▸ endsStem_of_held hserviced.named henriches hm)
  exact List.mem_filterMap.2 ⟨_, List.mem_of_getElem? hpart, rfl⟩

end Session

namespace Compile

/-! ## A label that is named like a copy -/

/-- No variable is used for two purposes. -/
def DistinctUses (uses : Purpose → String → Prop) : Prop :=
  ∀ p q name, uses p name → uses q name → p = q

/-- Nouns with a number, and with the answer whether they can be in the dual. -/
def dualNouns : Lexicons where
  source := ⟨"source", StringMap.empty.insert "n" none,
    StringMap.empty.insert "n" ((StringMap.empty.insert "number"
      { values := ["sg", "pl"] }).insert "number or dual" { values := ["no", "yes"] })⟩
  target := ⟨"target", StringMap.empty.insert "n" none,
    StringMap.empty.insert "n" ((StringMap.empty.insert "number"
      { affixes := [⟨"DU", "dual"⟩, ⟨"PL", "pl"⟩, ⟨"SG", "sg"⟩] }).insert "number or dual"
        { affixes := [⟨"ND", "no"⟩, ⟨"YD", "yes"⟩] })⟩

/-- A rule for a noun with an affix for each feature; the number is the dual if there is none. -/
def dualNoun : Rule where
  name := "dual noun"
  source := [⟨"1", some "n", [{ label := "number", binding := .agreement "α" },
    { label := "number or dual", binding := .agreement "β" }]⟩]
  target := [
    { id := "1"
      isHead := true
      affixes := [
        ⟨.after, [{ label := "number", binding := .agreement "α", fallback := some "dual" }]⟩,
        ⟨.after, [{ label := "number or dual", binding := .agreement "β" }]⟩] }]

/-- The source word provides both features. -/
def dualNounResolution : Resolution where
  occurrences := dualNoun.occurrences
  providers := [
    ⟨"α", ⟨"1", 1, "n", "n", true, .source, none, ⟨"number", .agreement "α", none, none⟩⟩, 0⟩,
    ⟨"β", ⟨"1", 1, "n", "n", true, .source, none, ⟨"number or dual", .agreement "β", none, none⟩⟩,
      1⟩]

/-- **A variable with two purposes.**  The copy of the number with the dual for a fallback has the
name of the variable that holds the other feature.  So nothing is copied, and the affix for the
number is compared with the answer whether there is a dual. -/
theorem not_distinctUses_dualNoun :
    let e : Emission := { workspace := {}, report := .empty }
    dualNoun.WellFormed ∧ dualNoun.resolve = .ok dualNounResolution ∧
      ¬ DistinctUses (RuleUses dualNouns dualNoun dualNounResolution e) := by
  intro e
  refine ⟨by decide +kernel, by decide +kernel, fun h => ?_⟩
  have hbinding : RuleUses dualNouns dualNoun dualNounResolution e (.binding "β")
      "v_n_number_or_dual" := by
    have hmem : ("β", ⟨"v_n_number_or_dual", "number or dual", none⟩) ∈
        (openRule dualNouns dualNoun dualNounResolution e).1.2 := by decide +kernel
    exact .binding hmem
  have hcopy : RuleUses dualNouns dualNoun dualNounResolution e (.copy "α" "dual")
      "v_n_number_or_dual" := by
    have hmem : ⟨"α", "v_n_number", "dual"⟩ ∈
        askedCopies dualNouns dualNoun dualNounResolution e := by decide +kernel
    have hname : (⟨"α", "v_n_number", "dual"⟩ : Copy).name = "v_n_number_or_dual" := by
      decide +kernel
    exact hname ▸ .copy hmem
  exact nomatch h _ _ _ hbinding hcopy

end Compile

end TransferRules

import TransferRules.Proofs.Action.References
import TransferRules.Proofs.Ordered.Reachable
import TransferRules.Proofs.Transfer.Sections

/-!
# Trimming a document

Trimming removes the generated macros and variables that are not used.  What is used is the least
set that is closed under calls, starting from rules and loaded macros, whatever cycles the calls
form.  A definition that stays only refers to what is used, so no reference is broken, and a
second trim finds nothing to remove.

## Main Definitions

* `TransferDocument.IsRoot` — a definition that uses something by itself
* `TransferDocument.MacroUsed` — the macros that are used
* `TransferDocument.IsUser`, `TransferDocument.VariableUsed` — whose references count, and the
  variables that are used
* `TransferDocument.WellNamed` — names and provenance as sessions keep them

## Main Statements

* `TransferDocument.mem_usedMacros_iff`, `TransferDocument.mem_usedVariables_iff` — the search
  finds exactly what is used
* `TransferDocument.mem_unused_macros_iff`, `TransferDocument.mem_unused_vars_iff` — what is
  removed
* `TransferDocument.trim_trim` — a second trim removes nothing

## Design Notes

The search looks up the first macro of a name only.  That is enough: a generated name belongs to
one macro, and the macros of a loaded name are roots, all of them.
-/

namespace TransferRules.Transfer

open TransferRules.Markup
open TransferRules.Ordered

/-- The names of a section that were removed. -/
def TrimSummary.names (s : TrimSummary) : SectionKind → List String
  | .macros => s.macros
  | .vars => s.vars
  | _ => []

namespace TransferDocument

/-! ## What is used -/

/-- A definition that uses something by itself: a rule, or a loaded macro. -/
inductive IsRoot (d : TransferDocument) (e : Element) : Prop where
  | ofRule (he : e ∈ d.definitions .rules)
  | ofLoaded {name : String} (he : e ∈ d.definitions .macros)
      (hname : definitionName? .macros e = some name)
      (hloaded : d.provenanceOf? .macros name = some .loaded)

/-- The macros that are used: the least set of names that holds what the roots call, and what the
macros of its own names call. -/
inductive MacroUsed (d : TransferDocument) : String → Prop where
  | ofRoot {e : Element} {name : String} (he : d.IsRoot e)
      (hcall : ⟨.macros, name⟩ ∈ references e) : MacroUsed d name
  | ofCaller {caller name : String} {e : Element} (hcaller : MacroUsed d caller)
      (he : e ∈ d.definitions .macros) (hname : definitionName? .macros e = some caller)
      (hcall : ⟨.macros, name⟩ ∈ references e) : MacroUsed d name

/-- A definition whose references count: a root, or a macro that is used. -/
inductive IsUser (d : TransferDocument) (e : Element) : Prop where
  | ofRoot (he : d.IsRoot e)
  | ofUsed {name : String} (hused : d.MacroUsed name) (he : e ∈ d.definitions .macros)
      (hname : definitionName? .macros e = some name)

/-- Only rules and macros count. -/
theorem IsUser.mem {d : TransferDocument} {e : Element} (h : d.IsUser e) :
    e ∈ d.definitions .rules ++ d.definitions .macros := by
  rw [List.mem_append]
  cases h with
  | ofRoot hroot =>
      cases hroot with
      | ofRule he => exact .inl he
      | ofLoaded he _ _ => exact .inr he
  | ofUsed _ he _ => exact .inr he

/-- The variables that are used. -/
def VariableUsed (d : TransferDocument) (name : String) : Prop :=
  ∃ e, d.IsUser e ∧ ⟨.vars, name⟩ ∈ references e

/-- Names and provenance as sessions keep them: exactly the names of definitions have a
provenance, and a generated name belongs to one definition. -/
structure WellNamed (d : TransferDocument) : Prop where
  provenance : ∀ kind name, (d.provenanceOf? kind name).isSome = true ↔
    name ∈ d.definitionNames kind
  unique : ∀ kind name, d.provenanceOf? kind name = some .generated → d.countNamed kind name ≤ 1

variable {d : TransferDocument} {kind : SectionKind} {name : String} {e : Element}

theorem IsUser.macroUsed (h : d.IsUser e) (hcall : ⟨.macros, name⟩ ∈ references e) :
    d.MacroUsed name := by
  cases h with
  | ofRoot he => exact .ofRoot he hcall
  | ofUsed hused he hname => exact .ofCaller hused he hname hcall

/-- A name with a definition is loaded or generated. -/
theorem WellNamed.loaded_or_generated (hd : d.WellNamed) (he : e ∈ d.definitions kind)
    (hname : definitionName? kind e = some name) :
    d.provenanceOf? kind name = some .loaded ∨ d.provenanceOf? kind name = some .generated := by
  have hsome := (hd.provenance kind name).2 (mem_definitionNames.2 ⟨e, he, hname⟩)
  obtain ⟨p, hp⟩ := Option.isSome_iff_exists.1 hsome
  cases p with
  | loaded => exact .inl hp
  | generated => exact .inr hp

/-- The only element of a list with a property is the first one. -/
theorem find?_of_countP_le_one {α : Type} {p : α → Bool} {a : α} {as : List α} (ha : a ∈ as)
    (hp : p a = true) (hcount : as.countP p ≤ 1) : as.find? p = some a := by
  induction as with
  | nil => cases ha
  | cons first as ih =>
      by_cases hfirst : p first = true
      · rw [List.find?_cons_of_pos hfirst]
        rw [List.countP_cons_of_pos hfirst] at hcount
        rcases List.mem_cons.1 ha with rfl | ha
        · rfl
        · have hnone := List.countP_eq_zero.1 (Nat.le_zero.1 (Nat.le_of_succ_le_succ hcount)) a ha
          exact absurd hp hnone
      · rw [List.find?_cons_of_neg hfirst]
        rw [List.countP_cons_of_neg hfirst] at hcount
        rcases List.mem_cons.1 ha with rfl | ha
        · exact absurd hp hfirst
        · exact ih ha hcount

theorem WellNamed.definition?_eq_some (hd : d.WellNamed) (he : e ∈ d.definitions kind)
    (hname : definitionName? kind e = some name)
    (hgenerated : d.provenanceOf? kind name = some .generated) :
    d.definition? kind name = some e :=
  find?_of_countP_le_one he (by simp [hname]) (hd.unique kind name hgenerated)

/-! ## The search for what is used -/

theorem mem_usageRoots_iff : e ∈ d.usageRoots ↔ d.IsRoot e := by
  unfold usageRoots
  rw [List.mem_append, List.mem_filter]
  constructor
  · rintro (he | ⟨he, hloaded⟩)
    · exact .ofRule he
    · cases hname : definitionName? .macros e with
      | none =>
          rw [show e.attribute? "n" = none from hname] at hloaded
          cases hloaded
      | some name =>
          rw [show e.attribute? "n" = some name from hname] at hloaded
          exact .ofLoaded he hname (by simpa [isLoaded] using hloaded)
  · intro h
    cases h with
    | ofRule he => exact .inl he
    | ofLoaded he hname hloaded =>
        refine .inr ⟨he, ?_⟩
        rw [show e.attribute? "n" = _ from hname]
        simp [isLoaded, hloaded]

theorem mem_of_definition? (h : d.definition? kind name = some e) :
    e ∈ d.definitions kind ∧ definitionName? kind e = some name := by
  refine ⟨List.mem_of_find?_eq_some h, ?_⟩
  simpa using List.find?_some h

theorem mem_callsOf_iff {called : String} : called ∈ d.callsOf name ↔
    ∃ e, d.definition? .macros name = some e ∧ ⟨.macros, called⟩ ∈ references e := by
  unfold callsOf
  cases d.definition? .macros name with
  | none => simp
  | some e => simp [mem_calledMacros_iff]

/-- **The search is exact.**  It finds the least set of macros, call cycles or not. -/
theorem mem_usedMacros_iff (hd : d.WellNamed) : name ∈ d.usedMacros ↔ d.MacroUsed name := by
  have hroots : ∀ n, n ∈ d.usageRoots.flatMap calledMacros ↔
      ∃ e, d.IsRoot e ∧ ⟨.macros, n⟩ ∈ references e := by
    intro n
    simp only [List.mem_flatMap, mem_usageRoots_iff, mem_calledMacros_iff]
  unfold usedMacros
  rw [mem_reachable_iff (fun x hx => List.mem_append_left _ hx) ?_]
  · constructor
    · intro h
      induction h with
      | root hroot =>
          obtain ⟨e, he, hcall⟩ := (hroots _).1 hroot
          exact .ofRoot he hcall
      | link _ hlink ih =>
          obtain ⟨e, hfound, hcall⟩ := mem_callsOf_iff.1 hlink
          obtain ⟨he, hname⟩ := mem_of_definition? hfound
          exact .ofCaller ih he hname hcall
    · intro h
      induction h with
      | ofRoot he hcall => exact .root ((hroots _).2 ⟨_, he, hcall⟩)
      | ofCaller _ he hname hcall ih =>
          -- A loaded macro is a root itself; a generated one is what the search finds by its name.
          rcases hd.loaded_or_generated he hname with hloaded | hgenerated
          · exact .root ((hroots _).2 ⟨_, .ofLoaded he hname hloaded, hcall⟩)
          · have hfound := hd.definition?_eq_some he hname hgenerated
            exact .link ih (mem_callsOf_iff.2 ⟨_, hfound, hcall⟩)
  · intro x y hy
    obtain ⟨e, hfound, hcall⟩ := mem_callsOf_iff.1 hy
    exact List.mem_append_right _
      (List.mem_flatMap.2 ⟨e, (mem_of_definition? hfound).1, mem_calledMacros_iff.2 hcall⟩)

theorem mem_usedVariables_iff (hd : d.WellNamed) :
    name ∈ d.usedVariables ↔ d.VariableUsed name := by
  have husers : ∀ e, e ∈ d.usageRoots ++ d.usedMacros.filterMap (d.definition? .macros) ↔
      d.IsUser e := by
    intro e
    rw [List.mem_append, mem_usageRoots_iff, List.mem_filterMap]
    constructor
    · rintro (hroot | ⟨caller, hused, hfound⟩)
      · exact .ofRoot hroot
      · obtain ⟨he, hname⟩ := mem_of_definition? hfound
        exact .ofUsed ((mem_usedMacros_iff hd).1 hused) he hname
    · intro h
      cases h with
      | ofRoot hroot => exact .inl hroot
      | ofUsed hused he hname =>
          rcases hd.loaded_or_generated he hname with hloaded | hgenerated
          · exact .inl (.ofLoaded he hname hloaded)
          · exact .inr ⟨_, (mem_usedMacros_iff hd).2 hused,
              hd.definition?_eq_some he hname hgenerated⟩
  unfold usedVariables VariableUsed
  simp only [List.mem_flatMap, husers, mem_mentionedVariables_iff]

/-- If no macro calls another, the macros that are used are those that the roots call. -/
theorem usedMacros_of_uncalled (h : ∀ e ∈ d.definitions .macros, calledMacros e = []) :
    d.usedMacros = newNames (d.usageRoots.flatMap calledMacros ++
      (d.definitions .macros).flatMap calledMacros) [] (d.usageRoots.flatMap calledMacros) := by
  refine reachable_of_unlinked fun name => ?_
  unfold callsOf
  cases hfound : d.definition? .macros name with
  | none => rfl
  | some e => exact h e (mem_of_definition? hfound).1

/-! ## What is removed -/

theorem mem_generatedNames_iff (hd : d.WellNamed) :
    name ∈ d.generatedNames kind ↔ d.provenanceOf? kind name = some .generated := by
  unfold generatedNames
  rw [List.mem_filter]
  refine ⟨fun h => by simpa using h.2, fun h => ⟨?_, by simp [h]⟩⟩
  exact (hd.provenance kind name).1 (by simp [h])

theorem mem_unused_macros_iff (hd : d.WellNamed) : name ∈ d.unused.macros ↔
    d.provenanceOf? .macros name = some .generated ∧ ¬ d.MacroUsed name := by
  unfold unused
  rw [List.mem_filter, mem_generatedNames_iff hd, ← mem_usedMacros_iff hd]
  simp

theorem mem_unused_vars_iff (hd : d.WellNamed) : name ∈ d.unused.vars ↔
    d.provenanceOf? .vars name = some .generated ∧ ¬ d.VariableUsed name := by
  unfold unused
  rw [List.mem_filter, mem_generatedNames_iff hd, ← mem_usedVariables_iff hd]
  simp

/-- Only generated names are removed. -/
theorem generated_of_mem_unused (hd : d.WellNamed) (h : name ∈ d.unused.names kind) :
    d.provenanceOf? kind name = some .generated := by
  cases kind with
  | macros => exact ((mem_unused_macros_iff hd).1 h).1
  | vars => exact ((mem_unused_vars_iff hd).1 h).1
  | _ => cases h

/-! ## What a trim leaves -/

/-- The document `t` is `d` without the definitions of some names, and without their
provenance. -/
structure IsWithout (removed : SectionKind → List String) (d t : TransferDocument) : Prop where
  frame : t.frame = d.frame
  heads : ∀ kind, t.headOf kind = d.headOf kind
  children : ∀ kind, t.childrenOf kind = (d.childrenOf kind).filter fun node =>
    !(removed kind).any fun n => isDefinitionNamed kind n node
  provenance : ∀ kind name, t.provenanceOf? kind name =
    if name ∈ removed kind then none else d.provenanceOf? kind name

/-- A trim is the removal of the names of each section. -/
theorem trim_snd (d : TransferDocument) : d.trim.2 =
    (d.removeAll .macros (d.unused.names .macros)).removeAll .vars (d.unused.names .vars) := rfl

theorem frame_trim : d.trim.2.frame = d.frame := by
  rw [trim_snd, frame_removeAll, frame_removeAll]

theorem headOf_trim : d.trim.2.headOf kind = d.headOf kind := by
  rw [trim_snd, headOf_removeAll, headOf_removeAll]

theorem childrenOf_trim : d.trim.2.childrenOf kind = (d.childrenOf kind).filter fun node =>
    !(d.unused.names kind).any fun n => isDefinitionNamed kind n node := by
  rw [trim_snd, childrenOf_removeAll, childrenOf_removeAll, childrenOf_removeAll]
  cases kind with
  | macros => rfl
  | vars => rfl
  | _ => exact (List.filter_eq_self.2 fun _ _ => rfl).symm

theorem definitionNames_trim : d.trim.2.definitionNames kind =
    (d.definitionNames kind).filter fun n => !(d.unused.names kind).contains n := by
  rw [trim_snd, definitionNames_removeAll, definitionNames_removeAll, definitionNames_removeAll]
  cases kind with
  | macros => rfl
  | vars => rfl
  | _ => exact (List.filter_eq_self.2 fun _ _ => rfl).symm

/-- Under a name that is not removed the same definition stands. -/
theorem definition?_trim (h : name ∉ d.unused.names kind) :
    d.trim.2.definition? kind name = d.definition? kind name := by
  rw [definition?_eq, definition?_eq, childrenOf_trim, List.find?_filter]
  refine congrArg (Option.bind · Node.element?) (congrArg (List.find? · _) ?_)
  funext node
  rw [Bool.eq_iff_iff, decide_eq_true_iff]
  refine and_iff_right_of_imp fun hnamed => ?_
  rw [Bool.not_eq_true', ← Bool.not_eq_true, List.any_eq_true]
  rintro ⟨n, hn, hother⟩
  rw [isDefinitionNamed_iff] at hnamed hother
  rw [hnamed] at hother
  cases hother
  exact h hn

/-- Nothing but macros and variables is removed. -/
theorem definitions_trim_of_ne (hmacros : kind ≠ .macros) (hvars : kind ≠ .vars) :
    d.trim.2.definitions kind = d.definitions kind := by
  have hnames : d.unused.names kind = [] := by
    cases kind <;> first | rfl | exact absurd rfl hmacros | exact absurd rfl hvars
  rw [definitions_eq, childrenOf_trim, hnames, definitions_eq]
  exact congrArg _ (congrArg _ (List.filter_eq_self.2 fun _ _ => rfl))

theorem provenanceOf?_trim (hd : d.WellNamed) : d.trim.2.provenanceOf? kind name =
    if name ∈ d.unused.names kind then none else d.provenanceOf? kind name := by
  have hdefined : name ∈ d.unused.names kind → name ∈ d.definitionNames kind := by
    intro h
    refine (hd.provenance kind name).1 ?_
    rw [generated_of_mem_unused hd h]
    rfl
  rw [trim_snd, provenanceOf?_removeAll, provenanceOf?_removeAll, definitionNames_removeAll]
  cases kind with
  | macros =>
      by_cases hmem : name ∈ d.unused.names .macros
      · simp [hmem, hdefined hmem]
      · simp [hmem]
  | vars =>
      by_cases hmem : name ∈ d.unused.names .vars
      · simp [hmem, hdefined hmem]
      · simp [hmem]
  | _ => simp [TrimSummary.names]

/-- **A trim changes nothing else.** -/
theorem isWithout_trim (hd : d.WellNamed) : IsWithout d.unused.names d d.trim.2 where
  frame := frame_trim
  heads _ := headOf_trim
  children _ := childrenOf_trim
  provenance _ _ := provenanceOf?_trim hd

/-- The definitions that stay are those whose name is not removed, and those without a name. -/
theorem mem_definitions_trim_iff : e ∈ d.trim.2.definitions kind ↔
    e ∈ d.definitions kind ∧ ∀ n ∈ d.unused.names kind, definitionName? kind e ≠ some n := by
  rw [trim_snd, mem_definitions_removeAll, mem_definitions_removeAll]
  cases kind with
  | macros => simp
  | vars => simp
  | _ => simp [TrimSummary.names]

theorem mem_rules_trim_iff : e ∈ d.trim.2.definitions .rules ↔ e ∈ d.definitions .rules := by
  rw [mem_definitions_trim_iff]
  simp [TrimSummary.names]

/-- Roots stay roots, and there are no new ones. -/
theorem isRoot_trim_iff (hd : d.WellNamed) : d.trim.2.IsRoot e ↔ d.IsRoot e := by
  constructor
  · intro h
    cases h with
    | ofRule he => exact .ofRule (mem_rules_trim_iff.1 he)
    | ofLoaded he hname hloaded =>
        rw [provenanceOf?_trim hd] at hloaded
        split at hloaded
        · cases hloaded
        · exact .ofLoaded (mem_definitions_trim_iff.1 he).1 hname hloaded
  · intro h
    cases h with
    | ofRule he => exact .ofRule (mem_rules_trim_iff.2 he)
    | ofLoaded he hname hloaded =>
        rename_i name
        have hkept : name ∉ d.unused.names .macros := by
          intro hmem
          have hgenerated := generated_of_mem_unused hd hmem
          rw [hloaded] at hgenerated
          cases hgenerated
        refine .ofLoaded (mem_definitions_trim_iff.2 ⟨he, ?_⟩) hname ?_
        · rintro n hn hname'
          rw [hname] at hname'
          cases hname'
          exact hkept hn
        · rw [provenanceOf?_trim hd, if_neg hkept, hloaded]

/-- The macros of a used name stay. -/
theorem mem_definitions_trim_of_used (hd : d.WellNamed) (hused : d.MacroUsed name)
    (he : e ∈ d.definitions .macros) (hname : definitionName? .macros e = some name) :
    e ∈ d.trim.2.definitions .macros := by
  refine mem_definitions_trim_iff.2 ⟨he, fun n hn hname' => ?_⟩
  rw [hname] at hname'
  cases hname'
  exact ((mem_unused_macros_iff hd).1 hn).2 hused

/-- A trim does not change what is used. -/
theorem macroUsed_trim_iff (hd : d.WellNamed) : d.trim.2.MacroUsed name ↔ d.MacroUsed name := by
  constructor
  · intro h
    induction h with
    | ofRoot he hcall => exact .ofRoot ((isRoot_trim_iff hd).1 he) hcall
    | ofCaller _ he hname hcall ih =>
        exact .ofCaller ih (mem_definitions_trim_iff.1 he).1 hname hcall
  · intro h
    induction h with
    | ofRoot he hcall => exact .ofRoot ((isRoot_trim_iff hd).2 he) hcall
    | ofCaller hcaller he hname hcall ih =>
        exact .ofCaller ih (mem_definitions_trim_of_used hd hcaller he hname) hname hcall

theorem isUser_trim_iff (hd : d.WellNamed) : d.trim.2.IsUser e ↔ d.IsUser e := by
  constructor
  · intro h
    cases h with
    | ofRoot he => exact .ofRoot ((isRoot_trim_iff hd).1 he)
    | ofUsed hused he hname =>
        exact .ofUsed ((macroUsed_trim_iff hd).1 hused) (mem_definitions_trim_iff.1 he).1 hname
  · intro h
    cases h with
    | ofRoot he => exact .ofRoot ((isRoot_trim_iff hd).2 he)
    | ofUsed hused he hname =>
        exact .ofUsed ((macroUsed_trim_iff hd).2 hused)
          (mem_definitions_trim_of_used hd hused he hname) hname

theorem variableUsed_trim_iff (hd : d.WellNamed) :
    d.trim.2.VariableUsed name ↔ d.VariableUsed name := by
  simp only [VariableUsed, isUser_trim_iff hd]

theorem WellNamed.trim (hd : d.WellNamed) : d.trim.2.WellNamed where
  provenance kind name := by
    rw [provenanceOf?_trim hd, definitionNames_trim, List.mem_filter, ← hd.provenance]
    by_cases hmem : name ∈ d.unused.names kind
    · simp [hmem]
    · simp [hmem]
  unique kind name hgenerated := by
    rw [provenanceOf?_trim hd] at hgenerated
    split at hgenerated
    · cases hgenerated
    · refine Nat.le_trans ?_ (hd.unique kind name hgenerated)
      rw [countNamed_eq, countNamed_eq, definitionNames_trim]
      exact List.filter_sublist.count_le name

/-! ## References and a second trim -/

/-- A rule, or a macro with a name, that is there after a trim: its references count. -/
theorem isUser_of_mem_trim (hd : d.WellNamed)
    (he : e ∈ d.trim.2.definitions .rules ∨
      e ∈ d.trim.2.definitions .macros ∧ (definitionName? .macros e).isSome = true) :
    d.IsUser e := by
  rcases he with hrule | ⟨hmem, hnamed⟩
  · exact .ofRoot (.ofRule (mem_rules_trim_iff.1 hrule))
  · obtain ⟨name, hname⟩ := Option.isSome_iff_exists.1 hnamed
    obtain ⟨he, hkept⟩ := mem_definitions_trim_iff.1 hmem
    rcases hd.loaded_or_generated he hname with hloaded | hgenerated
    · exact .ofRoot (.ofLoaded he hname hloaded)
    · by_cases hused : d.MacroUsed name
      · exact .ofUsed hused he hname
      · exact absurd hname (hkept name ((mem_unused_macros_iff hd).2 ⟨hgenerated, hused⟩))

/-- What is used is not removed. -/
theorem mem_definitionNames_trim_of_used (hd : d.WellNamed)
    (hused : (kind = .macros ∧ d.MacroUsed name) ∨ (kind = .vars ∧ d.VariableUsed name))
    (hdefined : name ∈ d.definitionNames kind) : name ∈ d.trim.2.definitionNames kind := by
  have hkept : name ∉ d.unused.names kind := by
    intro hmem
    rcases hused with ⟨rfl, hused⟩ | ⟨rfl, hused⟩
    · exact ((mem_unused_macros_iff hd).1 hmem).2 hused
    · exact ((mem_unused_vars_iff hd).1 hmem).2 hused
  rw [definitionNames_trim, List.mem_filter]
  exact ⟨hdefined, by simpa using hkept⟩

/-- After a trim nothing is unused. -/
theorem unused_trim (hd : d.WellNamed) : d.trim.2.unused = ⟨[], []⟩ := by
  -- A name that is generated still has not been removed, so it was used.
  have hstays : ∀ {kind name} {used : String → Prop},
      (name ∈ d.unused.names kind ↔ d.provenanceOf? kind name = some .generated ∧ ¬ used name) →
      d.trim.2.provenanceOf? kind name = some .generated → used name := by
    intro kind name used hiff hgenerated
    rw [provenanceOf?_trim hd] at hgenerated
    split at hgenerated
    · cases hgenerated
    · next hkept =>
      by_cases hused : used name
      · exact hused
      · exact absurd (hiff.2 ⟨hgenerated, hused⟩) hkept
  have hmacros : d.trim.2.unused.macros = [] := by
    refine List.eq_nil_iff_forall_not_mem.2 fun name hname => ?_
    obtain ⟨hgenerated, hunused⟩ := (mem_unused_macros_iff hd.trim).1 hname
    rw [macroUsed_trim_iff hd] at hunused
    exact hunused (hstays (mem_unused_macros_iff hd) hgenerated)
  have hvars : d.trim.2.unused.vars = [] := by
    refine List.eq_nil_iff_forall_not_mem.2 fun name hname => ?_
    obtain ⟨hgenerated, hunused⟩ := (mem_unused_vars_iff hd.trim).1 hname
    rw [variableUsed_trim_iff hd] at hunused
    exact hunused (hstays (mem_unused_vars_iff hd) hgenerated)
  show TrimSummary.mk d.trim.2.unused.macros d.trim.2.unused.vars = ⟨[], []⟩
  rw [hmacros, hvars]

theorem trim_of_unused (h : d.unused = ⟨[], []⟩) : d.trim = (⟨[], []⟩, d) := by
  unfold trim
  simp only [h]
  rfl

/-- A second trim removes nothing. -/
theorem trim_trim (hd : d.WellNamed) : d.trim.2.trim = (⟨[], []⟩, d.trim.2) :=
  trim_of_unused (unused_trim hd)

end TransferDocument

end TransferRules.Transfer

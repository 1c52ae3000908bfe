import TransferRules.Proofs.Action.Grammar
import TransferRules.Proofs.Compile.AffixGloss
import TransferRules.Proofs.Compile.LemmaAgreement
import TransferRules.Proofs.Compile.Moves
import TransferRules.Proofs.Rule.WellFormed
import TransferRules.Proofs.Workspace.Resolved

/-!
# Emission in form

Statements are emitted in many places, and an empty choice could come from any of them: from a gloss
that is looked up in a lexicon without glosses, or from a table without rows or without a variable
to compare with.  None of this happens.  A gloss is only looked up if the feature has been resolved,
for which the lexicon has to know values of it.  A table without rows is not emitted at all, and one
without variables is not needed, because its first row is met.

The invariant is that all statements so far can be written in the form, and that the source lexicon
knows values of the features that are resolved.  A computation keeps it, and with it goes what is
known of the result.

## Main Definitions

* `InForm` — the invariant
* `Keeps` — a computation keeps it, and its result satisfies a condition
* `RowsFit` — rows of which a table can be made

## Main Statements

* `bindLabels_keeps` — match labels are bound in form
* `emitTable_keeps` — and so are tables emitted
* `emitAffix_keeps`, `emitLemma_keeps` — hence affixes and lemmas, which put out nothing that is
  taken from a word
-/

namespace TransferRules.Compile

open TransferRules.Action
open TransferRules.Ordered
open TransferRules.Text

variable {ctx : Lexicons} {allowed : Nat → Prop} {α β : Type}

/-- What holds while a rule is compiled: the lexicon knows values of the features that are resolved,
and all statements fit. -/
structure InForm (ctx : Lexicons) (allowed : Nat → Prop) (e : Emission) : Prop where
  known : e.workspace.KnownTo ctx.source
  statements : ∀ s ∈ e.statements, s.Fits allowed

/-- A computation keeps the form, and its result satisfies a condition. -/
def Keeps (ctx : Lexicons) (allowed : Nat → Prop) (m : Emit α) (Q : α → Prop) : Prop :=
  ∀ e, InForm ctx allowed e → InForm ctx allowed (m e).2 ∧ Q (m e).1

namespace Keeps

variable {m : Emit α} {f : α → Emit β} {P : α → Prop} {Q : β → Prop}

theorem pure {a : α} (h : P a) : Keeps ctx allowed (Pure.pure a : Emit α) P :=
  fun _ he => ⟨he, h⟩

theorem bind (hm : Keeps ctx allowed m P) (hf : ∀ a, P a → Keeps ctx allowed (f a) Q) :
    Keeps ctx allowed (m >>= f) Q := by
  intro e he
  obtain ⟨hkept, hP⟩ := hm e he
  exact hf _ hP _ hkept

theorem imp {P' : α → Prop} (hm : Keeps ctx allowed m P) (h : ∀ a, P a → P' a) :
    Keeps ctx allowed m P' :=
  fun e he => ⟨(hm e he).1, h _ (hm e he).2⟩

theorem foldlM {f : β → α → Emit β} {l : List α}
    (hf : ∀ b, ∀ a ∈ l, Keeps ctx allowed (f b a) fun _ => True) (b : β) :
    Keeps ctx allowed (l.foldlM f b) fun _ => True := by
  induction l generalizing b with
  | nil => exact pure trivial
  | cons a l ih =>
      rw [List.foldlM_cons]
      exact (hf b a List.mem_cons_self).bind fun b' _ =>
        ih (fun b a ha => hf b a (List.mem_cons_of_mem _ ha)) b'

theorem forM {f : α → Emit PUnit} (l : List α)
    (hf : ∀ a ∈ l, Keeps ctx allowed (f a) fun _ => True) :
    Keeps ctx allowed (l.forM f) fun _ => True := by
  induction l with
  | nil => exact pure trivial
  | cons a l ih =>
      exact (hf a List.mem_cons_self).bind fun _ _ =>
        ih fun a ha => hf a (List.mem_cons_of_mem _ ha)

/-- The results of a traversal are related to the entries one by one. -/
theorem mapM {f : α → Emit β} {R : α → β → Prop} (l : List α)
    (hf : ∀ a ∈ l, Keeps ctx allowed (f a) (R a)) :
    Keeps ctx allowed (l.mapM f) (List.Forall₂ R l) := by
  induction l with
  | nil => exact pure .nil
  | cons a l ih =>
      rw [List.mapM_cons]
      refine (hf a List.mem_cons_self).bind fun b hb => ?_
      exact (ih fun a ha => hf a (List.mem_cons_of_mem _ ha)).bind fun bs hbs => pure (.cons hb hbs)

end Keeps

/-! ## Steps -/

theorem emit_keeps {s : Statement} (h : s.Fits allowed) :
    Keeps ctx allowed (emit s) fun _ => True := by
  intro e he
  refine ⟨⟨he.known, fun s' hs' => ?_⟩, trivial⟩
  rcases List.mem_append.1 hs' with hs' | hs'
  · exact he.statements s' hs'
  · rw [List.mem_singleton.1 hs']
    exact h

theorem report_keeps (issue : Issue) : Keeps ctx allowed (report issue) fun _ => True :=
  fun _ he => ⟨⟨he.known, he.statements⟩, trivial⟩

theorem claim_keeps (base : String) (position : Nat) :
    Keeps ctx allowed (claim base position) fun _ => True :=
  fun _ he => ⟨⟨he.known, he.statements⟩, trivial⟩

theorem claimExactly_keeps (name : String) :
    Keeps ctx allowed (claimExactly name) fun _ => True := by
  intro e he
  rw [claimExactly_apply]
  split
  · exact ⟨he, trivial⟩
  · exact ⟨⟨he.known, he.statements⟩, trivial⟩

/-- A request to the workspace. -/
theorem modifyWorkspace_keeps {f : Workspace → Workspace}
    (hf : ∀ w, w.KnownTo ctx.source → (f w).KnownTo ctx.source) :
    Keeps ctx allowed (modifyWorkspace f) fun _ => True :=
  fun _ he => ⟨⟨hf _ he.known, he.statements⟩, trivial⟩

theorem defineVariable_keeps (name : String) :
    Keeps ctx allowed (defineVariable name) fun _ => True :=
  modifyWorkspace_keeps fun w hw => Request.knownTo (.needVariable w name none) hw

/-- A request to the workspace that may be refused. -/
theorem tryWorkspace_keeps {f : Workspace → Except Issue (α × Workspace)} {P : α → Prop}
    (hf : ∀ w a w', w.KnownTo ctx.source → f w = .ok (a, w') → w'.KnownTo ctx.source ∧ P a) :
    Keeps ctx allowed (tryWorkspace f) fun answer => ∀ a, answer = .ok a → P a := by
  intro e he
  rw [tryWorkspace_apply]
  cases h : f e.workspace with
  | ok answer =>
      obtain ⟨a, w⟩ := answer
      obtain ⟨hknown, hP⟩ := hf _ _ _ he.known h
      refine ⟨⟨hknown, he.statements⟩, fun a' ha' => ?_⟩
      cases ha'
      exact hP
  | error issue => exact ⟨he, nofun⟩

/-! ## Providers -/

/-- Where forms are listed there are groups. -/
theorem groupByValue_ne_nil {es : List Exponent} (h : es ≠ []) : groupByValue es ≠ [] := by
  obtain ⟨e, he⟩ := List.exists_mem_of_ne_nil es h
  have hvalue : e.value ∈ sortStrings (es.map Exponent.value) :=
    mem_sortStrings.2 (List.mem_map_of_mem he)
  exact List.ne_nil_of_mem (List.mem_map_of_mem hvalue)

/-- No group is empty. -/
theorem ne_nil_of_mem_groupByValue {es : List Exponent} {group : String × List String}
    (h : group ∈ groupByValue es) : group.2 ≠ [] := by
  obtain ⟨value, hvalue, rfl⟩ := List.mem_map.1 h
  obtain ⟨e, he, rfl⟩ := List.mem_map.1 (mem_sortStrings.1 hvalue)
  refine List.ne_nil_of_mem (a := e.form) (mem_sortStrings.2 (List.mem_map_of_mem ?_))
  exact List.mem_filter.2 ⟨he, beq_self_eq_true _⟩

/-- If the glosses of a feature are looked up, then some are listed. -/
theorem sourceStatement_fits {x : Lexicon} {key : FeatureKey} {position : Nat}
    {part target : String} (hknown : (featureValues x key).isEmpty = false)
    (hposition : allowed position) :
    (sourceStatement x key position part target).Fits allowed := by
  unfold sourceStatement
  split
  · next haffix =>
    have hlisted : x.affixes key.category key.label ≠ [] := by
      intro hnil
      unfold featureValues at hknown
      rw [if_pos haffix, hnil] at hknown
      cases hknown
    exact {
      nonempty := by
        rw [glossChoice, ne_eq, List.map_eq_nil_iff]
        exact groupByValue_ne_nil hlisted
      tests := by
        intro branch hbranch
        obtain ⟨group, hgroup, rfl⟩ := List.mem_map.1 hbranch
        refine ⟨?_, fun equation hequation => ?_⟩
        · rw [Test.equations, ne_eq, List.map_eq_nil_iff]
          exact ne_nil_of_mem_groupByValue hgroup
        · obtain ⟨gloss, -, rfl⟩ := List.mem_map.1 hequation
          exact ⟨hposition, trivial⟩
      assigned := by
        intro branch hbranch
        obtain ⟨group, -, rfl⟩ := List.mem_map.1 hbranch
        exact trivial
      otherwise := by
        intro a ha
        cases ha
        exact trivial }
  · exact hposition

theorem readSource_keeps {position : Nat} (hposition : allowed position)
    (category label target : String) (affixFirst : Bool) :
    Keeps ctx allowed (readSource ctx position category label target affixFirst)
      fun _ => True := by
  have hread : ∀ key : FeatureKey, key.isSource = true → Keeps ctx allowed
      (tryWorkspace fun w => w.ensureAttribute ctx.source { key := key })
      fun answer => ∀ part, answer = .ok part → (featureValues ctx.source key).isEmpty = false := by
    intro key hsource
    refine tryWorkspace_keeps fun w part w' hw hok => ?_
    obtain ⟨hknown, hvalues⟩ := hw.ensureAttribute (fun _ => rfl) hok
    exact ⟨hknown, hvalues hsource⟩
  unfold readSource
  refine (hread _ rfl).bind fun first hfirst => ?_
  cases first with
  | ok part =>
      refine (emit_keeps (sourceStatement_fits (hfirst part rfl) hposition)).bind fun _ _ => ?_
      exact .pure trivial
  | error _ =>
      refine (hread _ rfl).bind fun second hsecond => ?_
      cases second with
      | ok part =>
          refine (emit_keeps (sourceStatement_fits (hsecond part rfl) hposition)).bind fun _ _ => ?_
          exact .pure trivial
      | error _ => exact .pure trivial

theorem prepareCoFeature_keeps (set : DisjointSet) (bindings : Bindings) {o : Occurrence}
    (hposition : allowed o.position) :
    Keeps ctx allowed (prepareCoFeature ctx set bindings o) fun _ => True := by
  unfold prepareCoFeature
  split
  · next bound _ =>
    exact (emit_keeps (s := .assign _ (.var bound)) trivial).bind fun _ _ => .pure trivial
  · exact readSource_keeps hposition _ _ _ _

theorem request_keeps (demand : MacroDemand) (hset : ∀ set, demand = .disjointMacro set →
      ctx.disjoint = some set) :
    Keeps ctx allowed (tryWorkspace fun w => demand.request ctx.target w) fun _ => True := by
  refine (tryWorkspace_keeps fun w handle w' hw hok => ⟨?_, trivial⟩).imp fun _ _ => trivial
  cases demand with
  | lemmaMacro category label => exact Request.knownTo (.needLemmaMacro hok) hw
  | disjointMacro set => exact Request.knownTo (.needDisjointMacro (hset set rfl) hok) hw

theorem callMacro_keeps {demand : MacroDemand} {prepare : Emit (Except Issue Unit)} {position : Nat}
    (hset : ∀ set, demand = .disjointMacro set → ctx.disjoint = some set)
    (hprepare : Keeps ctx allowed prepare fun _ => True) (hposition : allowed position)
    (target : String) :
    Keeps ctx allowed (callMacro ctx demand prepare position target) fun _ => True := by
  unfold callMacro
  refine (request_keeps demand hset).bind fun answer _ => ?_
  cases answer with
  | error issue => exact .pure trivial
  | ok handle =>
      refine hprepare.bind fun prepared _ => ?_
      cases prepared with
      | error issue => exact .pure trivial
      | ok _ =>
          refine (emit_keeps (s := .call handle.name position) hposition).bind fun _ _ => ?_
          refine (emit_keeps (s := .assign target (.var handle.result)) trivial).bind fun _ _ => ?_
          exact .pure trivial

theorem provide_keeps (bindings : Bindings) {o : Occurrence} (hposition : allowed o.position)
    (target : String) :
    Keeps ctx allowed (provide ctx bindings o target) fun _ => True := by
  unfold provide
  cases o.site with
  | source => exact readSource_keeps hposition _ _ _ _
  | affix _ => exact readSource_keeps hposition _ _ _ _
  | word =>
      cases hset : disjointSetOf? ctx o with
      | some set =>
          show Keeps ctx allowed (callDisjointMacro ctx set bindings o target) _
          rw [callDisjointMacro_eq]
          refine callMacro_keeps ?_ (prepareCoFeature_keeps set bindings hposition) hposition target
          rintro _ ⟨⟩
          exact disjoint_of_disjointSetOf? hset
      | none =>
          show Keeps ctx allowed (callLemmaMacro ctx o target) _
          rw [callLemmaMacro_eq]
          refine callMacro_keeps ?_ (.pure trivial) hposition target
          intro set hset
          cases hset

theorem bindLabel_keeps (occurrences : List Occurrence) (bindings : Bindings) {p : Provider}
    (hposition : allowed p.occurrence.position) :
    Keeps ctx allowed (bindLabel ctx occurrences bindings p) fun _ => True := by
  unfold bindLabel
  split
  · refine (claim_keeps _ _).bind fun name _ => ?_
    refine (provide_keeps bindings hposition name).bind fun result _ => ?_
    cases result with
    | ok _ => exact (defineVariable_keeps name).bind fun _ _ => .pure trivial
    | error issue => exact (report_keeps issue).bind fun _ _ => .pure trivial
  · exact .pure trivial

/-- **Match labels are bound** in form. -/
theorem bindLabels_keeps {r : Resolution}
    (hpositions : ∀ p ∈ r.providers, allowed p.occurrence.position) :
    Keeps ctx allowed (bindLabels ctx r) fun _ => True := by
  refine Keeps.foldlM (fun bindings p hp => bindLabel_keeps _ bindings (hpositions p ?_)) []
  rcases List.mem_append.1 hp with hp | hp
  · exact List.mem_of_mem_filter hp
  · exact List.mem_of_mem_filter hp

/-! ## Affixes and lemmas -/

theorem copyWithFallback_fits {name copied fallback : String} {s : Statement}
    (h : s ∈ copyWithFallback name copied fallback) : s.Fits allowed := by
  rcases List.mem_cons.1 h with rfl | h
  · exact trivial
  · rw [List.mem_singleton.1 h]
    refine ⟨List.cons_ne_nil _ _, fun branch hbranch => ?_, fun branch hbranch => ?_, nofun⟩
    · rw [List.mem_singleton.1 hbranch]
      refine ⟨List.cons_ne_nil _ _, fun equation hequation => ?_⟩
      rw [List.mem_singleton.1 hequation]
      exact ⟨trivial, trivial⟩
    · rw [List.mem_singleton.1 hbranch]
      exact trivial

theorem operand?_keeps (bindings : Bindings) (o : Occurrence) :
    Keeps ctx allowed (operand? bindings o) fun _ => True := by
  unfold operand?
  split
  · exact .pure trivial
  · split
    · exact .pure trivial
    · split
      · exact .pure trivial
      · next bound _ fallback _ =>
        dsimp only
        refine (claimExactly_keeps _).bind fun claimed _ => ?_
        cases claimed with
        | false => exact .pure trivial
        | true =>
            refine (defineVariable_keeps _).bind fun _ _ => ?_
            refine Keeps.bind (P := fun _ => True) (.forM _ fun s hs => emit_keeps ?_)
              fun _ _ => .pure trivial
            exact copyWithFallback_fits hs

theorem usableFeatures_keeps (bindings : Bindings) (category : String)
    (forms : String → List Exponent) (occurrences : List Occurrence) :
    Keeps ctx allowed (usableFeatures bindings category forms occurrences) fun _ => True := by
  induction occurrences with
  | nil => exact .pure trivial
  | cons o rest ih =>
      unfold usableFeatures
      split
      · exact (report_keeps _).bind fun _ _ => ih
      · refine (operand?_keeps bindings o).bind fun operand _ => ?_
        cases operand with
        | none => exact ih
        | some operand => exact ih.bind fun more _ => .pure trivial

/-- Rows that have a value for every feature, and put out something that is given. -/
def RowsFit (us : List Usable) (rows : List (List String × Value)) : Prop :=
  ∀ row ∈ rows, row.1.length = us.length ∧ row.2.Within fun _ => False

/-- If something is compared with a variable, then a row tests something. -/
theorem storedEquations_ne_nil {us : List Usable} {values : List String}
    (hstored : ¬ (us.all fun u => u.operand.name?.isNone) = true)
    (hlength : values.length = us.length) : storedEquations us values ≠ [] := by
  obtain ⟨u, hu, hname⟩ : ∃ u ∈ us, u.operand.name?.isNone ≠ true := by
    simpa using hstored
  obtain ⟨name, hname⟩ := Option.ne_none_iff_exists'.1 (mt Option.isNone_iff_eq_none.2 hname)
  obtain ⟨i, hi, rfl⟩ := List.mem_iff_getElem.1 hu
  have hmem : (us[i], values[i]) ∈ us.zip values := by
    rw [← List.getElem_zip (h := by simp [hlength, hi])]
    exact List.getElem_mem _
  have hequation : us[i].operand.name?.map (fun name => (⟨.var name, .tag values[i]⟩ : Equation)) =
      some ⟨.var name, .tag values[i]⟩ := by
    rw [hname, Option.map_some]
  exact List.ne_nil_of_mem (List.mem_filterMap.2 ⟨_, hmem, hequation⟩)

/-- A table over rows that fit has a branch for each, which tests something. -/
theorem storedTable_fits {us : List Usable} {rows : List (List String × Value)} {other : Value}
    (hstored : ¬ (us.all fun u => u.operand.name?.isNone) = true) (hrows : RowsFit us rows)
    (hnonempty : rows ≠ []) (hother : other.Within allowed) (name : String) :
    (storedTable name us rows other).Fits allowed where
  nonempty := by
    rw [storedTable, table, ne_eq, List.map_eq_nil_iff, List.map_eq_nil_iff]
    exact hnonempty
  tests := by
    intro branch hbranch
    obtain ⟨_, hmapped, rfl⟩ := List.mem_map.1 hbranch
    obtain ⟨row, hrow, rfl⟩ := List.mem_map.1 hmapped
    refine ⟨storedEquations_ne_nil hstored (hrows row hrow).1, fun equation hequation => ?_⟩
    obtain ⟨⟨u, value⟩, -, hsome⟩ := List.mem_filterMap.1 hequation
    obtain ⟨stored, -, rfl⟩ := Option.map_eq_some_iff.1 hsome
    exact ⟨trivial, trivial⟩
  assigned := by
    intro branch hbranch
    obtain ⟨_, hmapped, rfl⟩ := List.mem_map.1 hbranch
    obtain ⟨row, hrow, rfl⟩ := List.mem_map.1 hmapped
    exact (hrows row hrow).2.mono fun _ => False.elim
  otherwise := by
    intro a ha
    cases ha
    exact hother

theorem emitRows_keeps {us : List Usable} {rows : List (List String × Value)} {other : Value}
    (hrows : RowsFit us rows) (hother : other.Within allowed) (base : String) (position : Nat)
    (missing? : Option Issue) :
    Keeps ctx allowed (emitRows base position us rows other missing?)
      fun output => ∀ v ∈ output, v.Within fun _ => False := by
  unfold emitRows
  cases rows with
  | nil =>
      refine Keeps.bind (P := fun _ => True) ?_ fun _ _ => .pure nofun
      cases missing? with
      | none => exact .pure trivial
      | some issue => exact report_keeps issue
  | cons row rest =>
      dsimp only
      split
      · refine .pure fun v hv => ?_
        cases hv
        exact (hrows row List.mem_cons_self).2
      · next hstored =>
        refine (claim_keeps base position).bind fun name _ => ?_
        refine (defineVariable_keeps name).bind fun _ _ => ?_
        refine (emit_keeps (s := .choose (storedTable name us (row :: rest) other)) ?_).bind
          fun _ _ => .pure fun v hv => ?_
        · exact storedTable_fits hstored hrows (List.cons_ne_nil _ _) hother name
        · cases hv
          exact trivial

/-- A table whose rows fit is emitted in form.  What is put out is given, or a variable. -/
theorem emitTable_keeps {rows : List Usable → List (List String × Value)} {other : Value}
    (hrows : ∀ us, RowsFit us (rows us)) (hother : other.Within allowed) (bindings : Bindings)
    (position : Nat) (category : String) (forms : String → List Exponent)
    (occurrences : List Occurrence) (base : List Usable → String)
    (missing? : List Usable → Option Issue) :
    Keeps ctx allowed
      (emitTable bindings position category forms occurrences base rows other missing?)
      fun output => ∀ v ∈ output, v.Within fun _ => False :=
  (usableFeatures_keeps bindings category forms occurrences).bind fun us _ =>
    emitRows_keeps (hrows us) hother (base us) position (missing? us)

theorem rowsFit_glossRows (us : List Usable) : RowsFit us (glossRows us) := by
  intro row hrow
  obtain ⟨⟨form, values⟩, hcandidate, rfl⟩ := List.mem_map.1 hrow
  have hcarried := (mem_affixCandidates_iff.1 hcandidate).2
  exact ⟨(carriedValues?_eq_some_iff.1 hcarried).length_eq.symm, trivial⟩

/-- **An affix is emitted** in form. -/
theorem emitAffix_keeps (bindings : Bindings) (position : Nat) (category : String)
    (occurrences : List Occurrence) :
    Keeps ctx allowed (emitAffix ctx bindings position category occurrences)
      fun output => ∀ v ∈ output, v.Within fun _ => False := by
  rw [emitAffix_eq]
  refine emitTable_keeps rowsFit_glossRows ?_ bindings position category _ _ _ _
  exact trivial

theorem rowsFit_lemmaRows (us : List Usable) : RowsFit us (lemmaRows us) := by
  intro row hrow
  obtain ⟨⟨values, form⟩, hselection, rfl⟩ := List.mem_map.1 hrow
  obtain ⟨combination, hcombination, hbest⟩ := List.mem_filterMap.1 hselection
  obtain ⟨_, -, hpair⟩ := Option.map_eq_some_iff.1 hbest
  obtain ⟨rfl, -⟩ := Prod.mk.inj hpair
  exact ⟨(mem_combinations_iff.1 hcombination).length_eq.symm, trivial⟩

/-- **A lemma is chosen** in form, by a word at a position that may occur. -/
theorem emitLemma_keeps {position : Nat} (hposition : allowed position) (bindings : Bindings)
    (category : String) (occurrences : List Occurrence) :
    Keeps ctx allowed (emitLemma ctx bindings position category occurrences)
      fun output => ∀ v ∈ output, v.Within fun _ => False := by
  rw [emitLemma_eq]
  refine emitTable_keeps rowsFit_lemmaRows ?_ bindings position category _ _ _ _
  exact hposition

end TransferRules.Compile

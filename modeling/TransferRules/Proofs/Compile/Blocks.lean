import Mathlib.Data.List.Nodup
import TransferRules.Proofs.Compile.Lookup
import TransferRules.Proofs.Compile.Repetition
import TransferRules.Proofs.Compile.Reporting

/-!
# How match labels are bound

Match labels are bound one after the other, each by a block of statements of its own: a feature is
read from the source word, or a macro is called for the word and its answer kept.  Before the macro
of a disjoint set is called, the variable of the co-feature is set.  Which label a block binds can
be told from the variable that it sets, since every label that is used claims a variable of its own.

The binding of the labels is followed as a run, which grows at its end.  One step of it has three
outcomes: the label is not used, or its provider is refused, or a block is added.

## Main Definitions

* `BoundLabel` — a label that is bound, with its provider and its variable
* `labelsFor` — the variables that the labels of some providers claim
* `Adds` — what a computation adds to the statements of a rule
* `Prepares` — what sets the variable of the co-feature, and the word from which the value comes
* `Block` — the statements for one label
* `BindStep`, `Binds` — one step of a run, and a run
* `openFor` — the first part of a compilation, with the labels of some providers

## Main Statements

* `nodup_labelsFor` — all labels have variables of their own
* `bindLabel_step` — **step lemma**: the outcomes of binding one label
* `bindLabels_binds` — **run lemma**: all labels are bound by a run
* `Binds.run`, `Binds.statements_eq`, `Binds.sublist`, `Binds.owned` — what a run leaves behind
* `openRule_binds` — the first part of a compilation is such a run
-/

namespace TransferRules.Compile

open TransferRules.Action
open TransferRules.Ordered
open TransferRules.Text
open TransferRules.Transfer

/-! ## Names of variables -/

theorem variableCandidate_injective (base : String) (position : Nat) (m n : Nat)
    (h : variableCandidate base position m = variableCandidate base position n) : m = n := by
  have hlonger : ∀ k,
      variableCandidate base position 0 ≠ variableCandidate base position (k + 1) := by
    intro k hk
    have hlength := congrArg String.length hk
    have hsign : String.length "_" = 1 := rfl
    simp only [variableCandidate, String.length_append, hsign] at hlength
    omega
  cases m with
  | zero =>
      cases n with
      | zero => rfl
      | succ n => exact absurd h (hlonger n)
  | succ m =>
      cases n with
      | zero => exact absurd h.symm (hlonger m)
      | succ n => exact numbered_injective _ _ _ h

/-- A variable that is claimed was not in use. -/
theorem unclaimed_notMem (base : String) (position : Nat) (claimed : List String) :
    unclaimed base position claimed ∉ claimed := by
  unfold unclaimed
  split
  · obtain ⟨m, -, heq, hfree, -⟩ :=
      firstFree_spec (variableCandidate_injective base position) 0 claimed
    rwa [heq]
  · next hfree => exact hfree

/-! ## Labels -/

/-- A match label that is bound: its provider, and the variable. -/
structure BoundLabel where
  provider : Provider
  name : String
  deriving Repr, DecidableEq

namespace BoundLabel

/-- The occurrence that provides the value. -/
def occurrence (b : BoundLabel) : Occurrence := b.provider.occurrence

/-- The binding of the label. -/
def entry (b : BoundLabel) : String × Bound :=
  (b.provider.label, ⟨b.name, b.occurrence.feature.label, b.occurrence.feature.fallback⟩)

/-- Whether a label is bound to the co-feature of a disjoint set. -/
def IsCoFeature (set : DisjointSet) (b : BoundLabel) : Prop :=
  b.occurrence.feature.label = set.coFeature

instance (set : DisjointSet) (b : BoundLabel) : Decidable (b.IsCoFeature set) :=
  inferInstanceAs (Decidable (_ = _))

end BoundLabel

/-- The variable that is claimed for the label of a provider. -/
def variableFor (p : Provider) (claimed : List String) : String :=
  unclaimed ("v_" ++ identifier (p.occurrence.category ++ "_" ++ p.occurrence.feature.label))
    p.occurrence.position claimed

/-- The labels of some providers with the variables that are claimed for them, one after the other.
A label that is not used claims none. -/
def labelsFor (occurrences : List Occurrence) : List Provider → List String → List BoundLabel
  | [], _ => []
  | p :: providers, claimed =>
    if isConsumed occurrences p.label then
      ⟨p, variableFor p claimed⟩ ::
        labelsFor occurrences providers (variableFor p claimed :: claimed)
    else labelsFor occurrences providers claimed

section Labels

variable {occurrences : List Occurrence} {providers : List Provider} {claimed : List String}

/-- What has been claimed before counts for the labels of further providers. -/
theorem labelsFor_append (providers more : List Provider) (claimed : List String) :
    labelsFor occurrences (providers ++ more) claimed =
      labelsFor occurrences providers claimed ++ labelsFor occurrences more
        (((labelsFor occurrences providers claimed).map BoundLabel.name).reverse ++ claimed) := by
  induction providers generalizing claimed with
  | nil => rfl
  | cons p providers ih =>
      rw [List.cons_append, labelsFor, labelsFor]
      split
      · rw [ih, List.map_cons, List.reverse_cons, List.append_assoc]
        rfl
      · exact ih claimed

/-- The labels are in the order of the providers. -/
theorem provider_labelsFor_sublist (providers : List Provider) (claimed : List String) :
    ((labelsFor occurrences providers claimed).map BoundLabel.provider).Sublist providers := by
  induction providers generalizing claimed with
  | nil => exact .slnil
  | cons p providers ih =>
      rw [labelsFor]
      split
      · exact (ih _).cons_cons p
      · exact (ih _).cons p

/-- Only a label that is used claims a variable. -/
theorem isConsumed_of_mem_labelsFor {b : BoundLabel}
    (hb : b ∈ labelsFor occurrences providers claimed) :
    isConsumed occurrences b.provider.label = true := by
  induction providers generalizing claimed with
  | nil => cases hb
  | cons p providers ih =>
      rw [labelsFor] at hb
      split at hb
      · next hused =>
        rcases List.mem_cons.1 hb with rfl | hb
        · exact hused
        · exact ih hb
      · exact ih hb

/-- **All labels have variables of their own**, which were not in use before. -/
theorem nodup_labelsFor (providers : List Provider) (claimed : List String) :
    ((labelsFor occurrences providers claimed).map BoundLabel.name).Nodup ∧
      ∀ b ∈ labelsFor occurrences providers claimed, b.name ∉ claimed := by
  induction providers generalizing claimed with
  | nil => exact ⟨List.nodup_nil, nofun⟩
  | cons p providers ih =>
      rw [labelsFor]
      split
      · obtain ⟨hnodup, hfresh⟩ := ih (variableFor p claimed :: claimed)
        refine ⟨List.nodup_cons.2 ⟨fun hmem => ?_, hnodup⟩,
          List.forall_mem_cons.2 ⟨?_, fun b hb => ?_⟩⟩
        · obtain ⟨b, hb, heq⟩ := List.mem_map.1 hmem
          exact hfresh b hb (heq ▸ List.mem_cons_self)
        · exact unclaimed_notMem _ _ _
        · exact fun hmem => hfresh b hb (List.mem_cons_of_mem _ hmem)
      · exact ih claimed

end Labels

/-! ## Blocks -/

/-- Of the labels that are bound to the co-feature of a disjoint set, the first by name. -/
structure IsFirstNamed (bound : List BoundLabel) (set : DisjointSet) (b : BoundLabel) : Prop where
  mem : b ∈ bound
  isCoFeature : b.IsCoFeature set
  first : ∀ other ∈ bound, other.IsCoFeature set → ¬ other.name < b.name

/-- What sets the variable of the co-feature before the macro of a disjoint set is called for an
occurrence, and the position of the word from which the value comes.  The workspace is that before
and after. -/
inductive Prepares (ctx : Lexicons) (bound : List BoundLabel) (set : DisjointSet)
    (o : Occurrence) (w : Workspace) : Statement → Nat → Workspace → Prop where
  | read {isAffix : Bool} {part : String} {w' : Workspace}
      (hnone : ∀ b ∈ bound, ¬ b.IsCoFeature set)
      (hfinds : Finds ctx o.sourceCategory set.coFeature true w isAffix part w') :
      Prepares ctx bound set o w
        (sourceStatement ctx.source ⟨o.sourceCategory, set.coFeature, isAffix, true⟩ o.position part
          (disjointNames set).2.2) o.position w'
  | copied {b : BoundLabel} (hfirst : IsFirstNamed bound set b) :
      Prepares ctx bound set o w (.assign (disjointNames set).2.2 (.var b.name))
        b.occurrence.position w

/-- The statements that bind a label, after others have been bound.  The workspace is that before
and after. -/
inductive Block (ctx : Lexicons) (bound : List BoundLabel) (b : BoundLabel) (w : Workspace) :
    List Statement → Workspace → Prop where
  | read {isAffix : Bool} {part : String} {w' : Workspace} (hsite : b.occurrence.site ≠ .word)
      (hfinds : Finds ctx b.occurrence.sourceCategory b.occurrence.feature.label
        (b.occurrence.site != .source) w isAffix part w') :
      Block ctx bound b w
        [sourceStatement ctx.source
          ⟨b.occurrence.sourceCategory, b.occurrence.feature.label, isAffix, true⟩
          b.occurrence.position part b.name] w'
  | lemmaMacro {handle : MacroHandle} {w' : Workspace} (hsite : b.occurrence.site = .word)
      (hset : disjointSetOf? ctx b.occurrence = none)
      (hanswered : w.ensureLemmaMacro ctx.target b.occurrence.category b.occurrence.feature.label =
        .ok (handle, w')) :
      Block ctx bound b w
        [.call handle.name b.occurrence.position, .assign b.name (.var handle.result)] w'
  | disjointMacro {set : DisjointSet} {handle : MacroHandle} {prepared : Statement} {origin : Nat}
      {w₁ w' : Workspace} (hset : disjointSetOf? ctx b.occurrence = some set)
      (hanswered : w.ensureDisjointMacro ctx.target set = .ok (handle, w₁))
      (hprepares : Prepares ctx bound set b.occurrence w₁ prepared origin w') :
      Block ctx bound b w
        [prepared, .call handle.name b.occurrence.position, .assign b.name (.var handle.result)] w'

variable {ctx : Lexicons} {bound : List BoundLabel} {set : DisjointSet} {o : Occurrence}
  {occurrences : List Occurrence} {e : Emission}

/-- An occurrence that is part of a disjoint set is on a target word. -/
theorem site_of_disjointSetOf? (h : disjointSetOf? ctx o = some set) : o.site = .word := by
  unfold disjointSetOf? at h
  split at h
  · next hsite => exact hsite
  · cases h

/-- The macro that is asked for on a target word. -/
theorem macroDemand?_of_word (hsite : o.site = .word) :
    macroDemand? ctx o = some ((disjointSetOf? ctx o).elim
      (.lemmaMacro o.category o.feature.label) .disjointMacro) := by
  unfold macroDemand?
  rw [hsite]
  cases disjointSetOf? ctx o with
  | none => rfl
  | some set => rfl

/-- What is read from a source word is read in one step. -/
theorem exists_sourceStatement_eq_step (x : Lexicon) (key : FeatureKey) (position : Nat)
    (part target : String) : ∃ s, sourceStatement x key position part target = .step s := by
  unfold sourceStatement
  split
  · exact ⟨_, rfl⟩
  · exact ⟨_, rfl⟩

/-- And so is the variable of the co-feature set. -/
theorem Prepares.exists_step {prepared : Statement} {origin : Nat} {w w' : Workspace}
    (h : Prepares ctx bound set o w prepared origin w') : ∃ s, prepared = .step s := by
  cases h with
  | read _ _ => exact exists_sourceStatement_eq_step _ _ _ _ _
  | copied _ => exact ⟨_, rfl⟩

/-! ## What is emitted -/

/-- A computation adds some statements if all goes well, and otherwise none; no variable is
claimed. -/
def Adds (P : Workspace → List Statement → Workspace → Prop) (m : Emit (Except Issue Unit)) :
    Prop :=
  ∀ e, (m e).2.claimed = e.claimed ∧
    ((∃ new, P e.workspace new (m e).2.workspace ∧ (m e).1 = .ok () ∧
        (m e).2.statements = e.statements ++ new) ∨
      ∃ issue, (m e).1 = .error issue ∧ (m e).2.statements = e.statements)

theorem Adds.imp {P Q : Workspace → List Statement → Workspace → Prop}
    {m : Emit (Except Issue Unit)} (h : Adds P m) (himp : ∀ {w new w'}, P w new w' → Q w new w') :
    Adds Q m :=
  fun e => (h e).imp_right (Or.imp_left fun ⟨new, hP, hemitted⟩ => ⟨new, himp hP, hemitted⟩)

/-- One statement is emitted for a source word if something is found. -/
theorem readSource_adds (ctx : Lexicons) (position : Nat) (category label target : String)
    (affixFirst : Bool) :
    Adds (fun w new w' => ∃ isAffix part, Finds ctx category label affixFirst w isAffix part w' ∧
        new = [sourceStatement ctx.source ⟨category, label, isAffix, true⟩ position part target])
      (readSource ctx position category label target affixFirst) := by
  intro e
  rcases finds_or_refused ctx category label affixFirst e.workspace with
    ⟨isAffix, part, w', hfinds⟩ | hrefused
  · rw [readSource_finds position target hfinds]
    exact ⟨rfl, .inl ⟨_, ⟨isAffix, part, hfinds, rfl⟩, rfl, rfl⟩⟩
  · rw [readSource_refused position target hrefused]
    exact ⟨rfl, .inr ⟨_, rfl, rfl⟩⟩

/-- The variable in which the co-feature is found is that of the label that is first by name. -/
theorem coVariable?_eq_some {name : String}
    (h : Bindings.coVariable? (bound.map BoundLabel.entry) set.coFeature = some name) :
    ∃ b, IsFirstNamed bound set b ∧ b.name = name := by
  have hmem : ∀ n, n ∈ (((bound.map BoundLabel.entry).filter fun entry =>
      entry.2.feature == set.coFeature).map fun entry => entry.2.name) ↔
        ∃ b ∈ bound, b.IsCoFeature set ∧ b.name = n := by
    simp [BoundLabel.entry, BoundLabel.IsCoFeature, and_assoc]
  obtain ⟨hname, hleast⟩ := least_of_head?_sortStrings h
  obtain ⟨b, hb, hfeature, rfl⟩ := (hmem name).1 hname
  exact ⟨b, ⟨hb, hfeature, fun other hother hco =>
    hleast other.name ((hmem other.name).2 ⟨other, hother, hco, rfl⟩)⟩, rfl⟩

theorem coVariable?_eq_none
    (h : Bindings.coVariable? (bound.map BoundLabel.entry) set.coFeature = none) :
    ∀ b ∈ bound, ¬ b.IsCoFeature set := by
  rw [Bindings.coVariable?, head?_sortStrings_eq_none_iff, List.map_eq_nil_iff,
    List.filter_eq_nil_iff] at h
  exact fun b hb hfeature => h b.entry (List.mem_map_of_mem hb) (beq_iff_eq.2 hfeature)

/-- The variable of the co-feature is set. -/
theorem prepareCoFeature_adds :
    Adds (fun w new w' => ∃ prepared origin, new = [prepared] ∧
        Prepares ctx bound set o w prepared origin w')
      (prepareCoFeature ctx set (bound.map BoundLabel.entry) o) := by
  intro e
  unfold prepareCoFeature
  cases hco : Bindings.coVariable? (bound.map BoundLabel.entry) set.coFeature with
  | some name =>
      obtain ⟨b, hfirst, rfl⟩ := coVariable?_eq_some hco
      exact ⟨rfl, .inl ⟨_, ⟨_, _, rfl, .copied hfirst⟩, rfl, rfl⟩⟩
  | none =>
      refine (readSource_adds ctx o.position o.sourceCategory set.coFeature _ true e).imp_right
        (Or.imp_left ?_)
      rintro ⟨_, ⟨isAffix, part, hfinds, rfl⟩, hemitted⟩
      exact ⟨_, ⟨_, _, rfl, .read (coVariable?_eq_none hco) hfinds⟩, hemitted⟩

/-- A macro is called after what prepares the call, and its answer is kept. -/
theorem callMacro_adds {demand : MacroDemand} {prepare : Emit (Except Issue Unit)}
    {P : Workspace → List Statement → Workspace → Prop} (h : Adds P prepare) (position : Nat)
    (target : String) :
    Adds (fun w new w' => ∃ handle w₁ prepared, demand.request ctx.target w = .ok (handle, w₁) ∧
        P w₁ prepared w' ∧
        new = prepared ++ [.call handle.name position, .assign target (.var handle.result)])
      (callMacro ctx demand prepare position target) := by
  intro e
  unfold callMacro
  rw [bind_apply, tryWorkspace_apply]
  cases hanswered : demand.request ctx.target e.workspace with
  | error issue => exact ⟨rfl, .inr ⟨issue, rfl, rfl⟩⟩
  | ok answer =>
      obtain ⟨handle, workspace⟩ := answer
      dsimp only
      rw [bind_apply]
      obtain ⟨hclaimed, hprepared⟩ := h { e with workspace }
      rcases hprepared with ⟨prepared, hP, hok, hstatements⟩ | ⟨issue, herror, hstatements⟩
      · rw [hok]
        refine ⟨hclaimed, .inl ⟨_, ⟨handle, workspace, prepared, hanswered, hP, rfl⟩, rfl, ?_⟩⟩
        show (prepare { e with workspace }).2.statements ++ [_] ++ [_] = _
        rw [hstatements, List.append_assoc, List.append_assoc]
        rfl
      · rw [herror]
        exact ⟨hclaimed, .inr ⟨issue, rfl, hstatements⟩⟩

/-- A provider emits a block. -/
theorem provide_adds (b : BoundLabel) :
    Adds (Block ctx bound b)
      (provide ctx (bound.map BoundLabel.entry) b.occurrence b.name) := by
  unfold provide
  cases hsite : b.occurrence.site with
  | source =>
      refine (readSource_adds ctx _ _ _ _ _).imp ?_
      rintro w _ w' ⟨isAffix, part, hfinds, rfl⟩
      exact .read (by rw [hsite]; nofun) (by rw [hsite]; exact hfinds)
  | affix index =>
      refine (readSource_adds ctx _ _ _ _ _).imp ?_
      rintro w _ w' ⟨isAffix, part, hfinds, rfl⟩
      exact .read (by rw [hsite]; nofun) (by rw [hsite]; exact hfinds)
  | word =>
      dsimp only
      cases hset : disjointSetOf? ctx b.occurrence with
      | none =>
          have hready : Adds (fun w new w' => new = [] ∧ w' = w)
              (pure (.ok ()) : Emit (Except Issue Unit)) :=
            fun e => ⟨rfl, .inl ⟨[], ⟨rfl, rfl⟩, rfl, (List.append_nil _).symm⟩⟩
          dsimp only
          rw [callLemmaMacro_eq]
          refine (callMacro_adds hready _ _).imp ?_
          rintro w _ w' ⟨handle, _, _, hanswered, ⟨rfl, rfl⟩, rfl⟩
          exact .lemmaMacro hsite hset hanswered
      | some set =>
          dsimp only
          rw [callDisjointMacro_eq]
          refine (callMacro_adds prepareCoFeature_adds _ _).imp ?_
          rintro w _ w' ⟨handle, _, _, hanswered, ⟨prepared, origin, rfl, hprepares⟩, rfl⟩
          exact .disjointMacro hset hanswered hprepares

/-! ## Runs -/

/-- The outcome of binding the label of a provider, after others have been bound: the labels and
statements that are added, and the state then. -/
inductive BindStep (ctx : Lexicons) (occurrences : List Occurrence) (bound : List BoundLabel)
    (p : Provider) (e : Emission) : List BoundLabel → List Statement → Emission → Prop where
  | unused (hunused : isConsumed occurrences p.label = false) :
      BindStep ctx occurrences bound p e [] [] e
  | refused {e' : Emission} (hused : isConsumed occurrences p.label = true)
      (hclaimed : e'.claimed = variableFor p e.claimed :: e.claimed)
      (hunresolved : e'.report.Unresolved) :
      BindStep ctx occurrences bound p e [] [] e'
  | added {block : List Statement} {w : Workspace} {e' : Emission}
      (hused : isConsumed occurrences p.label = true)
      (hclaimed : e'.claimed = variableFor p e.claimed :: e.claimed)
      (hblock : Block ctx bound ⟨p, variableFor p e.claimed⟩ e.workspace block w)
      (hworkspace : e'.workspace = w.ensureVariable (variableFor p e.claimed) none) :
      BindStep ctx occurrences bound p e [⟨p, variableFor p e.claimed⟩] block e'

/-- A run in which the labels of some providers are bound one after the other: the labels that are
bound by then, their statements, and the state. -/
inductive Binds (ctx : Lexicons) (occurrences : List Occurrence) (e : Emission) :
    List Provider → List BoundLabel → List Statement → Emission → Prop where
  | nil : Binds ctx occurrences e [] [] [] e
  | snoc {done : List Provider} {p : Provider} {bound more : List BoundLabel}
      {statements block : List Statement} {e' e'' : Emission}
      (h : Binds ctx occurrences e done bound statements e')
      (hrun : bindLabel ctx occurrences (bound.map BoundLabel.entry) p e' =
        ((bound ++ more).map BoundLabel.entry, e''))
      (hstatements : e''.statements = e'.statements ++ block)
      (hstep : BindStep ctx occurrences bound p e' more block e'') :
      Binds ctx occurrences e (done ++ [p]) (bound ++ more) (statements ++ block) e''

/-- **Step lemma.**  The label of a provider is bound, or nothing is bound and nothing is added. -/
theorem bindLabel_step (occurrences : List Occurrence) (bound : List BoundLabel) (p : Provider)
    (e : Emission) :
    ∃ more block e', bindLabel ctx occurrences (bound.map BoundLabel.entry) p e =
        ((bound ++ more).map BoundLabel.entry, e') ∧
      e'.statements = e.statements ++ block ∧ BindStep ctx occurrences bound p e more block e' := by
  cases hused : isConsumed occurrences p.label with
  | false =>
      refine ⟨[], [], e, ?_, (List.append_nil _).symm, .unused hused⟩
      rw [bindLabel_eq, hused, List.append_nil]
      rfl
  | true =>
      let name := variableFor p e.claimed
      let provided := provide ctx (bound.map BoundLabel.entry) p.occurrence name
        { e with claimed := name :: e.claimed }
      have hbind : bindLabel ctx occurrences (bound.map BoundLabel.entry) p e =
          settleLabel (bound.map BoundLabel.entry) p name provided.1 provided.2 := by
        rw [bindLabel_eq, hused]
        rfl
      rw [hbind]
      obtain ⟨hclaimed, hprovided⟩ := @provide_adds ctx bound ⟨p, name⟩
        { e with claimed := name :: e.claimed }
      rcases hprovided with ⟨block, hblock, hok, hstatements⟩ | ⟨issue, herror, hstatements⟩
      · rw [show provided.1 = .ok () from hok]
        refine ⟨[⟨p, name⟩], block,
          { provided.2 with workspace := provided.2.workspace.ensureVariable name none }, ?_,
          hstatements, .added hused hclaimed hblock rfl⟩
        rw [List.map_append]
        rfl
      · rw [show provided.1 = .error issue from herror]
        obtain ⟨category, label, rfl⟩ := provide_failsUnresolved _ _ _ _ issue herror
        refine ⟨[], [],
          { provided.2 with
            report := provided.2.report.note (.unresolvedFeature category label) }, ?_,
          hstatements.trans (List.append_nil _).symm,
          .refused hused hclaimed ⟨category, label, Report.has_note _ _⟩⟩
        rw [List.append_nil]
        rfl

namespace Binds

variable {done : List Provider} {statements : List Statement} {e' : Emission}

/-- A run goes on for further providers. -/
theorem extend (h : Binds ctx occurrences e done bound statements e') (todo : List Provider) :
    ∃ bound' statements' e'',
      (todo.foldlM (bindLabel ctx occurrences) (bound.map BoundLabel.entry) : Emit Bindings) e' =
          (bound'.map BoundLabel.entry, e'') ∧
        Binds ctx occurrences e (done ++ todo) bound' statements' e'' := by
  induction todo generalizing done bound statements e' with
  | nil => exact ⟨bound, statements, e', rfl, (List.append_nil done).symm ▸ h⟩
  | cons p todo ih =>
      obtain ⟨more, block, e'', hrun, hstatements, hstep⟩ :=
        @bindLabel_step ctx occurrences bound p e'
      obtain ⟨bound', statements', last, hrest, hlast⟩ := ih (h.snoc hrun hstatements hstep)
      refine ⟨bound', statements', last, ?_, List.append_cons done p todo ▸ hlast⟩
      rw [List.foldlM_cons, bind_apply, hrun]
      exact hrest

/-- The state is the one in which the labels of these providers have been bound. -/
theorem run (h : Binds ctx occurrences e done bound statements e') :
    (done.foldlM (bindLabel ctx occurrences) [] : Emit Bindings) e =
      (bound.map BoundLabel.entry, e') := by
  induction h with
  | nil => rfl
  | snoc _ hrun _ _ ih =>
      rw [List.foldlM_append, bind_apply, ih]
      exact hrun

/-- All that is added are the blocks. -/
theorem statements_eq (h : Binds ctx occurrences e done bound statements e') :
    e'.statements = e.statements ++ statements := by
  induction h with
  | nil => exact (List.append_nil _).symm
  | snoc _ _ hstatements _ ih => rw [hstatements, ih, List.append_assoc]

/-- A label that is used claims its variable, whether it is bound or not. -/
theorem claimed_eq (h : Binds ctx occurrences e done bound statements e') :
    e'.claimed =
      ((labelsFor occurrences done e.claimed).map BoundLabel.name).reverse ++ e.claimed := by
  induction h with
  | nil => rfl
  | @snoc done p _ _ _ _ e' _ _ _ _ hstep ih =>
      rw [labelsFor_append, ← ih, List.map_append, List.reverse_append, List.append_assoc, ← ih]
      cases hstep with
      | unused hunused => simp [labelsFor, hunused]
      | refused hused hclaimed _ => simp [labelsFor, hused, hclaimed]
      | added hused hclaimed _ _ => simp [labelsFor, hused, hclaimed]

/-- **The labels that are bound** are some of those that claim a variable. -/
theorem sublist (h : Binds ctx occurrences e done bound statements e') :
    bound.Sublist (labelsFor occurrences done e.claimed) := by
  induction h with
  | nil => exact .slnil
  | @snoc done p _ _ _ _ e' _ hbefore _ _ hstep ih =>
      rw [labelsFor_append, ← hbefore.claimed_eq]
      refine ih.append ?_
      cases hstep with
      | unused _ => exact List.nil_sublist _
      | refused _ _ _ => exact List.nil_sublist _
      | added hused _ _ _ =>
          rw [labelsFor, if_pos hused]
          exact .refl _

/-- They have different variables. -/
theorem nodup (h : Binds ctx occurrences e done bound statements e') :
    (bound.map BoundLabel.name).Nodup :=
  (nodup_labelsFor done e.claimed).1.sublist (h.sublist.map _)

/-- No variable is claimed twice. -/
theorem distinct (h : Binds ctx occurrences e done bound statements e')
    (hclaimed : e.claimed.Nodup) : e'.claimed.Nodup := by
  obtain ⟨hnodup, hfresh⟩ := @nodup_labelsFor occurrences done e.claimed
  rw [h.claimed_eq, List.nodup_append]
  refine ⟨List.nodup_reverse.2 hnodup, hclaimed, fun name hname other hother heq => ?_⟩
  obtain ⟨b, hb, rfl⟩ := List.mem_map.1 (List.mem_reverse.1 hname)
  exact hfresh b hb (heq ▸ hother)

/-- Those of the labels that are bound are claimed. -/
theorem mem_claimed (h : Binds ctx occurrences e done bound statements e') {b : BoundLabel}
    (hb : b ∈ bound) : b.name ∈ e'.claimed := by
  rw [h.claimed_eq]
  exact List.mem_append_left _ (List.mem_reverse.2 (List.mem_map_of_mem (h.sublist.subset hb)))

/-- No others are, unless a feature is reported. -/
theorem owned (h : Binds ctx occurrences e done bound statements e') :
    ∀ name ∈ e'.claimed,
      name ∈ e.claimed ∨ name ∈ bound.map BoundLabel.name ∨ e'.report.Unresolved := by
  induction h with
  | nil => exact fun name hname => .inl hname
  | @snoc _ p bound more _ _ e' e'' _ hrun _ hstep ih =>
      have hreport : e'.report.Unresolved → e''.report.Unresolved := by
        intro hunresolved
        have hprefix := (@bindLabel_composed ctx occurrences
          (bound.map BoundLabel.entry) p).unheeding.prefix_report e'
        rw [hrun] at hprefix
        exact hunresolved.mono hprefix.subset
      have hearlier : ∀ name ∈ e'.claimed, name ∈ e.claimed ∨
          name ∈ (bound ++ more).map BoundLabel.name ∨ e''.report.Unresolved := by
        intro name hname
        rw [List.map_append, List.mem_append]
        exact (ih name hname).imp_right (Or.imp .inl hreport)
      cases hstep with
      | unused _ => exact hearlier
      | refused _ _ hunresolved => exact fun _ _ => .inr (.inr hunresolved)
      | added _ hclaimed _ _ =>
          intro name hname
          rw [hclaimed] at hname
          rcases List.mem_cons.1 hname with rfl | hname
          · exact .inr (.inl (by simp))
          · exact hearlier name hname

end Binds

/-- **Run lemma.**  All labels are bound by a run. -/
theorem bindLabels_binds (ctx : Lexicons) (r : Resolution) (e : Emission) :
    ∃ bound statements, (bindLabels ctx r e).1 = bound.map BoundLabel.entry ∧
      Binds ctx r.occurrences e (bindingOrder ctx r.providers) bound statements
        (bindLabels ctx r e).2 := by
  have hstart : Binds ctx r.occurrences e [] [] [] e := .nil
  obtain ⟨bound, statements, e', hrun, hbinds⟩ := hstart.extend (bindingOrder ctx r.providers)
  have hall : bindLabels ctx r e = (bound.map BoundLabel.entry, e') := hrun
  rw [hall]
  exact ⟨bound, statements, rfl, hbinds⟩

/-! ## Rules -/

/-- Only the workspace changes for the pattern. -/
theorem exists_emitPattern (ctx : Lexicons) (words : List SourceWord) (e : Emission) :
    ∃ workspace, (emitPattern ctx words e).2 = { e with workspace } := by
  induction words generalizing e with
  | nil => exact ⟨e.workspace, rfl⟩
  | cons w words ih =>
      obtain ⟨workspace, hrest⟩ := ih { e with
        workspace := (e.workspace.ensureCategory ctx.source w.categoryName w.fixedValues).2 }
      refine ⟨workspace, Eq.trans ?_ hrest⟩
      rw [emitPattern, List.mapM_cons]
      rfl

/-- And only the report for what is reported. -/
theorem exists_forM_report (issues : List Issue) (e : Emission) :
    ∃ report', ((issues.forM report : Emit Unit) e).2 = { e with report := report' } := by
  induction issues generalizing e with
  | nil => exact ⟨e.report, rfl⟩
  | cons issue issues ih => exact ih (report issue e).2

/-- The first part of a compilation, with the labels of some providers only. -/
def openFor (ctx : Lexicons) (rule : Rule) (r : Resolution) (providers : List Provider) :
    Emit Bindings := do
  let _ ← emitPattern ctx rule.source
  (ignoredFeatures rule.name r).forM report
  providers.foldlM (bindLabel ctx r.occurrences) []

/-- **The first part of a compilation** binds the labels, in a state in which nothing has been
claimed and nothing added for the rule. -/
theorem openRule_binds (ctx : Lexicons) (rule : Rule) (r : Resolution) (e : Emission) :
    ∃ bound statements start, start.claimed = e.claimed ∧ start.statements = e.statements ∧
      (∀ providers, openFor ctx rule r providers e =
        (providers.foldlM (bindLabel ctx r.occurrences) [] : Emit Bindings) start) ∧
      (openRule ctx rule r e).1.2 = bound.map BoundLabel.entry ∧
      Binds ctx r.occurrences start (bindingOrder ctx r.providers) bound statements
        (openRule ctx rule r e).2 := by
  obtain ⟨workspace, hpattern⟩ := exists_emitPattern ctx rule.source e
  obtain ⟨report', hreport⟩ := exists_forM_report (ignoredFeatures rule.name r)
    { e with workspace }
  obtain ⟨bound, statements, hbindings, hbinds⟩ :=
    bindLabels_binds ctx r { e with workspace, report := report' }
  have hopen : (openRule ctx rule r e).1.2 =
        (bindLabels ctx r { e with workspace, report := report' }).1 ∧
      (openRule ctx rule r e).2 =
        (bindLabels ctx r { e with workspace, report := report' }).2 := by
    rw [← hreport, ← hpattern]
    exact ⟨rfl, rfl⟩
  refine ⟨bound, statements, { e with workspace, report := report' }, rfl, rfl, ?_, ?_, ?_⟩
  · intro providers
    rw [← hreport, ← hpattern]
    rfl
  · exact hopen.1.trans hbindings
  · rw [hopen.2]
    exact hbinds

/-- The second part of a compilation makes no calls. -/
theorem closeRule_composed (rule : Rule) (r : Resolution) (pattern : List String)
    (bindings : Bindings) : Composed ctx [] (closeRule ctx rule r pattern bindings) := by
  unfold closeRule
  refine (emitOutput_local bindings rule r _).composed.andThen fun output => ?_
  split
  · refine (Composed.gramCat _).andThen fun _ => ?_
    exact .gather fun statements => (⟨pattern, statements, output⟩ : CompiledRule)
  · exact .gather fun statements => (⟨pattern, statements, output⟩ : CompiledRule)

theorem pattern_closeRule (rule : Rule) (r : Resolution) (pattern : List String)
    (bindings : Bindings) (e : Emission) :
    (closeRule ctx rule r pattern bindings e).1.pattern = pattern := by
  unfold closeRule
  rw [bind_apply]
  split
  · rfl
  · rfl

/-- The statements for the output call no macro. -/
theorem statements_closeRule (ctx : Lexicons) (rule : Rule) (r : Resolution)
    (pattern : List String) (bindings : Bindings) (e : Emission) :
    ∃ steps : List Step, (closeRule ctx rule r pattern bindings e).1.statements =
      e.statements ++ steps.map Statement.step := by
  obtain ⟨steps, hsteps⟩ := (emitOutput_local bindings rule r rule.target.zipIdx).steps e
  refine ⟨steps, ?_⟩
  rw [← hsteps]
  unfold closeRule
  rw [bind_apply]
  split
  · rfl
  · rfl

end TransferRules.Compile

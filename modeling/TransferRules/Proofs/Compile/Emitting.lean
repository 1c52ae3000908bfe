import TransferRules.Proofs.Compile.Moves

/-!
# The functions of a compilation

Every function of the compiler makes moves only, and what it answers is fit for use: a variable
that it answers is claimed, and whatever is claimed in the end is defined and assigned, unless some
feature could not be resolved.

## Main Definitions

* `Leads` — a computation that makes moves, with a condition on its result
* `Settled` — the claimed variables are ready for use

## Main Statements

* `Leads.bind`, `Leads.foldlM` — closure
* `provide_leads`, `bindLabels_leads`, `emitWord_leads` — the stages of a compilation
* `compile_leads` — a compilation as a whole
-/

namespace TransferRules.Compile

open TransferRules.Action
open TransferRules.Ordered
open TransferRules.Text
open TransferRules.Transfer

variable {ctx : Lexicons} {e e' : Emission} {α β : Type}

/-- A computation makes moves, and its result and the state it leaves satisfy a condition. -/
def Leads (ctx : Lexicons) (e : Emission) (m : Emit α) (Q : α → Emission → Prop) : Prop :=
  Moves ctx e (m e).2 ∧ Q (m e).1 (m e).2

/-! ## Closure -/

namespace Leads

variable {m : Emit α} {f : α → Emit β} {P : α → Emission → Prop} {Q : β → Emission → Prop}

theorem pure {a : β} (h : Q a e) : Leads ctx e (Pure.pure a : Emit β) Q := ⟨.refl, h⟩

theorem bind (hm : Leads ctx e m P)
    (hf : ∀ a e', Moves ctx e e' → P a e' → Leads ctx e' (f a) Q) : Leads ctx e (m >>= f) Q := by
  obtain ⟨hmoves, hP⟩ := hm
  obtain ⟨hrest, hQ⟩ := hf _ _ hmoves hP
  exact ⟨hmoves.trans hrest, hQ⟩

theorem imp {P' : α → Emission → Prop} (hm : Leads ctx e m P)
    (h : ∀ a e', Moves ctx e e' → P a e' → P' a e') : Leads ctx e m P' :=
  ⟨hm.1, h _ _ hm.1 hm.2⟩

/-- A computation that starts with one move. -/
theorem step {e₁ : Emission} {a : α} (hrun : m e = (a, e₁)) (hmove : Move ctx e e₁)
    (hrest : Leads ctx e₁ (f a) Q) : Leads ctx e (m >>= f) Q := by
  obtain ⟨hmoves, hQ⟩ := hrest
  have hbind : (m >>= f) e = f a e₁ := by
    show f (m e).1 (m e).2 = f a e₁
    rw [hrun]
  rw [Leads, hbind]
  exact ⟨.head hmove hmoves, hQ⟩

/-- A computation that starts with a request that may be refused; then nothing changes. -/
theorem tryWorkspace {f : Workspace → Except Issue (α × Workspace)}
    {g : Except Issue α → Emit β}
    (hok : ∀ a w, f e.workspace = .ok (a, w) →
      Request ctx e.workspace w ∧ Leads ctx { e with workspace := w } (g (.ok a)) Q)
    (herror : ∀ issue, f e.workspace = .error issue → Leads ctx e (g (.error issue)) Q) :
    Leads ctx e (Compile.tryWorkspace f >>= g) Q := by
  cases h : f e.workspace with
  | ok result =>
      obtain ⟨hrequest, hrest⟩ := hok result.1 result.2 h
      refine step ?_ (.ask hrequest) hrest
      simp only [Compile.tryWorkspace, modifyGet, MonadStateOf.modifyGet, StateT.modifyGet, h]
      rfl
  | error issue =>
      have hrun : (Compile.tryWorkspace f >>= g) e = g (.error issue) e := by
        show g (Compile.tryWorkspace f e).1 (Compile.tryWorkspace f e).2 = _
        simp only [Compile.tryWorkspace, modifyGet, MonadStateOf.modifyGet, StateT.modifyGet, h]
        rfl
      rw [Leads, hrun]
      exact herror issue h

/-- A fold keeps what every step keeps. -/
theorem foldlM {f : β → α → Emit β} {l : List α} {b : β} (hb : Q b e)
    (hstep : ∀ b a e', Moves ctx e e' → Q b e' → Leads ctx e' (f b a) Q) :
    Leads ctx e (l.foldlM f b) Q := by
  induction l generalizing b e with
  | nil => exact pure hb
  | cons a l ih =>
      rw [List.foldlM_cons]
      refine (hstep b a e .refl hb).bind fun b' e' hmoves hb' => ih hb' ?_
      exact fun b a e'' hmoves' => hstep b a e'' (hmoves.trans hmoves')

/-- A traversal without results keeps what every step keeps. -/
theorem forM {I : Emission → Prop} (he : I e) (l : List α) {f : α → Emit PUnit}
    (hstep : ∀ a e', I e' → Leads ctx e' (f a) fun _ => I) :
    Leads ctx e (l.forM f) fun _ => I := by
  induction l generalizing e with
  | nil => exact pure he
  | cons a l ih => exact (hstep a e he).bind fun _ e' _ he' => ih he'

/-- The results of a traversal satisfy what each satisfies, as long as later moves do not matter;
a condition on the state is kept if every step keeps it. -/
theorem mapM {I : Emission → Prop} {R : β → Emission → Prop} {l : List α} {f : α → Emit β}
    (he : I e) (hR : ∀ b e' e'', Moves ctx e e' → Moves ctx e' e'' → R b e' → R b e'')
    (hstep : ∀ a ∈ l, ∀ e', Moves ctx e e' → I e' →
      Leads ctx e' (f a) fun b e'' => I e'' ∧ R b e'') :
    Leads ctx e (l.mapM f) fun bs e' => I e' ∧ ∀ b ∈ bs, R b e' := by
  induction l generalizing e with
  | nil => exact pure ⟨he, nofun⟩
  | cons a l ih =>
      rw [List.mapM_cons]
      refine (hstep a List.mem_cons_self e .refl he).bind fun b e' hmoves hb => ?_
      refine (ih hb.1 (fun b e₁ e₂ h h' => hR b e₁ e₂ (hmoves.trans h) h') ?_).bind
        fun bs e'' hmoves' hbs => pure ⟨hbs.1, fun b' hb' => ?_⟩
      · exact fun a ha e'' h => hstep a (List.mem_cons_of_mem _ ha) e'' (hmoves.trans h)
      · rcases List.mem_cons.1 hb' with rfl | hb'
        · exact hR _ _ _ hmoves hmoves' hb.2
        · exact hbs.2 b' hb'

end Leads

/-! ## Statements that are added -/

section Statements

variable {r : Reference} {name target : String}

/-- The references of a choice among assignments to one variable. -/
theorem mem_references_choice {c : Choice Assignment}
    (htarget : ∀ branch ∈ c.branches, branch.2.target = target)
    (hotherwise : ∀ a ∈ c.otherwise, a.target = target)
    (hr : r ∈ (Statement.choose c).references) : r = ⟨.vars, target⟩ ∨
      (∃ branch ∈ c.branches, r ∈ branch.1.references ∨ r ∈ branch.2.value.references) ∨
      ∃ a ∈ c.otherwise, r ∈ a.value.references := by
  have hassign : ∀ a : Assignment, a.target = target → r ∈ a.references →
      r = ⟨.vars, target⟩ ∨ r ∈ a.value.references := by
    intro a ha hr
    rcases List.mem_cons.1 hr with hr | hr
    · exact .inl (ha ▸ hr)
    · exact .inr hr
  rcases List.mem_append.1 hr with hr | hr
  · obtain ⟨branch, hbranch, hr⟩ := List.mem_flatMap.1 hr
    rcases List.mem_append.1 hr with hr | hr
    · exact .inr (.inl ⟨branch, hbranch, .inl hr⟩)
    · exact (hassign _ (htarget branch hbranch) hr).imp_right
        fun hr => .inl ⟨branch, hbranch, .inr hr⟩
  · obtain ⟨a, ha, hr⟩ := List.mem_flatMap.1 hr
    rw [Option.mem_toList] at ha
    exact (hassign a (hotherwise a ha) hr).imp_right fun hr => .inr ⟨a, ha, hr⟩

/-- A choice among assignments to one variable that leaves no case out sets the variable. -/
theorem mem_sets_choice {branches : List (Test × Assignment)} {otherwise : Assignment}
    (htarget : ∀ branch ∈ branches, branch.2.target = target)
    (hotherwise : otherwise.target = target) :
    target ∈ (Statement.choose ⟨branches, some otherwise⟩).sets := by
  subst hotherwise
  refine List.mem_filter.2 ⟨List.mem_singleton_self _, List.all_eq_true.2 fun branch hbranch => ?_⟩
  simp [htarget branch hbranch]

/-- What is read from a source word is set, from the attribute that was found and from nothing
else. -/
theorem sourceStatement_spec (x : Lexicon) (key : FeatureKey) (position : Nat)
    (part target : String) :
    (∀ r ∈ (sourceStatement x key position part target).references,
      r = ⟨.vars, target⟩ ∨ r = ⟨.attributes, part⟩) ∧
    (sourceStatement x key position part target).reads = [] ∧
    target ∈ (sourceStatement x key position part target).sets := by
  have hclip : ∀ r ∈ (Value.clip position .source part).references, r = ⟨.attributes, part⟩ := by
    intro r hr
    rw [Value.references] at hr
    split at hr
    · cases hr
    · exact List.mem_singleton.1 hr
  unfold sourceStatement
  split
  · refine ⟨fun r hr => ?_, ?_, ?_⟩
    · have htarget : ∀ branch ∈ (glossChoice position part target
          (groupByValue (x.affixes key.category key.label))).branches,
          branch.2.target = target := by
        intro branch hbranch
        obtain ⟨group, -, rfl⟩ := List.mem_map.1 hbranch
        rfl
      rcases mem_references_choice htarget (fun a ha => by cases ha; rfl) hr with
        hr | ⟨branch, hbranch, hr⟩ | ⟨a, ha, hr⟩
      · exact .inl hr
      · obtain ⟨⟨value, glosses⟩, -, rfl⟩ := List.mem_map.1 hbranch
        rcases hr with hr | hr
        · obtain ⟨equation, hequation, hr⟩ := List.mem_flatMap.1 hr
          obtain ⟨gloss, -, rfl⟩ := List.mem_map.1 hequation
          rcases List.mem_append.1 hr with hr | hr
          · exact .inr (hclip r hr)
          · cases hr
        · cases hr
      · cases ha
        cases hr
    · -- A gloss is compared with a part of the word, and what is assigned is a tag.
      refine List.eq_nil_iff_forall_not_mem.2 fun name hname => ?_
      rcases List.mem_append.1 hname with hname | hname
      · obtain ⟨branch, hbranch, hname⟩ := List.mem_flatMap.1 hname
        obtain ⟨⟨value, glosses⟩, -, rfl⟩ := List.mem_map.1 hbranch
        rcases List.mem_append.1 hname with hname | hname
        · obtain ⟨equation, hequation, hname⟩ := List.mem_flatMap.1 hname
          obtain ⟨gloss, -, rfl⟩ := List.mem_map.1 hequation
          cases hname
        · cases hname
      · cases hname
    · refine mem_sets_choice (fun branch hbranch => ?_) rfl
      obtain ⟨group, -, rfl⟩ := List.mem_map.1 hbranch
      rfl
  · refine ⟨fun r hr => ?_, rfl, List.mem_singleton_self _⟩
    rcases List.mem_cons.1 hr with hr | hr
    · exact .inl hr
    · exact .inr (hclip r hr)

/-- The tests of affixes and lemmas read the variables of stored operands. -/
theorem mem_storedEquations {usable : List Usable} {values : List String} {equation : Equation}
    (h : equation ∈ storedEquations usable values) :
    ∃ u ∈ usable, ∃ name value, u.operand = .stored name ∧ equation = ⟨.var name, .tag value⟩ := by
  obtain ⟨⟨u, value⟩, hmem, hequation⟩ := List.mem_filterMap.1 h
  obtain ⟨name, hname, rfl⟩ := Option.map_eq_some_iff.1 hequation
  refine ⟨u, (List.of_mem_zip hmem).1, name, value, ?_, rfl⟩
  cases hoperand : u.operand with
  | stored stored =>
      rw [hoperand] at hname
      cases hname
      rfl
  | given given =>
      rw [hoperand] at hname
      cases hname

/-- A choice by stored values, among values that refer to nothing, reads the variables of the
operands, and sets its variable. -/
theorem storedChoice_spec {branches : List (Test × Assignment)} {otherwise : Assignment}
    {usable : List Usable}
    (hbranches : ∀ branch ∈ branches, (∃ values, branch.1 = .all (storedEquations usable values)) ∧
      branch.2.target = target ∧ branch.2.value.references = [])
    (hotherwise : otherwise.target = target) (hvalue : otherwise.value.references = []) :
    (∀ r ∈ (Statement.choose ⟨branches, some otherwise⟩).references, r = ⟨.vars, target⟩ ∨
      ∃ u ∈ usable, ∃ name, u.operand = .stored name ∧ r = ⟨.vars, name⟩) ∧
    (∀ name ∈ (Statement.choose ⟨branches, some otherwise⟩).reads,
      ∃ u ∈ usable, u.operand = .stored name) ∧
    target ∈ (Statement.choose ⟨branches, some otherwise⟩).sets := by
  have hnone : ∀ {v : Value} {name : String}, v.references = [] → name ∉ v.variables := by
    intro v name hv hname
    rw [Value.mem_variables_iff, hv] at hname
    cases hname
  refine ⟨fun r hr => ?_, fun name hname => ?_,
    mem_sets_choice (fun branch hbranch => (hbranches branch hbranch).2.1) hotherwise⟩
  · rcases mem_references_choice (fun branch hbranch => (hbranches branch hbranch).2.1)
      (fun a ha => by cases ha; exact hotherwise) hr with hr | ⟨branch, hbranch, hr⟩ | ⟨a, ha, hr⟩
    · exact .inl hr
    · obtain ⟨⟨values, htest⟩, -, hempty⟩ := hbranches branch hbranch
      rw [htest, hempty] at hr
      rcases hr with hr | hr
      · obtain ⟨equation, hequation, hr⟩ := List.mem_flatMap.1 hr
        obtain ⟨u, hu, name, value, hoperand, rfl⟩ := mem_storedEquations hequation
        exact .inr ⟨u, hu, name, hoperand, List.mem_singleton.1 hr⟩
      · cases hr
    · cases ha
      rw [hvalue] at hr
      cases hr
  · rcases List.mem_append.1 hname with hname | hname
    · obtain ⟨branch, hbranch, hname⟩ := List.mem_flatMap.1 hname
      obtain ⟨⟨values, htest⟩, -, hempty⟩ := hbranches branch hbranch
      rcases List.mem_append.1 hname with hname | hname
      · rw [htest] at hname
        obtain ⟨equation, hequation, hname⟩ := List.mem_flatMap.1 hname
        obtain ⟨u, hu, stored, value, hoperand, rfl⟩ := mem_storedEquations hequation
        exact ⟨u, hu, (List.mem_singleton.1 hname) ▸ hoperand⟩
      · exact absurd hname (hnone hempty)
    · obtain ⟨a, ha, hname⟩ := List.mem_flatMap.1 hname
      cases Option.mem_toList.1 ha
      exact absurd hname (hnone hvalue)

end Statements

/-! ## Providers -/

/-- What a provider leaves: nothing more is claimed; the variable is assigned if there was a
value, and otherwise the lexicon knows no values of the feature. -/
structure Provides (target : String) (ctx : Lexicons) (e : Emission) (result : Except Issue Unit)
    (e' : Emission) : Prop where
  claimed : e'.claimed = e.claimed
  report : e'.report = e.report
  assigned : result = .ok () →
    Assigned (heldFor ctx e'.workspace.macros) e'.statements target
  unresolved : ∀ issue, result = .error issue →
    ∃ category label, issue = .unresolvedFeature category label

variable {target : String}

theorem readSource_leads (he : e.workspace.Coherent) (ht : Known ctx e ⟨.vars, target⟩)
    (position : Nat) (category label : String) (affixFirst : Bool) :
    Leads ctx e (readSource ctx position category label target affixFirst)
      (Provides target ctx e) := by
  -- Whatever attribute is found, the statement that reads it may be added.
  have hread : ∀ {q : FeatureQuery} {part : String} {w : Workspace}, q.key.isSource = true →
      e.workspace.ensureAttribute ctx.source q = .ok (part, w) →
      Request ctx e.workspace w ∧
        Leads ctx { e with workspace := w }
          (do
            emit (sourceStatement ctx.source q.key position part target)
            return .ok ()) (Provides target ctx e) := by
    intro q part w hsource h
    have hasked : e.workspace.ensureAttribute
        (if q.key.isSource then ctx.source else ctx.target) q = .ok (part, w) := by
      rw [if_pos hsource, h]
    have hrequest : Request ctx e.workspace w := .needAttribute hasked
    obtain ⟨hreferences, hreads, hsets⟩ :=
      sourceStatement_spec ctx.source q.key position part target
    refine ⟨hrequest, .step rfl (.emit ⟨fun r hr => ?_, .inr ?_⟩) (.pure ⟨rfl, rfl, ?_, nofun⟩)⟩
    · rcases hreferences r hr with rfl | rfl
      · exact ((Move.ask hrequest).extends he).known ht
      · exact .part (he.ensureAttribute_grows h).2
    · rw [hreads]
      exact nofun
    · exact fun _ => .set (List.mem_append_right _ (List.mem_singleton_self _)) hsets
  unfold readSource
  refine .tryWorkspace (fun part w h => hread rfl h) fun issue h => ?_
  refine .tryWorkspace (fun part w h => hread rfl h) fun issue h => ?_
  exact .pure ⟨rfl, rfl, nofun, fun _ heq => ⟨_, _, by cases heq; rfl⟩⟩

/-- What a request for a lemma macro answers is held afterwards. -/
theorem heldFor_ensureLemmaMacro {w w' : Workspace} {x : Lexicon} {category label : String}
    {handle : MacroHandle} (h : w.ensureLemmaMacro x category label = .ok (handle, w')) :
    { name := handle.name, result := handle.result } ∈ heldFor ctx w'.macros := by
  rw [mem_heldFor_iff]
  rcases Workspace.ensureLemmaMacro_cases h with ⟨hfound, rfl⟩ | ⟨rfl, rfl⟩
  · obtain ⟨entry, hentry, rfl⟩ := Option.map_eq_some_iff.1 hfound
    exact .inl ⟨entry, List.mem_of_find?_eq_some hentry, rfl⟩
  · exact .inl ⟨_, List.mem_append_right _ (List.mem_singleton_self _), rfl⟩

/-- And so is what a request for the macro of the set in effect answers. -/
theorem heldFor_ensureDisjointMacro {w w' : Workspace} {x : Lexicon} {set : DisjointSet}
    {handle : MacroHandle} (hset : ctx.disjoint = some set)
    (h : w.ensureDisjointMacro x set = .ok (handle, w')) :
    ⟨handle.name, handle.result, some (disjointNames set).2.2⟩ ∈ heldFor ctx w'.macros := by
  rw [mem_heldFor_iff]
  rcases Workspace.ensureDisjointMacro_cases h with ⟨hfound, rfl⟩ | ⟨-, name, w₁, -, -, rfl, rfl⟩
  · exact .inr ⟨set, handle, hset, hfound, rfl⟩
  · exact .inr ⟨set, _, hset, rfl, rfl⟩

/-- A macro that is held may be called, and its result may be assigned then. -/
theorem callHeld_leads {m : HeldMacro} (hm : m ∈ heldFor ctx e.workspace.macros)
    (ht : Known ctx e ⟨.vars, target⟩) (position : Nat) :
    Leads ctx e
      (do
        emit (.call m.name position)
        emit (.assign target (.var m.result))
        return .ok ()) (Provides target ctx e) := by
  refine .step rfl (.emit ⟨fun r hr => ?_, .inr nofun⟩) ?_
  · rw [List.mem_singleton.1 hr]
    exact .call hm
  have hcalled : Statement.call m.name position ∈ e.statements ++ [.call m.name position] :=
    List.mem_append_right _ (List.mem_singleton_self _)
  refine .step rfl (.emit ⟨fun r hr => ?_, .inr fun name hname => ?_⟩)
    (.pure ⟨rfl, rfl, fun _ => ?_, nofun⟩)
  · rcases List.mem_cons.1 hr with rfl | hr
    · cases ht with
      | held hm' hname => exact .held hm' hname
      | claimed hname => exact .claimed hname
    · rw [List.mem_singleton.1 hr]
      exact .held hm List.mem_cons_self
  · exact .called hm hcalled (List.mem_singleton.1 hname)
  · exact .set (List.mem_append_right _ (List.mem_singleton_self _)) (List.mem_singleton_self _)

theorem callLemmaMacro_leads (he : e.workspace.Coherent) (ht : Known ctx e ⟨.vars, target⟩)
    (o : Occurrence) : Leads ctx e (callLemmaMacro ctx o target) (Provides target ctx e) := by
  unfold callLemmaMacro
  refine .tryWorkspace (fun handle w h => ?_) fun issue h => ?_
  · have hrequest : Request ctx e.workspace w := .needLemmaMacro h
    refine ⟨hrequest, (callHeld_leads (heldFor_ensureLemmaMacro h)
      (((Move.ask hrequest).extends he).known ht) o.position).imp ?_⟩
    exact fun result e' _ hprovides => { hprovides with }
  · refine .pure ⟨rfl, rfl, nofun, fun _ heq => ?_⟩
    cases heq
    exact ⟨_, _, Workspace.ensureLemmaMacro_error h⟩

/-! ## Bindings -/

/-- A variable is ready for use: it is defined and assigned, unless some feature could not be
resolved. -/
def Ready (ctx : Lexicons) (e : Emission) (name : String) : Prop :=
  e.report.Unresolved ∨
    name ∈ e.workspace.document.definitionNames .vars ∧
      Assigned (heldFor ctx e.workspace.macros) e.statements name

theorem Extends.ready (h : Extends ctx e e') {name : String} (hname : Ready ctx e name) :
    Ready ctx e' name := by
  rcases hname with hu | ⟨hdefined, hassigned⟩
  · exact .inl (h.unresolved hu)
  · exact .inr ⟨h.grows.mem_definitionNames hdefined, hassigned.mono h.held h.statements⟩

/-- The bound variables are claimed, and ready. -/
def Bindings.Usable (ctx : Lexicons) (e : Emission) (bindings : Bindings) : Prop :=
  ∀ entry ∈ bindings, entry.2.name ∈ e.claimed ∧ Ready ctx e entry.2.name

theorem Extends.usable (h : Extends ctx e e') {bindings : Bindings}
    (hb : bindings.Usable ctx e) : bindings.Usable ctx e' :=
  fun entry hentry => ⟨h.claimed _ (hb entry hentry).1, h.ready (hb entry hentry).2⟩

theorem Bindings.coVariable?_mem {bindings : Bindings} {coFeature name : String}
    (h : bindings.coVariable? coFeature = some name) :
    ∃ entry ∈ bindings, entry.2.name = name := by
  have hmem := List.mem_of_mem_head? h
  rw [mem_sortStrings] at hmem
  obtain ⟨entry, hentry, rfl⟩ := List.mem_map.1 hmem
  exact ⟨entry, (List.mem_filter.1 hentry).1, rfl⟩

theorem callDisjointMacro_leads (he : e.workspace.Coherent) (ht : Known ctx e ⟨.vars, target⟩)
    {set : DisjointSet} (hset : ctx.disjoint = some set) {bindings : Bindings}
    (hb : bindings.Usable ctx e) (o : Occurrence) :
    Leads ctx e (callDisjointMacro ctx set bindings o target) (Provides target ctx e) := by
  unfold callDisjointMacro
  refine .tryWorkspace (fun handle w h => ?_) fun issue h => ?_
  · have hrequest : Request ctx e.workspace w := .needDisjointMacro hset h
    have hask := (Move.ask hrequest).extends he
    have hcoherent : w.Coherent := he.grows hask.grows
    have hheld := heldFor_ensureDisjointMacro hset h
    have hco : ∀ {e₁ : Emission}, Extends ctx { e with workspace := w } e₁ →
        Known ctx e₁ ⟨.vars, (disjointNames set).2.2⟩ := fun h₁ =>
      .held (h₁.held _ hheld) (List.mem_cons_of_mem _ (List.mem_singleton_self _))
    refine ⟨hrequest, ?_⟩
    -- However the variable of the co-feature was prepared, the macro may be called.
    have hcall : ∀ {e₁ : Emission}, Extends ctx { e with workspace := w } e₁ →
        e₁.claimed = e.claimed → e₁.report = e.report →
        Leads ctx e₁
          (do
            emit (.call handle.name o.position)
            emit (.assign target (.var handle.result))
            return .ok ()) (Provides target ctx e) := by
      intro e₁ h₁ hclaimed hreport
      refine (callHeld_leads (h₁.held _ hheld) ((hask.trans h₁).known ht) o.position).imp ?_
      intro result e' _ hprovides
      exact { hprovides with
        claimed := hprovides.claimed.trans hclaimed
        report := hprovides.report.trans hreport }
    dsimp only
    split
    · next bound hbound =>
      obtain ⟨entry, hentry, rfl⟩ := Bindings.coVariable?_mem hbound
      obtain ⟨hclaimed, hready⟩ := hask.usable hb entry hentry
      have hadmits : Admits ctx { e with workspace := w }
          (.assign (disjointNames set).2.2 (.var entry.2.name)) := by
        refine ⟨fun r hr => ?_, hready.imp id fun hready name hname => ?_⟩
        · rcases List.mem_cons.1 hr with rfl | hr
          · exact hco (.refl ctx _)
          · rw [List.mem_singleton.1 hr]
            exact .claimed hclaimed
        · rw [List.mem_singleton.1 hname]
          exact hready.2
      exact .step rfl (.emit hadmits) (hcall ((Move.emit hadmits).extends hcoherent) rfl rfl)
    · refine (readSource_leads hcoherent (hco (.refl ctx _)) _ _ _ _).bind
        fun prepared e₁ hmoves hprovides => ?_
      cases prepared with
      | ok _ => exact hcall (Moves.extends hcoherent hmoves) hprovides.claimed hprovides.report
      | error issue =>
          refine .pure ⟨hprovides.claimed, hprovides.report, nofun, fun _ heq => ?_⟩
          cases heq
          exact hprovides.unresolved _ rfl
  · exact .pure ⟨rfl, rfl, nofun,
      fun _ heq => ⟨_, _, by cases heq; exact Workspace.ensureDisjointMacro_error h⟩⟩

/-- **A provider** assigns the variable that it is to set, or its feature could not be resolved. -/
theorem provide_leads (he : e.workspace.Coherent) (ht : Known ctx e ⟨.vars, target⟩)
    {bindings : Bindings} (hb : bindings.Usable ctx e) (o : Occurrence) :
    Leads ctx e (provide ctx bindings o target) (Provides target ctx e) := by
  unfold provide
  split
  · exact readSource_leads he ht _ _ _ _
  · exact readSource_leads he ht _ _ _ _
  · split
    · next hset => exact callDisjointMacro_leads he ht (disjoint_of_disjointSetOf? hset) hb o
    · exact callLemmaMacro_leads he ht o

/-- Between the stages of a compilation the workspace is coherent, and what is claimed is
ready. -/
structure Settled (ctx : Lexicons) (e : Emission) : Prop where
  coherent : e.workspace.Coherent
  ready : ∀ name ∈ e.claimed, Ready ctx e name

theorem Settled.usable (he : Settled ctx e) {bindings : Bindings}
    (hb : ∀ entry ∈ bindings, entry.2.name ∈ e.claimed) : bindings.Usable ctx e :=
  fun entry hentry => ⟨hb entry hentry, he.ready _ (hb entry hentry)⟩

/-- A variable that has just been claimed is taken care of by a definition and an assignment. -/
theorem Settled.of_claim (he : Settled ctx e) (hmoves : Moves ctx e e') {name : String}
    (hclaimed : ∀ n ∈ e'.claimed, n = name ∨ n ∈ e.claimed) (hready : Ready ctx e' name) :
    Settled ctx e' where
  coherent := hmoves.coherent he.coherent
  ready n hn := by
    rcases hclaimed n hn with rfl | hold
    · exact hready
    · exact (hmoves.extends he.coherent).ready (he.ready n hold)

theorem Settled.of_eq (he : Settled ctx e) (hmoves : Moves ctx e e')
    (hclaimed : e'.claimed = e.claimed) : Settled ctx e' where
  coherent := hmoves.coherent he.coherent
  ready n hn := (hmoves.extends he.coherent).ready (he.ready n (hclaimed ▸ hn))

/-- Asking for a variable is a move after which the variable is defined. -/
theorem defineVariable_leads {Q : β → Emission → Prop} {f : Unit → Emit β} (name : String)
    (hrest : name ∈ (e.workspace.ensureVariable name none).document.definitionNames .vars →
      Leads ctx { e with workspace := e.workspace.ensureVariable name none } (f ()) Q) :
    Leads ctx e (defineVariable name >>= f) Q :=
  .step rfl (.ask (.needVariable _ name none))
    (hrest (e.workspace.ensureVariable_grows name none).2)

theorem claim_leads {Q : β → Emission → Prop} {f : String → Emit β} (base : String)
    (position : Nat)
    (hrest : ∀ name, Leads ctx { e with claimed := name :: e.claimed } (f name) Q) :
    Leads ctx e (claim base position >>= f) Q :=
  .step rfl (.claim e _) (hrest _)

theorem bindLabel_leads (he : Settled ctx e) {bindings : Bindings}
    (hb : ∀ entry ∈ bindings, entry.2.name ∈ e.claimed) (occurrences : List Occurrence)
    (p : Provider) :
    Leads ctx e (bindLabel ctx occurrences bindings p) fun bindings' e' =>
      Settled ctx e' ∧ ∀ entry ∈ bindings', entry.2.name ∈ e'.claimed := by
  unfold bindLabel
  split
  · refine claim_leads _ _ fun name => ?_
    have hclaim : Move ctx e { e with claimed := name :: e.claimed } := .claim e name
    have hb' := (hclaim.extends he.coherent).usable (he.usable hb)
    refine (provide_leads (e := { e with claimed := name :: e.claimed }) he.coherent
      (.claimed List.mem_cons_self) hb' _).bind fun result e₁ hmoves hprovides => ?_
    have hmoves₁ : Moves ctx e e₁ := .head hclaim hmoves
    have hcoherent₁ := hmoves₁.coherent he.coherent
    have hclaimed : e₁.claimed = name :: e.claimed := hprovides.claimed
    have hclaimed₁ : ∀ n ∈ e₁.claimed, n = name ∨ n ∈ e.claimed := fun n hn =>
      List.mem_cons.1 (hclaimed ▸ hn)
    have hb₁ : ∀ entry ∈ bindings, entry.2.name ∈ e₁.claimed := fun entry hentry =>
      (hmoves₁.extends he.coherent).claimed _ (hb entry hentry)
    have hname₁ : name ∈ e₁.claimed := by
      rw [hclaimed]
      exact List.mem_cons_self
    cases result with
    | ok _ =>
        refine defineVariable_leads name fun hdefined => .pure ⟨?_, fun entry hentry => ?_⟩
        · have hask : Move ctx e₁ _ := .ask (.needVariable _ name none)
          refine he.of_claim (hmoves₁.tail hask) hclaimed₁ (.inr ⟨hdefined, ?_⟩)
          exact (hprovides.assigned rfl).mono (hask.extends hcoherent₁).held fun _ hs => hs
        · rcases List.mem_append.1 hentry with hentry | hentry
          · exact hb₁ entry hentry
          · rw [List.mem_singleton.1 hentry]
            exact hname₁
    | error issue =>
        obtain ⟨category, label, rfl⟩ := hprovides.unresolved issue rfl
        have hnote : Move ctx e₁ _ := .note e₁ (.unresolvedFeature category label)
        refine .step rfl hnote (.pure ⟨?_, hb₁⟩)
        exact he.of_claim (hmoves₁.tail hnote) hclaimed₁
          (.inl ⟨category, label, Report.has_note _ _⟩)
  · exact .pure ⟨he, hb⟩

/-- **Bindings** are made of claimed variables, and what is claimed is ready. -/
theorem bindLabels_leads (he : Settled ctx e) (r : Resolution) :
    Leads ctx e (bindLabels ctx r) fun bindings e' =>
      Settled ctx e' ∧ ∀ entry ∈ bindings, entry.2.name ∈ e'.claimed :=
  .foldlM ⟨he, nofun⟩ fun _ p _ _ hb => bindLabel_leads hb.1 hb.2 r.occurrences p

/-! ## Consumers -/

/-- A state that is reached by claiming a variable and defining it. -/
structure Claimed (name : String) (ctx : Lexicons) (e e' : Emission) : Prop where
  moves : Moves ctx e e'
  claimed : e'.claimed = name :: e.claimed
  defined : name ∈ e'.workspace.document.definitionNames .vars

theorem Claimed.mem {name : String} (h : Claimed name ctx e e') : name ∈ e'.claimed := by
  rw [h.claimed]
  exact List.mem_cons_self

/-- Once the variable is assigned, what is claimed is ready. -/
theorem Claimed.settled {name : String} {e'' : Emission} (h : Claimed name ctx e e')
    (he : Settled ctx e) (hmoves : Moves ctx e' e'') (hclaimed : e''.claimed = e'.claimed)
    (hassigned : Assigned (heldFor ctx e''.workspace.macros) e''.statements name) :
    Settled ctx e'' := by
  have hextends := hmoves.extends (h.moves.coherent he.coherent)
  refine he.of_claim (h.moves.trans hmoves) (fun n hn => ?_)
    (.inr ⟨hextends.grows.mem_definitionNames h.defined, hassigned⟩)
  rw [hclaimed, h.claimed] at hn
  exact List.mem_cons.1 hn

theorem claimed_leads {Q : β → Emission → Prop} {f : Unit → Emit β} (name : String)
    (hrest : ∀ e', Claimed name ctx e e' → Leads ctx e' (f ()) Q) :
    Leads ctx { e with claimed := name :: e.claimed } (defineVariable name >>= f) Q := by
  refine defineVariable_leads name fun hdefined => hrest _ ⟨?_, rfl, hdefined⟩
  exact .head (.claim e name) (.single (.ask (.needVariable _ name none)))

theorem claimExactly_leads {Q : β → Emission → Prop} {f : Bool → Emit β} {name : String}
    (hnew : name ∉ e.claimed → Leads ctx { e with claimed := name :: e.claimed } (f true) Q)
    (hold : name ∈ e.claimed → Leads ctx e (f false) Q) :
    Leads ctx e (claimExactly name >>= f) Q := by
  by_cases h : name ∈ e.claimed
  · have hrun : (claimExactly name >>= f) e = f false e := by
      show f (claimExactly name e).1 (claimExactly name e).2 = _
      simp only [claimExactly, modifyGet, MonadStateOf.modifyGet, StateT.modifyGet, if_pos h]
      rfl
    rw [Leads, hrun]
    exact hold h
  · refine .step ?_ (.claim e name) (hnew h)
    simp only [claimExactly, modifyGet, MonadStateOf.modifyGet, StateT.modifyGet, if_neg h]
    rfl

/-- A copy is assigned, and then given the fallback if it is empty. -/
theorem copyWithFallback_leads {Q : β → Emission → Prop} {f : PUnit → Emit β}
    {name copied : String} (fallback : String) (hname : name ∈ e.claimed)
    (hcopied : copied ∈ e.claimed) (hready : Ready ctx e copied)
    (hrest : ∀ e', Moves ctx e e' → e'.claimed = e.claimed →
      Assigned (heldFor ctx e'.workspace.macros) e'.statements name → Leads ctx e' (f ⟨⟩) Q) :
    Leads ctx e ((copyWithFallback name copied fallback).forM emit >>= f) Q := by
  have hcopy : Move ctx e _ := .emit (s := .assign name (.var copied)) <| by
    refine ⟨fun r hr => ?_, hready.imp id fun hready n hn => ?_⟩
    · rcases List.mem_cons.1 hr with rfl | hr
      · exact .claimed hname
      · rw [List.mem_singleton.1 hr]
        exact .claimed hcopied
    · rw [List.mem_singleton.1 hn]
      exact hready.2
  have hassigned : Assigned (heldFor ctx e.workspace.macros)
      (e.statements ++ [.assign name (.var copied)]) name :=
    .set (List.mem_append_right _ (List.mem_singleton_self _)) (List.mem_singleton_self _)
  have hchoose : Move ctx { e with statements := e.statements ++ [.assign name (.var copied)] } _ :=
    .emit (s := .choose ⟨[(.all [⟨.var name, .lit ""⟩], ⟨name, .tag fallback⟩)], none⟩) <| by
      refine ⟨fun r hr => ?_, .inr fun n hn => ?_⟩
      · have hr : r ∈ [(⟨.vars, name⟩ : Reference), ⟨.vars, name⟩] := hr
        obtain rfl : r = ⟨.vars, name⟩ := by simpa using hr
        exact .claimed hname
      · have hn : n ∈ [name] := hn
        rw [List.mem_singleton.1 hn]
        exact hassigned
  have hrun : ((copyWithFallback name copied fallback).forM emit >>= f) e =
      f ⟨⟩ { e with statements := (e.statements ++ [.assign name (.var copied)]) ++
        [.choose ⟨[(.all [⟨.var name, .lit ""⟩], ⟨name, .tag fallback⟩)], none⟩] } := rfl
  obtain ⟨hmoves, hQ⟩ := hrest _ (.head hcopy (.single hchoose)) rfl
    (hassigned.mono (fun _ hm => hm) fun s hs => List.mem_append_left _ hs)
  rw [Leads, hrun]
  exact ⟨.head hcopy (.head hchoose hmoves), hQ⟩

theorem find?_mem {bindings : Bindings} {label : String} {bound : Bound}
    (h : bindings.find? label = some bound) : ∃ entry ∈ bindings, entry.2 = bound := by
  obtain ⟨entry, hentry, rfl⟩ := Option.map_eq_some_iff.1 h
  exact ⟨entry, List.mem_of_find?_eq_some hentry, rfl⟩

/-- A stored operand is a claimed variable. -/
theorem operand?_leads (he : Settled ctx e) {bindings : Bindings}
    (hb : ∀ entry ∈ bindings, entry.2.name ∈ e.claimed) (o : Occurrence) :
    Leads ctx e (operand? bindings o) fun operand e' =>
      Settled ctx e' ∧ ∀ name, operand = some (.stored name) → name ∈ e'.claimed := by
  unfold operand?
  split
  · exact .pure ⟨he, nofun⟩
  · split
    · exact .pure ⟨he, nofun⟩
    · next bound hbound =>
      obtain ⟨entry, hentry, rfl⟩ := find?_mem hbound
      have hcopied := hb entry hentry
      split
      · exact .pure ⟨he, fun name hname => by cases hname; exact hcopied⟩
      · next fallback _ =>
        generalize identifier (entry.2.name ++ "_or_" ++ fallback) = name
        refine claimExactly_leads (fun _ => ?_) fun hold => ?_
        · refine claimed_leads name fun e₁ hclaimed => ?_
          have hextends := hclaimed.moves.extends he.coherent
          refine copyWithFallback_leads fallback hclaimed.mem (hextends.claimed _ hcopied)
            (hextends.ready (he.ready _ hcopied)) fun e₂ hmoves heq hassigned => ?_
          refine .pure ⟨hclaimed.settled he hmoves heq hassigned, fun n hn => ?_⟩
          cases hn
          rw [heq]
          exact hclaimed.mem
        · exact .pure ⟨he, fun n hn => by cases hn; exact hold⟩

/-- The stored operands of usable features are claimed variables. -/
def StoredClaimed (usable : List Usable) (e : Emission) : Prop :=
  ∀ u ∈ usable, ∀ name, u.operand = .stored name → name ∈ e.claimed

theorem usableFeatures_leads (he : Settled ctx e) {bindings : Bindings}
    (hb : ∀ entry ∈ bindings, entry.2.name ∈ e.claimed) (category : String)
    (forms : String → List Exponent) (occurrences : List Occurrence) :
    Leads ctx e (usableFeatures bindings category forms occurrences) fun usable e' =>
      Settled ctx e' ∧ StoredClaimed usable e' := by
  induction occurrences generalizing e with
  | nil => exact .pure ⟨he, nofun⟩
  | cons o rest ih =>
      unfold usableFeatures
      split
      · have hnote : Move ctx e _ := .note e (.unresolvedFeature category o.feature.label)
        exact .step rfl hnote (ih (he.of_eq (.single hnote) rfl) hb)
      · refine (operand?_leads he hb o).bind fun operand e₁ hmoves hoperand => ?_
        have hextends := hmoves.extends he.coherent
        have hrest := ih hoperand.1 fun entry hentry => hextends.claimed _ (hb entry hentry)
        cases operand with
        | none => exact hrest
        | some operand =>
            refine hrest.bind fun more e₂ hmoves' hmore =>
              .pure ⟨hmore.1, fun u hu name hname => ?_⟩
            rcases List.mem_cons.1 hu with rfl | hu
            · cases hname
              exact (hmoves'.extends hoperand.1.coherent).claimed _ (hoperand.2 _ rfl)
            · exact hmore.2 u hu name hname

/-- A value of the output refers to claimed variables only. -/
def Put (v : Value) (e : Emission) : Prop :=
  ∀ r ∈ v.references, ∃ name ∈ e.claimed, r = ⟨.vars, name⟩

/-- A variable of its own that a choice by stored values sets may be put out. -/
theorem chooseStored_leads (he : Settled ctx e) {usable : List Usable}
    (husable : StoredClaimed usable e) {branches : String → List (Test × Assignment)}
    {otherwise : String → Assignment}
    (hbranches : ∀ name, ∀ branch ∈ branches name,
      (∃ values, branch.1 = .all (storedEquations usable values)) ∧
        branch.2.target = name ∧ branch.2.value.references = [])
    (hotherwise : ∀ name, (otherwise name).target = name ∧ (otherwise name).value.references = [])
    (base : String) (position : Nat) :
    Leads ctx e
      (do
        let name ← claim base position
        defineVariable name
        emit (.choose ⟨branches name, some (otherwise name)⟩)
        return some (.var name) : Emit (Option Value))
      fun output e' => Settled ctx e' ∧ ∀ v ∈ output, Put v e' := by
  refine claim_leads _ _ fun name => claimed_leads name fun e₁ hclaimed => ?_
  have hextends := hclaimed.moves.extends he.coherent
  obtain ⟨hreferences, hreads, hsets⟩ :=
    storedChoice_spec (hbranches name) (hotherwise name).1 (hotherwise name).2
  have hadmits : Admits ctx e₁ (.choose ⟨branches name, some (otherwise name)⟩) := by
    refine ⟨fun r hr => ?_, ?_⟩
    · rcases hreferences r hr with rfl | ⟨u, hu, stored, hstored, rfl⟩
      · exact .claimed hclaimed.mem
      · exact .claimed (hextends.claimed _ (husable u hu stored hstored))
    · by_cases hu : e₁.report.Unresolved
      · exact .inl hu
      · refine .inr fun n hn => ?_
        obtain ⟨u, huse, hstored⟩ := hreads n hn
        rcases hextends.ready (he.ready n (husable u huse n hstored)) with hu' | hready
        · exact absurd hu' hu
        · exact hready.2
  have hemit := Move.emit hadmits
  refine .step rfl hemit (.pure ⟨hclaimed.settled he (.single hemit) rfl ?_, fun v hv r hr => ?_⟩)
  · exact .set (List.mem_append_right _ (List.mem_singleton_self _)) hsets
  · cases hv
    exact ⟨name, hclaimed.mem, List.mem_singleton.1 hr⟩

theorem emitAffix_leads (he : Settled ctx e) {bindings : Bindings}
    (hb : ∀ entry ∈ bindings, entry.2.name ∈ e.claimed) (position : Nat) (category : String)
    (occurrences : List Occurrence) :
    Leads ctx e (emitAffix ctx bindings position category occurrences) fun output e' =>
      Settled ctx e' ∧ ∀ v ∈ output, Put v e' := by
  unfold emitAffix
  refine (usableFeatures_leads he hb _ _ _).bind fun usable e₁ _ husable => ?_
  split
  · exact .pure ⟨husable.1, nofun⟩
  · dsimp only
    split
    · have hnote : Move ctx e₁ _ :=
        .note e₁ (missingForm category (usable.map Usable.label) usable)
      exact .step rfl hnote (.pure ⟨husable.1.of_eq (.single hnote) rfl, nofun⟩)
    · split
      · refine .pure ⟨husable.1, fun v hv r hr => ?_⟩
        cases hv
        cases hr
      · refine chooseStored_leads husable.1 husable.2 (fun name branch hbranch => ?_)
          (fun name => ⟨rfl, rfl⟩) _ _
        obtain ⟨⟨form, values⟩, -, rfl⟩ := List.mem_map.1 hbranch
        exact ⟨⟨values, rfl⟩, rfl, rfl⟩

/-- A clip of the lemma needs no attribute. -/
theorem references_clip_builtin {position : Nat} {side : Side} {part : String}
    (h : part ∈ builtinParts) : (Value.clip position side part).references = [] :=
  if_pos h

theorem emitLemma_leads (he : Settled ctx e) {bindings : Bindings}
    (hb : ∀ entry ∈ bindings, entry.2.name ∈ e.claimed) (position : Nat) (category : String)
    (occurrences : List Occurrence) :
    Leads ctx e (emitLemma ctx bindings position category occurrences) fun output e' =>
      Settled ctx e' ∧ ∀ v ∈ output, Put v e' := by
  unfold emitLemma
  refine (usableFeatures_leads he hb _ _ _).bind fun usable e₁ _ husable => ?_
  split
  · exact .pure ⟨husable.1, nofun⟩
  · split
    · dsimp only
      split
      · refine .pure ⟨husable.1, fun v hv r hr => ?_⟩
        cases hv
        cases hr
      · have hnote : Move ctx e₁ _ := .note e₁ (.unresolvedFeatureValue category "lemma"
          (String.intercalate "+" (usable.filterMap fun u => u.operand.value?)))
        exact .step rfl hnote (.pure ⟨husable.1.of_eq (.single hnote) rfl, nofun⟩)
    · split
      · exact .pure ⟨husable.1, nofun⟩
      · refine chooseStored_leads husable.1 husable.2 (fun name branch hbranch => ?_)
          (fun name => ⟨rfl, references_clip_builtin (by decide)⟩) _ _
        obtain ⟨⟨values, form⟩, -, rfl⟩ := List.mem_map.1 hbranch
        exact ⟨⟨values, rfl⟩, rfl, rfl⟩

/-! ## Words and rules -/

theorem Put.mono {v : Value} (h : Put v e) (hextends : Extends ctx e e') : Put v e' := by
  intro r hr
  obtain ⟨name, hname, rfl⟩ := h r hr
  exact ⟨name, hextends.claimed name hname, rfl⟩

theorem emitPattern_leads (he : Settled ctx e) (words : List SourceWord) :
    Leads ctx e (emitPattern ctx words) fun pattern e' => Settled ctx e' ∧
      ∀ name ∈ pattern, name ∈ e'.workspace.document.definitionNames .categories := by
  refine .mapM he (fun name e₁ e₂ hmoves hmoves' hname => ?_) fun w _ e₁ _ he₁ => ?_
  · exact (hmoves'.extends (hmoves.coherent he.coherent)).grows.mem_definitionNames hname
  · have hask : Move ctx e₁ _ := .ask (.needCategory _ w.categoryName w.fixedValues)
    exact ⟨.single hask, he₁.of_eq (.single hask) rfl, (e₁.workspace.ensureCategory_grows _ _ _).2⟩

theorem emitAffixes_leads (he : Settled ctx e) {bindings : Bindings}
    (hb : ∀ entry ∈ bindings, entry.2.name ∈ e.claimed) (r : Resolution)
    (targetIndex position : Nat) (category : String) (affixes : List (Affix × Nat)) :
    Leads ctx e (emitAffixes ctx bindings r targetIndex position category affixes)
      fun outputs e' => Settled ctx e' ∧ ∀ output ∈ outputs, Put output.2 e' := by
  have hR : ∀ (b : Option (AffixSide × Value)) (e₁ e₂ : Emission), Moves ctx e e₁ →
      Moves ctx e₁ e₂ → (∀ output ∈ b, Put output.2 e₁) → ∀ output ∈ b, Put output.2 e₂ :=
    fun b e₁ e₂ hmoves hmoves' hput output houtput =>
      (hput output houtput).mono (hmoves'.extends (hmoves.coherent he.coherent))
  unfold emitAffixes
  refine (Leads.mapM he hR fun affix _ e₁ hmoves he₁ => ?_).bind
    fun outputs e₁ _ houtputs => .pure ⟨houtputs.1, fun output houtput => ?_⟩
  · have hb₁ : ∀ entry ∈ bindings, entry.2.name ∈ e₁.claimed := fun entry hentry =>
      (hmoves.extends he.coherent).claimed _ (hb entry hentry)
    refine (emitAffix_leads he₁ hb₁ _ _ _).bind
      fun output e₂ _ houtput => .pure ⟨houtput.1, fun sided hsided => ?_⟩
    obtain ⟨v, hv, rfl⟩ := Option.map_eq_some_iff.1 hsided
    exact houtput.2 v hv
  · obtain ⟨b, hb, houtput⟩ := List.mem_filterMap.1 houtput
    exact houtputs.2 b hb output houtput

/-- A word of the output refers to claimed variables only, and to the category attribute if it
reads the category. -/
theorem emitWord_leads (he : Settled ctx e) {bindings : Bindings}
    (hb : ∀ entry ∈ bindings, entry.2.name ∈ e.claimed) (rule : Rule) (r : Resolution)
    (w : TargetWord) (index position : Nat) :
    Leads ctx e (emitWord ctx bindings rule r w index position) fun word e' => Settled ctx e' ∧
      ∀ ref ∈ word.references, (∃ name ∈ e'.claimed, ref = ⟨.vars, name⟩) ∨
        readsCategory w = true ∧ ref = ⟨.attributes, gramCatName⟩ := by
  have htags : ∀ {e₁ : Emission} {outputs : List (AffixSide × Value)},
      (∀ output ∈ outputs, Put output.2 e₁) → ∀ v ∈ wordTags w position outputs,
      ∀ ref ∈ v.references, (∃ name ∈ e₁.claimed, ref = ⟨.vars, name⟩) ∨
        readsCategory w = true ∧ ref = ⟨.attributes, gramCatName⟩ := by
    intro e₁ outputs houtputs v hv ref href
    have hside : ∀ side, v ∈ onSide side outputs → Put v e₁ := by
      intro side hv
      obtain ⟨output, houtput, rfl⟩ := List.mem_map.1 hv
      exact houtputs output (List.mem_filter.1 houtput).1
    unfold wordTags at hv
    split at hv
    · rw [List.mem_singleton.1 hv, references_clip_builtin (by decide)] at href
      cases href
    · next hkeeps =>
      rcases List.mem_cons.1 hv with rfl | hv
      · cases hcategory : w.category with
        | some category =>
            rw [hcategory] at href
            cases href
        | none =>
            rw [hcategory] at href
            refine .inr ⟨by simp [readsCategory, hkeeps, hcategory], ?_⟩
            rw [Value.references, if_neg (by decide)] at href
            exact List.mem_singleton.1 href
      · rcases List.mem_append.1 hv with hv | hv
        · exact .inl (hside _ hv ref href)
        · exact .inl (hside _ hv ref href)
  -- Whatever the lemma is, the tags come after it.
  have hword : ∀ {chosen : Option Value} {e₁ : Emission}, Moves ctx e e₁ → Settled ctx e₁ →
      (∀ v ∈ chosen, Put v e₁) →
      Leads ctx e₁
        (do
          let outputs ← emitAffixes ctx bindings r index position (rule.targetCategory w)
            w.affixes.zipIdx
          return (⟨chosen.getD (.clip position .target "lem"), wordTags w position outputs⟩ :
            OutputWord))
        fun word e' => Settled ctx e' ∧
          ∀ ref ∈ word.references, (∃ name ∈ e'.claimed, ref = ⟨.vars, name⟩) ∨
            readsCategory w = true ∧ ref = ⟨.attributes, gramCatName⟩ := by
    intro chosen e₁ hmoves he₁ hchosen
    have hb₁ : ∀ entry ∈ bindings, entry.2.name ∈ e₁.claimed := fun entry hentry =>
      (hmoves.extends he.coherent).claimed _ (hb entry hentry)
    refine (emitAffixes_leads he₁ hb₁ _ _ _ _ _).bind
      fun outputs e₂ hmoves' houtputs => .pure ⟨houtputs.1, fun ref href => ?_⟩
    obtain ⟨v, hv, href⟩ := List.mem_flatMap.1 href
    rcases List.mem_cons.1 hv with rfl | hv
    · cases chosen with
      | none =>
          rw [Option.getD_none, references_clip_builtin (by decide)] at href
          cases href
      | some v =>
          exact .inl (((hchosen v rfl).mono (hmoves'.extends he₁.coherent)) ref href)
    · exact htags houtputs.2 v hv ref href
  have hhead : Leads ctx e (pure none : Emit (Option Value)) fun chosen e' =>
      Settled ctx e' ∧ ∀ v ∈ chosen, Put v e' :=
    .pure ⟨he, fun v hv => absurd hv (Option.not_mem_none v)⟩
  unfold emitWord
  dsimp only
  split
  · exact hhead.bind fun chosen e₁ hmoves hchosen => hword hmoves hchosen.1 hchosen.2
  · exact (emitLemma_leads he hb _ _ _).bind
      fun chosen e₁ hmoves hchosen => hword hmoves hchosen.1 hchosen.2

/-- The output of a rule refers to claimed variables only, and to the category attribute if some
word of it reads the category. -/
theorem emitOutput_leads (he : Settled ctx e) {bindings : Bindings}
    (hb : ∀ entry ∈ bindings, entry.2.name ∈ e.claimed) (rule : Rule) (r : Resolution)
    {words : List (TargetWord × Nat)} (hwords : ∀ word ∈ words, word.1 ∈ rule.target) :
    Leads ctx e (emitOutput ctx bindings rule r words) fun output e' => Settled ctx e' ∧
      ∀ entry ∈ output, ∀ ref ∈ entry.2.references,
        (∃ name ∈ e'.claimed, ref = ⟨.vars, name⟩) ∨
          needsGramCat rule = true ∧ ref = ⟨.attributes, gramCatName⟩ := by
  induction words generalizing e with
  | nil => exact .pure ⟨he, nofun⟩
  | cons word rest ih =>
      obtain ⟨w, index⟩ := word
      have hrest : ∀ word ∈ rest, word.1 ∈ rule.target :=
        fun word hword => hwords word (List.mem_cons_of_mem _ hword)
      unfold emitOutput
      split
      · exact ih he hb hrest
      · next position hposition =>
        refine (emitWord_leads he hb rule r w index position).bind fun word e₁ hmoves hword => ?_
        have hb₁ : ∀ entry ∈ bindings, entry.2.name ∈ e₁.claimed := fun entry hentry =>
          (hmoves.extends he.coherent).claimed _ (hb entry hentry)
        refine (ih hword.1 hb₁ hrest).bind
          fun more e₂ hmoves' hmore => .pure ⟨hmore.1, fun entry hentry ref href => ?_⟩
        rcases List.mem_cons.1 hentry with rfl | hentry
        · rcases hword.2 ref href with ⟨name, hname, rfl⟩ | ⟨hreads, rfl⟩
          · exact .inl ⟨name, (hmoves'.extends hword.1.coherent).claimed name hname, rfl⟩
          · refine .inr ⟨List.any_eq_true.2 ⟨w, hwords _ List.mem_cons_self, ?_⟩, rfl⟩
            rw [hposition, hreads]
            rfl
        · exact hmore.2 entry hentry ref href

/-- What compiling a rule leaves, given the form of the rule. -/
structure Compiled (ctx : Lexicons) (compiled : CompiledRule) (e : Emission) : Prop where
  settled : Settled ctx e
  statements : compiled.statements = e.statements
  pattern : ∀ name ∈ compiled.pattern, name ∈ e.workspace.document.definitionNames .categories
  output : ∀ entry ∈ compiled.output, ∀ ref ∈ entry.2.references,
    (∃ name ∈ e.claimed, ref = ⟨.vars, name⟩) ∨
      ref.kind = .attributes ∧ ref.name ∈ e.workspace.document.definitionNames .attributes

/-- **A compilation as a whole** makes moves, and its output refers to claimed variables and
defined attributes only. -/
theorem compile_leads (he : Settled ctx e) (rule : Rule) (r : Resolution) :
    Leads ctx e (compile ctx rule r) (Compiled ctx) := by
  unfold compile
  refine (emitPattern_leads he rule.source).bind fun pattern e₁ hmoves₁ hpattern => ?_
  refine (Leads.forM hpattern.1 _ fun issue e' he' => ?_).bind fun _ e₂ hmoves₂ he₂ => ?_
  · have hnote : Move ctx e' _ := .note e' issue
    exact ⟨.single hnote, he'.of_eq (.single hnote) rfl⟩
  refine (bindLabels_leads he₂ r).bind fun bindings e₃ hmoves₃ hbindings => ?_
  refine (emitOutput_leads hbindings.1 hbindings.2 rule r fun word hword => ?_).bind
    fun output e₄ hmoves₄ houtput => ?_
  · exact (List.mem_zipIdx' hword).2 ▸ List.getElem_mem _
  -- What the output reads of the category is defined last.
  have hpattern₄ : ∀ name ∈ pattern, name ∈ e₄.workspace.document.definitionNames .categories :=
    fun name hname => (Moves.extends hpattern.1.coherent
      (hmoves₂.trans (hmoves₃.trans hmoves₄))).grows.mem_definitionNames (hpattern.2 name hname)
  split
  · have hask : Move ctx e₄ _ := .ask (.needGramCat _ (ruleCategories ctx rule))
    have hgrams := houtput.1.coherent.ensureGramCat_grows (ruleCategories ctx rule)
    refine .step rfl hask (.pure ⟨houtput.1.of_eq (.single hask) rfl, rfl, fun name hname => ?_,
      fun entry hentry ref href => ?_⟩)
    · exact hgrams.1.mem_definitionNames (hpattern₄ name hname)
    · exact (houtput.2 entry hentry ref href).imp_right fun h => by
        rw [h.2]
        exact ⟨rfl, hgrams.2⟩
  · next hneeds =>
    exact .pure ⟨houtput.1, rfl, hpattern₄, fun entry hentry ref href =>
      (houtput.2 entry hentry ref href).imp_right fun h => absurd h.1 hneeds⟩

end TransferRules.Compile

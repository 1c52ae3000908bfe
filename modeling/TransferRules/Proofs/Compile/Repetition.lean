import TransferRules.Proofs.Compile.Composition
import TransferRules.Proofs.Compile.Moves
import TransferRules.Proofs.Workspace.Repetition

/-!
# Compiling a rule again

A rule is compiled a second time after a round in which it was compiled once, and other rules before
and after it.  The two compilations are compared with each other, and with the end of the round.
Whatever the second one asks for, the first one has asked for: a match label that was bound is bound
again, so the only way to ask for less is not to read a co-feature that is bound by now.  So all
that the second one asks for is found.

## Main Definitions

* `Round` — a round of compilations, from the report before it to its end
* `Local.Effect` — what a local computation does
* `Again` — two computations, of which the second one leaves the workspace where the round left it

## Main Statements

* `Local.exists_effect` — what a local computation does depends on the claimed variables only
* `bindLabels_again` — match labels are bound again
* `compile_rests` — a rule that is compiled again leaves the workspace where the round left it

## Design Notes

A label that could not be bound may be bound the second time, so the bindings of the second time may
be more.  From there on the compilation goes its own way, but it only defines variables.  If all
features were resolved the bindings are the same, and so are the variables.
-/

namespace TransferRules.Compile

open TransferRules.Action
open TransferRules.Ordered
open TransferRules.Transfer

/-- A round of compilations: the lexicons, the report before it, and the workspace and the report
at its end. -/
structure Round where
  lexicons : Lexicons
  earlier : Report
  workspace : Workspace
  report : Report

/-- All features that were asked for in a round could be resolved. -/
def Round.Clean (round : Round) : Prop :=
  ¬ Report.Unresolved ⟨round.report.entries.drop round.earlier.entries.length⟩

variable {round : Round} {ctx : Lexicons} {α β : Type} {e e' : Emission}

/-- An issue about a feature that is noted during the round is there at its end. -/
theorem Round.not_clean {r : Report} {category label : String}
    (hsince : round.earlier.entries <+: r.entries)
    (hbefore : (r.note (.unresolvedFeature category label)).entries <+: round.report.entries) :
    ¬ round.Clean := by
  obtain ⟨since, hsince⟩ := hsince
  obtain ⟨rest, hrest⟩ := hbefore
  refine not_not_intro ⟨category, label, ?_⟩
  have hentries : round.report.entries = round.earlier.entries ++
      (since ++ ([⟨(Issue.unresolvedFeature category label).severity,
        (Issue.unresolvedFeature category label).message⟩] ++ rest)) := by
    rw [← hrest, ← List.append_assoc, hsince, ← List.append_assoc]
    rfl
  rw [Report.Has, hentries, List.drop_left]
  exact List.mem_append_right _ (List.mem_append_left _ (List.mem_singleton_self _))

/-! ## Local computations -/

/-- What a local computation does: it claims variables, defines some, notes messages, and adds
statements. -/
structure Local.Effect where
  claimed : List String
  defined : List String
  entries : List ReportEntry
  statements : List Statement

/-- The emission after what a local computation does. -/
def Emission.extend (e : Emission) (f : Local.Effect) : Emission where
  workspace := e.workspace.ensureVariables f.defined
  report := ⟨e.report.entries ++ f.entries⟩
  claimed := f.claimed
  statements := e.statements ++ f.statements

/-- **What a local computation does** is decided by the variables that the rule has claimed. -/
theorem Local.exists_effect {m : Emit α} (h : Local m) (claimed : List String) :
    ∃ (a : α) (f : Local.Effect), ∀ e, e.claimed = claimed → m e = (a, e.extend f) := by
  induction h generalizing claimed with
  | pure a =>
      refine ⟨a, ⟨claimed, [], [], []⟩, ?_⟩
      rintro e rfl
      simp [Emission.extend, Workspace.ensureVariables]
      rfl
  | bind hm hf ihm ihf =>
      obtain ⟨a, f, hfirst⟩ := ihm claimed
      obtain ⟨b, g, hsecond⟩ := ihf a f.claimed
      refine ⟨b, ⟨g.claimed, f.defined ++ g.defined, f.entries ++ g.entries,
        f.statements ++ g.statements⟩, fun e he => ?_⟩
      rw [bind_apply, hfirst e he, hsecond _ rfl]
      simp [Emission.extend, Workspace.ensureVariables_append]
  | step s =>
      refine ⟨(), ⟨claimed, [], [], [.step s]⟩, ?_⟩
      rintro e rfl
      simp [Emission.extend, Workspace.ensureVariables]
      rfl
  | report issue =>
      refine ⟨(), ⟨claimed, [], [⟨issue.severity, issue.message⟩], []⟩, ?_⟩
      rintro e rfl
      simp [Emission.extend, Workspace.ensureVariables]
      rfl
  | claim base position =>
      refine ⟨unclaimed base position claimed, ⟨unclaimed base position claimed :: claimed, [], [],
        []⟩, ?_⟩
      rintro e rfl
      simp [Emission.extend, Workspace.ensureVariables]
      rfl
  | claimExactly name =>
      by_cases hclaimed : name ∈ claimed
      · refine ⟨false, ⟨claimed, [], [], []⟩, ?_⟩
        rintro e rfl
        rw [claimExactly_apply, if_pos hclaimed]
        simp [Emission.extend, Workspace.ensureVariables]
      · refine ⟨true, ⟨name :: claimed, [], [], []⟩, ?_⟩
        rintro e rfl
        rw [claimExactly_apply, if_neg hclaimed]
        simp [Emission.extend, Workspace.ensureVariables]
  | var name =>
      refine ⟨(), ⟨claimed, [name], [], []⟩, ?_⟩
      rintro e rfl
      simp [Emission.extend, Workspace.ensureVariables]
      rfl

/-! ## Two compilations -/

/-- What an emission has in common with a later one of the same round. -/
structure Onward (ctx : Lexicons) (e e' : Emission) : Prop where
  workspace : e.workspace.Lasts ctx e'.workspace
  report : e.report.entries <+: e'.report.entries

theorem Onward.refl (ctx : Lexicons) (e : Emission) : Onward ctx e e :=
  ⟨.refl e.workspace, List.prefix_rfl⟩

theorem Onward.trans {e'' : Emission} (h : Onward ctx e e') (h' : Onward ctx e' e'') :
    Onward ctx e e'' :=
  ⟨h.workspace.trans h'.workspace, h.report.trans h'.report⟩

/-- Messages that are added to the report. -/
theorem Onward.tell (ctx : Lexicons) (e : Emission) (entries : List ReportEntry) :
    Onward ctx e { e with report := ⟨e.report.entries ++ entries⟩ } :=
  ⟨.refl e.workspace, List.prefix_append _ _⟩

/-- An emission of the round: what it has lasts until the end. -/
structure Round.Before (round : Round) (e : Emission) : Prop where
  workspace : e.workspace.Lasts round.lexicons round.workspace
  report : e.report.entries <+: round.report.entries

theorem Round.Before.of_onward (h : round.Before e') (honward : Onward round.lexicons e e') :
    round.Before e :=
  ⟨honward.workspace.trans h.workspace, honward.report.trans h.report⟩

/-- An emission of the round, and one of the second time with the same variables claimed. -/
structure Alongside (round : Round) (e e' : Emission) : Prop where
  since : round.earlier.entries <+: e.report.entries
  rests : Workspace.Rests round.Clean round.workspace e'.workspace
  claimed : e'.claimed = e.claimed

/-- Two computations, the second of which leaves the workspace where the round left it if the first
one is part of the round; their results are related then. -/
structure Again (round : Round) (R : α → α → Prop) (m m' : Emit α) : Prop where
  onward : ∀ e, Onward round.lexicons e (m e).2
  repeats : ∀ e e', Alongside round e e' → round.Before (m e).2 →
    R (m e).1 (m' e').1 ∧ Alongside round (m e).2 (m' e').2

namespace Again

variable {R : α → α → Prop} {S : β → β → Prop} {m m' : Emit α} {f f' : α → Emit β}

theorem pure {a a' : α} (h : R a a') : Again round R (Pure.pure a : Emit α) (Pure.pure a') where
  onward e := .refl _ e
  repeats _ _ halongside _ := ⟨h, halongside⟩

theorem bind (hm : Again round R m m') (hrefl : ∀ a, R a a)
    (hf : ∀ a a', R a a' → Again round S (f a) (f' a')) :
    Again round S (m >>= f) (m' >>= f') where
  onward e := (hm.onward e).trans ((hf _ _ (hrefl (m e).1)).onward (m e).2)
  repeats e e' halongside hbefore := by
    have hsecond := (hf _ _ (hrefl (m e).1)).onward (m e).2
    obtain ⟨hresult, hnext⟩ := hm.repeats e e' halongside (hbefore.of_onward hsecond)
    exact (hf _ _ hresult).repeats _ _ hnext hbefore

theorem foldlM {f f' : α → β → Emit α} (hrefl : ∀ a, R a a)
    (hf : ∀ a a' b, R a a' → Again round R (f a b) (f' a' b)) (l : List β) {a a' : α}
    (h : R a a') : Again round R (l.foldlM f a) (l.foldlM f' a') := by
  induction l generalizing a a' with
  | nil => exact pure h
  | cons b l ih =>
      rw [List.foldlM_cons, List.foldlM_cons]
      exact (hf a a' b h).bind hrefl fun _ _ hnext => ih hnext

theorem mapM {f : α → Emit β} (hf : ∀ a, Again round Eq (f a) (f a)) (l : List α) :
    Again round Eq (l.mapM f) (l.mapM f) := by
  induction l with
  | nil => exact pure rfl
  | cons a l ih =>
      rw [List.mapM_cons]
      refine (hf a).bind (fun _ => rfl) ?_
      rintro b _ rfl
      refine ih.bind (fun _ => rfl) ?_
      rintro bs _ rfl
      exact pure rfl

theorem forM {f : α → Emit PUnit} (hf : ∀ a, Again round Eq (f a) (f a)) (l : List α) :
    Again round Eq (l.forM f) (l.forM f) := by
  induction l with
  | nil => exact pure rfl
  | cons a l ih => exact (hf a).bind (fun _ => rfl) fun _ _ _ => ih

/-- Any two statements may be added. -/
theorem emit (s s' : Statement) : Again round Eq (Compile.emit s) (Compile.emit s') where
  onward e := ⟨.refl e.workspace, List.prefix_rfl⟩
  repeats _ _ halongside _ := ⟨rfl, halongside.since, halongside.rests, halongside.claimed⟩

/-- Any two issues may be reported. -/
theorem report (issue issue' : Issue) :
    Again round Eq (Compile.report issue) (Compile.report issue') where
  onward e := .tell _ e _
  repeats _ _ halongside _ :=
    ⟨rfl, halongside.since.trans (List.prefix_append _ _), halongside.rests, halongside.claimed⟩

/-- The same variables are claimed. -/
theorem claim (base : String) (position : Nat) :
    Again round Eq (Compile.claim base position) (Compile.claim base position) where
  onward e := ⟨.refl e.workspace, List.prefix_rfl⟩
  repeats e e' halongside _ := by
    have hname : unclaimed base position e.claimed = unclaimed base position e'.claimed := by
      rw [halongside.claimed]
    refine ⟨hname, halongside.since, halongside.rests, ?_⟩
    show unclaimed base position e'.claimed :: e'.claimed = unclaimed base position e.claimed :: _
    rw [halongside.claimed]

/-- A variable that is defined is found, unless some feature was not resolved. -/
theorem defineVariable (name : String) :
    Again round Eq (Compile.defineVariable name) (Compile.defineVariable name) where
  onward e := ⟨e.workspace.lasts_ensureVariable name none, List.prefix_rfl⟩
  repeats e _ halongside hbefore := by
    have hdefined := hbefore.workspace.names .vars nofun name
      (e.workspace.ensureVariable_grows name none).2
    exact ⟨rfl, halongside.since, halongside.rests.ensureVariable (fun _ => hdefined) none,
      halongside.claimed⟩

/-- A request that is granted or refused both times, and asks for nothing new the second time. -/
theorem tryWorkspace {R : Except Issue α → Except Issue α → Prop}
    {f : Workspace → Except Issue (α × Workspace)}
    (hlasts : ∀ w a w₁, f w = .ok (a, w₁) → w.Lasts round.lexicons w₁)
    (hok : ∀ w a w₁ w', f w = .ok (a, w₁) → w₁.Lasts round.lexicons round.workspace →
      Workspace.Rests round.Clean round.workspace w' →
        ∃ a', f w' = .ok (a', w') ∧ R (.ok a) (.ok a'))
    (herror : ∀ w issue w', f w = .error issue → w.Lasts round.lexicons round.workspace →
      Workspace.Rests round.Clean round.workspace w' →
        ∃ issue', f w' = .error issue' ∧ R (.error issue) (.error issue')) :
    Again round R (Compile.tryWorkspace f) (Compile.tryWorkspace f) where
  onward e := by
    rw [tryWorkspace_apply]
    cases h : f e.workspace with
    | ok answer => exact ⟨hlasts _ _ _ h, List.prefix_rfl⟩
    | error issue => exact .refl _ e
  repeats e e' halongside hbefore := by
    rw [tryWorkspace_apply] at hbefore ⊢
    rw [tryWorkspace_apply]
    cases h : f e.workspace with
    | ok answer =>
        rw [h] at hbefore
        obtain ⟨a', h', hR⟩ := hok _ _ _ _ h hbefore.workspace halongside.rests
        rw [h']
        exact ⟨hR, halongside.since, halongside.rests, halongside.claimed⟩
    | error issue =>
        rw [h] at hbefore
        obtain ⟨issue', h', hR⟩ := herror _ _ _ h hbefore.workspace halongside.rests
        rw [h']
        exact ⟨hR, halongside⟩

/-- A statement may be added the second time only. -/
theorem emit_right (h : Again round R m m') (s : Statement) :
    Again round R m (Compile.emit s >>= fun _ => m') where
  onward := h.onward
  repeats e e' halongside hbefore :=
    h.repeats e { e' with statements := e'.statements ++ [s] }
      ⟨halongside.since, halongside.rests, halongside.claimed⟩ hbefore

/-- What claims no variables need not be done the second time. -/
theorem skip {a' : α} (honward : ∀ e, Onward round.lexicons e (m e).2)
    (hclaimed : ∀ e, (m e).2.claimed = e.claimed) (hR : ∀ a, R a a') :
    Again round R m (Pure.pure a') where
  onward := honward
  repeats e _ halongside _ :=
    ⟨hR _, halongside.since.trans (honward e).report, halongside.rests,
      halongside.claimed.trans (hclaimed e).symm⟩

theorem weaken {R' : α → α → Prop} (h : Again round R m m') (hR : ∀ a a', R a a' → R' a a') :
    Again round R' m m' where
  onward := h.onward
  repeats e e' halongside hbefore := by
    obtain ⟨hresult, hnext⟩ := h.repeats e e' halongside hbefore
    exact ⟨hR _ _ hresult, hnext⟩

end Again

/-! ## Providers -/

/-- Both results are granted, or none is. -/
inductive SameOutcome : Except Issue α → Except Issue α → Prop where
  | ok (a a' : α) : SameOutcome (.ok a) (.ok a')
  | error (issue issue' : Issue) : SameOutcome (.error issue) (.error issue')

theorem SameOutcome.refl (r : Except Issue α) : SameOutcome r r := by
  cases r with
  | ok a => exact .ok a a
  | error issue => exact .error issue issue

/-- What was granted the first time is granted the second time. -/
def Renewed (r r' : Except Issue α) : Prop := ∀ a, r = .ok a → ∃ a', r' = .ok a'

theorem Renewed.refl (r : Except Issue α) : Renewed r r := fun a ha => ⟨a, ha⟩

theorem SameOutcome.renewed {r r' : Except Issue α} (h : SameOutcome r r') : Renewed r r' := by
  cases h with
  | ok a a' => exact fun _ _ => ⟨a', rfl⟩
  | error issue issue' => exact nofun

theorem ensureAttribute_again (q : FeatureQuery) :
    Again round SameOutcome (tryWorkspace fun w => w.ensureAttribute round.lexicons.source q)
      (tryWorkspace fun w => w.ensureAttribute round.lexicons.source q) := by
  refine .tryWorkspace (fun w name w₁ hok => (Workspace.lasts_ensureAttribute hok).1)
    (fun w name w₁ w' hok hlasts hrests => ?_) fun w issue w' herror hlasts hrests => ?_
  · obtain ⟨found, hfound⟩ := hrests.ensureAttribute hok hlasts
    exact ⟨found, hfound, .ok name found⟩
  · obtain ⟨issue', hissue⟩ := hrests.ensureAttribute_error herror hlasts
    exact ⟨issue', hissue, .error issue issue'⟩

theorem readSource_again (position : Nat) (category label target : String) (affixFirst : Bool) :
    Again round SameOutcome
      (readSource round.lexicons position category label target affixFirst)
      (readSource round.lexicons position category label target affixFirst) := by
  have hread : ∀ s s' : Statement, Again round SameOutcome
      (do emit s; return .ok () : Emit (Except Issue Unit)) (do emit s'; return .ok ()) :=
    fun s s' => (Again.emit s s').bind (fun _ => rfl) fun _ _ _ => .pure (.ok () ())
  unfold readSource
  refine (ensureAttribute_again _).bind SameOutcome.refl ?_
  rintro _ _ (⟨part, part'⟩ | ⟨issue, issue'⟩)
  · exact hread _ _
  · refine (ensureAttribute_again _).bind SameOutcome.refl ?_
    rintro _ _ (⟨part, part'⟩ | ⟨issue, issue'⟩)
    · exact hread _ _
    · exact .pure (.error _ _)

/-- Reading a source word claims no variables. -/
theorem claimed_readSource (position : Nat) (category label target : String) (affixFirst : Bool)
    (e : Emission) :
    (readSource ctx position category label target affixFirst e).2.claimed = e.claimed := by
  unfold readSource
  rw [bind_apply, tryWorkspace_apply]
  cases e.workspace.ensureAttribute ctx.source { key := ⟨category, label, affixFirst, true⟩ } with
  | ok answer => rfl
  | error issue =>
      dsimp only
      rw [bind_apply, tryWorkspace_apply]
      cases e.workspace.ensureAttribute ctx.source
        { key := ⟨category, label, !affixFirst, true⟩ } with
      | ok answer => rfl
      | error issue => rfl

/-- The labels that are bound the second time: those of the first time, and no others unless some
feature was not resolved. -/
structure Round.Rebound (round : Round) (b b' : Bindings) : Prop where
  sublist : b.Sublist b'
  eq : round.Clean → b' = b

theorem Round.Rebound.refl (b : Bindings) : round.Rebound b b := ⟨.refl b, fun _ => rfl⟩

/-- A co-feature is bound if some label is bound to it. -/
theorem coVariable?_eq_none_iff {b : Bindings} {coFeature : String} :
    b.coVariable? coFeature = none ↔ ∀ entry ∈ b, entry.2.feature ≠ coFeature := by
  rw [Bindings.coVariable?, List.head?_eq_none_iff, List.eq_nil_iff_forall_not_mem]
  simp only [mem_sortStrings]
  rw [← List.eq_nil_iff_forall_not_mem, List.map_eq_nil_iff, List.filter_eq_nil_iff]
  simp

/-- A co-feature that was read the first time may be bound the second time, but not the other way
round. -/
theorem prepareCoFeature_again {b b' : Bindings} (hb : b.Sublist b') (set : DisjointSet)
    (o : Occurrence) :
    Again round Renewed (prepareCoFeature round.lexicons set b o)
      (prepareCoFeature round.lexicons set b' o) := by
  have hread : Again round SameOutcome _ _ :=
    readSource_again o.position o.sourceCategory set.coFeature (disjointNames set).2.2 true
  unfold prepareCoFeature
  cases hbound' : b'.coVariable? set.coFeature with
  | none =>
      have hbound : b.coVariable? set.coFeature = none :=
        coVariable?_eq_none_iff.2 fun entry hentry =>
          coVariable?_eq_none_iff.1 hbound' entry (hb.subset hentry)
      rw [hbound]
      exact hread.weaken fun _ _ h => h.renewed
  | some bound' =>
      have hrenewed : ∀ r : Except Issue Unit, Renewed r (.ok ()) := fun _ _ _ => ⟨(), rfl⟩
      cases b.coVariable? set.coFeature with
      | none =>
          refine Again.emit_right (.skip hread.onward ?_ hrenewed) _
          exact claimed_readSource _ _ _ _ _
      | some bound =>
          exact (Again.emit _ _).bind (fun _ => rfl) fun _ _ _ => .pure (hrenewed _)

theorem callDisjointMacro_again {b b' : Bindings} (hb : b.Sublist b') {set : DisjointSet}
    (hset : round.lexicons.disjoint = some set) (o : Occurrence) (target : String) :
    Again round Renewed (callDisjointMacro round.lexicons set b o target)
      (callDisjointMacro round.lexicons set b' o target) := by
  have hrequest : Again round SameOutcome
      (tryWorkspace fun w => w.ensureDisjointMacro round.lexicons.target set)
      (tryWorkspace fun w => w.ensureDisjointMacro round.lexicons.target set) := by
    refine .tryWorkspace (fun w name w₁ hok => (Workspace.lasts_ensureDisjointMacro hset hok).1)
      (fun w name w₁ w' hok hlasts hrests => ?_) fun w issue w' herror hlasts hrests => ?_
    · obtain ⟨found, hfound⟩ := hrests.ensureDisjointMacro hset hok hlasts
      exact ⟨found, hfound, .ok name found⟩
    · obtain ⟨issue', hissue⟩ := hrests.ensureDisjointMacro_error hset herror hlasts
      exact ⟨issue', hissue, .error issue issue'⟩
  rw [callDisjointMacro_eq, callDisjointMacro_eq]
  unfold callMacro
  refine hrequest.bind SameOutcome.refl ?_
  rintro _ _ (⟨handle, handle'⟩ | ⟨issue, issue'⟩)
  · refine (prepareCoFeature_again hb set o).bind Renewed.refl fun r r' hr => ?_
    cases r with
    | ok _ =>
        obtain ⟨_, rfl⟩ := hr () rfl
        exact (Again.emit _ _).bind (fun _ => rfl) fun _ _ _ =>
          (Again.emit _ _).bind (fun _ => rfl) fun _ _ _ => .pure (.refl _)
    | error issue =>
        have hrefused : ∀ r' : Except Issue Unit, Renewed (.error issue) r' := fun _ => nofun
        cases r' with
        | ok _ => exact ((Again.pure (hrefused _)).emit_right _).emit_right _
        | error issue' => exact .pure (hrefused _)
  · exact .pure (SameOutcome.error issue issue').renewed

/-- A call of a lemma macro in closed form. -/
theorem callLemmaMacro_apply (o : Occurrence) (target : String) (e : Emission) :
    callLemmaMacro ctx o target e =
      match e.workspace.ensureLemmaMacro ctx.target o.category o.feature.label with
      | .ok (handle, workspace) =>
        (.ok (), { e with
          workspace
          statements := e.statements ++ [.call handle.name o.position] ++
            [.assign target (.var handle.result)] })
      | .error issue => (.error issue, e) := by
  unfold callLemmaMacro
  rw [bind_apply, tryWorkspace_apply]
  cases e.workspace.ensureLemmaMacro ctx.target o.category o.feature.label with
  | ok answer => rfl
  | error issue => rfl

theorem callLemmaMacro_onward (o : Occurrence) (target : String) (e : Emission) :
    Onward ctx e (callLemmaMacro ctx o target e).2 := by
  rw [callLemmaMacro_apply]
  cases h : e.workspace.ensureLemmaMacro ctx.target o.category o.feature.label with
  | ok answer => exact ⟨(Workspace.lasts_ensureLemmaMacro h).1, List.prefix_rfl⟩
  | error issue => exact .refl _ e

/-- A lemma macro that was refused may be granted, but then not all features were resolved. -/
theorem callLemmaMacro_repeats {o : Occurrence} {target : String}
    (halongside : Alongside round e e')
    (hbefore : round.Before (callLemmaMacro round.lexicons o target e).2)
    (hrefused : ∀ issue, (callLemmaMacro round.lexicons o target e).1 = .error issue →
      ¬ round.Clean) :
    Renewed (callLemmaMacro round.lexicons o target e).1
        (callLemmaMacro round.lexicons o target e').1 ∧
      Alongside round (callLemmaMacro round.lexicons o target e).2
        (callLemmaMacro round.lexicons o target e').2 := by
  rw [callLemmaMacro_apply] at hbefore hrefused ⊢
  rw [callLemmaMacro_apply]
  cases h : e.workspace.ensureLemmaMacro round.lexicons.target o.category o.feature.label with
  | ok answer =>
      rw [h] at hbefore
      obtain ⟨found, hfound⟩ := halongside.rests.ensureLemmaMacro h hbefore.workspace
      rw [hfound]
      exact ⟨.refl _, halongside.since, halongside.rests, halongside.claimed⟩
  | error issue =>
      rw [h] at hrefused
      refine ⟨nofun, halongside.since, ?_, ?_⟩
      · cases h' : e'.workspace.ensureLemmaMacro round.lexicons.target o.category
          o.feature.label with
        | ok answer =>
            exact halongside.rests.ensureLemmaMacro_of_error (hrefused issue rfl) h h'
        | error issue' => exact halongside.rests
      · cases e'.workspace.ensureLemmaMacro round.lexicons.target o.category
          o.feature.label with
        | ok answer => exact halongside.claimed
        | error issue' => exact halongside.claimed

/-- What a provider does is a call of a lemma macro, or is repeated in any case. -/
theorem provide_cases {b b' : Bindings} (hb : b.Sublist b') (o : Occurrence) (target : String) :
    (∀ b, provide round.lexicons b o target = callLemmaMacro round.lexicons o target) ∨
      Again round Renewed (provide round.lexicons b o target)
        (provide round.lexicons b' o target) := by
  have hread : ∀ affixFirst, Again round Renewed
      (readSource round.lexicons o.position o.sourceCategory o.feature.label target affixFirst)
      (readSource round.lexicons o.position o.sourceCategory o.feature.label target affixFirst) :=
    fun affixFirst => (readSource_again _ _ _ _ affixFirst).weaken fun _ _ h => h.renewed
  unfold provide
  cases o.site with
  | source => exact .inr (hread false)
  | affix _ => exact .inr (hread true)
  | word =>
      cases hset : disjointSetOf? round.lexicons o with
      | some set =>
          exact .inr (callDisjointMacro_again hb (disjoint_of_disjointSetOf? hset) o target)
      | none => exact .inl fun _ => rfl

/-- A computation only fails for a feature that cannot be resolved. -/
def FailsUnresolved (m : Emit (Except Issue α)) : Prop :=
  ∀ e issue, (m e).1 = .error issue → ∃ category label, issue = .unresolvedFeature category label

namespace FailsUnresolved

variable {m : Emit α} {f : α → Emit (Except Issue β)}

theorem ok (a : α) : FailsUnresolved (Pure.pure (.ok a) : Emit (Except Issue α)) := fun _ _ => nofun

theorem bind (hf : ∀ a, FailsUnresolved (f a)) : FailsUnresolved (m >>= f) :=
  fun e issue h => hf (m e).1 (m e).2 issue h

/-- What is answered is handed on, or used. -/
theorem bindExcept {m : Emit (Except Issue α)} {f : Except Issue α → Emit (Except Issue β)}
    (hm : FailsUnresolved m) (herror : ∀ issue, f (.error issue) = Pure.pure (.error issue))
    (hok : ∀ a, FailsUnresolved (f (.ok a))) : FailsUnresolved (m >>= f) := by
  intro e issue h
  rw [bind_apply] at h
  cases hfirst : (m e).1 with
  | ok a =>
      rw [hfirst] at h
      exact hok a _ issue h
  | error first =>
      rw [hfirst, herror] at h
      cases h
      exact hm e issue hfirst

end FailsUnresolved

theorem readSource_failsUnresolved (position : Nat) (category label target : String)
    (affixFirst : Bool) :
    FailsUnresolved (readSource ctx position category label target affixFirst) := by
  unfold readSource
  refine FailsUnresolved.bind fun first => ?_
  cases first with
  | ok part => exact FailsUnresolved.bind fun _ => .ok ()
  | error _ =>
      refine FailsUnresolved.bind fun second => ?_
      cases second with
      | ok part => exact FailsUnresolved.bind fun _ => .ok ()
      | error _ =>
          rintro e issue ⟨⟩
          exact ⟨category, label, rfl⟩

theorem prepareCoFeature_failsUnresolved (set : DisjointSet) (bindings : Bindings)
    (o : Occurrence) : FailsUnresolved (prepareCoFeature ctx set bindings o) := by
  unfold prepareCoFeature
  split
  · exact FailsUnresolved.bind fun _ => .ok ()
  · exact readSource_failsUnresolved _ _ _ _ _

theorem callMacro_failsUnresolved (demand : MacroDemand) {prepare : Emit (Except Issue Unit)}
    (hprepare : FailsUnresolved prepare) (position : Nat) (target : String) :
    FailsUnresolved (callMacro ctx demand prepare position target) := by
  unfold callMacro
  refine FailsUnresolved.bindExcept (fun e issue h => ?_) (fun _ => rfl) fun handle => ?_
  · rw [tryWorkspace_apply] at h
    cases hrequest : demand.request ctx.target e.workspace with
    | ok answer =>
        rw [hrequest] at h
        cases h
    | error refused =>
        rw [hrequest] at h
        cases h
        cases demand with
        | lemmaMacro category label =>
            exact ⟨_, _, Workspace.ensureLemmaMacro_error hrequest⟩
        | disjointMacro set => exact ⟨_, _, Workspace.ensureDisjointMacro_error hrequest⟩
  · refine hprepare.bindExcept (fun _ => rfl) fun _ => ?_
    exact FailsUnresolved.bind fun _ => FailsUnresolved.bind fun _ => .ok ()

/-- **A provider only fails** for a feature that cannot be resolved. -/
theorem provide_failsUnresolved (bindings : Bindings) (o : Occurrence) (target : String) :
    FailsUnresolved (provide ctx bindings o target) := by
  unfold provide
  cases o.site with
  | source => exact readSource_failsUnresolved _ _ _ _ _
  | affix _ => exact readSource_failsUnresolved _ _ _ _ _
  | word =>
      cases disjointSetOf? ctx o with
      | some set =>
          show FailsUnresolved (callDisjointMacro ctx set bindings o target)
          rw [callDisjointMacro_eq]
          exact callMacro_failsUnresolved _ (prepareCoFeature_failsUnresolved set bindings o) _ _
      | none =>
          show FailsUnresolved (callLemmaMacro ctx o target)
          rw [callLemmaMacro_eq]
          exact callMacro_failsUnresolved _ (.ok ()) _ _

theorem provide_onward (b : Bindings) (o : Occurrence) (target : String) (e : Emission) :
    Onward round.lexicons e (provide round.lexicons b o target e).2 := by
  rcases (provide_cases (.refl b) o target : _ ∨ Again round Renewed _ _) with hlemma | hagain
  · rw [hlemma]
    exact callLemmaMacro_onward o target e
  · exact hagain.onward e

theorem provide_repeats {b b' : Bindings} (hb : b.Sublist b') {o : Occurrence} {target : String}
    (halongside : Alongside round e e')
    (hbefore : round.Before (provide round.lexicons b o target e).2)
    (hrefused : ∀ issue, (provide round.lexicons b o target e).1 = .error issue → ¬ round.Clean) :
    Renewed (provide round.lexicons b o target e).1 (provide round.lexicons b' o target e').1 ∧
      Alongside round (provide round.lexicons b o target e).2
        (provide round.lexicons b' o target e').2 := by
  rcases (provide_cases hb o target : _ ∨ Again round Renewed _ _) with hlemma | hagain
  · rw [hlemma] at hbefore hrefused ⊢
    rw [hlemma]
    exact callLemmaMacro_repeats halongside hbefore hrefused
  · exact hagain.repeats e e' halongside hbefore

/-! ## Bindings -/

/-- Bind a match label after its provider has been tried. -/
def settleLabel (bindings : Bindings) (p : Provider) (name : String) :
    Except Issue Unit → Emit Bindings
  | .ok () => do
    defineVariable name
    return bindings ++
      [(p.label, ⟨name, p.occurrence.feature.label, p.occurrence.feature.fallback⟩)]
  | .error issue => do
    report issue
    return bindings

/-- A match label that is consumed is bound in three steps. -/
theorem bindLabel_eq (occurrences : List Occurrence) (bindings : Bindings) (p : Provider) :
    bindLabel ctx occurrences bindings p =
      if isConsumed occurrences p.label then do
        let name ← claim ("v_" ++ Text.identifier
          (p.occurrence.category ++ "_" ++ p.occurrence.feature.label)) p.occurrence.position
        let r ← provide ctx bindings p.occurrence name
        settleLabel bindings p name r
      else return bindings :=
  rfl

theorem settleLabel_onward (b : Bindings) (p : Provider) (name : String) (r : Except Issue Unit)
    (e : Emission) : Onward ctx e (settleLabel b p name r e).2 := by
  cases r with
  | ok _ => exact ⟨e.workspace.lasts_ensureVariable name none, List.prefix_rfl⟩
  | error issue => exact .tell ctx e _

/-- A label is bound again, and one that was not bound may be bound now. -/
theorem settleLabel_again {b b' : Bindings} (hb : round.Rebound b b') (p : Provider) (name : String)
    {r r' : Except Issue Unit} (hr : Renewed r r') (hrefused : ∀ issue, r = .error issue →
      ¬ round.Clean) :
    Again round round.Rebound (settleLabel b p name r) (settleLabel b' p name r') := by
  cases r with
  | ok _ =>
      obtain ⟨_, rfl⟩ := hr () rfl
      refine (Again.defineVariable name).bind (fun _ => rfl) fun _ _ _ => .pure ?_
      exact ⟨hb.sublist.append (.refl _), fun hclean => by rw [hb.eq hclean]⟩
  | error issue =>
      have hunclean := hrefused issue rfl
      cases r' with
      | ok _ =>
          refine ⟨settleLabel_onward b p name _, fun e e' halongside _ => ⟨⟨?_, ?_⟩, ?_, ?_, ?_⟩⟩
          · exact hb.sublist.trans (List.sublist_append_left _ _)
          · exact fun hclean => absurd hclean hunclean
          · exact halongside.since.trans (List.prefix_append _ _)
          · exact halongside.rests.ensureVariable (fun hclean => absurd hclean hunclean) none
          · exact halongside.claimed
      | error issue' => exact (Again.report _ _).bind (fun _ => rfl) fun _ _ _ => .pure hb

/-- **A match label is bound again.**  If it could not be bound, that was reported in the round. -/
theorem bindLabel_again (occurrences : List Occurrence) {b b' : Bindings} (p : Provider)
    (hb : round.Rebound b b') :
    Again round round.Rebound (bindLabel round.lexicons occurrences b p)
      (bindLabel round.lexicons occurrences b' p) := by
  rw [bindLabel_eq, bindLabel_eq]
  split
  · refine (Again.claim _ _).bind (fun _ => rfl) ?_
    rintro name _ rfl
    refine ⟨fun e => (provide_onward b _ name e).trans (settleLabel_onward b p name _ _),
      fun e e' halongside hbefore => ?_⟩
    rw [bind_apply] at hbefore ⊢
    rw [bind_apply]
    have hprovided : Onward round.lexicons e _ := provide_onward b p.occurrence name e
    have hrefused : ∀ issue, (provide round.lexicons b p.occurrence name e).1 = .error issue →
        ¬ round.Clean := by
      intro issue hissue
      obtain ⟨category, label, rfl⟩ := provide_failsUnresolved b p.occurrence name e issue hissue
      rw [hissue] at hbefore
      exact Round.not_clean (halongside.since.trans hprovided.report) hbefore.report
    obtain ⟨hr, hnext⟩ := provide_repeats hb.sublist halongside
      (hbefore.of_onward (settleLabel_onward b p name _ _)) hrefused
    exact (settleLabel_again hb p name hr hrefused).repeats _ _ hnext hbefore
  · exact .pure hb

theorem bindLabels_again (r : Resolution) :
    Again round round.Rebound (bindLabels round.lexicons r) (bindLabels round.lexicons r) :=
  Again.foldlM .refl (fun _ _ p hb => bindLabel_again r.occurrences p hb) _ (.refl [])

/-! ## Rules -/

/-- The categories of the pattern are found. -/
theorem emitPattern_again (words : List SourceWord) :
    Again round Eq (emitPattern round.lexicons words) (emitPattern round.lexicons words) := by
  refine .mapM (fun w => ⟨fun e => ?_, fun e e' halongside hbefore => ?_⟩) words
  · exact ⟨e.workspace.lasts_ensureCategory _ _ _, List.prefix_rfl⟩
  · have hlasts : (e.workspace.ensureCategory _ _ _).2.Lasts round.lexicons round.workspace :=
      hbefore.workspace
    have hfound := halongside.rests.ensureCategory hlasts
    show (e.workspace.ensureCategory _ _ _).1 = (e'.workspace.ensureCategory _ _ _).1 ∧
      Alongside round { e with workspace := (e.workspace.ensureCategory _ _ _).2 }
        { e' with workspace := (e'.workspace.ensureCategory _ _ _).2 }
    rw [hfound]
    exact ⟨rfl, halongside.since, halongside.rests, halongside.claimed⟩

/-- The first part of a compilation: the pattern and the bindings. -/
def openRule (ctx : Lexicons) (rule : Rule) (r : Resolution) : Emit (List String × Bindings) := do
  let pattern ← emitPattern ctx rule.source
  (ignoredFeatures rule.name r).forM report
  let bindings ← bindLabels ctx r
  return (pattern, bindings)

/-- The second part: the output, and the category attribute. -/
def closeRule (ctx : Lexicons) (rule : Rule) (r : Resolution) (pattern : List String)
    (bindings : Bindings) : Emit CompiledRule := do
  let output ← emitOutput ctx bindings rule r rule.target.zipIdx
  if needsGramCat rule then
    modifyWorkspace fun w => w.ensureGramCat (ruleCategories ctx rule)
  let e ← get
  return { pattern, statements := e.statements, output }

theorem compile_eq_open (rule : Rule) (r : Resolution) :
    compile ctx rule r =
      openRule ctx rule r >>= fun opened => closeRule ctx rule r opened.1 opened.2 :=
  rfl

theorem openRule_again (rule : Rule) (r : Resolution) :
    Again round (fun opened opened' => round.Rebound opened.2 opened'.2)
      (openRule round.lexicons rule r) (openRule round.lexicons rule r) := by
  unfold openRule
  refine (emitPattern_again rule.source).bind (fun _ => rfl) fun pattern pattern' _ => ?_
  refine (Again.forM (fun issue => .report issue issue) _).bind (fun _ => rfl) fun _ _ _ => ?_
  exact (bindLabels_again r).bind .refl fun _ _ hb => .pure hb

/-- The workspace after the second part. -/
theorem workspace_closeRule (rule : Rule) (r : Resolution) (pattern : List String) (b : Bindings)
    (e : Emission) :
    (closeRule ctx rule r pattern b e).2.workspace =
      if needsGramCat rule then
        (emitOutput ctx b rule r rule.target.zipIdx e).2.workspace.ensureGramCat
          (ruleCategories ctx rule)
      else (emitOutput ctx b rule r rule.target.zipIdx e).2.workspace := by
  unfold closeRule
  rw [bind_apply]
  split
  · rfl
  · rfl

theorem report_closeRule (rule : Rule) (r : Resolution) (pattern : List String) (b : Bindings)
    (e : Emission) :
    (closeRule ctx rule r pattern b e).2.report =
      (emitOutput ctx b rule r rule.target.zipIdx e).2.report := by
  unfold closeRule
  rw [bind_apply]
  split
  · rfl
  · rfl

theorem closeRule_onward (rule : Rule) (r : Resolution) (pattern : List String) (b : Bindings)
    (e : Emission) : Onward ctx e (closeRule ctx rule r pattern b e).2 := by
  have hlocal : Local (emitOutput ctx b rule r rule.target.zipIdx) := emitOutput_local b rule r _
  obtain ⟨output, f, heffect⟩ := hlocal.exists_effect e.claimed
  have houtput : e.workspace.Lasts ctx (e.workspace.ensureVariables f.defined) :=
    e.workspace.lasts_ensureVariables f.defined
  refine ⟨?_, ?_⟩
  · rw [workspace_closeRule, heffect e rfl]
    split
    · exact houtput.trans (Workspace.lasts_ensureGramCat _ _)
    · exact houtput
  · rw [report_closeRule, heffect e rfl]
    exact List.prefix_append _ _

/-- The second part only defines variables, the same ones if all features were resolved. -/
theorem closeRule_rests (rule : Rule) (r : Resolution) (pattern pattern' : List String)
    {b b' : Bindings} (hb : round.Rebound b b') (halongside : Alongside round e e')
    (hbefore : round.Before (closeRule round.lexicons rule r pattern b e).2) :
    Workspace.Rests round.Clean round.workspace
      (closeRule round.lexicons rule r pattern' b' e').2.workspace := by
  have hlocal : ∀ b, Local (emitOutput round.lexicons b rule r rule.target.zipIdx) :=
    fun b => emitOutput_local b rule r _
  obtain ⟨output, f, heffect⟩ := (hlocal b).exists_effect e.claimed
  obtain ⟨output', f', heffect'⟩ := (hlocal b').exists_effect e'.claimed
  have hlasts := hbefore.workspace
  rw [workspace_closeRule, heffect e rfl] at hlasts
  have houtput : (e.extend f).workspace.Lasts round.lexicons round.workspace := by
    split at hlasts
    · exact (Workspace.lasts_ensureGramCat _ _).trans hlasts
    · exact hlasts
  have hdefined : round.Clean → ∀ v ∈ f'.defined,
      v ∈ round.workspace.document.definitionNames .vars := by
    intro hclean v hv
    obtain rfl := hb.eq hclean
    -- Both times it is the same computation, with the same variables claimed.
    have hsame : e.extend f' = e.extend f := by
      have h := heffect' e halongside.claimed.symm
      rw [heffect e rfl] at h
      exact (Prod.ext_iff.1 h).2.symm
    refine houtput.names .vars nofun v ?_
    rw [← hsame]
    exact (e.workspace.ensureVariables_grows f'.defined).2 v hv
  have hrests := halongside.rests.ensureVariables hdefined
  rw [workspace_closeRule, heffect' e' rfl]
  split
  · next hneeds =>
    rw [if_pos hneeds] at hlasts
    exact hrests.ensureGramCat hlasts
  · exact hrests

theorem compile_onward (rule : Rule) (r : Resolution) (e : Emission) :
    Onward round.lexicons e (compile round.lexicons rule r e).2 := by
  rw [compile_eq_open, bind_apply]
  exact ((openRule_again rule r).onward e).trans (closeRule_onward rule r _ _ _)

/-- **A rule that is compiled again** leaves the workspace where the round left it. -/
theorem compile_rests (rule : Rule) (r : Resolution) (halongside : Alongside round e e')
    (hbefore : round.Before (compile round.lexicons rule r e).2) :
    Workspace.Rests round.Clean round.workspace
      (compile round.lexicons rule r e').2.workspace := by
  rw [compile_eq_open, bind_apply] at hbefore ⊢
  obtain ⟨hopened, hnext⟩ := (openRule_again rule r).repeats e e' halongside
    (hbefore.of_onward (closeRule_onward rule r _ _ _))
  exact closeRule_rests rule r _ _ hopened hnext hbefore

end TransferRules.Compile

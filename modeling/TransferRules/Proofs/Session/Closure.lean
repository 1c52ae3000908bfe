import TransferRules.Proofs.Session.HeldMacros

/-!
# What is generated refers to what is defined

A rule refers to categories, attributes, macros and variables, and a file with a reference to
something that is not defined is refused.  Every rule that a session adds refers to definitions
only, except that a variable may be undefined if its feature could not be resolved, which is
reported.  The macros that come with the rules refer to defined variables only.  A trim at the end
breaks none of these references.

## Main Definitions

* `TransferDocument.Continues` — which definitions of a document are kept of an earlier one, and
  which were added
* `Session.Resolves` — a reference is to a definition
* `Session.Closes`, `Session.ClosedSince` — what is added between two states of a session refers to
  definitions only
* `Session.processAll` — process some specifications

## Main Statements

* `Session.Step.closes`, `Session.closes_processAll` — processing adds what is closed
* `Session.ClosedSince.trim` — and it is closed still after a trim
* `Session.closed_of_run` — what is generated refers to what is defined

## Design Notes

A rule that replaces a loaded one may be written just like it, so the elements alone do not tell
what was added.  Their names do: what is kept has the provenance that it had before, and what is
added is generated.
-/

namespace TransferRules

open TransferRules.Action
open TransferRules.Compile
open TransferRules.Markup
open TransferRules.Transfer

/-- No reference is to a rule. -/
theorem kind_ne_rules_of_mem_references {e : Element} {r : Reference} (h : r ∈ references e) :
    r.kind ≠ .rules := by
  obtain ⟨inner, -, hr⟩ := List.mem_filterMap.1 h
  simp only [reference?, Option.bind_eq_bind, Option.bind_eq_some_iff] at hr
  obtain ⟨⟨kind, key⟩, hkey, target, -, hif⟩ := hr
  split at hif
  · cases hif
  · cases hif
    rintro rfl
    grind [referenceKey?]

/-! ## What is kept and what is added -/

namespace Transfer.TransferDocument

variable {d t u : TransferDocument} {kind : SectionKind} {kept kept' added added' : List Element}

/-- The definitions of a section of the document `t` are those that are kept of `d`, under the
provenance that their names had there, and then those that were added, which are generated. -/
structure Continues (d t : TransferDocument) (kind : SectionKind) (kept added : List Element) :
    Prop where
  definitions : t.definitions kind = kept ++ added
  sublist : kept.Sublist (d.definitions kind)
  kept : ∀ e ∈ kept, ∀ name, definitionName? kind e = some name →
    t.provenanceOf? kind name = d.provenanceOf? kind name
  added : ∀ e ∈ added, ∃ name, definitionName? kind e = some name ∧
    t.provenanceOf? kind name = some .generated

namespace Continues

/-- Some definitions are removed, and the provenance of the others is what it was. -/
theorem of_sublist (hsublist : (t.definitions kind).Sublist (d.definitions kind))
    (hprovenance : ∀ name ∈ t.definitionNames kind,
      t.provenanceOf? kind name = d.provenanceOf? kind name) :
    Continues d t kind (t.definitions kind) [] where
  definitions := (List.append_nil _).symm
  sublist := hsublist
  kept e he name hname := hprovenance name (mem_definitionNames.2 ⟨e, he, hname⟩)
  added := nofun

/-- What was added first and is kept by what comes then counts as added. -/
theorem trans (h : Continues d t kind kept added) (h' : Continues t u kind kept' added') :
    ∃ old new, new.Sublist added ∧ Continues d u kind old (new ++ added') := by
  have hsublist := h'.sublist
  rw [h.definitions] at hsublist
  obtain ⟨old, new, heq, hold, hnew⟩ := List.sublist_append_iff.1 hsublist
  have hkept : ∀ e, e ∈ old ∨ e ∈ new → e ∈ kept' := fun e he => heq ▸ List.mem_append.2 he
  refine ⟨old, new, hnew, ?_, hold.trans h.sublist, fun e he name hname => ?_, fun e he => ?_⟩
  · rw [h'.definitions, heq, List.append_assoc]
  · exact (h'.kept e (hkept e (.inl he)) name hname).trans
      (h.kept e (hold.subset he) name hname)
  · rcases List.mem_append.1 he with he | he
    · obtain ⟨name, hname, hgenerated⟩ := h.added e (hnew.subset he)
      exact ⟨name, hname, (h'.kept e (hkept e (.inr he)) name hname).trans hgenerated⟩
    · exact h'.added e he

end Continues

/-- What stays when names are removed. -/
theorem continues_removeAll (d : TransferDocument) (kind : SectionKind) (names : List String) :
    Continues d (d.removeAll kind names) kind ((d.removeAll kind names).definitions kind) [] := by
  refine .of_sublist ?_ fun name hname => ?_
  · rw [definitions_eq, definitions_eq, childrenOf_removeAll, if_pos rfl]
    exact (List.filter_sublist.filterMap Node.element?).filter _
  · rw [definitionNames_removeAll, if_pos rfl, List.mem_filter] at hname
    refine (provenanceOf?_removeAll name).trans (if_neg fun h => ?_)
    simp [h.2.1] at hname

/-- What stays after a trim. -/
theorem continues_trim (hd : d.WellNamed) (kind : SectionKind) :
    Continues d d.trim.2 kind (d.trim.2.definitions kind) [] := by
  refine .of_sublist ?_ fun name hname => ?_
  · rw [definitions_eq, definitions_eq, childrenOf_trim]
    exact (List.filter_sublist.filterMap Node.element?).filter _
  · rw [definitionNames_trim, List.mem_filter] at hname
    refine (provenanceOf?_trim hd).trans (if_neg fun h => ?_)
    simp [h] at hname

end Transfer.TransferDocument

open TransferDocument (Continues)

namespace Session

variable {s t u : Session} {disjoint : Option DisjointSet} {replaced : List String}

/-- A reference is to a definition.  To a variable it may also be if some feature could not be
resolved. -/
def Resolves (s : Session) (r : Reference) : Prop :=
  r.name ∈ s.document.definitionNames r.kind ∨ r.kind = .vars ∧ s.report.Unresolved

/-- What is added between two states of a session refers to definitions only, and what was defined
outside the rules, or reported, is so still. -/
structure Closes (s t : Session) : Prop where
  names : ∀ kind, kind ≠ .rules → ∀ name ∈ s.document.definitionNames kind,
    name ∈ t.document.definitionNames kind
  report : ∀ entry ∈ s.report.entries, entry ∈ t.report.entries
  rules : ∃ kept added, Continues s.document t.document .rules kept added ∧
    ∀ e ∈ added, ∀ r ∈ references e, t.Resolves r

namespace Closes

/-- Some rules are removed, and nothing else is. -/
theorem of_continues (hnames : ∀ kind, kind ≠ .rules → ∀ name ∈ s.document.definitionNames kind,
      name ∈ t.document.definitionNames kind)
    (hreport : ∀ entry ∈ s.report.entries, entry ∈ t.report.entries)
    {kept : List Element} (hrules : Continues s.document t.document .rules kept []) :
    Closes s t :=
  ⟨hnames, hreport, kept, [], hrules, nofun⟩

theorem refl (s : Session) : Closes s s :=
  of_continues (fun _ _ _ hname => hname) (fun _ hentry => hentry)
    (.of_sublist (.refl _) fun _ _ => rfl)

theorem resolves (h : Closes s t) {r : Reference} (hkind : r.kind ≠ .rules)
    (hr : s.Resolves r) : t.Resolves r := by
  rcases hr with hdefined | ⟨hvars, hunresolved⟩
  · exact .inl (h.names _ hkind _ hdefined)
  · exact .inr ⟨hvars, hunresolved.mono h.report⟩

/-- What was added first and is kept by what comes then counts as added. -/
theorem trans (h : Closes s t) (h' : Closes t u) : Closes s u where
  names kind hkind name hname := h'.names kind hkind name (h.names kind hkind name hname)
  report entry hentry := h'.report entry (h.report entry hentry)
  rules := by
    obtain ⟨kept, added, hrules, hadded⟩ := h.rules
    obtain ⟨kept', added', hrules', hadded'⟩ := h'.rules
    obtain ⟨old, new, hnew, hcontinues⟩ := hrules.trans hrules'
    refine ⟨old, new ++ added', hcontinues, fun e he r hr => ?_⟩
    rcases List.mem_append.1 he with he | he
    · exact h'.resolves (kind_ne_rules_of_mem_references hr) (hadded e (hnew.subset he) r hr)
    · exact hadded' e he r hr

end Closes

/-! ## Processing -/

/-- Whatever a compilation knows is defined, or could not be resolved. -/
theorem resolves_of_known {ctx : Lexicons} {e : Emission} (he : Settled ctx e)
    (hsupplied : e.workspace.Supplied) (hdocument : t.document = e.workspace.document)
    (hreport : t.report = e.report) {r : Reference} (hr : Known ctx e r) : t.Resolves r := by
  unfold Resolves
  rw [hdocument, hreport]
  cases hr with
  | part hname => exact .inl hname
  | call hm => exact .inl (he.coherent.mem_definitionNames_of_held (mem_held_of_heldFor hm))
  | held hm hname => exact .inl (hsupplied _ (mem_held_of_heldFor hm) _ hname)
  | claimed hname =>
      rcases he.ready _ hname with hunresolved | hready
      · exact .inr ⟨rfl, hunresolved⟩
      · exact .inl hready.1

/-- The compiled form of a rule refers to definitions only. -/
theorem resolves_of_compiled {ctx : Lexicons} {e : Emission} {compiled : CompiledRule}
    (hcompiled : Compiled ctx compiled e) (hsupplied : e.workspace.Supplied)
    (hknown : ∀ statement ∈ e.statements, ∀ r ∈ statement.references, Known ctx e r)
    (hdocument : t.document = e.workspace.document) (hreport : t.report = e.report)
    {r : Reference} (hr : r ∈ compiled.references) : t.Resolves r := by
  have hresolves : ∀ {r}, Known ctx e r → t.Resolves r :=
    resolves_of_known hcompiled.settled hsupplied hdocument hreport
  rcases List.mem_append.1 hr with hr | hr
  · obtain ⟨name, hname, rfl⟩ := List.mem_map.1 hr
    refine .inl ?_
    rw [hdocument]
    exact hcompiled.pattern name hname
  · rcases List.mem_append.1 hr with hr | hr
    · obtain ⟨statement, hstatement, hr⟩ := List.mem_flatMap.1 hr
      rw [hcompiled.statements] at hstatement
      exact hresolves (hknown statement hstatement r hr)
    · obtain ⟨entry, hentry, hr⟩ := List.mem_flatMap.1 hr
      rcases hcompiled.output entry hentry r hr with ⟨name, hname, rfl⟩ | ⟨hkind, hdefined⟩
      · exact hresolves (.claimed hname)
      · refine .inl ?_
        rw [hdocument, hkind]
        exact hdefined

/-- A rule is added under a name that is not in use, after the workspace has grown for it. -/
theorem continues_define {w w' : Workspace} (hw' : w'.Coherent) (hgrows : w.Grows w')
    {name : String} {e : Element} (htag : e.name = SectionKind.rules.definitionTag)
    (hname : definitionName? .rules e = some name)
    (hfresh : name ∉ w'.document.definitionNames .rules) :
    Continues w.document (w'.define .rules name e).document .rules
      (w.document.definitions .rules) [e] where
  definitions := by
    have hkept : w'.document.definitions .rules = w.document.definitions .rules := by
      rw [TransferDocument.definitions_eq, hgrows.rules.1, ← TransferDocument.definitions_eq]
    rw [← hkept]
    exact (TransferDocument.definitions_addDefinition htag).trans (if_pos rfl)
  sublist := .refl _
  kept e' he' n hn := by
    have hdefined := TransferDocument.mem_definitionNames.2 ⟨e', he', hn⟩
    refine ((TransferDocument.provenanceOf?_addDefinition hname n).trans (if_neg ?_)).trans
      (hgrows.provenanceOf? hdefined)
    rintro ⟨-, rfl⟩
    exact hfresh (hgrows.mem_definitionNames hdefined)
  added e' he' := by
    have hnone : w'.document.provenanceOf? .rules name = none :=
      Option.not_isSome_iff_eq_none.1 (mt (hw'.provenance .rules name).1 hfresh)
    refine ⟨name, List.mem_singleton.1 he' ▸ hname, ?_⟩
    exact (TransferDocument.provenanceOf?_addDefinition hname name).trans
      ((if_pos ⟨rfl, rfl⟩).trans (by rw [hnone]; rfl))

/-- **Step lemma.**  What a step of processing adds refers to definitions only. -/
theorem Step.closes (hs : s.workspace.Coherent) (hsupplied : s.workspace.Supplied)
    (h : Step disjoint replaced s t) : Closes s t := by
  cases h with
  | tell entries =>
      exact .of_continues (fun _ _ _ hname => hname)
        (fun entry hentry => List.mem_append_left _ hentry)
        (.of_sublist (.refl _) fun _ _ => rfl)
  | drop hname =>
      refine .of_continues (fun kind hkind name hname => ?_) (fun _ hentry => hentry)
        (s.document.continues_removeAll .rules [_])
      exact Workspace.mem_definitionNames_discard.2 ⟨hname, fun h => hkind h.1⟩
  | add rule r =>
      obtain ⟨compiled, e, hmoves, hcompiled, heq⟩ := s.addCompiled_spec disjoint rule r hs
      have hextends := Moves.extends hs hmoves
      have hfresh : (e.workspace.names.allocate .rules rule.name).1 ∉
          e.workspace.document.definitionNames .rules :=
        hcompiled.settled.coherent.notMem_of_unused (e.workspace.names.allocate_fst_notMem _)
      rw [heq]
      generalize (e.workspace.names.allocate .rules rule.name).1 = name at hfresh ⊢
      have htag : (compiled.toElement name).name = SectionKind.rules.definitionTag := rfl
      have hname := definitionName?_compiledRule name compiled
      have hworks : s.workspace.Works [] e.workspace := works_of_moves hs hmoves
      -- The rule itself is no definition that a rule refers to.
      have hclosed : ∀ r ∈ references (compiled.toElement name),
          ({ s with report := e.report, workspace := e.workspace } : Session).Resolves r := by
        intro r hr
        rw [references_compiledRule] at hr
        exact resolves_of_compiled hcompiled
          (hsupplied.enriches hworks.enriches)
          (Moves.known hs hmoves nofun) rfl rfl hr
      have hnames : ∀ kind, ∀ n ∈ e.workspace.document.definitionNames kind,
          n ∈ (e.workspace.define .rules name
            (compiled.toElement name)).document.definitionNames kind :=
        fun kind n hn => (Workspace.mem_definitionNames_define htag hname).2 (.inl hn)
      refine ⟨fun kind _ n hn => hnames kind n (hextends.grows.mem_definitionNames hn),
        hextends.report, _, _,
        continues_define hcompiled.settled.coherent hextends.grows htag hname hfresh,
        fun e' he' r hr => ?_⟩
      rw [List.mem_singleton.1 he'] at hr
      exact (hclosed r hr).imp_left fun hdefined => hnames _ _ hdefined

/-- **Run lemma.**  And so does what any number of steps add. -/
theorem Steps.closes (hs : s.workspace.Coherent) (hsupplied : s.workspace.Supplied)
    (h : Steps disjoint replaced s t) : Closes s t := by
  induction h with
  | refl => exact .refl s
  | tail hsteps hstep ih =>
      have hworks := Steps.works hs hsteps
      exact ih.trans (hstep.closes (hs.works hworks) (hsupplied.enriches hworks.enriches))

/-- Process some specifications, each with its name in the report. -/
def processAll (s : Session) (documents : List (Specification × String)) : Session :=
  documents.foldl (fun s document => (s.process document.1 document.2).2) s

theorem closes_processAll (hs : s.workspace.Coherent) (hsupplied : s.workspace.Supplied)
    (documents : List (Specification × String)) : Closes s (s.processAll documents) ∧
      Workspace.Enriches s.workspace (s.processAll documents).workspace := by
  induction documents generalizing s with
  | nil => exact ⟨.refl s, .refl s.workspace⟩
  | cons document documents ih =>
      have hsteps := s.process_steps document.1 document.2
      have hworks := hsteps.works hs
      obtain ⟨hcloses, henriches⟩ := ih (hs.works hworks) (hsupplied.enriches hworks.enriches)
      exact ⟨(hsteps.closes hs hsupplied).trans hcloses, hworks.enriches.trans henriches⟩

/-! ## Trims -/

/-- A trim breaks no reference of a definition that counts as a user. -/
theorem resolves_trim (hd : s.document.WellNamed) {e : Element} (huser : s.document.IsUser e)
    {r : Reference} (hr : r ∈ references e) (h : s.Resolves r) : s.trim.2.Resolves r := by
  refine h.imp_left fun hdefined => ?_
  obtain ⟨kind, name⟩ := r
  by_cases hmacros : kind = .macros
  · subst hmacros
    exact TransferDocument.mem_definitionNames_trim_of_used hd
      (.inl ⟨rfl, huser.macroUsed hr⟩) hdefined
  · by_cases hvars : kind = .vars
    · subst hvars
      exact TransferDocument.mem_definitionNames_trim_of_used hd
        (.inr ⟨rfl, e, huser, hr⟩) hdefined
    · show name ∈ s.document.trim.2.definitionNames kind
      rw [TransferDocument.definitionNames, TransferDocument.definitions_trim_of_ne hmacros hvars]
      exact hdefined

/-! ## Runs -/

/-- The rules and macros that are added between two states of a session refer to definitions only;
they come after what is kept of those before. -/
structure ClosedSince (s t : Session) : Prop where
  rules : ∃ kept added, Continues s.document t.document .rules kept added ∧
    ∀ e ∈ added, ∀ r ∈ references e, t.Resolves r
  macros : ∃ kept added, Continues s.document t.document .macros kept added ∧
    ∀ e ∈ added, ∀ v, ⟨.vars, v⟩ ∈ references e → v ∈ t.document.definitionNames .vars

theorem closedSince_of_closes (hcloses : Closes s t)
    (henriches : Workspace.Enriches s.workspace t.workspace) (hs : s.workspace.Coherent)
    (ht : t.workspace.Coherent)
    (hloaded : ∀ name, t.document.provenanceOf? .macros name = some .loaded →
      s.document.provenanceOf? .macros name = some .loaded) : ClosedSince s t where
  rules := hcloses.rules
  macros := by
    obtain ⟨new, hnew, hmade⟩ := henriches.macros
    refine ⟨_, new.map MacroDefinition.toElement, ⟨hnew, .refl _, fun e he name hname => ?_,
      fun e he => ?_⟩, fun e he v hv => ?_⟩
    · exact henriches.provenance name (TransferDocument.mem_definitionNames.2 ⟨e, he, hname⟩)
    · obtain ⟨m, hm, rfl⟩ := List.mem_map.1 he
      have hname := Workspace.definitionName?_macroDefinition m
      have hdefined : m.name ∈ t.document.definitionNames .macros :=
        TransferDocument.mem_definitionNames.2
          ⟨m.toElement, hnew ▸ List.mem_append_right _ he, hname⟩
      refine ⟨m.name, hname, ?_⟩
      obtain ⟨p, hp⟩ := Option.isSome_iff_exists.1 ((ht.provenance .macros m.name).2 hdefined)
      cases p with
      | generated => exact hp
      | loaded =>
          -- Its name is new, so it was not loaded.
          refine absurd ((hs.provenance .macros m.name).1 ?_) (hmade m hm).1
          rw [show s.workspace.document.provenanceOf? .macros m.name = _ from hloaded _ hp]
          rfl
    · obtain ⟨m, hm, rfl⟩ := List.mem_map.1 he
      obtain ⟨-, x, vs, hsynthesized, hvariables⟩ := hmade m hm
      rw [references_macroDefinition] at hv
      obtain ⟨v', hv', heq⟩ := hsynthesized.eq_of_mem_references hv
      cases heq
      exact hvariables v hv'

/-- What stays after a trim is used, so it is closed still. -/
theorem ClosedSince.trim (h : ClosedSince s t) (ht : t.document.WellNamed) :
    ClosedSince s t.trim.2 where
  rules := by
    obtain ⟨kept, added, hrules, hadded⟩ := h.rules
    obtain ⟨old, new, hnew, hcontinues⟩ :=
      hrules.trans (TransferDocument.continues_trim ht .rules)
    rw [List.append_nil] at hcontinues
    refine ⟨old, new, hcontinues, fun e he r hr => ?_⟩
    have hstays : e ∈ t.document.trim.2.definitions .rules :=
      hcontinues.definitions ▸ List.mem_append_right _ he
    exact resolves_trim ht (TransferDocument.isUser_of_mem_trim ht (.inl hstays)) hr
      (hadded e (hnew.subset he) r hr)
  macros := by
    obtain ⟨kept, added, hmacros, hadded⟩ := h.macros
    obtain ⟨old, new, hnew, hcontinues⟩ :=
      hmacros.trans (TransferDocument.continues_trim ht .macros)
    rw [List.append_nil] at hcontinues
    refine ⟨old, new, hcontinues, fun e he v hv => ?_⟩
    have hstays : e ∈ t.document.trim.2.definitions .macros :=
      hcontinues.definitions ▸ List.mem_append_right _ he
    obtain ⟨name, hname, -⟩ := hcontinues.added e he
    have huser := TransferDocument.isUser_of_mem_trim ht
      (.inr ⟨hstays, by rw [hname]; rfl⟩)
    exact TransferDocument.mem_definitionNames_trim_of_used ht (.inr ⟨rfl, e, huser, hv⟩)
      (hadded e (hnew.subset he) v hv)

theorem processAll_eq_applyAll (s : Session) (documents : List (Specification × String)) :
    s.processAll documents =
      s.applyAll (documents.map fun document => .process document.1 document.2) := by
  rw [applyAll, List.foldl_map]
  rfl

/-- After a load at the start everything is loaded. -/
theorem asLoaded_run (source target : Lexicon) (settings : GeneratorSettings)
    (text? : Option String) :
    ((start source target settings).run (text?.toList.map .load)).document.AsLoaded := by
  have hstart : (start source target settings).document.AsLoaded := by
    obtain ⟨d, hd, heq⟩ := workspace_start source target settings
    show (start source target settings).workspace.document.AsLoaded
    rw [heq]
    exact hd
  cases text? with
  | none => exact hstart
  | some text =>
      show ((start source target settings).handle (.load text)).document.AsLoaded
      rw [handle]
      cases h : (start source target settings).loadText text with
      | ok loaded =>
          obtain ⟨d, hd, rfl⟩ := loadText_eq_ok h
          exact hd
      | error error => exact hstart

/-- **What is generated refers to what is defined.**  After a load at the start everything is
loaded.  After the processing of any specifications, and a trim at the end, every rule that was
added refers only to categories, attributes and macros that are defined, and to variables that are
defined unless some feature could not be resolved; and every macro that was added refers to defined
variables. -/
theorem closed_of_run (source target : Lexicon) (settings : GeneratorSettings)
    (text? : Option String) (documents : List (Specification × String)) (trimmed : Bool) :
    let loaded := (start source target settings).run (text?.toList.map .load)
    let processed := loaded.processAll documents
    loaded.document.AsLoaded ∧
      ClosedSince loaded (if trimmed then processed.trim.2 else processed) := by
  intro loaded processed
  refine ⟨asLoaded_run source target settings text?, ?_⟩
  have hcoherent : loaded.workspace.Coherent := coherent_run source target settings _
  have hsupplied : loaded.workspace.Supplied := by
    refine supplied_run source target settings fun event hevent => ?_
    obtain ⟨text, -, rfl⟩ := List.mem_map.1 hevent
    exact nofun
  have hchanges := applyAll_changes hcoherent
    (documents.map fun document => .process document.1 document.2)
  rw [← processAll_eq_applyAll] at hchanges
  have hnamed : processed.document.WellNamed := by
    have hrun : processed = (start source target settings).run (text?.toList.map .load ++
        documents.map fun document => .operation (.process document.1 document.2)) := by
      rw [run, List.foldl_append, List.foldl_map]
      rfl
    rw [hrun]
    exact wellNamed_run source target settings _
  obtain ⟨hcloses, henriches⟩ := closes_processAll hcoherent hsupplied documents
  have hclosed : ClosedSince loaded processed :=
    closedSince_of_closes hcloses henriches hcoherent (hcoherent.changes hchanges)
      fun name => loaded_of_edits hchanges.edits
  cases trimmed with
  | false => exact hclosed
  | true => exact hclosed.trim hnamed

end Session

end TransferRules

import TransferRules.Proofs.Session.HeldMacros
import TransferRules.Proofs.Session.Skipping

/-!
# What requests preserve

Compiling rules, and most of what else is done with a session, comes down to requests, and the
session always makes them for the languages that it was started with.  All that happens beside them
leaves the attributes alone: rules are added and removed, variables and macros are trimmed, and
names are taken.  So what is true of the attributes after every load, and stays true with every
request, is true of every session.

## Main Definitions

* `KeptByRequests` — what depends on the attributes and stays true with every request
* `Session.SameSetup` — sessions with the same lexicons and settings

## Main Statements

* `Session.sameSetup_run` — a session keeps the lexicons and settings it was started with
* `KeptByRequests.apply` — **step lemma**: it stays true with every operation
* `KeptByRequests.applyAll`, `KeptByRequests.run` — **run lemmas**
-/

namespace TransferRules

open TransferRules.Compile
open TransferRules.Transfer

/-- Something depends on the attributes of a workspace, and stays true with every request for two
languages. -/
structure KeptByRequests (source target : Lexicon) (P : Workspace → Prop) : Prop where
  request : ∀ {disjoint : Option DisjointSet} {w w' : Workspace}, w.Coherent → P w →
    Request ⟨source, target, disjoint⟩ w w' → P w'
  attributes : ∀ {w w' : Workspace}, P w →
    w'.document.definitions .attributes = w.document.definitions .attributes →
    w'.attributes = w.attributes → P w'

namespace Session

variable {s : Session}

/-- Two sessions have the same lexicons and settings. -/
structure SameSetup (s t : Session) : Prop where
  source : t.source = s.source
  target : t.target = s.target
  settings : t.settings = s.settings

theorem SameSetup.refl (s : Session) : SameSetup s s := ⟨rfl, rfl, rfl⟩

theorem SameSetup.trans {s t u : Session} (h : SameSetup s t) (h' : SameSetup t u) :
    SameSetup s u :=
  ⟨h'.source.trans h.source, h'.target.trans h.target, h'.settings.trans h.settings⟩

/-- Operations keep the lexicons and the settings. -/
theorem sameSetup_apply (s : Session) (op : Operation) : SameSetup s (s.apply op) := by
  cases op with
  | process x document =>
      obtain ⟨entries, hprocess, -⟩ := s.process_eq x document
      simp only [apply, hprocess]
      exact ⟨rfl, rfl, rfl⟩
  | ensureAttribute q =>
      simp only [apply, ensureAttribute]
      cases s.workspace.ensureAttribute (s.lexiconOf q.key) q with
      | ok result => exact ⟨rfl, rfl, rfl⟩
      | error issue => exact ⟨rfl, rfl, rfl⟩
  | trim => exact ⟨rfl, rfl, rfl⟩
  | addAttribute _ _ => exact ⟨rfl, rfl, rfl⟩
  | addVariable _ _ => exact ⟨rfl, rfl, rfl⟩
  | availableName _ _ => exact ⟨rfl, rfl, rfl⟩

theorem sameSetup_applyAll (s : Session) (ops : List Operation) :
    SameSetup s (s.applyAll ops) := by
  induction ops generalizing s with
  | nil => exact .refl s
  | cons op ops ih => exact (s.sameSetup_apply op).trans (ih (s.apply op))

/-- So do loads. -/
theorem sameSetup_handle (s : Session) (event : Event) : SameSetup s (s.handle event) := by
  cases event with
  | operation op => exact s.sameSetup_apply op
  | load text =>
      simp only [handle]
      cases h : s.loadText text with
      | ok loaded =>
          obtain ⟨d, -, rfl⟩ := loadText_eq_ok h
          exact ⟨rfl, rfl, rfl⟩
      | error error => exact .refl s

theorem sameSetup_run (s : Session) (events : List Event) : SameSetup s (s.run events) := by
  induction events generalizing s with
  | nil => exact .refl s
  | cons event events ih => exact (s.sameSetup_handle event).trans (ih (s.handle event))

end Session

namespace KeptByRequests

variable {source target : Lexicon} {P : Workspace → Prop} {disjoint : Option DisjointSet}
  {w : Workspace}

/-! ## Compiling some rules -/

theorem moves (hP : KeptByRequests source target P) {e e' : Emission} (he : e.workspace.Coherent)
    (h : P e.workspace) (hmoves : Moves ⟨source, target, disjoint⟩ e e') : P e'.workspace := by
  induction hmoves with
  | refl => exact h
  | tail hbefore hmove ih =>
      cases hmove with
      | ask hrequest => exact hP.request (Moves.coherent he hbefore) ih hrequest
      | note _ => exact ih
      | claim _ => exact ih
      | emit _ => exact ih

theorem addRule (hP : KeptByRequests source target P) (hw : w.Coherent) (h : P w) (rule : Rule)
    (r : Resolution) : P (w.addRule ⟨source, target, disjoint⟩ rule r).2 := by
  have hsettled : Settled ⟨source, target, disjoint⟩ { workspace := w, report := .empty } :=
    ⟨hw, nofun⟩
  refine hP.attributes (hP.moves hw h (compile_leads hsettled rule r).1) ?_ rfl
  exact (TransferDocument.definitions_addDefinition rfl).trans (if_neg nofun)

theorem addRules (hP : KeptByRequests source target P) (hw : w.Coherent) (h : P w)
    (rules : List (Rule × Resolution)) :
    P (w.addRules ⟨source, target, disjoint⟩ rules).2 := by
  induction rules generalizing w with
  | nil => exact h
  | cons first rules ih =>
      exact ih (hw.addRule first.1 first.2).1 (hP.addRule hw h first.1 first.2)

/-! ## Operations -/

variable {s : Session}

theorem cleared (hP : KeptByRequests source target P) (h : P s.workspace) (x : Specification) :
    P (s.cleared x) := by
  unfold Session.cleared
  split
  · exact hP.attributes h (Workspace.definitions_discard nofun) rfl
  · exact h

/-- **Step lemma.** -/
theorem apply (hP : KeptByRequests s.source s.target P) (hs : s.workspace.Coherent)
    (h : P s.workspace) (op : Operation) : P (s.apply op).workspace := by
  cases op with
  | process x document =>
      obtain ⟨entries, hprocess, -⟩ := s.process_eq x document
      simp only [Session.apply, hprocess]
      exact hP.addRules (Session.coherent_cleared hs x) (hP.cleared h x) _
  | trim => exact hP.attributes h (TransferDocument.definitions_trim_of_ne nofun nofun) rfl
  | ensureAttribute q =>
      show P (s.ensureAttribute q).2.workspace
      unfold Session.ensureAttribute
      cases hq : s.workspace.ensureAttribute (s.lexiconOf q.key) q with
      | ok result =>
          exact hP.request hs h (show Request (s.lexicons none) _ _ from .needAttribute hq)
      | error issue => exact h
  | addAttribute base values =>
      exact hP.request hs h (show Request (s.lexicons none) _ _ from .needValues _ base values)
  | addVariable name comment? =>
      exact hP.request hs h (show Request (s.lexicons none) _ _ from .needVariable _ _ comment?)
  | availableName kind base => exact hP.attributes h rfl rfl

/-- **Run lemma**, between two loads. -/
theorem applyAll (hP : KeptByRequests s.source s.target P) (hs : s.workspace.Coherent)
    (h : P s.workspace) (ops : List Operation) : P (s.applyAll ops).workspace := by
  induction ops generalizing s with
  | nil => exact h
  | cons op ops ih =>
      have hsetup := s.sameSetup_apply op
      have hP' : KeptByRequests (s.apply op).source (s.apply op).target P := by
        rw [hsetup.source, hsetup.target]
        exact hP
      exact ih hP' (hs.changes (Session.apply_changes hs op)) (hP.apply hs h op)

/-- **Run lemma.**  It is true in every session that was started and run if it is true after
loads. -/
theorem run (hP : KeptByRequests source target P)
    (hload : ∀ d : TransferDocument, d.AsLoaded → P (.ofDocument d)) (settings : GeneratorSettings)
    (events : List Event) : P ((Session.start source target settings).run events).workspace := by
  induction events using List.reverseRecOn with
  | nil =>
      obtain ⟨d, hd, hstart⟩ := Session.workspace_start source target settings
      show P (Session.start source target settings).workspace
      rw [hstart]
      exact hload d hd
  | append_singleton events event ih =>
      have hcoherent := Session.coherent_run source target settings events
      have hsetup := (Session.start source target settings).sameSetup_run events
      rw [Session.run_append]
      generalize (Session.start source target settings).run events = s at *
      cases event with
      | load text =>
          simp only [Session.handle]
          cases h : s.loadText text with
          | ok loaded =>
              obtain ⟨d, hd, rfl⟩ := Session.loadText_eq_ok h
              exact hload d hd
          | error error => exact ih
      | operation op =>
          have hP' : KeptByRequests s.source s.target P := by
            rw [hsetup.source, hsetup.target]
            exact hP
          exact hP'.apply hcoherent ih op

end KeptByRequests

end TransferRules

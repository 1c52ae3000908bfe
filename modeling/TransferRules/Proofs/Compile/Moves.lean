import TransferRules.Compile.Rule
import TransferRules.Proofs.Workspace.Requests

/-!
# Moves of a compilation

Compiling a rule is made of four kinds of moves: a request is made of the workspace, a message is
noted, a variable is claimed, or a statement is added.  A statement is only added if all that it
refers to is known, and all that it reads has been assigned before; the one exception is a variable
whose feature could not be resolved, and that has been reported then.  So what a whole compilation
adds can be read off its moves.

## Main Definitions

* `Known` — what a compilation may refer to
* `Assigned`, `InOrder` — a variable that some statements assign, and statements that read only
  what is assigned before
* `Move`, `Moves` — the moves of a compilation
* `Extends` — how an emission is related to a later one

## Main Statements

* `Moves.extends` — moves take nothing back
* `Moves.known`, `Moves.inOrder` — what is added refers to what is known, and reads what is assigned
-/

namespace TransferRules

open TransferRules.Action
open TransferRules.Transfer

/-- Whether a report has the message of an issue. -/
def Report.Has (r : Report) (issue : Issue) : Prop :=
  (⟨issue.severity, issue.message⟩ : ReportEntry) ∈ r.entries

/-- Whether it was reported that the lexicon knows no values of some feature. -/
def Report.Unresolved (r : Report) : Prop :=
  ∃ category label, r.Has (.unresolvedFeature category label)

theorem Report.Unresolved.mono {r r' : Report} (hr : r.Unresolved)
    (h : ∀ entry ∈ r.entries, entry ∈ r'.entries) : r'.Unresolved := by
  obtain ⟨category, label, hhas⟩ := hr
  exact ⟨category, label, h _ hhas⟩

theorem Report.has_note (r : Report) (issue : Issue) : (r.note issue).Has issue :=
  List.mem_append_right _ (List.mem_singleton_self _)

namespace Compile

variable {ctx : Lexicons} {e e' : Emission} {w w' : Workspace}

/-- The macros that are held for a compilation: that of a disjoint set counts only if the set is
the one in effect. -/
def heldFor (ctx : Lexicons) (t : MacroTable) : List HeldMacro :=
  { t with disjoint := t.disjoint.filter fun entry => decide (ctx.disjoint = some entry.1) }.held

theorem mem_heldFor_iff {t : MacroTable} {m : HeldMacro} : m ∈ heldFor ctx t ↔
    (∃ entry ∈ t.lemmaMacros, m = { name := entry.2.name, result := entry.2.result }) ∨
      ∃ set handle, ctx.disjoint = some set ∧ t.disjoint = some (set, handle) ∧
        m = ⟨handle.name, handle.result, some (disjointNames set).2.2⟩ := by
  unfold heldFor
  rw [MacroTable.mem_held_iff]
  refine or_congr_right ⟨?_, ?_⟩
  · rintro ⟨⟨set, handle⟩, hentry, rfl⟩
    obtain ⟨hheld, hset⟩ := Option.filter_eq_some_iff.1 hentry
    exact ⟨set, handle, by simpa using hset, hheld, rfl⟩
  · rintro ⟨set, handle, hset, hheld, rfl⟩
    exact ⟨(set, handle), Option.filter_eq_some_iff.2 ⟨hheld, by simpa using hset⟩, rfl⟩

theorem mem_held_of_heldFor {t : MacroTable} {m : HeldMacro} (h : m ∈ heldFor ctx t) :
    m ∈ t.held := by
  rw [MacroTable.mem_held_iff]
  rcases mem_heldFor_iff.1 h with hlemma | ⟨set, handle, -, hheld, rfl⟩
  · exact .inl hlemma
  · exact .inr ⟨_, hheld, rfl⟩

/-- No request makes a compilation lose a macro: it only asks for the set in effect. -/
theorem heldFor_of_request (h : Request ctx w w') {m : HeldMacro} (hm : m ∈ heldFor ctx w.macros) :
    m ∈ heldFor ctx w'.macros := by
  rcases h.macros_eq with ⟨-, hmacros⟩ | ⟨category, label, handle, h⟩ | ⟨set, handle, hset, h⟩
  · exact hmacros ▸ hm
  · rcases Workspace.ensureLemmaMacro_cases h with ⟨-, rfl⟩ | ⟨rfl, rfl⟩
    · exact hm
    · have hmakes := w.makes_makeMacro (lemmaMacroFor ctx.target category label)
        [(lemmaHandle category label).result]
      rw [← hmakes.macros] at hm
      rw [mem_heldFor_iff] at hm ⊢
      rcases hm with ⟨entry, hentry, rfl⟩ | hdisjoint
      · exact .inl ⟨entry, List.mem_append_left _ hentry, rfl⟩
      · exact .inr hdisjoint
  · rcases Workspace.ensureDisjointMacro_cases h with
      ⟨-, rfl⟩ | ⟨hother, name, w₁, -, hw₁, rfl, rfl⟩
    · exact hm
    · have hmakes := w₁.makes_makeMacro (disjointMacroFor ctx.target set name)
        [(disjointHandle ctx.target set name).result, (disjointNames set).2.2]
      have hmacros : w₁.macros = w.macros := by
        rcases hw₁ with rfl | rfl
        · rfl
        · rfl
      rw [mem_heldFor_iff] at hm ⊢
      rcases hm with ⟨entry, hentry, rfl⟩ | ⟨set', handle, hset', hheld, rfl⟩
      · rw [← hmacros, ← hmakes.macros] at hentry
        exact .inl ⟨entry, hentry, rfl⟩
      · rw [hset] at hset'
        cases hset'
        exact absurd hheld (hother handle)

theorem disjoint_of_disjointSetOf? {o : Occurrence} {set : DisjointSet}
    (h : disjointSetOf? ctx o = some set) : ctx.disjoint = some set := by
  unfold disjointSetOf? at h
  split at h
  · exact (Option.filter_eq_some_iff.1 h).1
  · cases h

/-! ## Moves -/

/-- What an emission may refer to: an attribute that is defined, a macro that is held or one of
its variables, and a variable that the rule has claimed. -/
inductive Known (ctx : Lexicons) (e : Emission) : Reference → Prop where
  | part {name : String} (h : name ∈ e.workspace.document.definitionNames .attributes) :
      Known ctx e ⟨.attributes, name⟩
  | call {m : HeldMacro} (hm : m ∈ heldFor ctx e.workspace.macros) :
      Known ctx e ⟨.macros, m.name⟩
  | held {m : HeldMacro} {name : String} (hm : m ∈ heldFor ctx e.workspace.macros)
      (h : name ∈ m.variables) : Known ctx e ⟨.vars, name⟩
  | claimed {name : String} (h : name ∈ e.claimed) : Known ctx e ⟨.vars, name⟩

/-- Some statements assign a variable: one sets it whichever branch is taken, or one calls a macro
that does. -/
inductive Assigned (held : List HeldMacro) (statements : List Statement) (name : String) :
    Prop where
  | set {s : Statement} (hs : s ∈ statements) (h : name ∈ s.sets)
  | called {m : HeldMacro} {position : Nat} (hm : m ∈ held)
      (hs : .call m.name position ∈ statements) (h : name = m.result)

/-- A statement that may be added: it refers to what is known, and it reads what is assigned,
unless some feature could not be resolved. -/
structure Admits (ctx : Lexicons) (e : Emission) (s : Statement) : Prop where
  known : ∀ r ∈ s.references, Known ctx e r
  assigned : e.report.Unresolved ∨
    ∀ name ∈ s.reads, Assigned (heldFor ctx e.workspace.macros) e.statements name

/-- One move of a compilation. -/
inductive Move (ctx : Lexicons) : Emission → Emission → Prop where
  | ask {e : Emission} {w : Workspace} (h : Request ctx e.workspace w) :
      Move ctx e { e with workspace := w }
  | note (e : Emission) (issue : Issue) : Move ctx e { e with report := e.report.note issue }
  | claim (e : Emission) (name : String) : Move ctx e { e with claimed := name :: e.claimed }
  | emit {e : Emission} {s : Statement} (h : Admits ctx e s) :
      Move ctx e { e with statements := e.statements ++ [s] }

/-- Any number of moves. -/
abbrev Moves (ctx : Lexicons) : Emission → Emission → Prop := Relation.ReflTransGen (Move ctx)

/-! ## Nothing is taken back -/

/-- A later emission has all that an earlier one has. -/
structure Extends (ctx : Lexicons) (e e' : Emission) : Prop where
  grows : e.workspace.Grows e'.workspace
  held : ∀ m ∈ heldFor ctx e.workspace.macros, m ∈ heldFor ctx e'.workspace.macros
  report : ∀ entry ∈ e.report.entries, entry ∈ e'.report.entries
  claimed : ∀ name ∈ e.claimed, name ∈ e'.claimed
  statements : ∀ s ∈ e.statements, s ∈ e'.statements

theorem Extends.refl (ctx : Lexicons) (e : Emission) : Extends ctx e e where
  grows := .refl
  held _ hm := hm
  report _ hentry := hentry
  claimed _ hname := hname
  statements _ hs := hs

theorem Extends.trans {e'' : Emission} (h : Extends ctx e e') (h' : Extends ctx e' e'') :
    Extends ctx e e'' where
  grows := Relation.ReflTransGen.trans h.grows h'.grows
  held m hm := h'.held m (h.held m hm)
  report entry hentry := h'.report entry (h.report entry hentry)
  claimed name hname := h'.claimed name (h.claimed name hname)
  statements s hs := h'.statements s (h.statements s hs)

theorem Move.extends (he : e.workspace.Coherent) (h : Move ctx e e') : Extends ctx e e' := by
  have hrefl := Extends.refl ctx e
  cases h with
  | ask h =>
      exact { hrefl with grows := h.grows he, held := fun m hm => heldFor_of_request h hm }
  | note issue =>
      exact { hrefl with report := fun entry hentry => List.mem_append_left _ hentry }
  | claim name => exact { hrefl with claimed := fun n hn => List.mem_cons_of_mem _ hn }
  | emit h => exact { hrefl with statements := fun s hs => List.mem_append_left _ hs }

/-- **Moves take nothing back.** -/
theorem Moves.extends (he : e.workspace.Coherent) (h : Moves ctx e e') : Extends ctx e e' := by
  induction h with
  | refl => exact .refl ctx e
  | tail _ hmove ih => exact ih.trans (hmove.extends (he.grows ih.grows))

theorem Moves.coherent (he : e.workspace.Coherent) (h : Moves ctx e e') :
    e'.workspace.Coherent :=
  he.grows (h.extends he).grows

theorem Extends.unresolved (h : Extends ctx e e') (hu : e.report.Unresolved) :
    e'.report.Unresolved :=
  hu.mono h.report

theorem Extends.known (h : Extends ctx e e') {r : Reference} (hr : Known ctx e r) :
    Known ctx e' r := by
  cases hr with
  | part hname => exact .part (h.grows.mem_definitionNames hname)
  | call hm => exact .call (h.held _ hm)
  | held hm hname => exact .held (h.held _ hm) hname
  | claimed hname => exact .claimed (h.claimed _ hname)

theorem Assigned.mono {held held' : List HeldMacro} {statements statements' : List Statement}
    {name : String} (h : Assigned held statements name) (hheld : ∀ m ∈ held, m ∈ held')
    (hstatements : ∀ s ∈ statements, s ∈ statements') : Assigned held' statements' name := by
  cases h with
  | set hs hname => exact .set (hstatements _ hs) hname
  | called hm hs hname => exact .called (hheld _ hm) (hstatements _ hs) hname

/-! ## What is added -/

/-- What is added refers to what is known in the end. -/
theorem Moves.known (he : e.workspace.Coherent) (h : Moves ctx e e')
    (hknown : ∀ s ∈ e.statements, ∀ r ∈ s.references, Known ctx e r) :
    ∀ s ∈ e'.statements, ∀ r ∈ s.references, Known ctx e' r := by
  induction h with
  | refl => exact hknown
  | tail hmoves hmove ih =>
      have hextends := hmove.extends (Moves.coherent he hmoves)
      intro s hs r hr
      cases hmove with
      | emit hadmits =>
          rcases List.mem_append.1 hs with hs | hs
          · exact hextends.known (ih s hs r hr)
          · rw [List.mem_singleton.1 hs] at hr
            exact hextends.known (hadmits.known r hr)
      | ask _ => exact hextends.known (ih s hs r hr)
      | note _ => exact hextends.known (ih s hs r hr)
      | claim _ => exact hextends.known (ih s hs r hr)

/-- Statements of which each only reads what those before it assign. -/
inductive InOrder (held : List HeldMacro) : List Statement → Prop where
  | nil : InOrder held []
  | snoc {before : List Statement} {s : Statement} (hbefore : InOrder held before)
      (hreads : ∀ name ∈ s.reads, Assigned held before name) : InOrder held (before ++ [s])

theorem InOrder.mono {held held' : List HeldMacro} {statements : List Statement}
    (h : InOrder held statements) (hheld : ∀ m ∈ held, m ∈ held') : InOrder held' statements := by
  induction h with
  | nil => exact .nil
  | snoc _ hreads ih =>
      exact .snoc ih fun name hname => (hreads name hname).mono hheld fun _ hs => hs

/-- **No statement reads what is not assigned before**, unless some feature could not be
resolved. -/
theorem Moves.inOrder (he : e.workspace.Coherent) (h : Moves ctx e e')
    (horder : e.report.Unresolved ∨ InOrder (heldFor ctx e.workspace.macros) e.statements) :
    e'.report.Unresolved ∨ InOrder (heldFor ctx e'.workspace.macros) e'.statements := by
  induction h with
  | refl => exact horder
  | tail hmoves hmove ih =>
      have hextends := hmove.extends (Moves.coherent he hmoves)
      rcases ih with hu | ih
      · exact .inl (hextends.unresolved hu)
      · cases hmove with
        | emit hadmits =>
            rcases hadmits.assigned with hu | hassigned
            · exact .inl hu
            · exact .inr (ih.snoc hassigned)
        | ask _ => exact .inr (ih.mono hextends.held)
        | note _ => exact .inr ih
        | claim _ => exact .inr ih

end Compile

end TransferRules

import Mathlib.Data.List.Induction
import TransferRules.Proofs.Transfer.Names

/-!
# The history of names

Names are allocated, reserved and released one after the other.  A name is held from the time that
it is allocated or reserved until it is released.  The table of names in use does not record how a
name came into use, but it knows exactly the names that are held, besides those that were in use at
the start and have not been released.  So a name that is allocated is none of these.

## Main Definitions

* `NameRequest`, `NameEvent` — what can be asked of a table of names, and what happens then
* `NameTable.answer`, `NameTable.answerAll`, `NameTable.history` — one request, and several
* `IsHeld` — a name was taken and has not been released since

## Main Statements

* `NameTable.mem_used_answer` — what one request does to the names in use
* `NameTable.mem_used_answerAll` — the names in use after a history are those that are held
* `NameTable.allocate_exact` — which name is allocated, what changes, and that it is not held
-/

namespace TransferRules.Transfer

open TransferRules.Text

/-- What can be asked of a table of names. -/
inductive NameRequest where
  | allocate (kind : SectionKind) (base : String)
  | reserve (kind : SectionKind) (name : String)
  | release (kind : SectionKind) (name : String)
  deriving Repr, DecidableEq

/-- What happens to a name. -/
inductive NameEvent where
  | allocated (kind : SectionKind) (name : String)
  | reserved (kind : SectionKind) (name : String)
  | released (kind : SectionKind) (name : String)
  deriving Repr, DecidableEq

/-- A name comes into use by being allocated or reserved. -/
def NameEvent.Takes (event : NameEvent) (kind : SectionKind) (name : String) : Prop :=
  event = .allocated kind name ∨ event = .reserved kind name

/-- A name was taken and has not been released since. -/
def IsHeld (events : List NameEvent) (kind : SectionKind) (name : String) : Prop :=
  ∃ earlier event later, events = earlier ++ event :: later ∧ event.Takes kind name ∧
    .released kind name ∉ later

namespace NameTable

/-- Answer a request. -/
def answer (t : NameTable) : NameRequest → NameEvent × NameTable
  | .allocate kind base => (.allocated kind (t.allocate kind base).1, (t.allocate kind base).2)
  | .reserve kind name => (.reserved kind name, t.reserve kind name)
  | .release kind name => (.released kind name, t.release kind name)

/-- The table after some requests. -/
def answerAll (t : NameTable) : List NameRequest → NameTable
  | [] => t
  | request :: requests => (t.answer request).2.answerAll requests

/-- What happens when some requests are made one after the other. -/
def history (t : NameTable) : List NameRequest → List NameEvent
  | [] => []
  | request :: requests => (t.answer request).1 :: (t.answer request).2.history requests

variable {t : NameTable} {kind : SectionKind} {name : String}

theorem answerAll_append (t : NameTable) (requests more : List NameRequest) :
    t.answerAll (requests ++ more) = (t.answerAll requests).answerAll more := by
  induction requests generalizing t with
  | nil => rfl
  | cons request requests ih => exact ih _

theorem history_append (t : NameTable) (requests more : List NameRequest) :
    t.history (requests ++ more) =
      t.history requests ++ (t.answerAll requests).history more := by
  induction requests generalizing t with
  | nil => rfl
  | cons request requests ih => exact congrArg _ (ih _)

/-- A part of a history is the history of the first requests. -/
theorem exists_of_history_eq_append {requests : List NameRequest} {earlier later : List NameEvent}
    (h : t.history requests = earlier ++ later) :
    ∃ first rest, requests = first ++ rest ∧ t.history first = earlier ∧
      (t.answerAll first).history rest = later := by
  induction earlier generalizing t requests with
  | nil => exact ⟨[], requests, rfl, rfl, h⟩
  | cons event earlier ih =>
      cases requests with
      | nil => cases h
      | cons request requests =>
          obtain ⟨hevent, hrest⟩ := List.cons.inj h
          obtain ⟨first, rest, rfl, hfirst, hlater⟩ := ih hrest
          exact ⟨request :: first, rest, rfl, congrArg₂ _ hevent hfirst, hlater⟩

/-! ## What is in use -/

/-- **After a request** a name is in use if it was taken, or was in use and not released. -/
theorem mem_used_answer (request : NameRequest) :
    name ∈ (t.answer request).2.used.get kind ↔
      (t.answer request).1.Takes kind name ∨
        name ∈ t.used.get kind ∧ (t.answer request).1 ≠ .released kind name := by
  cases request with
  | allocate k base =>
      show name ∈ (t.reserve k (t.allocate k base).1).used.get kind ↔ _
      rw [mem_used_reserve]
      simp [answer, NameEvent.Takes, or_comm, eq_comm]
  | reserve k n =>
      show name ∈ (t.reserve k n).used.get kind ↔ _
      rw [mem_used_reserve]
      simp [answer, NameEvent.Takes, or_comm, eq_comm]
  | release k n =>
      show name ∈ (t.release k n).used.get kind ↔ _
      rw [mem_used_release]
      simp [answer, NameEvent.Takes, eq_comm]

theorem not_isHeld_nil : ¬ IsHeld [] kind name := by
  rintro ⟨earlier, event, later, h, -⟩
  simp at h

/-- A name is held after one more event if it was taken by it, or was held and not released. -/
theorem isHeld_concat {events : List NameEvent} {event : NameEvent} :
    IsHeld (events ++ [event]) kind name ↔
      event.Takes kind name ∨ IsHeld events kind name ∧ event ≠ .released kind name := by
  constructor
  · rintro ⟨earlier, taken, later, hevents, htakes, hlater⟩
    rcases List.eq_nil_or_concat later with rfl | ⟨later, last, rfl⟩
    · obtain ⟨-, hlast⟩ := List.append_inj' hevents rfl
      cases hlast
      exact .inl htakes
    · rw [← List.concat_eq_append, List.concat_eq_append] at hevents
      have hsplit : events ++ [event] = (earlier ++ taken :: later) ++ [last] := by
        rw [hevents]
        simp
      obtain ⟨rfl, hlast⟩ := List.append_inj' hsplit rfl
      cases hlast
      simp only [List.concat_eq_append, List.mem_append, List.mem_singleton, not_or] at hlater
      exact .inr ⟨⟨earlier, taken, later, rfl, htakes, hlater.1⟩, fun h => hlater.2 h.symm⟩
  · rintro (htakes | ⟨⟨earlier, taken, later, rfl, htakes, hlater⟩, hevent⟩)
    · exact ⟨events, event, [], rfl, htakes, List.not_mem_nil⟩
    · refine ⟨earlier, taken, later ++ [event], by simp, htakes, fun h => ?_⟩
      rcases List.mem_append.1 h with h | h
      · exact hlater h
      · exact hevent (List.mem_singleton.1 h).symm

/-- **The names in use** are those that are held, and those that were in use at the start and have
not been released. -/
theorem mem_used_answerAll (t : NameTable) (requests : List NameRequest) (kind : SectionKind)
    (name : String) :
    name ∈ (t.answerAll requests).used.get kind ↔
      IsHeld (t.history requests) kind name ∨
        name ∈ t.used.get kind ∧ .released kind name ∉ t.history requests := by
  induction requests using List.reverseRecOn with
  | nil => simp [answerAll, history, not_isHeld_nil]
  | append_singleton requests request ih =>
      have hlast : t.history (requests ++ [request]) =
          t.history requests ++ [((t.answerAll requests).answer request).1] :=
        history_append t requests [request]
      have hafter : t.answerAll (requests ++ [request]) =
          ((t.answerAll requests).answer request).2 := answerAll_append t requests [request]
      rw [hafter, mem_used_answer, ih, hlast, isHeld_concat, List.mem_append, List.mem_singleton]
      tauto

/-- **Allocation of names.**  The name that is allocated is the identifier of what was asked for if
that is free, or else the identifier with the least positive number that makes it free.  It is in
use from then on; no other name of the section is affected, and no other section.  So whatever is
allocated, reserved and released, a name that is allocated is none of those that were allocated or
reserved earlier and have not been released since. -/
theorem allocate_exact (t : NameTable) (kind : SectionKind) (base : String) :
    let name := (t.allocate kind base).1
    let after := (t.allocate kind base).2
    (identifier base ∉ t.used.get kind ∧ name = identifier base ∨
        identifier base ∈ t.used.get kind ∧ ∃ m, 1 ≤ m ∧
          name = identifier base ++ toString m ∧
          identifier base ++ toString m ∉ t.used.get kind ∧
          ∀ k, 1 ≤ k → k < m → identifier base ++ toString k ∈ t.used.get kind) ∧
      (∀ n, n ∈ after.used.get kind ↔ n ∈ t.used.get kind ∨ n = name) ∧
      (∀ other, other ≠ kind → after.used.get other = t.used.get other) ∧
      ∀ requests earlier kind name later,
        t.history requests = earlier ++ .allocated kind name :: later →
          ¬ IsHeld earlier kind name := by
  intro name after
  refine ⟨freeName_spec (identifier base) (t.used.get kind), fun n => ?_, fun other hother => ?_,
    fun requests earlier kind name later h hheld => ?_⟩
  · exact mem_used_reserve.trans (or_congr_right (and_iff_right rfl))
  · exact used_reserve_of_ne name hother
  · obtain ⟨first, rest, -, rfl, hlater⟩ := exists_of_history_eq_append h
    cases rest with
    | nil => cases hlater
    | cons request rest =>
        obtain ⟨hallocated, -⟩ := List.cons.inj hlater
        have hused : name ∈ (t.answerAll first).used.get kind :=
          (mem_used_answerAll t first kind name).2 (.inl hheld)
        cases request with
        | allocate k base =>
            cases hallocated
            exact allocate_fst_notMem base hused
        | reserve k n => cases hallocated
        | release k n => cases hallocated

/-- A name that was reserved is passed over, one that was released is allocated again. -/
theorem allocate_exact_determinedNoun :
    let requests : List NameRequest :=
      [.reserve .rules "Det_N", .allocate .rules "Det N", .release .rules "Det_N1",
        .allocate .rules "Det N", .allocate .rules " Det N"]
    let earlier : List NameEvent :=
      [.reserved .rules "Det_N", .allocated .rules "Det_N1", .released .rules "Det_N1",
        .allocated .rules "Det_N1"]
    let table := ({} : NameTable).reserve .rules "Det_N"
    ({} : NameTable).history requests = earlier ++ .allocated .rules "Det_N2" :: [] ∧
      ¬ IsHeld earlier .rules "Det_N2" ∧
      SectionKind.vars ≠ SectionKind.rules ∧
      (table.allocate .rules "Det N").2.used.get .vars = table.used.get .vars := by
  intro requests earlier table
  have hhistory : ({} : NameTable).history requests =
      earlier ++ .allocated .rules "Det_N2" :: [] := by decide +kernel
  have hsection : SectionKind.vars ≠ SectionKind.rules := by decide
  obtain ⟨-, -, -, hheld⟩ := allocate_exact {} .rules "Det N"
  obtain ⟨-, -, hothers, -⟩ := allocate_exact table .rules "Det N"
  exact ⟨hhistory, hheld _ _ _ _ _ hhistory, hsection, hothers _ hsection⟩

end NameTable

end TransferRules.Transfer

import TransferRules.Proofs.Action.Table
import TransferRules.Proofs.Compile.Composition
import TransferRules.Proofs.Compile.Relisting
import TransferRules.Proofs.Ordered.Related

/-!
# What consumers compare

An affix and a word that chooses a lemma compare features: each with a given value, or with the
content of a variable.  Which features these are is known from the rule, its bindings and the
lexicon; the statements that prepare the comparison do not matter for it.  A form carries of a
feature the value that is listed first for it.

Both make a table of what they find in the lexicon: rows with a value for every feature, and what is
put out if the variables hold the tags of these values.  If no variable is compared with, the first
row is put out at once.

## Main Definitions

* `firstValue?` — the value of a form
* `Comparison`, `comparisons` — the features that are compared, and what with
* `AddsChoice`, `readAfter` — a choice that is added, and what is read after it
* `storedTable`, `rowValue` — a table over stored values, and the value that it selects
* `emitTable` — what a consumer emits, given its rows

## Main Statements

* `usableFeatures_spec` — what is compared, and what is reported on the way
* `Local.steps` — only steps are added for it
* `isMet_storedEquations`, `read_storedTable` — the test of a row, and what the table is read as
* `emitTable_spec` — the output is read at the first row that is met
-/

namespace TransferRules.Compile

open TransferRules.Action
open TransferRules.Ordered
open TransferRules.Text

/-- The value of a form: the one that is listed first for it. -/
def firstValue? (es : List Exponent) (form : String) : Option String :=
  (es.find? fun e => e.form == form).map Exponent.value

/-- A feature that is compared with something. -/
structure Comparison where
  label : String
  operand : Operand
  deriving Repr, DecidableEq

/-- What an occurrence is compared with, unless its match label is not bound: its fixed value, or
the variable of its label, or the copy of it for a fallback. -/
def operandOf? (bindings : Bindings) (o : Occurrence) : Option Operand :=
  match o.feature.binding with
  | .fixed value => some (.given value)
  | .agreement label =>
    (bindings.find? label).map fun bound =>
      match o.feature.fallback <|> bound.fallback with
      | none => .stored bound.name
      | some fallback => .stored (identifier (bound.name ++ "_or_" ++ fallback))

/-- The features among some occurrences that are compared: the lexicon has forms for them, and there
is something to compare with. -/
def comparisons (bindings : Bindings) (forms : String → List Exponent)
    (occurrences : List Occurrence) : List Comparison :=
  occurrences.filterMap fun o =>
    if (forms o.feature.label).isEmpty then none
    else (operandOf? bindings o).map fun operand => ⟨o.feature.label, operand⟩

/-- The issues of features without forms. -/
def unlistedFeatures (category : String) (forms : String → List Exponent)
    (occurrences : List Occurrence) : List Issue :=
  (occurrences.filter fun o => (forms o.feature.label).isEmpty).map fun o =>
    .unresolvedFeature category o.feature.label

/-- The usable feature of a comparison. -/
def Comparison.usable (forms : String → List Exponent) (c : Comparison) : Usable :=
  ⟨c.label, c.operand, firstExponents [] (forms c.label)⟩

/-- Statements are added that prepare a choice, and then the choice, if there is one. -/
def AddsChoice (e after : Emission) (choice? : Option (Choice Assignment)) : Prop :=
  ∃ copies : List Step, after.statements =
    e.statements ++ copies.map Statement.step ++ (choice?.map Statement.choose).toList

/-- What a value is read as after a choice, if there is one; the contents are those before it. -/
def readAfter (r : Reading) (contents : Contents) (choice? : Option (Choice Assignment))
    (v : Value) : String :=
  v.read r (choice?.elim contents (Choice.result r contents))

variable {bindings : Bindings} {forms : String → List Exponent} {e : Emission} {α : Type}

/-! ## Usable features -/

theorem operand?_spec (o : Occurrence) :
    (operand? bindings o e).1 = operandOf? bindings o ∧
      (operand? bindings o e).2.report = e.report := by
  unfold operand? operandOf?
  cases o.feature.binding with
  | fixed value => exact ⟨rfl, rfl⟩
  | agreement label =>
      dsimp only
      cases bindings.find? label with
      | none => exact ⟨rfl, rfl⟩
      | some bound =>
          dsimp only [Option.map_some]
          cases o.feature.fallback <|> bound.fallback with
          | none => exact ⟨rfl, rfl⟩
          | some fallback =>
              dsimp only
              rw [bind_apply, claimExactly_apply]
              split
              · exact ⟨rfl, rfl⟩
              · exact ⟨rfl, rfl⟩

/-- What is compared, and what is reported on the way. -/
theorem usableFeatures_spec (category : String) (occurrences : List Occurrence) :
    (usableFeatures bindings category forms occurrences e).1 =
        (comparisons bindings forms occurrences).map (Comparison.usable forms) ∧
      (usableFeatures bindings category forms occurrences e).2.report =
        e.report.noteAll (unlistedFeatures category forms occurrences) := by
  induction occurrences generalizing e with
  | nil => exact ⟨rfl, rfl⟩
  | cons o rest ih =>
      rw [usableFeatures_cons, comparisons, unlistedFeatures, List.filterMap_cons,
        List.filter_cons]
      cases hforms : (forms o.feature.label).isEmpty with
      | true =>
          simp only [if_true]
          exact ih
      | false =>
          obtain ⟨hoperand, hreport⟩ := @operand?_spec bindings e o
          obtain ⟨hfeatures, hrest⟩ := @ih (operand? bindings o e).2
          rw [hreport] at hrest
          simp only [Bool.false_eq_true, if_false]
          rw [bind_apply, hoperand]
          cases operandOf? bindings o with
          | none => exact ⟨hfeatures, hrest⟩
          | some operand => exact ⟨congrArg (_ :: ·) hfeatures, hrest⟩

/-- Only steps are added by what does not call a macro. -/
theorem Local.steps {m : Emit α} (h : Local m) (e : Emission) :
    ∃ steps : List Step, (m e).2.statements = e.statements ++ steps.map Statement.step := by
  induction h generalizing e with
  | pure a => exact ⟨[], (List.append_nil _).symm⟩
  | bind hm hf ihm ihf =>
      obtain ⟨first, hfirst⟩ := ihm e
      obtain ⟨second, hsecond⟩ := ihf _ _
      refine ⟨first ++ second, ?_⟩
      rw [bind_apply, hsecond, hfirst, List.map_append, List.append_assoc]
  | step s => exact ⟨[s], rfl⟩
  | report issue => exact ⟨[], (List.append_nil _).symm⟩
  | claim base position => exact ⟨[], (List.append_nil _).symm⟩
  | claimExactly name =>
      refine ⟨[], ?_⟩
      rw [claimExactly_apply, List.map_nil, List.append_nil]
      split
      · rfl
      · rfl
  | var name => exact ⟨[], (List.append_nil _).symm⟩

/-! ## Values of forms -/

theorem Comparison.valueOf?_usable (c : Comparison) (form : String) :
    (c.usable forms).valueOf? form = firstValue? (forms c.label) form := by
  rw [Usable.valueOf?, usable, find?_firstExponents List.not_mem_nil]
  rfl

/-- The exponents that are kept say what the values of forms are. -/
theorem Comparison.exists_exponent_iff (c : Comparison) {form value : String} :
    (∃ x ∈ (c.usable forms).exponents, x.form = form ∧ x.value = value) ↔
      firstValue? (forms c.label) form = some value := by
  simp only [usable, mem_firstExponents_iff, firstValue?, List.not_mem_nil, not_false_eq_true,
    true_and, Option.map_eq_some_iff]
  constructor
  · rintro ⟨x, hx, rfl, rfl⟩
    exact ⟨x, hx, rfl⟩
  · rintro ⟨x, hx, rfl⟩
    have hform : x.form = form := by simpa using List.find?_some hx
    exact ⟨x, hform.symm ▸ hx, hform, rfl⟩

theorem Comparison.mem_values_usable (c : Comparison) {value : String} :
    value ∈ (c.usable forms).values ↔ ∃ form, firstValue? (forms c.label) form = some value := by
  simp only [← c.exists_exponent_iff, Usable.values, mem_sortStrings, List.mem_map]
  constructor
  · rintro ⟨x, hx, rfl⟩
    exact ⟨x.form, x, hx, rfl, rfl⟩
  · rintro ⟨_, x, hx, -, rfl⟩
    exact ⟨x, hx, rfl⟩

theorem Comparison.mem_forms_usable (c : Comparison) {form : String} :
    form ∈ (c.usable forms).exponents.map Exponent.form ↔
      ∃ value, firstValue? (forms c.label) form = some value := by
  simp only [← c.exists_exponent_iff, List.mem_map]
  constructor
  · rintro ⟨x, hx, rfl⟩
    exact ⟨x.value, x, hx, rfl, rfl⟩
  · rintro ⟨_, x, hx, rfl, -⟩
    exact ⟨x, hx, rfl⟩

/-! ## Rows -/

theorem Operand.name?_eq_some_iff {operand : Operand} {name : String} :
    operand.name? = some name ↔ operand = .stored name := by
  cases operand <;> simp [name?]

/-- The test of a row says that the variables hold the tags of its values. -/
theorem isMet_storedEquations {r : Reading} {contents : Contents} {features : List Comparison}
    {values : List String} :
    (Test.all (storedEquations (features.map (Comparison.usable forms)) values)).isMet r contents =
        true ↔
      ∀ c value, (c, value) ∈ features.zip values → ∀ name, c.operand = .stored name →
        contents name = r.tag value := by
  simp only [Test.isMet, List.all_eq_true, storedEquations, List.mem_filterMap, List.zip_map_left,
    List.mem_map, Prod.exists, Prod.map_apply, id_eq, Option.map_eq_some_iff,
    Operand.name?_eq_some_iff]
  constructor
  · intro h c value hmem name hname
    simpa [Equation.isMet, Value.read] using
      h _ ⟨c.usable forms, value, ⟨c, value, hmem, rfl⟩, name, hname, rfl⟩
  · rintro h _ ⟨_, value, ⟨c, _, hmem, ⟨⟩⟩, name, hname, rfl⟩
    simpa [Equation.isMet, Value.read] using h c value hmem name hname

/-- The table by which stored values select a row. -/
def storedTable (target : String) (us : List Usable) (rows : List (List String × Value))
    (other : Value) : Choice Assignment :=
  table target (rows.map fun row => (.all (storedEquations us row.1), row.2)) other

/-- The value of the first row that is met, or another value if there is none. -/
def rowValue (r : Reading) (contents : Contents) (us : List Usable)
    (rows : List (List String × Value)) (other : Value) : Value :=
  ((rows.find? fun row => (Test.all (storedEquations us row.1)).isMet r contents).map
    Prod.snd).getD other

theorem read_storedTable (r : Reading) (contents : Contents) (target : String) (us : List Usable)
    (rows : List (List String × Value)) (other : Value) :
    (Value.var target).read r ((storedTable target us rows other).result r contents) =
      (rowValue r contents us rows other).read r contents := by
  rw [storedTable, read_table, List.find?_map, Option.map_map]
  rfl

/-- If all values are given there is nothing to test, and the first row is met. -/
theorem rowValue_given {r : Reading} {contents : Contents} {us : List Usable}
    (hus : (us.all fun u => u.operand.name?.isNone) = true) (row : List String × Value)
    (rows : List (List String × Value)) (other : Value) :
    rowValue r contents us (row :: rows) other = row.2 := by
  have hequations : storedEquations us row.1 = [] := by
    rw [storedEquations, List.filterMap_eq_nil_iff]
    rintro ⟨u, value⟩ hmem
    have hu := List.all_eq_true.1 hus u (List.of_mem_zip hmem).1
    dsimp only
    rw [Option.isNone_iff_eq_none.1 hu, Option.map_none]
  rw [rowValue, List.find?_cons_of_pos (by rw [hequations]; rfl)]
  rfl

/-! ## What is emitted -/

/-- The output that rows select by the values of features: that of the first row if all values are
given, and otherwise a variable that a table sets.  Without rows there is none, which may be an
issue. -/
def emitRows (base : String) (position : Nat) (us : List Usable)
    (rows : List (List String × Value)) (other : Value) (missing? : Option Issue) :
    Emit (Option Value) :=
  match rows with
  | [] => do
    missing?.forM report
    return none
  | row :: _ =>
    if us.all fun u => u.operand.name?.isNone then return some row.2
    else do
      let name ← claim base position
      defineVariable name
      emit (.choose (storedTable name us rows other))
      return some (.var name)

/-- **The output is read at the first row that is met**, and there is none if there is no row. -/
theorem emitRows_spec (base : String) (position : Nat) (us : List Usable)
    (rows : List (List String × Value)) (other : Value) (missing? : Option Issue) (e : Emission) :
    let emitted := emitRows base position us rows other missing? e
    (emitted.1 = none ↔ rows = []) ∧
      (rows = [] → emitted.2.report = e.report.noteAll missing?.toList) ∧
      (rows ≠ [] → emitted.2.report = e.report) ∧
      ∃ choice? : Option (Choice Assignment),
        emitted.2.statements = e.statements ++ (choice?.map Statement.choose).toList ∧
        (∀ choice ∈ choice?, ∃ name, choice = storedTable name us rows other) ∧
        ∀ r contents, readAfter r contents choice? (emitted.1.getD other) =
          (rowValue r contents us rows other).read r contents := by
  cases rows with
  | nil =>
      -- without rows nothing is added, and only an issue may be noted
      have hstate : (emitRows base position us [] other missing? e).2.report =
          e.report.noteAll missing?.toList ∧
          (emitRows base position us [] other missing? e).2.statements = e.statements := by
        cases missing? with
        | none => exact ⟨rfl, rfl⟩
        | some issue => exact ⟨rfl, rfl⟩
      exact ⟨Iff.intro (fun _ => rfl) fun _ => rfl, fun _ => hstate.1, fun h => absurd rfl h, none,
        hstate.2.trans (List.append_nil _).symm, nofun, fun r contents => rfl⟩
  | cons row rows =>
      unfold emitRows
      dsimp only
      by_cases hgiven : (us.all fun u => u.operand.name?.isNone) = true
      · rw [if_pos hgiven]
        refine ⟨Iff.intro nofun nofun, nofun, fun _ => rfl, none, (List.append_nil _).symm, nofun,
          fun r contents => ?_⟩
        rw [rowValue_given hgiven]
        rfl
      · rw [if_neg hgiven]
        exact ⟨Iff.intro nofun nofun, nofun, fun _ => rfl, some _, rfl,
          fun choice hchoice => ⟨_, (Option.some.inj hchoice).symm⟩,
          fun r contents => read_storedTable r contents _ us (row :: rows) other⟩

/-- What a consumer emits: the rows that it makes of its features select the output. -/
def emitTable (bindings : Bindings) (position : Nat) (category : String)
    (forms : String → List Exponent) (occurrences : List Occurrence) (base : List Usable → String)
    (rows : List Usable → List (List String × Value)) (other : Value)
    (missing? : List Usable → Option Issue) : Emit (Option Value) := do
  let us ← usableFeatures bindings category forms occurrences
  emitRows (base us) position us (rows us) other (missing? us)

theorem emitTable_spec (position : Nat) (category : String) (occurrences : List Occurrence)
    (base : List Usable → String) (rows : List Usable → List (List String × Value)) (other : Value)
    (missing? : List Usable → Option Issue) :
    let us := (comparisons bindings forms occurrences).map (Comparison.usable forms)
    let emitted :=
      emitTable bindings position category forms occurrences base rows other missing? e
    let noted := e.report.noteAll (unlistedFeatures category forms occurrences)
    (emitted.1 = none ↔ rows us = []) ∧
      (rows us = [] → emitted.2.report = noted.noteAll (missing? us).toList) ∧
      (rows us ≠ [] → emitted.2.report = noted) ∧
      ∃ choice?, AddsChoice e emitted.2 choice? ∧
        (∀ choice ∈ choice?, ∃ name, choice = storedTable name us (rows us) other) ∧
        ∀ r contents, readAfter r contents choice? (emitted.1.getD other) =
          (rowValue r contents us (rows us) other).read r contents := by
  intro us emitted noted
  obtain ⟨hus, hreport⟩ := @usableFeatures_spec bindings forms e category occurrences
  obtain ⟨copies, hcopies⟩ := (usableFeatures_local bindings category forms occurrences).steps e
  have hemitted : emitted = emitRows (base us) position us (rows us) other (missing? us)
      (usableFeatures bindings category forms occurrences e).2 := by
    unfold emitted emitTable
    rw [bind_apply, hus]
  obtain ⟨hnone, hmissing, hnoted, choice?, hchoice, htable, hread⟩ := emitRows_spec (base us)
    position us (rows us) other (missing? us)
    (usableFeatures bindings category forms occurrences e).2
  rw [← hemitted] at hnone hmissing hnoted hchoice hread
  rw [hreport] at hmissing hnoted
  rw [hcopies] at hchoice
  exact ⟨hnone, hmissing, hnoted, choice?, ⟨copies, hchoice⟩, htable, hread⟩

end TransferRules.Compile

import TransferRules.Action.Basic
import TransferRules.Proofs.Markup.Canonical

/-!
# What is generated is plain

Whatever the compiler writes is made of elements with fixed names and keys; only the values of
their attributes come from lexicons and rules.  So it is read back as it was written.

## Main Statements

* `plain_compiledRule`, `plain_macroDefinition` — rules and macros are plain
-/

namespace TransferRules

open TransferRules.Action
open TransferRules.Markup

/-- Attributes with fixed keys. -/
theorem PlainKeys.of_keys {attributes : List (String × String)} {keys : List String}
    (h : attributes.map Prod.fst = keys) (hnames : keys.all isName = true)
    (hnodup : keys.Nodup) : PlainKeys attributes where
  names _ hpair := List.all_eq_true.1 hnames _ (h ▸ List.mem_map_of_mem hpair)
  nodup := h ▸ hnodup

theorem plainKeys_nil : PlainKeys [] := ⟨nofun, List.nodup_nil⟩

theorem plainKeys_singleton {key : String} (hkey : isName key = true) (value : String) :
    PlainKeys [(key, value)] where
  names pair hpair := by
    rw [List.mem_singleton.1 hpair]
    exact hkey
  nodup := List.pairwise_singleton _ _

/-- An element is plain if its children are. -/
theorem plain_element {name : String} {attributes : List (String × String)}
    {children : List Element} (hname : isName name = true) (hkeys : PlainKeys attributes)
    (hchildren : ∀ child ∈ children, child.Plain) :
    (Written.element name attributes children).Plain :=
  .mk hname hkeys hchildren

/-- An element without children. -/
theorem plain_leaf {name : String} {attributes : List (String × String)}
    (hname : isName name = true) (hkeys : PlainKeys attributes) :
    (⟨name, attributes, []⟩ : Element).Plain := by
  have hchildren : ∀ child ∈ ([] : List Element), child.Plain := nofun
  exact plain_element hname hkeys hchildren

/-- A plain element with more plain children. -/
theorem plain_pushAll {e : Element} (he : e.Plain) {children : List Element}
    (hchildren : ∀ child ∈ children, child.Plain) : (e.pushAll children).Plain := by
  cases he with
  | @mk name attributes old hname hkeys hold =>
      rw [Element.pushAll, ← List.map_append]
      refine .mk hname hkeys fun child hchild => ?_
      rcases List.mem_append.1 hchild with hchild | hchild
      · exact hold child hchild
      · exact hchildren child hchild

theorem plain_value (v : Value) : v.toElement.Plain := by
  cases v with
  | var name => exact plain_element rfl (plainKeys_singleton rfl _) nofun
  | lit text => exact plain_element rfl (plainKeys_singleton rfl _) nofun
  | tag name => exact plain_element rfl (plainKeys_singleton rfl _) nofun
  | clip position side part =>
      have hkeys : [("pos", toString position), ("side", side.code), ("part", part)].map Prod.fst =
          ["pos", "side", "part"] := rfl
      exact plain_element rfl
        (PlainKeys.of_keys hkeys rfl (by decide)) nofun

theorem plain_equation (e : Equation) : e.toElement.Plain := by
  refine plain_element rfl plainKeys_nil fun child hchild => ?_
  simp only [List.mem_cons, List.not_mem_nil, or_false] at hchild
  rcases hchild with rfl | rfl
  · exact plain_value _
  · exact plain_value _

theorem plain_test (t : Test) : t.toElement.Plain := by
  have hequations : ∀ es : List Equation, ∀ child ∈ es.map Equation.toElement, child.Plain := by
    intro es child hchild
    obtain ⟨e, -, rfl⟩ := List.mem_map.1 hchild
    exact plain_equation e
  cases t with
  | all es =>
      rw [Test.toElement]
      unfold Written.allOf
      split
      · next h => exact hequations es _ (h ▸ List.mem_singleton_self _)
      · exact plain_element rfl plainKeys_nil (hequations es)
  | any es =>
      rw [Test.toElement]
      unfold Written.anyOf
      split
      · next h => exact hequations es _ (h ▸ List.mem_singleton_self _)
      · exact plain_element rfl plainKeys_nil (hequations es)

theorem plain_assignment (a : Assignment) : a.toElement.Plain := by
  refine plain_element rfl plainKeys_nil fun child hchild => ?_
  simp only [List.mem_cons, List.not_mem_nil, or_false] at hchild
  rcases hchild with rfl | rfl
  · exact plain_value (.var a.target)
  · exact plain_value a.value

theorem plain_choice {α : Type} {body : α → Element} (h : ∀ a, (body a).Plain) (c : Choice α) :
    (c.toElement body).Plain := by
  have hsingle : ∀ a, ∀ child ∈ [body a], child.Plain := by
    intro a child hchild
    rw [List.mem_singleton.1 hchild]
    exact h a
  have hbranch : ∀ (test : Test) (a : α), (Written.branch test.toElement [body a]).Plain := by
    intro test a
    refine plain_element rfl plainKeys_nil fun child hchild => ?_
    rcases List.mem_cons.1 hchild with rfl | hchild
    · refine plain_element rfl plainKeys_nil fun child hchild => ?_
      rw [List.mem_singleton.1 hchild]
      exact plain_test test
    · exact hsingle a child hchild
  refine plain_element rfl plainKeys_nil fun child hchild => ?_
  rcases List.mem_append.1 hchild with hchild | hchild
  · obtain ⟨branch, -, rfl⟩ := List.mem_map.1 hchild
    exact hbranch branch.1 branch.2
  · cases hotherwise : c.otherwise with
    | none =>
        rw [hotherwise] at hchild
        cases hchild
    | some a =>
        rw [hotherwise] at hchild
        rw [List.mem_singleton.1 hchild]
        exact plain_element rfl plainKeys_nil (hsingle a)

theorem plain_step (s : Action.Step) : s.toElement.Plain := by
  cases s with
  | assign a => exact plain_assignment a
  | choose c => exact plain_choice plain_assignment c

/-- An element that only has a position. -/
theorem plain_position {name : String} (hname : isName name = true) (position : Nat) :
    (Written.element name [("pos", toString position)] []).Plain :=
  plain_element hname (plainKeys_singleton rfl _) nofun

theorem plain_statement (s : Statement) : s.toElement.Plain := by
  cases s with
  | step s => exact plain_step s
  | call name position =>
      refine plain_element rfl (plainKeys_singleton rfl _)
        fun child hchild => ?_
      rw [List.mem_singleton.1 hchild]
      exact plain_position rfl position

theorem plain_outputWord (w : OutputWord) : w.toElement.Plain := by
  refine plain_element rfl plainKeys_nil fun child hchild => ?_
  obtain ⟨v, -, rfl⟩ := List.mem_map.1 hchild
  exact plain_value v

/-- **A rule is plain.** -/
theorem plain_compiledRule (name : String) (r : CompiledRule) : (r.toElement name).Plain := by
  have hpattern : (CompiledRule.patternElement r.pattern).Plain := by
    refine plain_element rfl plainKeys_nil fun child hchild => ?_
    obtain ⟨category, -, rfl⟩ := List.mem_map.1 hchild
    exact plain_element rfl (plainKeys_singleton rfl _) nofun
  have houtput : ∀ child ∈ CompiledRule.outputElements r.output, child.Plain := by
    intro child hchild
    obtain ⟨⟨index, word⟩, -, hchild⟩ := List.mem_flatMap.1 hchild
    dsimp only at hchild
    split at hchild
    · rw [List.mem_singleton.1 hchild]
      exact plain_outputWord word
    · simp only [List.mem_cons, List.not_mem_nil, or_false] at hchild
      rcases hchild with rfl | rfl
      · exact plain_position rfl index
      · exact plain_outputWord word
  refine plain_element rfl (plainKeys_singleton rfl _)
    fun child hchild => ?_
  simp only [List.mem_cons, List.not_mem_nil, or_false] at hchild
  rcases hchild with rfl | rfl
  · exact hpattern
  · refine plain_element rfl plainKeys_nil fun child hchild => ?_
    rcases List.mem_append.1 hchild with hchild | hchild
    · obtain ⟨s, -, rfl⟩ := List.mem_map.1 hchild
      exact plain_statement s
    · rw [List.mem_singleton.1 hchild]
      exact plain_element rfl plainKeys_nil houtput

/-- **A macro is plain.** -/
theorem plain_macroDefinition (m : MacroDefinition) : m.toElement.Plain := by
  have hkeys : [("n", m.name), ("npar", "1"), ("c", m.comment)].map Prod.fst =
      ["n", "npar", "c"] := rfl
  refine plain_element rfl
    (PlainKeys.of_keys hkeys rfl (by decide)) fun child hchild => ?_
  rw [List.mem_singleton.1 hchild]
  exact plain_choice plain_step m.body

end TransferRules

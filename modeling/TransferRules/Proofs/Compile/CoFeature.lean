import TransferRules.Proofs.Compile.Blocks
import TransferRules.Proofs.Compile.Emitting

/-!
# The co-feature of a disjoint set

Before the macro of a disjoint set is called, the variable of the co-feature is set.  If some label
is bound to the co-feature by then, it is set to the variable of that label; of several, the first
by name counts, and not the one that belongs to the word for which the macro is called.  Only if
there is none, the co-feature is read from this word.

## Main Definitions

* `CallOf` — how a call comes about
* `CoFeatureFrom` — the word from which the co-feature is taken for a call
* `CoFeatureOfWord` — the value comes from the word for which the macro is called

## Main Statements

* `Binds.call_cases` — a call is part of a block
* `Prepares.origin_eq_iff` — when the value comes from the word
* `compile_prepares` — how the calls of a compiled rule are prepared
* `not_coFeatureOfWord_genitive` — the co-feature of another word
-/

namespace TransferRules.Compile

open TransferRules.Action
open TransferRules.Ordered
open TransferRules.Text
open TransferRules.Transfer

variable {ctx : Lexicons} {bound : List BoundLabel} {set : DisjointSet} {o : Occurrence}
  {e : Emission} {w w' : Workspace}

/-! ## Calls -/

/-- How a call comes about: it is made for the occurrence that provides the value of a label, after
others have been bound.  The macro that is called is the one that is answered for the occurrence,
and its answer is kept in the variable of the label. -/
structure CallOf (ctx : Lexicons) (b : BoundLabel) (w : Workspace) (name : String) (position : Nat)
    (after : List Statement) : Prop where
  site : b.occurrence.site = .word
  isFor : b.occurrence.position = position
  answered : ∃ demand handle w', macroDemand? ctx b.occurrence = some demand ∧
    demand.request ctx.target w = .ok (handle, w') ∧ handle.name = name ∧
    ∃ rest, after = .assign b.name (.var handle.result) :: rest

/-- The last of some statements sets the variable of the co-feature, after the macro of a disjoint
set has been asked for, and the value comes from the word at a position. -/
def CoFeatureFrom (ctx : Lexicons) (earlier : List BoundLabel) (set : DisjointSet)
    (o : Occurrence) (w : Workspace) (before : List Statement) (origin : Nat) : Prop :=
  ∃ rest prepared handle w₁ w₂, before = rest ++ [prepared] ∧
    w.ensureDisjointMacro ctx.target set = .ok (handle, w₁) ∧
    (disjointNames set).2.2 ∈ prepared.sets ∧ Prepares ctx earlier set o w₁ prepared origin w₂

theorem Prepares.mem_sets {prepared : Statement} {origin : Nat}
    (h : Prepares ctx bound set o w prepared origin w') :
    (disjointNames set).2.2 ∈ prepared.sets := by
  cases h with
  | read _ _ => exact (sourceStatement_spec _ _ _ _ _).2.2
  | copied _ => exact List.mem_singleton_self _

/-- A call in a block. -/
theorem Block.call_cases {b : BoundLabel} {block before after : List Statement} {name : String}
    {position : Nat} (h : Block ctx bound b w block w')
    (hcall : block = before ++ .call name position :: after) (front rest : List Statement) :
    CallOf ctx b w name position (after ++ rest) ∧
      ∀ set, disjointSetOf? ctx b.occurrence = some set →
        ∃ origin, CoFeatureFrom ctx bound set b.occurrence w (front ++ before) origin := by
  cases h with
  | read _ _ =>
      have hmem : Statement.call name position ∈ before ++ .call name position :: after :=
        List.mem_append_right _ List.mem_cons_self
      rw [← hcall, List.mem_singleton] at hmem
      obtain ⟨step, hstep⟩ := exists_sourceStatement_eq_step _ _ _ _ _
      cases hmem.trans hstep
  | @lemmaMacro handle w' hsite hset hanswered =>
      have hcall : [] ++ Statement.call handle.name b.occurrence.position ::
          [.assign b.name (.var handle.result)] = before ++ .call name position :: after := hcall
      obtain ⟨rfl, hsame, rfl⟩ := (List.append_cons_inj_of_notMem List.not_mem_nil
        (by simp [Statement.assign])).1 hcall
      cases hsame
      refine ⟨⟨hsite, rfl, _, handle, w', macroDemand?_of_word hsite, ?_, rfl, rest, rfl⟩,
        fun set h => absurd (hset.symm.trans h) nofun⟩
      rw [hset]
      exact hanswered
  | @disjointMacro set' handle prepared origin w₁ w' hset hanswered hprepares =>
      obtain ⟨step, rfl⟩ := hprepares.exists_step
      have hcall : [.step step] ++ Statement.call handle.name b.occurrence.position ::
          [.assign b.name (.var handle.result)] = before ++ .call name position :: after := hcall
      obtain ⟨rfl, hsame, rfl⟩ := (List.append_cons_inj_of_notMem (by simp)
        (by simp [Statement.assign])).1 hcall
      cases hsame
      have hsite := site_of_disjointSetOf? hset
      refine ⟨⟨hsite, rfl, _, handle, w₁, macroDemand?_of_word hsite, ?_, rfl, rest, rfl⟩,
        fun set h => ?_⟩
      · rw [hset]
        exact hanswered
      · obtain rfl : set' = set := Option.some.inj (hset.symm.trans h)
        exact ⟨origin, front, _, handle, w₁, w', rfl, hanswered, hprepares.mem_sets, hprepares⟩

/-- What stands in two lists one after the other stands in one of them. -/
theorem append_eq_append_cons_cases {α : Type} {first second before after : List α} {a : α}
    (h : first ++ second = before ++ a :: after) :
    (∃ rest, first = before ++ a :: rest ∧ after = rest ++ second) ∨
      ∃ front, before = first ++ front ∧ second = front ++ a :: after := by
  rcases List.append_eq_append_iff.1 h with ⟨front, hbefore, hsecond⟩ | ⟨back, hfirst, hafter⟩
  · exact .inr ⟨front, hbefore, hsecond⟩
  · cases back with
    | nil =>
        rw [List.append_nil] at hfirst
        exact .inr ⟨[], by rw [hfirst, List.append_nil], hafter.symm⟩
    | cons a' back =>
        obtain ⟨rfl, hrest⟩ := List.cons.inj hafter
        exact .inl ⟨back, hfirst, hrest⟩

/-- **Every call is part of a block**, and so it is made for one of the labels that are bound, in
the state in which the labels before it have been bound. -/
theorem Binds.call_cases {occurrences : List Occurrence} {done : List Provider}
    {statements before after : List Statement} {name : String} {position : Nat} {e' : Emission}
    (h : Binds ctx occurrences e done bound statements e')
    (hcall : statements = before ++ .call name position :: after) (rest : List Statement) :
    ∃ earlier b later, bound = earlier ++ b :: later ∧
      ∃ first todo opened, done = first ++ b.provider :: todo ∧
        (first.foldlM (bindLabel ctx occurrences) [] : Emit Bindings) e =
          (earlier.map BoundLabel.entry, opened) ∧
        CallOf ctx b opened.workspace name position (after ++ rest) ∧
        ∀ set, disjointSetOf? ctx b.occurrence = some set →
          ∃ origin, CoFeatureFrom ctx earlier set b.occurrence opened.workspace before origin := by
  induction h generalizing after rest with
  | nil => exact absurd hcall.symm (by simp)
  | @snoc done p bound more statements block e₁ _ hbefore _ _ hstep ih =>
      rcases append_eq_append_cons_cases hcall with ⟨back, hback, rfl⟩ | ⟨front, rfl, hfront⟩
      · obtain ⟨earlier, b, later, rfl, first, todo, opened, rfl, hrun, hb⟩ :=
          ih hback (block ++ rest)
        refine ⟨earlier, b, later ++ more, by simp, first, todo ++ [p], opened, by simp, hrun, ?_⟩
        rwa [List.append_assoc]
      · cases hstep with
        | unused _ => exact absurd hfront.symm (by simp)
        | refused _ _ _ => exact absurd hfront.symm (by simp)
        | added _ _ hblock _ =>
            exact ⟨bound, _, [], rfl, done, [], e₁, rfl, hbefore.run,
              hblock.call_cases hfront statements rest⟩

/-! ## Rules -/

/-- If all variables are different, there is one first label by name. -/
theorem IsFirstNamed.unique {b b' : BoundLabel} (h : IsFirstNamed bound set b)
    (h' : IsFirstNamed bound set b') (hnames : (bound.map BoundLabel.name).Nodup) : b = b' := by
  refine List.inj_on_of_nodup_map hnames h.mem h'.mem ?_
  exact String.le_antisymm (String.not_lt.1 (h.first b' h'.mem h'.isCoFeature))
    (String.not_lt.1 (h'.first b h.mem h.isCoFeature))

section Prepares

variable {prepared : Statement} {origin : Nat} (h : Prepares ctx bound set o w prepared origin w')

include h

/-- The value that is prepared comes from the word for which the macro is called just if no label is
bound to the co-feature before, or the first of them by name belongs to this word. -/
theorem Prepares.origin_eq_iff (hnames : (bound.map BoundLabel.name).Nodup) :
    origin = o.position ↔
      ∀ first, IsFirstNamed bound set first → first.occurrence.position = o.position := by
  cases h with
  | read hnone _ =>
      exact iff_of_true rfl fun first hfirst => absurd hfirst.isCoFeature (hnone first hfirst.mem)
  | @copied b hfirst =>
      constructor
      · intro horigin other hother
        rwa [hother.unique hfirst hnames]
      · exact fun h => h b hfirst

end Prepares

/-- **How the calls of a compiled rule are prepared.**  The labels that are bound are known: their
bindings are those of the rule, and by their variables they are some of those that the providers
claim.  Every call is made for the provider of one of them, in the state in which the labels before
it have been bound; the macro that is called is the one that is answered then.  If the provider is
part of a disjoint set, the statement before the call sets the variable of the co-feature: to that
of the label bound to the co-feature before which is first by name, or if there is none, to what is
read from the word.  So the value comes from the word for which the macro is called just if this
label, if there is one, belongs to the word. -/
theorem compile_prepares (ctx : Lexicons) (rule : Rule) (r : Resolution) (e : Emission) :
    ∃ bound : List BoundLabel,
      (openRule ctx rule r e).1.2 = bound.map BoundLabel.entry ∧
      bound.Sublist (labelsFor r.occurrences (bindingOrder ctx r.providers) e.claimed) ∧
      (bound.map BoundLabel.name).Nodup ∧
      ∀ before name position after, (compile ctx rule r e).1.statements =
          e.statements ++ (before ++ .call name position :: after) →
        ∃ earlier b later, bound = earlier ++ b :: later ∧
          ∃ first todo opened, bindingOrder ctx r.providers = first ++ b.provider :: todo ∧
            openFor ctx rule r first e = (earlier.map BoundLabel.entry, opened) ∧
            CallOf ctx b opened.workspace name position after ∧
            ∀ set, disjointSetOf? ctx b.occurrence = some set →
              ∃ origin,
                CoFeatureFrom ctx earlier set b.occurrence opened.workspace before origin ∧
                (origin = position ↔ ∀ first, IsFirstNamed earlier set first →
                  first.occurrence.position = position) := by
  obtain ⟨bound, statements, start, hclaimed, hstart, hopen, hbindings, hbinds⟩ :=
    openRule_binds ctx rule r e
  refine ⟨bound, hbindings, hclaimed ▸ hbinds.sublist, hbinds.nodup,
    fun before name position after hcall => ?_⟩
  -- The call is among the statements that bind labels.
  obtain ⟨rest, steps, hstatements, rfl⟩ : ∃ rest, ∃ steps : List Step,
      statements = before ++ .call name position :: rest ∧
        after = rest ++ steps.map Statement.step := by
    obtain ⟨steps, hsteps⟩ := statements_closeRule ctx rule r (openRule ctx rule r e).1.1
      (openRule ctx rule r e).1.2 (openRule ctx rule r e).2
    rw [compile_eq_open, bind_apply, hsteps, hbinds.statements_eq, hstart,
      List.append_assoc] at hcall
    rcases append_eq_append_cons_cases (List.append_cancel_left hcall) with
      ⟨rest, hrest, hafter⟩ | ⟨front, -, hfront⟩
    · exact ⟨rest, steps, hrest, hafter⟩
    · have hmem : Statement.call name position ∈ steps.map Statement.step :=
        hfront ▸ List.mem_append_right _ List.mem_cons_self
      simp at hmem
  obtain ⟨earlier, b, later, rfl, first, todo, opened, horder, hrun, hcallOf, hprepared⟩ :=
    hbinds.call_cases hstatements (steps.map Statement.step)
  have hnames : (earlier.map BoundLabel.name).Nodup := by
    have hall := hbinds.nodup
    rw [List.map_append] at hall
    exact (List.nodup_append.1 hall).1
  refine ⟨earlier, b, later, rfl, first, todo, opened, horder, (hopen first).trans hrun, hcallOf,
    fun set hset => ?_⟩
  obtain ⟨origin, front, prepared, handle, w₁, w₂, hbefore, hanswered, hsets, hprepares⟩ :=
    hprepared set hset
  have hiff := hprepares.origin_eq_iff hnames
  rw [hcallOf.isFor] at hiff
  exact ⟨origin, ⟨front, prepared, handle, w₁, w₂, hbefore, hanswered, hsets, hprepares⟩, hiff⟩

/-! ## Two nouns -/

/-- Wherever a rule calls the macro of a disjoint set, the co-feature is that of the word for which
it is called. -/
def CoFeatureOfWord (ctx : Lexicons) (rule : Rule) (r : Resolution) (e : Emission) : Prop :=
  ∀ bound : List BoundLabel, (openRule ctx rule r e).1.2 = bound.map BoundLabel.entry →
    bound.Sublist (labelsFor r.occurrences (bindingOrder ctx r.providers) e.claimed) →
    ∀ earlier b later, bound = earlier ++ b :: later →
      ∀ set, disjointSetOf? ctx b.occurrence = some set →
        ∀ w prepared origin w', Prepares ctx earlier set b.occurrence w prepared origin w' →
          origin = b.occurrence.position

/-- A rule for two nouns, each with a number of its own, of which the first one agrees in class with
the second one. -/
def genitive : Rule where
  name := "genitive"
  source := [⟨"1", some "n", [{ label := "number", binding := .agreement "β" }]⟩,
    ⟨"2", some "n", [{ label := "number", binding := .agreement "γ" }]⟩]
  target := [
    { id := "1"
      affixes := [⟨.before, [{ label := "class", binding := .agreement "α" }]⟩,
        ⟨.after, [{ label := "number", binding := .agreement "β" }]⟩] },
    { id := "2"
      isHead := true
      features := [{ label := "class", binding := .agreement "α" }]
      affixes := [⟨.after, [{ label := "number", binding := .agreement "γ" }]⟩] }]

/-- The number of the first noun. -/
def firstNumber : BoundLabel :=
  ⟨⟨"β", ⟨"1", 1, "n", "n", false, .source, none, ⟨"number", .agreement "β", none, none⟩⟩, 0⟩,
    "v_n_number"⟩

/-- The number of the second noun. -/
def secondNumber : BoundLabel :=
  ⟨⟨"γ", ⟨"2", 2, "n", "n", true, .source, none, ⟨"number", .agreement "γ", none, none⟩⟩, 1⟩,
    "v_n_number_2"⟩

/-- The class of the second noun. -/
def secondClass : BoundLabel :=
  ⟨⟨"α", ⟨"2", 2, "n", "n", true, .word, some 1, ⟨"class", .agreement "α", none, none⟩⟩, 4⟩,
    "v_n_class"⟩

/-- The labels of the rule, in the order in which they are bound. -/
def genitiveLabels : List BoundLabel := [firstNumber, secondNumber, secondClass]

/-- What the providers of the rule are. -/
def genitiveResolution : Resolution :=
  ⟨genitive.occurrences, genitiveLabels.map BoundLabel.provider⟩

theorem labelsFor_genitive :
    labelsFor genitiveResolution.occurrences (bindingOrder bantuNouns genitiveResolution.providers)
      [] = genitiveLabels := by
  decide +kernel

/-- The class is looked up for the second noun, but the number does not come from it. -/
theorem compile_prepares_genitive :
    ∃ before after earlier b w origin,
      (compile bantuNouns genitive genitiveResolution ⟨{}, {}, [], []⟩).1.statements =
        before ++ .call "m_class_from_lemma" 2 :: after ∧
      CallOf bantuNouns b w "m_class_from_lemma" 2 after ∧
      CoFeatureFrom bantuNouns earlier splitClass b.occurrence w before origin ∧ origin ≠ 2 := by
  obtain ⟨bound, hbindings, hsublist, -, hcalls⟩ :=
    compile_prepares bantuNouns genitive genitiveResolution ⟨{}, {}, [], []⟩
  obtain rfl : bound = genitiveLabels := by
    rw [labelsFor_genitive] at hsublist
    refine hsublist.eq_of_length ?_
    have hlength := congrArg List.length hbindings
    rw [List.length_map] at hlength
    rw [← hlength]
    decide +kernel
  obtain ⟨before, after, hstatements⟩ : ∃ before after,
      (compile bantuNouns genitive genitiveResolution ⟨{}, {}, [], []⟩).1.statements =
        before ++ .call "m_class_from_lemma" 2 :: after :=
    List.append_of_mem (by decide +kernel)
  obtain ⟨earlier, b, later, hlabels, -, -, opened, -, -, hcallOf, hset⟩ :=
    hcalls before _ _ after hstatements
  -- Only the class of the second noun is looked up.
  have hnumbers : ∀ c ∈ [firstNumber, secondNumber], c.occurrence.site ≠ .word := by
    decide +kernel
  have hsplit : [firstNumber, secondNumber] ++ [secondClass] = earlier ++ b :: later := hlabels
  obtain ⟨rfl, rfl⟩ : earlier = [firstNumber, secondNumber] ∧ b = secondClass := by
    rcases append_eq_append_cons_cases hsplit with ⟨rest, hrest, -⟩ | ⟨front, rfl, hfront⟩
    · have hmem : b ∈ [firstNumber, secondNumber] :=
        hrest ▸ List.mem_append_right _ List.mem_cons_self
      exact absurd hcallOf.site (hnumbers b hmem)
    · obtain ⟨rfl, rfl, -⟩ : front = [] ∧ b = secondClass ∧ later = [] := by
        simpa using List.singleton_eq_append_iff.1 hfront
      exact ⟨List.append_nil _, rfl⟩
  obtain ⟨origin, hfrom, hiff⟩ := hset splitClass (by decide +kernel)
  refine ⟨before, after, _, _, _, origin, hstatements, hcallOf, hfrom, fun horigin => ?_⟩
  have hfirst : IsFirstNamed [firstNumber, secondNumber] splitClass firstNumber :=
    ⟨List.mem_cons_self, rfl, by decide +kernel⟩
  exact absurd (hiff.1 horigin firstNumber hfirst) (by decide)

/-- **The co-feature of another word.**  The class is looked up for the second noun, with the number
of the first one. -/
theorem not_coFeatureOfWord_genitive :
    genitive.resolve = .ok genitiveResolution ∧
      (openRule bantuNouns genitive genitiveResolution ⟨{}, {}, [], []⟩).1.2 =
        genitiveLabels.map BoundLabel.entry ∧
      (compile bantuNouns genitive genitiveResolution ⟨{}, {}, [], []⟩).1.statements.take 4 =
        [.assign "v_n_number" (.clip 1 .source "a_n_number"),
          .assign "v_n_number_2" (.clip 2 .source "a_n_number"),
          .assign "v_class_number" (.var "v_n_number"), .call "m_class_from_lemma" 2] ∧
      ¬ CoFeatureOfWord bantuNouns genitive genitiveResolution ⟨{}, {}, [], []⟩ := by
  have hbindings : (openRule bantuNouns genitive genitiveResolution ⟨{}, {}, [], []⟩).1.2 =
      genitiveLabels.map BoundLabel.entry := by decide +kernel
  refine ⟨by decide +kernel, hbindings, by decide +kernel, fun h => ?_⟩
  have hfirst : IsFirstNamed [firstNumber, secondNumber] splitClass firstNumber :=
    ⟨List.mem_cons_self, rfl, by decide +kernel⟩
  have hposition := h genitiveLabels hbindings (labelsFor_genitive ▸ .refl _)
    [firstNumber, secondNumber] secondClass [] rfl splitClass (by decide +kernel) {} _ _ _
    (.copied hfirst)
  exact absurd hposition (by decide)

end TransferRules.Compile

import TransferRules.Proofs.Action.Execution

/-!
# Runs that agree

Two runs of an action on the same phrase start with different contents of the variables.  They
agree on a variable once both have assigned it, provided that what they assign only depends on
variables on which they agree already.  So they agree on everything that a statement sets if they
agree on everything that it reads, and the branches that they take are the same.

## Main Definitions

* `Agrees` — two runs agree on some variables, and have put out the same

## Main Statements

* `Step.run_agrees` — a step keeps two runs in agreement, also on what it sets
* `CompiledRule.rendering_congr` — what is put out depends on the variables that it reads
-/

namespace TransferRules

open TransferRules.Action

/-- Two runs agree on some variables, and have put out the same. -/
structure Agrees (known : String → Prop) (m m' : Machine) : Prop where
  contents : ∀ name, known name → m.contents name = m'.contents name
  output : m.output = m'.output

variable {s : Scene} {contents contents' : Contents} {known : String → Prop} {m m' : Machine}

/-- Fewer variables are agreed on. -/
theorem Agrees.mono {fewer : String → Prop} (h : Agrees known m m')
    (hfewer : ∀ name, fewer name → known name) : Agrees fewer m m' :=
  ⟨fun name hname => h.contents name (hfewer name hname), h.output⟩

namespace Action

theorem Value.eval_congr {v : Value}
    (h : ∀ name ∈ v.variables, contents name = contents' name) :
    v.eval s contents = v.eval s contents' := by
  cases v with
  | var name => exact h name (List.mem_singleton_self name)
  | lit text => rfl
  | tag name => rfl
  | clip position side part => rfl

theorem Equation.holds_congr {e : Equation}
    (h : ∀ name ∈ e.left.variables ++ e.right.variables, contents name = contents' name) :
    e.holds s contents = e.holds s contents' := by
  unfold Equation.holds
  rw [Value.eval_congr fun name hname => h name (List.mem_append_left _ hname),
    Value.eval_congr fun name hname => h name (List.mem_append_right _ hname)]

theorem Test.holds_congr {t : Test} (h : ∀ name ∈ t.reads, contents name = contents' name) :
    t.holds s contents = t.holds s contents' := by
  have hequation : t.equations.map (Equation.holds s contents) =
      t.equations.map (Equation.holds s contents') :=
    List.map_congr_left fun e he => Equation.holds_congr fun name hname =>
      h name (List.mem_flatMap.2 ⟨e, he, hname⟩)
  cases t with
  | all es =>
      simpa [Test.holds, Test.equations, List.all_map] using congrArg (List.all · id) hequation
  | any es =>
      simpa [Test.holds, Test.equations, List.any_map] using congrArg (List.any · id) hequation

namespace Choice

variable {α : Type} {c : Choice α} {body : α → List String}

/-- Which alternative is taken depends on what the tests read. -/
theorem taken?_congr (h : ∀ branch ∈ c.branches, ∀ name ∈ branch.1.reads,
    contents name = contents' name) : c.taken? s contents = c.taken? s contents' := by
  have hfind : ∀ branches : List (Test × α),
      (∀ branch ∈ branches, ∀ name ∈ branch.1.reads, contents name = contents' name) →
      (branches.find? fun branch => branch.1.holds s contents) =
        branches.find? fun branch => branch.1.holds s contents' := by
    intro branches
    induction branches with
    | nil => exact fun _ => rfl
    | cons branch branches ih =>
        intro h
        rw [List.find?_cons, List.find?_cons, Test.holds_congr (h branch List.mem_cons_self),
          ih fun b hb => h b (List.mem_cons_of_mem _ hb)]
  unfold taken?
  rw [hfind c.branches h]

/-- What is taken is one of the alternatives. -/
theorem mem_of_taken? {a : α} (h : c.taken? s contents = some a) :
    (∃ branch ∈ c.branches, branch.2 = a) ∨ c.otherwise = some a := by
  unfold taken? at h
  cases hfind : (c.branches.find? fun branch => branch.1.holds s contents) with
  | some branch =>
      rw [hfind] at h
      cases h
      exact .inl ⟨branch, List.mem_of_find?_eq_some hfind, rfl⟩
  | none =>
      rw [hfind] at h
      exact .inr h

/-- Whatever is taken sets what the choice sets for sure. -/
theorem mem_of_mem_sets {a : α} (h : c.taken? s contents = some a) {name : String}
    (hname : name ∈ c.sets body) : name ∈ body a := by
  unfold sets at hname
  split at hname
  · cases hname
  · next other hother =>
    obtain ⟨hbody, hall⟩ := List.mem_filter.1 hname
    rcases mem_of_taken? h with ⟨branch, hbranch, rfl⟩ | hotherwise
    · simpa using List.all_eq_true.1 hall branch hbranch
    · rw [hother] at hotherwise
      cases hotherwise
      exact hbody

/-- If nothing is taken there is no alternative for that case, so nothing is set for sure. -/
theorem sets_of_taken?_eq_none (h : c.taken? s contents = none) : c.sets body = [] := by
  unfold taken? at h
  cases hfind : (c.branches.find? fun branch => branch.1.holds s contents) with
  | some branch =>
      rw [hfind] at h
      cases h
  | none =>
      rw [hfind] at h
      have hotherwise : c.otherwise = none := h
      unfold sets
      rw [hotherwise]

theorem mem_reads_of_test {branch : Test × α} (hbranch : branch ∈ c.branches) {name : String}
    (hname : name ∈ branch.1.reads) : name ∈ c.reads body :=
  List.mem_append_left _ (List.mem_flatMap.2 ⟨branch, hbranch, List.mem_append_left _ hname⟩)

theorem mem_reads_of_taken? {a : α} (h : c.taken? s contents = some a) {name : String}
    (hname : name ∈ body a) : name ∈ c.reads body := by
  rcases mem_of_taken? h with ⟨branch, hbranch, rfl⟩ | hotherwise
  · exact List.mem_append_left _
      (List.mem_flatMap.2 ⟨branch, hbranch, List.mem_append_right _ hname⟩)
  · refine List.mem_append_right _ (List.mem_flatMap.2 ⟨a, ?_, hname⟩)
    rw [hotherwise]
    exact List.mem_singleton_self a

end Choice

/-- An assignment keeps two runs in agreement, also on the variable that is assigned. -/
theorem Assignment.run_agrees {a : Assignment} (h : Agrees known m m')
    (hreads : ∀ name ∈ a.value.variables, known name) :
    Agrees (fun name => known name ∨ name = a.target) (a.run s m) (a.run s m') where
  contents name hname := by
    show (if name = a.target then _ else _) = if name = a.target then _ else _
    split
    · exact Value.eval_congr fun n hn => h.contents n (hreads n hn)
    · next hother => exact h.contents name (hname.resolve_right hother)
  output := h.output

/-- **A step keeps two runs in agreement**, also on what it sets, if they agree on what it
reads. -/
theorem Step.run_agrees {step : Step} (h : Agrees known m m')
    (hreads : ∀ name ∈ step.reads, known name) :
    Agrees (fun name => known name ∨ name ∈ step.sets) (step.run s m) (step.run s m') := by
  cases step with
  | assign a =>
      exact (Assignment.run_agrees h hreads).mono fun name hname =>
        hname.imp_right List.mem_singleton.1
  | choose c =>
      have hreads : ∀ name ∈ c.reads fun a => a.value.variables, known name := hreads
      -- Both runs take the same alternative, since they agree on what the tests read.
      have htaken : c.taken? s m.contents = c.taken? s m'.contents :=
        Choice.taken?_congr fun branch hbranch name hname =>
          h.contents name (hreads name (Choice.mem_reads_of_test hbranch hname))
      simp only [Step.run, Choice.run, ← htaken]
      cases hchoice : c.taken? s m.contents with
      | some a =>
          have htarget : ∀ name ∈ c.sets fun a => [a.target], name = a.target :=
            fun name hname => List.mem_singleton.1 (Choice.mem_of_mem_sets hchoice hname)
          exact (Assignment.run_agrees h fun name hname =>
            hreads name (Choice.mem_reads_of_taken? hchoice hname)).mono fun name hname =>
              hname.imp_right (htarget name)
      | none =>
          refine h.mono fun name hname => hname.resolve_right fun hsets => ?_
          rw [Step.sets, Choice.sets_of_taken?_eq_none hchoice] at hsets
          cases hsets

theorem OutputWord.rendering_congr {w : OutputWord}
    (h : ∀ name ∈ w.reads, contents name = contents' name) :
    w.rendering s contents = w.rendering s contents' := by
  unfold OutputWord.rendering
  congr 3
  exact List.map_congr_left fun v hv => Value.eval_congr fun name hname =>
    h name (List.mem_flatMap.2 ⟨v, hv, hname⟩)

/-- What is put out depends on the variables that it reads. -/
theorem CompiledRule.rendering_congr {output : List (Nat × OutputWord)}
    (h : ∀ entry ∈ output, ∀ name ∈ entry.2.reads, contents name = contents' name) :
    CompiledRule.rendering s contents output = CompiledRule.rendering s contents' output := by
  unfold CompiledRule.rendering
  rw [List.flatMap_def, List.flatMap_def]
  congr 2
  exact List.map_congr_left fun entry hentry => by rw [OutputWord.rendering_congr (h entry hentry)]

end Action

end TransferRules

import TransferRules.Proofs.Transfer.Trim

/-!
# Trimming what has grown again

A document is trimmed, and later there are new definitions on top of what was left, under names that
the trim had removed.  What was left is loaded by then and stays in any case.  If no rule needs more
than some rule needed before, a second trim leads back to where the first one has left off: a name
that was not used before is not used now, for a use of it would have kept it.

## Main Definitions

* `RefersWithin` — an element refers to no other macros and variables than another one
* `TransferDocument.RulesWithin` — every rule stands for a rule of another document
* `TransferDocument.GrowsBack` — names come back that a trim had removed

## Main Statements

* `TransferDocument.GrowsBack.exists_definitions_trim` — trimmed again, what was left is there
* `TransferDocument.GrowsBack.exists_user` — whoever counts now stands for one that counted before
* `TransferDocument.GrowsBack.definitions_trim` — trimmed again, the definitions are as before
-/

namespace TransferRules.Transfer

open TransferRules.Markup

/-- An element refers to no other macros and variables than another one. -/
structure RefersWithin (e e' : Element) : Prop where
  macros : ∀ name, ⟨.macros, name⟩ ∈ references e → ⟨.macros, name⟩ ∈ references e'
  vars : ∀ name, ⟨.vars, name⟩ ∈ references e → ⟨.vars, name⟩ ∈ references e'

theorem RefersWithin.refl (e : Element) : RefersWithin e e := ⟨fun _ h => h, fun _ h => h⟩

namespace TransferDocument

variable {d d' : TransferDocument} {kind : SectionKind} {name : String} {e : Element}

/-- The definitions that stay after a trim, in their order. -/
theorem definitions_trim : d.trim.2.definitions kind = (d.definitions kind).filter fun e =>
    !(d.unused.names kind).any fun name => definitionName? kind e == some name := by
  rw [definitions_eq, definitions_eq, childrenOf_trim, List.filter_filter, List.filter_filterMap,
    List.filter_filterMap, List.filterMap_filter]
  congr 1
  funext node
  unfold isDefinitionNamed
  cases node.element? with
  | none => simp
  | some e => cases htag : e.name == kind.definitionTag <;> simp [Option.filter, htag]

/-- Every rule stands for a rule of another document. -/
def RulesWithin (d d' : TransferDocument) : Prop :=
  ∀ e ∈ d'.definitions .rules, ∃ e' ∈ d.definitions .rules, RefersWithin e e'

/-- A document that holds what is left of another one after a trim, and beside it only definitions
under names that the trim has removed.  The former are loaded and the latter are not. -/
structure GrowsBack (d d' : TransferDocument) : Prop where
  loaded : ∀ kind, kind = .macros ∨ kind = .vars → ∀ name,
    d'.provenanceOf? kind name = some .loaded ↔ name ∈ d.trim.2.definitionNames kind
  definitions : ∀ kind, kind = .macros ∨ kind = .vars → ∃ new,
    d'.definitions kind = d.trim.2.definitions kind ++ new ∧
      ∀ e ∈ new, ∃ name, definitionName? kind e = some name ∧ name ∈ d.definitionNames kind ∧
        name ∉ d.trim.2.definitionNames kind

namespace GrowsBack

/-- **Trimmed again, what was left is there**, and what is left beside it had been removed. -/
theorem exists_definitions_trim (h : GrowsBack d d') (hd' : d'.WellNamed)
    (hkind : kind = .macros ∨ kind = .vars) : ∃ back,
      d'.trim.2.definitions kind = d.trim.2.definitions kind ++ back ∧
        ∀ e ∈ back, ∃ name, definitionName? kind e = some name ∧ name ∈ d.definitionNames kind ∧
          name ∉ d.trim.2.definitionNames kind ∧ name ∉ d'.unused.names kind := by
  obtain ⟨new, hnew, hremoved⟩ := h.definitions kind hkind
  have hleft : (d.trim.2.definitions kind).filter (fun e =>
      !(d'.unused.names kind).any fun name => definitionName? kind e == some name) =
        d.trim.2.definitions kind := by
    refine List.filter_eq_self.2 fun e he => ?_
    rw [Bool.not_eq_true', List.any_eq_false]
    intro name hname heq
    have hloaded := (h.loaded kind hkind name).2
      (mem_definitionNames.2 ⟨e, he, by simpa using heq⟩)
    rw [generated_of_mem_unused hd' hname] at hloaded
    cases hloaded
  refine ⟨new.filter fun e =>
    !(d'.unused.names kind).any fun name => definitionName? kind e == some name, ?_, fun e he => ?_⟩
  · rw [TransferDocument.definitions_trim, hnew, List.filter_append, hleft]
  · obtain ⟨hmem, hkept⟩ := List.mem_filter.1 he
    obtain ⟨name, hname, hbefore, hgone⟩ := hremoved e hmem
    refine ⟨name, hname, hbefore, hgone, fun hunused => ?_⟩
    rw [Bool.not_eq_true', List.any_eq_false] at hkept
    exact hkept name hunused (beq_iff_eq.2 hname)

/-- Under a name that was left stands what was left there. -/
theorem isUser_of_left (h : GrowsBack d d') (hd : d.WellNamed) (he : e ∈ d'.definitions .macros)
    (hname : definitionName? .macros e = some name)
    (hleft : name ∈ d.trim.2.definitionNames .macros) : d.IsUser e := by
  obtain ⟨new, hnew, hremoved⟩ := h.definitions .macros (.inl rfl)
  rw [hnew, List.mem_append] at he
  rcases he with he | he
  · exact isUser_of_mem_trim hd (.inr ⟨he, by rw [hname]; rfl⟩)
  · obtain ⟨other, hother, -, hgone⟩ := hremoved e he
    rw [hname, Option.some.injEq] at hother
    exact absurd (hother ▸ hleft) hgone

/-- A macro of a name that was used before was there before. -/
theorem isUser_of_used (h : GrowsBack d d') (hd : d.WellNamed) (hused : d.MacroUsed name)
    (he : e ∈ d'.definitions .macros) (hname : definitionName? .macros e = some name) :
    d.IsUser e := by
  refine h.isUser_of_left hd he hname ?_
  refine mem_definitionNames_trim_of_used hd (.inl ⟨rfl, hused⟩) ?_
  obtain ⟨new, hnew, hremoved⟩ := h.definitions .macros (.inl rfl)
  rw [hnew, List.mem_append] at he
  rcases he with he | he
  · exact mem_definitionNames.2 ⟨e, (mem_definitions_trim_iff.1 he).1, hname⟩
  · obtain ⟨other, hother, hdefined, -⟩ := hremoved e he
    rw [hname, Option.some.injEq] at hother
    exact hother ▸ hdefined

/-- Whatever uses something by itself stands for one that did before. -/
theorem exists_user_of_root (h : GrowsBack d d') (hrules : RulesWithin d d') (hd : d.WellNamed)
    (he : d'.IsRoot e) : ∃ e', d.IsUser e' ∧ RefersWithin e e' := by
  cases he with
  | ofRule he =>
      obtain ⟨e', he', hwithin⟩ := hrules e he
      exact ⟨e', .ofRoot (.ofRule he'), hwithin⟩
  | ofLoaded he hname hloaded =>
      exact ⟨e, h.isUser_of_left hd he hname ((h.loaded _ (.inl rfl) _).1 hloaded), .refl e⟩

theorem macroUsed (h : GrowsBack d d') (hrules : RulesWithin d d') (hd : d.WellNamed)
    (hused : d'.MacroUsed name) : d.MacroUsed name := by
  induction hused with
  | ofRoot he hcall =>
      obtain ⟨e', huser, hwithin⟩ := h.exists_user_of_root hrules hd he
      exact huser.macroUsed (hwithin.macros _ hcall)
  | ofCaller _ he hname hcall ih => exact (h.isUser_of_used hd ih he hname).macroUsed hcall

/-- **Whoever counts now stands for one that counted before.** -/
theorem exists_user (h : GrowsBack d d') (hrules : RulesWithin d d') (hd : d.WellNamed)
    (he : d'.IsUser e) : ∃ e', d.IsUser e' ∧ RefersWithin e e' := by
  cases he with
  | ofRoot he => exact h.exists_user_of_root hrules hd he
  | ofUsed hused he hname =>
      exact ⟨e, h.isUser_of_used hd (h.macroUsed hrules hd hused) he hname, .refl e⟩

/-- **Trimmed again, the macros and variables are as before.** -/
theorem definitions_trim (h : GrowsBack d d') (hrules : RulesWithin d d') (hd : d.WellNamed)
    (hd' : d'.WellNamed) (hkind : kind = .macros ∨ kind = .vars) :
    d'.trim.2.definitions kind = d.trim.2.definitions kind := by
  obtain ⟨back, hback, hremoved⟩ := h.exists_definitions_trim hd' hkind
  cases back with
  | nil => exact hback.trans (List.append_nil _)
  | cons e back =>
      obtain ⟨name, hname, hbefore, hgone, hstays⟩ := hremoved e List.mem_cons_self
      have hleft : e ∈ d'.trim.2.definitions kind :=
        hback ▸ List.mem_append_right _ List.mem_cons_self
      have hgenerated : d'.provenanceOf? kind name = some .generated :=
        (hd'.loaded_or_generated (mem_definitions_trim_iff.1 hleft).1 hname).resolve_left
          fun hloaded => hgone ((h.loaded kind hkind name).1 hloaded)
      -- It is used now, so it was used before and would have been left.
      refine absurd ?_ hgone
      rcases hkind with rfl | rfl
      · have hused : d'.MacroUsed name := Classical.byContradiction fun hunused =>
          hstays ((mem_unused_macros_iff hd').2 ⟨hgenerated, hunused⟩)
        exact mem_definitionNames_trim_of_used hd (.inl ⟨rfl, h.macroUsed hrules hd hused⟩) hbefore
      · obtain ⟨user, huser, hmentioned⟩ : d'.VariableUsed name :=
          Classical.byContradiction fun hunused =>
            hstays ((mem_unused_vars_iff hd').2 ⟨hgenerated, hunused⟩)
        obtain ⟨user', huser', hwithin⟩ := h.exists_user hrules hd huser
        exact mem_definitionNames_trim_of_used hd
          (.inr ⟨rfl, user', huser', hwithin.vars name hmentioned⟩) hbefore

end GrowsBack

end TransferDocument

end TransferRules.Transfer

import TransferRules.Proofs.Transfer.Names
import TransferRules.Workspace.Macro

/-!
# The names of macros

The name of a macro tells which variable the macro sets: both are made from the same stem.  A
macro of a disjoint set may get a number, but since every stem ends in a letter the number can be
told from the stem.  So two macros of one name set the same variable, whatever features or sets
they were made for.

## Main Definitions

* `IsMacroName` — the names under which macros are made, with the variables that they set

## Main Statements

* `IsMacroName.result_unique` — the name determines the variable
* `isMacroName_freeName` — a free name for the macro of a disjoint set is of this form
-/

namespace TransferRules

open TransferRules.Text
open TransferRules.Transfer

/-- The names under which macros are made, each with the variable that the macro sets. -/
inductive IsMacroName : String → String → Prop where
  | lemmaMacro (category label : String) :
      IsMacroName (lemmaMacroNames category label).1 (lemmaMacroNames category label).2
  | disjointMacro (set : DisjointSet) :
      IsMacroName (disjointNames set).1 (disjointNames set).2.1
  | numbered (set : DisjointSet) (n : Nat) :
      IsMacroName (numbered (disjointNames set).1 n) (disjointNames set).2.1

/-! ## Stems -/

/-- Whether a text ends in the letter that ends every stem. -/
def EndsStem (s : String) : Prop := ∃ cs, s.toList = cs ++ ['a']

theorem EndsStem.append (s : String) {t : String} (ht : EndsStem t) : EndsStem (s ++ t) := by
  obtain ⟨cs, hcs⟩ := ht
  exact ⟨s.toList ++ cs, by rw [String.toList_append, hcs, List.append_assoc]⟩

/-- Trimming and writing underscores leaves the last character in its place, if it is no blank. -/
theorem exists_identifier_concat {s : String} {cs : List Char} {c : Char}
    (hs : s.toList = cs ++ [c]) (hc : isBlank c = false) :
    ∃ ds, (identifier s).toList = ds ++ [identifierChar c] := by
  have hhead : ∀ cs : List Char, ∃ ds, (cs ++ [c]).dropWhile isBlank = ds ++ [c] := by
    intro cs
    induction cs with
    | nil => exact ⟨[], by rw [List.nil_append, List.dropWhile_cons_of_neg (by simp [hc])]⟩
    | cons d cs ih =>
        by_cases hd : isBlank d = true
        · rw [List.cons_append, List.dropWhile_cons_of_pos hd]
          exact ih
        · rw [List.cons_append, List.dropWhile_cons_of_neg hd]
          exact ⟨d :: cs, rfl⟩
  obtain ⟨ds, hds⟩ := hhead cs
  refine ⟨ds.map identifierChar, ?_⟩
  rw [identifier, trim, String.toList_ofList, String.toList_ofList, hs, strip, hds,
    dropTail_concat hc, List.map_append]
  rfl

theorem EndsStem.identifier {s : String} (hs : EndsStem s) : EndsStem (identifier s) := by
  obtain ⟨cs, hcs⟩ := hs
  exact exists_identifier_concat hcs (by decide)

theorem endsStem_fromLemma : EndsStem "_from_lemma" := ⟨"_from_lemm".toList, by decide⟩

theorem isDigit_of_mem_toString {n : Nat} {c : Char} (h : c ∈ (toString n).toList) :
    c.isDigit = true := by
  rw [Nat.toString_eq_repr, Nat.toList_repr] at h
  exact Nat.isDigit_of_mem_toDigits (by decide) (by decide) h

/-- The number behind a text that ends in a letter can be told from the text. -/
theorem eq_of_numbered_eq {s t : String} (hs : EndsStem s) (ht : EndsStem t) {m n : Nat}
    (h : numbered s m = numbered t n) : s = t := by
  -- Drop the figures from the end.
  have hdrop : ∀ {s : String} (n : Nat), EndsStem s →
      (numbered s n).toList.reverse.dropWhile Char.isDigit = s.toList.reverse := by
    rintro s n ⟨cs, hcs⟩
    have hfigures : ∀ c ∈ (toString n).toList.reverse, c.isDigit = true :=
      fun c hc => isDigit_of_mem_toString (List.mem_reverse.1 hc)
    rw [numbered, String.toList_append, List.reverse_append,
      List.dropWhile_append_of_pos hfigures, hcs, List.reverse_append, List.reverse_singleton,
      List.singleton_append, List.dropWhile_cons_of_neg (by decide)]
  have hreverse := hdrop m hs
  rw [h, hdrop n ht] at hreverse
  exact (String.toList_injective (List.reverse_inj.1 hreverse)).symm

/-- A text with a number behind it does not end in a letter. -/
theorem not_endsStem_numbered (s : String) (n : Nat) : ¬ EndsStem (numbered s n) := by
  rintro ⟨cs, hcs⟩
  rcases List.eq_nil_or_concat (toString n).toList with hnil | ⟨figures, figure, hfigures⟩
  · rw [Nat.toString_eq_repr, Nat.toList_repr] at hnil
    exact Nat.toDigits_ne_nil hnil
  · rw [List.concat_eq_append] at hfigures
    have hdigit : figure.isDigit = true := by
      refine isDigit_of_mem_toString (n := n) ?_
      rw [hfigures]
      exact List.mem_append_right _ (List.mem_singleton_self _)
    have hlast := congrArg List.getLast? hcs
    rw [numbered, String.toList_append, hfigures, ← List.append_assoc, List.getLast?_concat,
      List.getLast?_concat] at hlast
    rw [Option.some.inj hlast] at hdigit
    exact absurd hdigit (by decide)

/-! ## Names and variables -/

/-- The name and the variable of a macro have a common stem. -/
theorem IsMacroName.stem {name result : String} (h : IsMacroName name result) :
    ∃ stem, EndsStem stem ∧ result = "v_" ++ stem ∧
      (name = "m_" ++ stem ∨ ∃ n, name = Transfer.numbered ("m_" ++ stem) n) := by
  have hdisjoint : ∀ set : DisjointSet, EndsStem (identifier set.name ++ "_from_lemma") ∧
      (disjointNames set).1 = "m_" ++ (identifier set.name ++ "_from_lemma") ∧
      (disjointNames set).2.1 = "v_" ++ (identifier set.name ++ "_from_lemma") :=
    fun set => ⟨endsStem_fromLemma.append _, String.append_assoc, String.append_assoc⟩
  cases h with
  | lemmaMacro category label =>
      exact ⟨_, (endsStem_fromLemma.append _).identifier, rfl, .inl rfl⟩
  | disjointMacro set =>
      obtain ⟨hstem, hname, hresult⟩ := hdisjoint set
      exact ⟨_, hstem, hresult, .inl hname⟩
  | numbered set n =>
      obtain ⟨hstem, hname, hresult⟩ := hdisjoint set
      exact ⟨_, hstem, hresult, .inr ⟨n, by rw [hname]⟩⟩

/-- **The name of a macro determines the variable that it sets.** -/
theorem IsMacroName.result_unique {name result other : String} (h : IsMacroName name result)
    (h' : IsMacroName name other) : result = other := by
  obtain ⟨stem, hstem, rfl, hname⟩ := h.stem
  obtain ⟨stem', hstem', rfl, hname'⟩ := h'.stem
  have hinj : "m_" ++ stem = "m_" ++ stem' → "v_" ++ stem = "v_" ++ stem' := fun heq => by
    rw [String.append_right_inj] at heq
    rw [heq]
  rcases hname with rfl | ⟨n, rfl⟩
  · rcases hname' with heq | ⟨n, heq⟩
    · exact hinj heq
    · exact absurd (heq ▸ hstem.append "m_") (not_endsStem_numbered _ n)
  · rcases hname' with heq | ⟨m, heq⟩
    · exact absurd (heq ▸ hstem'.append "m_") (not_endsStem_numbered _ n)
    · exact hinj (eq_of_numbered_eq (hstem.append _) (hstem'.append _) heq)

/-- The name of a disjoint macro is an identifier already. -/
theorem identifier_disjointName (set : DisjointSet) :
    identifier (disjointNames set).1 = (disjointNames set).1 := by
  obtain ⟨cs, hcs⟩ : EndsStem (disjointNames set).1 :=
    endsStem_fromLemma.append _
  have hspace : ∀ c ∈ (disjointNames set).1.toList, identifierChar c = c := by
    intro c hc
    refine if_neg ?_
    rintro rfl
    rw [disjointNames, String.toList_append, String.toList_append, List.mem_append,
      List.mem_append] at hc
    rcases hc with (hc | hc) | hc
    · exact absurd hc (by decide)
    · exact space_notMem_identifier _ hc
    · exact absurd hc (by decide)
  have hhead : (disjointNames set).1.toList.dropWhile isBlank = (disjointNames set).1.toList := by
    rw [disjointNames, String.toList_append, String.toList_append]
    rfl
  rw [identifier, trim, String.toList_ofList, strip, hhead, hcs, dropTail_concat (by decide), ← hcs,
    List.map_congr_left hspace, List.map_id', String.ofList_toList]

/-- A free name for the macro of a disjoint set. -/
theorem isMacroName_freeName (set : DisjointSet) (used : List String) :
    IsMacroName (freeName (identifier (disjointNames set).1) used) (disjointNames set).2.1 := by
  rw [identifier_disjointName]
  rcases freeName_spec (disjointNames set).1 used with ⟨-, heq⟩ | ⟨-, n, -, heq, -⟩
  · rw [heq]
    exact .disjointMacro set
  · rw [heq]
    exact .numbered set n

end TransferRules

import Mathlib.Data.List.TakeWhile
import TransferRules.Text.Blank

/-!
# Trimming

What is dropped of a text at its ends are characters of a class, and what is left neither begins nor
ends with one.  So a text is trimmed exactly if its ends are not in the class.

## Main Statements

* `exists_strip` — what is dropped
* `strip_eq_self_iff` — when nothing is dropped
* `strip_strip` — nothing is dropped twice
-/

namespace TransferRules.Text

variable {p : Char → Bool} {cs ds : List Char}

/-- What is dropped at the end are characters of the class. -/
theorem exists_dropTail (p : Char → Bool) (cs : List Char) :
    ∃ behind, cs = dropTail p cs ++ behind ∧ ∀ c ∈ behind, p c = true := by
  refine ⟨(cs.reverse.takeWhile p).reverse, ?_, fun c hc => ?_⟩
  · rw [dropTail, ← List.reverse_append, List.takeWhile_append_dropWhile, List.reverse_reverse]
  · exact List.all_eq_true.1 List.all_takeWhile c (List.mem_reverse.1 hc)

/-- **What is dropped** at both ends are characters of the class. -/
theorem exists_strip (p : Char → Bool) (cs : List Char) :
    ∃ before behind, cs = before ++ (strip p cs ++ behind) ∧ (∀ c ∈ before, p c = true) ∧
      ∀ c ∈ behind, p c = true := by
  obtain ⟨behind, heq, hbehind⟩ := exists_dropTail p (cs.dropWhile p)
  refine ⟨cs.takeWhile p, behind, ?_, List.all_eq_true.1 List.all_takeWhile, hbehind⟩
  rw [strip, ← heq, List.takeWhile_append_dropWhile]

theorem head?_dropWhile {c : Char} (h : c ∈ (cs.dropWhile p).head?) : p c = false := by
  have hnot := List.head?_dropWhile_not p cs
  rw [h] at hnot
  simpa using hnot

theorem getLast?_dropTail {c : Char} (h : c ∈ (dropTail p cs).getLast?) : p c = false := by
  rw [dropTail, List.getLast?_reverse] at h
  exact head?_dropWhile h

/-- What is left neither begins nor ends with a character of the class. -/
theorem ends_strip (p : Char → Bool) (cs : List Char) :
    (∀ c ∈ (strip p cs).head?, p c = false) ∧ ∀ c ∈ (strip p cs).getLast?, p c = false := by
  refine ⟨fun c hc => ?_, fun c hc => getLast?_dropTail hc⟩
  obtain ⟨behind, heq, -⟩ := exists_dropTail p (cs.dropWhile p)
  have hhead : c ∈ (cs.dropWhile p).head? := by
    rw [heq, List.head?_append, show (dropTail p (cs.dropWhile p)).head? = some c from hc]
    rfl
  exact head?_dropWhile hhead

/-- Dropping at the end stops at a character that is not in the class. -/
theorem dropTail_append (hcs : ∀ c ∈ cs.getLast?, p c = false) (ds : List Char) :
    dropTail p (cs ++ ds) = cs ++ dropTail p ds := by
  have hself : cs.reverse.dropWhile p = cs.reverse := by
    cases hreverse : cs.reverse with
    | nil => rfl
    | cons c more =>
        have hc : p c = false := hcs c (by rw [← List.head?_reverse, hreverse]; rfl)
        exact List.dropWhile_cons_of_neg (by simp [hc])
  rw [dropTail, dropTail, List.reverse_append, List.dropWhile_append]
  cases hmore : ds.reverse.dropWhile p with
  | nil => simp [hself]
  | cons c more => simp

theorem dropTail_eq_nil (h : ∀ c ∈ cs, p c = true) : dropTail p cs = [] := by
  rw [dropTail, List.dropWhile_eq_nil_iff.2 fun c hc => h c (List.mem_reverse.1 hc),
    List.reverse_nil]

/-- **Nothing is dropped** exactly if the ends are not in the class. -/
theorem strip_eq_self_iff : strip p cs = cs ↔
    (∀ c ∈ cs.head?, p c = false) ∧ ∀ c ∈ cs.getLast?, p c = false := by
  constructor
  · intro h
    have hends := ends_strip p cs
    rwa [h] at hends
  · rintro ⟨hhead, hlast⟩
    have hdrop : cs.dropWhile p = cs := by
      cases cs with
      | nil => rfl
      | cons c cs => exact List.dropWhile_cons_of_neg (by simp [hhead c rfl])
    rw [strip, hdrop]
    simpa [dropTail_eq_nil] using dropTail_append hlast []

/-- Nothing is dropped twice. -/
theorem strip_strip (p : Char → Bool) (cs : List Char) : strip p (strip p cs) = strip p cs :=
  strip_eq_self_iff.2 (ends_strip p cs)

end TransferRules.Text

import Mathlib.Data.List.Basic
import Mathlib.Data.List.Induction
import TransferRules.Markup.Closing

/-!
# Where written markup ends

Markup that is written ends where it is meant to end if no closing bracket in it counts as one, and
the one behind it does.  Both depend on the content alone, and both can be decided by running the
automaton of the rule once.

## Main Definitions

* `ClosingRule.passes` — no closing bracket in some characters ends the markup
* `ClosingRule.spans` — the markup ends right behind its content

## Main Statements

* `ClosingRule.split_eq_some_iff` — a text is split behind a content exactly if the rule spans it
-/

namespace TransferRules.Markup

variable {σ : Type} {rule : ClosingRule σ} {s : σ} {cs ds content rest : List Char}

/-- Whether no bracket in some characters closes the markup, from a state on. -/
def ClosingRule.passes (rule : ClosingRule σ) : σ → List Char → Bool
  | _, [] => true
  | s, c :: cs => !(c == '>' && rule.closes s) && rule.passes (rule.step s c) cs

/-- Whether the first bracket that closes the markup is the one behind its content. -/
def ClosingRule.spans (rule : ClosingRule σ) (content : List Char) : Bool :=
  rule.passes rule.start content && rule.closes (content.foldl rule.step rule.start)

namespace ClosingRule

theorem passes_append (cs ds : List Char) : rule.passes s (cs ++ ds) =
    (rule.passes s cs && rule.passes (cs.foldl rule.step s) ds) := by
  induction cs generalizing s with
  | nil => rfl
  | cons c cs ih => rw [List.cons_append, passes, ih, passes, List.foldl_cons, Bool.and_assoc]

/-- Without a bracket there is none that closes. -/
theorem passes_of_notMem (h : '>' ∉ cs) : rule.passes s cs = true := by
  induction cs generalizing s with
  | nil => rfl
  | cons c cs ih =>
      rw [List.mem_cons, not_or] at h
      have hc : (c == '>') = false := beq_eq_false_iff_ne.2 (Ne.symm h.1)
      rw [passes, hc, ih h.2]
      rfl

/-- No bracket closes the markup if at none of them the state would. -/
theorem passes_iff : rule.passes s cs = true ↔
    ∀ before behind, cs = before ++ '>' :: behind →
      rule.closes (before.foldl rule.step s) = false := by
  induction cs generalizing s with
  | nil => simp [passes]
  | cons c cs ih =>
      rw [passes, Bool.and_eq_true, ih]
      constructor
      · rintro ⟨hc, hcs⟩ before behind heq
        cases before with
        | nil =>
            obtain ⟨rfl, -⟩ := List.cons.inj heq
            simpa using hc
        | cons d before =>
            obtain ⟨rfl, htail⟩ := List.cons.inj heq
            exact hcs before behind htail
      · intro h
        refine ⟨?_, fun before behind heq => h (c :: before) behind (by rw [heq]; rfl)⟩
        by_cases hc : c = '>'
        · simpa [hc] using h [] cs (by rw [hc]; rfl)
        · simp [hc]

theorem splitFrom_eq_some_iff : rule.splitFrom s cs = some (content, rest) ↔
    cs = content ++ '>' :: rest ∧ rule.passes s content = true ∧
      rule.closes (content.foldl rule.step s) = true := by
  induction cs generalizing s content with
  | nil => simp [splitFrom]
  | cons c cs ih =>
      rw [splitFrom]
      by_cases hc : (c == '>' && rule.closes s) = true
      · rw [if_pos hc]
        rw [Bool.and_eq_true, beq_iff_eq] at hc
        obtain ⟨rfl, hs⟩ := hc
        cases content with
        | nil => simp [passes, hs, eq_comm]
        | cons d content =>
            refine iff_of_false (fun hnone => by cases hnone) ?_
            -- The bracket closes the markup, so it cannot be passed.
            rintro ⟨heq, hpasses, -⟩
            obtain ⟨rfl, -⟩ := List.cons.inj heq
            simp [passes, hs] at hpasses
      · rw [if_neg hc, Option.map_eq_some_iff]
        cases content with
        | nil =>
            refine iff_of_false ?_ ?_
            · rintro ⟨_, _, heq⟩
              cases heq
            · rintro ⟨heq, -, hs⟩
              obtain ⟨rfl, -⟩ := List.cons.inj heq
              exact hc (by rw [show rule.closes s = true from hs]; rfl)
        | cons d content =>
            have hpasses : ∀ b, (!(c == '>' && rule.closes s) && b) = b := by
              intro b
              rw [eq_false_of_ne_true hc]
              rfl
            constructor
            · rintro ⟨⟨content', rest'⟩, hsplit, heq⟩
              cases heq
              obtain ⟨rfl, hrest⟩ := ih.1 hsplit
              rw [passes, hpasses]
              exact ⟨rfl, hrest⟩
            · rintro ⟨heq, hrest⟩
              obtain ⟨rfl, rfl⟩ := List.cons.inj heq
              rw [passes, hpasses] at hrest
              exact ⟨(content, rest), ih.2 ⟨rfl, hrest⟩, rfl⟩

/-- **A text is split behind a content** exactly if it goes on with a bracket there and the rule
spans the content. -/
theorem split_eq_some_iff : rule.split cs = some (content, rest) ↔
    cs = content ++ '>' :: rest ∧ rule.spans content = true := by
  rw [split, splitFrom_eq_some_iff, spans, Bool.and_eq_true]

/-- What the rule spans is split off. -/
theorem split_of_spans (h : rule.spans content = true) (rest : List Char) :
    rule.split (content ++ '>' :: rest) = some (content, rest) :=
  split_eq_some_iff.2 ⟨rfl, h⟩

end ClosingRule

/-! ## Tags -/

/-- Outside quotes, characters that open none leave the state as it is. -/
theorem foldl_unquoted (h : ∀ c ∈ cs, c ≠ '"' ∧ c ≠ '\'') :
    cs.foldl tagClosing.step none = none := by
  induction cs with
  | nil => rfl
  | cons c cs ih =>
      have hc := h c List.mem_cons_self
      have hstep : tagClosing.step none c = none := if_neg (not_or.2 hc)
      rw [List.foldl_cons, hstep, ih fun d hd => h d (List.mem_cons_of_mem _ hd)]

/-- Between quotes, so do all but the quote. -/
theorem foldl_quoted {quote : Char} (h : ∀ c ∈ cs, c ≠ quote) :
    cs.foldl tagClosing.step (some quote) = some quote := by
  induction cs with
  | nil => rfl
  | cons c cs ih =>
      have hstep : tagClosing.step (some quote) c = some quote := if_neg (h c List.mem_cons_self)
      rw [List.foldl_cons, hstep, ih fun d hd => h d (List.mem_cons_of_mem _ hd)]

/-- Only a quote can be open. -/
theorem quote_of_foldl {quote : Char} {s : Option Char} (hs : ∀ q ∈ s, q = '"' ∨ q = '\'')
    (h : quote ∈ cs.foldl tagClosing.step s) : quote = '"' ∨ quote = '\'' := by
  induction cs generalizing s with
  | nil => exact hs quote h
  | cons c cs ih =>
      refine ih (fun q hq => ?_) h
      cases s with
      | none =>
          simp only [tagClosing] at hq
          split at hq
          · next hc => exact Option.some.inj hq ▸ hc
          · cases hq
      | some opened =>
          simp only [tagClosing] at hq
          split at hq
          · cases hq
          · exact hs q hq

/-- What opens no quote behind the content of a tag changes nothing about where the tag ends. -/
theorem spans_tag_append (h : ∀ c ∈ ds, c ≠ '"' ∧ c ≠ '\'' ∧ c ≠ '>') :
    tagClosing.spans (cs ++ ds) = tagClosing.spans cs := by
  have hmem : '>' ∉ ds := fun hmem => (h _ hmem).2.2 rfl
  have hcloses : tagClosing.closes (ds.foldl tagClosing.step (cs.foldl tagClosing.step none)) =
      tagClosing.closes (cs.foldl tagClosing.step none) := by
    cases hstate : cs.foldl tagClosing.step none with
    | none => rw [foldl_unquoted fun c hc => ⟨(h c hc).1, (h c hc).2.1⟩]
    | some quote =>
        have hquote : ∀ c ∈ ds, c ≠ quote := by
          intro c hc
          rcases quote_of_foldl (fun _ hq => by cases hq) hstate with rfl | rfl
          · exact (h c hc).1
          · exact (h c hc).2.1
        rw [foldl_quoted hquote]
  rw [ClosingRule.spans, ClosingRule.spans, ClosingRule.passes_append,
    ClosingRule.passes_of_notMem hmem, Bool.and_true, List.foldl_append]
  exact congrArg _ hcloses

/-- In particular, a slash does not. -/
theorem spans_tag_slash (cs : List Char) : tagClosing.spans (cs ++ ['/']) = tagClosing.spans cs :=
  spans_tag_append (by simp)

/-! ## Comments, instructions and document types -/

/-- The state of a rule that looks at the last two characters. -/
theorem foldl_lastTwo (cs : List Char) :
    cs.foldl LastTwo.step {} = ⟨cs.length, cs.getLast?, cs.dropLast.getLast?⟩ := by
  induction cs using List.reverseRecOn with
  | nil => rfl
  | append_singleton cs c ih =>
      rw [List.foldl_append, ih, List.length_append, List.getLast?_concat, List.dropLast_concat]
      rfl

/-- If the last two characters are the same, a text ends with both. -/
theorem suffix_of_are {c : Char} (h : (cs.foldl LastTwo.step {}).are c = true) :
    [c, c] <:+ cs := by
  rw [foldl_lastTwo, LastTwo.are, Bool.and_eq_true, beq_iff_eq, beq_iff_eq] at h
  have hlast := List.dropLast_append_getLast? c h.1
  have hbefore := List.dropLast_append_getLast? c h.2
  refine ⟨cs.dropLast.dropLast, ?_⟩
  rw [← hlast, ← hbefore]
  simp

/-- The first character of an instruction ends it at most with one before it. -/
theorem passes_none {s : Option Char} (h : instructionClosing.passes s cs = true) :
    instructionClosing.passes none cs = true := by
  cases cs with
  | nil => rfl
  | cons c cs =>
      rw [ClosingRule.passes, Bool.and_eq_true] at h ⊢
      exact ⟨by simp [instructionClosing], h.2⟩

/-- Without brackets, the number of those that are open stays. -/
theorem foldl_unbracketed {depth : Nat} (h : ∀ c ∈ cs, c ≠ '<' ∧ c ≠ '>') :
    cs.foldl doctypeClosing.step depth = depth := by
  induction cs with
  | nil => rfl
  | cons c cs ih =>
      have hc := h c List.mem_cons_self
      have hstep : doctypeClosing.step depth c = depth := (if_neg hc.1).trans (if_neg hc.2)
      rw [List.foldl_cons, hstep, ih fun d hd => h d (List.mem_cons_of_mem _ hd)]

/-- What has no brackets in it changes nothing about where a document type declaration ends. -/
theorem spans_doctype_append (hcs : ∀ c ∈ cs, c ≠ '<' ∧ c ≠ '>') (hds : ∀ c ∈ ds, c ≠ '<' ∧ c ≠ '>')
    (content : List Char) :
    doctypeClosing.spans (cs ++ (content ++ ds)) = doctypeClosing.spans content := by
  have hstart : cs.foldl doctypeClosing.step doctypeClosing.start = doctypeClosing.start :=
    foldl_unbracketed hcs
  rw [ClosingRule.spans, ClosingRule.spans, ClosingRule.passes_append, ClosingRule.passes_append,
    ClosingRule.passes_of_notMem fun hmem => (hcs _ hmem).2 rfl,
    ClosingRule.passes_of_notMem fun hmem => (hds _ hmem).2 rfl, Bool.true_and, Bool.and_true,
    List.foldl_append, List.foldl_append, hstart, foldl_unbracketed hds]

end TransferRules.Markup

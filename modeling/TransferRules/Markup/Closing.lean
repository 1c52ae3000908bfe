/-!
# Where markup ends

Every kind of markup ends at some `>`, but not at the first one: a tag skips quoted values,
a comment needs `--` before it, a document type declaration balances inner brackets.  Each
kind is a small automaton that reads the characters after `<` and says whether a `>` now would
close the markup; `ClosingRule.split` runs it.

## Main Definitions

* `ClosingRule` — the automaton of one kind of markup
* `ClosingRule.split` — what stands before the closing `>`, and what follows it
* `tagClosing`, `instructionClosing`, `commentClosing`, `dataClosing`, `doctypeClosing`
-/

namespace TransferRules.Markup

/-- When a `>` closes a piece of markup, decided from what stands before it. -/
structure ClosingRule (σ : Type) where
  start : σ
  step : σ → Char → σ
  closes : σ → Bool

/-- Split at the closing `>`, from a state of the automaton on. -/
def ClosingRule.splitFrom {σ : Type} (rule : ClosingRule σ) :
    σ → List Char → Option (List Char × List Char)
  | _, [] => none
  | s, c :: cs =>
    if c == '>' && rule.closes s then some ([], cs)
    else (rule.splitFrom (rule.step s c) cs).map fun (content, rest) => (c :: content, rest)

/-- Split at the closing `>`: the content before it and the rest after it. -/
def ClosingRule.split {σ : Type} (rule : ClosingRule σ) (cs : List Char) :
    Option (List Char × List Char) :=
  rule.splitFrom rule.start cs

theorem ClosingRule.eq_of_splitFrom {σ : Type} {rule : ClosingRule σ} {s : σ}
    {cs content rest : List Char} (h : rule.splitFrom s cs = some (content, rest)) :
    cs = content ++ '>' :: rest := by
  induction cs generalizing s content with
  | nil => simp [splitFrom] at h
  | cons c cs ih =>
    unfold splitFrom at h
    split at h
    · next hc =>
      simp only [Bool.and_eq_true, beq_iff_eq] at hc
      simp only [Option.some.injEq, Prod.mk.injEq] at h
      simp [hc.1, ← h.1, h.2]
    · obtain ⟨⟨content', rest'⟩, hsplit, heq⟩ := Option.map_eq_some_iff.1 h
      simp only [Prod.mk.injEq] at heq
      rw [← heq.1, List.cons_append, ih (heq.2 ▸ hsplit)]

/-- The content and the rest make up the text again. -/
theorem ClosingRule.eq_of_split {σ : Type} {rule : ClosingRule σ} {cs content rest : List Char}
    (h : rule.split cs = some (content, rest)) : cs = content ++ '>' :: rest :=
  eq_of_splitFrom h

theorem ClosingRule.length_lt_of_split {σ : Type} {rule : ClosingRule σ}
    {cs content rest : List Char} (h : rule.split cs = some (content, rest)) :
    rest.length < cs.length := by
  rw [eq_of_split h]
  simp only [List.length_append, List.length_cons]
  omega

/-- A tag ends at a `>` outside quotes; the state is the quote that is open. -/
def tagClosing : ClosingRule (Option Char) where
  start := none
  step
    | none, c => if c = '"' ∨ c = '\'' then some c else none
    | some quote, c => if c = quote then none else some quote
  closes := Option.isNone

/-- An instruction ends at a `>` right after a `?`. -/
def instructionClosing : ClosingRule (Option Char) where
  start := none
  step _ c := some c
  closes s := s == some '?'

/-- The number of characters read, and the last two of them. -/
structure LastTwo where
  count : Nat := 0
  last : Option Char := none
  before : Option Char := none

/-- The state after one more character. -/
def LastTwo.step (s : LastTwo) (c : Char) : LastTwo := ⟨s.count + 1, some c, s.last⟩

/-- Whether the last two characters are both `c`. -/
def LastTwo.are (s : LastTwo) (c : Char) : Bool := s.last == some c && s.before == some c

/-- A comment ends at a `>` after `--`, at the earliest behind `!----`. -/
def commentClosing : ClosingRule LastTwo where
  start := {}
  step := LastTwo.step
  closes s := decide (5 ≤ s.count) && s.are '-'

/-- Character data ends at a `>` after `]]`. -/
def dataClosing : ClosingRule LastTwo where
  start := {}
  step := LastTwo.step
  closes s := s.are ']'

/-- A document type declaration ends at the `>` that balances its brackets; the state is the
number of brackets that are open. -/
def doctypeClosing : ClosingRule Nat where
  start := 0
  step depth c := if c = '<' then depth + 1 else if c = '>' then depth - 1 else depth
  closes depth := depth == 0

end TransferRules.Markup

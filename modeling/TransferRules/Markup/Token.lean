import TransferRules.Markup.AttributeList
import TransferRules.Markup.Closing

/-!
# Tokens of a markup text

A text is read as a list of tokens: tags, texts, comments, instructions and declarations.
Space between tokens is layout and disappears.  Reading stops at the first fault, and the
tokens before it are kept, so that a fault in one of them is found first.

## Main Definitions

* `Token` — a piece of markup, not yet interpreted
* `ReadFault` — a fault at a byte position
* `scan` — the first token of a text
* `tokens` — all tokens of a text, and the fault that ended the reading

## Design Notes

A position is the size of the text minus the size of what is still unread, so no position is
carried along; it is only worked out for a fault.
-/

namespace TransferRules.Markup

open TransferRules.Text

/-- What is wrong with the markup at some position. -/
inductive Fault where
  | unknownMarkup
  | openComment
  | openData
  | openDoctype
  | openInstruction
  | openTag
  | namelessDoctype
  | mismatchedEnd (expected found : String)
  | unmatchedEnd (name : String)
  deriving Repr, DecidableEq

/-- The wording of a fault: the first six are faults of syntax, the others of form. -/
def Fault.message : Fault → String
  | .unknownMarkup => "syntax error: unknown or missed symbol in markup"
  | .openComment => "syntax error: comment not closed: `-->` not found before end of input"
  | .openData => "syntax error: CDATA not closed: `]]>` not found before end of input"
  | .openDoctype => "syntax error: DOCTYPE not closed: `>` not found before end of input"
  | .openInstruction =>
    "syntax error: processing instruction or xml declaration not closed: " ++
      "`?>` not found before end of input"
  | .openTag => "syntax error: tag not closed: `>` not found before end of input"
  | .namelessDoctype =>
    "ill-formed document: `<!DOCTYPE>` declaration does not contain a name of a document type"
  | .mismatchedEnd expected found =>
    "ill-formed document: expected `</" ++ expected ++ ">`, but `</" ++ found ++ ">` was found"
  | .unmatchedEnd name =>
    "ill-formed document: close tag `</" ++ name ++ ">` does not match any open tag"

/-- A fault and the number of bytes read when it was found. -/
structure ReadFault where
  fault : Fault
  position : Nat
  deriving Repr, DecidableEq

/-- The wording of a fault with its position. -/
def ReadFault.message (f : ReadFault) : String :=
  f.fault.message ++ " (at byte " ++ toString f.position ++ ")"

/-- A piece of markup.  Tags and texts hold their raw content; a closing tag also holds what is
unread behind it, from which the position of a fault is found. -/
inductive Token where
  | opening (content : List Char)
  | empty (content : List Char)
  | closing (name unread : List Char)
  | text (content : List Char)
  | data (content : List Char)
  | comment (content : List Char)
  | instruction (content : List Char)
  | declaration
  | doctype (content : List Char)
  deriving Repr, DecidableEq

/-- What stands between the first `start` and the last `stop` characters. -/
def inner (start stop : Nat) (cs : List Char) : List Char :=
  (cs.drop start).take (cs.length - start - stop)

/-- Whether `cs` starts with `start`, whatever the case of its ASCII letters. -/
def startsWithAnyCase (start cs : List Char) : Bool :=
  (cs.take start.length).map Char.toLower == start.map Char.toLower

/-- The token of a comment whose content, from the `!` on, was split off. -/
def commentToken? (content : List Char) : Except Fault Token :=
  if "!--".toList.isPrefixOf content then .ok (.comment (inner 3 2 content))
  else .error .openComment

/-- The token of character data. -/
def dataToken? (content : List Char) : Except Fault Token :=
  if "![CDATA[".toList.isPrefixOf content then .ok (.data (inner 8 2 content))
  else .error .openData

/-- The token of a document type declaration, which has to name a type. -/
def doctypeToken? (content : List Char) : Except Fault Token :=
  if startsWithAnyCase "!DOCTYPE".toList content then
    match (content.drop 8).dropWhile isSpace with
    | [] => .error .namelessDoctype
    | body => .ok (.doctype body)
  else .error .openDoctype

/-- The token of an instruction.  The instruction named `xml` is the declaration of the
document. -/
def instructionToken? (content : List Char) : Except Fault Token :=
  if content.length ≤ 1 then .error .openInstruction
  else
    match inner 1 1 content with
    | ['x', 'm', 'l'] => .ok .declaration
    | 'x' :: 'm' :: 'l' :: c :: rest =>
      if isSpace c then .ok .declaration else .ok (.instruction ('x' :: 'm' :: 'l' :: c :: rest))
    | body => .ok (.instruction body)

/-- The token of a tag that is no closing tag: a slash at its end makes it empty. -/
def tagToken (content : List Char) : Token :=
  if content.getLast? = some '/' then .empty content.dropLast else .opening content

/-- The name in a closing tag: what stands behind its slash, without the space at its end.  Where
there is nothing but space, all of it is the name. -/
def closingName (content : List Char) : List Char :=
  if content.all isSpace then content else dropTail isSpace content

/-- Split markup off by the rule for its end and make a token of it; `total` is the size of
the whole text. -/
def scanClosed {σ : Type} (total : Nat) (rule : ClosingRule σ) (unclosed : Fault)
    (toToken : List Char → Except Fault Token) (cs : List Char) :
    Except ReadFault (Token × List Char) :=
  match rule.split cs with
  | none => .error ⟨unclosed, total⟩
  | some (content, rest) =>
    match toToken content with
    | .ok token => .ok (token, rest)
    | .error fault => .error ⟨fault, total - byteSize rest⟩

/-- Read the markup behind a `<`. -/
def scanMarkup (total : Nat) (cs : List Char) : Except ReadFault (Token × List Char) :=
  match cs with
  | '!' :: '-' :: _ => scanClosed total commentClosing .openComment commentToken? cs
  | '!' :: '[' :: _ => scanClosed total dataClosing .openData dataToken? cs
  | '!' :: 'D' :: _ => scanClosed total doctypeClosing .openDoctype doctypeToken? cs
  | '!' :: 'd' :: _ => scanClosed total doctypeClosing .openDoctype doctypeToken? cs
  | '!' :: _ => .error ⟨.unknownMarkup, total - byteSize cs⟩
  | '?' :: _ => scanClosed total instructionClosing .openInstruction instructionToken? cs
  | '/' :: name =>
    match tagClosing.split name with
    | none => .error ⟨.openTag, total⟩
    | some (content, rest) =>
      .ok (.closing (closingName content) rest, rest)
  | _ => scanClosed total tagClosing .openTag (fun content => .ok (tagToken content)) cs

/-- The first token of a text and what follows it; none at the end of the text. -/
def scan (total : Nat) (cs : List Char) : Except ReadFault (Option (Token × List Char)) :=
  match cs.dropWhile isSpace with
  | [] => .ok none
  | '<' :: rest => (scanMarkup total rest).map some
  | c :: rest =>
    let (raw, rest') := splitBefore (· == '<') rest
    .ok (some (.text (dropTail isSpace (c :: raw)), rest'))

theorem scanClosed_length {σ : Type} {total : Nat} {rule : ClosingRule σ} {unclosed : Fault}
    {toToken : List Char → Except Fault Token} {cs rest : List Char} {token : Token}
    (h : scanClosed total rule unclosed toToken cs = .ok (token, rest)) :
    rest.length < cs.length := by
  unfold scanClosed at h
  split at h
  · exact absurd h (by simp)
  · next content rest' hsplit =>
    have hlt := ClosingRule.length_lt_of_split hsplit
    split at h
    · simp only [Except.ok.injEq, Prod.mk.injEq] at h
      exact h.2 ▸ hlt
    · exact absurd h (by simp)

theorem scanMarkup_length {total : Nat} {cs rest : List Char} {token : Token}
    (h : scanMarkup total cs = .ok (token, rest)) : rest.length < cs.length := by
  unfold scanMarkup at h
  split at h
  · exact scanClosed_length h
  · exact scanClosed_length h
  · exact scanClosed_length h
  · exact scanClosed_length h
  · exact absurd h (by simp)
  · exact scanClosed_length h
  · next name _ =>
    split at h
    · exact absurd h (by simp)
    · next content rest' hsplit =>
      have hlt := ClosingRule.length_lt_of_split hsplit
      simp only [Except.ok.injEq, Prod.mk.injEq] at h
      rw [← h.2]
      simp only [List.length_cons]
      omega
  · exact scanClosed_length h

theorem scan_length {total : Nat} {cs rest : List Char} {token : Token}
    (h : scan total cs = .ok (some (token, rest))) : rest.length < cs.length := by
  unfold scan at h
  have hle := length_dropWhile_le isSpace cs
  split at h
  · exact absurd h (by simp)
  · next rest' hrest =>
    rw [hrest] at hle
    simp only [List.length_cons] at hle
    cases hscan : scanMarkup total rest' with
    | error fault => simp [hscan, Except.map] at h
    | ok pair =>
      simp only [hscan, Except.map, Except.ok.injEq, Option.some.injEq] at h
      subst h
      have := scanMarkup_length hscan
      omega
  · next c rest' hne hrest =>
    rw [hrest] at hle
    simp only [splitBefore, Except.ok.injEq, Option.some.injEq, Prod.mk.injEq] at h
    rw [← h.2]
    have := length_dropWhile_le (fun c => !(c == '<')) rest'
    simp only [List.length_cons] at hle
    omega

/-- The tokens of what is left of a text of `total` bytes, and the fault that ended it. -/
def tokensFrom (total : Nat) (cs : List Char) : List Token × Option ReadFault :=
  match _h : scan total cs with
  | .error fault => ([], some fault)
  | .ok none => ([], none)
  | .ok (some (token, rest)) =>
    let (more, fault?) := tokensFrom total rest
    (token :: more, fault?)
termination_by cs.length
decreasing_by exact scan_length ‹_›

/-- The tokens of a text, and the fault that ended the reading. -/
def tokens (cs : List Char) : List Token × Option ReadFault := tokensFrom (byteSize cs) cs

end TransferRules.Markup

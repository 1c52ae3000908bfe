import TransferRules.Text.Numeral
import TransferRules.Text.Utf8

/-!
# Entities

Five characters are written as entities in texts and attribute values.  Reading knows the
same five entities and character references, decimal and hexadecimal.

## Main Definitions

* `escape` — write a text with entities
* `unescape` — read entities and character references
* `EntityError` — why a text cannot be read

## Main Statements

* `unescape_escape` — what was escaped is read back
-/

namespace TransferRules.Markup

open TransferRules.Text

/-- Why a reference cannot be read.  Ranges are byte offsets in the text read. -/
inductive EntityError where
  /-- No semicolon ends the reference that starts at `start`. -/
  | unterminated (start length : Nat)
  /-- The name between the two offsets is no known entity. -/
  | unrecognized (start stop : Nat) (name : String)
  | signedReference
  | badReference (error : NumeralError)
  | invalidCodepoint (code : Nat)
  | nullCharacter
  deriving Repr, DecidableEq

/-- The wording of an entity error. -/
def EntityError.message : EntityError → String
  | .unterminated start length =>
    "Error while escaping character at range " ++ toString start ++ ".." ++ toString length ++
      ": Cannot find ';' after '&'"
  | .unrecognized start stop name =>
    "at " ++ toString start ++ ".." ++ toString stop ++ ": unrecognized entity `" ++ name ++ "`"
  | .signedReference => "invalid character reference: unexpected number sign"
  | .badReference error => "invalid character reference: " ++ error.message
  | .invalidCodepoint code =>
    "invalid character reference: `" ++ toString code ++ "` is not a valid codepoint"
  | .nullCharacter => "invalid character reference: 0x0 character is not permitted in XML"

/-- How a character is written. -/
def escapeChar : Char → List Char
  | '<' => "&lt;".toList
  | '>' => "&gt;".toList
  | '&' => "&amp;".toList
  | '\'' => "&apos;".toList
  | '"' => "&quot;".toList
  | c => [c]

/-- How a text is written. -/
def escape (cs : List Char) : List Char := cs.flatMap escapeChar

/-- The character of a named entity. -/
def namedEntity? : List Char → Option Char
  | ['l', 't'] => some '<'
  | ['g', 't'] => some '>'
  | ['a', 'm', 'p'] => some '&'
  | ['a', 'p', 'o', 's'] => some '\''
  | ['q', 'u', 'o', 't'] => some '"'
  | _ => none

/-- The character of a code that a reference gives. -/
def charOfCode (code : Nat) : Except EntityError Char :=
  if code = 0 then .error .nullCharacter
  else if h : code.isValidChar then .ok (Char.ofNatAux code h)
  else .error (.invalidCodepoint code)

/-- The code of a character reference, without the number sign; a sign may not precede the
digits. -/
def readReference (radix : Nat) (digits : List Char) : Except EntityError Char :=
  match digits with
  | '+' :: _ | '-' :: _ => .error .signedReference
  | _ =>
    match readNumeral radix wordBound digits with
    | .ok code => charOfCode code
    | .error error => .error (.badReference error)

/-- The character that stands for what is written between `&` and `;`, where the name starts
at byte `start`. -/
def readEntity (start : Nat) (name : List Char) : Except EntityError Char :=
  match name with
  | '#' :: 'x' :: digits => readReference 16 digits
  | '#' :: digits => readReference 10 digits
  | _ =>
    match namedEntity? name with
    | some c => .ok c
    | none => .error (.unrecognized start (start + byteSize name) (String.ofList name))

/-- Split behind the semicolon that ends a reference; an ampersand before it leaves the
reference open. -/
def splitReference : List Char → Option (List Char × List Char)
  | [] => none
  | c :: cs =>
    if c = ';' then some ([], cs)
    else if c = '&' then none
    else (splitReference cs).map fun (name, rest) => (c :: name, rest)

theorem splitReference_length {cs name rest : List Char}
    (h : splitReference cs = some (name, rest)) : rest.length < cs.length := by
  induction cs generalizing name with
  | nil => simp [splitReference] at h
  | cons c cs ih =>
    unfold splitReference at h
    split at h
    · simp only [Option.some.injEq, Prod.mk.injEq] at h
      simp [h.2]
    · split at h
      · exact absurd h (by simp)
      · obtain ⟨⟨name', rest'⟩, hsplit, heq⟩ := Option.map_eq_some_iff.1 h
        simp only [Prod.mk.injEq] at heq
        have := ih (heq.2 ▸ hsplit)
        simp only [List.length_cons]
        omega

/-- Read the entities of a text of `total` bytes from byte `offset` on. -/
def unescapeFrom (total offset : Nat) : List Char → Except EntityError (List Char)
  | [] => .ok []
  | c :: cs =>
    if c = '&' then
      match _h : splitReference cs with
      | none => .error (.unterminated offset total)
      | some (name, rest) =>
        match readEntity (offset + 1) name with
        | .error error => .error error
        | .ok d => (d :: ·) <$> unescapeFrom total (offset + byteSize name + 2) rest
    else (c :: ·) <$> unescapeFrom total (offset + c.utf8Size) cs
termination_by cs => cs.length
decreasing_by
  · have := splitReference_length ‹_›
    simp only [List.length_cons]
    omega
  · simp

/-- Read the entities and character references of a text. -/
def unescape (cs : List Char) : Except EntityError (List Char) :=
  unescapeFrom (byteSize cs) 0 cs

theorem unescapeFrom_escapeChar (total offset : Nat) (c : Char) (rest : List Char) :
    unescapeFrom total offset (escapeChar c ++ rest) =
      (c :: ·) <$> unescapeFrom total (offset + byteSize (escapeChar c)) rest := by
  have hname (name : List Char) (hsplit : splitReference (name ++ ';' :: rest) = some (name, rest))
      (hread : readEntity (offset + 1) name = .ok c) :
      unescapeFrom total offset ('&' :: (name ++ ';' :: rest)) =
        (c :: ·) <$> unescapeFrom total (offset + byteSize name + 2) rest := by
    rw [unescapeFrom]
    simp only [if_true]
    split
    · next h => rw [hsplit] at h; exact absurd h (by simp)
    · next name' rest' h =>
      rw [hsplit] at h
      simp only [Option.some.injEq, Prod.mk.injEq] at h
      obtain ⟨rfl, rfl⟩ := h
      rw [hread]
  unfold escapeChar
  split
  · exact hname ['l', 't'] rfl rfl
  · exact hname ['g', 't'] rfl rfl
  · exact hname ['a', 'm', 'p'] rfl rfl
  · exact hname ['a', 'p', 'o', 's'] rfl rfl
  · exact hname ['q', 'u', 'o', 't'] rfl rfl
  · next h =>
    rw [List.singleton_append, unescapeFrom, if_neg (by intro hc; exact absurd hc (by simp_all))]
    simp

/-- What was escaped is read back. -/
theorem unescape_escape (cs : List Char) : unescape (escape cs) = .ok cs := by
  have h (total offset : Nat) : unescapeFrom total offset (escape cs) = .ok cs := by
    induction cs generalizing offset with
    | nil => simp [escape, unescapeFrom]
    | cons c cs ih =>
      have hcons : escape (c :: cs) = escapeChar c ++ escape cs := by simp [escape]
      rw [hcons, unescapeFrom_escapeChar, ih]
      rfl
  exact h _ _

end TransferRules.Markup

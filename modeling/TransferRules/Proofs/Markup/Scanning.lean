import TransferRules.Proofs.Markup.Ending
import TransferRules.Proofs.Markup.Tags
import TransferRules.Proofs.Text.Trimming

/-!
# Tokens that are written

Each piece of markup that is written is one token when it is read: a tag ends where it is meant to,
a text goes up to the layout before the next piece, a comment and an instruction end at their own
ends.  An instruction is a token of its own unless it reads as the declaration of the document.

## Main Definitions

* `Fresh` — a text that goes on with layout and markup
* `isDeclaration` — instructions that are passed over
* `ReadableDoctype` — document types that can have been read

## Main Statements

* `scan_opening`, `scan_empty`, `scan_closing` — the tags of an element
* `scan_text`, `scan_comment`, `scan_instruction`, `scan_doctype` — the other pieces
-/

namespace TransferRules.Markup

open TransferRules.Text

/-! ## Layout -/

theorem isSpace_of_mem_padding {depth indent : Nat} {c : Char} (h : c ∈ padding depth indent) :
    isSpace c = true := by
  rw [List.eq_of_mem_replicate h]
  decide

/-- The end of a line is layout too. -/
theorem isSpace_of_mem_newline : ∀ c ∈ ['\n'], isSpace c = true := by simp [isSpace]

variable {total indent : Nat} {cs rest spaces : List Char}

/-- Space before a token is layout. -/
theorem scan_append (hspaces : ∀ c ∈ spaces, isSpace c = true) (cs : List Char) :
    scan total (spaces ++ cs) = scan total cs := by
  rw [scan, scan, List.dropWhile_append_of_pos hspaces]

theorem scan_markup (cs : List Char) : scan total ('<' :: cs) = (scanMarkup total cs).map some :=
  rfl

/-- A text that goes on with layout and markup, or ends. -/
def Fresh (cs : List Char) : Prop :=
  ∃ spaces rest, cs = spaces ++ rest ∧ (∀ c ∈ spaces, isSpace c = true) ∧
    (rest = [] ∨ ∃ more, rest = '<' :: more)

theorem fresh_nil : Fresh [] := ⟨[], [], rfl, nofun, .inl rfl⟩

theorem fresh_markup (cs : List Char) : Fresh ('<' :: cs) :=
  ⟨[], _, rfl, nofun, .inr ⟨cs, rfl⟩⟩

theorem Fresh.append (h : Fresh cs) (hspaces : ∀ c ∈ spaces, isSpace c = true) :
    Fresh (spaces ++ cs) := by
  obtain ⟨more, rest, rfl, hmore, hrest⟩ := h
  refine ⟨spaces ++ more, rest, (List.append_assoc ..).symm, fun c hc => ?_, hrest⟩
  rcases List.mem_append.1 hc with hc | hc
  · exact hspaces c hc
  · exact hmore c hc

theorem Fresh.newline (h : Fresh cs) : Fresh ('\n' :: cs) :=
  h.append isSpace_of_mem_newline

theorem fresh_padding (depth indent : Nat) (cs : List Char) :
    Fresh (padding depth indent ++ '<' :: cs) :=
  (fresh_markup cs).append fun _ hc => isSpace_of_mem_padding hc

/-! ## Tags -/

variable {name : String} {attributes : List (String × String)}

theorem scanMarkup_of_opensTag (h : opensTag cs = true) : scanMarkup total cs =
    scanClosed total tagClosing .openTag (fun content => .ok (tagToken content)) cs := by
  unfold scanMarkup
  split
  all_goals first
    | rfl
    | exact absurd h (by simp [opensTag])

/-- A tag that ends where it is meant to. -/
theorem scan_tag {content : List Char} (hopens : opensTag (content ++ '>' :: rest) = true)
    (hends : tagClosing.spans content = true) :
    scan total ('<' :: (content ++ '>' :: rest)) = .ok (some (tagToken content, rest)) := by
  rw [scan_markup, scanMarkup_of_opensTag hopens, scanClosed, ClosingRule.split_of_spans hends]
  rfl

theorem opensTag_tagContent (hname : isTagName name = true) {cs : List Char}
    (hcs : tagContent name attributes = [] → opensTag cs = true) :
    opensTag (tagContent name attributes ++ cs) = true := by
  rw [isTagName, Bool.and_eq_true] at hname
  rw [tagContent] at hcs ⊢
  cases hchars : name.toList with
  | cons c more =>
      rw [hchars] at hname
      exact hname.1
  | nil =>
      rw [hchars] at hcs
      cases attributes with
      | nil => exact hcs rfl
      | cons pair attributes =>
          rw [writeAttributes_cons]
          rfl

/-- The tag that opens an element. -/
theorem scan_opening (hname : isTagName name = true)
    (hends : tagClosing.spans (tagContent name attributes) = true)
    (hslash : (tagContent name attributes).getLast? ≠ some '/') (rest : List Char) :
    scan total ('<' :: (tagContent name attributes ++ '>' :: rest)) =
      .ok (some (.opening (tagContent name attributes), rest)) := by
  rw [scan_tag (opensTag_tagContent hname fun _ => rfl) hends, tagToken, if_neg hslash]

/-- The tag of an element without children. -/
theorem scan_empty (hname : isTagName name = true)
    (hends : tagClosing.spans (tagContent name attributes) = true)
    (hempty : tagContent name attributes ≠ []) (rest : List Char) :
    scan total ('<' :: (tagContent name attributes ++ '/' :: '>' :: rest)) =
      .ok (some (.empty (tagContent name attributes), rest)) := by
  have hopens : opensTag (tagContent name attributes ++ ['/'] ++ '>' :: rest) = true := by
    rw [List.append_assoc]
    exact opensTag_tagContent hname fun hnil => absurd hnil hempty
  have hslash : tagClosing.spans (tagContent name attributes ++ ['/']) = true := by
    rwa [spans_tag_slash]
  have htag : scan total ('<' :: (tagContent name attributes ++ ['/'] ++ '>' :: rest)) =
      .ok (some (tagToken (tagContent name attributes ++ ['/']), rest)) := scan_tag hopens hslash
  rwa [List.append_assoc, tagToken, if_pos List.getLast?_concat, List.dropLast_concat] at htag

/-- A name is found again in the tag that closes it. -/
theorem closingName_of_isTagName (hname : isTagName name = true) :
    closingName name.toList = name.toList := by
  unfold closingName
  split
  · rfl
  · next hall =>
    obtain ⟨first, last, hconcat⟩ := (List.eq_nil_or_concat name.toList).resolve_left
      fun hnil => hall (by rw [hnil]; rfl)
    rw [List.concat_eq_append] at hconcat
    rw [hconcat]
    refine dropTail_concat (isSpace_of_mem_tagName hname ?_)
    rw [hconcat]
    exact List.mem_append_right _ (List.mem_singleton_self _)

/-- The tag that closes an element. -/
theorem scan_closing (hname : isTagName name = true) (hends : tagClosing.spans name.toList = true)
    (rest : List Char) :
    scan total ('<' :: '/' :: (name.toList ++ '>' :: rest)) =
      .ok (some (.closing name.toList rest, rest)) := by
  rw [scan_markup, scanMarkup, ClosingRule.split_of_spans hends]
  simp only [closingName_of_isTagName hname]
  rfl

/-! ## Texts -/

/-- What is written of a character is space only if it is itself. -/
theorem isSpace_of_mem_escapeChar {c d : Char} (hd : d ∈ escapeChar c) (hspace : isSpace d = true) :
    isSpace c = true := by
  have hentity : ∀ entity : List Char, (entity.all fun d => !isSpace d) = true → d ∈ entity →
      isSpace c = true := by
    intro entity hall hmem
    simpa [hspace] using List.all_eq_true.1 hall d hmem
  unfold escapeChar at hd
  split at hd
  · exact hentity _ rfl hd
  · exact hentity _ rfl hd
  · exact hentity _ rfl hd
  · exact hentity _ rfl hd
  · exact hentity _ rfl hd
  · exact List.mem_singleton.1 hd ▸ hspace

theorem escapeChar_ne_nil (c : Char) : escapeChar c ≠ [] := by
  unfold escapeChar
  split
  all_goals exact List.cons_ne_nil _ _

/-- An escaped text begins with what its first character is written as. -/
theorem mem_of_head?_escape {d : Char} (h : d ∈ (escape cs).head?) :
    ∃ c ∈ cs.head?, d ∈ escapeChar c := by
  cases cs with
  | nil => cases h
  | cons c cs =>
      obtain ⟨first, more, hcons⟩ := List.exists_cons_of_ne_nil (escapeChar_ne_nil c)
      rw [escape, List.flatMap_cons, hcons] at h
      obtain rfl := Option.some.inj h
      exact ⟨c, rfl, hcons ▸ List.mem_cons_self⟩

/-- And it ends with what its last character is written as. -/
theorem mem_of_getLast?_escape {d : Char} (h : d ∈ (escape cs).getLast?) :
    ∃ c ∈ cs.getLast?, d ∈ escapeChar c := by
  rcases List.eq_nil_or_concat cs with rfl | ⟨cs, c, rfl⟩
  · cases h
  · obtain ⟨more, last, hconcat⟩ :=
      (List.eq_nil_or_concat (escapeChar c)).resolve_left (escapeChar_ne_nil c)
    rw [List.concat_eq_append] at hconcat
    rw [List.concat_eq_append, escape, List.flatMap_append, List.flatMap_singleton, hconcat,
      ← List.append_assoc, List.getLast?_concat] at h
    obtain rfl := Option.some.inj h
    refine ⟨c, ?_, hconcat ▸ List.mem_append_right _ (List.mem_singleton_self _)⟩
    rw [List.concat_eq_append, List.getLast?_concat]
    rfl

/-- An escaped text neither begins nor ends with space if the text is trimmed. -/
theorem ends_escape (htrim : strip isBlank cs = cs) :
    (∀ c ∈ (escape cs).head?, isSpace c = false) ∧
      ∀ c ∈ (escape cs).getLast?, isSpace c = false := by
  have hblank : ∀ {c d : Char}, isBlank c = false → d ∈ escapeChar c → isSpace d = false := by
    intro c d hc hd
    rw [← Bool.not_eq_true]
    intro hspace
    rw [isBlank_of_isSpace (isSpace_of_mem_escapeChar hd hspace)] at hc
    cases hc
  obtain ⟨hhead, hlast⟩ := strip_eq_self_iff.1 htrim
  refine ⟨fun d hd => ?_, fun d hd => ?_⟩
  · obtain ⟨c, hc, hmem⟩ := mem_of_head?_escape hd
    exact hblank (hhead c hc) hmem
  · obtain ⟨c, hc, hmem⟩ := mem_of_getLast?_escape hd
    exact hblank (hlast c hc) hmem

/-- A text goes up to the next bracket, without the space before it. -/
theorem scan_text_append {content : List Char} (hne : content ≠ [])
    (htrim : strip isBlank content = content) (rest : List Char) :
    scan total (escape content ++ rest) =
      .ok (some (.text (escape content ++ dropTail isSpace (splitBefore (· == '<') rest).1),
        (splitBefore (· == '<') rest).2)) := by
  obtain ⟨hhead, hlast⟩ := ends_escape htrim
  obtain ⟨c, more, hcons⟩ : ∃ c more, escape content = c :: more := by
    obtain ⟨c, more, rfl⟩ := List.exists_cons_of_ne_nil hne
    obtain ⟨d, ds, hd⟩ := List.exists_cons_of_ne_nil (escapeChar_ne_nil c)
    exact ⟨d, ds ++ escape more, by rw [escape, List.flatMap_cons, hd]; rfl⟩
  have hc : isSpace c = false := hhead c (by rw [hcons]; rfl)
  have hmore : ∀ d ∈ more, (!(d == '<')) = true := by
    intro d hd
    rw [beq_eq_false_iff_ne.2 (ne_of_mem_escape (hcons ▸ List.mem_cons_of_mem c hd)).2.1]
    rfl
  have hsplit : splitBefore (· == '<') (more ++ rest) =
      (more ++ (splitBefore (· == '<') rest).1, (splitBefore (· == '<') rest).2) := by
    rw [splitBefore, List.takeWhile_append_of_pos hmore, List.dropWhile_append_of_pos hmore]
    rfl
  have htail : dropTail isSpace (c :: (more ++ (splitBefore (· == '<') rest).1)) =
      escape content ++ dropTail isSpace (splitBefore (· == '<') rest).1 := by
    rw [← List.cons_append, ← hcons, dropTail_append hlast]
  have hlt : c ≠ '<' := (ne_of_mem_escape (hcons ▸ List.mem_cons_self)).2.1
  rw [hcons, List.cons_append, scan, List.dropWhile_cons_of_neg (by simp [hc])]
  simp only [hsplit, htail]
  rw [hcons]

/-- A text, up to the layout before the next markup. -/
theorem scan_text {content : List Char} (hne : content ≠ [])
    (htrim : strip isBlank content = content) (hspaces : ∀ c ∈ spaces, isSpace c = true)
    (hrest : rest = [] ∨ ∃ more, rest = '<' :: more) :
    scan total (escape content ++ (spaces ++ rest)) =
      .ok (some (.text (escape content), rest)) := by
  have hmarkup : ∀ c ∈ spaces, (!(c == '<')) = true := by
    intro c hc
    rw [beq_eq_false_iff_ne.2 (by rintro rfl; exact absurd (hspaces _ hc) (by decide))]
    rfl
  have hsplit : splitBefore (· == '<') (spaces ++ rest) = (spaces, rest) := by
    rw [splitBefore, List.takeWhile_append_of_pos hmarkup, List.dropWhile_append_of_pos hmarkup]
    rcases hrest with rfl | ⟨rest, rfl⟩ <;> simp
  rw [scan_text_append hne htrim, hsplit, dropTail_eq_nil hspaces, List.append_nil]

/-! ## Comments, instructions and declarations -/

theorem inner_append (start content stop : List Char) :
    inner start.length stop.length (start ++ content ++ stop) = content := by
  rw [inner, List.append_assoc, List.drop_left, ← List.append_assoc]
  simp

/-- A comment that ends where it is meant to. -/
theorem scan_comment {content : List Char}
    (hends : commentClosing.spans ("!--".toList ++ content ++ "--".toList) = true)
    (rest : List Char) :
    scan total ("<!--".toList ++ content ++ ("-->".toList ++ rest)) =
      .ok (some (.comment content, rest)) := by
  have hstart : "!--".toList = ['!', '-', '-'] := rfl
  have htoken : commentToken? ("!--".toList ++ content ++ "--".toList) =
      .ok (.comment content) := by
    have hinner : inner 3 2 ("!--".toList ++ content ++ "--".toList) = content :=
      inner_append "!--".toList content "--".toList
    have hstarts : "!--".toList.isPrefixOf ("!--".toList ++ content ++ "--".toList) = true := by
      rw [List.isPrefixOf_iff_prefix, List.append_assoc]
      exact List.prefix_append _ _
    rw [commentToken?, if_pos hstarts, hinner]
  have hshape : "<!--".toList ++ content ++ ("-->".toList ++ rest) =
      '<' :: ("!--".toList ++ content ++ "--".toList ++ '>' :: rest) := by
    rw [show "<!--".toList = '<' :: "!--".toList from rfl,
      show "-->".toList = "--".toList ++ ['>'] from rfl]
    simp only [List.cons_append, List.append_assoc, List.nil_append]
  have hscan : scanMarkup total ("!--".toList ++ content ++ "--".toList ++ '>' :: rest) =
      scanClosed total commentClosing .openComment commentToken?
        ("!--".toList ++ content ++ "--".toList ++ '>' :: rest) := by
    rw [hstart]
    rfl
  rw [hshape, scan_markup, hscan, scanClosed, ClosingRule.split_of_spans hends]
  simp only [htoken]
  rfl

/-- Whether an instruction with the given body would be a declaration. -/
def isDeclaration : List Char → Bool
  | ['x', 'm', 'l'] => true
  | 'x' :: 'm' :: 'l' :: c :: _ => isSpace c
  | _ => false

/-- The token of an instruction tells a declaration from its body. -/
theorem instructionToken?_of_body (body : List Char) :
    instructionToken? ('?' :: (body ++ ['?'])) =
      .ok (if isDeclaration body then .declaration else .instruction body) := by
  have hinner : inner 1 1 ('?' :: (body ++ ['?'])) = body := inner_append ['?'] body ['?']
  have hlength : ¬ ('?' :: (body ++ ['?'])).length ≤ 1 := by simp
  rw [instructionToken?, if_neg hlength, hinner]
  split
  · rfl
  · next c rest =>
    rw [isDeclaration]
    split <;> rfl
  · next hshort hlong =>
    have hdeclaration : isDeclaration body = false := by
      unfold isDeclaration
      split
      · exact absurd rfl hshort
      · exact absurd rfl (hlong _ _)
      · rfl
    rw [hdeclaration]
    rfl

/-- An instruction that ends where it is meant to. -/
theorem scan_instruction {body : List Char} (hends : instructionClosing.passes none body = true)
    (hbracket : body.head? ≠ some '>') (rest : List Char) :
    scan total ("<?".toList ++ body ++ ("?>".toList ++ rest)) =
      .ok (some (if isDeclaration body then .declaration else .instruction body, rest)) := by
  have hspans : instructionClosing.spans ('?' :: (body ++ ['?'])) = true := by
    have hbody : instructionClosing.passes (some '?') (body ++ ['?']) = true := by
      have hmark : '>' ∉ ['?'] := by decide
      rw [ClosingRule.passes_append, ClosingRule.passes_of_notMem hmark, Bool.and_true]
      cases body with
      | nil => rfl
      | cons c body =>
          have hc : (c == '>') = false :=
            beq_eq_false_iff_ne.2 fun h => hbracket (by rw [h]; rfl)
          rw [ClosingRule.passes, hc] at hends ⊢
          exact hends
    rw [ClosingRule.spans, ClosingRule.passes, Bool.and_eq_true, Bool.and_eq_true]
    refine ⟨⟨by decide, hbody⟩, ?_⟩
    rw [List.foldl_cons, List.foldl_append]
    rfl
  have hshape : "<?".toList ++ body ++ ("?>".toList ++ rest) =
      '<' :: ('?' :: (body ++ ['?']) ++ '>' :: rest) := by
    rw [show "<?".toList = ['<', '?'] from rfl,
      show "?>".toList = ['?', '>'] from rfl]
    simp only [List.cons_append, List.append_assoc, List.nil_append]
  have hscan : scanMarkup total ('?' :: (body ++ ['?']) ++ '>' :: rest) =
      scanClosed total instructionClosing .openInstruction instructionToken?
        ('?' :: (body ++ ['?']) ++ '>' :: rest) := rfl
  rw [hshape, scan_markup, hscan, scanClosed, ClosingRule.split_of_spans hspans]
  simp only [instructionToken?_of_body]
  rfl

/-- What the body of a document type declaration is when it was read. -/
structure ReadableDoctype (body : String) : Prop where
  trimmed : strip isBlank body.toList = body.toList
  ends : doctypeClosing.spans body.toList = true

/-- The document type declaration, if it has a body. -/
theorem scan_doctype {body : String} (hbody : ReadableDoctype body) (hne : body ≠ "")
    (rest : List Char) : scan total (writeDoctype (some body) ++ rest) =
      .ok (some (.doctype body.toList, '\n' :: rest)) := by
  generalize hstart : "!DOCTYPE ".toList = start
  have hchars : start = ['!', 'D', 'O', 'C', 'T', 'Y', 'P', 'E', ' '] := by
    rw [← hstart]
    rfl
  have hspans : doctypeClosing.spans (start ++ body.toList) = true := by
    have hmem : '>' ∉ start := by
      rw [hchars]
      decide
    have hends := hbody.ends
    rw [ClosingRule.spans, Bool.and_eq_true] at hends ⊢
    rw [ClosingRule.passes_append, ClosingRule.passes_of_notMem hmem, Bool.true_and,
      List.foldl_append, hchars]
    exact hends
  have htoken : doctypeToken? (start ++ body.toList) = .ok (.doctype body.toList) := by
    have hcase : ∀ cs, startsWithAnyCase "!DOCTYPE".toList ("!DOCTYPE ".toList ++ cs) = true := by
      intro cs
      rfl
    obtain ⟨c, cs, hcons⟩ := List.exists_cons_of_ne_nil fun hnil => hne (String.toList_inj.1 hnil)
    have hc : isSpace c = false := by
      have hblank := (strip_eq_self_iff.1 hbody.trimmed).1 c (by rw [hcons]; rfl)
      rw [← Bool.not_eq_true] at hblank ⊢
      exact mt isBlank_of_isSpace hblank
    have hdrop : ((start ++ body.toList).drop 8).dropWhile isSpace = c :: cs := by
      rw [hchars, hcons]
      show (' ' :: c :: cs).dropWhile isSpace = c :: cs
      rw [List.dropWhile_cons_of_pos (by decide), List.dropWhile_cons_of_neg (by simp [hc])]
    rw [doctypeToken?, if_pos (hstart ▸ hcase body.toList), hdrop, hcons]
  have hshape : writeDoctype (some body) ++ rest =
      '<' :: (start ++ body.toList ++ '>' :: '\n' :: rest) := by
    have hopen : "<!DOCTYPE ".toList = '<' :: start := by
      rw [hchars]
      rfl
    have hline : writeDoctype (some body) = "<!DOCTYPE ".toList ++ body.toList ++ ['>', '\n'] := rfl
    rw [hline, hopen]
    simp only [List.cons_append, List.append_assoc, List.nil_append]
  have hscan : scanMarkup total (start ++ body.toList ++ '>' :: '\n' :: rest) =
      scanClosed total doctypeClosing .openDoctype doctypeToken?
        (start ++ body.toList ++ '>' :: '\n' :: rest) := by
    rw [hchars]
    rfl
  rw [hshape, scan_markup, hscan, scanClosed, ClosingRule.split_of_spans hspans]
  simp only [htoken]
  rfl

/-- The first line of a document is a declaration. -/
theorem scan_declarationLine (rest : List Char) :
    scan total (declarationLine ++ rest) = .ok (some (.declaration, '\n' :: rest)) := by
  have hline : declarationLine = "<?".toList ++ "xml version=\"1.0\" encoding=\"utf-8\"".toList ++
      ("?>".toList ++ ['\n']) := rfl
  have hends : instructionClosing.passes none "xml version=\"1.0\" encoding=\"utf-8\"".toList =
      true := rfl
  have hbracket : "xml version=\"1.0\" encoding=\"utf-8\"".toList.head? ≠ some '>' := by
    simp
  have hdeclaration : isDeclaration "xml version=\"1.0\" encoding=\"utf-8\"".toList = true := rfl
  have hscan : scan total _ = _ := scan_instruction hends hbracket ('\n' :: rest)
  rw [if_pos hdeclaration] at hscan
  rw [hline, ← hscan]
  simp only [List.append_assoc, List.cons_append, List.nil_append]

end TransferRules.Markup

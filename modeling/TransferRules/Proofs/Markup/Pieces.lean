import TransferRules.Proofs.Markup.Marks

/-!
# Pieces that are read

What is written of a document is one piece of markup after the other, with layout between them.  If
a text of such pieces has the marks that the pieces are meant to have, each of them is read as the
token it was written for: where a piece is written in the way of another one, the marks begin to
differ from those that are meant, and whatever comes later cannot make up for it.

## Main Definitions

* `Piece`, `Node.pieces` — what is written of a node, one tag or other piece after the other
* `Written` — pieces with layout between them
* `Clear` — pieces none of which is written in the way of another

## Main Statements

* `written_writeNode` — what is written of a node are its pieces
* `clear_of_reads` — pieces that are read with their marks are clear
-/

namespace TransferRules.Markup

open TransferRules.Text

/-! ## Pieces -/

/-- A piece of markup that is written: a tag, or a node that is no element. -/
inductive Piece where
  | opening (name : String) (attributes : List (String × String))
  | empty (name : String) (attributes : List (String × String))
  | closing (name : String)
  | text (content : String)
  | comment (content : String)
  | instruction (body : String)

namespace Piece

/-- What is written of a piece. -/
def write : Piece → List Char
  | .opening name attributes => '<' :: (tagContent name attributes ++ ['>'])
  | .empty name attributes => '<' :: (tagContent name attributes ++ ['/', '>'])
  | .closing name => '<' :: '/' :: (name.toList ++ ['>'])
  | .text content => escape content.toList
  | .comment content => "<!--".toList ++ content.toList ++ "-->".toList
  | .instruction body => "<?".toList ++ body.toList ++ "?>".toList

/-- The marks that it is meant to have. -/
def marks : Piece → List Mark
  | .opening name attributes => [.opens name attributes]
  | .empty name attributes => [.opens name attributes, .closes]
  | .closing _ => [.closes]
  | .text content => [.leaf (.text content)]
  | .comment content => [.leaf (.comment content)]
  | .instruction body => [.leaf (.instruction body)]

/-- Whether it is a text. -/
def isText : Piece → Bool
  | .text _ => true
  | _ => false

/-- Pieces of what can have been read. -/
def Readable : Piece → Prop
  | .opening name attributes => isTagName name = true ∧ ReadableKeys attributes
  | .empty name attributes => isTagName name = true ∧ ReadableKeys attributes
  | .closing name => isTagName name = true ∧ tagClosing.spans name.toList = true
  | .text content => (Node.text content).Readable
  | .comment content => (Node.comment content).Readable
  | .instruction body => (Node.instruction body).Readable

/-- Pieces that are not written in the way of another one. -/
def Clear : Piece → Prop
  | .opening name attributes => tagClosing.spans (tagContent name attributes) = true ∧
    (tagContent name attributes).getLast? ≠ some '/'
  | .empty name attributes => tagClosing.spans (tagContent name attributes) = true ∧
    tagContent name attributes ≠ []
  | .instruction body => body.toList.head? ≠ some '>' ∧ isDeclaration body.toList = false
  | _ => True

end Piece

mutual

/-- The pieces of a node. -/
def Node.pieces : Node → List Piece
  | .element name attributes children =>
    if children.isEmpty then [.empty name attributes]
    else .opening name attributes :: (Node.piecesAll children ++ [.closing name])
  | .text content => [.text content]
  | .comment content => [.comment content]
  | .instruction body => [.instruction body]

/-- The pieces of a list of nodes. -/
def Node.piecesAll : List Node → List Piece
  | [] => []
  | node :: nodes => node.pieces ++ Node.piecesAll nodes

end

mutual

theorem Node.marks_pieces (node : Node) : node.pieces.flatMap Piece.marks = node.marks := by
  cases node with
  | element name attributes children =>
      rw [pieces, marks]
      split
      · next hempty =>
        rw [List.isEmpty_iff.1 hempty, marksAll]
        rfl
      · rw [List.flatMap_cons, List.flatMap_append, marksAll_pieces children]
        rfl
  | text content => rfl
  | comment content => rfl
  | instruction body => rfl

theorem Node.marksAll_pieces (nodes : List Node) :
    (Node.piecesAll nodes).flatMap Piece.marks = Node.marksAll nodes := by
  cases nodes with
  | nil => rfl
  | cons node nodes =>
      rw [piecesAll, List.flatMap_append, marks_pieces node, marksAll_pieces nodes, marksAll]

end

/-- Pieces that are written one after the other, with layout before each and at the end. -/
inductive Written : List Piece → List Char → Prop where
  | stop {spaces : List Char} (hspaces : ∀ c ∈ spaces, isSpace c = true) : Written [] spaces
  | piece {spaces rest : List Char} {p : Piece} {ps : List Piece}
      (hspaces : ∀ c ∈ spaces, isSpace c = true) (hrest : Written ps rest) :
      Written (p :: ps) (spaces ++ (p.write ++ rest))

variable {total indent : Nat} {ps : List Piece} {cs rest spaces : List Char}

theorem Written.append (h : Written ps cs) (hspaces : ∀ c ∈ spaces, isSpace c = true) :
    Written ps (spaces ++ cs) := by
  cases h with
  | stop hmore =>
      exact .stop fun c hc => (List.mem_append.1 hc).elim (hspaces c) (hmore c)
  | piece hmore hrest =>
      rw [← List.append_assoc]
      exact .piece (fun c hc => (List.mem_append.1 hc).elim (hspaces c) (hmore c)) hrest

theorem Written.newline (h : Written ps cs) : Written ps ('\n' :: cs) :=
  h.append isSpace_of_mem_newline

theorem Written.padding (h : Written ps cs) (depth indent : Nat) :
    Written ps (padding depth indent ++ cs) :=
  h.append fun _ hc => isSpace_of_mem_padding hc

/-- A piece right before others. -/
theorem Written.cons (h : Written ps rest) (p : Piece) : Written (p :: ps) (p.write ++ rest) := by
  have hspaces : ∀ c ∈ ([] : List Char), isSpace c = true := nofun
  exact .piece hspaces h

/-- Texts that are written on one line. -/
theorem Written.texts (h : Written ps rest) {nodes : List Node}
    (hall : nodes.all Node.isText = true) :
    Written (Node.piecesAll nodes ++ ps) (writeTexts nodes ++ rest) := by
  induction nodes with
  | nil => exact h
  | cons node nodes ih =>
      rw [List.all_cons, Bool.and_eq_true] at hall
      cases node with
      | text content =>
          rw [writeTexts, List.flatMap_cons, List.append_assoc]
          exact (ih hall.2).cons (.text content)
      | element => cases hall.1
      | comment => cases hall.1
      | instruction => cases hall.1

mutual

/-- What is written of a node are its pieces. -/
theorem written_writeNode (depth : Nat) (node : Node) {ps : List Piece} {rest : List Char}
    (h : Written ps rest) :
    Written (node.pieces ++ ps) (writeNode indent depth node rest) := by
  cases node with
  | element name attributes children =>
      have hclose : Written (.closing name :: ps)
          ('<' :: '/' :: (name.toList ++ '>' :: '\n' :: rest)) := by
        simpa [Piece.write] using h.newline.cons (.closing name)
      rw [writeNode_element, Node.pieces]
      refine Written.padding ?_ depth indent
      split
      · simpa [Piece.write] using h.newline.cons (.empty name attributes)
      · rw [List.cons_append, List.append_assoc]
        split
        · next hall =>
          simpa [Piece.write] using (hclose.texts hall).cons (.opening name attributes)
        · simpa [Piece.write] using ((written_writeNodes (depth + 1) children
            (hclose.padding depth indent)).newline).cons (.opening name attributes)
  | text content =>
      rw [writeNode, List.append_assoc]
      exact (h.newline.cons (.text content)).padding depth indent
  | comment content =>
      rw [writeNode_comment, ← List.append_assoc _ _ ('\n' :: rest)]
      exact (h.newline.cons (.comment content)).padding depth indent
  | instruction body =>
      rw [writeNode_instruction, ← List.append_assoc _ _ ('\n' :: rest)]
      exact (h.newline.cons (.instruction body)).padding depth indent

theorem written_writeNodes (depth : Nat) (nodes : List Node) {ps : List Piece} {rest : List Char}
    (h : Written ps rest) :
    Written (Node.piecesAll nodes ++ ps) (writeNodes indent depth nodes rest) := by
  cases nodes with
  | nil => exact h
  | cons node nodes =>
      rw [Node.piecesAll, writeNodes, List.append_assoc]
      exact written_writeNode depth node (written_writeNodes depth nodes h)

end

/-! ## Tags that are read -/

variable {name : String} {attributes : List (String × String)} {ms : List Mark}

/-- Two contents at the start of a text that are read as one element are the same, if the text goes
on behind them with no space. -/
theorem eq_of_elementOfTag {e : Element} {c d : Char} {cs ds rest more : List Char}
    (hcs : Assembly.elementOfTag cs = .ok e) (hds : Assembly.elementOfTag ds = .ok e)
    (heq : cs ++ c :: rest = ds ++ d :: more) (hc : isSpace c = false) (hd : isSpace d = false) :
    cs = ds := by
  have hnil : ∀ {as bs more : List Char} {a b : Char}, isSpace a = false →
      as.dropWhile isSpace = [] → a :: bs = as ++ b :: more → as = [] := by
    intro as bs more a b ha hspace heq
    cases as with
    | nil => rfl
    | cons a' as =>
        obtain ⟨rfl, -⟩ := List.cons.inj heq
        rw [List.dropWhile_cons_of_neg (by simp [ha])] at hspace
        cases hspace
  rcases List.append_eq_append_iff.1 heq with ⟨as, rfl, has⟩ | ⟨as, rfl, has⟩
  · rw [hnil hc (isSpace_of_elementOfTag_append hcs hds) has, List.append_nil]
  · rw [hnil hd (isSpace_of_elementOfTag_append hds hcs) has, List.append_nil]

/-- A tag is empty if a slash ends its content, and opens an element otherwise. -/
theorem tagToken_cases (content : List Char) :
    (∃ inner, content = inner ++ ['/'] ∧ tagToken content = .empty inner) ∨
      (content.getLast? ≠ some '/' ∧ tagToken content = .opening content) := by
  rw [tagToken]
  split
  · next hlast =>
    exact .inl ⟨content.dropLast, (List.dropLast_append_getLast? '/' hlast).symm, rfl⟩
  · next hlast => exact .inr ⟨hlast, rfl⟩

/-- The marks of a tag say what its content is read as. -/
theorem elementOfTag_of_marks {content : List Char} {token : Token} {first stop : List Mark}
    (htoken : token = .opening content ∧ stop = [] ∨ token = .empty content ∧ stop = [.closes])
    (hmarks : token.marks = .ok first) :
    ∃ name attributes, Assembly.elementOfTag content = .ok ⟨name, attributes, []⟩ ∧
      first = .opens name attributes :: stop := by
  cases htag : Assembly.elementOfTag content with
  | error error =>
      rcases htoken with ⟨rfl, -⟩ | ⟨rfl, -⟩
      all_goals
        rw [Token.marks, htag] at hmarks
        cases hmarks
  | ok e =>
      obtain ⟨found, -, rfl⟩ := elementOfTag_eq_ok htag
      refine ⟨_, _, rfl, ?_⟩
      rcases htoken with ⟨rfl, rfl⟩ | ⟨rfl, rfl⟩
      all_goals
        rw [Token.marks, htag] at hmarks
        exact (Except.ok.inj hmarks).symm

/-- What is read behind the opening bracket of a tag: its content ends with a slash that makes it
empty, or opens an element. -/
theorem Reads.tag {m : Mark} (h : Reads total ('<' :: cs) (m :: ms)) (hopens : opensTag cs = true) :
    ∃ content rest name attributes more, cs = content ++ '>' :: rest ∧
      tagClosing.spans content = true ∧ Reads total rest more ∧ m = .opens name attributes ∧
      ((∃ inner, content = inner ++ ['/'] ∧ ms = .closes :: more ∧
          Assembly.elementOfTag inner = .ok ⟨name, attributes, []⟩) ∨
        (content.getLast? ≠ some '/' ∧ ms = more ∧
          Assembly.elementOfTag content = .ok ⟨name, attributes, []⟩)) := by
  obtain ⟨token, rest, first, more, hscan, hmarks, hrest, heq⟩ := h.exists_scan
  rw [scan_markup, scanMarkup_of_opensTag hopens] at hscan
  cases hmarkup :
      scanClosed total tagClosing .openTag (fun content => .ok (tagToken content)) cs with
  | error fault =>
      rw [hmarkup] at hscan
      cases hscan
  | ok pair =>
      rw [hmarkup] at hscan
      cases hscan
      obtain ⟨content, hcs, hspans, htoken⟩ := scanClosed_eq_ok hmarkup
      obtain rfl := Except.ok.inj htoken
      rcases tagToken_cases content with ⟨inner, hinner, htag⟩ | ⟨hlast, htag⟩
      · obtain ⟨name, attributes, helement, rfl⟩ :=
          elementOfTag_of_marks (.inr ⟨htag, rfl⟩) hmarks
        obtain ⟨rfl, rfl⟩ := List.cons.inj heq
        exact ⟨content, rest, name, attributes, more, hcs, hspans, hrest, rfl,
          .inl ⟨inner, hinner, rfl, helement⟩⟩
      · obtain ⟨name, attributes, helement, rfl⟩ :=
          elementOfTag_of_marks (.inl ⟨htag, rfl⟩) hmarks
        obtain ⟨rfl, rfl⟩ := List.cons.inj heq
        exact ⟨content, rest, name, attributes, _, hcs, hspans, hrest, rfl,
          .inr ⟨hlast, rfl, helement⟩⟩

/-- A tag that is read as the opening tag it was written for. -/
theorem clear_opening (hname : isTagName name = true) (hkeys : ReadableKeys attributes)
    (h : Reads total ('<' :: (tagContent name attributes ++ '>' :: rest))
      (.opens name attributes :: ms)) :
    (Piece.opening name attributes).Clear ∧ Reads total rest ms := by
  have helement := elementOfTag_tagContent hname hkeys
  obtain ⟨content, rest', name', attributes', more, hcs, hspans, hrest, heq, hcases⟩ :=
    h.tag (opensTag_tagContent hname fun _ => rfl)
  cases heq
  rcases hcases with ⟨inner, rfl, rfl, helement'⟩ | ⟨hlast, rfl, helement'⟩
  · -- The content would have to go on with a slash where it goes on with a bracket.
    rw [List.append_assoc] at hcs
    obtain rfl := eq_of_elementOfTag helement helement' hcs (by decide) (by decide)
    cases List.append_cancel_left hcs
  · obtain rfl := eq_of_elementOfTag helement helement' hcs (by decide) (by decide)
    cases List.append_cancel_left hcs
    exact ⟨⟨hspans, hlast⟩, hrest⟩

/-- A slash right behind an opening bracket makes a closing tag. -/
theorem Reads.slash {m : Mark} (h : Reads total ('<' :: ([] ++ '/' :: '>' :: rest)) (m :: ms)) :
    m = .closes := by
  have hclosing : scan total ('<' :: '/' :: ("".toList ++ '>' :: rest)) =
      .ok (some (.closing "".toList rest, rest)) := scan_closing rfl rfl rest
  obtain ⟨first, more, hmarks, -, heq⟩ := h.of_scan hclosing
  cases hmarks
  cases heq
  rfl

/-- A tag that is read as the tag without children it was written for. -/
theorem clear_empty (hname : isTagName name = true) (hkeys : ReadableKeys attributes)
    (h : Reads total ('<' :: (tagContent name attributes ++ '/' :: '>' :: rest))
      (.opens name attributes :: .closes :: ms)) :
    (Piece.empty name attributes).Clear ∧ Reads total rest ms := by
  have helement := elementOfTag_tagContent hname hkeys
  have hne : tagContent name attributes ≠ [] := by
    intro hnil
    -- Without a content, this is a closing tag.
    rw [hnil] at h
    exact absurd (h.slash) nofun
  obtain ⟨content, rest', name', attributes', more, hcs, hspans, hrest, heq, hcases⟩ :=
    h.tag (opensTag_tagContent hname fun hnil => absurd hnil hne)
  cases heq
  rcases hcases with ⟨inner, rfl, heq, helement'⟩ | ⟨hlast, rfl, helement'⟩
  · rw [List.append_assoc] at hcs
    obtain rfl := eq_of_elementOfTag helement helement' hcs (by decide) (by decide)
    cases List.append_cancel_left hcs
    cases heq
    rw [spans_tag_slash] at hspans
    exact ⟨⟨hspans, hne⟩, hrest⟩
  · obtain rfl := eq_of_elementOfTag helement helement' hcs (by decide) (by decide)
    cases List.append_cancel_left hcs

/-! ## Texts that are read -/

theorem unescapeFrom_escape_append (total offset : Nat) (cs ds : List Char) :
    ∃ offset', unescapeFrom total offset (escape cs ++ ds) =
      (cs ++ ·) <$> unescapeFrom total offset' ds := by
  induction cs generalizing offset with
  | nil => exact ⟨offset, by simp [escape]⟩
  | cons c cs ih =>
      obtain ⟨offset', h⟩ := ih (offset + byteSize (escapeChar c))
      refine ⟨offset', ?_⟩
      rw [escape, List.flatMap_cons, List.append_assoc, unescapeFrom_escapeChar]
      show _ <$> unescapeFrom _ _ (escape cs ++ ds) = _
      rw [h]
      cases unescapeFrom total offset' ds <;> rfl

/-- What is read of an escaped text with something behind it. -/
theorem unescape_escape_append {cs ds plain : List Char}
    (h : unescape (escape cs ++ ds) = .ok plain) : ∃ more, plain = cs ++ more := by
  obtain ⟨offset, hfrom⟩ := unescapeFrom_escape_append (byteSize (escape cs ++ ds)) 0 cs ds
  rw [unescape, hfrom] at h
  cases hmore : unescapeFrom (byteSize (escape cs ++ ds)) offset ds with
  | error error =>
      rw [hmore] at h
      cases h
  | ok more =>
      rw [hmore] at h
      cases h
      exact ⟨more, rfl⟩

theorem escape_ne_nil {cs : List Char} (h : cs ≠ []) : escape cs ≠ [] := by
  obtain ⟨c, cs, rfl⟩ := List.exists_cons_of_ne_nil h
  rw [escape, List.flatMap_cons]
  exact List.append_ne_nil_of_left_ne_nil (escapeChar_ne_nil c) _

theorem escape_append (cs ds : List Char) : escape (cs ++ ds) = escape cs ++ escape ds :=
  List.flatMap_append

theorem escape_of_space (hspaces : ∀ c ∈ spaces, isSpace c = true) : escape spaces = spaces := by
  induction spaces with
  | nil => rfl
  | cons c spaces ih =>
      have hc : escapeChar c = [c] := by
        have hspace := hspaces c List.mem_cons_self
        unfold escapeChar
        split
        all_goals first
          | rfl
          | exact absurd hspace (by decide)
      rw [escape, List.flatMap_cons, hc]
      exact congrArg (c :: ·) (ih fun d hd => hspaces d (List.mem_cons_of_mem c hd))

/-- Of a text that does not begin with a blank, only blanks at its end are dropped, and not all of
it. -/
theorem textMarks_of_head {plain : List Char} (hne : plain ≠ [])
    (hhead : ∀ c ∈ plain.head?, isBlank c = false) :
    (∃ behind, plain = strip isBlank plain ++ behind ∧ ∀ c ∈ behind, isBlank c = true) ∧
      textMarks plain = [.leaf (.text (String.ofList (strip isBlank plain)))] := by
  obtain ⟨c, cs, rfl⟩ := List.exists_cons_of_ne_nil hne
  have hc : isBlank c = false := hhead c rfl
  obtain ⟨before, behind, heq, hbefore, hbehind⟩ := exists_strip isBlank (c :: cs)
  have hnil : before = [] := by
    cases before with
    | nil => rfl
    | cons d before =>
        obtain ⟨rfl, -⟩ := List.cons.inj heq
        rw [hbefore c List.mem_cons_self] at hc
        cases hc
  subst hnil
  refine ⟨⟨behind, heq, hbehind⟩, ?_⟩
  unfold textMarks
  split
  · next hstrip =>
    rw [hstrip] at heq
    rw [hbehind c (by rw [← show c :: cs = behind from heq]; exact List.mem_cons_self)] at hc
    cases hc
  · rfl

/-- The characters of a text that can have been read. -/
theorem ends_of_readable {content : String} (h : (Node.text content).Readable) :
    content.toList ≠ [] ∧ (∀ c ∈ content.toList.head?, isBlank c = false) ∧
      strip isBlank content.toList = content.toList := by
  cases h with
  | text hne htrim => exact ⟨hne, (strip_eq_self_iff.1 htrim).1, htrim⟩

/-- What is read of a text, up to the next bracket, is one text. -/
theorem Reads.text {content : String} (hcontent : (Node.text content).Readable)
    (h : Reads total (escape content.toList ++ rest) ms) :
    ∃ plain behind more,
      unescape (escape content.toList ++ dropTail isSpace (splitBefore (· == '<') rest).1) =
        .ok plain ∧
      plain = strip isBlank plain ++ behind ∧ (∀ c ∈ behind, isBlank c = true) ∧
      ms = .leaf (.text (String.ofList (strip isBlank plain))) :: more := by
  obtain ⟨hne, hhead, htrim⟩ := ends_of_readable hcontent
  obtain ⟨first, more, hmarks, -, rfl⟩ := h.of_scan (scan_text_append hne htrim rest)
  rw [Token.marks] at hmarks
  split at hmarks
  · next plain hplain =>
    cases hmarks
    obtain ⟨z, rfl⟩ := unescape_escape_append hplain
    obtain ⟨c, cs, hcons⟩ := List.exists_cons_of_ne_nil hne
    have hhead' : ∀ d ∈ (content.toList ++ z).head?, isBlank d = false := by
      intro d hd
      rw [hcons] at hd hhead
      exact hhead d hd
    obtain ⟨⟨behind, heq, hbehind⟩, htext⟩ :=
      textMarks_of_head (List.append_ne_nil_of_left_ne_nil hne z) hhead'
    exact ⟨_, behind, more, hplain, heq, hbehind, by rw [htext]; rfl⟩
  · cases hmarks

/-- A text that goes on with markup is read as it was. -/
theorem Reads.apart {content : String} {m : Mark} (hcontent : (Node.text content).Readable)
    (h : Reads total (escape content.toList ++ rest) (m :: ms)) (hrest : Fresh rest) :
    Reads total rest ms := by
  obtain ⟨hne, hhead, htrim⟩ := ends_of_readable hcontent
  obtain ⟨spaces, more, rfl, hspaces, hmore⟩ := hrest
  obtain ⟨first, ms', hmarks, hreads, heq⟩ := h.of_scan (scan_text hne htrim hspaces hmore)
  rw [Token.marks, unescape_escape] at hmarks
  obtain rfl := Except.ok.inj hmarks
  rw [(textMarks_of_head hne hhead).2] at heq
  obtain ⟨-, rfl⟩ := List.cons.inj heq
  exact (Reads.append hspaces).2 hreads

/-- A text with another one behind it is not read as it was. -/
theorem not_reads_texts {content next : String} (hcontent : (Node.text content).Readable)
    (hnext : (Node.text next).Readable) (hspaces : ∀ c ∈ spaces, isSpace c = true) :
    ¬ Reads total (escape content.toList ++ (spaces ++ (escape next.toList ++ rest)))
      (.leaf (.text content) :: ms) := by
  intro h
  obtain ⟨plain, behind, more, hplain, heq, hbehind, hms⟩ := h.text hcontent
  obtain ⟨hne, hhead, htrim⟩ := ends_of_readable hnext
  have hmarkup : ∀ c ∈ spaces ++ escape next.toList, (!(c == '<')) = true := by
    intro c hc
    have hlt : c ≠ '<' := by
      rcases List.mem_append.1 hc with hc | hc
      · rintro rfl
        exact absurd (hspaces _ hc) (by decide)
      · exact (ne_of_mem_escape hc).2.1
    rw [beq_eq_false_iff_ne.2 hlt]
    rfl
  have hlast : ∀ c ∈ (spaces ++ escape next.toList).getLast?, isSpace c = false := by
    intro c hc
    rw [List.getLast?_append_of_ne_nil _ (escape_ne_nil hne)] at hc
    exact (ends_escape htrim).2 c hc
  -- The text that is read goes on up to the end of the next one.
  rw [← List.append_assoc, splitBefore, List.takeWhile_append_of_pos hmarkup, dropTail_append hlast,
    ← List.append_assoc, ← escape_of_space hspaces, ← escape_append, ← escape_append] at hplain
  obtain ⟨z, rfl⟩ := unescape_escape_append hplain
  have htext : strip isBlank (content.toList ++ (spaces ++ next.toList) ++ z) = content.toList := by
    injection hms with hleaf _
    injection hleaf with hnode
    injection hnode with htext
    have htoList := congrArg String.toList htext
    rw [String.toList_ofList] at htoList
    exact htoList.symm
  rw [htext, List.append_assoc] at heq
  obtain ⟨c, cs, hcons⟩ := List.exists_cons_of_ne_nil hne
  have hmem : c ∈ behind := by
    rw [← List.append_cancel_left heq, hcons]
    simp
  rw [hcons] at hhead
  exact absurd ((hbehind c hmem).symm.trans (hhead c rfl)) (by decide)

/-! ## Instructions that are read -/

theorem scan_spaces (hspaces : ∀ c ∈ spaces, isSpace c = true) : scan total spaces = .ok none := by
  have hscan : scan total (spaces ++ []) = scan total [] := scan_append hspaces []
  rwa [List.append_nil] at hscan

/-- An instruction that begins with a bracket cannot be read. -/
theorem scan_instruction_bracket {body : List Char} (hbracket : body.head? = some '>')
    (rest : List Char) : ∃ fault,
      scan total ("<?".toList ++ body ++ ("?>".toList ++ rest)) = .error fault := by
  cases body with
  | nil => cases hbracket
  | cons c body =>
      obtain rfl := Option.some.inj hbracket
      refine ⟨⟨.openInstruction, total - byteSize (body ++ ("?>".toList ++ rest))⟩, ?_⟩
      rw [show "<?".toList = ['<', '?'] from rfl]
      rfl

/-- What is written of an instruction is read as it, unless it is a declaration. -/
theorem Reads.instruction {body : String} {m : Mark} (hbody : (Node.instruction body).Readable)
    (h : Reads total ((Piece.instruction body).write ++ rest) (m :: ms)) :
    body.toList.head? ≠ some '>' ∧
      ((isDeclaration body.toList = true ∧ Reads total rest (m :: ms)) ∨
        (isDeclaration body.toList = false ∧ m = .leaf (.instruction body) ∧
          Reads total rest ms)) := by
  cases hbody with
  | instruction htrim hends =>
  rw [Piece.write, List.append_assoc] at h
  by_cases hbracket : body.toList.head? = some '>'
  · obtain ⟨token, rest', first, more, hscan, -⟩ := h.exists_scan
    obtain ⟨fault, hfault⟩ : ∃ fault, scan total _ = .error fault :=
      scan_instruction_bracket hbracket rest
    rw [hfault] at hscan
    cases hscan
  · refine ⟨hbracket, ?_⟩
    obtain ⟨first, more, hmarks, hrest, heq⟩ := h.of_scan (scan_instruction hends hbracket rest)
    split at hmarks
    · next hdeclaration =>
      cases hmarks
      exact .inl ⟨hdeclaration, heq ▸ hrest⟩
    · next hdeclaration =>
      cases hmarks
      obtain ⟨rfl, rfl⟩ := List.cons.inj heq
      rw [htrim, String.ofList_toList]
      exact .inr ⟨eq_false_of_ne_true hdeclaration, rfl, hrest⟩

/-- A comment that is written is read as it. -/
theorem Reads.comment {content : String} {m : Mark} (hcontent : (Node.comment content).Readable)
    (h : Reads total ((Piece.comment content).write ++ rest) (m :: ms)) :
    m = .leaf (.comment content) ∧ Reads total rest ms := by
  cases hcontent with
  | comment hends =>
  rw [Piece.write, List.append_assoc] at h
  obtain ⟨first, more, hmarks, hrest, heq⟩ := h.of_scan (scan_comment hends rest)
  cases hmarks
  obtain ⟨rfl, rfl⟩ := List.cons.inj heq
  rw [String.ofList_toList]
  exact ⟨rfl, hrest⟩

/-- A closing tag that is written is read as one. -/
theorem Reads.closing {m : Mark} (hname : isTagName name = true)
    (hends : tagClosing.spans name.toList = true)
    (h : Reads total ((Piece.closing name).write ++ rest) (m :: ms)) :
    m = .closes ∧ Reads total rest ms := by
  have hshape : (Piece.closing name).write ++ rest =
      '<' :: '/' :: (name.toList ++ '>' :: rest) := by
    simp [Piece.write]
  rw [hshape] at h
  obtain ⟨first, more, hmarks, hrest, heq⟩ := h.of_scan (scan_closing hname hends rest)
  cases hmarks
  obtain ⟨rfl, rfl⟩ := List.cons.inj heq
  exact ⟨rfl, hrest⟩

theorem write_opening (name : String) (attributes : List (String × String)) (rest : List Char) :
    (Piece.opening name attributes).write ++ rest =
      '<' :: (tagContent name attributes ++ '>' :: rest) := by
  simp [Piece.write]

theorem write_empty (name : String) (attributes : List (String × String)) (rest : List Char) :
    (Piece.empty name attributes).write ++ rest =
      '<' :: (tagContent name attributes ++ '/' :: '>' :: rest) := by
  simp [Piece.write]

/-- A declaration has no mark, and nothing written behind it has that of an instruction like it. -/
theorem not_reads_declaration {body : String} (hbody : isDeclaration body.toList = true)
    (h : Written ps cs) (hps : ∀ p ∈ ps, p.Readable) :
    ¬ Reads total cs (.leaf (.instruction body) :: ms) := by
  induction h with
  | stop hspaces =>
      intro hreads
      obtain ⟨token, rest, first, more, hscan, -⟩ := hreads.exists_scan
      rw [scan_spaces hspaces] at hscan
      cases hscan
  | @piece spaces rest p ps hspaces hrest ih =>
      rw [Reads.append hspaces]
      intro hreads
      have hp := hps p List.mem_cons_self
      cases p with
      | opening name attributes =>
          rw [write_opening] at hreads
          obtain ⟨content, rest', name', attributes', more, -, -, -, heq, -⟩ :=
            hreads.tag (opensTag_tagContent hp.1 fun _ => rfl)
          cases heq
      | empty name attributes =>
          rw [write_empty] at hreads
          by_cases hnil : tagContent name attributes = []
          · rw [hnil] at hreads
            exact absurd hreads.slash nofun
          · obtain ⟨content, rest', name', attributes', more, -, -, -, heq, -⟩ :=
              hreads.tag (opensTag_tagContent hp.1 fun h => absurd h hnil)
            cases heq
      | closing name => cases (hreads.closing hp.1 hp.2).1
      | text content =>
          obtain ⟨plain, behind, more, -, -, -, heq⟩ := hreads.text hp
          cases heq
      | comment content => cases (hreads.comment hp).1
      | instruction other =>
          obtain ⟨-, ⟨-, hmore⟩ | ⟨hother, heq, -⟩⟩ := hreads.instruction hp
          · exact ih (fun p hp => hps p (List.mem_cons_of_mem _ hp)) hmore
          · cases heq
            rw [hbody] at hother
            cases hother

/-! ## Pieces that are read -/

/-- Pieces none of which is written in the way of another, and no two neighbours are texts. -/
inductive Clear : List Piece → Prop where
  | nil : Clear []
  | cons {p : Piece} {ps : List Piece} (hp : p.Clear)
      (htexts : ∀ q ∈ ps.head?, ¬ (p.isText = true ∧ q.isText = true)) (hps : Clear ps) :
      Clear (p :: ps)

/-- What is written of pieces that do not begin with a text goes on with markup. -/
theorem Written.fresh (h : Written ps cs) (hps : ∀ p ∈ ps.head?, p.isText = false) : Fresh cs := by
  cases h with
  | stop hspaces => exact ⟨cs, [], (List.append_nil _).symm, hspaces, .inl rfl⟩
  | @piece spaces rest p ps hspaces hrest =>
      refine Fresh.append ?_ hspaces
      have hp := hps p rfl
      cases p with
      | text => cases hp
      | opening name attributes => exact fresh_markup _
      | empty name attributes => exact fresh_markup _
      | closing name => exact fresh_markup _
      | comment content =>
          rw [Piece.write, show "<!--".toList = '<' :: "!--".toList from rfl]
          exact fresh_markup _
      | instruction body =>
          rw [Piece.write, show "<?".toList = ['<', '?'] from rfl]
          exact fresh_markup _

/-- **Pieces that are read with their marks are clear.** -/
theorem clear_of_reads (h : Written ps cs) (hps : ∀ p ∈ ps, p.Readable)
    (hreads : Reads total cs (ps.flatMap Piece.marks)) : Clear ps := by
  induction h with
  | stop => exact .nil
  | @piece spaces rest p ps hspaces hrest ih =>
      rw [Reads.append hspaces, List.flatMap_cons] at hreads
      have hp := hps p List.mem_cons_self
      have ih := ih fun p hp => hps p (List.mem_cons_of_mem _ hp)
      cases p with
      | opening name attributes =>
          rw [write_opening] at hreads
          obtain ⟨hclear, hmore⟩ := clear_opening hp.1 hp.2 hreads
          exact .cons hclear (by simp [Piece.isText]) (ih hmore)
      | empty name attributes =>
          rw [write_empty] at hreads
          obtain ⟨hclear, hmore⟩ := clear_empty hp.1 hp.2 hreads
          exact .cons hclear (by simp [Piece.isText]) (ih hmore)
      | closing name =>
          exact .cons trivial (by simp [Piece.isText]) (ih (hreads.closing hp.1 hp.2).2)
      | text content =>
          by_cases htext : ∃ next more, ps = .text next :: more
          · obtain ⟨next, more, rfl⟩ := htext
            cases hrest with
            | piece hspaces' hrest' =>
            exact absurd hreads (not_reads_texts hp (hps (.text next) (by simp)) hspaces')
          · have hnext : ∀ p ∈ ps.head?, p.isText = false := by
              intro p hp
              cases ps with
              | nil => cases hp
              | cons q ps =>
                  obtain rfl := Option.some.inj hp
                  cases q with
                  | text next => exact absurd ⟨next, ps, rfl⟩ htext
                  | _ => rfl
            exact .cons trivial (fun q hq htexts => by simp [hnext q hq] at htexts)
              (ih (hreads.apart hp (hrest.fresh hnext)))
      | comment content =>
          exact .cons trivial (by simp [Piece.isText]) (ih (hreads.comment hp).2)
      | instruction body =>
          obtain ⟨hbracket, ⟨hdeclaration, hmore⟩ | ⟨hdeclaration, -, hmore⟩⟩ :=
            hreads.instruction hp
          · exact absurd hmore (not_reads_declaration hdeclaration hrest fun p hp =>
              hps p (List.mem_cons_of_mem _ hp))
          · exact .cons ⟨hbracket, hdeclaration⟩ (by simp [Piece.isText]) (ih hmore)

end TransferRules.Markup

import TransferRules.Proofs.Markup.RoundTrip
import TransferRules.Transfer.Document

/-!
# Documents as they are generated

A document whose names are made of letters, digits, hyphens and underscores is read back from its
text as it was, with its texts, comments and instructions, whatever the values of its attributes
are.  Texts have to be trimmed and apart from each other, and a comment or an instruction must not
hold its own end.

## Main Definitions

* `isName` — names of elements and keys of attributes
* `Node.Canonical`, `Document.Canonical` — documents with such names
* `Element.Plain`, `Document.Plain` — documents that are made of elements only

## Main Statements

* `Document.parse_write_of_canonical` — such documents are read back
* `Document.parse_write` — and so are documents that are made of elements only
-/

namespace TransferRules.Markup

open TransferRules.Text

/-! ## Names -/

/-- Whether a character may stand in a name behind its first one. -/
def isNameChar (c : Char) : Bool := c.isAlphanum || c == '-' || c == '_'

/-- Whether a text is a name: a letter, and behind it letters, digits, hyphens and underscores. -/
def isName (s : String) : Bool :=
  match s.toList with
  | [] => false
  | c :: cs => c.isAlpha && cs.all isNameChar

/-- The characters of a name mean nothing to markup. -/
theorem ne_of_isNameChar {c : Char} (h : isNameChar c = true) :
    c ≠ '=' ∧ c ≠ '"' ∧ c ≠ '\'' ∧ c ≠ '<' ∧ c ≠ '>' ∧ c ≠ '/' := by
  refine ⟨?_, ?_, ?_, ?_, ?_, ?_⟩ <;> rintro rfl <;> exact absurd h (by decide)

theorem isSpace_of_isNameChar {c : Char} (h : isNameChar c = true) : isSpace c = false := by
  rw [← Bool.not_eq_true]
  intro hspace
  simp only [isSpace, Bool.or_eq_true, beq_iff_eq] at hspace
  rcases hspace with ((rfl | rfl) | rfl) | rfl <;> exact absurd h (by decide)

theorem exists_cons_of_isName {s : String} (h : isName s = true) :
    ∃ c cs, s.toList = c :: cs ∧ c.isAlpha = true ∧ ∀ d ∈ c :: cs, isNameChar d = true := by
  unfold isName at h
  cases hs : s.toList with
  | nil =>
      rw [hs] at h
      cases h
  | cons c cs =>
      rw [hs] at h
      simp only [Bool.and_eq_true, List.all_eq_true] at h
      refine ⟨c, cs, rfl, h.1, fun d hd => ?_⟩
      rcases List.mem_cons.1 hd with rfl | hd
      · simp [isNameChar, Char.isAlphanum, h.1]
      · exact h.2 d hd

theorem isNameChar_of_mem {s : String} (h : isName s = true) {c : Char} (hc : c ∈ s.toList) :
    isNameChar c = true := by
  obtain ⟨d, cs, hcons, -, hchars⟩ := exists_cons_of_isName h
  exact hchars c (hcons ▸ hc)

theorem isTagName_of_isName {s : String} (h : isName s = true) : isTagName s = true := by
  rw [isTagName, Bool.and_eq_true, List.all_eq_true]
  refine ⟨?_, fun c hc => by rw [isSpace_of_isNameChar (isNameChar_of_mem h hc)]; rfl⟩
  obtain ⟨c, cs, hcons, hc, -⟩ := exists_cons_of_isName h
  rw [hcons, opensTag]
  have hne : c ≠ '!' ∧ c ≠ '?' ∧ c ≠ '/' := by
    refine ⟨?_, ?_, ?_⟩ <;> rintro rfl <;> exact absurd hc (by decide)
  simpa [and_assoc] using hne

theorem isKey_of_isName {s : String} (h : isName s = true) : isKey s = true := by
  obtain ⟨c, cs, hcons, -, hchars⟩ := exists_cons_of_isName h
  rw [isKey, hcons]
  have hc : isSpace c = false := isSpace_of_isNameChar (hchars c List.mem_cons_self)
  have hcs : ∀ d ∈ cs, endsKey d = false := by
    intro d hd
    have hd := hchars d (List.mem_cons_of_mem c hd)
    rw [endsKey, isSpace_of_isNameChar hd, Bool.or_false, beq_eq_false_iff_ne]
    exact (ne_of_isNameChar hd).1
  simpa [hc] using hcs

/-- What the keys of a tag have to be: names, and different from each other. -/
structure PlainKeys (attributes : List (String × String)) : Prop where
  names : ∀ pair ∈ attributes, isName pair.1 = true
  nodup : (attributes.map Prod.fst).Nodup

theorem PlainKeys.readable {attributes : List (String × String)} (h : PlainKeys attributes) :
    ReadableKeys attributes :=
  ⟨fun pair hpair => isKey_of_isName (h.names pair hpair), h.nodup⟩

/-! ## Tags -/

variable {name : String} {attributes : List (String × String)}

theorem foldl_name (h : isName name = true) : name.toList.foldl tagClosing.step none = none := by
  refine foldl_unquoted fun c hc => ?_
  have hc := ne_of_isNameChar (isNameChar_of_mem h hc)
  exact ⟨hc.2.1, hc.2.2.1⟩

/-- No quote is left open behind the attributes of a tag. -/
theorem foldl_writeAttributes (hnames : ∀ pair ∈ attributes, isName pair.1 = true) :
    (writeAttributes attributes).foldl tagClosing.step none = none := by
  induction attributes with
  | nil => rfl
  | cons pair attributes ih =>
      obtain ⟨key, value⟩ := pair
      have hkey : key.toList.foldl tagClosing.step none = none :=
        foldl_name (hnames _ List.mem_cons_self)
      have hvalue : (escape value.toList).foldl tagClosing.step (some '"') = some '"' :=
        foldl_quoted fun c hc => (ne_of_mem_escape hc).1
      have hspace : tagClosing.step none ' ' = none := by decide
      have hequals : tagClosing.step none '=' = none := by decide
      have hopen : tagClosing.step none '"' = some '"' := by decide
      have hclose : tagClosing.step (some '"') '"' = none := by decide
      rw [writeAttributes_cons, List.foldl_cons, hspace, List.foldl_append, hkey, List.foldl_cons,
        hequals, List.foldl_cons, hopen, List.foldl_append, hvalue, List.foldl_cons, hclose,
        ih fun pair hpair => hnames pair (List.mem_cons_of_mem _ hpair)]

theorem notMem_name (h : isName name = true) : '>' ∉ name.toList := fun hmem =>
  (ne_of_isNameChar (isNameChar_of_mem h hmem)).2.2.2.2.1 rfl

theorem notMem_writeAttributes (hnames : ∀ pair ∈ attributes, isName pair.1 = true) :
    '>' ∉ writeAttributes attributes := by
  induction attributes with
  | nil => exact nofun
  | cons pair attributes ih =>
      obtain ⟨key, value⟩ := pair
      have hkey : '>' ∉ key.toList := notMem_name (hnames _ List.mem_cons_self)
      have hvalue : '>' ∉ escape value.toList := fun h => (ne_of_mem_escape h).2.2 rfl
      have hrest := ih fun pair hpair => hnames pair (List.mem_cons_of_mem _ hpair)
      simp only [writeAttributes_cons, List.mem_cons, List.mem_append, hkey, hvalue, hrest,
        or_false, false_or]
      decide

/-- Without a closing bracket in it, a content ends at the first one. -/
theorem spans_tagContent (hname : isName name = true) (hkeys : PlainKeys attributes) :
    tagClosing.spans (tagContent name attributes) = true := by
  have hmem : '>' ∉ tagContent name attributes := fun hmem =>
    (List.mem_append.1 hmem).elim (notMem_name hname) (notMem_writeAttributes hkeys.names)
  have hfold : (tagContent name attributes).foldl tagClosing.step none = none := by
    rw [tagContent, List.foldl_append, foldl_name hname, foldl_writeAttributes hkeys.names]
  rw [ClosingRule.spans, ClosingRule.passes_of_notMem hmem, Bool.true_and]
  exact congrArg Option.isNone hfold

theorem getLast?_writeAttributes (h : attributes ≠ []) :
    (writeAttributes attributes).getLast? = some '"' := by
  obtain ⟨first, pair, rfl⟩ := (List.eq_nil_or_concat attributes).resolve_left h
  rw [List.concat_eq_append, writeAttributes, List.flatMap_append, List.flatMap_singleton,
    ← List.append_assoc, List.getLast?_concat]

/-- No slash ends the content of a tag. -/
theorem getLast?_tagContent (hname : isName name = true) :
    (tagContent name attributes).getLast? ≠ some '/' := by
  rw [tagContent, List.getLast?_append]
  by_cases h : attributes = []
  · subst h
    intro hlast
    exact (ne_of_isNameChar (isNameChar_of_mem hname (List.mem_of_getLast? hlast))).2.2.2.2.2 rfl
  · rw [getLast?_writeAttributes h, Option.some_or]
    decide

theorem tagContent_ne_nil (hname : isName name = true) : tagContent name attributes ≠ [] := by
  obtain ⟨c, cs, hcons, -⟩ := exists_cons_of_isName hname
  rw [tagContent, hcons]
  exact List.cons_ne_nil _ _

/-! ## Comments and instructions -/

/-- A comment that does not hold its own end. -/
theorem spans_comment {content : List Char} (h : ¬ "-->".toList <:+: content) :
    commentClosing.spans ("!--".toList ++ content ++ "--".toList) = true := by
  have hstart : "!--".toList = ['!', '-', '-'] := rfl
  have hstop : "--".toList = ['-', '-'] := rfl
  have hmem : '>' ∉ ['!', '-', '-'] ∧ '>' ∉ ['-', '-'] := by decide
  rw [show "-->".toList = ['-', '-'] ++ ['>'] from rfl] at h
  rw [hstart, hstop, ClosingRule.spans, ClosingRule.passes_append, ClosingRule.passes_append,
    ClosingRule.passes_of_notMem hmem.1, ClosingRule.passes_of_notMem hmem.2, Bool.and_true,
    Bool.true_and, Bool.and_eq_true]
  constructor
  · rw [ClosingRule.passes_iff]
    rintro before behind rfl
    rw [← List.foldl_append, ← Bool.not_eq_true]
    intro hcloses
    have hcloses : (decide (5 ≤ ((['!', '-', '-'] ++ before).foldl LastTwo.step {}).count) &&
      ((['!', '-', '-'] ++ before).foldl LastTwo.step {}).are '-') = true := hcloses
    rw [Bool.and_eq_true, decide_eq_true_iff, foldl_lastTwo, List.length_append] at hcloses
    have hsuffix : ['-', '-'] <:+ before :=
      List.suffix_of_suffix_length_le (suffix_of_are (by rw [foldl_lastTwo]; exact hcloses.2))
        (List.suffix_append _ _) (by have := hcloses.1; simp at this ⊢; omega)
    obtain ⟨first, rfl⟩ := hsuffix
    exact h ⟨first, behind, by simp⟩
  · rw [List.foldl_append]
    -- Whatever stands before them, two hyphens end the comment once it is long enough.
    show (decide (5 ≤ ((['!', '-', '-'] ++ content).foldl LastTwo.step {}).count + 1 + 1) &&
      _) = true
    rw [foldl_lastTwo, List.length_append, Bool.and_eq_true, decide_eq_true_iff]
    exact ⟨by simp, rfl⟩

/-- An instruction that does not hold its own end. -/
theorem passes_instruction {body : List Char} (h : ¬ "?>".toList <:+: body) :
    instructionClosing.passes none body = true := by
  rw [show "?>".toList = ['?'] ++ ['>'] from rfl] at h
  rw [ClosingRule.passes_iff]
  rintro before behind rfl
  rw [← Bool.not_eq_true]
  intro hcloses
  rcases List.eq_nil_or_concat before with rfl | ⟨first, last, rfl⟩
  · cases hcloses
  · rw [List.concat_eq_append, List.foldl_append] at hcloses
    obtain rfl : last = '?' := Option.some.inj (beq_iff_eq.1 hcloses)
    exact h ⟨first, behind, by simp⟩

theorem isDeclaration_eq_false {body : List Char} (h : ¬ "xml".toList <+: body) :
    isDeclaration body = false := by
  rw [show "xml".toList = ['x', 'm', 'l'] from rfl] at h
  unfold isDeclaration
  split
  · exact absurd ⟨_, rfl⟩ h
  · exact absurd ⟨_, rfl⟩ h
  · rfl

/-! ## Documents -/

/-- A node with names and keys as markup has them.  Texts are trimmed and not empty, and no two of
them are neighbours; a comment does not hold its own end, and neither does an instruction, which
begins with a letter but not with the name of a declaration. -/
inductive Node.Canonical : Node → Prop where
  | element {name : String} {attributes : List (String × String)} {children : List Node}
      (hname : isName name = true) (hkeys : PlainKeys attributes) (htexts : TextsApart children)
      (hchildren : ∀ child ∈ children, Canonical child) :
      Canonical (.element name attributes children)
  | text {content : String} (hne : content ≠ "") (htrim : trim content = content) :
      Canonical (.text content)
  | comment {content : String} (hend : ¬ "-->".toList <:+: content.toList) :
      Canonical (.comment content)
  | instruction {body : String} (htrim : trim body = body)
      (hletter : ∃ c ∈ body.toList.head?, c.isAlpha = true)
      (hdeclaration : ¬ "xml".toList <+: body.toList) (hend : ¬ "?>".toList <:+: body.toList) :
      Canonical (.instruction body)

theorem toList_of_trim {s : String} (h : trim s = s) : strip isBlank s.toList = s.toList := by
  have htoList := congrArg String.toList h
  rwa [trim, String.toList_ofList] at htoList

theorem Node.Canonical.readable {node : Node} (h : node.Canonical) : node.Readable := by
  induction h with
  | element hname hkeys _ _ ih =>
      refine .element (isTagName_of_isName hname) hkeys.readable (fun _ => ?_) ih
      rw [ClosingRule.spans, ClosingRule.passes_of_notMem (notMem_name hname), Bool.true_and]
      exact congrArg Option.isNone (foldl_name hname)
  | text hne htrim =>
      exact .text (fun hnil => hne (String.toList_inj.1 hnil)) (toList_of_trim htrim)
  | comment hend => exact .comment (spans_comment hend)
  | instruction htrim _ _ hend =>
      exact .instruction (toList_of_trim htrim) (passes_instruction hend)

theorem Node.Canonical.unambiguous {node : Node} (h : node.Canonical) : node.Unambiguous := by
  induction h with
  | element hname hkeys htexts _ ih =>
      exact .element (spans_tagContent hname hkeys) (fun _ => tagContent_ne_nil hname)
        (fun _ => getLast?_tagContent hname) htexts ih
  | text => exact .text _
  | comment => exact .comment _
  | instruction _ hletter hdeclaration _ =>
      refine .instruction (fun hbracket => ?_) (isDeclaration_eq_false hdeclaration)
      obtain ⟨c, hc, halpha⟩ := hletter
      rw [hbracket] at hc
      obtain rfl := Option.some.inj hc
      exact absurd halpha (by decide)

/-- What the body of a document type declaration has to be: not empty, without brackets, and
without blanks at its ends. -/
structure PlainDoctype (body : String) : Prop where
  nonempty : body.toList ≠ []
  brackets : ∀ c ∈ body.toList, c ≠ '<' ∧ c ≠ '>'
  unspaced : body.toList.dropWhile isSpace = body.toList
  trimmed : strip isBlank body.toList = body.toList

theorem PlainDoctype.readable {body : String} (h : PlainDoctype body) : ReadableDoctype body where
  trimmed := h.trimmed
  ends := by
    have hmem : '>' ∉ body.toList := fun hmem => (h.brackets _ hmem).2 rfl
    rw [ClosingRule.spans, ClosingRule.passes_of_notMem hmem, Bool.true_and]
    exact congrArg (· == 0) (foldl_unbracketed h.brackets)

/-- The type of a new transfer file is plain. -/
theorem plainDoctype_standard : PlainDoctype Transfer.standardDoctype where
  nonempty := by decide +kernel
  brackets c hc := by
    have hall : (Transfer.standardDoctype.toList.all fun c => c != '<' && c != '>') = true := by
      decide +kernel
    simpa using List.all_eq_true.1 hall c hc
  unspaced := by decide +kernel
  trimmed := by decide +kernel

/-- A document of such nodes, with comments and instructions only around its root. -/
structure Document.Canonical (d : Document) : Prop where
  doctype : ∀ body ∈ d.doctype, PlainDoctype body
  prolog : ∀ node ∈ d.prolog, node.Canonical ∧ node.isAside = true
  root : d.root.toNode.Canonical
  epilog : ∀ node ∈ d.epilog, node.Canonical ∧ node.isAside = true

/-- **Such a document is read back** from its text. -/
theorem Document.parse_write_of_canonical {d : Document} (hd : d.Canonical) (indent : Nat) :
    Document.parse (d.write indent) = .ok d := by
  refine parse_write_of_unambiguous ⟨fun body hbody => (hd.doctype body hbody).readable, ?_,
    hd.root.readable, ?_⟩ ⟨?_, ?_, hd.root.unambiguous, ?_⟩ indent
  · exact fun node hnode => ⟨(hd.prolog node hnode).1.readable, (hd.prolog node hnode).2⟩
  · exact fun node hnode => ⟨(hd.epilog node hnode).1.readable, (hd.epilog node hnode).2⟩
  · exact fun hempty => (hd.doctype "" hempty).nonempty rfl
  · exact fun node hnode => (hd.prolog node hnode).1.unambiguous
  · exact fun node hnode => (hd.epilog node hnode).1.unambiguous

/-- **A transfer document is read back** from its text, with comments and instructions around its
root and whatever values its attributes have. -/
theorem Document.parse_write_of_standardDoctype {d : Document}
    (hdoctype : d.doctype = none ∨ d.doctype = some Transfer.standardDoctype)
    (hprolog : ∀ node ∈ d.prolog, node.Canonical ∧ node.isAside = true)
    (hroot : d.root.toNode.Canonical)
    (hepilog : ∀ node ∈ d.epilog, node.Canonical ∧ node.isAside = true) (indent : Nat) :
    Document.parse (d.write indent) = .ok d := by
  refine parse_write_of_canonical ⟨fun body hbody => ?_, hprolog, hroot, hepilog⟩ indent
  rcases hdoctype with hnone | hsome
  · rw [hnone] at hbody
    cases hbody
  · rw [hsome] at hbody
    obtain rfl := Option.some.inj hbody
    exact plainDoctype_standard

/-- A document with all kinds of nodes, and with values and texts that have to be escaped. -/
def sampleDocument : Document where
  doctype := some Transfer.standardDoctype
  prolog := [.comment " made by hand - <mostly> ", .instruction "style a=\"b\""]
  root := ⟨"transfer", [("default", "it's <\"&\"> "), ("n-1", "")],
    [.text "a < b & c", .element "rule" [] [.text "]]>"], .comment "", .text "d",
      .element "rule" [("comment", "x/>")] [.element "empty" [] []]]⟩
  epilog := [.comment "\nend"]

theorem Document.parse_write_sampleDocument :
    Document.parse (sampleDocument.write 4) = .ok sampleDocument := by
  have hrule : (Node.element "rule" [] [.text "]]>"]).Canonical := by
    refine .element (by decide +kernel) ⟨nofun, by decide⟩ (.singleton _) ?_
    rw [List.forall_mem_singleton]
    exact .text (by decide) (by decide +kernel)
  have hempty : (Node.element "rule" [("comment", "x/>")] [.element "empty" [] []]).Canonical := by
    refine .element (by decide +kernel) ⟨by decide +kernel, by decide⟩ (.singleton _) ?_
    rw [List.forall_mem_singleton]
    exact .element (by decide +kernel) ⟨nofun, by decide⟩ .nil nofun
  refine parse_write_of_standardDoctype (.inr rfl) ?_ ?_ ?_ 4
  · refine List.forall_mem_cons.2 ⟨⟨.comment (by decide +kernel), rfl⟩, ?_⟩
    refine List.forall_mem_singleton.2 ⟨.instruction (by decide +kernel) ?_ (by decide +kernel)
      (by decide +kernel), rfl⟩
    exact ⟨'s', by decide +kernel, by decide⟩
  · refine .element (by decide +kernel) ⟨by decide +kernel, by decide +kernel⟩ ?_ ?_
    · simp [TextsApart, sampleDocument, Node.isText]
    · refine List.forall_mem_cons.2 ⟨.text (by decide) (by decide +kernel),
        List.forall_mem_cons.2 ⟨hrule, List.forall_mem_cons.2 ⟨.comment (by decide +kernel), ?_⟩⟩⟩
      exact List.forall_mem_cons.2 ⟨.text (by decide) (by decide +kernel),
        List.forall_mem_singleton.2 hempty⟩
  · exact List.forall_mem_singleton.2 ⟨.comment (by decide +kernel), rfl⟩

/-! ## Documents that are made of elements only -/

/-- An element with a name and keys as markup has them, and with children that are such elements
again. -/
inductive Element.Plain : Element → Prop where
  | mk {name : String} {attributes : List (String × String)} {children : List Element}
      (hname : isName name = true) (hkeys : PlainKeys attributes)
      (hchildren : ∀ child ∈ children, Plain child) :
      Plain ⟨name, attributes, children.map Element.toNode⟩

theorem Element.Plain.canonical {e : Element} (he : e.Plain) : e.toNode.Canonical := by
  induction he with
  | @mk name attributes children hname hkeys _ ih =>
      refine .element hname hkeys ?_ fun child hchild => ?_
      · refine List.isChain_iff_forall_rel_of_append_cons_cons.2
          fun {a} b before behind heq htexts => ?_
        have ha : a ∈ children.map Element.toNode := by
          rw [show children.map Element.toNode = before ++ a :: b :: behind from heq]
          exact List.mem_append_right _ List.mem_cons_self
        obtain ⟨e, -, rfl⟩ := List.mem_map.1 ha
        cases htexts.1
      · obtain ⟨e, he, rfl⟩ := List.mem_map.1 hchild
        exact ih e he

/-- A document that is made of elements only, with or without a document type declaration. -/
structure Document.Plain (d : Document) : Prop where
  doctype : ∀ body ∈ d.doctype, PlainDoctype body
  prolog : d.prolog = []
  root : d.root.Plain
  epilog : d.epilog = []

/-- **What is written is read back.** -/
theorem Document.parse_write {d : Document} (hd : d.Plain) (indent : Nat) :
    Document.parse (d.write indent) = .ok d :=
  parse_write_of_canonical
    ⟨hd.doctype, by simp [hd.prolog], hd.root.canonical, by simp [hd.epilog]⟩ indent

end TransferRules.Markup

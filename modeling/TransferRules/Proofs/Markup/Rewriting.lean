import TransferRules.Proofs.Markup.Canonical
import TransferRules.Proofs.Markup.Pieces

/-!
# What is rewritten

A document that was read and is written again is read back as it was exactly if nothing in it is
written in the way of something else.  It is enough by the round trip.  It is needed because the
pieces that are written have to be read with the marks of the document.

## Main Statements

* `Node.Readable.unambiguous` — a node whose pieces are clear is not written in the way of something
  else
* `Document.parse_write_iff` — when a document that was read is read again as it was
* `not_parse_write_splitDocument` — texts that are neighbours are not
-/

namespace TransferRules.Markup

open TransferRules.Text

variable {total : Nat}

/-! ## Documents that are rewritten -/

theorem clear_append {ps qs : List Piece} (h : Clear (ps ++ qs)) : Clear ps ∧ Clear qs := by
  induction ps with
  | nil => exact ⟨.nil, h⟩
  | cons p ps ih =>
      cases h with
      | cons hp htexts hmore =>
      obtain ⟨hps, hqs⟩ := ih hmore
      refine ⟨.cons hp (fun q hq => htexts q ?_) hps, hqs⟩
      cases ps with
      | nil => cases hq
      | cons => exact hq

theorem Node.piecesAll_append (nodes more : List Node) :
    Node.piecesAll (nodes ++ more) = Node.piecesAll nodes ++ Node.piecesAll more := by
  induction nodes with
  | nil => rfl
  | cons node nodes ih => rw [List.cons_append, piecesAll, ih, piecesAll, List.append_assoc]

theorem Node.mem_piecesAll {nodes : List Node} {p : Piece} (h : p ∈ Node.piecesAll nodes) :
    ∃ node ∈ nodes, p ∈ node.pieces := by
  induction nodes with
  | nil => cases h
  | cons node nodes ih =>
      rw [piecesAll, List.mem_append] at h
      rcases h with h | h
      · exact ⟨node, List.mem_cons_self, h⟩
      · obtain ⟨node', hnode', hp⟩ := ih h
        exact ⟨node', List.mem_cons_of_mem _ hnode', hp⟩

theorem clear_of_mem {node : Node} {nodes : List Node} (h : Clear (Node.piecesAll nodes))
    (hnode : node ∈ nodes) : Clear node.pieces := by
  obtain ⟨before, behind, rfl⟩ := List.append_of_mem hnode
  rw [Node.piecesAll_append, Node.piecesAll] at h
  exact (clear_append (clear_append h).2).1

/-- The pieces of a node that can have been read. -/
theorem Node.Readable.pieces {node : Node} (h : node.Readable) : ∀ p ∈ node.pieces, p.Readable := by
  induction h with
  | @element name attributes children hname hkeys hclosing hchildren ih =>
      rw [Node.pieces]
      split
      · exact List.forall_mem_singleton.2 ⟨hname, hkeys⟩
      · next hempty =>
        refine List.forall_mem_cons.2 ⟨⟨hname, hkeys⟩, fun p hp => ?_⟩
        rcases List.mem_append.1 hp with hp | hp
        · obtain ⟨child, hchild, hp⟩ := Node.mem_piecesAll hp
          exact ih child hchild p hp
        · rw [List.mem_singleton.1 hp]
          exact ⟨hname, hclosing (by simpa using hempty)⟩
  | text hne htrim => exact List.forall_mem_singleton.2 (.text hne htrim)
  | comment hends => exact List.forall_mem_singleton.2 (.comment hends)
  | instruction htrim hends => exact List.forall_mem_singleton.2 (.instruction htrim hends)

/-- A node whose pieces are clear is not written in the way of something else. -/
theorem Node.Readable.unambiguous {node : Node} (h : node.Readable) (hclear : Clear node.pieces) :
    node.Unambiguous := by
  induction h with
  | @element name attributes children hname hkeys hclosing hchildren ih =>
      rw [Node.pieces] at hclear
      split at hclear
      · next hempty =>
        obtain rfl := List.isEmpty_iff.1 hempty
        cases hclear with
        | cons hp _ _ => exact .element hp.1 (fun _ => hp.2) (absurd rfl) .nil nofun
      · next hempty =>
        have hne : children ≠ [] := by simpa using hempty
        cases hclear with
        | cons hp _ hmore =>
        have hall := (clear_append hmore).1
        refine .element hp.1 (fun hnil => absurd hnil hne) (fun _ => hp.2) ?_ fun child hchild =>
          ih child hchild (clear_of_mem hall hchild)
        refine List.isChain_iff_forall_rel_of_append_cons_cons.2
          fun {a} b before behind heq htexts => ?_
        -- Two texts that are neighbours are two pieces that are.
        rw [heq, Node.piecesAll_append, Node.piecesAll, Node.piecesAll] at hall
        cases a with
        | text =>
            cases b with
            | text =>
                cases (clear_append hall).2 with
                | cons _ happart _ => exact happart _ rfl ⟨rfl, rfl⟩
            | _ => cases htexts.2
        | _ => cases htexts.1
  | text => exact .text _
  | comment => exact .comment _
  | instruction =>
      cases hclear with
      | cons hp _ _ => exact .instruction hp.1 hp.2

/-- Without a body, a document type declaration cannot be read. -/
theorem scan_nameless_doctype (rest : List Char) :
    ∃ fault, scan total (writeDoctype (some "") ++ rest) = .error fault := by
  refine ⟨⟨.namelessDoctype, total - byteSize ('\n' :: rest)⟩, ?_⟩
  have hline : writeDoctype (some "") = "<!DOCTYPE >\n".toList := rfl
  have hchars : "<!DOCTYPE >\n".toList =
      ['<', '!', 'D', 'O', 'C', 'T', 'Y', 'P', 'E', ' ', '>', '\n'] := rfl
  rw [hline, hchars]
  rfl

/-- What a document that is written has to be read from, behind its document type declaration. -/
theorem resume_of_parse_write {d : Document} (hreadable : d.Readable) {indent : Nat}
    (h : Document.parse (d.write indent) = .ok d) : d.doctype ≠ some "" ∧
      ∃ total a, a.Orderly ∧ a.marks = [] ∧ resume total a (writeNodes indent 0 d.prolog
        (writeNode indent 0 d.root.toNode (writeNodes indent 0 d.epilog []))) = .ok d := by
  obtain ⟨total, hparse⟩ := d.parse_write_eq indent
  rw [hparse] at h
  cases hdoctype : d.doctype with
  | none =>
      rw [hdoctype] at h
      exact ⟨nofun, total, {}, fun _ => rfl, rfl, h⟩
  | some body =>
      rw [hdoctype] at h
      by_cases hbody : body = ""
      · subst hbody
        obtain ⟨fault, hfault⟩ : ∃ fault, scan total (writeDoctype (some "") ++ _) = .error fault :=
          scan_nameless_doctype (writeNodes indent 0 d.prolog
            (writeNode indent 0 d.root.toNode (writeNodes indent 0 d.epilog [])))
        rcases resume_cases h with ⟨hscan, -⟩ | ⟨token, rest, a, hscan, -⟩
        all_goals
          rw [hfault] at hscan
          cases hscan
      · rw [resume_doctype (hreadable.doctype body hdoctype) hbody] at h
        exact ⟨fun heq => hbody (Option.some.inj heq), total, _, fun _ => rfl, rfl, h⟩

/-- **A document that was read is read again as it was** exactly if nothing in it is written in the
way of something else. -/
theorem Document.parse_write_iff {text : String} {d : Document} (h : Document.parse text = .ok d)
    (indent : Nat) : Document.parse (d.write indent) = .ok d ↔ d.Unambiguous := by
  have hreadable := readable_of_parse h
  refine ⟨fun hagain => ?_,
    fun hunambiguous => parse_write_of_unambiguous hreadable hunambiguous indent⟩
  obtain ⟨hdoctype, total, a, ha, hmarks, hresume⟩ := resume_of_parse_write hreadable hagain
  obtain ⟨ms, hreads, hd⟩ := reads_of_resume ha hresume
  have hwritten : Written
      (Node.piecesAll d.prolog ++ (d.root.toNode.pieces ++ (Node.piecesAll d.epilog ++ [])))
      (writeNodes indent 0 d.prolog
        (writeNode indent 0 d.root.toNode (writeNodes indent 0 d.epilog []))) :=
    written_writeNodes 0 _ (written_writeNode 0 _ (written_writeNodes 0 _ (.stop nofun)))
  have hpieces : ∀ p ∈ Node.piecesAll d.prolog ++ (d.root.toNode.pieces ++
      (Node.piecesAll d.epilog ++ [])), p.Readable := by
    intro p hp
    simp only [List.append_nil, List.mem_append] at hp
    rcases hp with hp | hp | hp
    · obtain ⟨node, hnode, hp⟩ := Node.mem_piecesAll hp
      exact (hreadable.prolog node hnode).1.pieces p hp
    · exact hreadable.root.pieces p hp
    · obtain ⟨node, hnode, hp⟩ := Node.mem_piecesAll hp
      exact (hreadable.epilog node hnode).1.pieces p hp
  have hsame : (Node.piecesAll d.prolog ++ (d.root.toNode.pieces ++
      (Node.piecesAll d.epilog ++ []))).flatMap Piece.marks = ms := by
    rw [hmarks, List.nil_append] at hd
    rw [← hd, Document.marks]
    simp only [List.flatMap_append, List.append_nil, Node.marksAll_pieces, Node.marks_pieces,
      List.append_assoc]
  have hclear := clear_of_reads hwritten hpieces (hsame ▸ hreads)
  obtain ⟨hprolog, hclear⟩ := clear_append hclear
  obtain ⟨hroot, hclear⟩ := clear_append hclear
  exact ⟨hdoctype,
    fun node hnode => (hreadable.prolog node hnode).1.unambiguous (clear_of_mem hprolog hnode),
    hreadable.root.unambiguous hroot,
    fun node hnode => (hreadable.epilog node hnode).1.unambiguous
      (clear_of_mem (clear_append hclear).1 hnode)⟩

/-! ## Texts that merge -/

/-- An element with a text and, right behind it, character data. -/
def splitText : String := "<a>x<![CDATA[y]]></a>"

/-- What is read of it: two texts that are neighbours. -/
def splitDocument : Document where
  root := ⟨"a", [], [.text "x", .text "y"]⟩

/-- The same with one text. -/
def mergedDocument : Document where
  root := ⟨"a", [], [.text "xy"]⟩

theorem parse_splitText : Document.parse splitText = .ok splitDocument := by
  have hchars : splitText.toList = ['<', 'a', '>', 'x', '<', '!', '[', 'C', 'D', 'A', 'T', 'A', '[',
      'y', ']', ']', '>', '<', '/', 'a', '>'] := rfl
  have htag : Assembly.elementOfTag (tagContent "a" []) = .ok ⟨"a", [], []⟩ :=
    elementOfTag_tagContent rfl ⟨nofun, List.nodup_nil⟩
  have hopening (total : Nat) : Assembly.step total {} (.opening ['a']) =
      .ok { openElements := [⟨"a", [], []⟩] } := by
    rw [Assembly.step, show ['a'] = tagContent "a" [] by decide, htag]
    rfl
  have htext (total : Nat) (a : Assembly) : a.step total (.text ['x']) = a.addText ['x'] := by
    have hescape : unescape ['x'] = .ok ['x'] := unescape_escape ['x']
    rw [Assembly.step, hescape]
  rw [parse_eq_resume, hchars]
  -- The tokens are a tag, a text, character data and a tag.
  refine (resume_token rfl (hopening _)).trans ?_
  refine (resume_token rfl ((htext _ _).trans rfl)).trans ?_
  refine (resume_token rfl (show Assembly.step _ _ (.data ['y']) = _ from rfl)).trans ?_
  refine (resume_token rfl (show Assembly.step _ _ (.closing ['a'] []) = _ from rfl)).trans ?_
  rw [resume, tokensFrom_eq]
  rfl

theorem Document.parse_write_iff_splitDocument : Document.parse splitText = .ok splitDocument ∧
    (Document.parse (splitDocument.write 2) = .ok splitDocument ↔ splitDocument.Unambiguous) :=
  ⟨parse_splitText, parse_write_iff parse_splitText 2⟩

/-- Written and read again, the two texts are one. -/
theorem not_parse_write_splitDocument : Document.parse splitText = .ok splitDocument ∧
    Document.parse (splitDocument.write 2) ≠ .ok splitDocument := by
  have hwrite : splitDocument.write 2 = mergedDocument.write 2 := rfl
  have hmerged : mergedDocument.Canonical := by
    refine ⟨nofun, nofun, .element rfl ⟨nofun, List.nodup_nil⟩ (.singleton _) ?_, nofun⟩
    exact List.forall_mem_singleton.2 (.text (by decide) rfl)
  refine ⟨parse_splitText, ?_⟩
  rw [hwrite, Document.parse_write_of_canonical hmerged]
  exact fun heq => absurd (Except.ok.inj heq) (by decide)

end TransferRules.Markup

import Mathlib.Data.List.Chain
import TransferRules.Proofs.Markup.Scanning

/-!
# What is written is read back

A document is read back as it was if it is one that can have been read at all, and if no node of it
is written in the way of another one.  Two texts that are neighbours become one, an instruction that
looks like a declaration is passed over, and a tag can have a name or keys by which it ends
somewhere else.  Values of attributes do no harm: they are escaped, so that neither a quote nor a
bracket in them ends a value or a tag.  The induction is on the nodes.  What it says about one node
is how reading goes on behind it, with the node added to the innermost open element.

## Main Definitions

* `Node.Readable`, `Document.Readable` — what can have been read
* `Node.Unambiguous`, `Document.Unambiguous` — what is not written in the way of something else
* `resume` — what becomes of an assembly when the rest of a text is read

## Main Statements

* `resume_node`, `resume_nodes` — nodes that are written are read back
* `Document.parse_write_of_unambiguous` — and so is a document
-/

namespace TransferRules.Markup

open TransferRules.Text

/-! ## Documents that can be read -/

/-- Whether a node is a comment or an instruction, which may stand outside the root. -/
def Node.isAside : Node → Bool
  | .comment _ => true
  | .instruction _ => true
  | _ => false

/-- Nodes that can have been read.  The name of an element with children can be closed; a text is
trimmed and not empty; a comment ends where it is meant to, and so does an instruction, unless it
begins with a bracket. -/
inductive Node.Readable : Node → Prop where
  | element {name : String} {attributes : List (String × String)} {children : List Node}
      (hname : isTagName name = true) (hkeys : ReadableKeys attributes)
      (hclosing : children ≠ [] → tagClosing.spans name.toList = true)
      (hchildren : ∀ child ∈ children, Readable child) :
      Readable (.element name attributes children)
  | text {content : String} (hne : content.toList ≠ [])
      (htrim : strip isBlank content.toList = content.toList) : Readable (.text content)
  | comment {content : String}
      (hends : commentClosing.spans ("!--".toList ++ content.toList ++ "--".toList) = true) :
      Readable (.comment content)
  | instruction {body : String} (htrim : strip isBlank body.toList = body.toList)
      (hends : instructionClosing.passes none body.toList = true) : Readable (.instruction body)

/-- No two texts of a list of nodes are neighbours. -/
def TextsApart (nodes : List Node) : Prop :=
  nodes.IsChain fun a b => ¬ (a.isText = true ∧ b.isText = true)

/-- Nodes that are not written in the way of something else.  The tag of an element ends where it is
meant to, and with children it has no slash at its end; without children it has a name or
attributes.  No two texts are neighbours.  An instruction neither ends at its first character nor is
a declaration. -/
inductive Node.Unambiguous : Node → Prop where
  | element {name : String} {attributes : List (String × String)} {children : List Node}
      (hends : tagClosing.spans (tagContent name attributes) = true)
      (hempty : children = [] → tagContent name attributes ≠ [])
      (hslash : children ≠ [] → (tagContent name attributes).getLast? ≠ some '/')
      (htexts : TextsApart children) (hchildren : ∀ child ∈ children, Unambiguous child) :
      Unambiguous (.element name attributes children)
  | text (content : String) : Unambiguous (.text content)
  | comment (content : String) : Unambiguous (.comment content)
  | instruction {body : String} (hbracket : body.toList.head? ≠ some '>')
      (hdeclaration : isDeclaration body.toList = false) : Unambiguous (.instruction body)

/-- Documents that can have been read. -/
structure Document.Readable (d : Document) : Prop where
  doctype : ∀ body ∈ d.doctype, ReadableDoctype body
  prolog : ∀ node ∈ d.prolog, node.Readable ∧ node.isAside = true
  root : d.root.toNode.Readable
  epilog : ∀ node ∈ d.epilog, node.Readable ∧ node.isAside = true

/-- Documents in which nothing is written in the way of something else. -/
structure Document.Unambiguous (d : Document) : Prop where
  doctype : d.doctype ≠ some ""
  prolog : ∀ node ∈ d.prolog, node.Unambiguous
  root : d.root.toNode.Unambiguous
  epilog : ∀ node ∈ d.epilog, node.Unambiguous

/-! ## Reading on -/

variable {total indent : Nat} {rest spaces cs : List Char} {name : String}
  {attributes : List (String × String)}

/-- What becomes of an assembly when the rest of a text of `total` bytes is read. -/
def resume (total : Nat) (a : Assembly) (cs : List Char) : Except ReadError Document := do
  let assembly ← (tokensFrom total cs).1.foldlM (Assembly.step total) a
  match (tokensFrom total cs).2 with
  | some fault => throw (.fault fault)
  | none => assembly.finish

/-- The tokens of a text depend on the first one and what follows it only. -/
theorem tokensFrom_eq (cs : List Char) : tokensFrom total cs =
    match scan total cs with
    | .error fault => ([], some fault)
    | .ok none => ([], none)
    | .ok (some (token, rest)) =>
      (token :: (tokensFrom total rest).1, (tokensFrom total rest).2) := by
  rw [tokensFrom]
  split
  · next h => rw [h]
  · next h => rw [h]
  · next h => rw [h]

theorem resume_token {a a' : Assembly} {token : Token}
    (hscan : scan total cs = .ok (some (token, rest))) (hstep : a.step total token = .ok a') :
    resume total a cs = resume total a' rest := by
  rw [resume, tokensFrom_eq, hscan]
  simp only [List.foldlM_cons, hstep]
  rfl

/-- Layout between tokens is passed over. -/
theorem resume_append (hspaces : ∀ c ∈ spaces, isSpace c = true) (a : Assembly) (cs : List Char) :
    resume total a (spaces ++ cs) = resume total a cs := by
  rw [resume, resume, tokensFrom_eq, tokensFrom_eq cs, scan_append hspaces]

theorem resume_newline (a : Assembly) (cs : List Char) :
    resume total a ('\n' :: cs) = resume total a cs :=
  resume_append isSpace_of_mem_newline a cs

theorem resume_padding (depth indent : Nat) (a : Assembly) (cs : List Char) :
    resume total a (padding depth indent ++ cs) = resume total a cs :=
  resume_append (fun _ hc => isSpace_of_mem_padding hc) a cs

/-! ## Nodes -/

/-- The assembly with one more node, in the order in which they are read: a text needs an open
element. -/
def Assembly.add (a : Assembly) : Node → Except ReadError Assembly
  | .element name attributes children => a.complete ⟨name, attributes, children⟩
  | .text content =>
    match a.openElements with
    | _ :: _ => .ok (a.place (.text content))
    | [] => .error .textOutsideRoot
  | node => .ok (a.place node)

/-- To an open element all nodes can be added. -/
theorem Assembly.add_of_open {a : Assembly} {e : Element} {outer : List Element}
    (hopen : a.openElements = e :: outer) (node : Node) : a.add node =
      .ok { a with openElements := { e with children := node :: e.children } :: outer } := by
  cases node <;> simp [add, complete, place, hopen, Element.toNode]

theorem Assembly.addAll_of_open {a : Assembly} {e : Element} {outer : List Element}
    (hopen : a.openElements = e :: outer) (nodes : List Node) : nodes.foldlM Assembly.add a =
      .ok { a with
        openElements := { e with children := nodes.reverse ++ e.children } :: outer } := by
  induction nodes generalizing a e with
  | nil =>
      rw [List.foldlM_nil, List.reverse_nil, List.nil_append, ← hopen]
      rfl
  | cons node nodes ih =>
      rw [List.foldlM_cons, add_of_open hopen, List.reverse_cons, List.append_assoc]
      exact ih (e := { e with children := node :: e.children }) rfl

/-- What is written of a node other than a text begins with markup. -/
theorem fresh_writeNode {node : Node} (htext : node.isText = false) (depth : Nat)
    (rest : List Char) : Fresh (writeNode indent depth node rest) := by
  cases node with
  | text content => cases htext
  | element name attributes children =>
      rw [writeNode]
      split
      · simpa using fresh_padding depth indent _
      · split
        · simpa using fresh_padding depth indent _
        · simpa using fresh_padding depth indent _
  | comment content =>
      rw [writeNode, show "<!--".toList = '<' :: "!--".toList from rfl]
      simpa using fresh_padding depth indent _
  | instruction body =>
      rw [writeNode, show "<?".toList = ['<', '?'] from rfl]
      simpa using fresh_padding depth indent _

/-- Behind a text comes markup. -/
theorem fresh_writeNodes {node : Node} {nodes : List Node} (hrest : Fresh rest)
    (happart : TextsApart (node :: nodes)) (htext : node.isText = true) (depth : Nat) :
    Fresh (writeNodes indent depth nodes rest) := by
  cases nodes with
  | nil => exact hrest
  | cons next nodes =>
      refine fresh_writeNode ?_ depth _
      have hnext := List.isChain_cons_cons.1 happart
      simpa [htext] using hnext.1

/-- Reading goes on behind nodes with the nodes added, if it does so for each of them. -/
theorem resume_nodes {nodes : List Node} {depth : Nat}
    (h : ∀ node ∈ nodes, ∀ a a' rest, a.add node = .ok a' → (node.isText = true → Fresh rest) →
      resume total a (writeNode indent depth node rest) = resume total a' rest)
    (happart : TextsApart nodes) {a a' : Assembly} (hadd : nodes.foldlM Assembly.add a = .ok a')
    (hrest : Fresh rest) :
    resume total a (writeNodes indent depth nodes rest) = resume total a' rest := by
  induction nodes generalizing a with
  | nil =>
      cases hadd
      rfl
  | cons node nodes ih =>
      rw [List.foldlM_cons] at hadd
      cases hb : a.add node with
      | error error =>
          rw [hb] at hadd
          cases hadd
      | ok b =>
          rw [hb] at hadd
          rw [writeNodes, h node List.mem_cons_self a b _ hb fun htext =>
            fresh_writeNodes hrest happart htext depth]
          exact ih (fun node hnode => h node (List.mem_cons_of_mem _ hnode)) happart.tail hadd

/-- The lines of an element, by what its children are. -/
theorem writeNode_element (depth : Nat) (name : String) (attributes : List (String × String))
    (children : List Node) (rest : List Char) :
    writeNode indent depth (.element name attributes children) rest =
      padding depth indent ++ '<' :: (tagContent name attributes ++
        if children.isEmpty then '/' :: '>' :: '\n' :: rest
        else if children.all Node.isText then
          '>' :: (writeTexts children ++ '<' :: '/' :: (name.toList ++ '>' :: '\n' :: rest))
        else '>' :: '\n' :: writeNodes indent (depth + 1) children
          (padding depth indent ++ '<' :: '/' :: (name.toList ++ '>' :: '\n' :: rest))) := by
  rw [writeNode]
  split
  · simp [tagContent]
  · split <;> simp [tagContent]

theorem writeNode_comment (depth : Nat) (content : String) (rest : List Char) :
    writeNode indent depth (.comment content) rest = padding depth indent ++
      ("<!--".toList ++ content.toList ++ ("-->".toList ++ '\n' :: rest)) := by
  have hline : "-->\n".toList ++ rest = "-->".toList ++ '\n' :: rest := by
    rw [show "-->\n".toList = "-->".toList ++ ['\n'] from rfl, List.append_assoc]
    rfl
  rw [writeNode, hline, List.append_assoc, List.append_assoc, List.append_assoc]

theorem writeNode_instruction (depth : Nat) (body : String) (rest : List Char) :
    writeNode indent depth (.instruction body) rest = padding depth indent ++
      ("<?".toList ++ body.toList ++ ("?>".toList ++ '\n' :: rest)) := by
  have hline : "?>\n".toList ++ rest = "?>".toList ++ '\n' :: rest := by
    rw [show "?>\n".toList = "?>".toList ++ ['\n'] from rfl, List.append_assoc]
    rfl
  rw [writeNode, hline, List.append_assoc, List.append_assoc, List.append_assoc]

/-- Neighbours that are all texts are one text. -/
theorem eq_singleton_of_all_isText {nodes : List Node} (hne : nodes ≠ [])
    (hall : nodes.all Node.isText = true) (happart : TextsApart nodes) :
    ∃ content, nodes = [.text content] := by
  cases nodes with
  | nil => exact absurd rfl hne
  | cons node nodes =>
      rw [List.all_cons, Bool.and_eq_true] at hall
      cases nodes with
      | nil =>
          cases node with
          | text content => exact ⟨content, rfl⟩
          | element => cases hall.1
          | comment => cases hall.1
          | instruction => cases hall.1
      | cons next nodes =>
          rw [List.all_cons, Bool.and_eq_true] at hall
          exact absurd ⟨hall.1, hall.2.1⟩ (List.isChain_cons_cons.1 happart).1

/-- What is trimmed and not empty is added as a text. -/
theorem Assembly.addText_eq_add {content : String} (hne : content.toList ≠ [])
    (htrim : strip isBlank content.toList = content.toList) (a : Assembly) :
    a.addText content.toList = a.add (.text content) := by
  obtain ⟨c, cs, hcons⟩ := List.exists_cons_of_ne_nil hne
  have hof : String.ofList (c :: cs) = content := by rw [← hcons, String.ofList_toList]
  rw [addText, htrim, hcons]
  simp only [hof]
  rfl

/-- A text that is written is read back, up to the layout behind it. -/
theorem resume_text {content : String} (hne : content.toList ≠ [])
    (htrim : strip isBlank content.toList = content.toList) {a a' : Assembly}
    (hadd : a.add (.text content) = .ok a') (hrest : Fresh rest) :
    resume total a (escape content.toList ++ rest) = resume total a' rest := by
  obtain ⟨spaces, more, rfl, hspaces, hmore⟩ := hrest
  have hstep : a.step total (.text (escape content.toList)) = .ok a' := by
    rw [Assembly.step, unescape_escape, ← hadd]
    exact Assembly.addText_eq_add hne htrim a
  rw [resume_token (scan_text hne htrim hspaces hmore) hstep, resume_append hspaces]

/-! ## Elements that are written -/

/-- An element without children is read back. -/
theorem resume_empty (hname : isTagName name = true) (hkeys : ReadableKeys attributes)
    (hends : tagClosing.spans (tagContent name attributes) = true)
    (hempty : tagContent name attributes ≠ []) {a a' : Assembly}
    (hadd : a.add (.element name attributes []) = .ok a') (rest : List Char) :
    resume total a ('<' :: (tagContent name attributes ++ '/' :: '>' :: '\n' :: rest)) =
      resume total a' rest := by
  have hstep : a.step total (.empty (tagContent name attributes)) = .ok a' := by
    rw [Assembly.step, elementOfTag_tagContent hname hkeys]
    exact hadd
  rw [resume_token (scan_empty hname hends hempty _) hstep, resume_newline]

/-- The tag of an element with children opens it. -/
theorem resume_opening (hname : isTagName name = true) (hkeys : ReadableKeys attributes)
    (hends : tagClosing.spans (tagContent name attributes) = true)
    (hslash : (tagContent name attributes).getLast? ≠ some '/') (a : Assembly) (rest : List Char) :
    resume total a ('<' :: (tagContent name attributes ++ '>' :: rest)) =
      resume total { a with openElements := ⟨name, attributes, []⟩ :: a.openElements } rest := by
  refine resume_token (scan_opening hname hends hslash rest) ?_
  rw [Assembly.step, elementOfTag_tagContent hname hkeys]
  rfl

/-- The tag that closes it puts its children back in order. -/
theorem resume_closing {children : List Node} (hname : isTagName name = true)
    (hends : tagClosing.spans name.toList = true) {a a' : Assembly}
    (hadd : a.add (.element name attributes children) = .ok a') (rest : List Char) :
    resume total
      { a with openElements := ⟨name, attributes, children.reverse ++ []⟩ :: a.openElements }
      ('<' :: '/' :: (name.toList ++ '>' :: '\n' :: rest)) = resume total a' rest := by
  have hclosed : Assembly.closed ⟨name, attributes, children.reverse ++ []⟩ =
      ⟨name, attributes, children⟩ := by
    rw [Assembly.closed, List.append_nil, List.reverse_reverse]
  refine (resume_token (scan_closing hname hends ('\n' :: rest)) ?_).trans (resume_newline a' rest)
  rw [Assembly.step]
  simp only [String.ofList_toList, if_true, hclosed]
  exact hadd

/-- **A node that is written is read back.**  Reading goes on behind it, with the node added. -/
theorem resume_node {node : Node} (hreadable : node.Readable) (hunambiguous : node.Unambiguous)
    (depth : Nat) {a a' : Assembly} (hadd : a.add node = .ok a')
    (hrest : node.isText = true → Fresh rest) :
    resume total a (writeNode indent depth node rest) = resume total a' rest := by
  induction hreadable generalizing depth a a' rest with
  | @element name attributes children hname hkeys hclosing hchildren ih =>
      cases hunambiguous with
      | element hends hempty hslash happart hchildren' =>
      rw [writeNode_element, resume_padding]
      by_cases hnil : children = []
      · subst hnil
        rw [List.isEmpty_nil, if_pos rfl, resume_empty hname hkeys hends (hempty rfl) hadd]
      · rw [if_neg (by simpa using hnil)]
        have hadded := Assembly.addAll_of_open (a := { a with
          openElements := ⟨name, attributes, []⟩ :: a.openElements }) rfl children
        split
        · next hall =>
          obtain ⟨content, rfl⟩ := eq_singleton_of_all_isText hnil hall happart
          cases hchildren _ (List.mem_singleton_self _) with
          | text hne htrim =>
          have htexts : writeTexts [.text content] = escape content.toList := by simp [writeTexts]
          rw [htexts, resume_opening hname hkeys hends (hslash hnil)]
          exact (resume_text hne htrim (Assembly.add_of_open rfl _) (fresh_markup _)).trans
            (resume_closing hname (hclosing hnil) hadd rest)
        · rw [resume_opening hname hkeys hends (hslash hnil), resume_newline,
            resume_nodes (fun child hchild a a' rest hadd hrest =>
              ih child hchild (hchildren' child hchild) (depth + 1) hadd hrest) happart hadded
              (fresh_padding depth indent _), resume_padding,
            resume_closing hname (hclosing hnil) hadd]
  | text hne htrim =>
      rw [writeNode, List.append_assoc, resume_padding, resume_text hne htrim hadd
        (hrest rfl).newline, resume_newline]
  | @comment content hends =>
      have hstep : a.step total (.comment content.toList) = .ok a' := by
        rw [Assembly.step, String.ofList_toList]
        exact hadd
      rw [writeNode_comment, resume_padding, resume_token (scan_comment hends _) hstep,
        resume_newline]
  | @instruction body htrim hends =>
      cases hunambiguous with
      | instruction hbracket hdeclaration =>
      have hscan : scan total _ = _ := scan_instruction hends hbracket ('\n' :: rest)
      rw [if_neg (by simp [hdeclaration])] at hscan
      have hstep : a.step total (.instruction body.toList) = .ok a' := by
        rw [Assembly.step, htrim, String.ofList_toList]
        exact hadd
      rw [writeNode_instruction, resume_padding, resume_token hscan hstep, resume_newline]

/-! ## Documents that are written -/

/-- Outside the root, comments and instructions come to the prolog or to the epilog. -/
theorem Assembly.addAll_of_asides {nodes : List Node} (h : ∀ node ∈ nodes, node.isAside = true)
    {a : Assembly} (hopen : a.openElements = []) : nodes.foldlM Assembly.add a =
      .ok (if a.root.isSome then { a with epilog := a.epilog ++ nodes }
        else { a with prolog := a.prolog ++ nodes }) := by
  induction nodes generalizing a with
  | nil => simp [pure, Except.pure]
  | cons node nodes ih =>
      have hplace : a.add node = .ok (a.place node) := by
        have hnode := h node List.mem_cons_self
        cases node with
        | element => cases hnode
        | text => cases hnode
        | comment => rfl
        | instruction => rfl
      have hplaced : a.place node =
          if a.root.isSome then { a with epilog := a.epilog ++ [node] }
          else { a with prolog := a.prolog ++ [node] } := by rw [place, hopen]
      have hopen' : (a.place node).openElements = [] := by
        rw [hplaced]
        split <;> exact hopen
      rw [List.foldlM_cons, hplace]
      refine (ih (fun node hnode => h node (List.mem_cons_of_mem _ hnode)) hopen').trans ?_
      rw [hplaced]
      cases hroot : a.root.isSome <;> simp [hroot]

theorem textsApart_of_asides {nodes : List Node} (h : ∀ node ∈ nodes, node.isAside = true) :
    TextsApart nodes := by
  refine List.isChain_iff_forall_rel_of_append_cons_cons.2 ?_
  rintro a b before behind rfl ⟨htext, -⟩
  have haside := h a (List.mem_append_right _ List.mem_cons_self)
  cases a with
  | text => cases haside
  | element => cases htext
  | comment => cases htext
  | instruction => cases htext

/-- The document type declaration is read back. -/
theorem resume_doctype {body : String} (hbody : ReadableDoctype body) (hne : body ≠ "")
    (a : Assembly) (rest : List Char) : resume total a (writeDoctype (some body) ++ rest) =
      resume total { a with doctype := some body } rest := by
  refine (resume_token (scan_doctype hbody hne rest) ?_).trans (resume_newline _ rest)
  rw [Assembly.step, hbody.trimmed, String.ofList_toList]

/-- Behind its first line, a written document is read from an assembly with nothing in it. -/
theorem Document.parse_write_eq (d : Document) (indent : Nat) : ∃ total,
    Document.parse (d.write indent) = resume total {} (writeDoctype d.doctype ++
      writeNodes indent 0 d.prolog
        (writeNode indent 0 d.root.toNode (writeNodes indent 0 d.epilog []))) := by
  have hmark : ∀ cs, withoutMark (declarationLine ++ cs) = declarationLine ++ cs := by
    obtain ⟨line, hline⟩ : ∃ line, declarationLine = '<' :: line :=
      ⟨"?xml version=\"1.0\" encoding=\"utf-8\"?>\n".toList, rfl⟩
    rw [hline]
    exact fun _ => rfl
  have hparse : Document.parse (d.write indent) =
      resume (byteSize (d.writeChars indent)) {} (d.writeChars indent) := by
    rw [Document.parse, Document.write, String.toList_ofList, Document.writeChars,
      List.append_assoc, hmark]
    rfl
  refine ⟨byteSize (d.writeChars indent), ?_⟩
  rw [hparse]
  generalize byteSize (d.writeChars indent) = total
  rw [Document.writeChars, List.append_assoc, resume_token (scan_declarationLine _) rfl,
    resume_newline]

/-- **What is written is read back**, if it can have been read and nothing in it is written in the
way of something else. -/
theorem Document.parse_write_of_unambiguous {d : Document} (hreadable : d.Readable)
    (hunambiguous : d.Unambiguous) (indent : Nat) : Document.parse (d.write indent) = .ok d := by
  obtain ⟨total, hparse⟩ := d.parse_write_eq indent
  rw [hparse]
  obtain ⟨doctype, prolog, root, epilog⟩ := d
  obtain ⟨hdoctype, hprolog, hroot, hepilog⟩ := hreadable
  obtain ⟨hdoctype', hprolog', hroot', hepilog'⟩ := hunambiguous
  have htype : ∀ rest, resume total {} (writeDoctype doctype ++ rest) =
      resume total { doctype } rest := by
    intro rest
    cases doctype with
    | none => rfl
    | some body =>
        exact resume_doctype (hdoctype body rfl)
          (fun hempty => hdoctype' (congrArg some hempty)) {} rest
  have hasides : ∀ {nodes : List Node} {a a' : Assembly} {rest : List Char},
      (∀ node ∈ nodes, node.Readable ∧ node.isAside = true) → (∀ node ∈ nodes, node.Unambiguous) →
      nodes.foldlM Assembly.add a = .ok a' → Fresh rest →
      resume total a (writeNodes indent 0 nodes rest) = resume total a' rest :=
    fun hnodes hnodes' hadd hrest => resume_nodes
      (fun node hnode _ _ _ => resume_node (hnodes node hnode).1 (hnodes' node hnode) 0)
      (textsApart_of_asides fun node hnode => (hnodes node hnode).2) hadd hrest
  rw [htype,
    hasides hprolog hprolog'
      (Assembly.addAll_of_asides (fun node hnode => (hprolog node hnode).2) rfl)
      (fresh_writeNode rfl 0 _),
    resume_node hroot hroot' 0 rfl nofun,
    hasides hepilog hepilog'
      (Assembly.addAll_of_asides (fun node hnode => (hepilog node hnode).2) rfl) fresh_nil]
  rw [resume, tokensFrom_eq]
  rfl

end TransferRules.Markup

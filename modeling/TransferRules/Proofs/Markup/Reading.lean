import TransferRules.Proofs.Markup.RoundTrip

/-!
# What is read

Whatever text a document is read from, it is one that can have been read: names of elements can be
closed and hold no space, keys are different from each other, texts are trimmed and not empty,
comments and instructions end where they are meant to, and outside the root there is nothing else.
This is an invariant of the assembly, which every token keeps.

## Main Definitions

* `Token.Readable` — what the tokens of a text have in common
* `Assembly.Readable` — the invariant

## Main Statements

* `readable_of_scan` — what is scanned is such a token
* `Assembly.Readable.step` — such a token keeps the invariant
* `Document.readable_of_parse` — what is read is a document that can be read
-/

namespace TransferRules.Markup

open TransferRules.Text

variable {total : Nat} {cs rest : List Char} {token : Token}

/-! ## Tokens -/

/-- What the tokens of a text have in common. -/
def Token.Readable : Token → Prop
  | .opening content => opensTag content = true
  | .empty content => opensTag content = true
  | .closing name _ => tagClosing.spans name = true
  | .comment content =>
    commentClosing.spans ("!--".toList ++ content ++ "--".toList) = true
  | .instruction body => instructionClosing.passes none body = true
  | .doctype body => doctypeClosing.spans body = true
  | _ => True

theorem scanClosed_eq_ok {σ : Type} {rule : ClosingRule σ} {unclosed : Fault}
    {toToken : List Char → Except Fault Token}
    (h : scanClosed total rule unclosed toToken cs = .ok (token, rest)) :
    ∃ content, cs = content ++ '>' :: rest ∧ rule.spans content = true ∧
      toToken content = .ok token := by
  unfold scanClosed at h
  split at h
  · cases h
  · next content rest' hsplit =>
    obtain ⟨hcs, hspans⟩ := ClosingRule.split_eq_some_iff.1 hsplit
    split at h
    · next token' htoken =>
      cases h
      exact ⟨content, hcs, hspans, htoken⟩
    · cases h

/-- What stands between a start and a stop that a text has. -/
theorem eq_inner {start stop cs : List Char} (hstart : start <+: cs) (hstop : stop <:+ cs)
    (hlength : start.length + stop.length ≤ cs.length) :
    cs = start ++ inner start.length stop.length cs ++ stop := by
  obtain ⟨more, rfl⟩ := hstart
  rw [List.length_append] at hlength
  obtain ⟨content, rfl⟩ : stop <:+ more :=
    List.suffix_of_suffix_length_le hstop (List.suffix_append _ _) (by omega)
  rw [← List.append_assoc, inner_append]

theorem readable_commentToken {content : List Char} (hspans : commentClosing.spans content = true)
    (h : commentToken? content = .ok token) : token.Readable := by
  unfold commentToken? at h
  split at h
  · next hstart =>
    cases h
    have hclosing := hspans
    rw [ClosingRule.spans, Bool.and_eq_true] at hclosing
    have hcloses : (decide (5 ≤ (content.foldl LastTwo.step {}).count) &&
      (content.foldl LastTwo.step {}).are '-') = true := hclosing.2
    rw [Bool.and_eq_true, decide_eq_true_iff, foldl_lastTwo] at hcloses
    have hstop : ['-', '-'] <:+ content := suffix_of_are (by rw [foldl_lastTwo]; exact hcloses.2)
    have hinner := eq_inner (List.isPrefixOf_iff_prefix.1 hstart) hstop hcloses.1
    show commentClosing.spans _ = true
    rw [show "--".toList = ['-', '-'] from rfl]
    exact hinner ▸ hspans
  · cases h

/-- The body of an instruction, whether it is a declaration or not. -/
theorem readable_instructionToken {content : List Char}
    (hspans : instructionClosing.spans content = true)
    (h : instructionToken? content = .ok token) : token.Readable := by
  have hlength : ¬ content.length ≤ 1 := by
    intro hle
    rw [instructionToken?, if_pos hle] at h
    cases h
  obtain ⟨c, more, rfl⟩ := List.exists_cons_of_length_pos (show 0 < content.length by omega)
  obtain ⟨body, last, rfl⟩ := (List.eq_nil_or_concat more).resolve_left fun hnil =>
    hlength (by rw [hnil]; exact Nat.le_refl 1)
  rw [List.concat_eq_append] at hspans h hlength
  have hinner : inner 1 1 (c :: (body ++ [last])) = body := inner_append [c] body [last]
  rw [ClosingRule.spans, ClosingRule.passes, ClosingRule.passes_append, Bool.and_eq_true,
    Bool.and_eq_true, Bool.and_eq_true] at hspans
  rw [instructionToken?, if_neg hlength, hinner] at h
  have hbody : (Token.instruction body).Readable := passes_none hspans.1.2.1
  split at h
  · cases h
    exact trivial
  · split at h
    · cases h
      exact trivial
    · cases h
      exact hbody
  · cases h
    exact hbody

theorem readable_doctypeToken {content : List Char}
    (hspans : doctypeClosing.spans content = true)
    (h : doctypeToken? content = .ok token) : token.Readable := by
  unfold doctypeToken? at h
  split at h
  · next hstart =>
    split at h
    · cases h
    · next hbody =>
      cases h
      show doctypeClosing.spans _ = true
      -- The name of the declaration and the space behind it hold no brackets.
      have hname : ∀ c ∈ content.take 8, c ≠ '<' ∧ c ≠ '>' := by
        intro c hc
        have hlower : (content.take 8).map Char.toLower = "!doctype".toList := by
          have heq := beq_iff_eq.1 hstart
          exact heq.trans rfl
        have hmem : c.toLower ∈ "!doctype".toList := hlower ▸ List.mem_map_of_mem hc
        constructor <;> rintro rfl <;> exact absurd hmem (by decide)
      have hspace : ∀ c ∈ (content.drop 8).takeWhile isSpace, c ≠ '<' ∧ c ≠ '>' := by
        intro c hc
        have hc := List.all_eq_true.1 List.all_takeWhile c hc
        constructor <;> rintro rfl <;> exact absurd hc (by decide)
      have hshape : content = (content.take 8 ++ (content.drop 8).takeWhile isSpace) ++
          ((content.drop 8).dropWhile isSpace ++ []) := by
        rw [List.append_nil, List.append_assoc, List.takeWhile_append_dropWhile,
          List.take_append_drop]
      rw [hshape, spans_doctype_append
        (fun c hc => (List.mem_append.1 hc).elim (hname c) (hspace c)) (by simp)] at hspans
      exact hspans
  · cases h

theorem readable_tagToken {content : List Char} (h : opensTag content = true) :
    (tagToken content).Readable := by
  rw [tagToken]
  split
  · cases content with
    | nil => rfl
    | cons c cs =>
        cases cs with
        | nil => rfl
        | cons d cs => exact h
  · exact h

theorem readable_of_scanMarkup (h : scanMarkup total cs = .ok (token, rest)) : token.Readable := by
  unfold scanMarkup at h
  split at h
  · obtain ⟨content, -, hspans, htoken⟩ := scanClosed_eq_ok h
    exact readable_commentToken hspans htoken
  · obtain ⟨content, -, -, htoken⟩ := scanClosed_eq_ok h
    unfold dataToken? at htoken
    split at htoken
    · cases htoken
      exact trivial
    · cases htoken
  · obtain ⟨content, -, hspans, htoken⟩ := scanClosed_eq_ok h
    exact readable_doctypeToken hspans htoken
  · obtain ⟨content, -, hspans, htoken⟩ := scanClosed_eq_ok h
    exact readable_doctypeToken hspans htoken
  · cases h
  · obtain ⟨content, -, hspans, htoken⟩ := scanClosed_eq_ok h
    exact readable_instructionToken hspans htoken
  · next name =>
    split at h
    · cases h
    · next content rest' hsplit =>
      cases h
      have hspans := (ClosingRule.split_eq_some_iff.1 hsplit).2
      show tagClosing.spans (closingName content) = true
      unfold closingName
      split
      · exact hspans
      · obtain ⟨spaces, heq, hspaces⟩ := exists_dropTail isSpace content
        rw [heq, spans_tag_append] at hspans
        · exact hspans
        · intro c hc
          have hc := hspaces c hc
          refine ⟨?_, ?_, ?_⟩ <;> rintro rfl <;> exact absurd hc (by decide)
  · next hbang hquestion hslash =>
    obtain ⟨content, hcs, -, htoken⟩ := scanClosed_eq_ok h
    cases htoken
    refine readable_tagToken ?_
    cases content with
    | nil => rfl
    | cons c content =>
        have hne : c ≠ '!' ∧ c ≠ '?' ∧ c ≠ '/' := by
          refine ⟨?_, ?_, ?_⟩ <;> rintro rfl
          · exact hbang _ hcs
          · exact hquestion _ hcs
          · exact hslash _ hcs
        simpa [opensTag, and_assoc] using hne

/-- **What is scanned** is such a token. -/
theorem readable_of_scan (h : scan total cs = .ok (some (token, rest))) : token.Readable := by
  unfold scan at h
  split at h
  · cases h
  · next rest' _ =>
    cases hmarkup : scanMarkup total rest' with
    | error fault =>
        rw [hmarkup] at h
        cases h
    | ok pair =>
        rw [hmarkup] at h
        cases h
        exact readable_of_scanMarkup hmarkup
  · cases h
    exact trivial

theorem readable_of_tokensFrom (h : token ∈ (tokensFrom total cs).1) : token.Readable := by
  induction hn : cs.length using Nat.strongRecOn generalizing cs with
  | _ n ih =>
      subst hn
      rw [tokensFrom_eq] at h
      split at h
      · cases h
      · cases h
      · next first rest hscan =>
        rcases List.mem_cons.1 h with rfl | h
        · exact readable_of_scan hscan
        · exact ih _ (scan_length hscan) h rfl

/-! ## Assemblies -/

/-- An element that is still open. -/
structure Element.Open (e : Element) : Prop where
  name : isTagName e.name = true
  keys : ReadableKeys e.attributes
  children : ∀ child ∈ e.children, child.Readable

/-- What is put together of such tokens. -/
structure Assembly.Readable (a : Assembly) : Prop where
  openElements : ∀ e ∈ a.openElements, e.Open
  root : ∀ e ∈ a.root, e.toNode.Readable
  doctype : ∀ body ∈ a.doctype, ReadableDoctype body
  prolog : ∀ node ∈ a.prolog, node.Readable ∧ node.isAside = true
  epilog : ∀ node ∈ a.epilog, node.Readable ∧ node.isAside = true

namespace Assembly

variable {a a' : Assembly}

/-- Placing a node keeps the invariant, if a node outside the root may stand there. -/
theorem Readable.place (ha : a.Readable) {node : Node} (hnode : node.Readable)
    (haside : a.openElements = [] → node.isAside = true) : (a.place node).Readable := by
  have hmore : ∀ {nodes : List Node}, (∀ n ∈ nodes, n.Readable ∧ n.isAside = true) →
      a.openElements = [] → ∀ n ∈ nodes ++ [node], n.Readable ∧ n.isAside = true := by
    intro nodes hnodes hopen n hn
    rcases List.mem_append.1 hn with hn | hn
    · exact hnodes n hn
    · rw [List.mem_singleton.1 hn]
      exact ⟨hnode, haside hopen⟩
  unfold Assembly.place
  split
  · next e outer hopen =>
    have he := ha.openElements e (hopen ▸ List.mem_cons_self)
    refine { ha with openElements := ?_ }
    refine List.forall_mem_cons.2 ⟨⟨he.name, he.keys, ?_⟩, fun e' he' => ?_⟩
    · exact List.forall_mem_cons.2 ⟨hnode, he.children⟩
    · exact ha.openElements e' (hopen ▸ List.mem_cons_of_mem e he')
  · next hopen =>
    split
    · exact { ha with epilog := hmore ha.epilog hopen }
    · exact { ha with prolog := hmore ha.prolog hopen }

/-- Completing an element keeps it. -/
theorem Readable.complete (ha : a.Readable) {e : Element} (he : e.toNode.Readable)
    (h : a.complete e = .ok a') : a'.Readable := by
  unfold Assembly.complete at h
  split at h
  · next outer hopen =>
    cases h
    exact ha.place he fun hnil => by rw [hopen] at hnil; cases hnil
  · split at h
    · cases h
    · cases h
      refine { ha with root := fun e' he' => ?_ }
      obtain rfl := Option.some.inj he'
      exact he

theorem Readable.addText (ha : a.Readable) {content : List Char} (h : a.addText content = .ok a') :
    a'.Readable := by
  have hstrip := strip_strip isBlank content
  unfold Assembly.addText at h
  split at h
  · cases h
    exact ha
  · next hne =>
    split at h
    · next hopen =>
      cases h
      refine ha.place (.text ?_ ?_) fun hnil => by rw [hopen] at hnil; cases hnil
      · rw [String.toList_ofList]
        exact hne
      · rw [String.toList_ofList, hstrip]
    · cases h

/-- A tag that opens an element, or is all of it. -/
theorem open_of_elementOfTag {content : List Char} {e : Element} (hopens : opensTag content = true)
    (h : elementOfTag content = .ok e) : e.Open ∧ e.children = [] := by
  obtain ⟨hname, hkeys, hchildren⟩ := readableTag_of_elementOfTag hopens h
  exact ⟨⟨hname, hkeys, by simp [hchildren]⟩, hchildren⟩

/-- **Every token keeps the invariant.** -/
theorem Readable.step (ha : a.Readable) (htoken : token.Readable)
    (h : a.step total token = .ok a') : a'.Readable := by
  cases token with
  | opening content =>
      cases htag : elementOfTag content with
      | error error =>
          rw [Assembly.step, htag] at h
          cases h
      | ok e =>
          rw [Assembly.step, htag] at h
          cases h
          have he := (open_of_elementOfTag htoken htag).1
          have hopen := List.forall_mem_cons.2 ⟨he, ha.openElements⟩
          exact { ha with openElements := hopen }
  | empty content =>
      cases htag : elementOfTag content with
      | error error =>
          rw [Assembly.step, htag] at h
          cases h
      | ok e =>
          rw [Assembly.step, htag] at h
          obtain ⟨he, hchildren⟩ := open_of_elementOfTag htoken htag
          exact ha.complete (.element he.name he.keys (absurd hchildren) he.children) h
  | closing name unread =>
      rw [Assembly.step] at h
      split at h
      · cases h
      · next e outer hopen =>
        split at h
        · next hname =>
          have he := ha.openElements e (hopen ▸ List.mem_cons_self)
          have houter : ({ a with openElements := outer } : Assembly).Readable :=
            { ha with openElements := fun e' he' =>
                ha.openElements e' (hopen ▸ List.mem_cons_of_mem e he') }
          have hclosing : tagClosing.spans e.name.toList = true := by
            rw [hname, String.toList_ofList]
            exact htoken
          have hclosed : (closed e).toNode.Readable := .element he.name he.keys (fun _ => hclosing)
            fun child hchild => he.children child (List.mem_reverse.1 hchild)
          exact houter.complete hclosed h
        · cases h
  | text content =>
      rw [Assembly.step] at h
      split at h
      · exact ha.addText h
      · cases h
  | data content => exact ha.addText h
  | comment content =>
      cases h
      have hcontent : (String.ofList content).toList = content := String.toList_ofList
      exact ha.place (.comment (hcontent.symm ▸ htoken)) fun _ => rfl
  | instruction content =>
      cases h
      refine ha.place (.instruction ?_ ?_) fun _ => rfl
      · rw [String.toList_ofList, strip_strip]
      · rw [String.toList_ofList]
        obtain ⟨before, behind, heq, -⟩ := exists_strip isBlank content
        have hpasses : instructionClosing.passes none content = true := htoken
        rw [heq, ClosingRule.passes_append, ClosingRule.passes_append, Bool.and_eq_true,
          Bool.and_eq_true] at hpasses
        exact passes_none hpasses.2.1
  | declaration =>
      cases h
      exact ha
  | doctype content =>
      cases h
      refine { ha with doctype := fun body hbody => ?_ }
      obtain rfl := Option.some.inj hbody
      refine ⟨?_, ?_⟩
      · rw [String.toList_ofList, strip_strip]
      · rw [String.toList_ofList]
        obtain ⟨before, behind, heq, hbefore, hbehind⟩ := exists_strip isBlank content
        have hends : doctypeClosing.spans content = true := htoken
        have hbrackets : ∀ c : Char, isBlank c = true → c ≠ '<' ∧ c ≠ '>' := by
          intro c hc
          constructor <;> rintro rfl <;> exact absurd hc (by decide)
        rwa [heq, spans_doctype_append (fun c hc => hbrackets c (hbefore c hc))
          fun c hc => hbrackets c (hbehind c hc)] at hends

/-- So do all tokens of a text. -/
theorem Readable.steps (ha : a.Readable) {tokens : List Token}
    (htokens : ∀ token ∈ tokens, token.Readable)
    (h : tokens.foldlM (Assembly.step total) a = .ok a') : a'.Readable := by
  induction tokens generalizing a with
  | nil =>
      cases h
      exact ha
  | cons token tokens ih =>
      rw [List.foldlM_cons] at h
      cases hstep : a.step total token with
      | error error =>
          rw [hstep] at h
          cases h
      | ok b =>
          rw [hstep] at h
          exact ih (ha.step (htokens token List.mem_cons_self) hstep)
            (fun token' htoken' => htokens token' (List.mem_cons_of_mem token htoken')) h

end Assembly

/-- Reading a text is going on from an assembly with nothing in it. -/
theorem parse_eq_resume (text : String) : Document.parse text =
    resume (byteSize (withoutMark text.toList)) {} (withoutMark text.toList) := rfl

/-- If reading goes well, so does every token, and in the end the root is closed. -/
theorem resume_eq_ok {a : Assembly} {d : Document} (h : resume total a cs = .ok d) :
    ∃ a', (tokensFrom total cs).1.foldlM (Assembly.step total) a = .ok a' ∧
      (tokensFrom total cs).2 = none ∧ a'.finish = .ok d := by
  rw [resume] at h
  cases hsteps : (tokensFrom total cs).1.foldlM (Assembly.step total) a with
  | error error =>
      rw [hsteps] at h
      cases h
  | ok a' =>
      rw [hsteps] at h
      cases hfault : (tokensFrom total cs).2 with
      | some fault =>
          rw [hfault] at h
          cases h
      | none =>
          rw [hfault] at h
          exact ⟨a', rfl, rfl, h⟩

/-- **What is read** is a document that can be read. -/
theorem Document.readable_of_parse {text : String} {d : Document}
    (h : Document.parse text = .ok d) : d.Readable := by
  have hstart : ({} : Assembly).Readable := ⟨nofun, nofun, nofun, nofun, nofun⟩
  rw [parse_eq_resume] at h
  obtain ⟨a, hsteps, -, hfinish⟩ := resume_eq_ok h
  have ha : a.Readable := hstart.steps (fun _ => readable_of_tokensFrom) hsteps
  rw [Assembly.finish] at hfinish
  split at hfinish
  · cases hfinish
  · split at hfinish
    · cases hfinish
    · next root hroot =>
      cases hfinish
      exact ⟨ha.doctype, ha.prolog, ha.root root hroot, ha.epilog⟩

end TransferRules.Markup

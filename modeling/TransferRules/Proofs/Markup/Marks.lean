import TransferRules.Proofs.Markup.Reading

/-!
# What tokens add to a document

A document is the list of its marks: where elements open and close, and what stands between.  Each
token adds its marks at the end, wherever it stands, so two texts are read as one document only if
their tokens have the same marks one after the other.

## Main Definitions

* `Mark`, `Node.marks`, `Document.marks` — a document as a list
* `Token.marks` — what a token adds
* `Reads` — the marks of a text

## Main Statements

* `Assembly.step_marks` — a token adds its marks at the end
* `reads_of_resume` — what is read has the marks of the text
-/

namespace TransferRules.Markup

open TransferRules.Text

/-- Where an element opens or closes, or another node. -/
inductive Mark where
  | opens (name : String) (attributes : List (String × String))
  | closes
  | leaf (node : Node)

mutual

/-- The marks of a node. -/
def Node.marks : Node → List Mark
  | .element name attributes children =>
    .opens name attributes :: (Node.marksAll children ++ [.closes])
  | .text content => [.leaf (.text content)]
  | .comment content => [.leaf (.comment content)]
  | .instruction body => [.leaf (.instruction body)]

/-- The marks of a list of nodes. -/
def Node.marksAll : List Node → List Mark
  | [] => []
  | node :: nodes => node.marks ++ Node.marksAll nodes

end

theorem Node.marksAll_append (nodes more : List Node) :
    Node.marksAll (nodes ++ more) = Node.marksAll nodes ++ Node.marksAll more := by
  induction nodes with
  | nil => rfl
  | cons node nodes ih => rw [List.cons_append, marksAll, ih, marksAll, List.append_assoc]

theorem Node.marksAll_singleton (node : Node) : Node.marksAll [node] = node.marks := by
  rw [marksAll, marksAll, List.append_nil]

/-- The marks of a document, without its document type. -/
def Document.marks (d : Document) : List Mark :=
  Node.marksAll d.prolog ++ d.root.toNode.marks ++ Node.marksAll d.epilog

/-- What has been read of an element that is still open. -/
def Element.openMarks (e : Element) : List Mark :=
  .opens e.name e.attributes :: Node.marksAll e.children.reverse

namespace Assembly

/-- What has been read so far. -/
def marks (a : Assembly) : List Mark :=
  Node.marksAll a.prolog ++ (a.root.elim [] fun root => root.toNode.marks) ++
    Node.marksAll a.epilog ++ a.openElements.reverse.flatMap Element.openMarks

/-- Nothing comes behind a root that is not there. -/
def Orderly (a : Assembly) : Prop := a.root = none → a.epilog = []

variable {a a' : Assembly} {total : Nat}

theorem marks_push (a : Assembly) (e : Element) :
    ({ a with openElements := e :: a.openElements } : Assembly).marks = a.marks ++ e.openMarks := by
  simp [marks]

theorem marks_place (ha : a.Orderly) (node : Node) :
    (a.place node).marks = a.marks ++ node.marks ∧ (a.place node).Orderly := by
  unfold place
  split
  · next e outer hopen =>
    refine ⟨?_, ha⟩
    simp [marks, hopen, Element.openMarks, Node.marksAll_append, Node.marksAll_singleton]
  · next hopen =>
    split
    · next hroot =>
      refine ⟨by simp [marks, hopen, Node.marksAll_append, Node.marksAll_singleton], ?_⟩
      intro hnone
      rw [show a.root = none from hnone] at hroot
      cases hroot
    · next hroot =>
      have hnone : a.root = none := Option.not_isSome_iff_eq_none.1 hroot
      refine ⟨?_, ha⟩
      simp [marks, hopen, hnone, ha hnone, Node.marksAll, Node.marksAll_append]

theorem marks_complete (ha : a.Orderly) {e : Element} (h : a.complete e = .ok a') :
    a'.marks = a.marks ++ e.toNode.marks ∧ a'.Orderly := by
  unfold complete at h
  split at h
  · cases h
    exact marks_place ha e.toNode
  · next hopen =>
    split at h
    · cases h
    · next hroot =>
      have hnone : a.root = none := Option.not_isSome_iff_eq_none.1 hroot
      cases h
      refine ⟨?_, nofun⟩
      simp [marks, hopen, hnone, ha hnone, Node.marksAll]

end Assembly

/-- The mark of a text, without the blanks around it; nothing is left of a blank one. -/
def textMarks (content : List Char) : List Mark :=
  match strip isBlank content with
  | [] => []
  | trimmed => [.leaf (.text (String.ofList trimmed))]

/-- What a token adds to a document. -/
def Token.marks : Token → Except ReadError (List Mark)
  | .opening content => do
    let e ← Assembly.elementOfTag content
    return [.opens e.name e.attributes]
  | .empty content => do
    let e ← Assembly.elementOfTag content
    return [.opens e.name e.attributes, .closes]
  | .closing _ _ => .ok [.closes]
  | .text content =>
    match unescape content with
    | .ok plain => .ok (textMarks plain)
    | .error error => .error (.badText error)
  | .data content => .ok (textMarks content)
  | .comment content => .ok [.leaf (.comment (String.ofList content))]
  | .instruction content => .ok [.leaf (.instruction (String.ofList (strip isBlank content)))]
  | .declaration => .ok []
  | .doctype _ => .ok []

namespace Assembly

variable {a a' : Assembly} {total : Nat}

theorem marks_addText (ha : a.Orderly) {content : List Char} (h : a.addText content = .ok a') :
    a'.marks = a.marks ++ textMarks content ∧ a'.Orderly := by
  rw [addText] at h
  rw [textMarks]
  cases hstrip : strip isBlank content with
  | nil =>
      rw [hstrip] at h
      cases h
      rw [List.append_nil]
      exact ⟨rfl, ha⟩
  | cons c cs =>
      rw [hstrip] at h
      cases hopen : a.openElements with
      | nil =>
          rw [hopen] at h
          cases h
      | cons e outer =>
          rw [hopen] at h
          cases h
          exact marks_place ha (.text (String.ofList (c :: cs)))

/-- **A token adds its marks at the end.** -/
theorem step_marks (ha : a.Orderly) {token : Token} (h : a.step total token = .ok a') :
    ∃ ms, token.marks = .ok ms ∧ a'.marks = a.marks ++ ms ∧ a'.Orderly := by
  cases token with
  | opening content =>
      cases htag : elementOfTag content with
      | error error =>
          rw [step, htag] at h
          cases h
      | ok e =>
          rw [step, htag] at h
          cases h
          have hchildren : e.children = [] := by
            obtain ⟨found, -, rfl⟩ := elementOfTag_eq_ok htag
            rfl
          refine ⟨[.opens e.name e.attributes], by rw [Token.marks, htag]; rfl, ?_, ha⟩
          rw [marks_push, Element.openMarks, hchildren]
          rfl
  | empty content =>
      cases htag : elementOfTag content with
      | error error =>
          rw [step, htag] at h
          cases h
      | ok e =>
          rw [step, htag] at h
          have hchildren : e.children = [] := by
            obtain ⟨found, -, rfl⟩ := elementOfTag_eq_ok htag
            rfl
          obtain ⟨hmarks, horderly⟩ := marks_complete ha h
          refine ⟨[.opens e.name e.attributes, .closes], by rw [Token.marks, htag]; rfl, ?_,
            horderly⟩
          rw [hmarks, Element.toNode, hchildren]
          rfl
  | closing name unread =>
      refine ⟨_, rfl, ?_⟩
      rw [step] at h
      split at h
      · cases h
      · next e outer hopen =>
        split at h
        · have houter : ({ a with openElements := outer } : Assembly).Orderly := ha
          obtain ⟨hmarks, horderly⟩ := marks_complete houter h
          refine ⟨?_, horderly⟩
          rw [hmarks]
          simp [marks, hopen, closed, Element.toNode, Node.marks, Element.openMarks]
        · cases h
  | text content =>
      rw [step] at h
      split at h
      · next plain hplain =>
          exact ⟨textMarks plain, by rw [Token.marks, hplain], marks_addText ha h⟩
      · cases h
  | data content => exact ⟨_, rfl, marks_addText ha h⟩
  | comment content =>
      cases h
      exact ⟨_, rfl, marks_place ha _⟩
  | instruction content =>
      cases h
      exact ⟨_, rfl, marks_place ha _⟩
  | declaration =>
      cases h
      exact ⟨[], rfl, (List.append_nil _).symm, ha⟩
  | doctype content =>
      cases h
      exact ⟨[], rfl, (List.append_nil _).symm, ha⟩

end Assembly

/-- The marks of a text that is read to its end without a fault. -/
inductive Reads (total : Nat) : List Char → List Mark → Prop where
  | stop {cs : List Char} (hscan : scan total cs = .ok none) : Reads total cs []
  | token {cs rest : List Char} {token : Token} {ms more : List Mark}
      (hscan : scan total cs = .ok (some (token, rest))) (hmarks : token.marks = .ok ms)
      (hrest : Reads total rest more) : Reads total cs (ms ++ more)

/-- Reading goes well if it is at its end, or if it goes well behind the first token. -/
theorem resume_cases {total : Nat} {cs : List Char} {a : Assembly} {d : Document}
    (h : resume total a cs = .ok d) :
    (scan total cs = .ok none ∧ a.finish = .ok d) ∨
      ∃ token rest a', scan total cs = .ok (some (token, rest)) ∧ a.step total token = .ok a' ∧
        resume total a' rest = .ok d := by
  rw [resume, tokensFrom_eq] at h
  cases hscan : scan total cs with
  | error fault =>
      rw [hscan] at h
      cases h
  | ok next =>
      rw [hscan] at h
      cases next with
      | none => exact .inl ⟨rfl, h⟩
      | some pair =>
          obtain ⟨token, rest⟩ := pair
          simp only [List.foldlM_cons] at h
          cases hstep : a.step total token with
          | error error =>
              rw [hstep] at h
              cases h
          | ok a' =>
              rw [hstep] at h
              exact .inr ⟨token, rest, a', rfl, hstep, h⟩

/-- **What is read has the marks of the text.** -/
theorem reads_of_resume {total : Nat} {cs : List Char} {a : Assembly} {d : Document}
    (ha : a.Orderly) (h : resume total a cs = .ok d) :
    ∃ ms, Reads total cs ms ∧ d.marks = a.marks ++ ms := by
  induction hn : cs.length using Nat.strongRecOn generalizing cs a with
  | _ n ih =>
      subst hn
      rcases resume_cases h with ⟨hscan, hfinish⟩ | ⟨token, rest, a', hscan, hstep, hmore⟩
      · refine ⟨[], .stop hscan, ?_⟩
        unfold Assembly.finish at hfinish
        split at hfinish
        · cases hfinish
        · next hopen =>
          split at hfinish
          · cases hfinish
          · next root hroot =>
            cases hfinish
            simp [Assembly.marks, Document.marks, hopen, hroot]
      · obtain ⟨ms, hmarks, hadd, ha'⟩ := Assembly.step_marks ha hstep
        obtain ⟨more, hreads, hd⟩ := ih _ (scan_length hscan) ha' hmore rfl
        refine ⟨ms ++ more, .token hscan hmarks hreads, ?_⟩
        rw [hd, hadd, List.append_assoc]

/-! ## Marks of a text -/

variable {total : Nat} {cs rest spaces : List Char} {token : Token} {ms : List Mark}

/-- Layout has no marks. -/
theorem Reads.append (hspaces : ∀ c ∈ spaces, isSpace c = true) :
    Reads total (spaces ++ cs) ms ↔ Reads total cs ms := by
  constructor
  · intro h
    cases h with
    | stop hscan => exact .stop (by rwa [scan_append hspaces] at hscan)
    | token hscan hmarks hrest =>
        exact .token (by rwa [scan_append hspaces] at hscan) hmarks hrest
  · intro h
    cases h with
    | stop hscan => exact .stop (by rwa [scan_append hspaces])
    | token hscan hmarks hrest => exact .token (by rwa [scan_append hspaces]) hmarks hrest

/-- The marks of a text begin with those of its first token. -/
theorem Reads.of_scan (h : Reads total cs ms) (hscan : scan total cs = .ok (some (token, rest))) :
    ∃ first more, token.marks = .ok first ∧ Reads total rest more ∧ ms = first ++ more := by
  cases h with
  | stop hnone =>
      rw [hscan] at hnone
      cases hnone
  | token hsome hmarks hrest =>
      rw [hscan] at hsome
      cases hsome
      exact ⟨_, _, hmarks, hrest, rfl⟩

/-- A text with marks has a first token. -/
theorem Reads.exists_scan {m : Mark} (h : Reads total cs (m :: ms)) :
    ∃ token rest first more, scan total cs = .ok (some (token, rest)) ∧ token.marks = .ok first ∧
      Reads total rest more ∧ m :: ms = first ++ more := by
  generalize hall : m :: ms = all at h
  cases h with
  | stop => cases hall
  | token hscan hmarks hrest => exact ⟨_, _, _, _, hscan, hmarks, hrest, rfl⟩

end TransferRules.Markup

import Mathlib.Data.List.Nodup
import Mathlib.Data.List.TakeWhile
import TransferRules.Markup.Writing
import TransferRules.Markup.AttributeList
import TransferRules.Markup.Reading

/-!
# Tags that are read back

The content of a tag that is written is read back as the name and the attributes it was made of,
whatever the values of the attributes are: they are escaped, so that no quote in them ends a value.
The name must hold no space, and the keys must be different and made of what a key can be made of.

What was read of a content is determined by it up to space: of two contents one of which begins with
the other, both are read as one element only if the rest is space.

## Main Definitions

* `isKey`, `isTagName` — what keys and names have to be to be read back
* `ReadableKeys` — the keys of a tag
* `tagContent` — the content of a tag that is written

## Main Statements

* `elementOfTag_tagContent` — the content of a tag is read back
* `isSpace_of_elementOfTag_append` — and nothing but space may be added to it
* `readableTag_of_elementOfTag` — what is read has such a name and such keys
-/

namespace TransferRules.Markup

open TransferRules.Text

/-- Whether a text is read as a key: its first character may be all but space, and then an equals
sign or space would end it. -/
def isKey (s : String) : Bool :=
  match s.toList with
  | [] => false
  | c :: cs => !isSpace c && cs.all fun d => !endsKey d

/-- Whether what stands behind an opening bracket is a tag that is no closing tag. -/
def opensTag : List Char → Bool
  | [] => true
  | c :: _ => c != '!' && c != '?' && c != '/'

/-- Whether a text is read as the name of a tag.  It may be empty. -/
def isTagName (s : String) : Bool := opensTag s.toList && s.toList.all fun c => !isSpace c

/-- What the keys of a tag have to be: keys, and different from each other. -/
structure ReadableKeys (attributes : List (String × String)) : Prop where
  keys : ∀ pair ∈ attributes, isKey pair.1 = true
  nodup : (attributes.map Prod.fst).Nodup

theorem exists_cons_of_isKey {s : String} (h : isKey s = true) :
    ∃ c cs, s.toList = c :: cs ∧ isSpace c = false ∧ ∀ d ∈ cs, endsKey d = false := by
  unfold isKey at h
  cases hs : s.toList with
  | nil =>
      rw [hs] at h
      cases h
  | cons c cs =>
      rw [hs] at h
      exact ⟨c, cs, rfl, by simpa using h⟩

theorem isSpace_of_mem_tagName {s : String} (h : isTagName s = true) {c : Char}
    (hc : c ∈ s.toList) : isSpace c = false := by
  rw [isTagName, Bool.and_eq_true, List.all_eq_true] at h
  simpa using h.2 c hc

/-! ## Escaped texts -/

/-- An escaped text has neither a double quote nor a bracket. -/
theorem ne_of_mem_escape {c : Char} {cs : List Char} (h : c ∈ escape cs) :
    c ≠ '"' ∧ c ≠ '<' ∧ c ≠ '>' := by
  have hentity : ∀ entity : List Char,
      (entity.all fun d => d != '"' && d != '<' && d != '>') = true → c ∈ entity →
        c ≠ '"' ∧ c ≠ '<' ∧ c ≠ '>' := by
    intro entity hall hc
    simpa [and_assoc] using List.all_eq_true.1 hall c hc
  obtain ⟨d, -, hd⟩ := List.mem_flatMap.1 h
  unfold escapeChar at hd
  split at hd
  · exact hentity _ rfl hd
  · exact hentity _ rfl hd
  · exact hentity _ rfl hd
  · exact hentity _ rfl hd
  · exact hentity _ rfl hd
  · next hlt hgt _ _ hquote =>
    rw [List.mem_singleton.1 hd]
    exact ⟨hquote, hlt, hgt⟩

/-! ## Attributes that are written -/

/-- Reading attributes goes on behind the first one. -/
theorem readAttributesFrom_of_read {length : Nat} {earlier : List FoundAttribute}
    {cs rest rest' : List Char} {c : Char} {found : FoundAttribute}
    (h : cs.dropWhile isSpace = c :: rest)
    (hread : readAttribute length earlier c rest = .ok (found, rest')) :
    readAttributesFrom length earlier cs =
      readAttributesFrom length (earlier ++ [found]) rest' := by
  rw [readAttributesFrom]
  split
  · next hnil =>
    rw [h] at hnil
    cases hnil
  · next hcons =>
    rw [h] at hcons
    cases hcons
    split
    · next herror =>
      rw [hread] at herror
      cases herror
    · next hok =>
      rw [hread] at hok
      cases hok
      rfl

/-- Nothing is read of space. -/
theorem readAttributesFrom_of_space {length : Nat} {earlier : List FoundAttribute} {cs : List Char}
    (h : cs.dropWhile isSpace = []) : readAttributesFrom length earlier cs = .ok earlier := by
  rw [readAttributesFrom]
  split
  · rfl
  · next hcons =>
    rw [h] at hcons
    cases hcons

/-- If attributes are read, there is nothing but space, or a first one. -/
theorem readAttributesFrom_cases {length : Nat} {earlier found : List FoundAttribute}
    {cs : List Char} (h : readAttributesFrom length earlier cs = .ok found) :
    (cs.dropWhile isSpace = [] ∧ found = earlier) ∨
      ∃ c rest first rest', rest'.length < cs.length ∧ cs.dropWhile isSpace = c :: rest ∧
        readAttribute length earlier c rest = .ok (first, rest') ∧
        readAttributesFrom length (earlier ++ [first]) rest' = .ok found := by
  rw [readAttributesFrom] at h
  split at h
  · next hnil => exact .inl ⟨hnil, (Except.ok.inj h).symm⟩
  · next c rest hcons =>
    split at h
    · cases h
    · next first rest' hread =>
      have hlt := readAttribute_length hread
      have hle := length_dropWhile_le isSpace cs
      rw [hcons, List.length_cons] at hle
      exact .inr ⟨c, rest, first, rest', by omega, hcons, hread, h⟩

theorem splitBefore_append {p : Char → Bool} {cs : List Char} {c : Char} {rest : List Char}
    (hcs : ∀ d ∈ cs, p d = false) (hc : p c = true) :
    splitBefore p (cs ++ c :: rest) = (cs, c :: rest) := by
  have hcs : ∀ d ∈ cs, (!p d) = true := fun d hd => by rw [hcs d hd]; rfl
  rw [splitBefore, List.takeWhile_append_of_pos hcs, List.dropWhile_append_of_pos hcs,
    List.takeWhile_cons, List.dropWhile_cons, hc]
  simp

/-- An attribute that is written is read back, unless its key was found before. -/
theorem readAttribute_write {length : Nat} {earlier : List FoundAttribute} {c : Char}
    {more value rest : List Char} (hkey : ∀ d ∈ more, endsKey d = false)
    (hfresh : ∀ found ∈ earlier, found.key ≠ c :: more) :
    ∃ position, readAttribute length earlier c
      (more ++ '=' :: '"' :: (escape value ++ '"' :: rest)) =
        .ok (⟨position, c :: more, value⟩, rest) := by
  have hsplit : splitBefore endsKey (more ++ '=' :: '"' :: (escape value ++ '"' :: rest)) =
      (more, '=' :: '"' :: (escape value ++ '"' :: rest)) :=
    splitBefore_append hkey (by decide)
  have hvalue : splitBefore (· == '"') (escape value ++ '"' :: rest) =
      (escape value, '"' :: rest) :=
    splitBefore_append (fun d hd => beq_eq_false_iff_ne.2 (ne_of_mem_escape hd).1) (by decide)
  have hfind : (earlier.find? fun found => found.key == c :: more) = none :=
    List.find?_eq_none.2 fun found hfound => by simpa using hfresh found hfound
  have hequals : ('=' :: '"' :: (escape value ++ '"' :: rest)).dropWhile isSpace =
      '=' :: '"' :: (escape value ++ '"' :: rest) := rfl
  have hquote : ('"' :: (escape value ++ '"' :: rest)).dropWhile isSpace =
      '"' :: (escape value ++ '"' :: rest) := rfl
  refine ⟨length - byteSize (c :: (more ++ '=' :: '"' :: (escape value ++ '"' :: rest))), ?_⟩
  rw [readAttribute]
  simp only [hsplit, hequals, hfind, hquote, hvalue, unescape_escape]
  rfl

theorem writeAttributes_cons (key value : String) (attributes : List (String × String)) :
    writeAttributes ((key, value) :: attributes) =
      ' ' :: (key.toList ++ '=' :: '"' :: (escape value.toList ++ '"' ::
        writeAttributes attributes)) := by
  simp [writeAttributes]

theorem readAttributesFrom_writeAttributes {length : Nat} {earlier : List FoundAttribute}
    {attributes : List (String × String)} (hkeys : ReadableKeys attributes)
    (hfresh : ∀ found ∈ earlier, String.ofList found.key ∉ attributes.map Prod.fst) :
    ∃ found, readAttributesFrom length earlier (writeAttributes attributes) =
        .ok (earlier ++ found) ∧
      found.map (fun a => (String.ofList a.key, String.ofList a.value)) = attributes := by
  induction attributes generalizing earlier with
  | nil =>
      refine ⟨[], ?_, rfl⟩
      rw [writeAttributes, List.flatMap_nil, readAttributesFrom_of_space rfl, List.append_nil]
  | cons pair attributes ih =>
      obtain ⟨key, value⟩ := pair
      obtain ⟨c, more, hkey, hspace, hmore⟩ :=
        exists_cons_of_isKey (hkeys.keys _ List.mem_cons_self)
      have hkey : key.toList = c :: more := hkey
      have hof : String.ofList (c :: more) = key := by rw [← hkey, String.ofList_toList]
      have hnodup := hkeys.nodup
      rw [List.map_cons, List.nodup_cons] at hnodup
      have hmiss : ∀ found ∈ earlier, found.key ≠ c :: more := by
        intro found hfound heq
        refine hfresh found hfound ?_
        rw [heq, hof]
        exact List.mem_cons_self
      have hread : ∃ position, readAttribute length earlier c
          (more ++ '=' :: '"' :: (escape value.toList ++ '"' :: writeAttributes attributes)) =
            .ok (⟨position, c :: more, value.toList⟩, writeAttributes attributes) :=
        readAttribute_write hmore hmiss
      obtain ⟨position, hread⟩ := hread
      have hwrite : (writeAttributes ((key, value) :: attributes)).dropWhile isSpace =
          c :: (more ++ '=' :: '"' ::
            (escape value.toList ++ '"' :: writeAttributes attributes)) := by
        rw [writeAttributes_cons, hkey, List.dropWhile_cons_of_pos (by decide), List.cons_append,
          List.dropWhile_cons_of_neg (by simp [hspace])]
      have hrest : ReadableKeys attributes :=
        ⟨fun pair hpair => hkeys.keys pair (List.mem_cons_of_mem _ hpair), hnodup.2⟩
      have hlater : ∀ found ∈ earlier ++ [⟨position, c :: more, value.toList⟩],
          String.ofList found.key ∉ attributes.map Prod.fst := by
        intro found hfound
        rcases List.mem_append.1 hfound with hfound | hfound
        · exact fun hmem => hfresh found hfound (List.mem_cons_of_mem _ hmem)
        · rw [List.mem_singleton.1 hfound, hof]
          exact hnodup.1
      obtain ⟨found, hfrom, hfound⟩ := ih hrest hlater
      refine ⟨⟨position, c :: more, value.toList⟩ :: found, ?_, ?_⟩
      · rw [readAttributesFrom_of_read hwrite hread, hfrom, List.append_assoc]
        rfl
      · rw [List.map_cons, hfound, hof, String.ofList_toList]

/-- The content of a tag: the name and the attributes. -/
def tagContent (name : String) (attributes : List (String × String)) : List Char :=
  name.toList ++ writeAttributes attributes

/-- **The tag of an element is read back** from its content. -/
theorem elementOfTag_tagContent {name : String} {attributes : List (String × String)}
    (hname : isTagName name = true) (hkeys : ReadableKeys attributes) :
    Assembly.elementOfTag (tagContent name attributes) = .ok ⟨name, attributes, []⟩ := by
  have hspace : ∀ d ∈ name.toList, (!isSpace d) = true := by
    intro d hd
    rw [isSpace_of_mem_tagName hname hd]
    rfl
  have htag : tagName (tagContent name attributes) = name.toList := by
    rw [tagName, tagContent, List.takeWhile_append_of_pos hspace]
    cases attributes with
    | nil => exact List.append_nil _
    | cons pair rest =>
        rw [writeAttributes_cons, List.takeWhile_cons_of_neg (by decide), List.append_nil]
  have hread : readAttributes (tagContent name attributes) = .ok attributes := by
    have hnone : ∀ found ∈ ([] : List FoundAttribute),
        String.ofList found.key ∉ attributes.map Prod.fst := nofun
    have hdrop : (tagContent name attributes).drop name.toList.length =
        writeAttributes attributes := List.drop_left
    rw [readAttributes, htag, hdrop]
    obtain ⟨found, hfrom, hfound⟩ := readAttributesFrom_writeAttributes hkeys hnone
    rw [hfrom]
    exact congrArg Except.ok hfound
  rw [Assembly.elementOfTag, hread, htag, String.ofList_toList]

/-! ## Contents that are read alike -/

section Longer

variable {p : Char → Bool} {cs ds rest : List Char} {c : Char}

theorem dropWhile_append_of_cons (h : cs.dropWhile p = c :: rest) :
    (cs ++ ds).dropWhile p = c :: (rest ++ ds) := by
  rw [List.dropWhile_append, h]
  rfl

theorem splitBefore_append_of_cons (h : (splitBefore p cs).2 = c :: rest) :
    splitBefore p (cs ++ ds) = ((splitBefore p cs).1, c :: (rest ++ ds)) := by
  have hsplit : cs.takeWhile (fun c => !p c) ++ c :: rest = cs := by
    rw [← h]
    exact List.takeWhile_append_dropWhile
  have hlt : (cs.takeWhile fun c => !p c).length ≠ cs.length := by
    have hlength := congrArg List.length hsplit
    rw [List.length_append, List.length_cons] at hlength
    omega
  refine Prod.ext ?_ (dropWhile_append_of_cons h)
  show (cs ++ ds).takeWhile _ = cs.takeWhile _
  rw [List.takeWhile_append, if_neg hlt]

/-- The parts of an attribute that was read: the key, an equals sign, a quote, and the value up to
the same quote. -/
theorem readAttribute_eq_ok {length : Nat} {earlier : List FoundAttribute} {found : FoundAttribute}
    (h : readAttribute length earlier c cs = .ok (found, rest)) :
    ∃ afterEquals q afterQuote d,
      (splitBefore endsKey cs).2.dropWhile isSpace = '=' :: afterEquals ∧
      (earlier.find? fun a => a.key == c :: (splitBefore endsKey cs).1) = none ∧
      afterEquals.dropWhile isSpace = q :: afterQuote ∧ ¬ (q ≠ '"' ∧ q ≠ '\'') ∧
      (splitBefore (· == q) afterQuote).2 = d :: rest ∧
      unescape (splitBefore (· == q) afterQuote).1 = .ok found.value ∧
      found = ⟨length - byteSize (c :: cs), c :: (splitBefore endsKey cs).1, found.value⟩ := by
  unfold readAttribute at h
  simp only at h
  split at h
  · cases h
  · next e afterEquals hequals =>
    split at h
    · cases h
    · next he =>
      obtain rfl := not_not.1 he
      split at h
      · cases h
      · next hfind =>
        split at h
        · cases h
        · next q afterQuote hquote =>
          split at h
          · cases h
          · next hq =>
            split at h
            · cases h
            · next d rest' hclosing =>
              split at h
              · cases h
              · next value hvalue =>
                cases h
                exact ⟨afterEquals, q, afterQuote, d, hequals, hfind, hquote, hq, hclosing, hvalue,
                  rfl⟩

/-- What the first attribute is does not depend on what follows its closing quote. -/
theorem readAttribute_append {length length' : Nat} {earlier earlier' : List FoundAttribute}
    {found : FoundAttribute}
    (hearlier : earlier'.map FoundAttribute.key = earlier.map FoundAttribute.key)
    (h : readAttribute length earlier c cs = .ok (found, rest)) (ds : List Char) :
    ∃ position, readAttribute length' earlier' c (cs ++ ds) =
      .ok (⟨position, found.key, found.value⟩, rest ++ ds) := by
  obtain ⟨afterEquals, q, afterQuote, d, hequals, hfind, hquote, hq, hclosing, hvalue, hfound⟩ :=
    readAttribute_eq_ok h
  have hfind' : (earlier'.find? fun a => a.key == c :: (splitBefore endsKey cs).1) = none := by
    have hmem : c :: (splitBefore endsKey cs).1 ∉ earlier.map FoundAttribute.key := by
      rintro hmem
      obtain ⟨a, ha, heq⟩ := List.mem_map.1 hmem
      simpa [heq] using List.find?_eq_none.1 hfind a ha
    refine List.find?_eq_none.2 fun a ha heq => hmem ?_
    rw [← hearlier, ← beq_iff_eq.1 heq]
    exact List.mem_map_of_mem ha
  -- Every split goes on as before, because something is left at each.
  have hkey : splitBefore endsKey (cs ++ ds) =
      ((splitBefore endsKey cs).1, (splitBefore endsKey cs).2 ++ ds) := by
    cases hafter : (splitBefore endsKey cs).2 with
    | nil =>
        rw [hafter] at hequals
        cases hequals
    | cons e after => exact splitBefore_append_of_cons hafter
  have hequals' : ((splitBefore endsKey cs).2 ++ ds).dropWhile isSpace =
      '=' :: (afterEquals ++ ds) := dropWhile_append_of_cons hequals
  have hquote' : (afterEquals ++ ds).dropWhile isSpace = q :: (afterQuote ++ ds) :=
    dropWhile_append_of_cons hquote
  have hclosing' : splitBefore (· == q) (afterQuote ++ ds) = _ :=
    splitBefore_append_of_cons hclosing
  refine ⟨length' - byteSize (c :: (cs ++ ds)), ?_⟩
  rw [hfound, readAttribute]
  simp only [hkey, hequals', hfind', hquote', hclosing', hvalue, if_neg hq, ne_eq, not_true,
    if_false]

/-- All that is read after some attributes comes behind them. -/
theorem length_readAttributesFrom {length : Nat} {earlier found : List FoundAttribute}
    (h : readAttributesFrom length earlier cs = .ok found) :
    earlier.length ≤ found.length ∧
      (found.length = earlier.length → cs.dropWhile isSpace = []) := by
  induction hn : cs.length using Nat.strongRecOn generalizing cs earlier with
  | _ n ih =>
      subst hn
      rcases readAttributesFrom_cases h with
        ⟨hspace, rfl⟩ | ⟨c, rest, first, rest', hlt, hcons, hread, hmore⟩
      · exact ⟨Nat.le_refl _, fun _ => hspace⟩
      · have hle := (ih _ hlt hmore rfl).1
        rw [List.length_append, List.length_singleton] at hle
        exact ⟨by omega, fun heq => by omega⟩

/-- If as many attributes are read of a longer text, it is longer by space only. -/
theorem isSpace_of_readAttributesFrom_append {length length' : Nat}
    {earlier earlier' found found' : List FoundAttribute}
    (hearlier : earlier'.map FoundAttribute.key = earlier.map FoundAttribute.key)
    (h : readAttributesFrom length earlier cs = .ok found)
    (h' : readAttributesFrom length' earlier' (cs ++ ds) = .ok found')
    (hlength : found'.length = found.length) : ds.dropWhile isSpace = [] := by
  induction hn : cs.length using Nat.strongRecOn generalizing cs earlier earlier' with
  | _ n ih =>
      subst hn
      have hsame : earlier'.length = earlier.length := by simpa using congrArg List.length hearlier
      rcases readAttributesFrom_cases h with
        ⟨hspace, rfl⟩ | ⟨c, rest, first, rest', hlt, hcons, hread, hmore⟩
      · have hdrop := (length_readAttributesFrom h').2 (hlength.trans hsame.symm)
        rwa [List.dropWhile_append, hspace] at hdrop
      · obtain ⟨position, hread'⟩ : ∃ position, readAttribute length' earlier' c (rest ++ ds) =
          .ok (⟨position, first.key, first.value⟩, rest' ++ ds) :=
            readAttribute_append hearlier hread ds
        rw [readAttributesFrom_of_read (dropWhile_append_of_cons hcons) hread'] at h'
        refine ih _ hlt ?_ hmore h' rfl
        rw [List.map_append, List.map_append, hearlier]
        rfl

/-- What an element is read from: the name up to the first space, and the attributes behind it. -/
theorem elementOfTag_eq_ok {e : Element} (h : Assembly.elementOfTag cs = .ok e) :
    ∃ found, readAttributesFrom (byteSize cs) [] (cs.drop (tagName cs).length) = .ok found ∧
      e = ⟨String.ofList (tagName cs),
        found.map fun a => (String.ofList a.key, String.ofList a.value), []⟩ := by
  unfold Assembly.elementOfTag readAttributes at h
  dsimp only at h
  cases hread : readAttributesFrom (byteSize cs) [] (cs.drop (tagName cs).length) with
  | error error =>
      rw [hread] at h
      cases h
  | ok found =>
      rw [hread] at h
      exact ⟨found, rfl, (Except.ok.inj h).symm⟩

/-- **What is read of a content** determines it up to space: what is added to it without changing
what is read is space. -/
theorem isSpace_of_elementOfTag_append {e : Element}
    (h : Assembly.elementOfTag cs = .ok e) (h' : Assembly.elementOfTag (cs ++ ds) = .ok e) :
    ds.dropWhile isSpace = [] := by
  obtain ⟨found, hread, rfl⟩ := elementOfTag_eq_ok h
  obtain ⟨found', hread', heq⟩ := elementOfTag_eq_ok h'
  obtain ⟨hname, hattributes, -⟩ := Element.mk.inj heq
  have hname : tagName (cs ++ ds) = tagName cs := (String.ofList_injective hname).symm
  have hle : (tagName cs).length ≤ cs.length := (List.takeWhile_prefix _).length_le
  rw [hname, List.drop_append_of_le_length hle] at hread'
  refine isSpace_of_readAttributesFrom_append rfl hread hread' ?_
  simpa using (congrArg List.length hattributes).symm

end Longer

/-! ## What is read of a tag -/

/-- What was found of attributes: keys that are different from each other. -/
structure ReadableFound (found : List FoundAttribute) : Prop where
  keys : ∀ a ∈ found, isKey (String.ofList a.key) = true
  nodup : (found.map FoundAttribute.key).Nodup

/-- One more attribute that was read is found among them. -/
theorem ReadableFound.concat {length : Nat} {earlier : List FoundAttribute}
    {cs rest rest' : List Char} {c : Char} {first : FoundAttribute}
    (hearlier : ReadableFound earlier) (hcons : cs.dropWhile isSpace = c :: rest)
    (hread : readAttribute length earlier c rest = .ok (first, rest')) :
    ReadableFound (earlier ++ [first]) := by
  obtain ⟨-, -, -, -, -, hfind, -, -, -, -, hfirst⟩ := readAttribute_eq_ok hread
  have hkey : first.key = c :: (splitBefore endsKey rest).1 := congrArg FoundAttribute.key hfirst
  constructor
  · intro a ha
    rcases List.mem_append.1 ha with ha | ha
    · exact hearlier.keys a ha
    · have hc : isSpace c = false := by
        have hhead := List.head?_dropWhile_not isSpace cs
        rw [hcons] at hhead
        simpa using hhead
      have hmore : ∀ d ∈ (splitBefore endsKey rest).1, endsKey d = false := by
        intro d hd
        simpa using List.mem_takeWhile_imp hd
      rw [List.mem_singleton.1 ha, isKey, String.toList_ofList, hkey]
      simpa [hc] using hmore
  · rw [List.map_append, List.nodup_append]
    refine ⟨hearlier.nodup, List.nodup_singleton _, ?_⟩
    rintro key hmem _ hfirst' rfl
    obtain ⟨a, ha, heq⟩ := List.mem_map.1 hmem
    rw [List.map_singleton, List.mem_singleton, hkey] at hfirst'
    simpa [heq, hfirst'] using List.find?_eq_none.1 hfind a ha

theorem readableFound_of_readAttributesFrom {length : Nat} {earlier found : List FoundAttribute}
    {cs : List Char} (h : readAttributesFrom length earlier cs = .ok found)
    (hearlier : ReadableFound earlier) : ReadableFound found := by
  induction hn : cs.length using Nat.strongRecOn generalizing cs earlier with
  | _ n ih =>
      subst hn
      rcases readAttributesFrom_cases h with
        ⟨-, rfl⟩ | ⟨c, rest, first, rest', hlt, hcons, hread, hmore⟩
      · exact hearlier
      · exact ih _ hlt hmore (hearlier.concat hcons hread) rfl

/-- **What is read of a tag** has a name without space, and keys that differ from each other. -/
theorem readableTag_of_elementOfTag {content : List Char} {e : Element}
    (hopens : opensTag content = true) (h : Assembly.elementOfTag content = .ok e) :
    isTagName e.name = true ∧ ReadableKeys e.attributes ∧ e.children = [] := by
  obtain ⟨found, hread, rfl⟩ := elementOfTag_eq_ok h
  have hfound : ReadableFound found :=
    readableFound_of_readAttributesFrom hread ⟨nofun, List.nodup_nil⟩
  refine ⟨?_, ⟨?_, ?_⟩, rfl⟩
  · rw [isTagName, String.toList_ofList, Bool.and_eq_true, List.all_eq_true]
    refine ⟨?_, List.all_eq_true.1 List.all_takeWhile⟩
    cases content with
    | nil => rfl
    | cons c cs =>
        rw [tagName, List.takeWhile_cons]
        split
        · exact hopens
        · rfl
  · intro pair hpair
    obtain ⟨a, ha, rfl⟩ := List.mem_map.1 hpair
    exact hfound.keys a ha
  · have hmap : (found.map fun a => (String.ofList a.key, String.ofList a.value)).map Prod.fst =
        (found.map FoundAttribute.key).map String.ofList := by
      rw [List.map_map, List.map_map]
      rfl
    rw [hmap]
    exact hfound.nodup.map fun _ _ => String.ofList_injective

end TransferRules.Markup

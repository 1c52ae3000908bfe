import Mathlib.Data.List.Forall2
import Mathlib.Data.List.Nodup
import TransferRules.Ordered.StringSet

/-!
# Lists that go together

What is read, compiled or looked up for the entries of a list is again a list, related to the first
one entry by entry.  This module holds what such lists, and lists in ascending order, have in
common wherever they occur.

## Main Statements

* `exists_forall₂_iff` — a list is related to another one if its entries are related to something
* `exists_of_forall₂_of_mem`, `forall₂_filter_right` — entries of the second list
* `mapM_eq_ok_iff`, `mapM_eq_error_iff` — what is done for the entries one after the other, as long
  as nothing fails
* `find?_key_eq`, `mem_of_find?_key` — entries and what is found under their keys
* `least_of_find?`, `least_of_head?_sortStrings` — what comes first in an ascending list is the
  least
-/

namespace TransferRules.Ordered

section Related

variable {α β : Type} {R : α → β → Prop} {as : List α} {bs : List β}

/-- A list is related to some list if everything in it is related to something. -/
theorem exists_forall₂_iff : (∃ bs, List.Forall₂ R as bs) ↔ ∀ a ∈ as, ∃ b, R a b := by
  induction as with
  | nil => simp
  | cons a as ih =>
      simp only [List.forall₂_cons_left_iff, List.forall_mem_cons, ← ih]
      constructor
      · rintro ⟨_, b, bs, hb, hbs, rfl⟩
        exact ⟨⟨b, hb⟩, bs, hbs⟩
      · rintro ⟨⟨b, hb⟩, bs, hbs⟩
        exact ⟨b :: bs, b, bs, hb, hbs, rfl⟩

/-- In related lists, whatever stands in the second one is related to something in the first. -/
theorem exists_of_forall₂_of_mem (h : List.Forall₂ R as bs) {b : β} (hb : b ∈ bs) :
    ∃ a ∈ as, R a b := by
  induction h with
  | nil => cases hb
  | @cons a b' as bs hab _ ih =>
      rcases List.mem_cons.1 hb with rfl | hb
      · exact ⟨a, List.mem_cons_self, hab⟩
      · obtain ⟨a', ha', hrelated⟩ := ih hb
        exact ⟨a', List.mem_cons_of_mem _ ha', hrelated⟩

/-- Relations between lists survive if both are filtered by what the second one holds. -/
theorem forall₂_filter_right (h : List.Forall₂ R as bs) (p : β → Bool) :
    List.Forall₂ R (((as.zip bs).filter fun entry => p entry.2).map Prod.fst) (bs.filter p) := by
  induction h with
  | nil => exact .nil
  | @cons a b as bs hab _ ih =>
      cases hb : p b with
      | true => simpa only [List.zip_cons_cons, List.filter_cons, hb, if_true] using .cons hab ih
      | false =>
          simp only [List.zip_cons_cons, List.filter_cons, hb]
          exact ih

end Related

section Sequence

variable {α β ε : Type} {f : α → Except ε β} {as : List α}

/-- Everything succeeds, entry by entry. -/
theorem mapM_eq_ok_iff {bs : List β} :
    as.mapM f = .ok bs ↔ List.Forall₂ (fun a b => f a = .ok b) as bs := by
  induction as generalizing bs with
  | nil =>
      rw [List.mapM_nil, List.forall₂_nil_left_iff]
      exact ⟨fun h => (Except.ok.inj h).symm, fun h => congrArg Except.ok h.symm⟩
  | cons a as ih =>
      rw [List.mapM_cons, List.forall₂_cons_left_iff]
      simp only [← ih]
      cases f a with
      | error e => exact ⟨nofun, fun ⟨_, _, h, _⟩ => nomatch h⟩
      | ok b =>
          cases as.mapM f with
          | error e => exact ⟨nofun, fun ⟨_, _, _, h, _⟩ => nomatch h⟩
          | ok rest =>
              constructor
              · rintro ⟨⟩
                exact ⟨b, rest, rfl, rfl, rfl⟩
              · rintro ⟨_, _, ⟨⟩, ⟨⟩, rfl⟩
                rfl

/-- Something fails, and it is the first that does. -/
theorem mapM_eq_error_iff {e : ε} :
    as.mapM f = .error e ↔
      ∃ before a after, as = before ++ a :: after ∧ (∀ b ∈ before, ∃ y, f b = .ok y) ∧
        f a = .error e := by
  induction as with
  | nil =>
      rw [List.mapM_nil]
      refine ⟨nofun, fun ⟨before, a, after, h, _⟩ => ?_⟩
      exact absurd h (by simp)
  | cons first as ih =>
      rw [List.mapM_cons]
      cases hfirst : f first with
      | error e' =>
          constructor
          · rintro ⟨⟩
            exact ⟨[], first, as, rfl, nofun, hfirst⟩
          · rintro ⟨before, a, after, h, hbefore, ha⟩
            cases before with
            | nil =>
                obtain ⟨rfl, rfl⟩ := List.cons.inj h
                rw [hfirst] at ha
                cases ha
                rfl
            | cons b before =>
                obtain ⟨rfl, -⟩ := List.cons.inj h
                obtain ⟨y, hy⟩ := hbefore first List.mem_cons_self
                rw [hfirst] at hy
                cases hy
      | ok y =>
          have hrest : (Except.ok y >>= fun b => as.mapM f >>= fun bs => pure (b :: bs)) =
              .error e ↔ as.mapM f = .error e := by
            cases as.mapM f with
            | error e' => exact Iff.rfl
            | ok bs => exact ⟨nofun, nofun⟩
          rw [hrest, ih]
          constructor
          · rintro ⟨before, a, after, rfl, hbefore, ha⟩
            exact ⟨first :: before, a, after, rfl,
              List.forall_mem_cons.2 ⟨⟨y, hfirst⟩, hbefore⟩, ha⟩
          · rintro ⟨before, a, after, h, hbefore, ha⟩
            cases before with
            | nil =>
                obtain ⟨rfl, -⟩ := List.cons.inj h
                rw [hfirst] at ha
                cases ha
            | cons b before =>
                obtain ⟨rfl, rfl⟩ := List.cons.inj h
                exact ⟨before, a, after, rfl, (List.forall_mem_cons.1 hbefore).2, ha⟩

theorem exists_of_mapM_ok {bs : List β} (h : as.mapM f = .ok bs) {a : α} (ha : a ∈ as) :
    ∃ b ∈ bs, f a = .ok b :=
  exists_of_forall₂_of_mem (mapM_eq_ok_iff.1 h).flip ha

theorem exists_of_mapM_error {e : ε} (h : as.mapM f = .error e) : ∃ a ∈ as, f a = .error e := by
  obtain ⟨before, a, after, rfl, -, ha⟩ := mapM_eq_error_iff.1 h
  exact ⟨a, List.mem_append_right _ List.mem_cons_self, ha⟩

end Sequence

/-- The entries of a list stand in the order of their places. -/
theorem pairwise_zipIdx {α : Type} (l : List α) : l.zipIdx.Pairwise fun x y => x.2 < y.2 := by
  have hplaces : (l.zipIdx.map Prod.snd).Pairwise (· < ·) := by
    rw [List.zipIdx_map_snd]
    exact List.pairwise_lt_range' 1
  exact List.pairwise_map.1 hplaces

/-- Where keys do not repeat, an entry is found under its key. -/
theorem find?_key_eq {α : Type} {key : α → String} {l : List α} (hnodup : (l.map key).Nodup) {a : α}
    (ha : a ∈ l) : l.find? (fun b => key b == key a) = some a := by
  cases hfound : l.find? fun b => key b == key a with
  | none => exact absurd (beq_self_eq_true _) (List.find?_eq_none.1 hfound a ha)
  | some b =>
      have hfound' : (key b == key a) = true :=
        List.find?_some (p := fun b => key b == key a) hfound
      have hkey : key b = key a := beq_iff_eq.1 hfound'
      rw [List.inj_on_of_nodup_map hnodup (List.mem_of_find?_eq_some hfound) ha hkey]

/-- What is found under a key is an entry of this key. -/
theorem mem_of_find?_key {α β : Type} [DecidableEq α] {entries : List (α × β)} {key : α} {value : β}
    (h : (entries.find? fun entry => entry.1 == key).map Prod.snd = some value) :
    (key, value) ∈ entries := by
  obtain ⟨entry, hentry, rfl⟩ := Option.map_eq_some_iff.1 h
  have hkey : (entry.1 == key) = true :=
    List.find?_some (p := fun entry : α × β => entry.1 == key) hentry
  rw [← beq_iff_eq.1 hkey]
  exact List.mem_of_find?_eq_some hentry

/-- A list without repetitions has one entry if all its entries are the same. -/
theorem eq_singleton_iff {α : Type} {l : List α} {a : α} (h : l.Nodup) :
    l = [a] ↔ a ∈ l ∧ ∀ b ∈ l, b = a := by
  constructor
  · rintro rfl
    exact ⟨List.mem_singleton_self a, fun b hb => List.mem_singleton.1 hb⟩
  · rintro ⟨hmem, hall⟩
    rw [List.eq_replicate_of_mem hall] at h ⊢
    have hlength : l.length = 1 :=
      Nat.le_antisymm (List.nodup_replicate.1 h) (List.length_pos_of_mem hmem)
    rw [hlength, List.replicate_one]

/-- What is found first in an ascending list is the least of its kind. -/
theorem least_of_find? {α : Type} {key : α → String} {p : α → Bool} {l : List α}
    (hl : l.Pairwise fun a b => key a < key b) {a : α} (h : l.find? p = some a) {b : α}
    (hb : b ∈ l) (hp : p b = true) : ¬ key b < key a := by
  obtain ⟨-, before, after, rfl, hbefore⟩ := List.find?_eq_some_iff_append.1 h
  rcases List.mem_append.1 hb with hb | hb
  · exact absurd hp (by simpa using hbefore b hb)
  · rcases List.mem_cons.1 hb with rfl | hb
    · exact String.lt_irrefl _
    · exact String.lt_asymm ((List.pairwise_cons.1 (List.pairwise_append.1 hl).2.1).1 b hb)

/-- The first of the strings of a list in ascending order is the least of them. -/
theorem least_of_head?_sortStrings {l : List String} {s : String}
    (h : (sortStrings l).head? = some s) : s ∈ l ∧ ∀ t ∈ l, ¬ t < s := by
  obtain ⟨rest, hrest⟩ := List.head?_eq_some_iff.1 h
  have hsorted := pairwise_sortStrings l
  rw [hrest] at hsorted
  refine ⟨mem_sortStrings.1 (hrest ▸ List.mem_cons_self), fun t ht hlt => ?_⟩
  rw [← mem_sortStrings, hrest] at ht
  rcases List.mem_cons.1 ht with rfl | ht
  · exact String.lt_irrefl _ hlt
  · exact String.lt_asymm hlt ((List.pairwise_cons.1 hsorted).1 t ht)

theorem head?_sortStrings_eq_none_iff {l : List String} :
    (sortStrings l).head? = none ↔ l = [] := by
  rw [List.head?_eq_none_iff, List.eq_nil_iff_forall_not_mem, List.eq_nil_iff_forall_not_mem]
  simp only [mem_sortStrings]

end TransferRules.Ordered

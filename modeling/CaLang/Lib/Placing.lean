import Mathlib.Data.Finset.Card
import Mathlib.Data.List.Nodup
import Mathlib.Data.List.Range

/-! # Bringing values home by swaps

A list of values, each with the position where it belongs.  `send i` swaps the value at `i` with the
one that stands at its home: **one more value is at home, and none leaves its home**.  Sent on until
a value comes that belongs to `i`, and so for every `i`, all values are at home in the end.
-/

namespace CaLang.Placing

variable {α : Type} {l l' : List (Nat × α)} {i j k : Nat} {a b : Nat × α}

/-- The homes are the positions of the list, each once. -/
structure Homes (l : List (Nat × α)) : Prop where
  nodup : (l.map Prod.fst).Nodup
  lt : ∀ a ∈ l, a.1 < l.length

theorem Homes.perm (h : Homes l) (hp : l'.Perm l) : Homes l' where
  nodup := (hp.map Prod.fst).nodup_iff.mpr h.nodup
  lt a ha := hp.length_eq ▸ h.lt a (hp.mem_iff.mp ha)

theorem Homes.getElem? (h : Homes l) (ha : l[i]? = some a) : ∃ b, l[a.1]? = some b :=
  ⟨_, List.getElem?_eq_getElem (h.lt a (List.mem_of_getElem? ha))⟩

/-- The value at `k` is at home. -/
def Home (l : List (Nat × α)) (k : Nat) : Prop := ∃ a, l[k]? = some a ∧ a.1 = k

instance : Decidable (Home l k) :=
  match h : l[k]? with
  | none => isFalse fun ⟨a, ha, _⟩ => by rw [h] at ha; cases ha
  | some a =>
      if ha : a.1 = k then isTrue ⟨a, h, ha⟩
      else isFalse fun ⟨b, hb, hk⟩ => ha (Option.some.inj (h.symm.trans hb) ▸ hk)

/-- The value at `i` changes places with the one at its home. -/
def send (i : Nat) (l : List (Nat × α)) : List (Nat × α) :=
  match l[i]? with
  | none => l
  | some a =>
      match l[a.1]? with
      | none => l
      | some b => (l.set i b).set a.1 a

theorem send_eq (ha : l[i]? = some a) (hb : l[a.1]? = some b) :
    send i l = (l.set i b).set a.1 a := by
  rw [send, ha]
  simp only [hb]

theorem send_perm (ha : l[i]? = some a) (hb : l[a.1]? = some b) : (send i l).Perm l := by
  obtain ⟨hi, rfl⟩ := List.getElem?_eq_some_iff.mp ha
  obtain ⟨hj, rfl⟩ := List.getElem?_eq_some_iff.mp hb
  rw [send_eq ha hb]
  exact List.set_set_perm hi hj

/-- What is sent is at home then, and what was at home stays there. -/
theorem home_send (ha : l[i]? = some a) (hb : l[a.1]? = some b) (hne : a.1 ≠ i)
    (hk : Home l k ∨ k = a.1) : Home (send i l) k := by
  obtain ⟨hj, -⟩ := List.getElem?_eq_some_iff.mp hb
  rw [send_eq ha hb]
  by_cases hka : k = a.1
  · subst hka
    exact ⟨a, by rw [List.getElem?_set_self (by rwa [List.length_set])], rfl⟩
  · obtain ⟨c, hc, rfl⟩ := hk.resolve_right hka
    have hki : c.1 ≠ i := by
      intro he
      rw [he, ha] at hc
      obtain rfl := Option.some.inj hc
      exact hne he
    refine ⟨c, ?_, rfl⟩
    rw [List.getElem?_set_ne (Ne.symm hka), List.getElem?_set_ne (Ne.symm hki)]
    exact hc

/-- The home of a value that is not there yet is taken by another one. -/
theorem not_home (h : Homes l) (ha : l[i]? = some a) (hne : a.1 ≠ i) : ¬ Home l a.1 := by
  rintro ⟨c, hc, hhome⟩
  have hi : (l.map Prod.fst)[i]? = some a.1 := by rw [List.getElem?_map, ha]; rfl
  have hk : (l.map Prod.fst)[a.1]? = some a.1 := by
    rw [List.getElem?_map, hc]
    exact congrArg some hhome
  obtain ⟨hlt, -⟩ := List.getElem?_eq_some_iff.mp hi
  exact hne ((List.getElem?_inj hlt h.nodup).mp (hi.trans hk.symm)).symm

/-- How many values are not at home. -/
def away (l : List (Nat × α)) : Nat := ((Finset.range l.length).filter fun k => ¬ Home l k).card

theorem away_le (l : List (Nat × α)) : away l ≤ l.length :=
  (Finset.card_filter_le _ _).trans (Finset.card_range _).le

theorem away_send_lt (h : Homes l) (ha : l[i]? = some a) (hb : l[a.1]? = some b)
    (hne : a.1 ≠ i) : away (send i l) < away l := by
  have hlen := (send_perm ha hb).length_eq
  refine Finset.card_lt_card ⟨?_, ?_⟩
  · intro k hk
    rw [Finset.mem_filter, hlen] at hk
    exact Finset.mem_filter.mpr ⟨hk.1, fun hh => hk.2 (home_send ha hb hne (.inl hh))⟩
  · intro hsub
    obtain ⟨hj, -⟩ := List.getElem?_eq_some_iff.mp hb
    have hmem := hsub (Finset.mem_filter.mpr ⟨Finset.mem_range.mpr hj, not_home h ha hne⟩)
    exact (Finset.mem_filter.mp hmem).2 (home_send ha hb hne (.inr rfl))

/-- If all values are at home, each is found there. -/
theorem getElem?_of_home (h : ∀ k < l.length, Home l k) (ha : a ∈ l) : l[a.1]? = some a := by
  obtain ⟨j, hj⟩ := List.getElem?_of_mem ha
  obtain ⟨hlt, -⟩ := List.getElem?_eq_some_iff.mp hj
  obtain ⟨b, hb, hk⟩ := h j hlt
  obtain rfl := Option.some.inj (hj.symm.trans hb)
  rw [hk]
  exact hj

end CaLang.Placing

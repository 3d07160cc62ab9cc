import CaLang.Lib.Placing

/-! # The rearrangement of named fields

The loop of `walk_expr_struct` follows the cycles of the field order, and overwrites the order and
the values that it reads: **while a cycle is followed, the value that has been taken out stands at
the place where the cycle began**.  Seen so, each step sends one value home.
-/

namespace CaLang.Structs

open Placing

variable {V : Type}

/-- `while (tmpi != i)`, and the place where the cycle ends.  `fuel` bounds the steps. -/
def goHome (i : Nat) : Nat → List Nat → List V → Nat → V → Option (List Nat × List V)
  | 0, fieldorder, values, tmpi, tmpv =>
      if tmpi = i then some (fieldorder.set tmpi tmpi, values.set tmpi tmpv) else none
  | fuel + 1, fieldorder, values, tmpi, tmpv =>
      if tmpi = i then some (fieldorder.set tmpi tmpi, values.set tmpi tmpv)
      else
        match fieldorder[tmpi]?, values[tmpi]? with
        | some tmp, some tmpvi =>
            goHome i fuel (fieldorder.set tmpi tmpi) (values.set tmpi tmpv) tmp tmpvi
        | _, _ => none

/-- The loop over the positions `is`. -/
def rearrangeFrom (fuel : Nat) : List Nat → List Nat → List V → Option (List V)
  | [], _, values => some values
  | i :: is, fieldorder, values =>
      match fieldorder[i]?, values[i]? with
      | some tmpi, some tmpv =>
          if i = tmpi then rearrangeFrom fuel is fieldorder values
          else
            match goHome i fuel fieldorder values tmpi tmpv with
            | some (fieldorder, values) => rearrangeFrom fuel is fieldorder values
            | none => none
      | _, _ => none

/-- The values in the order of the declaration. -/
def rearrange (fuel : Nat) (fieldorder : List Nat) (values : List V) : Option (List V) :=
  rearrangeFrom fuel (List.range fieldorder.length) fieldorder values

variable {l : List (Nat × V)} {i fuel : Nat}

theorem goHome_eq {fieldorder : List Nat} {values : List V} {tmpi : Nat} {tmpv : V}
    (hl : Homes l) (hi : l[i]? = some (tmpi, tmpv)) (ho : fieldorder.set i tmpi = l.map Prod.fst)
    (hv : values.set i tmpv = l.map Prod.snd) (hfuel : away l ≤ fuel) :
    ∃ l', goHome i fuel fieldorder values tmpi tmpv = some (l'.map Prod.fst, l'.map Prod.snd) ∧
      l'.Perm l ∧ Home l' i ∧ ∀ k, Home l k → Home l' k := by
  induction fuel generalizing l fieldorder values tmpi tmpv with
  | zero =>
      by_cases hne : tmpi = i
      · subst hne
        refine ⟨l, ?_, .refl l, ⟨_, hi, rfl⟩, fun _ h => h⟩
        rw [goHome, if_pos rfl, ho, hv]
      · obtain ⟨b, hb⟩ := hl.getElem? hi
        exact absurd (away_send_lt hl hi hb hne) (by omega)
  | succ fuel ih =>
      by_cases hne : tmpi = i
      · subst hne
        refine ⟨l, ?_, .refl l, ⟨_, hi, rfl⟩, fun _ h => h⟩
        rw [goHome, if_pos rfl, ho, hv]
      · obtain ⟨⟨tmp, tmpvi⟩, hb⟩ := hl.getElem? hi
        have hotmp : fieldorder[tmpi]? = some tmp := by
          rw [← List.getElem?_set_ne (Ne.symm hne), ho, List.getElem?_map, hb]
          rfl
        have hvtmp : values[tmpi]? = some tmpvi := by
          rw [← List.getElem?_set_ne (Ne.symm hne), hv, List.getElem?_map, hb]
          rfl
        have hperm := send_perm hi hb
        have hsend := send_eq hi hb
        have hilt : i < l.length := (List.getElem?_eq_some_iff.mp hi).1
        have hi' : (send i l)[i]? = some (tmp, tmpvi) := by
          rw [hsend, List.getElem?_set_ne hne, List.getElem?_set_self hilt]
        have ho' : (fieldorder.set tmpi tmpi).set i tmp = (send i l).map Prod.fst := by
          rw [hsend, List.map_set, List.map_set, ← ho, List.set_set, List.set_comm _ _ hne]
        have hv' : (values.set tmpi tmpv).set i tmpvi = (send i l).map Prod.snd := by
          rw [hsend, List.map_set, List.map_set, ← hv, List.set_set, List.set_comm _ _ hne]
        obtain ⟨l', hgo, hp, hhome, hkeep⟩ := ih (hl.perm hperm) hi' ho' hv'
          (Nat.le_of_lt_succ (Nat.lt_of_lt_of_le (away_send_lt hl hi hb hne) hfuel))
        refine ⟨l', ?_, hp.trans hperm, hhome, ?_⟩
        · rw [goHome, if_neg hne, hotmp, hvtmp]
          exact hgo
        · intro k hk
          exact hkeep k (home_send hi hb hne (.inl hk))

theorem rearrangeFrom_eq {is : List Nat} (his : ∀ i ∈ is, i < l.length) (hl : Homes l)
    (hfuel : l.length ≤ fuel) :
    ∃ l', rearrangeFrom fuel is (l.map Prod.fst) (l.map Prod.snd) = some (l'.map Prod.snd) ∧
      l'.Perm l ∧ (∀ k, Home l k → Home l' k) ∧ ∀ i ∈ is, Home l' i := by
  induction is generalizing l with
  | nil => exact ⟨l, rfl, .refl l, fun _ h => h, nofun⟩
  | cons i is ih =>
      obtain ⟨⟨tmpi, tmpv⟩, hi⟩ : ∃ a, l[i]? = some a :=
        ⟨_, List.getElem?_eq_getElem (his i List.mem_cons_self)⟩
      have hrest : ∀ i ∈ is, i < l.length := fun j hj => his j (List.mem_cons_of_mem _ hj)
      have ho : (l.map Prod.fst)[i]? = some tmpi := by rw [List.getElem?_map, hi]; rfl
      have hv : (l.map Prod.snd)[i]? = some tmpv := by rw [List.getElem?_map, hi]; rfl
      rw [rearrangeFrom, ho, hv]
      by_cases hne : i = tmpi
      · subst hne
        simp only [if_true]
        obtain ⟨l', hre, hp, hkeep, hhome⟩ := ih hrest hl hfuel
        refine ⟨l', hre, hp, hkeep, ?_⟩
        intro j hj
        rcases List.mem_cons.mp hj with rfl | hj
        · exact hkeep j ⟨_, hi, rfl⟩
        · exact hhome j hj
      · have hset {β : Type} {f : Nat × V → β} {b : β} (h : (l.map f)[i]? = some b) :
            (l.map f).set i b = l.map f := by
          obtain ⟨hlt, rfl⟩ := List.getElem?_eq_some_iff.mp h
          exact List.set_getElem_self hlt
        obtain ⟨l₁, hgo, hp₁, hhome₁, hkeep₁⟩ := goHome_eq hl hi (hset ho) (hset hv)
          (Nat.le_trans (away_le l) hfuel)
        have hlen := hp₁.length_eq
        obtain ⟨l', hre, hp, hkeep, hhome⟩ := ih (fun j hj => hlen ▸ hrest j hj) (hl.perm hp₁)
          (hlen ▸ hfuel)
        simp only [if_neg hne, hgo]
        refine ⟨l', hre, hp.trans hp₁, fun k hk => hkeep k (hkeep₁ k hk), ?_⟩
        intro j hj
        rcases List.mem_cons.mp hj with rfl | hj
        · exact hkeep j hhome₁
        · exact hhome j hj

/-- The loop ends, with every value at the position where it belongs. -/
theorem rearrange_eq {fieldorder : List Nat} {values : List V} (hl : Homes (fieldorder.zip values))
    (hlen : fieldorder.length = values.length) (hfuel : fieldorder.length ≤ fuel) :
    ∃ values', rearrange fuel fieldorder values = some values' ∧ values'.Perm values ∧
      ∀ k v, (k, v) ∈ fieldorder.zip values → values'[k]? = some v := by
  have hziplen : (fieldorder.zip values).length = fieldorder.length := by
    rw [List.length_zip, hlen, Nat.min_self]
  have hrange : ∀ i ∈ List.range fieldorder.length, i < (fieldorder.zip values).length :=
    fun i hi => hziplen.symm ▸ List.mem_range.mp hi
  obtain ⟨l', hre, hp, -, hhome⟩ := rearrangeFrom_eq hrange hl (hziplen.symm ▸ hfuel)
  rw [List.map_fst_zip (Nat.le_of_eq hlen), List.map_snd_zip (Nat.le_of_eq hlen.symm)] at hre
  refine ⟨l'.map Prod.snd, hre, ?_, ?_⟩
  · have := hp.map Prod.snd
    rwa [List.map_snd_zip (Nat.le_of_eq hlen.symm)] at this
  · intro k v hk
    have hall : ∀ k < l'.length, Home l' k := fun k hk =>
      hhome k (List.mem_range.mpr (by rwa [hp.length_eq, hziplen] at hk))
    rw [List.getElem?_map, getElem?_of_home hall (hp.mem_iff.mpr hk)]
    rfl

end CaLang.Structs

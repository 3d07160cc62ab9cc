import Mathlib.Data.List.Sort

/-! # Maps in the order of their keys

A map is the list of its entries, **the keys going up**, so that a loop over the map meets every key
once and in order.  `alter` puts a value under a key, from the one that is there; `insert` keeps the
one that is there.

Two such lists of keys are compared in one run along both (`difference`).
-/

namespace CaLang

/-- A map from keys to values, in the order of the keys. -/
structure Ordered (κ α : Type) [LinearOrder κ] where
  entries : List (κ × α)
  sorted : (entries.map Prod.fst).Pairwise (· < ·)

namespace Ordered

variable {κ α : Type} [LinearOrder κ]

def empty : Ordered κ α := ⟨[], .nil⟩

def keys (m : Ordered κ α) : List κ := m.entries.map Prod.fst

def find (m : Ordered κ α) (k : κ) : Option α := m.entries.lookup k

/-- The entries with `f` of the value under `k` in its place. -/
def alterEntries (k : κ) (f : Option α → α) : List (κ × α) → List (κ × α)
  | [] => [(k, f none)]
  | (k', a) :: es =>
      if k < k' then (k, f none) :: (k', a) :: es
      else if k = k' then (k, f (some a)) :: es
      else (k', a) :: alterEntries k f es

variable {k k' : κ} {a b : α} {f : Option α → α} {es : List (κ × α)} {m : Ordered κ α}

theorem lookup_of_lt (h : ∀ k' ∈ es.map Prod.fst, k < k') : es.lookup k = none := by
  induction es with
  | nil => rfl
  | cons e es ih =>
      obtain ⟨k', a⟩ := e
      rw [List.map_cons, List.forall_mem_cons] at h
      rw [List.lookup_cons, beq_false_of_ne h.1.ne]
      exact ih h.2

theorem mem_keys_alterEntries :
    k' ∈ (alterEntries k f es).map Prod.fst ↔ k' = k ∨ k' ∈ es.map Prod.fst := by
  induction es with
  | nil => simp [alterEntries]
  | cons e es ih =>
      obtain ⟨k'', a⟩ := e
      by_cases hlt : k < k''
      · rw [alterEntries, if_pos hlt]
        simp
      · by_cases hk : k = k''
        · subst hk
          rw [alterEntries, if_neg hlt, if_pos rfl]
          simp
        · rw [alterEntries, if_neg hlt, if_neg hk, List.map_cons, List.mem_cons, ih, List.map_cons,
            List.mem_cons]
          tauto

theorem sorted_alterEntries (h : (es.map Prod.fst).Pairwise (· < ·)) :
    ((alterEntries k f es).map Prod.fst).Pairwise (· < ·) := by
  induction es with
  | nil => exact List.pairwise_singleton _ _
  | cons e es ih =>
      obtain ⟨k', a⟩ := e
      have hcons := h
      rw [List.map_cons, List.pairwise_cons] at h
      obtain ⟨hk', hes⟩ := h
      by_cases hlt : k < k'
      · rw [alterEntries, if_pos hlt, List.map_cons, List.pairwise_cons]
        refine ⟨?_, hcons⟩
        intro k'' hmem
        rcases List.mem_cons.mp hmem with rfl | hmem
        · exact hlt
        · exact hlt.trans (hk' k'' hmem)
      · by_cases hk : k = k'
        · subst hk
          rw [alterEntries, if_neg hlt, if_pos rfl]
          exact hcons
        · rw [alterEntries, if_neg hlt, if_neg hk, List.map_cons, List.pairwise_cons]
          refine ⟨?_, ih hes⟩
          intro k'' hmem
          rcases mem_keys_alterEntries.mp hmem with rfl | hmem
          · exact lt_of_le_of_ne (not_lt.mp hlt) fun h => hk h.symm
          · exact hk' k'' hmem

/-- The map with `f` of the value under `k` in its place. -/
def alter (m : Ordered κ α) (k : κ) (f : Option α → α) : Ordered κ α :=
  ⟨alterEntries k f m.entries, sorted_alterEntries m.sorted⟩

/-- `std::map::insert`: a value that is there already stays. -/
def insert (m : Ordered κ α) (k : κ) (a : α) : Ordered κ α := m.alter k fun old => old.getD a

@[simp] theorem find_empty : (empty : Ordered κ α).find k = none := rfl

theorem lookup_alterEntries_self (h : (es.map Prod.fst).Pairwise (· < ·)) :
    (alterEntries k f es).lookup k = some (f (es.lookup k)) := by
  induction es with
  | nil => rw [alterEntries, List.lookup_cons_self, List.lookup_nil]
  | cons e es ih =>
      obtain ⟨k', a⟩ := e
      have hcons := h
      rw [List.map_cons, List.pairwise_cons] at h
      obtain ⟨hk', hes⟩ := h
      by_cases hlt : k < k'
      · have hno : ((k', a) :: es).lookup k = none := by
          apply lookup_of_lt
          intro k'' hmem
          rcases List.mem_cons.mp hmem with rfl | hmem
          · exact hlt
          · exact hlt.trans (hk' k'' hmem)
        rw [alterEntries, if_pos hlt, List.lookup_cons_self, hno]
      · by_cases hk : k = k'
        · subst hk
          rw [alterEntries, if_neg hlt, if_pos rfl, List.lookup_cons_self, List.lookup_cons_self]
        · rw [alterEntries, if_neg hlt, if_neg hk, List.lookup_cons, List.lookup_cons,
            beq_false_of_ne hk]
          exact ih hes

theorem lookup_alterEntries_ne (h : k' ≠ k) :
    (alterEntries k f es).lookup k' = es.lookup k' := by
  have hne : (k' == k) = false := beq_false_of_ne h
  induction es with
  | nil => rw [alterEntries, List.lookup_cons, hne]
  | cons e es ih =>
      obtain ⟨k'', a⟩ := e
      by_cases hlt : k < k''
      · rw [alterEntries, if_pos hlt, List.lookup_cons, hne]
      · by_cases hk : k = k''
        · subst hk
          rw [alterEntries, if_neg hlt, if_pos rfl, List.lookup_cons, List.lookup_cons, hne]
        · rw [alterEntries, if_neg hlt, if_neg hk, List.lookup_cons, List.lookup_cons, ih]

@[simp] theorem find_alter_self : (m.alter k f).find k = some (f (m.find k)) :=
  lookup_alterEntries_self m.sorted

theorem find_alter_ne (h : k' ≠ k) : (m.alter k f).find k' = m.find k' :=
  lookup_alterEntries_ne h

@[simp] theorem find_insert_self : (m.insert k a).find k = some ((m.find k).getD a) :=
  find_alter_self

theorem find_insert_ne (h : k' ≠ k) : (m.insert k a).find k' = m.find k' := find_alter_ne h

theorem mem_keys_insert : k' ∈ (m.insert k a).keys ↔ k' = k ∨ k' ∈ m.keys :=
  mem_keys_alterEntries

/-- **The entries of a map are what it finds.** -/
theorem mem_entries_iff : (k, a) ∈ m.entries ↔ m.find k = some a := by
  obtain ⟨es, hs⟩ := m
  unfold find
  induction es with
  | nil => simp
  | cons e es ih =>
      obtain ⟨k', b⟩ := e
      rw [List.map_cons, List.pairwise_cons] at hs
      by_cases hk : k = k'
      · subst hk
        have hno : (k, a) ∉ es := fun hmem =>
          (hs.1 k (List.mem_map.mpr ⟨(k, a), hmem, rfl⟩)).ne rfl
        rw [List.mem_cons, List.lookup_cons_self, Option.some.injEq, Prod.mk.injEq]
        exact ⟨fun h => h.elim (fun h => h.2.symm) fun h => absurd h hno,
          fun h => Or.inl ⟨rfl, h.symm⟩⟩
      · rw [List.mem_cons, List.lookup_cons, beq_false_of_ne hk, Prod.mk.injEq]
        exact ⟨fun h => h.elim (fun h => absurd h.1 hk) (ih hs.2).mp,
          fun h => Or.inr ((ih hs.2).mpr h)⟩

theorem mem_keys_iff : k ∈ m.keys ↔ (m.find k).isSome := by
  rw [keys, List.mem_map, Option.isSome_iff_exists]
  constructor
  · rintro ⟨⟨k', a⟩, hmem, rfl⟩
    exact ⟨a, mem_entries_iff.mp hmem⟩
  · rintro ⟨a, h⟩
    exact ⟨(k, a), mem_entries_iff.mpr h, rfl⟩

/-- **Entries in the order of their keys are settled by what they are.** -/
theorem entries_ext {es es' : List (κ × α)} (h : (es.map Prod.fst).Pairwise (· < ·))
    (h' : (es'.map Prod.fst).Pairwise (· < ·)) (hmem : ∀ k a, (k, a) ∈ es ↔ (k, a) ∈ es') :
    es = es' := by
  have : Std.Irrefl (fun e e' : κ × α => e.1 < e'.1) := ⟨fun e => lt_irrefl e.1⟩
  have : Std.Antisymm (fun e e' : κ × α => e.1 < e'.1) :=
    ⟨fun e e' h h' => absurd h' h.asymm⟩
  exact (List.pairwise_map.mp h).eq_of_mem_iff (List.pairwise_map.mp h') fun ⟨k, a⟩ => hmem k a

end Ordered

/-! ### Keys that only one list has -/

section Difference

variable {κ : Type} [LinearOrder κ]

/-- The keys of the first list that are not in the second, by one run along both. -/
def difference : List κ → List κ → List κ
  | [], _ => []
  | k :: ks, [] => k :: ks
  | k :: ks, l :: ls =>
      if k < l then k :: difference ks (l :: ls)
      else if k = l then difference ks ls
      else difference (k :: ks) ls
  termination_by ks ls => ks.length + ls.length

/-- **The run along both lists leaves out just the keys of the second.** -/
theorem difference_eq_filter {ks ls : List κ} (hks : ks.Pairwise (· < ·))
    (hls : ls.Pairwise (· < ·)) : difference ks ls = ks.filter (· ∉ ls) := by
  induction ks, ls using difference.induct with
  | case1 ls => rw [difference, List.filter_nil]
  | case2 k ks => simp [difference]
  | case3 k ks l ls hlt ih =>
      rw [difference, if_pos hlt, ih hks.of_cons hls]
      -- the keys of the second list are all larger
      have hno : k ∉ l :: ls := by
        intro hmem
        rcases List.mem_cons.mp hmem with rfl | hmem
        · exact lt_irrefl _ hlt
        · exact lt_asymm hlt (List.rel_of_pairwise_cons hls hmem)
      rw [List.filter_cons_of_pos (by simpa using hno)]
  | case4 ks k ls hlt ih =>
      rw [difference, if_neg hlt, if_pos rfl, ih hks.of_cons hls.of_cons,
        List.filter_cons_of_neg (by simp)]
      apply List.filter_congr
      intro k' hmem
      have hne : k' ≠ k := (List.rel_of_pairwise_cons hks hmem).ne'
      simp [hne]
  | case5 k ks l ls hlt hne ih =>
      rw [difference, if_neg hlt, if_neg hne, ih hks hls.of_cons]
      have hlk : l < k := lt_of_le_of_ne (not_lt.mp hlt) fun h => hne h.symm
      apply List.filter_congr
      intro k' hmem
      have hne' : k' ≠ l := by
        rcases List.mem_cons.mp hmem with rfl | hmem
        · exact hlk.ne'
        · exact (hlk.trans (List.rel_of_pairwise_cons hks hmem)).ne'
      simp [hne']

end Difference

end CaLang

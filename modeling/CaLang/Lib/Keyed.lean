import Mathlib.Data.List.Nodup

/-! # Maps by their entries

A map is the list of its entries, in which **no key stands twice**. `alter` puts a value under a
key, from the one that is there; `insert` keeps the one that is there. A loop over the map reads
`entries`, in an order that no lemma here speaks about.
-/

namespace CaLang

/-- A map from keys to values. -/
structure Keyed (κ α : Type) where
  entries : List (κ × α)
  nodup : (entries.map Prod.fst).Nodup

namespace Keyed

variable {κ α : Type} [DecidableEq κ]

def empty : Keyed κ α := ⟨[], List.nodup_nil⟩

def find (m : Keyed κ α) (k : κ) : Option α := m.entries.lookup k

/-- The entries with `f` of the value under `k` in its place. -/
def alterEntries (k : κ) (f : Option α → α) : List (κ × α) → List (κ × α)
  | [] => [(k, f none)]
  | (k', a) :: es => if k' = k then (k, f (some a)) :: es else (k', a) :: alterEntries k f es

variable {k k' : κ} {a b : α} {f : Option α → α} {es : List (κ × α)} {m : Keyed κ α}

theorem lookup_alterEntries_self :
    (alterEntries k f es).lookup k = some (f (es.lookup k)) := by
  induction es with
  | nil => rw [alterEntries, List.lookup_cons_self, List.lookup_nil]
  | cons e es ih =>
      obtain ⟨k', a⟩ := e
      by_cases hk : k' = k
      · subst hk
        rw [alterEntries, if_pos rfl, List.lookup_cons_self, List.lookup_cons_self]
      · have hne : (k == k') = false := beq_false_of_ne fun h => hk h.symm
        rw [alterEntries, if_neg hk, List.lookup_cons, List.lookup_cons, hne]
        exact ih

theorem lookup_alterEntries_ne (h : k' ≠ k) :
    (alterEntries k f es).lookup k' = es.lookup k' := by
  have hne : (k' == k) = false := beq_false_of_ne h
  induction es with
  | nil => rw [alterEntries, List.lookup_cons, hne]
  | cons e es ih =>
      obtain ⟨k'', a⟩ := e
      by_cases hk : k'' = k
      · subst hk
        rw [alterEntries, if_pos rfl, List.lookup_cons, List.lookup_cons, hne]
      · rw [alterEntries, if_neg hk, List.lookup_cons, List.lookup_cons, ih]

theorem mem_keys_alterEntries :
    k' ∈ (alterEntries k f es).map Prod.fst ↔ k' = k ∨ k' ∈ es.map Prod.fst := by
  induction es with
  | nil => simp [alterEntries]
  | cons e es ih =>
      obtain ⟨k'', a⟩ := e
      by_cases hk : k'' = k
      · subst hk
        rw [alterEntries, if_pos rfl]
        simp
      · rw [alterEntries, if_neg hk, List.map_cons, List.mem_cons, ih, List.map_cons,
          List.mem_cons]
        tauto

theorem nodup_alterEntries (h : (es.map Prod.fst).Nodup) :
    ((alterEntries k f es).map Prod.fst).Nodup := by
  induction es with
  | nil => exact List.nodup_singleton k
  | cons e es ih =>
      obtain ⟨k', a⟩ := e
      obtain ⟨hk', hes⟩ := List.nodup_cons.mp h
      by_cases hk : k' = k
      · subst hk
        rw [alterEntries, if_pos rfl]
        exact List.nodup_cons.mpr ⟨hk', hes⟩
      · rw [alterEntries, if_neg hk]
        refine List.nodup_cons.mpr ⟨?_, ih hes⟩
        intro hmem
        exact (mem_keys_alterEntries.mp hmem).elim hk hk'

/-- The map with `f` of the value under `k` in its place. -/
def alter (m : Keyed κ α) (k : κ) (f : Option α → α) : Keyed κ α :=
  ⟨alterEntries k f m.entries, nodup_alterEntries m.nodup⟩

/-- `std::map::insert`: a value that is there already stays. -/
def insert (m : Keyed κ α) (k : κ) (a : α) : Keyed κ α := m.alter k fun old => old.getD a

@[simp] theorem find_empty : (empty : Keyed κ α).find k = none := rfl

@[simp] theorem find_alter_self : (m.alter k f).find k = some (f (m.find k)) :=
  lookup_alterEntries_self

theorem find_alter_ne (h : k' ≠ k) : (m.alter k f).find k' = m.find k' :=
  lookup_alterEntries_ne h

@[simp] theorem find_insert_self : (m.insert k a).find k = some ((m.find k).getD a) :=
  find_alter_self

theorem find_insert_ne (h : k' ≠ k) : (m.insert k a).find k' = m.find k' := find_alter_ne h

/-- **The entries of a map are what it finds.** -/
theorem mem_entries_iff : (k, a) ∈ m.entries ↔ m.find k = some a := by
  obtain ⟨es, hnd⟩ := m
  unfold find
  induction es with
  | nil => simp
  | cons e es ih =>
      obtain ⟨k', b⟩ := e
      obtain ⟨hk', hes⟩ := List.nodup_cons.mp hnd
      by_cases hk : k = k'
      · subst hk
        have hno : (k, a) ∉ es := fun hmem => hk' (List.mem_map.mpr ⟨(k, a), hmem, rfl⟩)
        rw [List.mem_cons, List.lookup_cons_self, Option.some.injEq, Prod.mk.injEq]
        exact ⟨fun h => h.elim (fun h => h.2.symm) fun h => absurd h hno,
          fun h => Or.inl ⟨rfl, h.symm⟩⟩
      · have hne : (k == k') = false := beq_false_of_ne hk
        rw [List.mem_cons, List.lookup_cons, hne, Prod.mk.injEq]
        exact ⟨fun h => h.elim (fun h => absurd h.1 hk) (ih hes).mp,
          fun h => Or.inr ((ih hes).mpr h)⟩

end Keyed

end CaLang

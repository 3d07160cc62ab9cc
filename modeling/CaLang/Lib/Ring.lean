import Mathlib.Data.List.Rotate

/-! # A list of items with a moving current one

`Ring` keeps one item apart as the *current* one and the others in a list.  `push` makes a new
item current and sends the old one to the end of the list.  `forward` appends the current item
and takes the first of the list; `back` puts the current item first and takes the last.

Read as the list `rest ++ [current]`, a push appends and a forward turn is `List.rotate 1`, so
after `k` turns of a ring of `n` items the current one is the `k`-th, after `n` turns the ring is
the one it was, and a turn back undoes a turn forward.
-/

namespace CaLang

/-- A current item and the others, oldest first. -/
structure Ring (α : Type) where
  current : α
  rest : List α
deriving DecidableEq, Repr

namespace Ring

variable {α β : Type}

/-- All items, the current one last. -/
def toList (r : Ring α) : List α := r.rest ++ [r.current]

/-- A new current item. -/
def push (r : Ring α) (a : α) : Ring α := ⟨a, r.rest ++ [r.current]⟩

def forward : Ring α → Ring α
  | ⟨c, []⟩ => ⟨c, []⟩
  | ⟨c, a :: l⟩ => ⟨a, l ++ [c]⟩

def back : Ring α → Ring α
  | ⟨c, []⟩ => ⟨c, []⟩
  | ⟨c, a :: l⟩ => ⟨(a :: l).getLast (by simp), c :: (a :: l).dropLast⟩

/-- Overwrite the current item. -/
def modify (r : Ring α) (f : α → α) : Ring α := { r with current := f r.current }

def map (f : α → β) (r : Ring α) : Ring β := ⟨f r.current, r.rest.map f⟩

theorem toList_inj {r s : Ring α} : r.toList = s.toList ↔ r = s := by
  obtain ⟨c, l⟩ := r
  obtain ⟨d, m⟩ := s
  simp only [toList, mk.injEq]
  constructor
  · intro h
    obtain ⟨hl, hc⟩ := List.append_inj' h rfl
    exact ⟨by simpa using hc, hl⟩
  · rintro ⟨rfl, rfl⟩
    rfl

@[simp] theorem toList_ne_nil (r : Ring α) : r.toList ≠ [] := by simp [toList]

@[simp] theorem length_toList_pos (r : Ring α) : 0 < r.toList.length := by simp [toList]

@[simp] theorem toList_push (r : Ring α) (a : α) : (r.push a).toList = r.toList ++ [a] := rfl

@[simp] theorem toList_map (f : α → β) (r : Ring α) : (r.map f).toList = r.toList.map f := by
  simp [toList, map]

/-- **A forward turn rotates the list by one.** -/
theorem toList_forward (r : Ring α) : r.forward.toList = r.toList.rotate 1 := by
  obtain ⟨c, l⟩ := r
  cases l with
  | nil => simp [forward, toList]
  | cons a l => simp [forward, toList]

/-- **A turn back undoes a forward turn.** -/
@[simp] theorem back_forward (r : Ring α) : r.forward.back = r := by
  obtain ⟨c, l⟩ := r
  cases l with
  | nil => rfl
  | cons a l =>
      cases l with
      | nil => rfl
      | cons b l =>
          have hdrop : (b :: (l ++ [c])).dropLast = b :: l := by
            rw [← List.cons_append, List.dropLast_concat]
          simp [forward, back, hdrop]

@[simp] theorem forward_back (r : Ring α) : r.back.forward = r := by
  obtain ⟨c, l⟩ := r
  cases l with
  | nil => rfl
  | cons a l => simp [forward, back, List.dropLast_append_getLast]

/-! ### A ring after a number of turns -/

/-- The ring is the list `l`, newest last, turned forward `k` times. -/
def Turned (r : Ring α) (l : List α) (k : Nat) : Prop := r.toList = l.rotate k

theorem turned_toList (r : Ring α) : r.Turned r.toList 0 := by simp [Turned]

theorem Turned.ne_nil {r : Ring α} {l : List α} {k : Nat} (h : r.Turned l k) : l ≠ [] := by
  rintro rfl
  simp [Turned] at h

theorem Turned.forward {r : Ring α} {l : List α} {k : Nat} (h : r.Turned l k) :
    r.forward.Turned l (k + 1) := by
  rw [Turned, toList_forward, h, List.rotate_rotate]

theorem Turned.back {r : Ring α} {l : List α} {k : Nat} (h : r.Turned l (k + 1)) :
    r.back.Turned l k := by
  rw [Turned, ← List.rotate_eq_rotate (n := 1), ← toList_forward, forward_back,
    List.rotate_rotate]
  exact h

/-- **After all turns** the ring is back where it was. -/
theorem Turned.full {r : Ring α} {l : List α} (h : r.Turned l l.length) : r.Turned l 0 := by
  rw [Turned, h, List.rotate_length, List.rotate_zero]

/-- **After `k + 1` turns** the current item is the one at index `k`. -/
theorem Turned.current {r : Ring α} {l : List α} {k : Nat} (h : r.Turned l (k + 1))
    (hk : k < l.length) : r.current = l[k] := by
  have hlast : r.toList.getLast? = some r.current := by simp [toList]
  rw [h, List.rotate_eq_drop_append_take (by omega), List.take_succ_eq_append_getElem hk,
    ← List.append_assoc, List.getLast?_concat] at hlast
  simpa using hlast.symm

/-- Before any turn the current item is the last. -/
theorem Turned.current_zero {r : Ring α} {l : List α} (h : r.Turned l 0) :
    l.getLast? = some r.current := by
  rw [Turned, List.rotate_zero] at h
  simp [← h, toList]

/-- Overwriting the current item overwrites the item at the current index. -/
theorem Turned.modify {r : Ring α} {l : List α} {k : Nat} (h : r.Turned l (k + 1))
    (hk : k < l.length) (f : α → α) : (r.modify f).Turned (l.set k (f l[k])) (k + 1) := by
  have hc := h.current hk
  have hr : r.rest = l.drop (k + 1) ++ l.take k := by
    rw [Turned, List.rotate_eq_drop_append_take (by omega),
      List.take_succ_eq_append_getElem hk, ← List.append_assoc, toList] at h
    exact (List.append_inj' h rfl).1
  rw [Turned, List.rotate_eq_drop_append_take (by simp; omega),
    List.take_succ_eq_append_getElem (by simpa using hk)]
  simp [toList, Ring.modify, hr, hc, List.drop_set, List.take_set,
    List.set_eq_of_length_le (l.length_take_le k)]

end Ring

end CaLang

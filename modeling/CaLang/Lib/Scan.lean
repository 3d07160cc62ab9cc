import Mathlib.Data.List.TakeDrop

/-! # Scanning a text

A scanner that takes characters while a predicate holds takes exactly the printed word, when the
text behind it does not go on with such a character.
-/

namespace CaLang

/-- The text does not start with a character that `p` takes. -/
def StopsAt (p : Char → Bool) (rest : List Char) : Prop := ∀ c ∈ rest.head?, p c = false

theorem stopsAt_nil (p : Char → Bool) : StopsAt p [] := fun _ h => by cases h

theorem stopsAt_cons {p : Char → Bool} {c : Char} (rest : List Char) (h : p c = false) :
    StopsAt p (c :: rest) := by
  intro d hd
  cases hd
  exact h

theorem span_append {p : Char → Bool} {w r : List Char} (hw : ∀ c ∈ w, p c = true)
    (hr : StopsAt p r) : (w ++ r).span p = (w, r) := by
  rw [List.span_eq_takeWhile_dropWhile]
  have hdrop : r.dropWhile p = r := by
    cases r with
    | nil => rfl
    | cons c r => rw [List.dropWhile_cons, if_neg (by simp [hr c rfl])]
  have htake : r.takeWhile p = [] := by
    cases r with
    | nil => rfl
    | cons c r => rw [List.takeWhile_cons, if_neg (by simp [hr c rfl])]
  rw [List.takeWhile_append_of_pos hw, List.dropWhile_append_of_pos hw, hdrop, htake,
    List.append_nil]

end CaLang

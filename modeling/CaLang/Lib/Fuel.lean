/-! # Runs with fuel

A function that takes fuel settles on `x` when it yields `x` for every large enough fuel.
**What a function settles on is unique, and runs that settle compose**: a bind settles on the bind
of what its parts settle on.
-/

namespace CaLang

variable {ε α β : Type}

/-- A run of two steps. -/
theorem except_bind_eq_ok {x : Except ε α} {f : α → Except ε β} {b : β}
    (h : (x >>= f) = .ok b) : ∃ a, x = .ok a ∧ f a = .ok b := by
  cases x with
  | error e => cases h
  | ok a => exact ⟨a, rfl, h⟩

/-- A second step that always succeeds. -/
theorem except_bind_ok_eq_error {x : Except ε α} {f : α → β} {e : ε} :
    (x >>= fun a => (.ok (f a) : Except ε β)) = .error e ↔ x = .error e := by
  cases x with
  | error e' =>
      constructor
      · intro h
        exact congrArg _ (Except.error.inj h)
      · intro h
        exact congrArg _ (Except.error.inj h)
  | ok a =>
      constructor
      · intro h
        cases h
      · intro h
        cases h

/-- `run` yields `x` from some fuel on. -/
def Settles (run : Nat → α) (x : α) : Prop := ∃ N, ∀ k, N ≤ k → run k = x

namespace Settles

variable {run : Nat → α} {x y : α}

theorem const (x : α) : Settles (fun _ => x) x := ⟨0, fun _ _ => rfl⟩

theorem congr {run' : Nat → α} (h : Settles run x) (he : ∀ k, run' k = run k) : Settles run' x := by
  obtain ⟨N, hN⟩ := h
  exact ⟨N, fun k hk => (he k).trans (hN k hk)⟩

/-- A run that starts by spending one unit of fuel. -/
theorem step {run' : Nat → α} (h : Settles run x) (he : ∀ k, run' (k + 1) = run k) :
    Settles run' x := by
  obtain ⟨N, hN⟩ := h
  refine ⟨N + 1, ?_⟩
  intro k hk
  obtain ⟨m, rfl⟩ : ∃ m, k = m + 1 := ⟨k - 1, by omega⟩
  rw [he m]
  exact hN m (by omega)

theorem unique (hx : Settles run x) (hy : Settles run y) : x = y := by
  obtain ⟨N, hN⟩ := hx
  obtain ⟨M, hM⟩ := hy
  rw [← hN (max N M) (Nat.le_max_left ..), hM (max N M) (Nat.le_max_right ..)]

/-- The rule of sequencing. -/
theorem bind {f : Nat → Except ε α} {g : α → Nat → Except ε β} {x : Except ε α}
    {y : α → Except ε β} (hf : Settles f x) (hg : ∀ a, x = .ok a → Settles (g a) (y a)) :
    Settles (fun k => f k >>= fun a => g a k) (x >>= y) := by
  obtain ⟨N, hN⟩ := hf
  cases x with
  | error e =>
      refine ⟨N, ?_⟩
      intro k hk
      simp only [hN k hk]
      rfl
  | ok a =>
      obtain ⟨M, hM⟩ := hg a rfl
      refine ⟨max N M, ?_⟩
      intro k hk
      simp only [hN k (by omega)]
      exact hM k (by omega)

theorem bind_ok {f : Nat → Except ε α} {g : α → Nat → Except ε β} {a : α} {y : Except ε β}
    (hf : Settles f (.ok a)) (hg : Settles (g a) y) :
    Settles (fun k => f k >>= fun a => g a k) y :=
  hf.bind (y := fun _ => y) fun b hb => by
    cases hb
    exact hg

end Settles

end CaLang

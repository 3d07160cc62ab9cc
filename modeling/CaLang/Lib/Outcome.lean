import Mathlib.Init

/-! # Postconditions of runs that may stop early

A run in `Except ε` either ends with a result or stops with what it had.  `Outcome r ok stop`
says that the result satisfies `ok`, or what is left of a stopped run satisfies `stop`.
-/

namespace CaLang

variable {ε α β : Type}

/-- `ok` of the result of a run, `stop` of what a stopped run leaves. -/
def Outcome (r : Except ε α) (ok : α → Prop) (stop : ε → Prop) : Prop :=
  match r with
  | .ok a => ok a
  | .error e => stop e

namespace Outcome

variable {ok : α → Prop} {ok' : β → Prop} {stop : ε → Prop}

/-- **The rule of sequencing.** -/
theorem bind {r : Except ε α} {f : α → Except ε β} (h : Outcome r ok stop)
    (hf : ∀ a, ok a → Outcome (f a) ok' stop) : Outcome (r >>= f) ok' stop := by
  cases r with
  | ok a => exact hf a h
  | error e => exact h

/-- The rule of consequence. -/
theorem imp {ok₁ ok₂ : α → Prop} {r : Except ε α} (h : Outcome r ok₁ stop)
    (hi : ∀ a, ok₁ a → ok₂ a) : Outcome r ok₂ stop := by
  cases r with
  | ok a => exact hi a h
  | error e => exact h

end Outcome

end CaLang

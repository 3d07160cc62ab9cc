import Mathlib.Data.List.TakeDrop

/-! # Scanners of the longest match

Regular expressions over an alphabet whose letters are given by sets, their derivatives, and a
scanner: of all rules that are active **the one with the longest match is taken, of several the
first one**.  A rule may ask for one more letter behind its text, which counts for the length of the
match and is not consumed.

- `Regex`, `Regex.Matches`: the expressions and the texts that they match;
- `Regex.longest`: the length of the longest match, by derivatives;
- `Rule`, `scan`: the rule that is taken, and its text (`scan_eq_some`);
- `Regex.avoids`: no match holds a certain letter (`Matches.notMem_of_avoids`).
-/

namespace CaLang.Flex

variable {α : Type}

inductive Regex (α : Type)
  | empty
  | eps
  | set (p : α → Bool)
  | seq (r r' : Regex α)
  | alt (r r' : Regex α)
  | star (r : Regex α)

namespace Regex

/-- The texts that an expression matches. -/
inductive Matches : Regex α → List α → Prop
  | eps : Matches eps []
  | set {p : α → Bool} {a : α} (h : p a = true) : Matches (set p) [a]
  | seq {r r' : Regex α} {s s' : List α} (h : Matches r s) (h' : Matches r' s') :
      Matches (seq r r') (s ++ s')
  | altLeft {r r' : Regex α} {s : List α} (h : Matches r s) : Matches (alt r r') s
  | altRight {r r' : Regex α} {s : List α} (h : Matches r' s) : Matches (alt r r') s
  | starNil {r : Regex α} : Matches (star r) []
  | starCons {r : Regex α} {s s' : List α} (h : Matches r s) (h' : Matches (star r) s') :
      Matches (star r) (s ++ s')

/-- One or more. -/
def plus (r : Regex α) : Regex α := .seq r (.star r)

def opt (r : Regex α) : Regex α := .alt r .eps

/-- The letters of a word, one behind the other. -/
def word [DecidableEq α] : List α → Regex α
  | [] => .eps
  | [a] => .set (· = a)
  | a :: w => .seq (.set (· = a)) (word w)

/-- The empty text is matched. -/
def nullable : Regex α → Bool
  | .empty | .set _ => false
  | .eps | .star _ => true
  | .seq r r' => r.nullable && r'.nullable
  | .alt r r' => r.nullable || r'.nullable

/-- What is left to match behind a letter. -/
def deriv (a : α) : Regex α → Regex α
  | .empty | .eps => .empty
  | .set p => if p a then .eps else .empty
  | .seq r r' =>
      if r.nullable then .alt (.seq (r.deriv a) r') (r'.deriv a) else .seq (r.deriv a) r'
  | .alt r r' => .alt (r.deriv a) (r'.deriv a)
  | .star r => .seq (r.deriv a) (.star r)

theorem matches_nil_of_nullable {r : Regex α} (h : r.nullable = true) : Matches r [] := by
  induction r with
  | empty | set => cases h
  | eps => exact .eps
  | star => exact .starNil
  | seq r r' ih ih' =>
      rw [nullable, Bool.and_eq_true] at h
      exact .seq (s := []) (ih h.1) (ih' h.2)
  | alt r r' ih ih' =>
      rw [nullable, Bool.or_eq_true] at h
      exact h.elim (fun h => .altLeft (ih h)) fun h => .altRight (ih' h)

theorem matches_of_deriv {a : α} {r : Regex α} {s : List α} (h : Matches (r.deriv a) s) :
    Matches r (a :: s) := by
  induction r generalizing s with
  | empty | eps => cases h
  | set p =>
      rw [deriv] at h
      split at h
      case isTrue hp =>
        cases h
        exact .set hp
      case isFalse => cases h
  | seq r r' ih ih' =>
      rw [deriv] at h
      split at h
      case isTrue hn =>
        cases h with
        | altLeft h =>
            cases h with
            | seq h h' => exact .seq (ih h) h'
        | altRight h => exact .seq (s := []) (matches_nil_of_nullable hn) (ih' h)
      case isFalse =>
        cases h with
        | seq h h' => exact .seq (ih h) h'
  | alt r r' ih ih' =>
      cases h with
      | altLeft h => exact .altLeft (ih h)
      | altRight h => exact .altRight (ih' h)
  | star r ih =>
      cases h with
      | seq h h' => exact .starCons (ih h) h'

theorem Matches.nullable {r : Regex α} {s : List α} (h : Matches r s) (hs : s = []) :
    r.nullable = true := by
  induction h with
  | eps | starNil | starCons => rfl
  | set => cases hs
  | seq _ _ ih ih' =>
      rw [List.append_eq_nil_iff] at hs
      rw [Regex.nullable, ih hs.1, ih' hs.2]
      rfl
  | altLeft _ ih => rw [Regex.nullable, ih hs, Bool.true_or]
  | altRight _ ih => rw [Regex.nullable, ih hs, Bool.or_true]

theorem Matches.deriv {r : Regex α} {t : List α} (h : Matches r t) {a : α} {s : List α}
    (ht : t = a :: s) : Matches (r.deriv a) s := by
  induction h generalizing s with
  | eps | starNil => cases ht
  | set hp =>
      obtain ⟨rfl, rfl⟩ := List.cons.inj ht
      rw [Regex.deriv, if_pos hp]
      exact .eps
  | @seq r r' u u' h h' ih ih' =>
      rw [Regex.deriv]
      cases u with
      | nil =>
          rw [if_pos (h.nullable rfl)]
          exact .altRight (ih' ht)
      | cons b u =>
          obtain ⟨rfl, rfl⟩ := List.cons.inj ht
          have hseq := Matches.seq (ih rfl) h'
          split
          · exact .altLeft hseq
          · exact hseq
  | altLeft _ ih => exact .altLeft (ih ht)
  | altRight _ ih => exact .altRight (ih ht)
  | @starCons r u u' h h' ih ih' =>
      cases u with
      | nil => exact ih' ht
      | cons b u =>
          obtain ⟨rfl, rfl⟩ := List.cons.inj ht
          exact .seq (ih rfl) h'

/-- What is left to match behind a text. -/
def derivs (r : Regex α) (s : List α) : Regex α := s.foldl (fun r a => r.deriv a) r

theorem Matches.nullable_derivs {r : Regex α} {s : List α} (h : Matches r s) :
    (r.derivs s).nullable = true := by
  induction s generalizing r with
  | nil => exact h.nullable rfl
  | cons a s ih => exact ih (h.deriv rfl)

/-! ### The longest match -/

/-- The length of the longest text at the head that is matched. -/
def longest (r : Regex α) : List α → Option Nat
  | [] => if r.nullable then some 0 else none
  | a :: s =>
      match (r.deriv a).longest s with
      | some n => some (n + 1)
      | none => if r.nullable then some 0 else none

theorem matches_of_longest {r : Regex α} {s : List α} {n : Nat} (h : r.longest s = some n) :
    n ≤ s.length ∧ Matches r (s.take n) := by
  induction s generalizing r n with
  | nil =>
      rw [longest, Option.ite_none_right_eq_some] at h
      obtain ⟨hn, h⟩ := h
      obtain rfl := Option.some.inj h
      exact ⟨Nat.le_refl _, matches_nil_of_nullable hn⟩
  | cons a s ih =>
      rw [longest] at h
      cases hd : (r.deriv a).longest s with
      | some m =>
          rw [hd] at h
          obtain rfl := Option.some.inj h
          obtain ⟨hle, hm⟩ := ih hd
          exact ⟨Nat.succ_le_succ hle, matches_of_deriv hm⟩
      | none =>
          rw [hd, Option.ite_none_right_eq_some] at h
          obtain ⟨hn, h⟩ := h
          obtain rfl := Option.some.inj h
          exact ⟨Nat.zero_le _, matches_nil_of_nullable hn⟩

/-- No longer text at the head is matched. -/
theorem Matches.le_longest {r : Regex α} {s : List α} {m : Nat} (hm : m ≤ s.length)
    (h : Matches r (s.take m)) : ∃ n, r.longest s = some n ∧ m ≤ n := by
  induction s generalizing r m with
  | nil =>
      obtain rfl := Nat.le_zero.mp hm
      exact ⟨0, by rw [longest, if_pos (h.nullable rfl)], Nat.le_refl _⟩
  | cons a s ih =>
      rw [longest]
      cases m with
      | zero =>
          cases (r.deriv a).longest s with
          | some n => exact ⟨n + 1, rfl, Nat.zero_le _⟩
          | none => exact ⟨0, if_pos (h.nullable rfl), Nat.le_refl _⟩
      | succ m =>
          obtain ⟨n, hn, hmn⟩ := ih (Nat.le_of_succ_le_succ hm) (h.deriv rfl)
          rw [hn]
          exact ⟨n + 1, rfl, Nat.succ_le_succ hmn⟩

/-! ### Letters that do not occur -/

/-- No set of the expression holds the letter. -/
def avoids (a : α) : Regex α → Bool
  | .empty | .eps => true
  | .set p => !p a
  | .seq r r' | .alt r r' => r.avoids a && r'.avoids a
  | .star r => r.avoids a

theorem Matches.notMem_of_avoids {r : Regex α} {s : List α} {a : α} (h : Matches r s)
    (ha : r.avoids a = true) : a ∉ s := by
  induction h with
  | eps | starNil => exact List.not_mem_nil
  | set hp =>
      intro hmem
      rw [List.mem_singleton.mp hmem, avoids, hp] at ha
      cases ha
  | seq _ _ ih ih' =>
      rw [avoids, Bool.and_eq_true] at ha
      intro hmem
      exact (List.mem_append.mp hmem).elim (ih ha.1) (ih' ha.2)
  | altLeft _ ih =>
      rw [avoids, Bool.and_eq_true] at ha
      exact ih ha.1
  | altRight _ ih =>
      rw [avoids, Bool.and_eq_true] at ha
      exact ih ha.2
  | starCons _ _ ih ih' =>
      intro hmem
      exact (List.mem_append.mp hmem).elim (ih ha) (ih' ha)

theorem matches_word_iff [DecidableEq α] {w s : List α} : Matches (word w) s ↔ s = w := by
  induction w generalizing s with
  | nil =>
      constructor
      · rintro ⟨⟩
        rfl
      · rintro rfl
        exact .eps
  | cons a w ih =>
      cases w with
      | nil =>
          constructor
          · rintro ⟨⟩
            rename_i b hb
            rw [of_decide_eq_true hb]
          · rintro rfl
            exact .set (decide_eq_true rfl)
      | cons b w =>
          constructor
          · rintro ⟨⟩
            rename_i s s' h h'
            cases h with
            | set hc => rw [of_decide_eq_true hc, ih.mp h', List.singleton_append]
          · rintro rfl
            exact .seq (s := [a]) (.set (decide_eq_true rfl)) (ih.mpr rfl)

end Regex

/-! ### The scanner -/

/-- A rule of the start condition `start`, with what is asked of the letter behind its text. -/
structure Rule (S α A : Type) where
  start : S
  pattern : Regex α
  ahead : Option (α → Bool)
  action : A

variable {S A : Type}

/-- The whole match, with the letter behind. -/
def Rule.whole (R : Rule S α A) : Regex α :=
  match R.ahead with
  | none => R.pattern
  | some p => .seq R.pattern (.set p)

/-- How much of a match of this length is text of the rule. -/
def Rule.textLength (R : Rule S α A) (n : Nat) : Nat :=
  match R.ahead with
  | none => n
  | some _ => n - 1

theorem Rule.matches_text {R : Rule S α A} {s : List α} {n : Nat} (hn : n ≤ s.length)
    (h : R.whole.Matches (s.take n)) : R.pattern.Matches (s.take (R.textLength n)) := by
  unfold Rule.whole at h
  unfold Rule.textLength
  split at h
  case h_1 => exact h
  case h_2 p _ =>
    obtain ⟨t, ht⟩ : ∃ t, t = s.take n := ⟨_, rfl⟩
    rw [← ht] at h
    cases h with
    | @seq _ _ u u' h h' =>
        cases h' with
        | @set _ a ha =>
            have hlen : n = u.length + 1 := by
              have := congrArg List.length ht
              simpa [Nat.min_eq_left hn] using this.symm
            have htake : s.take (n - 1) = u := by
              rw [hlen, Nat.add_sub_cancel]
              have := congrArg (List.take u.length) ht
              rwa [List.take_left, List.take_take, Nat.min_eq_left (by omega), eq_comm] at this
            show R.pattern.Matches (s.take (n - 1))
            rwa [htake]

/-- The rule with the longest match, the first one of several, with the length. -/
def best (c : S) [DecidableEq S] (s : List α) : List (Rule S α A) → Option (Rule S α A × Nat)
  | [] => none
  | R :: Rs =>
      match (if R.start = c then R.whole.longest s else none), best c s Rs with
      | none, b => b
      | some n, none => some (R, n)
      | some n, some (R', n') => if n' ≤ n then some (R, n) else some (R', n')

/-- The text of the next token, the rule that takes it and what is left. -/
def scan [DecidableEq S] (Rs : List (Rule S α A)) (c : S) (s : List α) :
    Option (List α × Rule S α A × List α) :=
  (best c s Rs).map fun (R, n) => (s.take (R.textLength n), R, s.drop (R.textLength n))

theorem best_eq_some [DecidableEq S] {c : S} {s : List α} {Rs : List (Rule S α A)}
    {R : Rule S α A} {n : Nat} (h : best c s Rs = some (R, n)) :
    R ∈ Rs ∧ R.start = c ∧ R.whole.longest s = some n := by
  induction Rs with
  | nil => cases h
  | cons R' Rs ih =>
      have hrest : best c s Rs = some (R, n) →
          R ∈ R' :: Rs ∧ R.start = c ∧ R.whole.longest s = some n := fun h =>
        ⟨List.mem_cons_of_mem _ (ih h).1, (ih h).2⟩
      have hhead : ∀ m, (if R'.start = c then R'.whole.longest s else none) = some m →
          some (R', m) = some (R, n) → R ∈ R' :: Rs ∧ R.start = c ∧ R.whole.longest s = some n := by
        intro m hm he
        obtain ⟨rfl, rfl⟩ := Prod.mk.inj (Option.some.inj he)
        rw [Option.ite_none_right_eq_some] at hm
        exact ⟨List.mem_cons_self, hm.1, hm.2⟩
      rw [best] at h
      split at h
      case h_1 => exact hrest h
      case h_2 m hm _ => exact hhead m hm h
      case h_3 m R'' m' hm hb =>
        split at h
        · exact hhead m hm h
        · exact hrest (hb.trans h)

/-- The text is matched by the rule, an active one of the list. -/
theorem scan_eq_some [DecidableEq S] {Rs : List (Rule S α A)} {c : S} {s t rest : List α}
    {R : Rule S α A} (h : scan Rs c s = some (t, R, rest)) :
    R ∈ Rs ∧ R.start = c ∧ R.pattern.Matches t ∧ s = t ++ rest := by
  obtain ⟨⟨R', n⟩, hb, he⟩ := Option.map_eq_some_iff.mp h
  simp only [Prod.mk.injEq] at he
  obtain ⟨rfl, rfl, rfl⟩ := he
  obtain ⟨hmem, hc, hl⟩ := best_eq_some hb
  obtain ⟨hn, hm⟩ := Regex.matches_of_longest hl
  exact ⟨hmem, hc, R'.matches_text hn hm, (List.take_append_drop _ _).symm⟩

/-- A rule that matches as much as the one that is taken does not stand before it. -/
theorem mem_of_best [DecidableEq S] {c : S} {s : List α} {Rs Rs' : List (Rule S α A)}
    {R R' : Rule S α A} {n m : Nat} (h : best c s (Rs ++ R' :: Rs') = some (R, n))
    (hc : R'.start = c) (hm : R'.whole.longest s = some m) (hle : n ≤ m) : R ∈ Rs ++ [R'] := by
  induction Rs generalizing R n with
  | nil =>
      rw [List.nil_append, best, if_pos hc, hm] at h
      refine List.mem_singleton.mpr ?_
      split at h
      case h_1 _ hnone => cases hnone
      case h_2 _ hsome _ => exact (Prod.mk.inj (Option.some.inj h)).1.symm
      case h_3 k R'' k' hsome hb =>
        obtain rfl := Option.some.inj hsome
        split at h
        · exact (Prod.mk.inj (Option.some.inj h)).1.symm
        · obtain ⟨rfl, rfl⟩ := Prod.mk.inj (Option.some.inj h)
          omega
  | cons R₀ Rs ih =>
      rw [List.cons_append, best] at h
      split at h
      case h_1 => exact List.mem_cons_of_mem _ (ih h hle)
      case h_2 =>
        obtain ⟨rfl, -⟩ := Prod.mk.inj (Option.some.inj h)
        exact List.mem_cons_self
      case h_3 k R'' k' hsome hb =>
        split at h
        · obtain ⟨rfl, -⟩ := Prod.mk.inj (Option.some.inj h)
          exact List.mem_cons_self
        · exact List.mem_cons_of_mem _ (ih (hb.trans h) hle)

end CaLang.Flex

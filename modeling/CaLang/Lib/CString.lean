import Mathlib.Data.List.TakeDrop
import Mathlib.Data.List.TakeWhile

/-! # C strings

A C string is read up to the first zero byte. **A string is found again behind a position of a
buffer when its bytes and a zero byte stand there**; what follows them does not matter.
-/

namespace CaLang

abbrev Byte := UInt8

/-- The bytes of a C string. -/
def cstring (bytes : List Byte) : List Byte := bytes.takeWhile (· != 0)

/-- `strncpy` of `s`, with its own length as the limit: the bytes up to the first zero byte, and
zero bytes behind. -/
def strncpy (s : List Byte) : List Byte :=
  cstring s ++ List.replicate (s.length - (cstring s).length) 0

variable {s t pre post : List Byte}

theorem cstring_append_zero (h : (0 : Byte) ∉ s) : cstring (s ++ 0 :: post) = s := by
  have hs : ∀ b ∈ s, (b != 0) = true := by
    intro b hb
    rw [bne_iff_ne]
    rintro rfl
    exact h hb
  unfold cstring
  rw [List.takeWhile_append_of_pos hs, List.takeWhile_cons_of_neg (by simp), List.append_nil]

theorem cstring_of_no_zero (h : (0 : Byte) ∉ s) : cstring s = s := by
  apply List.takeWhile_eq_self_iff.mpr
  intro b hb
  rw [bne_iff_ne]
  rintro rfl
  exact h hb

theorem zero_notMem_cstring : (0 : Byte) ∉ cstring s := by
  intro h
  have hp := List.mem_takeWhile_imp h
  simp at hp

theorem length_cstring_le : (cstring s).length ≤ s.length := (List.takeWhile_sublist _).length_le

@[simp] theorem length_strncpy : (strncpy s).length = s.length := by
  have h := length_cstring_le (s := s)
  rw [strncpy, List.length_append, List.length_replicate]
  omega

/-- **A string without zero bytes is copied as it is.** -/
theorem strncpy_of_no_zero (h : (0 : Byte) ∉ s) : strncpy s = s := by
  rw [strncpy, cstring_of_no_zero h, Nat.sub_self, List.replicate_zero, List.append_nil]

theorem cstring_strncpy_append : cstring (strncpy s ++ 0 :: post) = cstring s := by
  rw [strncpy]
  cases s.length - (cstring s).length with
  | zero =>
      rw [List.replicate_zero, List.append_nil]
      exact cstring_append_zero zero_notMem_cstring
  | succ n =>
      rw [List.replicate_succ, List.append_assoc, List.cons_append]
      exact cstring_append_zero zero_notMem_cstring

theorem cstring_append_of_mem (h : (0 : Byte) ∈ s) :
    cstring (s ++ t) = cstring s ∧ (cstring s).length < s.length := by
  obtain ⟨pre, post, rfl, hpre⟩ := List.eq_append_cons_of_mem h
  rw [List.append_assoc, List.cons_append, cstring_append_zero hpre, cstring_append_zero hpre]
  exact ⟨rfl, by simp⟩

/-- The zero byte behind a name takes the place of one at its end. -/
theorem take_cstring_zero (hs : (0 : Byte) ∉ s.dropLast) (ht : (0 : Byte) ∉ t) :
    s.length ≤ (cstring (s ++ t)).length + 1 ∧
      (strncpy (cstring (s ++ t)) ++ [0]).take s.length = s := by
  rw [strncpy_of_no_zero zero_notMem_cstring]
  rcases List.eq_nil_or_concat s with rfl | ⟨s, b, rfl⟩
  · exact ⟨Nat.zero_le _, rfl⟩
  · rw [List.concat_eq_append, List.dropLast_concat] at hs
    rw [List.concat_eq_append, List.append_assoc, List.singleton_append]
    by_cases hb : b = 0
    · subst hb
      rw [cstring_append_zero hs]
      exact ⟨by simp, List.take_of_length_le (by simp)⟩
    · have hall : (0 : Byte) ∉ s ++ b :: t := by
        simp [hs, ht, Ne.symm hb]
      rw [cstring_of_no_zero hall, List.append_cons s b t, List.append_assoc (s ++ [b])]
      exact ⟨by simp, List.take_left⟩

/-! ### Zero bytes only at the end -/

/-- Behind a zero byte there are only zero bytes. -/
def ZeroTail : List Byte → Prop
  | [] => True
  | b :: bs => if b = 0 then ∀ c ∈ bs, c = 0 else ZeroTail bs

theorem zeroTail_append (h : ZeroTail (s ++ t)) : ZeroTail s ∧ ZeroTail t := by
  induction s with
  | nil => exact ⟨trivial, h⟩
  | cons b s ih =>
      rw [List.cons_append, ZeroTail] at h
      by_cases hb : b = 0
      · rw [if_pos hb] at h
        refine ⟨?_, ?_⟩
        · rw [ZeroTail, if_pos hb]
          intro c hc
          exact h c (List.mem_append_left t hc)
        · have ht : ∀ c ∈ t, c = 0 := fun c hc => h c (List.mem_append_right s hc)
          cases t with
          | nil => trivial
          | cons c t =>
              rw [ZeroTail, if_pos (ht c List.mem_cons_self)]
              intro d hd
              exact ht d (List.mem_cons_of_mem c hd)
      · rw [if_neg hb] at h
        refine ⟨?_, (ih h).2⟩
        rw [ZeroTail, if_neg hb]
        exact (ih h).1

theorem zeroTail_append_zero (h : ZeroTail s) : ZeroTail (s ++ [0]) := by
  induction s with
  | nil => simp [ZeroTail]
  | cons b s ih =>
      rw [ZeroTail] at h
      rw [List.cons_append, ZeroTail]
      split at h
      · rename_i hb
        rw [if_pos hb]
        intro c hc
        rcases List.mem_append.mp hc with hs | hz
        · exact h c hs
        · exact List.mem_singleton.mp hz
      · rename_i hb
        rw [if_neg hb]
        exact ih h

theorem strncpy_cons_zero (s : List Byte) : strncpy (0 :: s) = List.replicate (s.length + 1) 0 := by
  rw [strncpy, cstring, List.takeWhile_cons_of_neg (by simp)]
  rfl

theorem strncpy_cons_ne {b : Byte} (hb : b ≠ 0) (s : List Byte) :
    strncpy (b :: s) = b :: strncpy s := by
  have hc : cstring (b :: s) = b :: cstring s :=
    List.takeWhile_cons_of_pos (bne_iff_ne.mpr hb)
  rw [strncpy, strncpy, hc, List.length_cons, List.length_cons, Nat.add_sub_add_right,
    List.cons_append]

/-- **`strncpy` keeps the strings with zero bytes only at the end.** -/
theorem strncpy_eq_self_iff : strncpy s = s ↔ ZeroTail s := by
  induction s with
  | nil => exact iff_of_true rfl trivial
  | cons b s ih =>
      by_cases hb : b = 0
      · subst hb
        rw [strncpy_cons_zero, ZeroTail, if_pos rfl, List.replicate_succ, List.cons.injEq]
        refine ⟨?_, fun h => ⟨rfl, (List.eq_replicate_of_mem h).symm⟩⟩
        intro h c hc
        rw [← h.2] at hc
        exact List.eq_of_mem_replicate hc
      · rw [strncpy_cons_ne hb, ZeroTail, if_neg hb, List.cons.injEq, ← ih]
        exact ⟨fun h => h.2, fun h => ⟨rfl, h⟩⟩

theorem zeroTail_strncpy (s : List Byte) : ZeroTail (strncpy s) := by
  induction s with
  | nil => trivial
  | cons b s ih =>
      by_cases hb : b = 0
      · subst hb
        rw [strncpy_cons_zero, List.replicate_succ, ZeroTail, if_pos rfl]
        intro c hc
        exact List.eq_of_mem_replicate hc
      · rw [strncpy_cons_ne hb, ZeroTail, if_neg hb]
        exact ih

end CaLang

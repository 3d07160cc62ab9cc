import CaLang.Lib.Scan

/-! # Texts that tell where they end

A number ends with its digits, and **a name that has its size before it needs no end**: texts of
such names, one behind the other, are read back in one way only.
-/

namespace CaLang

/-- A word is read up to the first other character. -/
theorem word_inj {p : Char → Bool} {w w' r r' : List Char} (hw : ∀ c ∈ w, p c = true)
    (hw' : ∀ c ∈ w', p c = true) (hr : StopsAt p r) (hr' : StopsAt p r') (h : w ++ r = w' ++ r') :
    w = w' ∧ r = r' := by
  have hspan := (span_append hw hr).symm.trans
    ((congrArg (List.span p) h).trans (span_append hw' hr'))
  exact Prod.ext_iff.mp hspan

/-- A number is read up to the first character that is no digit. -/
theorem toDigits_append_inj {n n' : Nat} {r r' : List Char} (hr : StopsAt Char.isDigit r)
    (hr' : StopsAt Char.isDigit r') (h : Nat.toDigits 10 n ++ r = Nat.toDigits 10 n' ++ r') :
    n = n' ∧ r = r' := by
  have hdigits : ∀ n, ∀ c ∈ Nat.toDigits 10 n, c.isDigit = true := fun n c hc =>
    Nat.isDigit_of_mem_toDigits (by decide) (by decide) hc
  obtain ⟨hn, hrest⟩ := word_inj (hdigits n) (hdigits n') hr hr' h
  have hvalue := congrArg (Nat.ofDigitChars 10 · 0) hn
  simp only [Nat.ofDigitChars_ten_toDigits] at hvalue
  exact ⟨hvalue, hrest⟩

/-- A number starts with a digit. -/
theorem toDigits_eq_cons (n : Nat) : ∃ c ds, Nat.toDigits 10 n = c :: ds ∧ c.isDigit = true := by
  cases h : Nat.toDigits 10 n with
  | nil => exact absurd h Nat.toDigits_ne_nil
  | cons c ds =>
      refine ⟨c, ds, rfl, Nat.isDigit_of_mem_toDigits (b := 10) (n := n) (by decide) (by decide) ?_⟩
      rw [h]
      exact List.mem_cons_self

/-- Of two texts with one beginning, those of the same size are the same. -/
theorem append_inj_of_size {s s' : String} {r r' : List Char}
    (hsize : s.utf8ByteSize = s'.utf8ByteSize) (h : s.toList ++ r = s'.toList ++ r') :
    s = s' ∧ r = r' := by
  have longer : ∀ {s s' : String} {c : List Char}, s.utf8ByteSize = s'.utf8ByteSize →
      s'.toList = s.toList ++ c → c = [] := by
    intro s s' c hsize hc
    have hs : s' = s ++ String.ofList c := by
      rw [← String.toList_inj, String.toList_append, String.toList_ofList, hc]
    rw [hs, String.utf8ByteSize_append] at hsize
    have hempty : (String.ofList c).utf8ByteSize = 0 := by omega
    rw [String.utf8ByteSize_eq_zero_iff] at hempty
    rw [← String.toList_ofList (l := c), hempty]
    rfl
  rcases List.append_eq_append_iff.mp h with ⟨c, hc, hr⟩ | ⟨c, hc, hr⟩
  · obtain rfl := longer hsize hc
    rw [List.append_nil] at hc
    exact ⟨(String.toList_inj.mp hc).symm, by rw [hr, List.nil_append]⟩
  · obtain rfl := longer hsize.symm hc
    rw [List.append_nil] at hc
    exact ⟨String.toList_inj.mp hc, by rw [hr, List.nil_append]⟩

/-- The text is no continuation of a number. -/
def StartsWord (s : String) : Prop := ∃ c cs, s.toList = c :: cs ∧ c.isDigit = false

/-- A name with its size before it. -/
def sizedText (s : String) : List Char := Nat.toDigits 10 s.utf8ByteSize ++ s.toList

theorem StartsWord.stopsAt {s : String} (h : StartsWord s) (r : List Char) :
    StopsAt Char.isDigit (s.toList ++ r) := by
  obtain ⟨c, cs, hs, hc⟩ := h
  rw [hs]
  exact stopsAt_cons _ hc

/-- **A name with its size before it tells where it ends.** -/
theorem sizedText_append_inj {s s' : String} {r r' : List Char} (hs : StartsWord s)
    (hs' : StartsWord s') (h : sizedText s ++ r = sizedText s' ++ r') : s = s' ∧ r = r' := by
  rw [sizedText, sizedText, List.append_assoc, List.append_assoc] at h
  obtain ⟨hsize, hrest⟩ := toDigits_append_inj (hs.stopsAt r) (hs'.stopsAt r') h
  exact append_inj_of_size hsize hrest

/-- As many names are read back. -/
theorem sizedTexts_inj {ns ns' : List String} (hlen : ns.length = ns'.length)
    (hns : ∀ n ∈ ns, StartsWord n) (hns' : ∀ n ∈ ns', StartsWord n)
    (h : ns.flatMap sizedText = ns'.flatMap sizedText) : ns = ns' := by
  induction ns generalizing ns' with
  | nil => exact (List.length_eq_zero_iff.mp hlen.symm).symm
  | cons n ns ih =>
      cases ns' with
      | nil => cases hlen
      | cons n' ns' =>
          obtain ⟨hn, hrest⟩ := sizedText_append_inj (hns n List.mem_cons_self)
            (hns' n' List.mem_cons_self) h
          rw [hn, ih (Nat.succ.inj hlen) (fun m hm => hns m (List.mem_cons_of_mem _ hm))
            (fun m hm => hns' m (List.mem_cons_of_mem _ hm)) hrest]

end CaLang

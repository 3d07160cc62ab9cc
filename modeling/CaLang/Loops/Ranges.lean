import CaLang.Loops.Simulated

/-! # The rounds of a `for`

**A round runs the body with the index in the loop variable**, where the index is before the end of
the range.  The comparison is that of the integers, as long as the index is in the type; behind its
body a round leaves the variables of the outer scope as they were, the cell of the index with the
next word and the end of the range where it was.
-/

namespace CaLang.Loops

open Instr
open Addresses (IntType)
open Cfg (Build Machine Val Builder State Exec effect labels after)

variable {ι F W : Type} {I : Interp F W} {cells : Cells ι} {controls : List LoopControlInfo}
  {st st' : Builder} {σ : Store ι W} {o : Flow}

/-! ### The comparison -/

theorem auxCreateCompareValueFor_eval (type : IntType) (inclusive : Bool)
    (x y : BitVec type.width) : (auxCreateCompareValueFor type inclusive).eval x y =
      if inclusive then !(if type.signed then y.slt x else y.ult x)
      else if type.signed then x.slt y else x.ult y := by
  rw [auxCreateCompareValueFor]
  cases type.signed <;> cases inclusive <;> rfl

/-- **The comparison is that of the integers**, signed or not. -/
theorem auxCreateCompareValueFor_iff (r : Range) {v : Int}
    (h₀ : wordValue r.type.signed r.start ≤ v) (h : v < wordBound r.type.signed r.type.width) :
    (auxCreateCompareValueFor r.type r.inclusive).eval (BitVec.ofInt r.type.width v) r.fin = true ↔
      v < r.behind := by
  obtain ⟨type, start, fin, inclusive⟩ := r
  have hv : wordValue type.signed (BitVec.ofInt type.width v) = v := wordValue_ofInt_of_le h₀ h
  rw [auxCreateCompareValueFor_eval, Range.behind]
  cases inclusive with
  | false =>
      rw [if_neg Bool.false_ne_true, ← wordValue_lt, hv, if_neg Bool.false_ne_true, Int.add_zero]
  | true =>
      rw [if_pos rfl, Bool.not_eq_true', ← Bool.not_eq_true, ← wordValue_lt, hv, if_pos rfl]
      omega

/-! ### The test -/

/-- Before the test of a `for` the index is in the cell `m`, and the end of the range is `e`. -/
structure ForHead (I : Interp F W) (cells : Cells ι) (m : Nat) (endcond : Val Word) {w : Nat}
    (σ : Store ι W) (i e : BitVec w) (s : State Word W) : Prop where
  rel : Rel cells σ s
  index : s.cells m = ⟨w, i⟩
  fin : endcond.eval (machine I) s = ⟨w, e⟩

section

variable {type : IntType} {inclusive : Bool} {m : Nat} {endcond : Val Word}
  {i e : BitVec type.width} {s : State Word W}

theorem forTest_plain (type : IntType) (inclusive : Bool) (m : Nat) (endcond : Val Word) :
    ∀ i ∈ (forTest type inclusive m endcond : Code F), i.plain = true := by
  simp [forTest, Cfg.Instr.plain]

theorem truth_ofBool (p : Bool) : truth ⟨1, BitVec.ofBool p⟩ = p := by
  cases p <;> rfl

/-- The test compares the index with the end. -/
theorem ForHead.test (h : ForHead I cells m endcond σ i e s) (inclusive : Bool)
    (hend : endcond.Below m) (hs : Scope cells m) :
    ∃ s', effect (machine I) s (forTest type inclusive m endcond) = s' ∧
      ForHead I cells m endcond σ i e s' ∧ s'.regs (m + 2) = ⟨type.width, i⟩ ∧
      truth (s'.regs (m + 3)) = (auxCreateCompareValueFor type inclusive).eval i e ∧
      State.AgreeBelow m s s' := by
  generalize hp : (auxCreateCompareValueFor type inclusive).eval i e = p
  have hload : State.AgreeBelow m s (s.setReg (m + 2) ⟨type.width, i⟩) :=
    (State.AgreeBelow.refl m s).setReg (by omega) _
  have hkeep := hload.setReg (r := m + 3) (by omega) ⟨1, BitVec.ofBool p⟩
  have heff : effect (machine I) s (forTest type inclusive m endcond) =
      (s.setReg (m + 2) ⟨type.width, i⟩).setReg (m + 3) ⟨1, BitVec.ofBool p⟩ := by
    simp only [forTest, Cfg.effect_cons, Cfg.effect_nil, Cfg.Instr.effect, h.index, List.map_cons,
      List.map_nil, hload.eval_eq hend, h.fin]
    simp [machine, Val.eval, State.setReg, hp]
  refine ⟨_, heff, ⟨.of_agree hkeep hs rfl h.rel, h.index, ?_⟩, ?_, ?_, hkeep⟩
  · rw [hkeep.eval_eq hend, h.fin]
  · simp [State.setReg]
  · exact (congrArg truth (Function.update_self _ _ _)).trans (truth_ofBool p)

/-- The bounds are computed and the index is set to the first of them. -/
theorem ComputesBounds.enter {start fin : Expr ι F} {begincond : Val Word} {cr k P R : Code F}
    {condbb b prev : Nat} (hc : ComputesBounds cells start fin st begincond endcond cr st')
    (hs : Scope cells st.next) (hr : Rel cells σ s) (ha : (start.eval I σ).1 = ⟨type.width, i⟩)
    (he : (fin.eval I (start.eval I σ).2).1 = ⟨type.width, e⟩) (hcond : after condbb P = some R) :
    ∃ s', Exec (machine I) P ⟨cr ++ .store st'.next begincond :: .br condbb :: k, b, prev, s⟩
        ⟨R, condbb, b, s'⟩ ∧
      ForHead I cells st'.next endcond (fin.eval I (start.eval I σ).2).2 i e s' ∧
      State.AgreeBelow st.next s s' := by
  obtain ⟨hr₁, hbegin, hend, hk⟩ := hc.effect (I := I) hs hr
  have hplain := Cfg.exec_plain (M := machine I) (P := P) hc.plain.plain
    (.store st'.next begincond :: .br condbb :: k) b prev s
  generalize Cfg.effect (machine I) s cr = s₁ at hr₁ hbegin hend hk hplain
  have hstore : State.AgreeBelow st'.next s₁ (s₁.setCell st'.next ⟨type.width, i⟩) :=
    (State.AgreeBelow.refl _ s₁).setCell (Nat.le_refl _) _
  have hstep : Exec (machine I) P ⟨.store st'.next begincond :: .br condbb :: k, b, prev, s₁⟩
      ⟨.br condbb :: k, b, prev, s₁.setCell st'.next ⟨type.width, i⟩⟩ := by
    refine .single ?_
    rw [← ha, ← hbegin]
    rfl
  exact ⟨_, hplain.trans (hstep.trans (Cfg.exec_br hcond)),
    ⟨.of_agree hstore (hs.mono hc.plain.le) rfl hr₁, Function.update_self _ _ _,
      (hstore.eval_eq hc.below').trans (hend.trans he)⟩, hk.trans hstore hc.plain.le⟩

/-- What stands behind the condition label of a `for`. -/
def forRest (type : IntType) (inclusive : Bool) (m : Nat) (endcond : Val Word)
    (condbb loopbb outbb : Nat) (cb R : Code F) : Code F :=
  forTest type inclusive m endcond ++ .condbr (.reg (m + 3)) loopbb outbb :: .label loopbb ::
    (forStep type m ++ (cb ++ .br condbb :: .label outbb :: R))

variable {condbb loopbb outbb b prev : Nat} {cb P R : Code F}

/-- A `for` that stands in the code `P`. -/
structure ForIn (P : Code F) (cells : Cells ι) (type : IntType) (inclusive : Bool) (m : Nat)
    (endcond : Val Word) (condbb loopbb outbb : Nat) (cb R : Code F) : Prop where
  nodup : (labels P).Nodup
  suffix : .label condbb :: forRest type inclusive m endcond condbb loopbb outbb cb R <:+ P
  scope : Scope cells m
  below : endcond.Below m

namespace ForIn

theorem suffix_loop (h : ForIn P cells type inclusive m endcond condbb loopbb outbb cb R) :
    .label loopbb :: (forStep type m ++ (cb ++ .br condbb :: .label outbb :: R)) <:+ P :=
  Cfg.suffix_of_cons (Cfg.suffix_of_append (Cfg.suffix_of_cons h.suffix))

theorem suffix_body (h : ForIn P cells type inclusive m endcond condbb loopbb outbb cb R) :
    cb ++ .br condbb :: .label outbb :: R <:+ P :=
  Cfg.suffix_of_append (Cfg.suffix_of_cons h.suffix_loop)

theorem after_out (h : ForIn P cells type inclusive m endcond condbb loopbb outbb cb R) :
    after outbb P = some R :=
  Cfg.after_of_suffix h.nodup (Cfg.suffix_of_cons (Cfg.suffix_of_append h.suffix_body))

/-- The test, and the jump that follows. -/
theorem test (h : ForIn P cells type inclusive m endcond condbb loopbb outbb cb R)
    (hh : ForHead I cells m endcond σ i e s) (b prev : Nat) :
    ∃ s', ForHead I cells m endcond σ i e s' ∧ s'.regs (m + 2) = ⟨type.width, i⟩ ∧
      State.AgreeBelow m s s' ∧
      ∀ {d : Nat} {R' : Code F}, (if (auxCreateCompareValueFor type inclusive).eval i e then loopbb
          else outbb) = d → after d P = some R' →
        Exec (machine I) P ⟨forRest type inclusive m endcond condbb loopbb outbb cb R, b, prev, s⟩
          ⟨R', d, b, s'⟩ := by
  obtain ⟨s', heff, hh', hreg, htruth, hk⟩ := hh.test inclusive h.below h.scope
  refine ⟨s', hh', hreg, hk, fun {d R'} hd ha => ?_⟩
  rw [forRest]
  refine (Cfg.exec_plain (forTest_plain type inclusive m endcond) _ b prev s).trans ?_
  rw [heff]
  refine Cfg.exec_condbr ?_ ha
  show (if truth (s'.regs (m + 3)) then loopbb else outbb) = d
  rw [htruth, hd]

/-- **The loop is left** where the test fails. -/
theorem leave (h : ForIn P cells type inclusive m endcond condbb loopbb outbb cb R)
    (hh : ForHead I cells m endcond σ i e s)
    (htest : (auxCreateCompareValueFor type inclusive).eval i e = false) :
    Arrives I cells m P ⟨forRest type inclusive m endcond condbb loopbb outbb cb R, b, prev, s⟩ R
      σ := by
  obtain ⟨s', hh', -, hk, hexec⟩ := h.test hh b prev
  refine .exec (hexec ?_ h.after_out) (.of_agree hk) (.here hh'.rel)
  rw [htest]
  exact if_neg Bool.false_ne_true

end ForIn

/-! ### The body -/

variable [DecidableEq ι] {x : ι}

theorem forStep_plain (type : IntType) (m : Nat) :
    ∀ i ∈ (forStep type m : Code F), i.plain = true := by
  simp [forStep, Cfg.Instr.plain]

/-- The step gives the index to the variable and increments it. -/
theorem ForHead.step (h : ForHead I cells m endcond σ i e s) (hend : endcond.Below m)
    (hs : Scope cells m) (hreg : s.regs (m + 2) = ⟨type.width, i⟩) (x : ι) :
    ∃ s', effect (machine I) s (forStep type m) = s' ∧
      ForHead I (Function.update cells x (m + 1)) m endcond (σ.bind x ⟨type.width, i⟩) (i + 1) e
          s' ∧
      State.AgreeBelow m s s' := by
  have hkeep := ((((State.AgreeBelow.refl m s).setCell (c := m + 1) (by omega)
    ⟨type.width, i⟩).setReg (r := m + 4) (by omega) ⟨type.width, i⟩).setReg (r := m + 5) (by omega)
    ⟨type.width, i + 1⟩).setCell (Nat.le_refl m) ⟨type.width, i + 1⟩
  generalize hs' : (((s.setCell (m + 1) ⟨type.width, i⟩).setReg (m + 4) ⟨type.width, i⟩).setReg
    (m + 5) ⟨type.width, i + 1⟩).setCell m ⟨type.width, i + 1⟩ = s' at hkeep
  refine ⟨s', ?_, ⟨⟨?_, ?_⟩, ?_, ?_⟩, hkeep⟩
  · rw [← hs']
    simp [forStep, Cfg.Instr.effect, Val.eval, State.setReg, State.setCell, machine, hreg, h.index]
  · rw [← hs']
    exact h.rel.world
  · intro y
    rw [← hs']
    by_cases hy : y = x
    · simp [hy, State.setCell, State.setReg, Store.bind]
    · have := hs.below y
      have hne : cells y ≠ m := by omega
      have hne' : cells y ≠ m + 1 := by omega
      simp [hy, State.setCell, State.setReg, Store.bind, hne, hne', h.rel.vars y]
  · rw [← hs']
    exact Function.update_self _ _ _
  · rw [hkeep.eval_eq hend, h.fin]

/-- Behind the body the variable of the outer scope is visible again. -/
theorem ForHead.back {σ₁ : Store ι W} {s₁ s₂ : State Word W} (hs : Scope cells m)
    (hend : endcond.Below m) (hr : Rel cells σ s) (hk : State.AgreeBelow m s s₁)
    (hh : ForHead I (Function.update cells x (m + 1)) m endcond (σ.bind x ⟨type.width, i⟩) (i + 1)
      e s₁)
    (hr₂ : Rel (Function.update cells x (m + 1)) σ₁ s₂)
    (hk₂ : Keeps (Function.update cells x (m + 1)) (m + 6) s₁ s₂) :
    ForHead I cells m endcond (σ₁.bind x (σ.vars x)) (i + 1) e s₂ ∧ Keeps cells m s s₂ := by
  -- the cells of the body are those of the variables below `m`, without that of `x`, and `m + 1`
  have hne (k : Nat) (hk : k ≤ m) (hx : ∀ y, y ≠ x → cells y ≠ k) :
      ∀ y, Function.update cells x (m + 1) y ≠ k := by
    intro y
    by_cases hy : y = x
    · rw [hy, Function.update_self]
      omega
    · rw [Function.update_of_ne hy]
      exact hx y hy
  have hregs : ∀ k < m, s₂.regs k = s.regs k := fun k hlt =>
    (hk₂ k (by omega)).1.trans (hk k hlt).1
  refine ⟨⟨⟨hr₂.world, ?_⟩, ?_, ?_⟩, fun k hlt => ⟨hregs k hlt, ?_⟩⟩
  · intro y
    by_cases hy : y = x
    · have hlt := hs.below x
      have hcell := (hk₂ (cells x) (by omega)).2
        (hne _ (Nat.le_of_lt hlt) fun z hz he => hz (hs.injective he))
      rw [hy, hcell, (hk _ hlt).2, hr.vars x]
      exact (Function.update_self _ _ σ₁.vars).symm
    · have hvar := hr₂.vars y
      rw [Function.update_of_ne hy] at hvar
      exact hvar.trans (Function.update_of_ne hy _ σ₁.vars).symm
  · have hcell := (hk₂ m (by omega)).2 (hne m (Nat.le_refl m) fun y _ => Nat.ne_of_lt (hs.below y))
    rw [hcell, hh.index]
  · rw [← hh.fin]
    cases endcond with
    | reg r => exact (hk₂ r (Nat.lt_of_lt_of_le hend (by omega))).1
    | const k => rfl
  · intro hx
    rw [(hk₂ k (by omega)).2 (hne k (Nat.le_of_lt hlt) fun y _ => hx y), (hk k hlt).2]

/-- **One round of a `for`**: the body runs with the index in the variable. -/
theorem ForIn.round (h : ForIn P cells type inclusive m endcond condbb loopbb outbb cb R)
    (hh : ForHead I cells m endcond σ i e s)
    (htest : (auxCreateCompareValueFor type inclusive).eval i e = true) {σ₁ : Store ι W}
    (hbody : Goes I (Function.update cells x (m + 1)) (⟨condbb, outbb⟩ :: controls) (m + 6) cb
      (σ.bind x ⟨type.width, i⟩) o σ₁) (b prev : Nat) :
    ∃ b' prev' s',
      Exec (machine I) P ⟨forRest type inclusive m endcond condbb loopbb outbb cb R, b, prev, s⟩
        ⟨if o = .break then R else forRest type inclusive m endcond condbb loopbb outbb cb R, b',
          prev', s'⟩ ∧
      ForHead I cells m endcond (σ₁.bind x (σ.vars x)) (i + 1) e s' ∧ Keeps cells m s s' := by
  obtain ⟨s₁, hh₁, hreg, hk₁, hexec⟩ := h.test hh b prev
  obtain ⟨s₂, heff, hh₂, hk₂⟩ := hh₁.step h.below h.scope hreg x
  have hplain := Cfg.exec_plain (M := machine I) (P := P) (forStep_plain type m)
    (cb ++ .br condbb :: .label outbb :: R) loopbb b s₁
  rw [heff] at hplain
  have hcond := Cfg.after_of_suffix h.nodup h.suffix
  obtain ⟨b', prev', s₃, hround, hr₃, hk₃⟩ :=
    hbody.round loopbb b h.nodup h.suffix_body hcond hh₂.rel
  obtain ⟨hh₃, hk⟩ := hh₂.back h.scope h.below hh₁.rel hk₂ hr₃ hk₃
  refine ⟨b', prev', s₃, ?_, hh₃, (Keeps.of_agree hk₁).trans hk (Nat.le_refl m)⟩
  refine (hexec ?_ (Cfg.after_of_suffix h.nodup h.suffix_loop)).trans (hplain.trans hround)
  rw [htest]
  exact if_pos rfl

end

end CaLang.Loops

import CaLang.Arith.Correct

/-! # Signed division of unsigned operands

`IR1::gen_div` and `gen_mod` see the width of their operands only, and emit the signed instructions.
**An expression is right exactly where no quotient or remainder of unsigned or `bool` operands tells
the two apart** (`DivAgrees`, `RemAgrees`); everything else an expression is made of computes what
it denotes.  A compound assignment takes a variable of any width besides, and its code is well typed
exactly where the widths are the same.
-/

namespace CaLang.Arith

open Instr

variable {Γ : Vars}

/-- The two switches emit the same instructions. -/
theorem inplaceAssignopAssistant_eq (op : AssignOp) (t : Ty) (x : Id) (vr : Code) :
    inplaceAssignopAssistant op t (.load x t.width) vr =
      genOp2 op.op2 t (.load x t.width) vr := by
  cases op <;> rfl

theorem AssignOp.result (op : AssignOp) (t : Ty) : op.op2.result t = t := by
  cases op <;> rfl

/-- The right side of a compound assignment is no variable of another width, except the amount of
a shift. -/
def Expr.Fits (Γ : Vars) (x : Id) (op : AssignOp) : Expr → Prop
  | .id y => op.op2.isShift = true ∨ (Γ y).width = (Γ x).width
  | _ => True

/-- Type inference of a compound assignment gives its right side the type of the variable, but
leaves a variable there as it is. -/
theorem inferenceAssignType_spec {x : Id} {op : AssignOp} {e : Expr} {n : Node}
    (h : inferenceAssignType Γ x (some op) e.node = some n) :
    n.Consistent Γ ∧
      (getExprTypeFromTree Γ n = some (Γ x) ∧ e.Fits Γ x op ∨ ∃ y, e = .id y ∧ n = .id y) := by
  cases e with
  | id y =>
      cases h
      exact ⟨trivial, Or.inr ⟨y, rfl, rfl⟩⟩
  | literal tok p z v =>
      obtain ⟨hc, ht⟩ := (Expr.literal tok p z v).determine_consistent h
      exact ⟨hc, Or.inl ⟨ht, trivial⟩⟩
  | unary op e =>
      obtain ⟨hc, ht⟩ := (Expr.unary op e).determine_consistent h
      exact ⟨hc, Or.inl ⟨ht, trivial⟩⟩
  | op2 op a b =>
      obtain ⟨hc, ht⟩ := (Expr.op2 op a b).determine_consistent h
      exact ⟨hc, Or.inl ⟨ht, trivial⟩⟩
  | asType e t =>
      obtain ⟨hc, ht⟩ := (Expr.asType e t).determine_consistent h
      exact ⟨hc, Or.inl ⟨ht, trivial⟩⟩

/-- What a compound assignment is after its walk. -/
theorem walkAssign_sound {x : Id} {op : AssignOp} {e : Expr} {s : Assigned}
    (h : walkAssign Γ x (some op) e = some s) :
    Sound Γ s.expr ∧ s.stored = genOp2 op.op2 (Γ x) (.load x (Γ x).width) s.expr.value ∧
      (e.Fits Γ x op ↔ op.op2.isShift = true ∨ s.expr.catype.width = (Γ x).width) := by
  obtain ⟨n, hn, h⟩ := Option.bind_eq_some_iff.mp h
  obtain ⟨w, hw, h⟩ := Option.bind_eq_some_iff.mp h
  cases h
  obtain ⟨hc, hplace⟩ := inferenceAssignType_spec hn
  obtain ⟨hs, htype⟩ := walk_sound hc hw
  refine ⟨hs, inplaceAssignopAssistant_eq _ _ _ _, ?_⟩
  rcases hplace with ⟨ht, hfit⟩ | ⟨y, rfl, rfl⟩
  · exact iff_of_true hfit (Or.inr (congrArg Ty.width (htype _ ht).symm))
  · rw [← htype _ rfl]
    rfl

theorem word_of_width {m n : Nat} (h : m = n) (b : Bool) (z : BitVec m) :
    (⟨m, z⟩ : Word) = ⟨n, BitVec.ofInt n (wordValue b z)⟩ := by
  subst h
  rw [ofInt_wordValue]

/-- The right operand as the instruction takes it: a word of the variable's type, or the amount of a
shift. -/
theorem operand_word {x : Id} {op : AssignOp} {w : Walked} {σ : Store Γ} (hs : Sound Γ w)
    (hr : w.Right σ) (hfit : op.op2.isShift = true ∨ w.catype.width = (Γ x).width) {u : Int}
    (hu : w.denote σ = some u) :
    ∃ (t : Ty) (y : BitVec t.width), w.value.eval σ.mem = some ⟨t.width, y⟩ ∧
      w.value.width = t.width ∧ op.operand (Γ x) u = t.value y ∧
        (op.op2.isShift = true ∨ Γ x = t) := by
  obtain ⟨z, rfl, hz⟩ := hr.eval hs hu
  have hw := hs.typed.code.2
  unfold AssignOp.operand
  by_cases hshift : op.op2.isShift = true
  · exact ⟨w.catype, z, hz, hw, if_pos hshift, Or.inl hshift⟩
  · have hwidth := hfit.resolve_left hshift
    exact ⟨Γ x, _, hz.trans (congrArg some (word_of_width hwidth _ z)), hw.trans hwidth,
      if_neg hshift, Or.inr rfl⟩

/-- What a compound assignment stores, where its right side is right. -/
theorem stored_means_iff {x : Id} {op : AssignOp} {w : Walked} {σ : Store Γ} (hs : Sound Γ w)
    (hr : w.Right σ) (hfit : op.op2.isShift = true ∨ w.catype.width = (Γ x).width) {u : Int}
    (hu : w.denote σ = some u) :
    (∀ v, op.meaning (Γ x) ((Γ x).value (σ x)) u = some v →
      (genOp2 op.op2 (Γ x) (.load x (Γ x).width) w.value).eval σ.mem = some ((Γ x).word v)) ↔
      (op.operand (Γ x) u ≠ 0 →
        op.op2.Agrees (Γ x) ((Γ x).value (σ x)) (op.operand (Γ x) u)) := by
  obtain ⟨t, y, hy, hw, hop, ht⟩ := operand_word hs hr hfit hu
  have hx : (Value.load x (Γ x).width).eval σ.mem = some ⟨(Γ x).width, σ x⟩ := if_pos rfl
  have hmeans : ∀ v, op.op2.meaning (Γ x) ((Γ x).value (σ x)) (t.value y) = some v →
      ((genOp2 op.op2 (Γ x) (.load x (Γ x).width) w.value).eval σ.mem =
        some ((op.op2.result (Γ x)).word v) ↔
        (t.value y ≠ 0 → op.op2.Agrees (Γ x) ((Γ x).value (σ x)) (t.value y))) :=
    fun v hv => genOp2_means_iff rfl hw hx hy ht hv
  rw [op.result] at hmeans
  unfold AssignOp.meaning
  rw [hop]
  constructor
  · intro hall hne
    have hty : op.op2.isShift = true ∨ ∃ z : BitVec (Γ x).width, (Γ x).value z = t.value y := by
      apply ht.imp_right
      intro h
      rw [h]
      exact ⟨y, rfl⟩
    rcases Op2.agrees_or_denotes hty hne with h | ⟨v, hv⟩
    · exact h
    · exact (hmeans v hv).mp (hall v hv) hne
  · intro hagree v hv
    exact (hmeans v hv).mpr hagree

/-- **Integer expressions compute their meaning where signed division does no harm.** -/
theorem computes_iff (Γ : Vars) :
    (∀ (pl : Place) (e : Expr) (w : Walked), compile Γ pl e = some w →
      w.WellTyped ∧ ∀ σ : Store Γ, w.Right σ ↔ w.SignBlind σ) ∧
    ∀ (x : Id) (op : AssignOp) (e : Expr) (s : Assigned), walkAssign Γ x (some op) e = some s →
      ∀ σ : Store Γ, s.WellTyped Γ x ∧ s.Right σ x op ↔ e.Fits Γ x op ∧ s.SignBlind σ x op := by
  refine ⟨fun pl e w h => ⟨(compile_sound h).typed, (compile_sound h).right_iff⟩, ?_⟩
  intro x op e s h σ
  obtain ⟨hs, hstored, hfits⟩ := walkAssign_sound h
  have htyped : s.WellTyped Γ x ↔ e.Fits Γ x op := by
    obtain ⟨hwt, hw⟩ := hs.typed.code
    have hload : (Value.load x (Γ x).width).WellTyped := trivial
    have hgen : (genOp2 op.op2 (Γ x) (.load x (Γ x).width) s.expr.value).WellTyped ↔
        op.op2.isShift = true ∨ s.expr.value.width = (Γ x).width :=
      genOp2_wellTyped_iff hload hwt
    have hwidth : s.stored.width = (Γ x).width := by
      rw [hstored, width_genOp2 rfl, op.result]
    rw [hfits, ← hw]
    unfold Assigned.WellTyped
    rw [hstored, hgen]
    exact ⟨fun h => h.2.1, fun h => ⟨hs.typed, h, hstored ▸ hwidth⟩⟩
  rw [htyped]
  apply and_congr_right
  intro hfit
  unfold Assigned.Right Assigned.SignBlind
  rw [hs.right_iff σ, hstored]
  apply and_congr_right
  intro hblind
  have hr := (hs.right_iff σ).mpr hblind
  constructor
  · intro h u hu
    exact (stored_means_iff hs hr (hfits.mp hfit) hu).mp fun v => h u v hu
  · intro h u v hu hv
    exact (stored_means_iff hs hr (hfits.mp hfit) hu).mpr (h u hu) v hv

/-! ### Programs that do not compute their meaning -/

/-- `a / b` with `a` and `b` of type `u32`. -/
def unsignedQuotient : Expr := .op2 .div (.id 0) (.id 1)

theorem compile_unsignedQuotient :
    compile (fun _ => .u32) .inferred unsignedQuotient =
      some (.op2 .div (.id 0 .u32 (.load 0 32)) (.id 1 .u32 (.load 1 32)) .u32
        (.binop .sdiv (.load 0 32) (.load 1 32))) := by
  have hinfer : inferenceExprType (fun _ => .u32) unsignedQuotient.node =
      some (.op2 .div (.id 0) (.id 1) (some .u32), .u32) := by decide
  rw [compile, hinfer]
  simp only [Option.bind_some, walk]
  rfl

/-- `x += y` with `x` of type `i64` and `y` of type `i32`. -/
theorem walkAssign_mixed :
    walkAssign (fun x => if x = 0 then .i64 else .i32) 0 (some .add) (.id 1) =
      some ⟨.id 1 .i32 (.load 1 32), .binop .add (.load 0 64) (.load 1 32)⟩ := by
  simp [walkAssign, inferenceAssignType, Expr.node, getExprTypeFromTree, walk]
  decide

/-- The quotient of two `u32` variables is their signed one, and a compound assignment takes a
variable of any width. -/
theorem not_computes :
    (¬∀ (Γ : Vars) (pl : Place) (e : Expr) (w : Walked), compile Γ pl e = some w →
      ∀ σ : Store Γ, w.Right σ) ∧
    ¬∀ (Γ : Vars) (x : Id) (op : AssignOp) (e : Expr) (s : Assigned),
      walkAssign Γ x (some op) e = some s → s.WellTyped Γ x := by
  constructor
  · intro h
    have hright := h _ _ _ _ compile_unsignedQuotient fun x => if x = 0 then 0xFFFFFFFF#32 else 2#32
    have hmeans := hright.means 0x7FFFFFFF (by decide)
    exact absurd hmeans (by decide)
  · intro h
    have htyped := (h _ _ _ _ _ walkAssign_mixed).2.1
    exact absurd htyped.2.2 (by decide)

/-- The quotient of two words below `2 ^ 31` is computed. -/
theorem unsignedQuotient_right :
    ∃ w, compile (fun _ => .u32) .inferred unsignedQuotient = some w ∧
      w.Right (Γ := fun _ => .u32) fun x => if x = 0 then 7#32 else 2#32 := by
  refine ⟨_, compile_unsignedQuotient, ?_⟩
  refine (((computes_iff fun _ => .u32).1 _ _ _ compile_unsignedQuotient).2 _).mpr ?_
  intro n hn
  rcases List.mem_cons.mp hn with rfl | hn
  · intro u v hu hv _ _
    cases hu
    cases hv
    decide
  · rcases List.mem_cons.mp hn with rfl | hn
    · trivial
    · obtain rfl := List.mem_singleton.mp hn
      trivial

end CaLang.Arith

import CaLang.Arith.Compiled

/-! # The walk of an integer expression

**The walk of a tree leaves a sound one**: every node's code is well typed, every node denotes an
integer of its type, and all nodes are right exactly where no division tells signed from unsigned
words.  One lemma for each kind of node; the induction is on the size of the tree, since the operand
of an `as` is walked as inference leaves it.
-/

namespace CaLang.Arith

open Instr

/-- `v` is an integer of type `t`. -/
def Ty.Has (t : Ty) (v : Int) : Prop := ∃ x : BitVec t.width, t.value x = v

theorem Ty.has_wrap (t : Ty) (v : Int) : t.Has (t.wrap v) := ⟨BitVec.ofInt t.width v, rfl⟩

theorem Ty.has_bool (p : Prop) [Decidable p] : Ty.bool.Has (if p then 1 else 0) := by
  split
  · exact ⟨1, rfl⟩
  · exact ⟨0, rfl⟩

/-- An operator yields an integer of its type. -/
theorem Op2.has_meaning {op : Op2} {t u : Ty} {x : BitVec t.width} {z : BitVec u.width} {v : Int}
    (hfit : op.isShift = true ∨ t = u) (hv : op.meaning t (t.value x) (u.value z) = some v) :
    (op.result t).Has v := by
  cases op with
  | add | sub | mul | band | bor | bxor =>
      cases hv
      exact ⟨_, rfl⟩
  | lt | gt | ge | le | ne | eq =>
      cases hv
      exact Ty.has_bool _
  | div =>
      obtain ⟨hd, hv⟩ := Option.ite_none_right_eq_some.mp hv
      cases hv
      exact ⟨_, hd.2⟩
  | mod =>
      obtain rfl := hfit.resolve_left (by decide)
      obtain ⟨-, hv⟩ := Option.ite_none_right_eq_some.mp hv
      cases hv
      change t.Has _
      cases hs : catypeIsSigned t with
      | true =>
          refine ⟨x.srem z, ?_⟩
          rw [value_signed hs, value_signed hs, value_signed hs, BitVec.toInt_srem]
      | false =>
          refine ⟨x % z, ?_⟩
          rw [value_unsigned hs, value_unsigned hs, value_unsigned hs, toNat_tmod]
  | shiftl =>
      obtain ⟨-, hv⟩ := Option.ite_none_right_eq_some.mp hv
      cases hv
      exact ⟨_, rfl⟩
  | shiftr =>
      obtain ⟨-, hv⟩ := Option.ite_none_right_eq_some.mp hv
      cases hv
      change t.Has _
      cases hs : catypeIsSigned t with
      | true =>
          refine ⟨x.sshiftRight (u.value z).toNat, ?_⟩
          rw [value_signed hs, value_signed hs, toInt_shr]
      | false =>
          refine ⟨x >>> (u.value z).toNat, ?_⟩
          rw [value_unsigned hs, value_unsigned hs, toNat_shr]

/-- An unsigned quotient is defined, save for a division by zero. -/
theorem divides_unsigned {t : Ty} {x y : BitVec t.width} (hs : catypeIsSigned t = false)
    (hne : t.value y ≠ 0) : Divides t (t.value x) (t.value y) := by
  refine ⟨hne, ?_⟩
  rw [value_unsigned hs, value_unsigned hs, ← toNat_tdiv, ← value_unsigned hs]
  exact wrap_wordValue

/-- Where an operator denotes nothing, its operands are no matter. -/
theorem Op2.agrees_or_denotes {op : Op2} {t : Ty} {x : BitVec t.width} {v : Int}
    (hv : op.isShift = true ∨ ∃ y : BitVec t.width, t.value y = v) (hne : v ≠ 0) :
    op.Agrees t (t.value x) v ∨ ∃ r, op.meaning t (t.value x) v = some r := by
  cases op with
  | div =>
      obtain ⟨y, rfl⟩ := hv.resolve_left (by decide)
      cases hs : catypeIsSigned t with
      | true => exact Or.inl fun h => absurd (hs.symm.trans h) (by decide)
      | false => exact Or.inr ⟨_, if_pos (divides_unsigned hs hne)⟩
  | mod =>
      obtain ⟨y, rfl⟩ := hv.resolve_left (by decide)
      cases hs : catypeIsSigned t with
      | true => exact Or.inl fun h => absurd (hs.symm.trans h) (by decide)
      | false => exact Or.inr ⟨_, if_pos (divides_unsigned hs hne)⟩
  | _ => exact Or.inl trivial

variable {Γ : Vars}

/-- What holds of a node after its walk: its code is well typed, it denotes integers of its type,
and it is right exactly where no division tells signed from unsigned words. -/
structure Sound (Γ : Vars) (w : Walked) : Prop where
  typed : w.WellTyped
  has : ∀ (σ : Store Γ) v, w.denote σ = some v → w.catype.Has v
  right_iff : ∀ σ : Store Γ, w.Right σ ↔ w.SignBlind σ

namespace Walked

theorem mem_nodes (w : Walked) : w ∈ w.nodes := by
  cases w <;> exact List.mem_cons_self

theorem WellTyped.code {w : Walked} (h : w.WellTyped) : w.TypedCode := h w w.mem_nodes

theorem Right.means {σ : Store Γ} {w : Walked} (h : w.Right σ) : w.Means σ := h w w.mem_nodes

/-- The code of a sound node that is right and denotes an integer yields its word. -/
theorem Right.eval {σ : Store Γ} {w : Walked} {v : Int} (hs : Sound Γ w) (h : w.Right σ)
    (hv : w.denote σ = some v) :
    ∃ x : BitVec w.catype.width, w.catype.value x = v ∧
      w.value.eval σ.mem = some ⟨w.catype.width, x⟩ := by
  obtain ⟨x, rfl⟩ := hs.has σ v hv
  refine ⟨x, rfl, ?_⟩
  rw [h.means _ hv, Ty.word_value]

end Walked

theorem Sound.literal (lit : CALiteral) (t : Ty) :
    Sound Γ (.literal lit t (genPrimitiveLiteralValue lit t)) where
  typed n hn := by
    obtain rfl := List.mem_singleton.mp hn
    exact ⟨trivial, rfl⟩
  has σ v hv := by
    cases hv
    change t.Has _
    split
    · rename_i ht
      subst ht
      split
      · exact ⟨0, rfl⟩
      · exact ⟨1, rfl⟩
    · exact t.has_wrap _
  right_iff σ := by
    refine iff_of_true ?_ ?_
    · intro n hn v hv
      obtain rfl := List.mem_singleton.mp hn
      cases hv
      change some _ = some (t.word _)
      by_cases ht : t = .bool
      · subst ht
        rw [if_pos rfl, if_pos rfl, ← ite_not, word_bool]
        exact congrArg (fun b => some (Word.mk 1 b)) (BitVec.setWidth_eq _)
      · have hle : t.width ≤ 64 := by cases t <;> decide
        have hcast : BitVec.ofInt t.width lit.i64value.toInt = lit.i64value.setWidth t.width :=
          ofInt_trunc (s := true) hle
        rw [if_neg ht, if_neg ht, Ty.word_wrap, Ty.word, hcast]
    · intro n hn
      obtain rfl := List.mem_singleton.mp hn
      trivial

theorem Sound.id (x : Id) : Sound Γ (.id x (Γ x) (.load x (Γ x).width)) where
  typed n hn := by
    obtain rfl := List.mem_singleton.mp hn
    exact ⟨trivial, rfl⟩
  has σ v hv := ⟨σ x, Option.some.inj hv⟩
  right_iff σ := by
    refine iff_of_true ?_ ?_
    · intro n hn v hv
      obtain rfl := List.mem_singleton.mp hn
      cases hv
      change (if (Γ x).width = (Γ x).width then some (σ.mem x) else none) = some ((Γ x).word _)
      rw [if_pos rfl, Ty.word_value]
      rfl
    · intro n hn
      obtain rfl := List.mem_singleton.mp hn
      trivial

/-- A node with one operand whose own code is right whenever its operand's is. -/
theorem Sound.one {w e : Walked} (hn : w.nodes = w :: e.nodes) (he : Sound Γ e)
    (htyped : w.TypedCode) (hhas : ∀ (σ : Store Γ) v, w.denote σ = some v → w.catype.Has v)
    (hmeans : ∀ σ : Store Γ, e.Right σ → w.Means σ) (hagrees : ∀ σ : Store Γ, w.Agrees σ) :
    Sound Γ w where
  typed := by
    unfold Walked.WellTyped
    rw [hn]
    exact List.forall_mem_cons.mpr ⟨htyped, he.typed⟩
  has := hhas
  right_iff σ := by
    unfold Walked.Right Walked.SignBlind
    rw [hn, List.forall_mem_cons, List.forall_mem_cons]
    constructor
    · rintro ⟨-, hr⟩
      exact ⟨hagrees σ, (he.right_iff σ).mp hr⟩
    · rintro ⟨-, hb⟩
      have hr := (he.right_iff σ).mpr hb
      exact ⟨hmeans σ hr, hr⟩

theorem Sound.unary {op : UnaryOp} {e w : Walked} (he : Sound Γ e)
    (h : walkUnaryExpr op e.catype e = some w) : Sound Γ w ∧ w.catype = e.catype := by
  obtain ⟨hwt, hw⟩ := he.typed.code
  cases op with
  | uminus =>
      obtain ⟨-, h⟩ := Option.ite_none_left_eq_some.mp h
      cases h
      refine ⟨.one rfl he ⟨⟨trivial, hwt, rfl⟩, hw⟩ ?_ ?_ fun _ => trivial, rfl⟩
      · intro σ v hv
        obtain ⟨u, -, rfl⟩ := Option.map_eq_some_iff.mp hv
        exact Ty.has_wrap _ _
      · intro σ hr v hv
        obtain ⟨u, hu, rfl⟩ := Option.map_eq_some_iff.mp hv
        obtain ⟨x, rfl, hx⟩ := hr.eval he hu
        exact createNeg_means hw hx
  | bnot =>
      obtain ⟨-, h⟩ := Option.ite_none_right_eq_some.mp h
      cases h
      refine ⟨.one rfl he ⟨⟨hwt, trivial, rfl⟩, hw⟩ ?_ ?_ fun _ => trivial, rfl⟩
      · intro σ v hv
        obtain ⟨u, -, rfl⟩ := Option.map_eq_some_iff.mp hv
        exact Ty.has_wrap _ _
      · intro σ hr v hv
        obtain ⟨u, hu, rfl⟩ := Option.map_eq_some_iff.mp hv
        obtain ⟨x, rfl, hx⟩ := hr.eval he hu
        exact createNot_means hw hx

theorem Sound.asType {t : Ty} {e w : Walked} (he : Sound Γ e)
    (h : walkExprAs e.catype t e = some w) : Sound Γ w ∧ w.catype = t := by
  obtain ⟨hwt, hw⟩ := he.typed.code
  unfold walkExprAs at h
  split at h
  · cases h
  · rename_i hsame
    cases h
    have ht := genCastOps_same hsame
    refine ⟨.one rfl he ⟨hwt, hw.trans (congrArg Ty.width ht)⟩ ?_ ?_ fun _ => trivial, rfl⟩
    · intro σ v hv
      obtain ⟨u, -, rfl⟩ := Option.map_eq_some_iff.mp hv
      exact t.has_wrap _
    · intro σ hr v hv
      obtain ⟨u, hu, rfl⟩ := Option.map_eq_some_iff.mp hv
      change e.value.eval σ.mem = some (t.word _)
      rw [hr.means u hu, Ty.word_wrap, ht]
  · rename_i c hop
    cases h
    refine ⟨.one rfl he ⟨⟨hwt, hw ▸ (genCastOps_op hop).1⟩, rfl⟩ ?_ ?_ fun _ => trivial, rfl⟩
    · intro σ v hv
      obtain ⟨u, -, rfl⟩ := Option.map_eq_some_iff.mp hv
      exact t.has_wrap _
    · intro σ hr v hv
      obtain ⟨u, hu, rfl⟩ := Option.map_eq_some_iff.mp hv
      obtain ⟨x, rfl, hx⟩ := hr.eval he hu
      exact cast_means hop hx

/-- A binary operator with operands that are right. -/
theorem means_op2_iff {op : Op2} {a b : Walked} {σ : Store Γ} (ha : Sound Γ a) (hb : Sound Γ b)
    (hfit : op.isShift = true ∨ a.catype = b.catype) (hra : a.Right σ) (hrb : b.Right σ) :
    Walked.Means σ (.op2 op a b (op.result a.catype) (genOp2 op a.catype a.value b.value)) ↔
      Walked.Agrees σ (.op2 op a b (op.result a.catype)
        (genOp2 op a.catype a.value b.value)) := by
  have hwa := ha.typed.code.2
  have hwb := hb.typed.code.2
  constructor
  · intro hm u v hu hv hne
    obtain ⟨x, rfl, hx⟩ := hra.eval ha hu
    obtain ⟨z, rfl, hz⟩ := hrb.eval hb hv
    have hty : op.isShift = true ∨ ∃ y : BitVec a.catype.width,
        a.catype.value y = b.catype.value z := by
      apply hfit.imp_right
      intro h
      rw [h]
      exact ⟨z, rfl⟩
    rcases Op2.agrees_or_denotes hty hne with h | ⟨r, hr⟩
    · exact h
    · refine (genOp2_means_iff hwa hwb hx hz hfit hr).mp (hm r ?_) hne
      rw [Walked.denote, hu, hv]
      exact hr
  · intro hagree r hr
    obtain ⟨u, hu, hr⟩ := Option.bind_eq_some_iff.mp hr
    obtain ⟨v, hv, hr⟩ := Option.bind_eq_some_iff.mp hr
    obtain ⟨x, rfl, hx⟩ := hra.eval ha hu
    obtain ⟨z, rfl, hz⟩ := hrb.eval hb hv
    exact (genOp2_means_iff hwa hwb hx hz hfit hr).mpr (hagree _ _ hu hv)

theorem Sound.op2 {op : Op2} {ty : Option Ty} {a b w : Walked} (ha : Sound Γ a) (hb : Sound Γ b)
    (h : walkExprOp2 op ty a b = some w) :
    Sound Γ w ∧ ∀ t, ty = some t → t = w.catype := by
  obtain ⟨hta, hwa⟩ := ha.typed.code
  obtain ⟨htb, hwb⟩ := hb.typed.code
  unfold walkExprOp2 at h
  obtain ⟨hfit, h⟩ := Option.ite_none_left_eq_some.mp h
  obtain ⟨hty, h⟩ := Option.ite_none_right_eq_some.mp h
  cases h
  have hfit : op.isShift = true ∨ a.catype = b.catype := by
    cases hs : op.isShift with
    | true => exact Or.inl rfl
    | false =>
        rw [hs] at hfit
        exact Or.inr (by simpa using hfit)
  refine ⟨⟨?_, ?_, ?_⟩, ?_⟩
  · have hwidth : op.isShift = true ∨ b.value.width = a.value.width :=
      hfit.imp_right fun h => by rw [hwa, hwb, h]
    exact List.forall_mem_cons.mpr ⟨⟨(genOp2_wellTyped_iff hta htb).mpr hwidth, width_genOp2 hwa⟩,
      List.forall_mem_append.mpr ⟨ha.typed, hb.typed⟩⟩
  · intro σ r hr
    obtain ⟨u, hu, hr⟩ := Option.bind_eq_some_iff.mp hr
    obtain ⟨v, hv, hr⟩ := Option.bind_eq_some_iff.mp hr
    obtain ⟨x, rfl⟩ := ha.has σ u hu
    obtain ⟨z, rfl⟩ := hb.has σ v hv
    exact Op2.has_meaning hfit hr
  · intro σ
    have hparts : a.Right σ ∧ b.Right σ ↔ a.SignBlind σ ∧ b.SignBlind σ :=
      and_congr (ha.right_iff σ) (hb.right_iff σ)
    have hmeans := means_op2_iff ha hb hfit (σ := σ)
    unfold Walked.Right Walked.SignBlind
    rw [Walked.nodes, List.forall_mem_cons, List.forall_mem_cons, List.forall_mem_append,
      List.forall_mem_append]
    constructor
    · rintro ⟨hm, hr⟩
      exact ⟨(hmeans hr.1 hr.2).mp hm, hparts.mp hr⟩
    · rintro ⟨hagree, hblind⟩
      have hr := hparts.mpr hblind
      exact ⟨(hmeans hr.1 hr.2).mpr hagree, hr⟩
  · intro t ht
    subst ht
    have heq : t = if isLogicOp op then .bool else a.catype := by simpa using hty
    exact heq

/-! ### The walk -/

/-- The walk of a consistent tree leaves a sound one, of the type its root has in the tree. -/
theorem walk_sound {n : Node} {w : Walked} (hn : n.Consistent Γ) (h : walk Γ n = some w) :
    Sound Γ w ∧ ∀ t, getExprTypeFromTree Γ n = some t → t = w.catype := by
  induction hs : n.size using Nat.strong_induction_on generalizing n w with
  | _ size ih =>
      subst hs
      cases n with
      | literal lit =>
          rw [walk] at h
          obtain ⟨⟨l, s⟩, hl, heq⟩ := Option.map_eq_some_iff.mp h
          cases heq
          refine ⟨Sound.literal l s, ?_⟩
          intro t ht
          have hd : lit.datatype = some t := ht
          unfold CALiteral.inference at hl
          rw [hd] at hl
          cases hl
          rfl
      | id x =>
          rw [walk] at h
          cases h
          exact ⟨Sound.id x, fun t ht => (Option.some.inj ht).symm⟩
      | unary op e ty =>
          rw [walk] at h
          obtain ⟨s, hty, h⟩ := Option.bind_eq_some_iff.mp h
          obtain ⟨we, he, h⟩ := Option.bind_eq_some_iff.mp h
          obtain ⟨hse, hte⟩ := ih e.size (Nat.lt_succ_self _) hn.1 he rfl
          obtain rfl := hte s hty
          obtain ⟨hsw, hcat⟩ := hse.unary h
          refine ⟨hsw, ?_⟩
          intro t ht
          rw [hcat]
          exact hte t (hn.2 t ht)
      | op2 op a b ty =>
          rw [walk] at h
          obtain ⟨wa, ha, h⟩ := Option.bind_eq_some_iff.mp h
          obtain ⟨wb, hb, h⟩ := Option.bind_eq_some_iff.mp h
          have hsa := (ih a.size (by simp only [Node.size]; omega) hn.1 ha rfl).1
          have hsb := (ih b.size (by simp only [Node.size]; omega) hn.2 hb rfl).1
          exact hsa.op2 hsb h
      | asType e s ty =>
          rw [walk] at h
          split at h
          · cases h
          · rename_i e' r hi
            obtain ⟨s', hty, h⟩ := Option.bind_eq_some_iff.mp h
            obtain ⟨we, he, h⟩ := Option.bind_eq_some_iff.mp h
            have hsize : e'.size < (Node.asType e s ty).size := by
              rw [size_of_inference Γ hi]
              exact Nat.lt_succ_self _
            obtain ⟨hse, hte⟩ := ih e'.size hsize (hn.1.inference hi).1 he rfl
            obtain rfl := hte s' hty
            obtain ⟨hsw, hcat⟩ := hse.asType h
            exact ⟨hsw, fun t ht => (hn.2 t ht).trans hcat.symm⟩

/-- An expression compiles to a sound tree at every place. -/
theorem compile_sound {pl : Place} {e : Expr} {w : Walked} (h : compile Γ pl e = some w) :
    Sound Γ w := by
  cases pl with
  | stmt => exact (walk_sound (e.consistent Γ) h).1
  | inferred =>
      obtain ⟨⟨n, t⟩, hi, h⟩ := Option.bind_eq_some_iff.mp h
      exact (walk_sound ((e.consistent Γ).inference hi).1 h).1
  | determined t =>
      obtain ⟨n, hd, h⟩ := Option.bind_eq_some_iff.mp h
      exact (walk_sound (e.determine_consistent hd).1 h).1

end CaLang.Arith

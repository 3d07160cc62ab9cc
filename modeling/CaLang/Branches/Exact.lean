import CaLang.Branches.Selected

/-! # When branching expressions are emitted exactly

`Expr.fits` is what a well-typed expression needs to get through the walkers.

* **The value of every `ife` has 32 bits**, as the variable has that it is stored in.
* The value of a `let` has a type before its walk: `Expr.known` tells which expressions do when the
  variables of their own blocks have none.  A value of an unknown type is taken for the type of the
  other operand on the right, but not on the left.
* No `let` binds an `ife` itself.
* The condition of an `ife` may have no type yet, but no clash of types either.

`&&` and `||` need nothing of their own.
-/

namespace CaLang.Branches

open Cfg
open Pointers (CADataType llvmtypeFromCatype)
open CaLang.Types (Name LLVMType)

/-! ### What is known of a type before the walk -/

mutual

/-- Whether the expression has a type already, if it has no clash: the variables from level `n` on
have none. -/
def Expr.known (n : Nat) : Expr → Option Bool
  | .literal _ _ => some true
  | .id i => some (i < n)
  | .call _ _ _ => some true
  | .op2 _ cmp l r => do
      let k ← l.known n
      let k' ← r.known n
      if k && !k' then none else some (cmp || k || k')
  | .landor _ l r => do
      let k ← l.known n
      let k' ← r.known n
      if k && !k' then none else some (k || k')
  | .ife _ b b' => do
      let k ← b.known n
      let k' ← b'.known n
      if k = k' then some k else none

/-- Only the value of a block is looked at. -/
def Block.known (n : Nat) : Block → Option Bool
  | .value e => e.known n
  | .letBind _ rest => rest.known n
  | .exprStmt _ rest => rest.known n

end

/-! ### The types of the parts -/

section

variable {Γ : List CADataType} {t : CADataType}

theorem op2_type_eq_some {n : Name} {cmp : Bool} {l r : Expr} :
    (Expr.op2 n cmp l r).type Γ = some t ↔ ∃ u, l.type Γ = some u ∧ r.type Γ = some u ∧
      u ≠ .prim .void ∧ (if cmp then boolType else u) = t := by
  simp only [Expr.type, Option.bind_eq_bind, Option.bind_eq_some_iff,
    Option.ite_none_right_eq_some, Option.some.injEq]
  constructor
  · rintro ⟨u, hl, _, hr, ⟨rfl, hu⟩, h⟩
    exact ⟨u, hl, hr, hu, h⟩
  · rintro ⟨u, hl, hr, hu, h⟩
    exact ⟨u, hl, u, hr, ⟨rfl, hu⟩, h⟩

theorem landor_type_eq_some {isand : Bool} {l r : Expr} :
    (Expr.landor isand l r).type Γ = some t ↔
      l.type Γ = some boolType ∧ r.type Γ = some boolType ∧ boolType = t := by
  simp only [Expr.type, Option.bind_eq_bind, Option.bind_eq_some_iff,
    Option.ite_none_right_eq_some, Option.some.injEq]
  constructor
  · rintro ⟨_, hl, _, hr, ⟨rfl, rfl⟩, h⟩
    exact ⟨hl, hr, h⟩
  · rintro ⟨hl, hr, h⟩
    exact ⟨_, hl, _, hr, ⟨rfl, rfl⟩, h⟩

theorem ife_type_eq_some {c : Expr} {b b' : Block} :
    (Expr.ife c b b').type Γ = some t ↔
      c.type Γ = some boolType ∧ b.type Γ = some t ∧ b'.type Γ = some t := by
  simp only [Expr.type, Option.bind_eq_bind, Option.bind_eq_some_iff,
    Option.ite_none_right_eq_some, Option.some.injEq]
  constructor
  · rintro ⟨_, hc, _, hb, _, hb', ⟨rfl, rfl⟩, rfl⟩
    exact ⟨hc, hb, hb'⟩
  · rintro ⟨hc, hb, hb'⟩
    exact ⟨_, hc, _, hb, _, hb', ⟨rfl, rfl⟩, rfl⟩

theorem letBind_type_eq_some {e : Expr} {rest : Block} :
    (Block.letBind e rest).type Γ = some t ↔
      ∃ u, e.type Γ = some u ∧ u ≠ .prim .void ∧ rest.type (Γ ++ [u]) = some t := by
  simp only [Block.type, Option.bind_eq_bind, Option.bind_eq_some_iff,
    Option.ite_none_right_eq_some]

theorem exprStmt_type_eq_some {e : Expr} {rest : Block} :
    (Block.exprStmt e rest).type Γ = some t ↔ ∃ u, e.type Γ = some u ∧ rest.type Γ = some t := by
  simp only [Block.type, Option.bind_eq_bind, Option.bind_eq_some_iff]

end

theorem operandType_known (t : CADataType) (k k' : Bool) :
    operandType (if k then some t else none) (if k' then some t else none) =
      if k && !k' then none else some (if k || k' then some t else none) := by
  cases k <;> cases k' <;> simp [operandType]

mutual

/-- Of an expression that has the type `t`, the typing pass finds this type, no type or a clash. -/
theorem Expr.inference_eq : ∀ (e : Expr) {Γ Δ : List CADataType} {t : CADataType}, Γ <+: Δ →
    e.type Δ = some t →
    e.inference Γ = (e.known Γ.length).map fun k => if k then some t else none
  | .literal u k, Γ, Δ, t, _, h => by
      obtain rfl := Option.some.inj h
      rfl
  | .id i, Γ, Δ, t, hp, h => by
      obtain ⟨Θ, rfl⟩ := hp
      rw [Expr.type] at h
      by_cases hi : i < Γ.length
      · rw [List.getElem?_append_left hi] at h
        simp [Expr.inference, Expr.known, hi, ← h]
      · simp [Expr.inference, Expr.known, hi]
  | .call ret n args, Γ, Δ, t, _, h => by
      simp only [Expr.type, Option.ite_none_right_eq_some, Option.some.injEq] at h
      simp [Expr.inference, Expr.known, h.2]
  | .op2 n cmp l r, Γ, Δ, t, hp, h => by
      obtain ⟨u, hl, hr, -, rfl⟩ := op2_type_eq_some.mp h
      rw [Expr.inference, l.inference_eq hp hl, r.inference_eq hp hr, Expr.known]
      cases l.known Γ.length with
      | none => rfl
      | some k =>
          cases r.known Γ.length with
          | none => rfl
          | some k' =>
              show (operandType _ _).bind _ = _
              rw [operandType_known]
              cases k <;> cases k' <;> cases cmp <;> rfl
  | .landor isand l r, Γ, Δ, t, hp, h => by
      obtain ⟨hl, hr, rfl⟩ := landor_type_eq_some.mp h
      rw [Expr.inference, l.inference_eq hp hl, r.inference_eq hp hr, Expr.known]
      cases l.known Γ.length with
      | none => rfl
      | some k =>
          cases r.known Γ.length with
          | none => rfl
          | some k' =>
              show operandType _ _ = _
              rw [operandType_known]
              cases k <;> cases k' <;> rfl
  | .ife c b b', Γ, Δ, t, hp, h => by
      obtain ⟨-, hb, hb'⟩ := ife_type_eq_some.mp h
      rw [Expr.inference, b.inference_eq hp hb, b'.inference_eq hp hb', Expr.known]
      cases b.known Γ.length with
      | none => rfl
      | some k =>
          cases b'.known Γ.length with
          | none => rfl
          | some k' => cases k <;> cases k' <;> simp

theorem Block.inference_eq : ∀ (b : Block) {Γ Δ : List CADataType} {t : CADataType}, Γ <+: Δ →
    b.type Δ = some t →
    b.inference Γ = (b.known Γ.length).map fun k => if k then some t else none
  | .value e, _, _, _, hp, h => e.inference_eq hp h
  | .letBind e rest, Γ, Δ, t, hp, h => by
      obtain ⟨u, -, -, h⟩ := letBind_type_eq_some.mp h
      exact rest.inference_eq (hp.trans (List.prefix_append Δ [u])) h
  | .exprStmt e rest, Γ, Δ, t, hp, h => by
      obtain ⟨u, -, h⟩ := exprStmt_type_eq_some.mp h
      exact rest.inference_eq hp h

end

/-! ### What gets through the walkers -/

mutual

/-- Every `ife` has a value of 32 bits, no `let` binds one, and what is typed before its walk can be
typed. -/
def Expr.fits (Γ : List CADataType) : Expr → Bool
  | .literal _ _ | .id _ | .call _ _ _ => true
  | .op2 _ _ l r | .landor _ l r => l.fits Γ && r.fits Γ
  | .ife c b b' => (c.known Γ.length).isSome && c.fits Γ && b.fits Γ && b'.fits Γ &&
      (b.type Γ).map llvmtypeFromCatype = some (.int 32)

def Block.fits (Γ : List CADataType) : Block → Bool
  | .value e => e.fits Γ
  | .letBind e rest =>
      match e.type Γ with
      | some t => e.known Γ.length = some true && !e.isIfe && e.fits Γ && rest.fits (Γ ++ [t])
      | none => false
  | .exprStmt e rest => e.fits Γ && rest.fits Γ

end

theorem sameToken_self (t : CADataType) : sameToken t t = true := by
  cases t <;> simp [sameToken]

variable {sc : Scope} {st st' : Builder} {o : Operand} {code : Code Const Op} {v : Val Const}
  {Γ : List CADataType} {t u : CADataType}

theorem Scope.types_getElem? (hsc : sc.types = Γ) (i : Nat) : Γ[i]? = (sc[i]?).map Prod.snd := by
  rw [← hsc, Scope.types, List.getElem?_map]

theorem popRightValue_catype {c : Code Const Op}
    (h : popRightValue o st = some ((v, t), c, st')) : t = o.catype := by
  cases o with
  | alloc a ta =>
      simp [popRightValue, Build.prepend_eq_some] at h
      exact h.1.1.2.symm
  | val w tw =>
      simp [popRightValue] at h
      exact h.1.2.symm

theorem popRightValue_exists (o : Operand) (st : Builder) :
    ∃ v c st', popRightValue o st = some ((v, o.catype), c, st') := by
  cases o with
  | alloc a ta => exact ⟨_, _, _, rfl⟩
  | val w tw => exact ⟨_, _, _, rfl⟩

/-- A walker that yields operands of one type only, and only if `p`. -/
def Emits (walk : Emit Operand) (t : CADataType) (p : Bool) : Prop :=
  (∀ st o c st', walk st = some (o, c, st') → o.catype = t ∧ p) ∧
    (p → ∀ st, ∃ o c st', walk st = some (o, c, st'))

namespace Emits

variable {walk : Emit Operand} {p : Bool}

theorem walkValue (h : Emits walk t p) :
    (∀ st v u c st', Branches.walkValue walk st = some ((v, u), c, st') → u = t ∧ p) ∧
      (p → ∀ st, ∃ v c st', Branches.walkValue walk st = some ((v, t), c, st')) := by
  constructor
  · intro st v u c st' hw
    obtain ⟨o, c₁, st₁, c₂, ho, hp, -⟩ := walkValue_eq_some.mp hw
    obtain ⟨rfl, hp'⟩ := h.1 _ _ _ _ ho
    exact ⟨popRightValue_catype hp, hp'⟩
  · intro hp st
    obtain ⟨o, c, st₁, ho⟩ := h.2 hp st
    obtain ⟨v, c', st₂, hv⟩ := popRightValue_exists o st₁
    obtain rfl := (h.1 _ _ _ _ ho).1
    exact ⟨v, c ++ c', st₂, walkValue_eq_some.mpr ⟨o, c, st₁, c', ho, hv, rfl⟩⟩

end Emits

/-- The arguments of a call are variables in scope. -/
theorem walkArgs_exists {args : List Nat} (h : ∀ i ∈ args, i < sc.length) (st : Builder) :
    ∃ vs c st', walkArgs sc args st = some (vs, c, st') := by
  induction args generalizing st with
  | nil => exact ⟨_, _, _, rfl⟩
  | cons i args ih =>
      obtain ⟨⟨a, ta⟩, hi⟩ : ∃ p, sc[i]? = some p :=
        ⟨_, List.getElem?_eq_getElem (h i List.mem_cons_self)⟩
      obtain ⟨v, c, st₁, hv⟩ := popRightValue_exists (.alloc a ta) st
      obtain ⟨vs, c', st₂, hvs⟩ := ih (fun j hj => h j (List.mem_cons_of_mem _ hj)) st₁
      refine ⟨v :: vs, c ++ (c' ++ []), st₂, ?_⟩
      simp only [walkArgs, hi]
      exact Build.bind_eq_some.mpr ⟨_, c, st₁, _, hv,
        Build.bind_eq_some.mpr ⟨vs, c', st₂, [], hvs, rfl, rfl⟩, rfl⟩

/-- A value is bound to a variable of its own type. -/
theorem bindVariableValue_exists (o : Operand) (st : Builder) :
    ∃ c code st', bindVariableValue o.catype o st = some (c, code, st') := by
  cases o with
  | val w tw =>
      refine ⟨st.next, [.store st.next w], ⟨st.next + 1, st.block⟩, ?_⟩
      simp [bindVariableValue, Operand.catype, storeVar, Build.prepend]
  | alloc a ta =>
      simp only [bindVariableValue]
      split
      · exact ⟨_, _, _, rfl⟩
      · refine ⟨st.next + 1, [.load st.next a, .store (st.next + 1) (.reg st.next)],
          ⟨st.next + 2, st.block⟩, ?_⟩
        refine (Build.bind_of_some rfl).trans ?_
        simp [Operand.catype, storeVar, Build.prepend]

mutual

theorem Expr.emits : ∀ (e : Expr) {sc : Scope} {t : CADataType}, e.type sc.types = some t →
    Emits (e.walk sc) t (e.fits sc.types)
  | .literal u k, sc, t, ht => by
      obtain rfl := Option.some.inj ht
      refine ⟨?_, fun _ st => ⟨_, _, _, rfl⟩⟩
      intro st o c st' h
      simp [Expr.walk] at h
      obtain ⟨rfl, -⟩ := h
      exact ⟨rfl, rfl⟩
  | .id i, sc, t, ht => by
      rw [Expr.type, Scope.types_getElem? rfl, Option.map_eq_some_iff] at ht
      obtain ⟨⟨c, _⟩, hi, rfl⟩ := ht
      simp only [Expr.walk, hi]
      refine ⟨?_, fun _ st => ⟨_, _, _, rfl⟩⟩
      intro st o c st' h
      simp at h
      obtain ⟨rfl, -⟩ := h
      exact ⟨rfl, rfl⟩
  | .call ret n args, sc, t, ht => by
      simp only [Expr.type, Option.ite_none_right_eq_some, Option.some.injEq,
        List.all_eq_true, decide_eq_true_eq, Scope.types, List.length_map] at ht
      obtain ⟨hargs, rfl⟩ := ht
      constructor
      · intro st o c st' h
        rw [Expr.walk, Build.bind_eq_some] at h
        obtain ⟨vs, c₁, st₁, c', hargs, h, rfl⟩ := h
        simp only [Build.fresh_bind, Build.emit_bind] at h
        split at h <;>
        · simp [Build.prepend_eq_some] at h
          obtain ⟨⟨rfl, -⟩, -⟩ := h
          exact ⟨rfl, rfl⟩
      · intro _ st
        obtain ⟨vs, c, st₁, hvs⟩ := walkArgs_exists hargs st
        rw [Expr.walk, Build.bind_of_some hvs]
        simp only [Build.fresh_bind, Build.emit_bind]
        split <;> simp [Build.prepend]
  | .op2 n cmp l r, sc, t, ht => by
      obtain ⟨u, hl, hr, -, rfl⟩ := op2_type_eq_some.mp ht
      have hl := (l.emits hl).walkValue
      have hr := (r.emits hr).walkValue
      constructor
      · intro st o c st' h
        obtain ⟨v₁, t, c₁, st₁, v₂, c₂, st₂, h₁, h₂, rfl, rfl, rfl⟩ := op2_walk_eq_some.mp h
        obtain ⟨rfl, hpl⟩ := hl.1 _ _ _ _ _ h₁
        exact ⟨rfl, by rw [Expr.fits, hpl, (hr.1 _ _ _ _ _ h₂).2]; rfl⟩
      · intro hp st
        rw [Expr.fits, Bool.and_eq_true] at hp
        obtain ⟨v₁, c₁, st₁, h₁⟩ := hl.2 hp.1 st
        obtain ⟨v₂, c₂, st₂, h₂⟩ := hr.2 hp.2 st₁
        exact ⟨_, _, _, op2_walk_eq_some.mpr
          ⟨v₁, u, c₁, st₁, v₂, c₂, st₂, h₁, h₂, rfl, rfl, rfl⟩⟩
  | .landor isand l r, sc, t, ht => by
      obtain ⟨hl, hr, rfl⟩ := landor_type_eq_some.mp ht
      have hl := (l.emits hl).walkValue
      have hr := (r.emits hr).walkValue
      constructor
      · intro st o c st' h
        obtain ⟨v₁, t, c₁, st₁, v₂, t', c₂, st₂, h₁, h₂, -, -, rfl, rfl, rfl⟩ :=
          landor_walk_eq_some.mp h
        obtain ⟨rfl, hpl⟩ := hl.1 _ _ _ _ _ h₁
        exact ⟨rfl, by rw [Expr.fits, hpl, (hr.1 _ _ _ _ _ h₂).2]; rfl⟩
      · intro hp st
        rw [Expr.fits, Bool.and_eq_true] at hp
        obtain ⟨v₁, c₁, st₁, h₁⟩ := hl.2 hp.1 st
        obtain ⟨v₂, c₂, st₂, h₂⟩ := hr.2 hp.2 ⟨st₁.next + 2, st₁.next⟩
        exact ⟨_, _, _, landor_walk_eq_some.mpr
          ⟨v₁, boolType, c₁, st₁, v₂, boolType, c₂, st₂, h₁, h₂, rfl, rfl, rfl, rfl, rfl⟩⟩
  | .ife c b b', sc, t, ht => by
      obtain ⟨hc, hb, hb'⟩ := ife_type_eq_some.mp ht
      have hi : (c.inference sc.types).isSome = (c.known sc.types.length).isSome := by
        rw [c.inference_eq List.prefix_rfl hc, Option.isSome_map]
      have hfits : (Expr.ife c b b').fits sc.types = true ↔
          (c.known sc.types.length).isSome ∧ c.fits sc.types ∧ b.fits sc.types ∧
            b'.fits sc.types ∧ llvmtypeFromCatype t = .int 32 := by
        simp [Expr.fits, hb, and_assoc]
      have hc := (c.emits hc).walkValue
      have hb := (b.emits hb).walkValue
      have hb' := (b'.emits hb').walkValue
      constructor
      · intro st o code st' h
        obtain ⟨v, cc, st₁, v₁, t₁, c₁, st₂, v₂, t₂, c₂, st₃, hki, h₀, h₁, h₂, h32, -, -, rfl, -,
          -⟩ := ife_walk_eq_some.mp h
        obtain ⟨rfl, hpb⟩ := hb.1 _ _ _ _ _ h₁
        exact ⟨rfl, hfits.mpr ⟨hi ▸ hki, (hc.1 _ _ _ _ _ h₀).2, hpb, (hb'.1 _ _ _ _ _ h₂).2, h32⟩⟩
      · intro hp st
        obtain ⟨hki, hpc, hpb, hpb', h32⟩ := hfits.mp hp
        obtain ⟨v, cc, st₁, h₀⟩ := hc.2 hpc ⟨st.next + 3, st.block⟩
        obtain ⟨v₁, c₁, st₂, h₁⟩ := hb.2 hpb ⟨st₁.next + 1, st.next + 1⟩
        obtain ⟨v₂, c₂, st₃, h₂⟩ := hb'.2 hpb' ⟨st₂.next, st₁.next⟩
        exact ⟨_, _, _, ife_walk_eq_some.mpr ⟨v, cc, st₁, v₁, t, c₁, st₂, v₂, t, c₂, st₃,
          hi ▸ hki, h₀, h₁, h₂, h32, h32, sameToken_self t, rfl, rfl, rfl⟩⟩

theorem Block.emits : ∀ (b : Block) {sc : Scope} {t : CADataType}, b.type sc.types = some t →
    Emits (b.walk sc) t (b.fits sc.types)
  | .value e, _, _, ht => e.emits ht
  | .letBind e rest, sc, t, ht => by
      obtain ⟨u, he, -, hrest⟩ := letBind_type_eq_some.mp ht
      have hinf := e.inference_eq (List.prefix_rfl (l := sc.types)) he
      have htypes : ∀ c, Scope.types (sc ++ [(c, u)]) = sc.types ++ [u] := fun c => by
        simp [Scope.types]
      have hrest : ∀ c, Emits (rest.walk (sc ++ [(c, u)])) t (rest.fits (sc.types ++ [u])) :=
        fun c => htypes c ▸ rest.emits (by rw [htypes]; exact hrest)
      have hfits : (Block.letBind e rest).fits sc.types = true ↔
          e.known sc.types.length = some true ∧ e.isIfe = false ∧ e.fits sc.types ∧
            rest.fits (sc.types ++ [u]) := by
        simp [Block.fits, he, and_assoc]
      have hemit := e.emits he
      constructor
      · intro st o code st' h
        obtain ⟨u', o', c₁, st₁, c, c₂, st₂, c₃, hi, hife, h₁, h₂, h₃, rfl⟩ :=
          letBind_walk_eq_some.mp h
        rw [hinf] at hi
        obtain ⟨k, hk, hu⟩ := Option.map_eq_some_iff.mp hi
        cases k with
        | false => cases hu
        | true =>
            obtain rfl := Option.some.inj hu
            obtain ⟨ho, hp⟩ := (hrest c).1 _ _ _ _ h₃
            exact ⟨ho, hfits.mpr ⟨hk, hife, (hemit.1 _ _ _ _ h₁).2, hp⟩⟩
      · intro hp st
        obtain ⟨hk, hife, hpe, hpr⟩ := hfits.mp hp
        obtain ⟨o', c₁, st₁, h₁⟩ := hemit.2 hpe st
        obtain rfl := (hemit.1 _ _ _ _ h₁).1
        obtain ⟨c, c₂, st₂, h₂⟩ := bindVariableValue_exists o' st₁
        obtain ⟨o, c₃, st₃, h₃⟩ := (hrest c).2 hpr st₂
        exact ⟨o, _, st₃, letBind_walk_eq_some.mpr ⟨o'.catype, o', c₁, st₁, c, c₂, st₂, c₃,
          by rw [hinf, hk]; rfl, hife, h₁, h₂, h₃, rfl⟩⟩
  | .exprStmt e rest, sc, t, ht => by
      obtain ⟨u, he, hrest⟩ := exprStmt_type_eq_some.mp ht
      have hemit := e.emits he
      have hrest := rest.emits hrest
      constructor
      · intro st o code st' h
        obtain ⟨o', c₁, st₁, c₂, h₁, h₂, rfl⟩ := exprStmt_walk_eq_some.mp h
        obtain ⟨ho, hp⟩ := hrest.1 _ _ _ _ h₂
        exact ⟨ho, by rw [Block.fits, (hemit.1 _ _ _ _ h₁).2, hp]; rfl⟩
      · intro hp st
        rw [Block.fits, Bool.and_eq_true] at hp
        obtain ⟨o', c₁, st₁, h₁⟩ := hemit.2 hp.1 st
        obtain ⟨o, c₂, st₂, h₂⟩ := hrest.2 hp.2 st₁
        exact ⟨o, _, st₂, exprStmt_walk_eq_some.mpr ⟨o', c₁, st₁, c₂, h₁, h₂, rfl⟩⟩

end

/-! ### The result -/

/-- Wherever it stands, the expression is emitted as blocks whose phis name the blocks that jump to
them, and the run of these blocks gives its value, recorded with its type, and the world after its
evaluation. -/
def Expr.EmittedExactly (Γ : List CADataType) (e : Expr) (t : CADataType) : Prop :=
  ∀ (sc : Scope) (st : Builder), sc.types = Γ → sc.Below st.next → st.block < st.next →
    ∃ v code st', walkValue (e.walk sc) st = some ((v, t), code, st') ∧ (labels code).Nodup ∧
      (∀ b ∈ labels code, st.next ≤ b) ∧ Closed (edges st.block code) (phis st.block code) ∧
      ∀ (V W : Type) (M : Machine Const Op V W) (σ : List V) (s : State V W), Holds sc σ s →
        Runs M code st.block s st'.block fun s' => (v.eval M s', s'.world) = e.eval M σ s.world

end CaLang.Branches

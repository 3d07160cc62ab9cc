import CaLang.Branches.Walk

/-! # Only what is selected is run

Whenever a walker succeeds, its code **runs to the value of the expression and to the world of its
evaluation**, whatever the variables hold.  An `ife` runs one body and a short circuit its second
operand at most, since `Runs.diamond` and `Runs.shortCircuit` do; each walker is spelled out as the
code that it puts together, and the induction over expressions and blocks uses one rule for each
form.
-/

namespace CaLang.Branches

open Cfg
open Pointers (CADataType llvmtypeFromCatype)
open CaLang.Types (Name LLVMType)

/-! ### What the walkers put together -/

variable {sc : Scope} {st st' : Builder} {o : Operand} {code : Code Const Op} {v : Val Const}
  {t : CADataType}

theorem walkValue_eq_some {walk : Emit Operand} :
    walkValue walk st = some ((v, t), code, st') ↔ ∃ o c₁ st₁ c₂, walk st = some (o, c₁, st₁) ∧
      popRightValue o st₁ = some ((v, t), c₂, st') ∧ code = c₁ ++ c₂ := Build.bind_eq_some

theorem op2_walk_eq_some {n : Name} {cmp : Bool} {l r : Expr} :
    (Expr.op2 n cmp l r).walk sc st = some (o, code, st') ↔ ∃ v₁ t c₁ st₁ v₂ c₂ st₂,
      walkValue (l.walk sc) st = some ((v₁, t), c₁, st₁) ∧
      walkValue (r.walk sc) st₁ = some ((v₂, t), c₂, st₂) ∧
      o = .val (.reg st₂.next) (if cmp then boolType else t) ∧
      code = c₁ ++ (c₂ ++ [.op st₂.next (.op2 n) [v₁, v₂]]) ∧ st' = ⟨st₂.next + 1, st₂.block⟩ := by
  rw [Expr.walk, Build.bind_eq_some]
  constructor
  · rintro ⟨⟨v₁, t⟩, c₁, st₁, c', hl, h, rfl⟩
    rw [Build.bind_eq_some] at h
    obtain ⟨⟨v₂, t'⟩, c₂, st₂, c'', hr, h, rfl⟩ := h
    simp only at h
    by_cases ht : t = t'
    · subst ht
      simp [Build.prepend_eq_some] at h
      obtain ⟨⟨rfl, rfl⟩, rfl⟩ := h
      exact ⟨v₁, t, c₁, st₁, v₂, c₂, st₂, hl, hr, rfl, rfl, rfl⟩
    · simp [ht] at h
  · rintro ⟨v₁, t, c₁, st₁, v₂, c₂, st₂, hl, hr, rfl, rfl, rfl⟩
    refine ⟨(v₁, t), c₁, st₁, _, hl, ?_, rfl⟩
    rw [Build.bind_eq_some]
    exact ⟨(v₂, t), c₂, st₂, _, hr, by simp [Build.prepend_eq_some], rfl⟩

theorem landor_walk_eq_some {isand : Bool} {l r : Expr} :
    (Expr.landor isand l r).walk sc st = some (o, code, st') ↔ ∃ v₁ t c₁ st₁ v₂ t' c₂ st₂,
      walkValue (l.walk sc) st = some ((v₁, t), c₁, st₁) ∧
      walkValue (r.walk sc) ⟨st₁.next + 2, st₁.next⟩ = some ((v₂, t'), c₂, st₂) ∧
      llvmtypeFromCatype t = .int 1 ∧ llvmtypeFromCatype t' = .int 1 ∧
      o = .val (.reg st₂.next) t ∧
      code = c₁ ++ .condbr v₁ (if isand then st₁.next else st₁.next + 1)
        (if isand then st₁.next + 1 else st₁.next) :: .label st₁.next :: (c₂ ++ [.br (st₁.next + 1),
          .label (st₁.next + 1), .phi st₂.next v₂ st₂.block v₁ st₁.block]) ∧
      st' = ⟨st₂.next + 1, st₁.next + 1⟩ := by
  rw [Expr.walk, Build.bind_eq_some]
  constructor
  · rintro ⟨⟨v₁, t⟩, c₁, st₁, c', hl, h, rfl⟩
    simp only [Build.fresh_bind, Build.getInsertBlock_bind, Build.emit_bind,
      Build.setInsertPoint_bind, Build.prepend_prepend, Build.prepend_eq_some] at h
    obtain ⟨c'', h, rfl⟩ := h
    rw [Build.bind_eq_some] at h
    obtain ⟨⟨v₂, t'⟩, c₂, st₂, c'', hr, h, rfl⟩ := h
    simp only at h
    by_cases ht : llvmtypeFromCatype t = .int 1 ∧ llvmtypeFromCatype t' = .int 1
    · simp [ht, Build.prepend_eq_some] at h
      obtain ⟨⟨rfl, rfl⟩, rfl⟩ := h
      exact ⟨v₁, t, c₁, st₁, v₂, t', c₂, st₂, hl, hr, ht.1, ht.2, rfl, rfl, rfl⟩
    · simp [ht, Build.prepend_eq_some] at h
  · rintro ⟨v₁, t, c₁, st₁, v₂, t', c₂, st₂, hl, hr, ht, ht', rfl, rfl, rfl⟩
    refine ⟨(v₁, t), c₁, st₁, _, hl, ?_, rfl⟩
    simp only [Build.fresh_bind, Build.getInsertBlock_bind, Build.emit_bind,
      Build.setInsertPoint_bind, Build.prepend_prepend, Build.prepend_eq_some]
    refine ⟨_, Build.bind_eq_some.mpr ⟨(v₂, t'), c₂, st₂, _, hr, ?_, rfl⟩, rfl⟩
    simp [ht, ht', Build.prepend_eq_some]

theorem ife_walk_eq_some {c : Expr} {b b' : Block} :
    (Expr.ife c b b').walk sc st = some (o, code, st') ↔
      ∃ v cc st₁ v₁ t c₁ st₂ v₂ t' c₂ st₃, (c.inference sc.types).isSome ∧
      walkValue (c.walk sc) ⟨st.next + 3, st.block⟩ = some ((v, boolType), cc, st₁) ∧
      walkValue (b.walk sc) ⟨st₁.next + 1, st.next + 1⟩ = some ((v₁, t), c₁, st₂) ∧
      walkValue (b'.walk sc) ⟨st₂.next, st₁.next⟩ = some ((v₂, t'), c₂, st₃) ∧
      llvmtypeFromCatype t = .int 32 ∧ llvmtypeFromCatype t' = .int 32 ∧ sameToken t t' ∧
      o = .alloc st.next t ∧
      code = cc ++ .condbr v (st.next + 1) st₁.next :: .label (st.next + 1) ::
        ((c₁ ++ [.store st.next v₁]) ++ .br (st.next + 2) :: .label st₁.next ::
          ((c₂ ++ [.store st.next v₂]) ++ [.br (st.next + 2), .label (st.next + 2)])) ∧
      st' = ⟨st₃.next, st.next + 2⟩ := by
  rw [Expr.walk]
  simp only [Build.fresh_bind]
  cases hi : c.inference sc.types with
  | none => simp
  | some i =>
  simp only [Option.isNone_some, Bool.false_eq_true, if_false, Option.isSome_some, true_and]
  rw [Build.bind_eq_some]
  constructor
  · rintro ⟨⟨v, tc⟩, cc, st₁, c', hc, h, rfl⟩
    simp only at h
    split at h
    case isFalse => cases h
    rename_i htc
    subst htc
    simp only [Build.fresh_bind, Build.emit_bind, Build.setInsertPoint_bind,
      Build.prepend_prepend, Build.prepend_eq_some] at h
    obtain ⟨c'', h, rfl⟩ := h
    rw [Build.bind_eq_some] at h
    obtain ⟨⟨v₁, t⟩, c₁, st₂, c'', hb, h, rfl⟩ := h
    simp only [storeVar] at h
    split at h
    case isFalse => cases h
    rename_i ht
    simp only [Build.emit_bind, Build.setInsertPoint_bind,
      Build.prepend_prepend, Build.prepend_eq_some] at h
    obtain ⟨c'', h, rfl⟩ := h
    rw [Build.bind_eq_some] at h
    obtain ⟨⟨v₂, t'⟩, c₂, st₃, c'', hb', h, rfl⟩ := h
    simp only at h
    split at h
    case isFalse => cases h
    rename_i ht'
    by_cases hs : sameToken t t'
    · simp [hs, Build.prepend_eq_some] at h
      obtain ⟨⟨rfl, rfl⟩, rfl⟩ := h
      refine ⟨v, cc, st₁, v₁, t, c₁, st₂, v₂, t', c₂, st₃, hc, hb, hb', ht, ht', hs, rfl, ?_, rfl⟩
      simp
    · simp [hs, Build.prepend_eq_some] at h
  · rintro ⟨v, cc, st₁, v₁, t, c₁, st₂, v₂, t', c₂, st₃, hc, hb, hb', ht, ht', hs, rfl, rfl, rfl⟩
    refine ⟨(v, boolType), cc, st₁, _, hc, ?_, rfl⟩
    simp only [if_true, Build.fresh_bind, Build.emit_bind, Build.setInsertPoint_bind,
      Build.prepend_prepend, Build.prepend_eq_some]
    refine ⟨_, Build.bind_eq_some.mpr ⟨(v₁, t), c₁, st₂, _, hb, ?_, rfl⟩, by simp; rfl⟩
    simp only [storeVar, ht, if_true, Build.emit_bind, Build.setInsertPoint_bind,
      Build.prepend_prepend, Build.prepend_eq_some]
    refine ⟨_, Build.bind_eq_some.mpr ⟨(v₂, t'), c₂, st₃, _, hb', ?_, rfl⟩, rfl⟩
    simp [ht', hs, Build.prepend_eq_some]

theorem letBind_walk_eq_some {e : Expr} {rest : Block} :
    (Block.letBind e rest).walk sc st = some (o, code, st') ↔ ∃ t o' c₁ st₁ c c₂ st₂ c₃,
      e.inference sc.types = some (some t) ∧ e.isIfe = false ∧
      e.walk sc st = some (o', c₁, st₁) ∧ bindVariableValue t o' st₁ = some (c, c₂, st₂) ∧
      rest.walk (sc ++ [(c, t)]) st₂ = some (o, c₃, st') ∧ code = c₁ ++ (c₂ ++ c₃) := by
  rw [Block.walk]
  constructor
  · intro h
    rcases hi : e.inference sc.types with _ | _ | t
    · simp only [hi] at h
      cases h
    · simp only [hi] at h
      cases h
    · simp only [hi] at h
      split at h
      case isTrue => cases h
      rename_i hife
      obtain ⟨o', c₁, st₁, c', he, h', rfl⟩ := Build.bind_eq_some.mp h
      obtain ⟨c, c₂, st₂, c₃, hb, hrest, rfl⟩ := Build.bind_eq_some.mp h'
      exact ⟨t, o', c₁, st₁, c, c₂, st₂, c₃, rfl, Bool.not_eq_true _ ▸ hife, he, hb, hrest, rfl⟩
  · rintro ⟨t, o', c₁, st₁, c, c₂, st₂, c₃, hi, hife, he, hb, hrest, rfl⟩
    simp only [hi, hife, Bool.false_eq_true, if_false]
    exact Build.bind_eq_some.mpr ⟨o', c₁, st₁, _, he,
      Build.bind_eq_some.mpr ⟨c, c₂, st₂, c₃, hb, hrest, rfl⟩, rfl⟩

theorem exprStmt_walk_eq_some {e : Expr} {rest : Block} :
    (Block.exprStmt e rest).walk sc st = some (o, code, st') ↔ ∃ o' c₁ st₁ c₂,
      e.walk sc st = some (o', c₁, st₁) ∧ rest.walk sc st₁ = some (o, c₂, st') ∧
      code = c₁ ++ c₂ := Build.bind_eq_some

/-! ### States and operands -/

variable {V W : Type} {M : Machine Const Op V W} {σ : List V} {s s' : State V W} {n m : Nat}

/-- The cells of the variables in scope are below `n`. -/
def Scope.Below (n : Nat) (sc : Scope) : Prop := ∀ p ∈ sc, p.1 < n

theorem Scope.Below.mono (h : Scope.Below n sc) (hle : n ≤ m) : sc.Below m :=
  fun p hp => Nat.lt_of_lt_of_le (h p hp) hle

theorem Scope.Below.bind (h : Scope.Below n sc) {c : Nat} (hc : c < n) (t : CADataType) :
    Scope.Below n (sc ++ [(c, t)]) := by
  intro p hp
  rcases List.mem_append.mp hp with hp | hp
  · exact h p hp
  · rw [List.mem_singleton.mp hp]
    exact hc

/-- They hold the values of the variables. -/
structure Holds (sc : Scope) (σ : List V) (s : State V W) : Prop where
  length : σ.length = sc.length
  cell : ∀ (i c : Nat) (t : CADataType), sc[i]? = some (c, t) → σ[i]? = some (s.cells c)

theorem Holds.agree (h : Holds sc σ s) (hsc : sc.Below n) (ha : s.AgreeBelow n s') :
    Holds sc σ s' where
  length := h.length
  cell i c t hi := by
    rw [h.cell i c t hi, (ha c (hsc _ (List.mem_of_getElem? hi))).2]

/-- One more variable. -/
theorem Holds.bind (h : Holds sc σ s) (c : Nat) (t : CADataType) :
    Holds (sc ++ [(c, t)]) (σ ++ [s.cells c]) s where
  length := by simp [h.length]
  cell i c' t' hi := by
    rcases Nat.lt_trichotomy i sc.length with hlt | rfl | hlt
    · rw [List.getElem?_append_left hlt] at hi
      rw [List.getElem?_append_left (by rw [h.length]; exact hlt)]
      exact h.cell i c' t' hi
    · rw [List.getElem?_append_right (Nat.le_refl _), Nat.sub_self] at hi
      obtain ⟨rfl, rfl⟩ := Prod.mk.inj (Option.some.inj hi)
      rw [← h.length, List.getElem?_append_right (Nat.le_refl _), Nat.sub_self]
      rfl
    · rw [List.getElem?_eq_none (by simp; omega)] at hi
      cases hi

theorem Holds.lookup_eq (h : Holds sc σ s) {i c : Nat} {t : CADataType}
    (hi : sc[i]? = some (c, t)) : lookup M σ i = s.cells c := by
  rw [lookup, h.cell i c t hi]
  rfl

namespace Operand

/-- What the operand stands for. -/
def read (M : Machine Const Op V W) (s : State V W) : Operand → V
  | .alloc c _ => s.cells c
  | .val v _ => v.eval M s

/-- Its registers and cells are below `n`. -/
def Below (n : Nat) : Operand → Prop
  | .alloc c _ => c < n
  | .val v _ => v.Below n

end Operand

/-- The code from `st` to `st'` runs to the value and the world that `f` says, from the values of
the variables in scope, and leaves alone what was there before. -/
structure Yields (M : Machine Const Op V W) (sc : Scope) (st : Builder) (o : Operand)
    (code : Code Const Op) (st' : Builder) (f : List V → W → V × W) : Prop where
  built : Built st code st'
  below : o.Below st'.next
  runs : st.block < st.next → ∀ σ s, Holds sc σ s →
    Runs M code st.block s st'.block fun s' => s.AgreeBelow st.next s' ∧
      o.read M s' = (f σ s.world).1 ∧ s'.world = (f σ s.world).2

/-! ### Steps without branches -/

/-- The right value of an operand is read without a change of the world. -/
theorem popRightValue_runs {c : Code Const Op} (h : popRightValue o st = some ((v, t), c, st'))
    (ho : o.Below st.next) :
    Built st c st' ∧ v.Below st'.next ∧ t = o.catype ∧ st'.block = st.block ∧
      ∀ s : State V W, Runs M c st.block s st'.block fun s' => s.AgreeBelow st.next s' ∧
        v.eval M s' = o.read M s ∧ s'.world = s.world := by
  cases o with
  | alloc a ta =>
      simp [popRightValue, Build.prepend_eq_some] at h
      obtain ⟨⟨⟨rfl, rfl⟩, rfl⟩, rfl⟩ := h
      refine ⟨.plain (by simp [Instr.plain]) (Nat.le_succ _) rfl, Nat.lt_succ_self _, rfl, rfl,
        fun s => .load ⟨(State.AgreeBelow.refl _ s).setReg (Nat.le_refl _) _, ?_, rfl⟩⟩
      exact Function.update_self _ _ _
  | val u tu =>
      simp [popRightValue] at h
      obtain ⟨⟨rfl, rfl⟩, rfl, rfl⟩ := h
      exact ⟨.plain nofun (Nat.le_refl _) rfl, ho, rfl, rfl,
        fun s => .nil ⟨.refl _ s, rfl, rfl⟩⟩

/-- A value is stored in a new variable. -/
theorem storeVar_fresh_runs {c : Nat} {u : CADataType} (h : (do
      let c ← Build.fresh
      storeVar c (llvmtypeFromCatype t) v u
      pure c : Emit Nat) st = some (c, code, st')) :
    Built st code st' ∧ c < st'.next ∧ st'.block = st.block ∧
      ∀ s : State V W, Runs M code st.block s st'.block fun s' => s.AgreeBelow st.next s' ∧
        s'.cells c = v.eval M s ∧ s'.world = s.world := by
  simp only [Build.fresh_bind, storeVar] at h
  split at h
  case isFalse => cases h
  simp [Build.prepend_eq_some] at h
  obtain ⟨⟨rfl, rfl⟩, rfl⟩ := h
  refine ⟨.plain (by simp [Instr.plain]) (Nat.le_succ _) rfl, Nat.lt_succ_self _, rfl,
    fun s => .store ⟨(State.AgreeBelow.refl _ s).setCell (Nat.le_refl _) _, ?_, rfl⟩⟩
  exact Function.update_self _ _ _

/-- The value of a `let` is put into a new cell. -/
theorem bindVariableValue_runs {c : Nat} (h : bindVariableValue t o st = some (c, code, st'))
    (ho : o.Below st.next) :
    Built st code st' ∧ c < st'.next ∧
      ∀ s : State V W, Runs M code st.block s st'.block fun s' => s.AgreeBelow st.next s' ∧
        s'.cells c = o.read M s ∧ s'.world = s.world := by
  cases o with
  | val v u =>
      obtain ⟨hb, hc, -, hr⟩ := storeVar_fresh_runs h
      exact ⟨hb, hc, hr⟩
  | alloc a u =>
      simp only [bindVariableValue] at h
      split at h
      case isTrue =>
        simp [Build.prepend_eq_some] at h
        obtain ⟨⟨rfl, rfl⟩, rfl⟩ := h
        refine ⟨.plain (by simp [Instr.plain]) (Nat.le_succ _) rfl, Nat.lt_succ_self _,
          fun s => .copy ⟨(State.AgreeBelow.refl _ s).setCell (Nat.le_refl _) _, ?_, rfl⟩⟩
        exact Function.update_self _ _ _
      case isFalse =>
        obtain ⟨⟨v, u'⟩, c₁, st₁, c₂, hp, h', rfl⟩ := Build.bind_eq_some.mp h
        obtain ⟨hb₁, hv, -, hblock, hr₁⟩ := popRightValue_runs (M := M) hp ho
        obtain ⟨hb₂, hc, hblock', hr₂⟩ := storeVar_fresh_runs (M := M) h'
        refine ⟨hb₁.append hb₂, hc, fun s => (hr₁ s).append ?_⟩
        intro s₁ hs₁
        refine (hr₂ s₁).imp fun s₂ hs₂ => ⟨hs₁.1.trans hs₂.1 hb₁.le, ?_, ?_⟩
        · rw [hs₂.2.1, hs₁.2.1]
        · rw [hs₂.2.2, hs₁.2.2]

/-- The arguments of a call are loaded without a change of the world. -/
theorem walkArgs_runs : ∀ {args : List Nat} {st st' : Builder} {vs : List (Val Const)}
    {code : Code Const Op}, walkArgs sc args st = some (vs, code, st') →
    sc.Below st.next →
    Built st code st' ∧ (∀ v ∈ vs, v.Below st'.next) ∧ st'.block = st.block ∧
      ∀ (σ : List V) (s : State V W), Holds sc σ s →
        Runs M code st.block s st'.block fun s' => s.AgreeBelow st.next s' ∧
          vs.map (·.eval M s') = args.map (lookup M σ) ∧ s'.world = s.world
  | [], st, st', vs, code, h, _ => by
      obtain ⟨rfl, rfl, rfl⟩ : [] = vs ∧ [] = code ∧ st = st' := by simpa [walkArgs] using h
      exact ⟨.plain nofun (Nat.le_refl _) rfl, nofun, rfl,
        fun σ s _ => .nil ⟨.refl _ s, rfl, rfl⟩⟩
  | i :: args, st, st', vs, code, h, hsc => by
      rw [walkArgs] at h
      cases hi : sc[i]? with
      | none => simp [hi] at h
      | some ct =>
      obtain ⟨c, t⟩ := ct
      simp only [hi] at h
      obtain ⟨⟨v, u⟩, c₁, st₁, c', hp, h', rfl⟩ := Build.bind_eq_some.mp h
      obtain ⟨vs', c₂, st₂, c'', hargs, h'', rfl⟩ := Build.bind_eq_some.mp h'
      simp at h''
      obtain ⟨rfl, rfl, rfl⟩ := h''
      have hc : c < st.next := hsc _ (List.mem_of_getElem? hi)
      obtain ⟨hb₁, hv, -, hblock₁, hr₁⟩ := popRightValue_runs (M := M) hp hc
      obtain ⟨hb₂, hvs, hblock₂, hr₂⟩ := walkArgs_runs hargs (hsc.mono hb₁.le)
      rw [List.append_nil]
      refine ⟨hb₁.append hb₂, ?_, hblock₂.trans hblock₁, ?_⟩
      · rintro w (_ | ⟨_, hw⟩)
        · exact hv.mono hb₂.le
        · exact hvs w hw
      · intro σ s hs
        refine (hr₁ s).append fun s₁ hs₁ => (hr₂ σ s₁ (hs.agree hsc hs₁.1)).imp fun s₂ hs₂ =>
          ⟨hs₁.1.trans hs₂.1 hb₁.le, ?_, hs₂.2.2.trans hs₁.2.2⟩
        rw [List.map_cons, List.map_cons, hs₂.2.1, hs₂.1.eval_eq hv, hs₁.2.1, hs.lookup_eq hi]
        rfl

/-! ### The rules -/

variable {f g h : List V → W → V × W}

namespace Yields

theorem walkValue {walk : Emit Operand} {c : Code Const Op}
    (hw : Branches.walkValue walk st = some ((v, t), c, st'))
    (ih : ∀ o c st', walk st = some (o, c, st') → Yields M sc st o c st' f) :
    Yields M sc st (.val v t) c st' f := by
  obtain ⟨o, c₁, st₁, c₂, ho, hp, rfl⟩ := walkValue_eq_some.mp hw
  have ih := ih o c₁ st₁ ho
  obtain ⟨hb, hv, -, -, hr⟩ := popRightValue_runs (M := M) hp ih.below
  refine ⟨ih.built.append hb, hv, fun hblock σ s hs => (ih.runs hblock σ s hs).append ?_⟩
  refine fun s₁ hs₁ => (hr s₁).imp fun s₂ hs₂ => ⟨hs₁.1.trans hs₂.1 ih.built.le, ?_, ?_⟩
  · exact hs₂.2.1.trans hs₁.2.1
  · exact hs₂.2.2.trans hs₁.2.2

theorem literal (sc : Scope) (st : Builder) (t : CADataType) (k : Int) :
    Yields M sc st (.val (.const (t, k)) t) [] st fun _ w => (M.const (t, k), w) where
  built := .plain nofun (Nat.le_refl _) rfl
  below := trivial
  runs _ _ s _ := .nil ⟨.refl _ s, rfl, rfl⟩

theorem id {i c : Nat} (hi : sc[i]? = some (c, t)) (hsc : sc.Below st.next) :
    Yields M sc st (.alloc c t) [] st fun σ w => (lookup M σ i, w) where
  built := .plain nofun (Nat.le_refl _) rfl
  below := hsc _ (List.mem_of_getElem? hi)
  runs _ _ s hs := .nil ⟨.refl _ s, (hs.lookup_eq hi).symm, rfl⟩

theorem op2 {n : Name} {st₁ st₂ : Builder} {v₁ v₂ : Val Const} {t₁ t₂ : CADataType}
    {c₁ c₂ : Code Const Op} (hsc : sc.Below st.next)
    (h₁ : Yields M sc st (.val v₁ t₁) c₁ st₁ f) (h₂ : Yields M sc st₁ (.val v₂ t₂) c₂ st₂ g) :
    Yields M sc st (.val (.reg st₂.next) t) (c₁ ++ (c₂ ++ [.op st₂.next (.op2 n) [v₁, v₂]]))
      ⟨st₂.next + 1, st₂.block⟩ fun σ w =>
        M.op (.op2 n) [(f σ w).1, (g σ (f σ w).2).1] (g σ (f σ w).2).2 where
  built := h₁.built.append (h₂.built.append (.plain (by simp [Instr.plain]) (Nat.le_succ _) rfl))
  below := Nat.lt_succ_self _
  runs hblock σ s hs := by
    have hle := Nat.le_trans h₁.built.le h₂.built.le
    refine (h₁.runs hblock σ s hs).append fun s₁ ⟨ha₁, hv₁, hw₁⟩ =>
      (h₂.runs (h₁.built.block_lt hblock) σ s₁ (hs.agree hsc ha₁)).append
        fun s₂ ⟨ha₂, hv₂, hw₂⟩ => .op rfl ?_
    have hv₁' : v₁.eval M s₂ = (f σ s.world).1 := (ha₂.eval_eq h₁.below).trans hv₁
    have hv₂' : v₂.eval M s₂ = (g σ (f σ s.world).2).1 := hw₁ ▸ hv₂
    have hw₂' : s₂.world = (g σ (f σ s.world).2).2 := hw₁ ▸ hw₂
    simp only [List.map_cons, List.map_nil, hv₁', hv₂', hw₂']
    exact ⟨((ha₁.trans ha₂ h₁.built.le).setReg hle _).setWorld _, Function.update_self _ _ _,
      trivial⟩

theorem call {n : Name} {args : List Nat} {vs : List (Val Const)} {c : Code Const Op}
    {st₁ : Builder} (hsc : sc.Below st.next) (h : walkArgs sc args st = some (vs, c, st₁)) :
    Yields M sc st (.val (.reg st₁.next) t) (c ++ [.op st₁.next (.call n) vs])
      ⟨st₁.next + 1, st₁.block⟩ fun σ w => M.op (.call n) (args.map (lookup M σ)) w := by
  obtain ⟨hb, -, hblock, hr⟩ := walkArgs_runs (M := M) h hsc
  refine ⟨hb.append (.plain (by simp [Instr.plain]) (Nat.le_succ _) rfl), Nat.lt_succ_self _, ?_⟩
  intro _ σ s hs
  show Runs M _ _ _ st₁.block _
  rw [hblock] at hr ⊢
  refine (hr σ s hs).append fun s₁ ⟨ha, hvs, hw⟩ => .op rfl ?_
  simp only [hvs, hw]
  exact ⟨(ha.setReg hb.le _).setWorld _, Function.update_self _ _ _, trivial⟩

/-- A value is kept in a variable. -/
theorem store {c : Code Const Op} {st₁ : Builder} {t₁ : CADataType}
    (h : Yields M sc st (.val v t₁) c st₁ f) :
    Yields M sc st (.alloc st₁.next t) (c ++ [.store st₁.next v]) ⟨st₁.next + 1, st₁.block⟩ f where
  built := h.built.append (.plain (by simp [Instr.plain]) (Nat.le_succ _) rfl)
  below := Nat.lt_succ_self _
  runs hblock σ s hs := (h.runs hblock σ s hs).append fun s₁ ⟨ha, hv, hw⟩ =>
    .store ⟨ha.setCell h.built.le _, (Function.update_self _ _ _).trans hv, hw⟩

theorem landor {isand : Bool} {st₁ st₂ : Builder} {v₁ v₂ : Val Const} {t₁ t₂ : CADataType}
    {c₁ c₂ : Code Const Op} (hsc : sc.Below st.next) (h₁ : Yields M sc st (.val v₁ t₁) c₁ st₁ f)
    (h₂ : Yields M sc ⟨st₁.next + 2, st₁.next⟩ (.val v₂ t₂) c₂ st₂ g) :
    Yields M sc st (.val (.reg st₂.next) t) (c₁ ++ .condbr v₁
      (if isand then st₁.next else st₁.next + 1) (if isand then st₁.next + 1 else st₁.next) ::
        .label st₁.next :: (c₂ ++ [.br (st₁.next + 1), .label (st₁.next + 1),
          .phi st₂.next v₂ st₂.block v₁ st₁.block])) ⟨st₂.next + 1, st₁.next + 1⟩ fun σ w =>
        if M.istrue (f σ w).1 = isand then g σ (f σ w).2 else f σ w where
  built := h₁.built.shortCircuit ⟨Nat.le_refl _, by omega⟩ ⟨by omega, by omega⟩ (by omega)
    h₂.built (Nat.le_succ _)
  below := Nat.lt_succ_self _
  runs hblock σ s hs := by
    have hle₁ := h₁.built.le
    have hle₂ : st₁.next + 2 ≤ st₂.next := h₂.built.le
    refine Runs.shortCircuit (h₁.runs hblock σ s hs) fun s₁ ⟨ha₁, hv₁, hw₁⟩ => ?_
    have hv₁ : v₁.eval M s₁ = (f σ s.world).1 := hv₁
    rw [hv₁]
    split
    · refine (h₂.runs (by simp) σ s₁ (hs.agree hsc ha₁)).imp fun s₂ ⟨ha₂, hv₂, hw₂⟩ => ?_
      rw [← hw₁]
      refine ⟨(ha₁.trans ha₂ (by simp; omega)).setReg (by omega) _, ?_, hw₂⟩
      exact (Function.update_self _ _ _).trans hv₂
    · refine ⟨?_, ha₁.setReg (by omega) _, ?_, hw₁⟩
      · have hlt := h₁.built.block_lt hblock
        rcases h₂.built.block_eq_or with h | ⟨h, -⟩
        · rw [h]
          exact Nat.ne_of_lt hlt
        · have h : st₁.next + 2 ≤ st₂.block := h
          omega
      · exact Function.update_self _ _ _

theorem ife {st₁ st₂ st₃ : Builder} {v₁ v₂ : Val Const} {t₀ t₁ t₂ : CADataType}
    {c c₁ c₂ : Code Const Op} (hsc : sc.Below st.next)
    (hc : Yields M sc ⟨st.next + 3, st.block⟩ (.val v t₀) c st₁ f)
    (h₁ : Yields M sc ⟨st₁.next + 1, st.next + 1⟩ (.val v₁ t₁) c₁ st₂ g)
    (h₂ : Yields M sc ⟨st₂.next, st₁.next⟩ (.val v₂ t₂) c₂ st₃ h) :
    Yields M sc st (.alloc st.next t) (c ++ .condbr v (st.next + 1) st₁.next ::
      .label (st.next + 1) :: ((c₁ ++ [.store st.next v₁]) ++ .br (st.next + 2) ::
        .label st₁.next :: ((c₂ ++ [.store st.next v₂]) ++
          [.br (st.next + 2), .label (st.next + 2)]))) ⟨st₃.next, st.next + 2⟩ fun σ w =>
        if M.istrue (f σ w).1 then g σ (f σ w).2 else h σ (f σ w).2 where
  built := by
    have hle := hc.built.le
    have hb : (⟨st.next + 3, st.block⟩ : Builder).block = st.block := rfl
    refine .diamond hb (by simp) ⟨by omega, by simp⟩
      ⟨by omega, by simp⟩ (by omega) hc.built ⟨Nat.le_refl _, Nat.lt_succ_self _⟩
      (h₁.built.append (.plain (by simp [Instr.plain]) (Nat.le_refl _) rfl))
      (h₂.built.append (.plain (by simp [Instr.plain]) (Nat.le_refl _) rfl))
  below := by
    have hle : st.next + 3 ≤ st₁.next := hc.built.le
    have hle₁ : st₁.next + 1 ≤ st₂.next := h₁.built.le
    have hle₂ : st₂.next ≤ st₃.next := h₂.built.le
    show st.next < st₃.next
    omega
  runs hblock σ s hs := by
    have hle : st.next + 3 ≤ st₁.next := hc.built.le
    have hle₁ : st₁.next + 1 ≤ st₂.next := h₁.built.le
    refine Runs.diamond (hc.runs (by simp; omega) σ s hs) fun s₀ ⟨ha, hv, hw⟩ =>
      (?_ : if _ then Runs M _ _ _ st₂.block _ else Runs M _ _ _ st₃.block _)
    have hv : v.eval M s₀ = (f σ s.world).1 := hv
    have ha : s.AgreeBelow st.next s₀ := ha.mono (by simp)
    rw [hv]
    split
    · refine (h₁.runs (by simp; omega) σ s₀ (hs.agree hsc ha)).append
        fun s₁ ⟨ha₁, hv₁, hw₁⟩ =>
          .store ⟨(ha.trans ha₁ (by simp; omega)).setCell (by omega) _, ?_, ?_⟩
      · rw [← hw]
        exact (Function.update_self _ _ _).trans hv₁
      · rw [← hw]
        exact hw₁
    · refine (h₂.runs (by simp; omega) σ s₀ (hs.agree hsc ha)).append
        fun s₁ ⟨ha₁, hv₁, hw₁⟩ =>
          .store ⟨(ha.trans ha₁ (by simp; omega)).setCell (by omega) _, ?_, ?_⟩
      · rw [← hw]
        exact (Function.update_self _ _ _).trans hv₁
      · rw [← hw]
        exact hw₁

theorem letBind {st₁ st₂ : Builder} {o' : Operand} {c : Nat} {c₁ c₂ c₃ : Code Const Op}
    (hsc : sc.Below st.next) (h₁ : Yields M sc st o' c₁ st₁ f)
    (hb : bindVariableValue t o' st₁ = some (c, c₂, st₂))
    (h₂ : Yields M (sc ++ [(c, t)]) st₂ o c₃ st' g) :
    Yields M sc st o (c₁ ++ (c₂ ++ c₃)) st' fun σ w => g (σ ++ [(f σ w).1]) (f σ w).2 := by
  obtain ⟨hb, hc, hr⟩ := bindVariableValue_runs (M := M) hb h₁.below
  refine ⟨h₁.built.append (hb.append h₂.built), h₂.below, ?_⟩
  intro hblock σ s hs
  have hlt := h₁.built.block_lt hblock
  refine (h₁.runs hblock σ s hs).append fun s₁ ⟨ha₁, hv₁, hw₁⟩ =>
    (hr s₁).append fun s₂ ⟨ha₂, hv₂, hw₂⟩ => ?_
  have ha := ha₁.trans ha₂ h₁.built.le
  have hs₂ := (hs.agree hsc ha).bind c t
  rw [hv₂, hv₁] at hs₂
  refine (h₂.runs (hb.block_lt hlt) _ s₂ hs₂).imp fun s₃ ⟨ha₃, hv₃, hw₃⟩ =>
    ⟨ha.trans ha₃ (Nat.le_trans h₁.built.le hb.le), ?_, ?_⟩
  · rw [hv₃, hw₂, hw₁]
  · rw [hw₃, hw₂, hw₁]

theorem exprStmt {st₁ : Builder} {o' : Operand} {c₁ c₂ : Code Const Op} (hsc : sc.Below st.next)
    (h₁ : Yields M sc st o' c₁ st₁ f) (h₂ : Yields M sc st₁ o c₂ st' g) :
    Yields M sc st o (c₁ ++ c₂) st' fun σ w => g σ (f σ w).2 where
  built := h₁.built.append h₂.built
  below := h₂.below
  runs hblock σ s hs := by
    refine (h₁.runs hblock σ s hs).append fun s₁ ⟨ha₁, _, hw₁⟩ =>
      (h₂.runs (h₁.built.block_lt hblock) σ s₁ (hs.agree hsc ha₁)).imp fun s₂ ⟨ha₂, hv₂, hw₂⟩ =>
        ⟨ha₁.trans ha₂ h₁.built.le, ?_, ?_⟩
    · rw [hv₂, hw₁]
    · rw [hw₂, hw₁]

end Yields

/-! ### The induction -/

mutual

theorem Expr.yields (M : Machine Const Op V W) : ∀ (e : Expr) {sc : Scope} {st st' : Builder}
    {o : Operand} {code : Code Const Op}, sc.Below st.next →
    e.walk sc st = some (o, code, st') → Yields M sc st o code st' fun σ w => e.eval M σ w
  | .literal t k, sc, st, st', o, code, _, h => by
      simp [Expr.walk] at h
      obtain ⟨rfl, rfl, rfl⟩ := h
      exact .literal sc st t k
  | .id i, sc, st, st', o, code, hsc, h => by
      rw [Expr.walk] at h
      cases hi : sc[i]? with
      | none => simp [hi] at h
      | some ct =>
          simp [hi] at h
          obtain ⟨rfl, rfl, rfl⟩ := h
          exact .id hi hsc
  | .call ret n args, sc, st, st', o, code, hsc, h => by
      rw [Expr.walk, Build.bind_eq_some] at h
      obtain ⟨vs, c₁, st₁, c', hargs, h, rfl⟩ := h
      have hcall := Yields.call (M := M) (t := ret) (n := n) hsc hargs
      simp only [Build.fresh_bind, Build.emit_bind] at h
      split at h
      · simp [Build.prepend_eq_some] at h
        obtain ⟨⟨rfl, rfl⟩, rfl⟩ := h
        exact hcall
      · simp [Build.prepend_eq_some] at h
        obtain ⟨⟨rfl, rfl⟩, rfl⟩ := h
        have hstore := hcall.store (t := ret)
        rw [List.append_assoc] at hstore
        exact hstore
  | .op2 n cmp l r, sc, st, st', o, code, hsc, h => by
      obtain ⟨v₁, t, c₁, st₁, v₂, c₂, st₂, hl, hr, rfl, rfl, rfl⟩ := op2_walk_eq_some.mp h
      have h₁ := Yields.walkValue hl fun _ _ _ => l.yields M hsc
      exact .op2 hsc h₁ (.walkValue hr fun _ _ _ => r.yields M (hsc.mono h₁.built.le))
  | .landor isand l r, sc, st, st', o, code, hsc, h => by
      obtain ⟨v₁, t, c₁, st₁, v₂, t', c₂, st₂, hl, hr, -, -, rfl, rfl, rfl⟩ :=
        landor_walk_eq_some.mp h
      have h₁ := Yields.walkValue hl fun _ _ _ => l.yields M hsc
      exact .landor hsc h₁ (.walkValue hr fun _ _ _ =>
        r.yields M (hsc.mono (Nat.le_trans h₁.built.le (Nat.le_add_right _ 2))))
  | .ife c b b', sc, st, st', o, code, hsc, h => by
      obtain ⟨v, cc, st₁, v₁, t, c₁, st₂, v₂, t', c₂, st₃, -, hc, hb, hb', -, -, -, rfl, rfl,
        rfl⟩ := ife_walk_eq_some.mp h
      have hsc₀ : sc.Below (st.next + 3) := hsc.mono (Nat.le_add_right _ 3)
      have h₀ := Yields.walkValue hc fun _ _ _ => c.yields M hsc₀
      have hsc₁ : sc.Below (st₁.next + 1) := hsc₀.mono (Nat.le_succ_of_le h₀.built.le)
      have h₁ := Yields.walkValue hb fun _ _ _ => b.yields M hsc₁
      exact .ife hsc h₀ h₁ (.walkValue hb' fun _ _ _ => b'.yields M (hsc₁.mono h₁.built.le))

theorem Block.yields (M : Machine Const Op V W) : ∀ (b : Block) {sc : Scope} {st st' : Builder}
    {o : Operand} {code : Code Const Op}, sc.Below st.next →
    b.walk sc st = some (o, code, st') → Yields M sc st o code st' fun σ w => b.eval M σ w
  | .value e, _, _, _, _, _, hsc, h => e.yields M hsc h
  | .letBind e rest, sc, st, st', o, code, hsc, h => by
      obtain ⟨t, o', c₁, st₁, c, c₂, st₂, c₃, -, -, he, hb, hrest, rfl⟩ :=
        letBind_walk_eq_some.mp h
      have h₁ := e.yields M hsc he
      obtain ⟨hbuilt, hc, -⟩ := bindVariableValue_runs (M := M) hb h₁.below
      exact .letBind hsc h₁ hb (rest.yields M
        ((hsc.mono (Nat.le_trans h₁.built.le hbuilt.le)).bind hc t) hrest)
  | .exprStmt e rest, sc, st, st', o, code, hsc, h => by
      obtain ⟨o', c₁, st₁, c₂, he, hrest, rfl⟩ := exprStmt_walk_eq_some.mp h
      have h₁ := e.yields M hsc he
      exact .exprStmt hsc h₁ (rest.yields M (hsc.mono h₁.built.le) hrest)

end

end CaLang.Branches

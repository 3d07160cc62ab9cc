import CaLang.Lib.CfgRuns
import CaLang.Loops.Meaning

/-! # The code of loops

The blocks that the walks of statements lay out.  **A loop puts its condition and its end on the
list of loop controls while its body is walked**, and `break` and `continue` jump to what stands
last on the list; what is behind them in the source goes to an extra block.  A `for` over a range
keeps an index in a cell of its own, tests it against the end, copies it to the loop variable and
increments it before the body.
-/

namespace CaLang.Loops

open Instr
open Addresses (IntType)
open Cfg (Build Machine Val)

/-- The operations of the emitted code. -/
inductive Op (F : Type)
  | user (f : F)
  | add
  | icmp (p : Predicate)

variable {ι F W : Type} [DecidableEq ι]

/-- The machine that runs the code. -/
def machine (I : Interp F W) : Machine Word (Op F) Word W where
  const := id
  op
    | .user f, vs, w => I f vs w
    | .add, [x, y], w => (⟨x.width, x.bits + y.bits.setWidth x.width⟩, w)
    | .icmp p, [x, y], w => (⟨1, BitVec.ofBool (p.eval x.bits (y.bits.setWidth x.width))⟩, w)
    | _, _, w => (⟨0, 0⟩, w)
  istrue := truth

abbrev Code (F : Type) := Cfg.Code Word (Op F)

/-- The cells of the variables. -/
abbrev Cells (ι : Type) := ι → Nat

/-- `LoopControlInfo`. -/
structure LoopControlInfo where
  condbb : Nat
  outbb : Nat

/-- The loads of the variables of an expression. -/
def loadArgs (cells : Cells ι) : List ι → Build Word (Op F) (List (Val Word))
  | [] => pure []
  | x :: xs => do
      let r ← .fresh
      .emit (.load r (cells x))
      let vs ← loadArgs cells xs
      pure (.reg r :: vs)

def walkExpr (cells : Cells ι) (e : Expr ι F) : Build Word (Op F) (Val Word) := do
  let vs ← loadArgs cells e.args
  let r ← .fresh
  .emit (.op r (.user e.f) vs)
  pure (.reg r)

/-- `aux_create_compare_value_for` of a range. -/
def auxCreateCompareValueFor (type : IntType) (inclusive : Bool) : Predicate :=
  if type.signed then (if inclusive then .sle else .slt) else if inclusive then .ule else .ult

/-- `walk_range` and the loads of its two values. -/
def walkBounds (cells : Cells ι) (start fin : Expr ι F) :
    Build Word (Op F) (Val Word × Val Word) := do
  let startValue ← walkExpr cells start
  let endValue ← walkExpr cells fin
  let start ← .fresh
  let fin ← .fresh
  .emit (.store start startValue)
  .emit (.store fin endValue)
  let begincond ← .fresh
  .emit (.load begincond start)
  let endcond ← .fresh
  .emit (.load endcond fin)
  pure (.reg begincond, .reg endcond)

/-- `walk_break` and `walk_continue`, which do not look whether there is a loop. -/
def walkJump (target : LoopControlInfo → Nat) (controls : List LoopControlInfo) :
    Build Word (Op F) Unit :=
  match controls with
  | [] => .fail
  | control :: _ => do
      .emit (.br (target control))
      let extrabb ← .fresh
      .setInsertPoint extrabb

/-- The walk of a statement; the loop controls have the last one first. -/
def walk (cells : Cells ι) (controls : List LoopControlInfo) : Stmt ι F → Build Word (Op F) Unit
  | .skip => pure ()
  | .seq s t => do
      walk cells controls s
      walk cells controls t
  | .expr e => do
      let _ ← walkExpr cells e
  | .assign x e => do
      let v ← walkExpr cells e
      .emit (.store (cells x) v)
  | .ifThen cond body => do
      let outbb ← .fresh
      let condbb ← .fresh
      let bodybb ← .fresh
      let condv ← walkExpr cells cond
      .emit (.condbr condv bodybb condbb)
      .setInsertPoint condbb
      .emit (.br outbb)
      .setInsertPoint bodybb
      walk cells controls body
      .emit (.br outbb)
      .setInsertPoint outbb
  | .ifElse cond body remain => do
      let outbb ← .fresh
      let condbb ← .fresh
      let bodybb ← .fresh
      let remainbb ← .fresh
      let condv ← walkExpr cells cond
      .emit (.condbr condv bodybb condbb)
      .setInsertPoint condbb
      .emit (.br remainbb)
      .setInsertPoint bodybb
      walk cells controls body
      .emit (.br outbb)
      .setInsertPoint remainbb
      walk cells controls remain
      .emit (.br outbb)
      .setInsertPoint outbb
  | .while cond body => do
      let condbb ← .fresh
      let whilebb ← .fresh
      let endwhilebb ← .fresh
      .emit (.br condbb)
      .setInsertPoint condbb
      let condv ← walkExpr cells cond
      .emit (.condbr condv whilebb endwhilebb)
      .setInsertPoint whilebb
      walk cells (⟨condbb, endwhilebb⟩ :: controls) body
      .emit (.br condbb)
      .setInsertPoint endwhilebb
  | .loop body => do
      let loopbb ← .fresh
      let endloopbb ← .fresh
      .emit (.br loopbb)
      .setInsertPoint loopbb
      walk cells (⟨loopbb, endloopbb⟩ :: controls) body
      .emit (.br loopbb)
      .setInsertPoint endloopbb
  | .for x type start fin inclusive body => do
      let condbb ← .fresh
      let loopbb ← .fresh
      let endloopbb ← .fresh
      let (begincond, endcond) ← walkBounds cells start fin
      let indexvslot ← .fresh
      .emit (.store indexvslot begincond)
      let itemvar ← .fresh
      .emit (.br condbb)
      .setInsertPoint condbb
      let indexv ← .fresh
      .emit (.load indexv indexvslot)
      let ltv ← .fresh
      .emit (.op ltv (.icmp (auxCreateCompareValueFor type inclusive)) [.reg indexv, endcond])
      .emit (.condbr (.reg ltv) loopbb endloopbb)
      .setInsertPoint loopbb
      .emit (.store itemvar (.reg indexv))
      let indexloadv ← .fresh
      .emit (.load indexloadv indexvslot)
      let incv ← .fresh
      .emit (.op incv .add [.reg indexloadv, .const ⟨type.width, 1⟩])
      .emit (.store indexvslot (.reg incv))
      walk (Function.update cells x itemvar) (⟨condbb, endloopbb⟩ :: controls) body
      .emit (.br condbb)
      .setInsertPoint endloopbb
  | .break => walkJump (·.outbb) controls
  | .continue => walkJump (·.condbb) controls

/-! ### The shape of the code -/

section

open Cfg (Builder)

variable {cells : Cells ι} {controls : List LoopControlInfo} {st st' : Builder} {c : Code F}
  {cond : Expr ι F} {body remain : Stmt ι F}

theorem walk_seq {s t : Stmt ι F} (h : walk cells controls (.seq s t) st = some ((), c, st')) :
    ∃ c₁ st₁ c₂, walk cells controls s st = some ((), c₁, st₁) ∧
      walk cells controls t st₁ = some ((), c₂, st') ∧ c = c₁ ++ c₂ := by
  obtain ⟨_, c₁, st₁, c₂, h₁, h₂, rfl⟩ := Build.bind_eq_some.mp h
  exact ⟨c₁, st₁, c₂, h₁, h₂, rfl⟩

theorem walk_expr {e : Expr ι F} (h : walk cells controls (.expr e) st = some ((), c, st')) :
    ∃ v, walkExpr cells e st = some (v, c, st') := by
  obtain ⟨v, c₁, st₁, c₂, hv, hs, rfl⟩ := Build.bind_eq_some.mp h
  cases hs
  exact ⟨v, by rw [List.append_nil, hv]⟩

theorem walk_assign {x : ι} {e : Expr ι F}
    (h : walk cells controls (.assign x e) st = some ((), c, st')) :
    ∃ v c₁, walkExpr cells e st = some (v, c₁, st') ∧ c = c₁ ++ [.store (cells x) v] := by
  obtain ⟨v, c₁, st₁, c₂, hv, hs, rfl⟩ := Build.bind_eq_some.mp h
  cases hs
  exact ⟨v, c₁, hv, rfl⟩

theorem walk_ifThen (h : walk cells controls (.ifThen cond body) st = some ((), c, st')) :
    ∃ v cc st₁ cb st₂, walkExpr cells cond ⟨st.next + 3, st.block⟩ = some (v, cc, st₁) ∧
      walk cells controls body ⟨st₁.next, st.next + 2⟩ = some ((), cb, st₂) ∧
      c = cc ++ .condbr v (st.next + 2) (st.next + 1) :: .label (st.next + 1) :: .br st.next ::
        .label (st.next + 2) :: (cb ++ [.br st.next, .label st.next]) ∧
      st' = ⟨st₂.next, st.next⟩ := by
  simp only [walk, Build.fresh_bind, Build.emit_bind, Build.setInsertPoint_bind,
    Build.prepend_eq_some, Build.bind_eq_some] at h
  obtain ⟨v, cc, st₁, _, hv, ⟨_, ⟨_, ⟨_, ⟨_, ⟨_, cb, st₂, _, hb, ⟨_, hs, rfl⟩, rfl⟩, rfl⟩, rfl⟩,
    rfl⟩, rfl⟩, rfl⟩ := h
  cases hs
  exact ⟨v, cc, st₁, cb, st₂, hv, hb, by simp, rfl⟩

theorem walk_ifElse (h : walk cells controls (.ifElse cond body remain) st = some ((), c, st')) :
    ∃ v cc st₁ cb st₂ cr st₃,
      walkExpr cells cond ⟨st.next + 4, st.block⟩ = some (v, cc, st₁) ∧
      walk cells controls body ⟨st₁.next, st.next + 2⟩ = some ((), cb, st₂) ∧
      walk cells controls remain ⟨st₂.next, st.next + 3⟩ = some ((), cr, st₃) ∧
      c = cc ++ .condbr v (st.next + 2) (st.next + 1) :: .label (st.next + 1) ::
        .br (st.next + 3) :: .label (st.next + 2) :: (cb ++ .br st.next :: .label (st.next + 3) ::
          (cr ++ [.br st.next, .label st.next])) ∧
      st' = ⟨st₃.next, st.next⟩ := by
  simp only [walk, Build.fresh_bind, Build.emit_bind, Build.setInsertPoint_bind,
    Build.prepend_eq_some, Build.bind_eq_some] at h
  obtain ⟨v, cc, st₁, _, hv, ⟨_, ⟨_, ⟨_, ⟨_, ⟨_, cb, st₂, _, hb, ⟨_, ⟨_, ⟨_, cr, st₃, _, hr,
    ⟨_, hs, rfl⟩, rfl⟩, rfl⟩, rfl⟩, rfl⟩, rfl⟩, rfl⟩, rfl⟩, rfl⟩, rfl⟩ := h
  cases hs
  exact ⟨v, cc, st₁, cb, st₂, cr, st₃, hv, hb, hr, by simp, rfl⟩

theorem walk_while (h : walk cells controls (.while cond body) st = some ((), c, st')) :
    ∃ v cc st₁ cb st₂, walkExpr cells cond ⟨st.next + 3, st.next⟩ = some (v, cc, st₁) ∧
      walk cells (⟨st.next, st.next + 2⟩ :: controls) body ⟨st₁.next, st.next + 1⟩ =
        some ((), cb, st₂) ∧
      c = .br st.next :: .label st.next :: (cc ++ .condbr v (st.next + 1) (st.next + 2) ::
        .label (st.next + 1) :: (cb ++ [.br st.next, .label (st.next + 2)])) ∧
      st' = ⟨st₂.next, st.next + 2⟩ := by
  simp only [walk, Build.fresh_bind, Build.emit_bind, Build.setInsertPoint_bind,
    Build.prepend_eq_some, Build.bind_eq_some] at h
  obtain ⟨_, ⟨_, ⟨v, cc, st₁, _, hv, ⟨_, ⟨_, ⟨_, cb, st₂, _, hb, ⟨_, hs, rfl⟩, rfl⟩, rfl⟩, rfl⟩,
    rfl⟩, rfl⟩, rfl⟩ := h
  cases hs
  exact ⟨v, cc, st₁, cb, st₂, hv, hb, by simp, rfl⟩

theorem walk_loop (h : walk cells controls (.loop body) st = some ((), c, st')) :
    ∃ cb st₂, walk cells (⟨st.next, st.next + 1⟩ :: controls) body ⟨st.next + 2, st.next⟩ =
        some ((), cb, st₂) ∧
      c = .br st.next :: .label st.next :: (cb ++ [.br st.next, .label (st.next + 1)]) ∧
      st' = ⟨st₂.next, st.next + 1⟩ := by
  simp only [walk, Build.fresh_bind, Build.emit_bind, Build.setInsertPoint_bind,
    Build.prepend_eq_some, Build.bind_eq_some] at h
  obtain ⟨_, ⟨_, ⟨_, cb, st₂, _, hb, ⟨_, hs, rfl⟩, rfl⟩, rfl⟩, rfl⟩ := h
  cases hs
  exact ⟨cb, st₂, hb, by simp, rfl⟩

/-- The test of a `for` behind its condition block, where `m` is the cell of the index. -/
def forTest (type : IntType) (inclusive : Bool) (m : Nat) (endcond : Val Word) : Code F :=
  [.load (m + 2) m,
    .op (m + 3) (.icmp (auxCreateCompareValueFor type inclusive)) [.reg (m + 2), endcond]]

/-- The step of a `for` before its body: the index goes to the loop variable and is incremented. -/
def forStep (type : IntType) (m : Nat) : Code F :=
  [.store (m + 1) (.reg (m + 2)), .load (m + 4) m,
    .op (m + 5) .add [.reg (m + 4), .const ⟨type.width, 1⟩], .store m (.reg (m + 5))]

theorem walk_for {x : ι} {type : IntType} {start fin : Expr ι F} {inclusive : Bool}
    (h : walk cells controls (.for x type start fin inclusive body) st = some ((), c, st')) :
    ∃ begincond endcond cr st₁ cb st₂,
      walkBounds cells start fin ⟨st.next + 3, st.block⟩ = some ((begincond, endcond), cr, st₁) ∧
      walk (Function.update cells x (st₁.next + 1)) (⟨st.next, st.next + 2⟩ :: controls) body
        ⟨st₁.next + 6, st.next + 1⟩ = some ((), cb, st₂) ∧
      c = cr ++ .store st₁.next begincond :: .br st.next :: .label st.next ::
        (forTest type inclusive st₁.next endcond ++
          .condbr (.reg (st₁.next + 3)) (st.next + 1) (st.next + 2) :: .label (st.next + 1) ::
            (forStep type st₁.next ++ (cb ++ [.br st.next, .label (st.next + 2)]))) ∧
      st' = ⟨st₂.next, st.next + 2⟩ := by
  simp only [walk, Build.fresh_bind, Build.emit_bind, Build.setInsertPoint_bind,
    Build.prepend_eq_some, Build.bind_eq_some] at h
  obtain ⟨⟨begincond, endcond⟩, cr, st₁, _, hv, ⟨_, ⟨_, ⟨_, ⟨_, ⟨_, ⟨_, ⟨_, ⟨_, ⟨_, ⟨_, ⟨_, ⟨_, cb,
    st₂, _, hb, ⟨_, hs, rfl⟩, rfl⟩, rfl⟩, rfl⟩, rfl⟩, rfl⟩, rfl⟩, rfl⟩, rfl⟩, rfl⟩, rfl⟩, rfl⟩,
    rfl⟩, rfl⟩ := h
  cases hs
  exact ⟨begincond, endcond, cr, st₁, cb, st₂, hv, hb, by simp [forTest, forStep], rfl⟩

end

end CaLang.Loops

import Mathlib.Logic.Function.Basic

/-! # What functions mean

Functions with statements, calls and `return`, and their meaning.  **A `return` ends the function
from wherever it stands**, in branches and loops; the arguments of a call have their values from
left to right, and every call of a function has variables of its own.

What operations do is a parameter.  A variable has no value before it is set: an expression that
reads it then has no meaning, and neither has a function that is left at its end though it should
return a value.
-/

namespace CaLang.Functions

/-- Expressions (`false`) and lists of them (`true`). -/
inductive Term (ι F G : Type) : Bool → Type
  | var (x : ι) : Term ι F G false
  | op (f : F) (args : Term ι F G true) : Term ι F G false
  | call (g : G) (args : Term ι F G true) : Term ι F G false
  | nil : Term ι F G true
  | cons (e : Term ι F G false) (es : Term ι F G true) : Term ι F G true

/-- Statements (`false`), and the conditions of an `if` with their bodies (`true`). -/
inductive Stmt (ι F G : Type) : Bool → Type
  | skip : Stmt ι F G false
  | seq (s t : Stmt ι F G false) : Stmt ι F G false
  | expr (e : Term ι F G false) : Stmt ι F G false
  | assign (x : ι) (e : Term ι F G false) : Stmt ι F G false
  | noArms : Stmt ι F G true
  | arm (cond : Term ι F G false) (body : Stmt ι F G false) (rest : Stmt ι F G true) :
      Stmt ι F G true
  | ifThen (arms : Stmt ι F G true) : Stmt ι F G false
  | ifElse (arms : Stmt ι F G true) (remain : Stmt ι F G false) : Stmt ι F G false
  | while (cond : Term ι F G false) (body : Stmt ι F G false) : Stmt ι F G false
  | loop (body : Stmt ι F G false) : Stmt ι F G false
  | break : Stmt ι F G false
  | continue : Stmt ι F G false
  | ret (e : Option (Term ι F G false)) : Stmt ι F G false

/-- There is a `return`: `g_with_ret_value`. -/
def Stmt.withRetValue {ι F G : Type} : {k : Bool} → Stmt ι F G k → Bool
  | _, .seq s t => s.withRetValue || t.withRetValue
  | _, .arm _ body rest => body.withRetValue || rest.withRetValue
  | _, .ifThen arms => arms.withRetValue
  | _, .ifElse arms remain => arms.withRetValue || remain.withRetValue
  | _, .while _ body => body.withRetValue
  | _, .loop body => body.withRetValue
  | _, .ret _ => true
  | _, .skip | _, .expr _ | _, .assign _ _ | _, .noArms | _, .break | _, .continue => false

/-- A function; its first variables are the parameters. -/
structure Fn (F G V : Type) where
  locals : Nat
  argc : Nat
  argc_le : argc ≤ locals
  /-- The default value of the type that is returned, or `none` for `void`. -/
  ret : Option V
  body : Stmt (Fin locals) F G false

/-- What operations do, and which values are true. -/
structure Interp (F V W : Type) where
  op : F → List V → W → V × W
  truth : V → Bool

variable {ι F G V W : Type}

/-- The variables and the world. -/
structure Store (ι V W : Type) where
  vars : ι → Option V
  world : W

def Store.bind [DecidableEq ι] (σ : Store ι V W) (x : ι) (v : V) : Store ι V W :=
  { σ with vars := Function.update σ.vars x (some v) }

/-- What calls do, where they end: the value that a function returns, and the world. -/
abbrev Calls (G V W : Type) := G → List V → W → Option (Option V × W)

/-- The values of an expression or of several; only a call of a `void` function has none. -/
def Term.eval (I : Interp F V W) (C : Calls G V W) :
    {k : Bool} → Term ι F G k → Store ι V W → Option (List V × Store ι V W)
  | _, .var x, σ => (σ.vars x).map fun v => ([v], σ)
  | _, .op f args, σ =>
      (args.eval I C σ).map fun (vs, σ₁) =>
        let r := I.op f vs σ₁.world
        ([r.1], { σ₁ with world := r.2 })
  | _, .call g args, σ =>
      (args.eval I C σ).bind fun (vs, σ₁) =>
        (C g vs σ₁.world).map fun (v, w) => (v.toList, { σ₁ with world := w })
  | _, .nil, σ => some ([], σ)
  | _, .cons e es, σ =>
      (e.eval I C σ).bind fun (vs, σ₁) => (es.eval I C σ₁).map fun (vs', σ₂) => (vs ++ vs', σ₂)

/-- How a statement ends; `noArm` if no condition holds. -/
inductive Flow (V : Type)
  | normal | break | continue | noArm
  | ret (v : Option V)
  deriving DecidableEq

/-- The value of an expression that has one. -/
def Term.value (I : Interp F V W) (C : Calls G V W) (e : Term ι F G false) (σ : Store ι V W) :
    Option (V × Store ι V W) :=
  match e.eval I C σ with
  | some ([v], σ₁) => some (v, σ₁)
  | _ => none

variable [DecidableEq ι]

/-- **The run of a statement**, if it ends within the fuel. -/
def run (I : Interp F V W) (C : Calls G V W) :
    Nat → {k : Bool} → Stmt ι F G k → Store ι V W → Option (Flow V × Store ι V W)
  | 0, _, _, _ => none
  | fuel + 1, _, s, σ =>
      match s with
      | .skip => some (.normal, σ)
      | .seq s t =>
          match run I C fuel s σ with
          | some (.normal, σ₁) => run I C fuel t σ₁
          | r => r
      | .expr e => (e.eval I C σ).map fun (_, σ₁) => (.normal, σ₁)
      | .assign x e => (e.value I C σ).map fun (v, σ₁) => (.normal, σ₁.bind x v)
      | .noArms => some (.noArm, σ)
      | .arm cond body rest =>
          (cond.value I C σ).bind fun (v, σ₁) =>
            if I.truth v then run I C fuel body σ₁ else run I C fuel rest σ₁
      | .ifThen arms =>
          match run I C fuel arms σ with
          | some (.noArm, σ₁) => some (.normal, σ₁)
          | r => r
      | .ifElse arms remain =>
          match run I C fuel arms σ with
          | some (.noArm, σ₁) => run I C fuel remain σ₁
          | r => r
      | .while cond body =>
          (cond.value I C σ).bind fun (v, σ₁) =>
            if I.truth v then
              match run I C fuel body σ₁ with
              | some (.normal, σ₂) | some (.continue, σ₂) => run I C fuel (.while cond body) σ₂
              | some (.break, σ₂) => some (.normal, σ₂)
              | r => r
            else some (.normal, σ₁)
      | .loop body =>
          match run I C fuel body σ with
          | some (.normal, σ₁) | some (.continue, σ₁) => run I C fuel (.loop body) σ₁
          | some (.break, σ₁) => some (.normal, σ₁)
          | r => r
      | .break => some (.break, σ)
      | .continue => some (.continue, σ)
      | .ret none => some (.ret none, σ)
      | .ret (some e) => (e.value I C σ).map fun (v, σ₁) => (.ret (some v), σ₁)

@[simp] theorem run_skip (I : Interp F V W) (C : Calls G V W) (fuel : Nat) (σ : Store ι V W) :
    run I C (fuel + 1) (.skip : Stmt ι F G false) σ = some (.normal, σ) := by
  simp only [run]

@[simp] theorem run_noArms (I : Interp F V W) (C : Calls G V W) (fuel : Nat) (σ : Store ι V W) :
    run I C (fuel + 1) (.noArms : Stmt ι F G true) σ = some (.noArm, σ) := by
  simp only [run]

/-! ### Programs -/

/-- The variables at the start of a call: the parameters have the arguments. -/
def Fn.init (f : Fn F G V) (vs : List V) (w : W) : Store (Fin f.locals) V W := ⟨fun x => vs[x]?, w⟩

/-- What a function returns when its body ends; `emitMain` tells whether there is a value behind a
body without `return`. -/
def Fn.finish (emitMain : Bool) (f : Fn F G V) :
    Flow V × Store (Fin f.locals) V W → Option (Option V × W)
  | (.ret (some v), σ) => if f.ret.isSome then some (some v, σ.world) else none
  | (.ret none, σ) => if f.ret.isSome then none else some (none, σ.world)
  | (.normal, σ) =>
      match f.ret with
      | none => some (none, σ.world)
      | some v => if f.body.withRetValue || !emitMain then none else some (some v, σ.world)
  | _ => none

/-- **The calls of a program**, if they end within the fuel; it bounds the depth of calls too. -/
def call (I : Interp F V W) (emitMain : Bool) (fns : G → Fn F G V) : Nat → Calls G V W
  | 0 => fun _ _ _ => none
  | fuel + 1 => fun g vs w =>
      let f := fns g
      if vs.length = f.argc then
        (run I (call I emitMain fns fuel) fuel f.body (f.init vs w)).bind (f.finish emitMain)
      else none

end CaLang.Functions

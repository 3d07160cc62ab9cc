import CaLang.Lib.CfgRuns

/-! # Functions that call each other

Code of several functions, on a machine with a stack of calls.  A call puts the caller on the stack
and runs the code of the function from its first instruction; **at the end of the code the result
goes to the register of the caller**.  Every call has registers and cells of its own, with anything
in them, and the world is one for all.

A run of a function is the same on top of any stack, so that **a call is one step to its caller**.
-/

namespace CaLang.Cfg

/-- The code of a function, and what is its result behind it. -/
structure Fun (K Op : Type) where
  code : Code K Op
  result : Option (Val K)

variable {K Op V W G : Type}

/-- Functions, and the machine that runs them. -/
structure Module (K Op V W G : Type) where
  machine : Machine K Op V W
  /-- Which function an operation calls. -/
  callee : Op → Option G
  fns : G → Fun K Op
  /-- What registers and cells hold before they are written. -/
  junk : Nat → V

/-- A function that waits for the result of a call. -/
structure Caller (K Op V W : Type) where
  reg : Nat
  fn : Fun K Op
  config : Config K Op V W

/-- The function that runs, and those that wait for it. -/
structure Stack (K Op V W : Type) where
  fn : Fun K Op
  config : Config K Op V W
  callers : List (Caller K Op V W)

/-- The same with more functions that wait. -/
def Stack.on (x : Stack K Op V W) (cs : List (Caller K Op V W)) : Stack K Op V W :=
  { x with callers := x.callers ++ cs }

namespace Module

variable (N : Module K Op V W G)

/-- A function before its first instruction; the arguments are in the first registers. -/
def enter (g : G) (vs : List V) (w : W) : Config K Op V W :=
  ⟨(N.fns g).code, 0, 0, ⟨fun r => (vs[r]?).getD (N.junk r), N.junk, w⟩⟩

/-- The result of a function, which is in the given state at its end. -/
def result (fn : Fun K Op) (s : State V W) : Option V := fn.result.map (·.eval N.machine s)

/-- The caller goes on with the result, if there is one. -/
def resume (c : Caller K Op V W) (v : Option V) (w : W) : Config K Op V W :=
  { c.config with state :=
    { c.config.state.setReg c.reg (v.getD (N.junk c.reg)) with world := w } }

def step (x : Stack K Op V W) : Option (Stack K Op V W) :=
  match x.config.rest with
  | [] =>
      match x.callers with
      | [] => none
      | c :: cs =>
          some ⟨c.fn, N.resume c (N.result x.fn x.config.state) x.config.state.world, cs⟩
  | .op r o vs :: rest =>
      match N.callee o with
      | some g =>
          let s := x.config.state
          some ⟨N.fns g, N.enter g (vs.map (·.eval N.machine s)) s.world,
            ⟨r, x.fn, { x.config with rest }⟩ :: x.callers⟩
      | none => (Cfg.step N.machine x.fn.code x.config).map (⟨x.fn, ·, x.callers⟩)
  | _ => (Cfg.step N.machine x.fn.code x.config).map (⟨x.fn, ·, x.callers⟩)

/-- A run of the functions. -/
def Exec : Stack K Op V W → Stack K Op V W → Prop :=
  Relation.ReflTransGen fun x y => N.step x = some y

/-- **A function returns**: its code is run to the end. -/
def Returns (g : G) (vs : List V) (w : W) (v : Option V) (w' : W) : Prop :=
  ∃ b prev s, N.Exec ⟨N.fns g, N.enter g vs w, []⟩ ⟨N.fns g, ⟨[], b, prev, s⟩, []⟩ ∧
    N.result (N.fns g) s = v ∧ s.world = w'

variable {N}

/-! ### Runs on a stack -/

theorem step_on {x y : Stack K Op V W} (h : N.step x = some y) (cs : List (Caller K Op V W)) :
    N.step (x.on cs) = some (y.on cs) := by
  obtain ⟨fn, ⟨rest, cur, prev, s⟩, callers⟩ := x
  have plain : ∀ {r : Option (Config K Op V W)}, r.map (⟨fn, ·, callers⟩) = some y →
      r.map (⟨fn, ·, callers ++ cs⟩) = some (y.on cs) := by
    intro r hr
    obtain ⟨c, rfl, rfl⟩ := Option.map_eq_some_iff.mp hr
    rfl
  cases rest with
  | nil =>
      cases callers with
      | nil => cases h
      | cons c callers =>
          cases h
          rfl
  | cons i rest =>
      cases i with
      | op r o vs =>
          simp only [step, Stack.on] at h ⊢
          cases hg : N.callee o with
          | some g =>
              rw [hg] at h
              cases h
              rfl
          | none =>
              rw [hg] at h
              exact plain h
      | label | br | condbr | phi | load | store | copy =>
          simp only [step, Stack.on] at h ⊢
          exact plain h

/-- **A run is the same on top of any stack.** -/
theorem Exec.on {x y : Stack K Op V W} (h : N.Exec x y) (cs : List (Caller K Op V W)) :
    N.Exec (x.on cs) (y.on cs) := by
  induction h with
  | refl => exact .refl
  | tail _ hstep ih => exact ih.tail (step_on hstep cs)

/-- A run that ends where no step is possible has one end only. -/
theorem Exec.unique {x y z : Stack K Op V W} (hy : N.Exec x y) (hz : N.Exec x z)
    (hys : N.step y = none) (hzs : N.step z = none) : y = z := by
  induction hy using Relation.ReflTransGen.head_induction_on with
  | refl =>
      rcases Relation.ReflTransGen.cases_head hz with rfl | ⟨x', hx, -⟩
      · rfl
      · rw [hys] at hx
        cases hx
  | head h _ ih =>
      rcases Relation.ReflTransGen.cases_head hz with rfl | ⟨x', hx, hz⟩
      · rw [hzs] at h
        cases h
      · obtain rfl := Option.some.inj (h.symm.trans hx)
        exact ih hz

/-- A function has one result only. -/
theorem Returns.unique {g : G} {vs : List V} {w w₁ w₂ : W} {v₁ v₂ : Option V}
    (h₁ : N.Returns g vs w v₁ w₁) (h₂ : N.Returns g vs w v₂ w₂) : v₁ = v₂ ∧ w₁ = w₂ := by
  obtain ⟨b₁, prev₁, s₁, hex₁, rfl, rfl⟩ := h₁
  obtain ⟨b₂, prev₂, s₂, hex₂, rfl, rfl⟩ := h₂
  have heq := hex₁.unique hex₂ rfl rfl
  simp only [Stack.mk.injEq, Config.mk.injEq] at heq
  obtain ⟨-, ⟨-, -, -, rfl⟩, -⟩ := heq
  exact ⟨rfl, rfl⟩

variable {fn : Fun K Op} {callers : List (Caller K Op V W)} {rest R : Code K Op} {b prev : Nat}
  {s : State V W}

/-- **A call is a step to its caller**, where the function returns. -/
theorem exec_call {o : Op} {g : G} {r : Nat} {vs : List (Val K)} {v : Option V} {w : W}
    (ho : N.callee o = some g) (h : N.Returns g (vs.map (·.eval N.machine s)) s.world v w) :
    N.Exec ⟨fn, ⟨.op r o vs :: rest, b, prev, s⟩, callers⟩
      ⟨fn, ⟨rest, b, prev, { s.setReg r (v.getD (N.junk r)) with world := w }⟩, callers⟩ := by
  obtain ⟨b', prev', s', hex, rfl, rfl⟩ := h
  have hin : N.step ⟨fn, ⟨.op r o vs :: rest, b, prev, s⟩, callers⟩ =
      some ⟨N.fns g, N.enter g (vs.map (·.eval N.machine s)) s.world,
        ⟨r, fn, ⟨rest, b, prev, s⟩⟩ :: callers⟩ := by
    simp only [step, ho]
  exact .head hin ((hex.on (⟨r, fn, ⟨rest, b, prev, s⟩⟩ :: callers)).tail rfl)

/-- An instruction that calls no function. -/
def Local (N : Module K Op V W G) : Instr K Op → Prop
  | .op _ o _ => N.callee o = none
  | _ => True

theorem step_local {i : Instr K Op} {c : Config K Op V W} (hi : N.Local i)
    (h : Cfg.step N.machine fn.code ⟨i :: rest, b, prev, s⟩ = some c) :
    N.step ⟨fn, ⟨i :: rest, b, prev, s⟩, callers⟩ = some ⟨fn, c, callers⟩ := by
  cases i with
  | op r o vs =>
      have ho : N.callee o = none := hi
      simp only [step, ho, h, Option.map_some]
  | label | br | condbr | phi | load | store | copy =>
      simp only [step, h, Option.map_some]

/-- A plain instruction that calls no function is run through. -/
theorem exec_plain {i : Instr K Op} (hp : i.plain = true) (hi : N.Local i) :
    N.Exec ⟨fn, ⟨i :: rest, b, prev, s⟩, callers⟩
      ⟨fn, ⟨rest, b, prev, i.effect N.machine s⟩, callers⟩ := by
  refine .single (step_local hi ?_)
  cases i with
  | load | store | copy | op => rfl
  | _ => cases hp

/-- Plain code that calls no function is run through. -/
theorem exec_effect {c : Code K Op} (hp : ∀ i ∈ c, i.plain = true) (hl : ∀ i ∈ c, N.Local i) :
    N.Exec ⟨fn, ⟨c ++ R, b, prev, s⟩, callers⟩
      ⟨fn, ⟨R, b, prev, effect N.machine s c⟩, callers⟩ := by
  induction c generalizing s with
  | nil => exact .refl
  | cons i c ih =>
      exact (exec_plain (hp i List.mem_cons_self) (hl i List.mem_cons_self)).trans
        (ih (fun j hj => hp j (List.mem_cons_of_mem _ hj))
          fun j hj => hl j (List.mem_cons_of_mem _ hj))

theorem exec_br {t : Nat} (h : after t fn.code = some R) :
    N.Exec ⟨fn, ⟨.br t :: rest, b, prev, s⟩, callers⟩ ⟨fn, ⟨R, t, b, s⟩, callers⟩ := by
  refine .single (step_local trivial ?_)
  show jump fn.code _ t = _
  rw [jump, h]
  rfl

theorem exec_condbr {v : Val K} {t e d : Nat} (hd : (if N.machine.istrue (v.eval N.machine s) then t
    else e) = d) (h : after d fn.code = some R) :
    N.Exec ⟨fn, ⟨.condbr v t e :: rest, b, prev, s⟩, callers⟩ ⟨fn, ⟨R, d, b, s⟩, callers⟩ := by
  refine .single (step_local trivial ?_)
  show jump fn.code _ (if N.machine.istrue (v.eval N.machine s) then t else e) = _
  rw [hd, jump, h]
  rfl

end Module

end CaLang.Cfg

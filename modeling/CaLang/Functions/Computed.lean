import CaLang.Functions.Walk

/-! # Code that computes expressions

The code of an expression has no labels and jumps.  **It leaves the value of the expression in a
cell, a new register or a constant**, where all calls in it return, and keeps what was there before.
-/

namespace CaLang.Functions

open Cfg (Build Val Fun Builder State Caller)

variable {ι F G V W : Type} {isvoidty : G → Bool} {cells : ι → Nat} {st st' : Builder}
  {c : Code F G V}

/-! ### The shape of the code -/

section

variable {k : Bool} {e : Term ι F G false} {es args : Term ι F G true} {vals : List (Val V)}

theorem walkStack_op {f : F} {o : Option (Operand V)}
    (h : walkStack isvoidty cells (.op f args) st = some (o, c, st')) :
    ∃ (vs : List (Val V)) (ca : Code F G V) (st₁ : Builder),
      walkStack isvoidty cells args st = some (vs, ca, st₁) ∧
      o = some (.value (.reg st₁.next)) ∧ c = ca ++ [.op st₁.next (.user f) vs] ∧
        st' = ⟨st₁.next + 1, st₁.block⟩ := by
  obtain ⟨vs, ca, st₁, cr, hargs, hrest, rfl⟩ := Build.bind_eq_some.mp h
  cases hrest
  exact ⟨vs, ca, st₁, hargs, rfl, rfl, rfl⟩

theorem walkStack_call {g : G} {o : Option (Operand V)}
    (h : walkStack isvoidty cells (.call g args) st = some (o, c, st')) :
    ∃ (vs : List (Val V)) (ca : Code F G V) (st₁ : Builder),
      walkStack isvoidty cells args st = some (vs, ca, st₁) ∧
      if isvoidty g then o = none ∧ c = ca ++ [.op st₁.next (.call g) vs] ∧
          st' = ⟨st₁.next + 1, st₁.block⟩
      else o = some (.alloc (st₁.next + 1)) ∧ c = ca ++ [.op st₁.next (.call g) vs,
          .store (st₁.next + 1) (.reg st₁.next)] ∧ st' = ⟨st₁.next + 2, st₁.block⟩ := by
  obtain ⟨vs, ca, st₁, cr, hargs, hrest, rfl⟩ := Build.bind_eq_some.mp h
  refine ⟨vs, ca, st₁, hargs, ?_⟩
  cases hvoid : isvoidty g with
  | true =>
      rw [hvoid] at hrest
      cases hrest
      exact ⟨rfl, rfl, rfl⟩
  | false =>
      rw [hvoid] at hrest
      cases hrest
      exact ⟨rfl, rfl, rfl⟩

theorem walkStack_cons (h : walkStack isvoidty cells (.cons e es) st = some (vals, c, st')) :
    ∃ (o : Option (Operand V)) (c₁ : Code F G V) (st₁ : Builder) (v : List (Val V))
      (c₂ : Code F G V) (st₂ : Builder) (vs : List (Val V)) (c₃ : Code F G V),
      walkStack isvoidty cells e st = some (o, c₁, st₁) ∧
      popArgument o st₁ = some (v, c₂, st₂) ∧
      walkStack isvoidty cells es st₂ = some (vs, c₃, st') ∧ vals = v ++ vs ∧
      c = c₁ ++ (c₂ ++ c₃) := by
  obtain ⟨o, c₁, st₁, cr, he, hrest, rfl⟩ := Build.bind_eq_some.mp h
  obtain ⟨v, c₂, st₂, cs, hv, hlast, rfl⟩ := Build.bind_eq_some.mp hrest
  obtain ⟨vs, c₃, st₃, cn, hes, hpure, rfl⟩ := Build.bind_eq_some.mp hlast
  cases hpure
  exact ⟨o, c₁, st₁, v, c₂, st₂, vs, c₃, he, hv, hes, rfl, by rw [List.append_nil]⟩

theorem popArgument_some {o : Operand V} {vs : List (Val V)}
    (h : popArgument (some o) st = some (vs, c, st')) :
    ∃ v, o.load st = some (v, c, st') ∧ vs = [v] := by
  obtain ⟨v, c₁, st₁, cr, hv, hpure, rfl⟩ := Build.bind_eq_some.mp h
  cases hpure
  exact ⟨v, by rw [hv, List.append_nil], rfl⟩

/-- The walk of an expression that has a value, and its load. -/
theorem popRightValue_eq {v : Val V}
    (h : popRightValue isvoidty cells e st = some (v, c, st')) :
    ∃ (o : Operand V) (c₁ : Code F G V) (st₁ : Builder) (c₂ : Code F G V),
      walkStack isvoidty cells e st = some (some o, c₁, st₁) ∧
      o.load st₁ = some (v, c₂, st') ∧ c = c₁ ++ c₂ := by
  obtain ⟨o, c₁, st₁, c₂, he, hrest, rfl⟩ := Build.bind_eq_some.mp h
  cases o with
  | none => cases hrest
  | some o => exact ⟨o, c₁, st₁, c₂, he, hrest, rfl⟩

/-- Code without labels and jumps, for values that are there behind it. -/
structure Plain (st : Builder) (vals : List (Val V)) (c : Code F G V) (st' : Builder) : Prop where
  plain : ∀ i ∈ c, i.plain = true
  le : st.next ≤ st'.next
  block_eq : st'.block = st.block
  below : ∀ v ∈ vals, v.Below st'.next

theorem Plain.append {vs us : List (Val V)} {st₁ : Builder} {c' : Code F G V}
    (h : Plain st vs c st₁) (h' : Plain st₁ us c' st') : Plain st us (c ++ c') st' :=
  ⟨fun i hi => (List.mem_append.mp hi).elim (h.plain i) (h'.plain i), Nat.le_trans h.le h'.le,
    h'.block_eq.trans h.block_eq, h'.below⟩

/-- The values left outside of cells. -/
def Left.regs : {k : Bool} → Left V k → List (Val V)
  | false, some (.value v) => [v]
  | false, _ => []
  | true, vals => vals

theorem load_plain {o : Operand V} {v : Val V} (h : o.load st = some (v, c, st'))
    (hb : ∀ u ∈ Left.regs (k := false) (some o), u.Below st.next) : Plain st [v] c st' := by
  cases o with
  | alloc cell =>
      cases h
      exact ⟨by simp [Cfg.Instr.plain], Nat.le_succ _, rfl, by simp [Val.Below]⟩
  | value u =>
      cases h
      exact ⟨nofun, Nat.le_refl _, rfl, hb⟩

theorem popArgument_plain {o : Option (Operand V)} {vs : List (Val V)}
    (h : popArgument o st = some (vs, c, st'))
    (hb : ∀ u ∈ Left.regs (k := false) o, u.Below st.next) : Plain st vs c st' := by
  cases o with
  | none =>
      cases h
      exact ⟨nofun, Nat.le_refl _, rfl, nofun⟩
  | some o =>
      obtain ⟨v, hv, rfl⟩ := popArgument_some h
      exact load_plain hv hb

theorem walkStack_plain {t : Term ι F G k} {left : Left V k}
    (h : walkStack isvoidty cells t st = some (left, c, st')) : Plain st left.regs c st' := by
  induction t generalizing st c st' with
  | var x =>
      cases h
      exact ⟨nofun, Nat.le_refl _, rfl, nofun⟩
  | op f args ih =>
      obtain ⟨vs, ca, st₁, hargs, rfl, rfl, rfl⟩ := walkStack_op h
      refine (ih hargs).append ⟨?_, Nat.le_succ _, rfl, ?_⟩
      · simp [Cfg.Instr.plain]
      · simp [Left.regs, Val.Below]
  | call g args ih =>
      obtain ⟨vs, ca, st₁, hargs, hcall⟩ := walkStack_call h
      split at hcall
      · obtain ⟨rfl, rfl, rfl⟩ := hcall
        refine (ih hargs).append ⟨?_, Nat.le_succ _, rfl, nofun⟩
        simp [Cfg.Instr.plain]
      · obtain ⟨rfl, rfl, rfl⟩ := hcall
        refine (ih hargs).append ⟨?_, Nat.le_add_right _ 2, rfl, nofun⟩
        simp [Cfg.Instr.plain]
  | nil =>
      cases h
      exact ⟨nofun, Nat.le_refl _, rfl, nofun⟩
  | cons e es ihe ihes =>
      obtain ⟨o, c₁, st₁, v, c₂, st₂, vs, c₃, he, hv, hes, rfl, rfl⟩ := walkStack_cons h
      have hp₁ := ihe he
      have hp₂ := popArgument_plain hv hp₁.below
      have hp₃ := ihes hes
      have hall := hp₁.append (hp₂.append hp₃)
      refine ⟨hall.plain, hall.le, hall.block_eq, ?_⟩
      intro u hu
      exact (List.mem_append.mp hu).elim (fun hu => (hp₂.below u hu).mono hp₃.le) (hp₃.below u)

theorem popRightValue_plain {v : Val V}
    (h : popRightValue isvoidty cells e st = some (v, c, st')) : Plain st [v] c st' := by
  obtain ⟨o, c₁, st₁, c₂, he, hv, rfl⟩ := popRightValue_eq h
  have hp := walkStack_plain he
  exact hp.append (load_plain hv hp.below)

end

/-! ### The run of the code -/

/-- The variables are in their cells. -/
structure Rel (cells : ι → Nat) (σ : Store ι V W) (s : State V W) : Prop where
  world : s.world = σ.world
  vars : ∀ x v, σ.vars x = some v → s.cells (cells x) = v

/-- Each variable has a cell of its own below `n`. -/
structure Scope (cells : ι → Nat) (n : Nat) : Prop where
  injective : Function.Injective cells
  below : ∀ x, cells x < n

theorem Scope.mono {n m : Nat} (h : Scope cells n) (hle : n ≤ m) : Scope cells m :=
  ⟨h.injective, fun x => Nat.lt_of_lt_of_le (h.below x) hle⟩

theorem Rel.of_agree {n : Nat} {s s' : State V W} {σ σ' : Store ι V W} (h : Rel cells σ s)
    (hs : Scope cells n) (hk : State.AgreeBelow n s s') (hvars : σ'.vars = σ.vars)
    (hw : s'.world = σ'.world) : Rel cells σ' s' :=
  ⟨hw, fun x v hx => ((hk _ (hs.below x)).2).trans (h.vars x v (hvars ▸ hx))⟩

/-- A binding of the source is a store. -/
theorem Rel.bind [DecidableEq ι] {n : Nat} {σ : Store ι V W} {s : State V W} (h : Rel cells σ s)
    (hs : Scope cells n) (x : ι) (v : V) : Rel cells (σ.bind x v) (s.setCell (cells x) v) where
  world := h.world
  vars y u hy := by
    show Function.update s.cells (cells x) v (cells y) = u
    by_cases hyx : y = x
    · subst hyx
      rw [Function.update_self]
      exact Option.some.inj ((Function.update_self y _ σ.vars).symm.trans hy)
    · rw [Function.update_of_ne fun he => hyx (hs.injective he)]
      exact h.vars y u ((Function.update_of_ne hyx _ σ.vars).symm.trans hy)

/-- **All calls return**, with a value unless they are of `void` functions. -/
def CallsReturn (isvoidty : G → Bool) (N : Cfg.Module V (Op F G) V W G) (C : Calls G V W) : Prop :=
  ∀ g vs w v w', C g vs w = some (v, w') → N.Returns g vs w v w' ∧ v.isNone = isvoidty g

variable {I : Interp F V W} {code : G → Fun V (Op F G)} {junk : Nat → V} {C : Calls G V W}

/-- The values a walk has left, in the state behind its code. -/
def Left.values (M : Cfg.Machine V (Op F G) V W) (s : State V W) : {k : Bool} → Left V k → List V
  | false, none => []
  | false, some (.alloc cell) => [s.cells cell]
  | false, some (.value v) => [v.eval M s]
  | true, vals => vals.map (·.eval M s)

variable (I code junk) in
theorem load_runs {o : Operand V} {v : Val V} (h : o.load st = some (v, c, st'))
    (fn : Fun V (Op F G)) (R : Code F G V) (b prev : Nat)
    (callers : List (Caller V (Op F G) V W)) (s : State V W) :
    ∃ s', (module I code junk).Exec ⟨fn, ⟨c ++ R, b, prev, s⟩, callers⟩
        ⟨fn, ⟨R, b, prev, s'⟩, callers⟩ ∧ s'.world = s.world ∧
      [v.eval (module I code junk).machine s'] =
        Left.values (module I code junk).machine s (k := false) (some o) ∧
      State.AgreeBelow st.next s s' := by
  cases o with
  | alloc cell =>
      cases h
      refine ⟨_, Cfg.Module.exec_plain rfl trivial, rfl, ?_,
        (State.AgreeBelow.refl _ _).setReg (Nat.le_refl _) _⟩
      exact congrArg (fun u => [u]) (Function.update_self _ _ _)
  | value u =>
      cases h
      exact ⟨s, .refl, rfl, rfl, .refl _ _⟩

variable (I code junk) in
theorem popArgument_runs {o : Option (Operand V)} {vs : List (Val V)}
    (h : popArgument o st = some (vs, c, st')) (fn : Fun V (Op F G)) (R : Code F G V)
    (b prev : Nat) (callers : List (Caller V (Op F G) V W)) (s : State V W) :
    ∃ s', (module I code junk).Exec ⟨fn, ⟨c ++ R, b, prev, s⟩, callers⟩
        ⟨fn, ⟨R, b, prev, s'⟩, callers⟩ ∧ s'.world = s.world ∧
      vs.map (·.eval (module I code junk).machine s') =
        Left.values (module I code junk).machine s (k := false) o ∧
      State.AgreeBelow st.next s s' := by
  cases o with
  | none =>
      cases h
      exact ⟨s, .refl, rfl, rfl, .refl _ _⟩
  | some o =>
      obtain ⟨v, hv, rfl⟩ := popArgument_some h
      exact load_runs I code junk hv fn R b prev callers s

/-- **The code of an expression computes its values**, and keeps what was there before. -/
theorem walkStack_runs {k : Bool} {t : Term ι F G k} {σ σ' : Store ι V W} {vs : List V}
    {left : Left V k} (hC : CallsReturn isvoidty (module I code junk) C)
    (heval : t.eval I C σ = some (vs, σ'))
    (hwalk : walkStack isvoidty cells t st = some (left, c, st')) (hs : Scope cells st.next)
    (fn : Fun V (Op F G)) (R : Code F G V) (b prev : Nat) (callers : List (Caller V (Op F G) V W))
    {s : State V W} (hr : Rel cells σ s) :
    ∃ s', (module I code junk).Exec ⟨fn, ⟨c ++ R, b, prev, s⟩, callers⟩
        ⟨fn, ⟨R, b, prev, s'⟩, callers⟩ ∧ s'.world = σ'.world ∧ σ'.vars = σ.vars ∧
      left.values (module I code junk).machine s' = vs ∧ State.AgreeBelow st.next s s' := by
  induction t generalizing σ σ' vs c st st' R s with
  | var x =>
      cases hwalk
      obtain ⟨v, hv, heq⟩ := Option.map_eq_some_iff.mp heval
      cases heq
      exact ⟨s, .refl, hr.world, rfl, congrArg (fun u => [u]) (hr.vars x v hv), .refl _ _⟩
  | op f args ih =>
      obtain ⟨vs', ca, st₁, hargs, rfl, rfl, rfl⟩ := walkStack_op hwalk
      obtain ⟨⟨us, σ₁⟩, hus, heq⟩ := Option.map_eq_some_iff.mp heval
      cases heq
      have hle := (walkStack_plain hargs).le
      rw [List.append_assoc]
      obtain ⟨s₁, hex, hw, hvars, rfl, hk⟩ := ih hus hargs hs _ hr
      refine ⟨_, hex.trans (Cfg.Module.exec_plain rfl rfl), ?_, hvars, ?_,
        (hk.setReg hle _).setWorld _⟩
      · show ((module I code junk).machine.op _ _ s₁.world).2 = _
        rw [hw]
        rfl
      · rw [← hw]
        exact congrArg (fun u => [u]) (Function.update_self _ _ _)
  | call g args ih =>
      obtain ⟨vs', ca, st₁, hargs, hcall⟩ := walkStack_call hwalk
      obtain ⟨⟨us, σ₁⟩, hus, hrest⟩ := Option.bind_eq_some_iff.mp heval
      obtain ⟨⟨v, w⟩, hv, heq⟩ := Option.map_eq_some_iff.mp hrest
      cases heq
      have hle := (walkStack_plain hargs).le
      obtain ⟨s₁, hex, hw, hvars, rfl, hk⟩ :=
        ih hus hargs hs (R := (c.drop ca.length) ++ R) hr
      obtain ⟨hret, hvoid⟩ := hC g _ _ v w hv
      rw [← hw] at hret
      have hcallexec : ∀ R', (module I code junk).Exec
          ⟨fn, ⟨.op st₁.next (.call g) vs' :: R', b, prev, s₁⟩, callers⟩
          ⟨fn, ⟨R', b, prev, { s₁.setReg st₁.next (v.getD (junk st₁.next)) with world := w }⟩,
            callers⟩ := fun R' => Cfg.Module.exec_call rfl hret
      split at hcall
      · rename_i hg
        obtain ⟨rfl, rfl, rfl⟩ := hcall
        rw [List.drop_left] at hex
        rw [List.append_assoc]
        rw [hg, Option.isNone_iff_eq_none] at hvoid
        subst hvoid
        exact ⟨_, hex.trans (hcallexec R), rfl, hvars, rfl, (hk.setReg hle _).setWorld _⟩
      · rename_i hg
        obtain ⟨rfl, rfl, rfl⟩ := hcall
        rw [List.drop_left] at hex
        rw [List.append_assoc]
        cases v with
        | none => exact absurd hvoid.symm hg
        | some v =>
            refine ⟨_, hex.trans ((hcallexec _).trans (Cfg.Module.exec_plain
              (i := .store (st₁.next + 1) (.reg st₁.next)) rfl trivial)), rfl, hvars, ?_,
              ((hk.setReg hle _).setWorld _).setCell (Nat.le_succ_of_le hle) _⟩
            exact congrArg (fun u => [u])
              ((Function.update_self _ _ _).trans (Function.update_self _ _ _))
  | nil =>
      cases hwalk
      cases heval
      exact ⟨s, .refl, hr.world, rfl, rfl, .refl _ _⟩
  | cons e es ihe ihes =>
      obtain ⟨o, c₁, st₁, v, c₂, st₂, vs', c₃, he, hv, hes, rfl, rfl⟩ := walkStack_cons hwalk
      obtain ⟨⟨us, σ₁⟩, hus, hrest⟩ := Option.bind_eq_some_iff.mp heval
      obtain ⟨⟨us', σ₂⟩, hus', heq⟩ := Option.map_eq_some_iff.mp hrest
      cases heq
      have hp₁ := walkStack_plain he
      have hp₂ := popArgument_plain hv hp₁.below
      rw [List.append_assoc, List.append_assoc]
      obtain ⟨s₁, hex₁, hw₁, hvars₁, rfl, hk₁⟩ := ihe hus he hs (c₂ ++ (c₃ ++ R)) hr
      obtain ⟨s₂, hex₂, hw₂, hval, hk₂⟩ :=
        popArgument_runs I code junk hv fn (c₃ ++ R) b prev callers s₁
      have hk₁₂ := hk₁.trans hk₂ hp₁.le
      obtain ⟨s₃, hex₃, hw₃, hvars₃, rfl, hk₃⟩ := ihes hus' hes
        (hs.mono (Nat.le_trans hp₁.le hp₂.le)) R (hr.of_agree hs hk₁₂ hvars₁ (hw₂.trans hw₁))
      refine ⟨s₃, hex₁.trans (hex₂.trans hex₃), hw₃, hvars₃.trans hvars₁, ?_,
        hk₁₂.trans hk₃ (Nat.le_trans hp₁.le hp₂.le)⟩
      rw [← hval]
      -- the values of the first expression are kept
      refine (List.map_append ..).trans (congrArg (· ++ _) (List.map_congr_left ?_))
      intro u hu
      exact hk₃.eval_eq (hp₂.below u hu)

/-- The code of an expression that has a value. -/
theorem popRightValue_runs {e : Term ι F G false} {σ σ' : Store ι V W} {v : V} {u : Val V}
    (hC : CallsReturn isvoidty (module I code junk) C) (hvalue : e.value I C σ = some (v, σ'))
    (hwalk : popRightValue isvoidty cells e st = some (u, c, st')) (hs : Scope cells st.next)
    (fn : Fun V (Op F G)) (R : Code F G V) (b prev : Nat) (callers : List (Caller V (Op F G) V W))
    {s : State V W} (hr : Rel cells σ s) :
    ∃ s', (module I code junk).Exec ⟨fn, ⟨c ++ R, b, prev, s⟩, callers⟩
        ⟨fn, ⟨R, b, prev, s'⟩, callers⟩ ∧ Rel cells σ' s' ∧
      u.eval (module I code junk).machine s' = v := by
  have heval : e.eval I C σ = some ([v], σ') := by
    unfold Term.value at hvalue
    split at hvalue
    · rename_i heq
      cases hvalue
      exact heq
    · cases hvalue
  obtain ⟨o, c₁, st₁, c₂, he, hv, rfl⟩ := popRightValue_eq hwalk
  rw [List.append_assoc]
  obtain ⟨s₁, hex₁, hw₁, hvars₁, hvals, hk₁⟩ :=
    walkStack_runs hC heval he hs fn (c₂ ++ R) b prev callers hr
  obtain ⟨s₂, hex₂, hw₂, hval, hk₂⟩ :=
    load_runs I code junk hv fn R b prev callers s₁
  have hk := hk₁.trans hk₂ (walkStack_plain he).le
  refine ⟨s₂, hex₁.trans hex₂, hr.of_agree hs hk hvars₁ (hw₂.trans hw₁), ?_⟩
  exact (List.cons.inj (hval.trans hvals)).1

end CaLang.Functions

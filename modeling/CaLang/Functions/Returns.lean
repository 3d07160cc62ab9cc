import CaLang.Functions.Sound

/-! # Programs return what they mean

**A call of a function that returns is returned from by the compiled code**, with the same value
and the same world, at any depth of recursion and whatever registers and cells hold at first.  A
function stores its arguments first, and loads its return slot behind the return block.

The induction is on the fuel of the call: what is called has less.
-/

namespace CaLang.Functions

open Cfg (Build Val Fun Builder State labels after effect)

variable {F G V W : Type} {I : Interp F V W} {C : Calls G V W} {fuel : Nat} {emitMain : Bool}
  {isvoidty : G → Bool} {code : G → Fun V (Op F G)} {junk : Nat → V}

/-! ### Returns of statements -/

/-- Only a statement with a `return` in it returns. -/
theorem withRetValue_of_run {ι : Type} [DecidableEq ι] {v : Option V} {k : Bool} {s : Stmt ι F G k}
    {σ σ' : Store ι V W} (h : run I C fuel s σ = some (.ret v, σ')) : s.withRetValue = true := by
  induction fuel generalizing k s σ σ' v with
  | zero => cases h
  | succ fuel ih =>
      cases s with
      | skip | noArms | «break» | «continue» => cases h
      | expr e =>
          obtain ⟨_, -, heq⟩ := Option.map_eq_some_iff.mp h
          cases heq
      | assign x e =>
          obtain ⟨_, -, heq⟩ := Option.map_eq_some_iff.mp h
          cases heq
      | ret e => rfl
      | seq s t =>
          rw [Stmt.withRetValue, Bool.or_eq_true]
          rcases run_seq h with ⟨σ₁, -, h⟩ | ⟨-, h⟩
          · exact .inr (ih h)
          · exact .inl (ih h)
      | arm cond body rest =>
          rw [Stmt.withRetValue, Bool.or_eq_true]
          obtain ⟨u, σ₁, -, h⟩ := run_arm h
          split at h
          · exact .inl (ih h)
          · exact .inr (ih h)
      | ifThen arms =>
          rcases run_ifThen h with ⟨h, -⟩ | ⟨-, h⟩
          · cases h
          · exact show arms.withRetValue = true from ih h
      | ifElse arms remain =>
          rw [Stmt.withRetValue, Bool.or_eq_true]
          rcases run_ifElse h with ⟨σ₁, -, h⟩ | ⟨-, h⟩
          · exact .inr (ih h)
          · exact .inl (ih h)
      | «while» cond body =>
          obtain ⟨u, σ₁, -, h⟩ := run_while h
          split at h
          · obtain ⟨o₁, σ₂, hbody, hnext⟩ := h
            cases o₁ with
            | normal | «continue» => exact ih hnext
            | «break» | noArm => cases hnext.1
            | ret => exact show body.withRetValue = true from ih hbody
          · cases h.1
      | loop body =>
          obtain ⟨o₁, σ₂, hbody, hnext⟩ := run_loop h
          cases o₁ with
          | normal | «continue» => exact ih hnext
          | «break» | noArm => cases hnext.1
          | ret => exact show body.withRetValue = true from ih hbody

/-! ### Functions -/

/-- The arguments are stored into the cells of the parameters. -/
theorem effect_initParams {M : Cfg.Machine V (Op F G) V W} (a n : Nat) (s : State V W) :
    let s' := effect M s ((List.range n).map fun i => .store (a + i) (.reg i))
    s'.world = s.world ∧ s'.regs = s.regs ∧ ∀ i < n, s'.cells (a + i) = s.regs i := by
  induction n with
  | zero => exact ⟨rfl, rfl, nofun⟩
  | succ n ih =>
      rw [List.range_succ, List.map_append, Cfg.effect_append]
      obtain ⟨hw, hr, hc⟩ := ih
      refine ⟨hw, hr, ?_⟩
      intro i hi
      rcases Nat.lt_succ_iff_lt_or_eq.mp hi with hi | rfl
      · refine (Function.update_of_ne (by omega) _ _).trans (hc i hi)
      · refine (Function.update_self _ _ _).trans (congrFun hr i)

theorem finish_isNone {f : Fn F G V} {r : Flow V × Store (Fin f.locals) V W} {v : Option V} {w : W}
    (h : f.finish emitMain r = some (v, w)) : v.isNone = f.ret.isNone := by
  obtain ⟨o, σ⟩ := r
  match o, h with
  | .ret (some u), h =>
      simp only [Fn.finish] at h
      split at h
      · rename_i hret
        cases h
        rw [← Option.not_isSome, ← Option.not_isSome, hret]
        rfl
      · cases h
  | .ret none, h =>
      simp only [Fn.finish] at h
      split at h
      · cases h
      · rename_i hret
        cases h
        rw [← Option.not_isSome]
        simpa using hret
  | .normal, h =>
      simp only [Fn.finish] at h
      cases hret : f.ret with
      | none =>
          rw [hret] at h
          cases h
          rfl
      | some u =>
          rw [hret] at h
          simp only at h
          split at h
          · cases h
          · cases h
            rfl

/-- What stands behind the return block. -/
theorem generateFinalReturn_eq {f : Fn F G V} {r : Nat} {final : Code F G V}
    {result : Option (Val V)} (h : f.generateFinalReturn emitMain r = some (final, result)) :
    (f.ret = none ∧ final = [] ∧ result = none) ∨
    (f.ret.isSome = true ∧ f.body.withRetValue = true ∧
      final = [.load r (f.argc + 1 + f.locals)] ∧ result = some (.reg r)) ∨
    ∃ d, f.ret = some d ∧ f.body.withRetValue = false ∧ final = [] ∧ result = some (.const d) := by
  unfold Fn.generateFinalReturn at h
  cases hret : f.ret with
  | none =>
      rw [hret] at h
      cases h
      exact .inl ⟨rfl, rfl, rfl⟩
  | some d =>
      rw [hret] at h
      simp only at h
      split at h
      · rename_i hw
        cases h
        exact .inr (.inl ⟨rfl, hw, rfl, rfl⟩)
      · rename_i hw
        split at h
        · cases h
          exact .inr (.inr ⟨d, rfl, by simpa using hw, rfl, rfl⟩)
        · cases h

theorem generateFinalReturn_labels {f : Fn F G V} {r : Nat} {final : Code F G V}
    {result : Option (Val V)} (h : f.generateFinalReturn emitMain r = some (final, result)) :
    labels final = [] := by
  rcases generateFinalReturn_eq h with ⟨-, rfl, -⟩ | ⟨-, -, rfl, -⟩ | ⟨d, -, -, rfl, -⟩ <;> rfl

/-- **The end of a function** yields what the function means, wherever its body is left. -/
theorem final_returns (I : Interp F V W) (code : G → Fun V (Op F G)) (junk : Nat → V) {f : Fn F G V}
    {r : Nat} {R P final : Code F G V} {result : Option (Val V)} {o : Flow V}
    {σ : Store (Fin f.locals) V W} {s : State V W} {v : Option V} {w : W}
    (hfinal : f.generateFinalReturn emitMain r = some (final, result))
    (hret : after f.argc P = some final) (hends : Ends f.currFn [] P final o σ R s)
    (hfin : f.finish emitMain (o, σ) = some (v, w))
    (ho : ∀ u, o = .ret u → f.body.withRetValue = true) (fn : Fun V (Op F G)) (b prev : Nat) :
    ∃ s', (module I code junk).Exec ⟨fn, ⟨R, b, prev, s⟩, []⟩ ⟨fn, ⟨[], b, prev, s'⟩, []⟩ ∧
      result.map (·.eval (module I code junk).machine s') = v ∧ s'.world = w := by
  cases hends with
  | normal hr =>
      rcases generateFinalReturn_eq hfinal with ⟨hnone, rfl, rfl⟩ | ⟨hsome, hw, -, -⟩ |
        ⟨d, hd, hw, rfl, rfl⟩
      · simp only [Fn.finish, hnone] at hfin
        cases hfin
        exact ⟨s, .refl, rfl, hr.world⟩
      · obtain ⟨d, hd⟩ := Option.isSome_iff_exists.mp hsome
        simp only [Fn.finish, hd, hw, Bool.true_or, if_true] at hfin
        cases hfin
      · simp only [Fn.finish, hd] at hfin
        split at hfin
        · cases hfin
        · cases hfin
          exact ⟨s, .refl, rfl, hr.world⟩
  | «break» hc | «continue» hc => cases hc
  | retVoid ha hw hslot =>
      obtain rfl := Option.some.inj (hret.symm.trans ha)
      have hnone : f.ret = none := Option.map_eq_none_iff.mp hslot
      rcases generateFinalReturn_eq hfinal with ⟨-, rfl, rfl⟩ | ⟨hsome, -, -, -⟩ | ⟨d, hd, -, -, -⟩
      · simp only [Fn.finish, hnone] at hfin
        cases hfin
        exact ⟨s, .refl, rfl, hw⟩
      · rw [hnone] at hsome
        cases hsome
      · rw [hnone] at hd
        cases hd
  | @ret _ _ _ slot ha hw hslot =>
      obtain rfl := Option.some.inj (hret.symm.trans ha)
      obtain ⟨d, hd, rfl⟩ := Option.map_eq_some_iff.mp hslot
      have hwith := ho _ rfl
      rcases generateFinalReturn_eq hfinal with ⟨hnone, -, -⟩ | ⟨-, -, rfl, rfl⟩ |
        ⟨d', -, hw', -, -⟩
      · rw [hnone] at hd
        cases hd
      · simp only [Fn.finish, hd] at hfin
        cases hfin
        exact ⟨_, Cfg.Module.exec_plain rfl trivial, congrArg some (Function.update_self _ _ _), hw⟩
      · rw [hwith] at hw'
        cases hw'

/-- **A function returns what it means**, where the calls in it return. -/
theorem walkFnDefine_returns (hC : CallsReturn isvoidty (module I code junk) C) {g : G}
    {f : Fn F G V} (hcode : walkFnDefine emitMain isvoidty f = some (code g)) {vs : List V}
    {w w' : W} {v : Option V} (hlen : vs.length = f.argc)
    (h : (run I C fuel f.body (f.init vs w)).bind (f.finish emitMain) = some (v, w')) :
    (module I code junk).Returns g vs w v w' := by
  obtain ⟨⟨o, σ'⟩, hrun, hfin⟩ := Option.bind_eq_some_iff.mp h
  obtain ⟨⟨_, c, st'⟩, hwalk, hrest⟩ := Option.bind_eq_some_iff.mp hcode
  obtain ⟨⟨final, result⟩, hfinal, hfun⟩ := Option.map_eq_some_iff.mp hrest
  have hfresh := walk_fresh f.body [] _ _ _ hwalk
  have hcodeg : (code g).code =
      f.initParams ++ (c ++ .br f.argc :: .label f.argc :: final) := by rw [← hfun]
  have hplain : ∀ i ∈ f.initParams, i.plain = true := by
    intro i hi
    obtain ⟨_, -, rfl⟩ := List.mem_map.mp hi
    rfl
  have hn : (labels (code g).code).Nodup := by
    rw [hcodeg]
    simp only [Cfg.labels_append, (Cfg.plain_code hplain 0).1, labels,
      generateFinalReturn_labels hfinal, List.nil_append]
    apply hfresh.nodup.append (List.nodup_singleton _)
    intro b hb hb'
    have : f.argc + 2 + f.locals ≤ b := (hfresh.labels_mem b hb).1
    have := List.mem_singleton.mp hb'
    omega
  have hsuf : c ++ .br f.argc :: .label f.argc :: final <:+ (code g).code := ⟨_, hcodeg.symm⟩
  have hret : after f.argc (code g).code = some final :=
    Cfg.after_of_suffix hn (Cfg.suffix_of_cons (Cfg.suffix_of_append hsuf))
  have hs : Scope f.currFn.cells (f.argc + 2 + f.locals) :=
    ⟨fun x y hxy => Fin.ext (Nat.add_left_cancel hxy), fun x => by
      show f.argc + 1 + x < _
      have := x.isLt
      omega⟩
  -- the arguments are in the cells of the parameters
  let s₀ := ((module I code junk).enter g vs w).state
  obtain ⟨hw, -, hcells⟩ :=
    effect_initParams (M := (module I code junk).machine) (f.argc + 1) f.argc s₀
  have hr : Rel f.currFn.cells (f.init vs w)
      (effect (module I code junk).machine s₀ f.initParams) := by
    refine ⟨hw, ?_⟩
    intro x u hx
    obtain ⟨hlt, hu⟩ := List.getElem?_eq_some_iff.mp hx
    refine (hcells x (by omega)).trans ?_
    show (vs[(x : Nat)]?).getD _ = u
    rw [show vs[(x : Nat)]? = some u from hx]
    rfl
  have hinit : (module I code junk).Exec ⟨code g, (module I code junk).enter g vs w, []⟩
      ⟨code g, ⟨c ++ .br f.argc :: .label f.argc :: final, 0, 0,
        effect (module I code junk).machine s₀ f.initParams⟩, []⟩ := by
    have henter : (module I code junk).enter g vs w =
        ⟨f.initParams ++ (c ++ .br f.argc :: .label f.argc :: final), 0, 0, s₀⟩ := by
      rw [← hcodeg]
      rfl
    rw [henter]
    apply Cfg.Module.exec_effect hplain
    intro i hi
    obtain ⟨_, -, rfl⟩ := List.mem_map.mp hi
    trivial
  have htargets : Targets f.currFn [] (code g).code := by
    refine ⟨⟨final, hret⟩, ?_⟩
    rintro _ ⟨⟩
  obtain ⟨R', b, prev, s, hex, hends⟩ :=
    (walk_sound hC fuel f.body hrun hwalk hs hn hsuf htargets [] 0 0 _ hr).jump hret
  obtain ⟨s', hexf, hres, hworld⟩ := final_returns I code junk hfinal hret hends hfin
    (fun u ho => withRetValue_of_run (ho ▸ hrun)) (code g) b prev
  refine ⟨b, prev, s', (hinit.trans hex).trans hexf, ?_, hworld⟩
  show (code g).result.map _ = v
  rw [← hfun]
  exact hres

/-! ### Programs -/

/-- The calls of a program return. -/
theorem call_returns {fns : G → Fn F G V} (hcode : Compiles emitMain fns code) (I : Interp F V W)
    (junk : Nat → V) (fuel : Nat) :
    CallsReturn (fun g => (fns g).ret.isNone) (module I code junk) (call I emitMain fns fuel) := by
  induction fuel with
  | zero => exact fun _ _ _ _ _ h => nomatch h
  | succ fuel ih =>
      intro g vs w v w' h
      simp only [call] at h
      split at h
      · rename_i hlen
        obtain ⟨r, -, hfin⟩ := Option.bind_eq_some_iff.mp h
        exact ⟨walkFnDefine_returns ih (hcode g) hlen h, finish_isNone hfin⟩
      · cases h

/-- **Compiled programs return what they mean, and nothing else.** -/
theorem compiled_returns {fns : G → Fn F G V} (hcode : Compiles emitMain fns code)
    (I : Interp F V W) (junk : Nat → V) {fuel : Nat} {g : G} {vs : List V} {w w' : W} {v : Option V}
    (h : call I emitMain fns fuel g vs w = some (v, w')) :
    (module I code junk).Returns g vs w v w' ∧
      ∀ v₁ w₁, (module I code junk).Returns g vs w v₁ w₁ → v₁ = v ∧ w₁ = w' := by
  have hret := (call_returns hcode I junk fuel g vs w v w' h).1
  exact ⟨hret, fun v₁ w₁ h₁ => h₁.unique hret⟩

/-- The operations of `fact`. -/
inductive FactOp
  | one | pred | mul

/-- `fn fact(n) { if (n) { return n * fact(n - 1); } return 1; }` -/
def fact : Fn FactOp Unit Nat where
  locals := 1
  argc := 1
  argc_le := Nat.le_refl 1
  ret := some 0
  body := .seq
    (.ifThen (.arm (.var 0)
      (.ret (some (.op .mul (.cons (.var 0) (.cons
        (.call () (.cons (.op .pred (.cons (.var 0) .nil)) .nil)) .nil))))) .noArms))
    (.ret (some (.op .one .nil)))

def factInterp : Interp FactOp Nat Unit where
  op
    | .one, _, w => (1, w)
    | .pred, vs, w => (vs.headD 0 - 1, w)
    | .mul, vs, w => (vs.foldl (· * ·) 1, w)
  truth n := n != 0

theorem fact_isSome : (walkFnDefine false (fun _ => false) fact).isSome = true := by
  decide +kernel

def factCode : Unit → Fun Nat (Op FactOp Unit) := fun _ =>
  (walkFnDefine false (fun _ => false) fact).get fact_isSome

theorem fact_returns : (module factInterp factCode fun _ => 7).Returns () [4] () (some 24) () ∧
    ∀ v w, (module factInterp factCode fun _ => 7).Returns () [4] () v w →
      v = some 24 ∧ w = () := by
  have hcode : Compiles false (fun _ => fact) factCode := fun _ => (Option.some_get _).symm
  have hcall : call factInterp false (fun _ => fact) 12 () [4] () = some (some 24, ()) := by
    decide +kernel
  exact compiled_returns hcode factInterp (fun _ => 7) hcall

end CaLang.Functions

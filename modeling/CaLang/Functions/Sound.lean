import CaLang.Functions.Labels

/-! # Functions run as they mean

**The run of a statement is the run of its code**, whatever functions wait for its end: the code is
left at its end, behind the label of the loop that a `break` or a `continue` is for, or behind the
return block, with the value in the return slot.

The induction is on the fuel.  A call takes less fuel than its caller, so what calls do is a
hypothesis about statements, and is had for programs by induction on the depth of calls.
-/

namespace CaLang.Functions

open Cfg (Build Val Fun Builder State Caller Config labels after)

variable {ι F G V W : Type} {I : Interp F V W} {C : Calls G V W} {fuel : Nat}
  {σ σ' : Store ι V W} {o : Flow V}

/-! ### Runs of statements -/

section

variable [DecidableEq ι]

/-- A body is run, and the loop goes on as `next` says unless the body leaves it. -/
def Round (next : Store ι V W → Option (Flow V × Store ι V W)) (r : Option (Flow V × Store ι V W))
    (o : Flow V) (σ' : Store ι V W) : Prop :=
  ∃ o₁ σ₁, r = some (o₁, σ₁) ∧
    match o₁ with
    | .normal | .continue => next σ₁ = some (o, σ')
    | .break => o = .normal ∧ σ' = σ₁
    | .noArm | .ret _ => o = o₁ ∧ σ' = σ₁

theorem run_seq {s t : Stmt ι F G false} (h : run I C (fuel + 1) (.seq s t) σ = some (o, σ')) :
    (∃ σ₁, run I C fuel s σ = some (.normal, σ₁) ∧ run I C fuel t σ₁ = some (o, σ')) ∨
      o ≠ .normal ∧ run I C fuel s σ = some (o, σ') := by
  simp only [run] at h
  cases hs : run I C fuel s σ with
  | none =>
      rw [hs] at h
      cases h
  | some r =>
      obtain ⟨o₁, σ₁⟩ := r
      rw [hs] at h
      cases o₁ with
      | normal => exact .inl ⟨σ₁, rfl, h⟩
      | «break» | «continue» | noArm | ret =>
          cases h
          refine .inr ⟨?_, rfl⟩
          rintro ⟨⟩

theorem run_arm {cond : Term ι F G false} {body : Stmt ι F G false} {rest : Stmt ι F G true}
    (h : run I C (fuel + 1) (.arm cond body rest) σ = some (o, σ')) :
    ∃ v σ₁, cond.value I C σ = some (v, σ₁) ∧
      if I.truth v then run I C fuel body σ₁ = some (o, σ')
      else run I C fuel rest σ₁ = some (o, σ') := by
  simp only [run] at h
  obtain ⟨⟨v, σ₁⟩, hv, hrest⟩ := Option.bind_eq_some_iff.mp h
  refine ⟨v, σ₁, hv, ?_⟩
  cases ht : I.truth v with
  | true => simpa only [ht, if_true] using hrest
  | false => simpa only [ht, Bool.false_eq_true, if_false] using hrest

/-- The arms of an `if` are run, and `remain` if no condition holds. -/
theorem run_ifElse {arms : Stmt ι F G true} {remain : Stmt ι F G false}
    (h : run I C (fuel + 1) (.ifElse arms remain) σ = some (o, σ')) :
    (∃ σ₁, run I C fuel arms σ = some (.noArm, σ₁) ∧ run I C fuel remain σ₁ = some (o, σ')) ∨
      o ≠ .noArm ∧ run I C fuel arms σ = some (o, σ') := by
  simp only [run] at h
  cases hs : run I C fuel arms σ with
  | none =>
      rw [hs] at h
      cases h
  | some r =>
      obtain ⟨o₁, σ₁⟩ := r
      rw [hs] at h
      cases o₁ with
      | noArm => exact .inl ⟨σ₁, rfl, h⟩
      | normal | «break» | «continue» | ret =>
          cases h
          refine .inr ⟨?_, rfl⟩
          rintro ⟨⟩

theorem run_ifThen {arms : Stmt ι F G true}
    (h : run I C (fuel + 1) (.ifThen arms) σ = some (o, σ')) :
    o = .normal ∧ run I C fuel arms σ = some (.noArm, σ') ∨
      o ≠ .noArm ∧ run I C fuel arms σ = some (o, σ') := by
  simp only [run] at h
  cases hs : run I C fuel arms σ with
  | none =>
      rw [hs] at h
      cases h
  | some r =>
      obtain ⟨o₁, σ₁⟩ := r
      rw [hs] at h
      cases o₁ with
      | noArm =>
          cases h
          exact .inl ⟨rfl, rfl⟩
      | normal | «break» | «continue» | ret =>
          cases h
          refine .inr ⟨?_, rfl⟩
          rintro ⟨⟩

theorem run_loop {body : Stmt ι F G false} (h : run I C (fuel + 1) (.loop body) σ = some (o, σ')) :
    Round (run I C fuel (.loop body)) (run I C fuel body σ) o σ' := by
  simp only [run] at h
  cases hb : run I C fuel body σ with
  | none =>
      rw [hb] at h
      cases h
  | some r =>
      obtain ⟨o₁, σ₁⟩ := r
      rw [hb] at h
      refine ⟨o₁, σ₁, rfl, ?_⟩
      cases o₁ with
      | normal | «continue» => exact h
      | «break» | noArm | ret =>
          cases h
          exact ⟨rfl, rfl⟩

theorem run_while {cond : Term ι F G false} {body : Stmt ι F G false}
    (h : run I C (fuel + 1) (.while cond body) σ = some (o, σ')) :
    ∃ v σ₁, cond.value I C σ = some (v, σ₁) ∧
      if I.truth v then Round (run I C fuel (.while cond body)) (run I C fuel body σ₁) o σ'
      else o = .normal ∧ σ' = σ₁ := by
  simp only [run] at h
  obtain ⟨⟨v, σ₁⟩, hv, hrest⟩ := Option.bind_eq_some_iff.mp h
  refine ⟨v, σ₁, hv, ?_⟩
  cases ht : I.truth v with
  | false =>
      simp only [ht, Bool.false_eq_true, if_false] at hrest ⊢
      cases hrest
      exact ⟨rfl, rfl⟩
  | true =>
      simp only [ht, if_true] at hrest ⊢
      cases hb : run I C fuel body σ₁ with
      | none =>
          rw [hb] at hrest
          cases hrest
      | some r =>
          obtain ⟨o₁, σ₂⟩ := r
          rw [hb] at hrest
          refine ⟨o₁, σ₂, rfl, ?_⟩
          cases o₁ with
          | normal | «continue» => exact hrest
          | «break» | noArm | ret =>
              cases hrest
              exact ⟨rfl, rfl⟩

end

/-! ### Where code is left -/

variable {isvoidty : G → Bool} {fn : CurrFn ι} {controls : List LoopControlInfo}
  {st st' : Builder} {c P R R' : Code F G V}

/-- The code that is reached when a statement ends in a flow, and the state there. -/
inductive Ends (fn : CurrFn ι) (controls : List LoopControlInfo) (P R : Code F G V) :
    Flow V → Store ι V W → Code F G V → State V W → Prop
  | normal {σ s} (hr : Rel fn.cells σ s) : Ends fn controls P R .normal σ R s
  | break {σ s R' control} (hc : control ∈ controls.head?) (ha : after control.outbb P = some R')
      (hr : Rel fn.cells σ s) : Ends fn controls P R .break σ R' s
  | continue {σ s R' control} (hc : control ∈ controls.head?)
      (ha : after control.condbb P = some R') (hr : Rel fn.cells σ s) :
      Ends fn controls P R .continue σ R' s
  | retVoid {σ s R'} (ha : after fn.retbb P = some R') (hw : s.world = σ.world)
      (hslot : fn.retslot = none) : Ends fn controls P R (.ret none) σ R' s
  | ret {σ s R' slot} (ha : after fn.retbb P = some R') (hw : s.world = σ.world)
      (hslot : fn.retslot = some slot) : Ends fn controls P R (.ret (some (s.cells slot))) σ R' s

/-- The labels that are jumped to are there. -/
def Targets (fn : CurrFn ι) (controls : List LoopControlInfo) (P : Code F G V) : Prop :=
  (∃ R, after fn.retbb P = some R) ∧ ∀ control ∈ controls.head?,
    (∃ R, after control.outbb P = some R) ∧ ∃ R, after control.condbb P = some R

/-- A run from `x` that ends in a flow. -/
def Goes (N : Cfg.Module V (Op F G) V W G) (fn : CurrFn ι) (controls : List LoopControlInfo)
    (f : Fun V (Op F G)) (callers : List (Caller V (Op F G) V W))
    (x : Config V (Op F G) V W) (R : Code F G V) (o : Flow V) (σ : Store ι V W) : Prop :=
  ∃ R' b prev s, N.Exec ⟨f, x, callers⟩ ⟨f, ⟨R', b, prev, s⟩, callers⟩ ∧
    Ends fn controls f.code R o σ R' s

namespace Goes

variable {N : Cfg.Module V (Op F G) V W G} {f : Fun V (Op F G)}
  {callers : List (Caller V (Op F G) V W)} {x y : Config V (Op F G) V W} {k : Code F G V}
  {s : State V W} {b prev t : Nat}

theorem here (hr : Rel fn.cells σ s) : Goes N fn controls f callers ⟨R, b, prev, s⟩ R .normal σ :=
  ⟨R, b, prev, s, .refl, .normal hr⟩

theorem exec (he : N.Exec ⟨f, x, callers⟩ ⟨f, y, callers⟩)
    (h : Goes N fn controls f callers y R o σ) : Goes N fn controls f callers x R o σ := by
  obtain ⟨R', b, prev, s, hex, hends⟩ := h
  exact ⟨R', b, prev, s, he.trans hex, hends⟩

theorem br (ha : after t f.code = some R')
    (h : Goes N fn controls f callers ⟨R', t, b, s⟩ R o σ) :
    Goes N fn controls f callers ⟨.br t :: k, b, prev, s⟩ R o σ := exec (Cfg.Module.exec_br ha) h

/-- What stands behind code that is left at its end. -/
theorem append (h : Goes N fn controls f callers x R .normal σ)
    (h' : ∀ b prev s, Rel fn.cells σ s → Goes N fn controls f callers ⟨R, b, prev, s⟩ R' o σ') :
    Goes N fn controls f callers x R' o σ' := by
  obtain ⟨_, b, prev, s, hex, hends⟩ := h
  cases hends with
  | normal hr => exact exec hex (h' b prev s hr)

/-- What stands behind code that is not left at its end is not run. -/
theorem leave (ho : o ≠ .normal) (h : Goes N fn controls f callers x R o σ) :
    Goes N fn controls f callers x R' o σ := by
  obtain ⟨R₁, b, prev, s, hex, hends⟩ := h
  refine ⟨R₁, b, prev, s, hex, ?_⟩
  cases hends with
  | normal => exact absurd rfl ho
  | «break» hc ha hr => exact .break hc ha hr
  | «continue» hc ha hr => exact .continue hc ha hr
  | retVoid ha hw hslot => exact .retVoid ha hw hslot
  | ret ha hw hslot => exact .ret ha hw hslot

/-- A statement in front of a jump. -/
theorem jump (h : Goes N fn controls f callers x (.br t :: k) o σ) (ha : after t f.code = some R) :
    Goes N fn controls f callers x R o σ := by
  by_cases ho : o = .normal
  · subst ho
    exact h.append fun b prev s hr => .br ha (.here hr)
  · exact h.leave ho

theorem ne_noArm (h : Goes N fn controls f callers x R o σ) : o ≠ .noArm := by
  obtain ⟨_, _, _, _, -, hends⟩ := h
  cases hends <;> nofun

/-- **One round of a loop**: behind its body the loop is left or goes on behind its condition
label. -/
theorem round {condbb outbb : Nat} {Rcond : Code F G V}
    (h : Goes N fn (⟨condbb, outbb⟩ :: controls) f callers x (.br condbb :: k) o σ)
    (hcond : after condbb f.code = some Rcond) (hout : after outbb f.code = some R) :
    match o with
    | .normal | .continue => ∃ b prev s,
        N.Exec ⟨f, x, callers⟩ ⟨f, ⟨Rcond, b, prev, s⟩, callers⟩ ∧ Rel fn.cells σ s
    | .break => Goes N fn controls f callers x R .normal σ
    | .noArm => False
    | .ret v => Goes N fn controls f callers x R (.ret v) σ := by
  obtain ⟨R', b, prev, s, hex, hends⟩ := h.jump hcond
  cases hends with
  | normal hr => exact ⟨b, prev, s, hex, hr⟩
  | «break» hc ha hr =>
      cases hc
      obtain rfl := Option.some.inj (hout.symm.trans ha)
      exact ⟨_, b, prev, s, hex, .normal hr⟩
  | «continue» hc ha hr =>
      cases hc
      obtain rfl := Option.some.inj (hcond.symm.trans ha)
      exact ⟨b, prev, s, hex, hr⟩
  | retVoid ha hw hslot => exact ⟨R', b, prev, s, hex, .retVoid ha hw hslot⟩
  | ret ha hw hslot => exact ⟨R', b, prev, s, hex, .ret ha hw hslot⟩

end Goes

/-! ### Statements -/

variable {code : G → Fun V (Op F G)} {junk : Nat → V} {f : Fun V (Op F G)}
  {callers : List (Caller V (Op F G) V W)} {s : State V W} {b prev : Nat}

/-- **A condition is a jump**, to the block that its value chooses. -/
theorem branch {cond : Term ι F G false} {v : V} {u : Val V} {cc k : Code F G V} {t e d : Nat}
    (hC : CallsReturn isvoidty (module I code junk) C) (hvalue : cond.value I C σ = some (v, σ'))
    (hwalk : popRightValue isvoidty fn.cells cond st = some (u, cc, st'))
    (hs : Scope fn.cells st.next) (hd : (if I.truth v then t else e) = d)
    (ha : after d f.code = some R) (b prev : Nat) (hr : Rel fn.cells σ s) :
    ∃ s', (module I code junk).Exec ⟨f, ⟨cc ++ .condbr u t e :: k, b, prev, s⟩, callers⟩
      ⟨f, ⟨R, d, b, s'⟩, callers⟩ ∧ Rel fn.cells σ' s' := by
  obtain ⟨s', hex, hr', hu⟩ :=
    popRightValue_runs hC hvalue hwalk hs f (.condbr u t e :: k) b prev callers hr
  refine ⟨s', hex.trans (Cfg.Module.exec_condbr ?_ ha), hr'⟩
  rw [hu]
  exact hd

variable [DecidableEq ι]

/-- The code of a statement runs as the statement does with some fuel, wherever it stands. -/
def Sound (isvoidty : G → Bool) (I : Interp F V W) (C : Calls G V W) (code : G → Fun V (Op F G))
    (junk : Nat → V) (fuel : Nat) (s : Stmt ι F G false) : Prop :=
  ∀ ⦃σ o σ'⦄, run I C fuel s σ = some (o, σ') →
    ∀ ⦃fn controls st c st'⦄, walk isvoidty fn s controls st = some ((), c, st') →
      Scope fn.cells st.next → ∀ ⦃f R⦄, (labels f.code).Nodup → c ++ R <:+ f.code →
        Targets fn controls f.code → ∀ callers b prev s, Rel fn.cells σ s →
          Goes (module I code junk) fn controls f callers ⟨c ++ R, b, prev, s⟩ R o σ'

/-- **The conditions of an `if` are tried one after the other**: behind the last one the code goes
on if none holds, and the body of the first one that holds is run otherwise. -/
theorem arms_goes (hC : CallsReturn isvoidty (module I code junk) C)
    (ih : ∀ m < fuel, ∀ s : Stmt ι F G false, Sound isvoidty I C code junk m s)
    {arms : Stmt ι F G true} {outbb bb : Nat} {st₂ st₃ : Builder} {cc cb Rc Rb : Code F G V}
    (hrun : run I C fuel arms σ = some (o, σ'))
    (hcc : walkConds isvoidty fn.cells arms bb st = some ((), cc, st'))
    (hcb : walkBodies outbb (bodies isvoidty fn arms controls) bb st₂ = some ((), cb, st₃))
    (hs : Scope fn.cells st.next) (hs₂ : Scope fn.cells st₂.next) (hn : (labels f.code).Nodup)
    (hsufc : cc ++ Rc <:+ f.code) (hsufb : cb ++ Rb <:+ f.code)
    (hout : after outbb f.code = some R) (ht : Targets fn controls f.code)
    (callers : List (Caller V (Op F G) V W)) (b prev : Nat) (hr : Rel fn.cells σ s) :
    (o = .noArm ∧
      Goes (module I code junk) fn controls f callers ⟨cc ++ Rc, b, prev, s⟩ Rc .normal σ') ∨
    Goes (module I code junk) fn controls f callers ⟨cc ++ Rc, b, prev, s⟩ R o σ' := by
  induction fuel generalizing arms bb st st₂ cc cb σ s b prev with
  | zero => cases hrun
  | succ fuel ihfuel =>
      cases arms with
      | noArms =>
          cases hcc
          rw [run_noArms] at hrun
          cases hrun
          exact .inl ⟨rfl, .here hr⟩
      | arm cond body rest =>
          obtain ⟨v, ce, st₁, cr, hv, hcr, rfl⟩ := walkConds_arm hcc
          obtain ⟨ci, st₄, cbr, hci, hcbr, rfl⟩ := walkBodies_cons hcb
          obtain ⟨u, σ₁, hvalue, hrest⟩ := run_arm hrun
          simp only [List.append_assoc, List.cons_append] at hsufc hsufb ⊢
          have hnext := Cfg.suffix_of_cons (Cfg.suffix_of_append hsufc)
          have hbody := Cfg.after_of_suffix hn hsufb
          replace hsufb := Cfg.suffix_of_cons hsufb
          cases htruth : I.truth u with
          | true =>
              rw [htruth, if_pos rfl] at hrest
              obtain ⟨s₁, hex, hr₁⟩ := branch hC hvalue hv hs (by rw [htruth]; rfl) hbody b prev hr
              have hgoes := (ih fuel (Nat.lt_succ_self _) body hrest hci hs₂ hn hsufb ht callers
                (bb + 1) b s₁ hr₁).jump hout
              exact .inr (hgoes.exec hex)
          | false =>
              rw [htruth, if_neg Bool.false_ne_true] at hrest
              obtain ⟨s₁, hex, hr₁⟩ := branch hC hvalue hv hs (by rw [htruth]; rfl)
                (Cfg.after_of_suffix hn hnext) b prev hr
              have hle : st₂.next ≤ st₄.next := (walk_fresh body controls _ _ _ hci).le
              have hrec := ihfuel (fun m hm => ih m (Nat.lt_succ_of_lt hm)) hrest hcr hcbr
                (hs.mono (popRightValue_plain hv).le) (hs₂.mono hle) (Cfg.suffix_of_cons hnext)
                (Cfg.suffix_of_cons (Cfg.suffix_of_append hsufb)) bb b hr₁
              exact hrec.imp (fun h => ⟨h.1, h.2.exec hex⟩) fun h => h.exec hex

/-- A `while` from behind its condition label. -/
theorem while_goes (hC : CallsReturn isvoidty (module I code junk) C)
    (ih : ∀ m < fuel, ∀ s : Stmt ι F G false, Sound isvoidty I C code junk m s)
    {cond : Term ι F G false} {body : Stmt ι F G false} {v : Val V} {cc cb : Code F G V}
    {st₁ st₂ : Builder} {n block : Nat}
    (hrun : run I C fuel (.while cond body) σ = some (o, σ'))
    (hv : popRightValue isvoidty fn.cells cond ⟨n + 3, block⟩ = some (v, cc, st₁))
    (hb : walk isvoidty fn body (⟨n, n + 2⟩ :: controls) ⟨st₁.next, n + 1⟩ = some ((), cb, st₂))
    (hs : Scope fn.cells n) (hn : (labels f.code).Nodup)
    (hsuf : .label n :: (cc ++ .condbr v (n + 1) (n + 2) :: .label (n + 1) ::
      (cb ++ .br n :: .label (n + 2) :: R)) <:+ f.code) (ht : Targets fn controls f.code)
    (callers : List (Caller V (Op F G) V W)) (b prev : Nat) (hr : Rel fn.cells σ s) :
    Goes (module I code junk) fn controls f callers
      ⟨cc ++ .condbr v (n + 1) (n + 2) :: .label (n + 1) ::
        (cb ++ .br n :: .label (n + 2) :: R), b, prev, s⟩ R o σ' := by
  have hle : n + 3 ≤ st₁.next := (popRightValue_plain hv).le
  have hcond := Cfg.after_of_suffix hn hsuf
  have hsufb := Cfg.suffix_of_cons (Cfg.suffix_of_append (Cfg.suffix_of_cons hsuf))
  have hwhile := Cfg.after_of_suffix hn hsufb
  replace hsufb := Cfg.suffix_of_cons hsufb
  have hend := Cfg.after_of_suffix hn (Cfg.suffix_of_cons (Cfg.suffix_of_append hsufb))
  have ht' : Targets fn (⟨n, n + 2⟩ :: controls) f.code := by
    refine ⟨ht.1, ?_⟩
    rintro _ ⟨⟩
    exact ⟨⟨_, hend⟩, _, hcond⟩
  induction fuel generalizing σ b prev s with
  | zero => cases hrun
  | succ fuel ihfuel =>
      obtain ⟨u, σ₁, hvalue, hrest⟩ := run_while hrun
      have hs₃ : Scope fn.cells (n + 3) := hs.mono (Nat.le_add_right n 3)
      cases htruth : I.truth u with
      | false =>
          rw [htruth, if_neg Bool.false_ne_true] at hrest
          obtain ⟨rfl, rfl⟩ := hrest
          obtain ⟨s₁, hex, hr₁⟩ := branch hC hvalue hv hs₃ (by rw [htruth]; rfl) hend b prev hr
          exact (Goes.here hr₁).exec hex
      | true =>
          rw [htruth, if_pos rfl] at hrest
          obtain ⟨s₁, hex, hr₁⟩ := branch hC hvalue hv hs₃ (by rw [htruth]; rfl) hwhile b prev hr
          refine Goes.exec hex ?_
          obtain ⟨o₁, σ₂, hbody, hnext⟩ := hrest
          have hround := (ih fuel (Nat.lt_succ_self _) body hbody hb
            (hs.mono (by show n ≤ st₁.next; omega)) hn hsufb ht' callers (n + 1) b s₁ hr₁).round
              hcond hend
          cases o₁ with
          | normal | «continue» =>
              obtain ⟨b', prev', s', hex', hr'⟩ := hround
              exact (ihfuel (fun m hm => ih m (Nat.lt_succ_of_lt hm)) hnext b' prev' hr').exec hex'
          | «break» | ret =>
              obtain ⟨rfl, rfl⟩ := hnext
              exact hround
          | noArm => exact hround.elim

/-- A `loop` from behind its label. -/
theorem loop_goes (ih : ∀ m < fuel, ∀ s : Stmt ι F G false, Sound isvoidty I C code junk m s)
    {body : Stmt ι F G false} {cb : Code F G V} {st₂ : Builder} {n : Nat}
    (hrun : run I C fuel (.loop body) σ = some (o, σ'))
    (hb : walk isvoidty fn body (⟨n, n + 1⟩ :: controls) ⟨n + 2, n⟩ = some ((), cb, st₂))
    (hs : Scope fn.cells n) (hn : (labels f.code).Nodup)
    (hsuf : .label n :: (cb ++ .br n :: .label (n + 1) :: R) <:+ f.code)
    (ht : Targets fn controls f.code) (callers : List (Caller V (Op F G) V W)) (b prev : Nat)
    (hr : Rel fn.cells σ s) :
    Goes (module I code junk) fn controls f callers
      ⟨cb ++ .br n :: .label (n + 1) :: R, b, prev, s⟩ R o σ' := by
  have hcond := Cfg.after_of_suffix hn hsuf
  have hsufb := Cfg.suffix_of_cons hsuf
  have hend := Cfg.after_of_suffix hn (Cfg.suffix_of_cons (Cfg.suffix_of_append hsufb))
  have ht' : Targets fn (⟨n, n + 1⟩ :: controls) f.code := by
    refine ⟨ht.1, ?_⟩
    rintro _ ⟨⟩
    exact ⟨⟨_, hend⟩, _, hcond⟩
  induction fuel generalizing σ b prev s with
  | zero => cases hrun
  | succ fuel ihfuel =>
      obtain ⟨o₁, σ₂, hbody, hnext⟩ := run_loop hrun
      have hround := (ih fuel (Nat.lt_succ_self _) body hbody hb
        (hs.mono (Nat.le_add_right n 2)) hn hsufb ht' callers b prev s hr).round hcond hend
      cases o₁ with
      | normal | «continue» =>
          obtain ⟨b', prev', s', hex', hr'⟩ := hround
          exact (ihfuel (fun m hm => ih m (Nat.lt_succ_of_lt hm)) hnext b' prev' hr').exec hex'
      | «break» | ret =>
          obtain ⟨rfl, rfl⟩ := hnext
          exact hround
      | noArm => exact hround.elim

/-- **The run of a statement is the run of its code.** -/
theorem walk_sound (hC : CallsReturn isvoidty (module I code junk) C) (fuel : Nat)
    (s : Stmt ι F G false) : Sound isvoidty I C code junk fuel s := by
  induction fuel using Nat.strongRecOn generalizing s with
  | ind fuel ih =>
  intro σ o σ' hrun fn controls st c st' hwalk hs f R hn hsuf ht callers b prev s₀ hr
  cases fuel with
  | zero => cases hrun
  | succ fuel =>
  cases s with
  | skip =>
      rw [run_skip] at hrun
      cases hrun
      cases hwalk
      exact .here hr
  | seq s t =>
      obtain ⟨c₁, st₁, c₂, h₁, h₂, rfl⟩ := walk_seq hwalk
      have hle : st.next ≤ st₁.next := (walk_fresh s controls _ _ _ h₁).le
      rw [List.append_assoc] at hsuf ⊢
      rcases run_seq hrun with ⟨σ₁, hrun₁, hrun₂⟩ | ⟨ho, hrun₁⟩
      · refine (ih fuel (Nat.lt_succ_self _) s hrun₁ h₁ hs hn hsuf ht callers b prev s₀ hr).append
          ?_
        intro b₁ prev₁ s₁ hr₁
        exact ih fuel (Nat.lt_succ_self _) t hrun₂ h₂ (hs.mono hle) hn
          (Cfg.suffix_of_append hsuf) ht callers b₁ prev₁ s₁ hr₁
      · exact (ih fuel (Nat.lt_succ_self _) s hrun₁ h₁ hs hn hsuf ht callers b prev s₀ hr).leave ho
  | expr e =>
      obtain ⟨⟨vs, σ₁⟩, heval, heq⟩ := Option.map_eq_some_iff.mp hrun
      cases heq
      obtain ⟨o, hv⟩ := walk_expr hwalk
      obtain ⟨s₁, hex, hw, hvars, -, hk⟩ := walkStack_runs hC heval hv hs f R b prev callers hr
      exact (Goes.here (hr.of_agree hs hk hvars hw)).exec hex
  | assign x e =>
      obtain ⟨⟨v, σ₁⟩, hvalue, heq⟩ := Option.map_eq_some_iff.mp hrun
      cases heq
      obtain ⟨u, ce, hv, rfl⟩ := walk_assign hwalk
      rw [List.append_assoc]
      obtain ⟨s₁, hex, hr₁, rfl⟩ := popRightValue_runs hC hvalue hv hs f _ b prev callers hr
      exact (Goes.here (hr₁.bind hs x _)).exec (hex.trans (Cfg.Module.exec_plain rfl trivial))
  | ifThen arms =>
      obtain ⟨cc, st₁, cb, st₂, hcc, hcb, rfl, rfl⟩ := walk_ifThen hwalk
      obtain ⟨-, hle⟩ := walkConds_labels fn controls arms hcc
      simp only [List.append_assoc, List.cons_append, List.nil_append] at hsuf ⊢
      have hsufb := Cfg.suffix_of_cons (Cfg.suffix_of_append hsuf)
      have hout := Cfg.after_of_suffix hn (Cfg.suffix_of_append hsufb)
      have hsc : Scope fn.cells
          (st.next + 1 + 2 * (bodies (V := V) isvoidty fn arms controls).length) :=
        hs.mono (by omega)
      have hgoes {o₁ σ₁} (h : run I C fuel arms σ = some (o₁, σ₁)) :=
        arms_goes hC (fun m hm => ih m (Nat.lt_succ_of_lt hm)) h hcc hcb hsc (hsc.mono hle) hn hsuf
          hsufb hout ht callers b prev hr
      rcases run_ifThen hrun with ⟨rfl, harms⟩ | ⟨ho, harms⟩
      · rcases hgoes harms with ⟨-, h⟩ | h
        · exact h.append fun _ _ _ hr' => .br hout (.here hr')
        · exact absurd rfl h.ne_noArm
      · rcases hgoes harms with ⟨h, -⟩ | h
        · exact absurd h ho
        · exact h
  | ifElse arms remain =>
      obtain ⟨n, cc, st₁, cb, st₂, cr, st₃, hlen, hcc, hcb, hcr, rfl, rfl⟩ := walk_ifElse hwalk
      obtain ⟨-, hle⟩ := walkConds_labels fn controls arms hcc
      simp only [List.append_assoc, List.cons_append, List.nil_append] at hsuf ⊢
      have hsufb := Cfg.suffix_of_cons (Cfg.suffix_of_append hsuf)
      have hremain := Cfg.after_of_suffix hn (Cfg.suffix_of_append hsufb)
      have hsufr := Cfg.suffix_of_cons (Cfg.suffix_of_append hsufb)
      have hout := Cfg.after_of_suffix hn (Cfg.suffix_of_cons (Cfg.suffix_of_append hsufr))
      have hsc : Scope fn.cells (st.next + 1 + 2 * n + 1) := hs.mono (by omega)
      obtain ⟨ci, hci, -⟩ := arms_labels hlen (walk_fresh arms controls) hcc hcb
      have hgoes {o₁ σ₁} (h : run I C fuel arms σ = some (o₁, σ₁)) :=
        arms_goes hC (fun m hm => ih m (Nat.lt_succ_of_lt hm)) h hcc hcb hsc (hsc.mono hle) hn hsuf
          hsufb hout ht callers b prev hr
      rcases run_ifElse hrun with ⟨σ₁, harms, hrem⟩ | ⟨ho, harms⟩
      · rcases hgoes harms with ⟨-, h⟩ | h
        · refine h.append fun _ _ _ hr' => .br hremain ?_
          exact (ih fuel (Nat.lt_succ_self _) remain hrem hcr (hsc.mono hci.le) hn hsufr ht
            callers _ _ _ hr').jump hout
        · exact absurd rfl h.ne_noArm
      · rcases hgoes harms with ⟨h, -⟩ | h
        · exact absurd h ho
        · exact h
  | «while» cond body =>
      obtain ⟨v, cc, st₁, cb, st₂, hv, hb, rfl, rfl⟩ := walk_while hwalk
      simp only [List.append_assoc, List.cons_append, List.nil_append] at hsuf ⊢
      have hsufc := Cfg.suffix_of_cons hsuf
      exact .br (Cfg.after_of_suffix hn hsufc)
        (while_goes hC ih hrun hv hb hs hn hsufc ht callers _ _ hr)
  | loop body =>
      obtain ⟨cb, st₂, hb, rfl, rfl⟩ := walk_loop hwalk
      simp only [List.append_assoc, List.cons_append, List.nil_append] at hsuf ⊢
      have hsufb := Cfg.suffix_of_cons hsuf
      exact .br (Cfg.after_of_suffix hn hsufb)
        (loop_goes ih hrun hb hs hn hsufb ht callers _ _ hr)
  | «break» =>
      cases hrun
      obtain ⟨control, hc, rfl, rfl⟩ := walkJump_eq hwalk
      obtain ⟨⟨R', hR'⟩, -⟩ := ht.2 control hc
      exact ⟨R', _, _, _, Cfg.Module.exec_br hR', .break hc hR' hr⟩
  | «continue» =>
      cases hrun
      obtain ⟨control, hc, rfl, rfl⟩ := walkJump_eq hwalk
      obtain ⟨-, R', hR'⟩ := ht.2 control hc
      exact ⟨R', _, _, _, Cfg.Module.exec_br hR', .continue hc hR' hr⟩
  | ret e =>
      obtain ⟨R', hR'⟩ := ht.1
      rcases walkRet_eq hwalk with ⟨rfl, hslot, rfl, rfl⟩ |
        ⟨e', retslot, v, ce, st₁, rfl, hslot, hv, rfl, rfl⟩
      · cases hrun
        exact ⟨R', _, _, _, Cfg.Module.exec_br hR', .retVoid hR' hr.world hslot⟩
      · obtain ⟨⟨u, σ₁⟩, hvalue, heq⟩ := Option.map_eq_some_iff.mp hrun
        cases heq
        rw [List.append_assoc]
        obtain ⟨s₁, hex, hr₁, hu⟩ := popRightValue_runs hC hvalue hv hs f
          (.store retslot v :: .br fn.retbb :: .label st₁.next :: R) b prev callers hr
        -- the value is in the return slot behind the return block
        have hends {s₂} (hs₂ : s₂ = s₁.setCell retslot (v.eval (module I code junk).machine s₁)) :
            Ends fn controls f.code R (.ret (some u)) σ' R' s₂ := by
          have hcell : s₂.cells retslot = u := by
            rw [hs₂]
            exact (Function.update_self _ _ _).trans hu
          rw [← hcell]
          exact .ret hR' (by rw [hs₂]; exact hr₁.world) hslot
        exact ⟨R', _, _, _, hex.trans ((Cfg.Module.exec_plain (i := .store retslot v) rfl
          trivial).trans (Cfg.Module.exec_br hR')), hends rfl⟩

end CaLang.Functions

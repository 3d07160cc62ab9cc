import CaLang.Loops.Walk
import Mathlib.Logic.Function.Basic

/-! # Code that runs as statements do

**The code of a statement is left at its end**, or behind the label of the loop that a `break` or a
`continue` is for.  The variables are in their cells then, and nothing that was there before is
changed but them.

What an expression computes is plain code.  Every walk makes its labels itself, so that a jump finds
what stands behind its label, wherever the code stands.
-/

namespace CaLang.Loops

open Instr
open Addresses (IntType)
open Cfg (Build Machine Val Builder State Exec effect labels after)

variable {ι F W : Type} {I : Interp F W} {cells : Cells ι} {controls : List LoopControlInfo}
  {st st' : Builder} {c : Code F} {n m : Nat}

/-! ### States -/

/-- The variables are in their cells. -/
structure Rel (cells : Cells ι) (σ : Store ι W) (s : State Word W) : Prop where
  world : s.world = σ.world
  vars : ∀ x, s.cells (cells x) = σ.vars x

/-- Each variable has a cell of its own below `n`. -/
structure Scope (cells : Cells ι) (n : Nat) : Prop where
  injective : Function.Injective cells
  below : ∀ x, cells x < n

/-- What is below `n` is kept, but for the variables. -/
def Keeps (cells : Cells ι) (n : Nat) (s s' : State Word W) : Prop :=
  ∀ k < n, s'.regs k = s.regs k ∧ ((∀ x, cells x ≠ k) → s'.cells k = s.cells k)

theorem Scope.mono (h : Scope cells n) (hle : n ≤ m) : Scope cells m :=
  ⟨h.injective, fun x => Nat.lt_of_lt_of_le (h.below x) hle⟩

/-- A new cell for a variable. -/
theorem Scope.update [DecidableEq ι] (h : Scope cells n) (x : ι) (hle : n ≤ m) :
    Scope (Function.update cells x m) (m + 1) := by
  constructor
  · intro y z hyz
    by_cases hy : y = x
    · by_cases hz : z = x
      · rw [hy, hz]
      · rw [hy, Function.update_self, Function.update_of_ne hz] at hyz
        have := h.below z
        omega
    · by_cases hz : z = x
      · rw [hz, Function.update_self, Function.update_of_ne hy] at hyz
        have := h.below y
        omega
      · rw [Function.update_of_ne hy, Function.update_of_ne hz] at hyz
        exact h.injective hyz
  · intro y
    by_cases hy : y = x
    · rw [hy, Function.update_self]
      exact Nat.lt_succ_self m
    · rw [Function.update_of_ne hy]
      have := h.below y
      omega

namespace Keeps

variable {s s₁ s₂ : State Word W}

theorem refl (cells : Cells ι) (n : Nat) (s : State Word W) : Keeps cells n s s :=
  fun _ _ => ⟨rfl, fun _ => rfl⟩

theorem trans (h : Keeps cells n s s₁) (h' : Keeps cells m s₁ s₂) (hle : n ≤ m) :
    Keeps cells n s s₂ := fun k hk =>
  have h := h k hk
  have h' := h' k (Nat.lt_of_lt_of_le hk hle)
  ⟨h'.1.trans h.1, fun hx => (h'.2 hx).trans (h.2 hx)⟩

theorem mono (h : Keeps cells m s s₁) (hle : n ≤ m) : Keeps cells n s s₁ :=
  (refl cells n s).trans h hle

end Keeps

/-- A binding of the source is a store. -/
theorem Rel.bind [DecidableEq ι] {σ : Store ι W} {s : State Word W} (h : Rel cells σ s)
    (hs : Scope cells n) (x : ι) (v : Word) : Rel cells (σ.bind x v) (s.setCell (cells x) v) where
  world := h.world
  vars y := by
    show Function.update s.cells (cells x) v (cells y) = Function.update σ.vars x v y
    by_cases hy : y = x
    · rw [hy, Function.update_self, Function.update_self]
    · rw [Function.update_of_ne (fun he => hy (hs.injective he)), Function.update_of_ne hy]
      exact h.vars y

/-! ### Plain code -/

/-- Code without labels and jumps, which does not write the cells below `st.next`. -/
structure Plain (st : Builder) (c : Code F) (st' : Builder) : Prop where
  plain : ∀ i ∈ c, i.plain = true
  le : st.next ≤ st'.next
  block_eq : st'.block = st.block

theorem Plain.fresh (h : Plain st c st') : Cfg.Fresh st c st' := .plain h.plain h.le

theorem Plain.labels_eq (h : Plain st c st') : labels c = [] := (Cfg.plain_code h.plain 0).1

theorem Plain.append {st₁ : Builder} {c' : Code F} (h : Plain st c st₁) (h' : Plain st₁ c' st') :
    Plain st (c ++ c') st' where
  plain i hi := (List.mem_append.mp hi).elim (h.plain i) (h'.plain i)
  le := Nat.le_trans h.le h'.le
  block_eq := h'.block_eq.trans h.block_eq

theorem Keeps.of_agree {s s' : State Word W} (h : State.AgreeBelow n s s') : Keeps cells n s s' :=
  fun k hk => ⟨(h k hk).1, fun _ => (h k hk).2⟩

theorem Rel.of_agree {s s' : State Word W} {σ : Store ι W} (h : State.AgreeBelow n s s')
    (hs : Scope cells n) (hw : s'.world = s.world) (hr : Rel cells σ s) : Rel cells σ s' :=
  ⟨hw.trans hr.world, fun x => (h _ (hs.below x)).2.trans (hr.vars x)⟩

theorem loadArgs_spec (cells : Cells ι) (xs : List ι) (st : Builder) : ∃ vs c st',
    loadArgs (F := F) cells xs st = some (vs, c, st') ∧ Plain st c st' ∧
      (∀ v ∈ vs, v.Below st'.next) ∧ ∀ (M : Machine Word (Op F) Word W) (s : State Word W),
        (effect M s c).world = s.world ∧ State.AgreeBelow st.next s (effect M s c) ∧
        (Scope cells st.next →
          vs.map (·.eval M (effect M s c)) = xs.map fun x => s.cells (cells x)) := by
  induction xs generalizing st with
  | nil =>
      exact ⟨[], [], st, rfl, ⟨nofun, Nat.le_refl _, rfl⟩, nofun,
        fun M s => ⟨rfl, fun _ _ => ⟨rfl, rfl⟩, fun _ => rfl⟩⟩
  | cons x xs ih =>
      obtain ⟨vs, c, st', hl, hp, hvs, heff⟩ := ih ⟨st.next + 1, st.block⟩
      have hle : st.next + 1 ≤ st'.next := hp.le
      refine ⟨.reg st.next :: vs, .load st.next (cells x) :: c, st', ?_,
        ⟨?_, by omega, hp.block_eq⟩, ?_, ?_⟩
      · simp [loadArgs, Build.bind_of_some hl, Build.prepend]
      · rintro i (_ | ⟨_, hi⟩)
        · rfl
        · exact hp.plain i hi
      · rintro v (_ | ⟨_, hv⟩)
        · exact hle
        · exact hvs v hv
      · intro M s
        obtain ⟨hw, hk, hmap⟩ := heff M (s.setReg st.next (s.cells (cells x)))
        have hreg : State.AgreeBelow st.next s (s.setReg st.next (s.cells (cells x))) := fun k hk =>
          ⟨Function.update_of_ne (Nat.ne_of_lt hk) _ _, rfl⟩
        refine ⟨hw, hreg.trans hk (Nat.le_succ _), ?_⟩
        intro hs
        rw [Cfg.effect_cons, Cfg.Instr.effect, List.map_cons, List.map_cons,
          hmap (hs.mono (Nat.le_succ _))]
        refine congrArg (· :: _) ?_
        show (effect M _ c).regs st.next = _
        rw [(hk st.next (Nat.lt_succ_self _)).1]
        exact Function.update_self _ _ _

/-- Code that computes an expression of the source. -/
structure Computes (cells : Cells ι) (e : Expr ι F) (st : Builder) (v : Val Word) (c : Code F)
    (st' : Builder) : Prop where
  plain : Plain st c st'
  below : v.Below st'.next
  effect {W : Type} {I : Interp F W} {σ : Store ι W} {s : State Word W} (hs : Scope cells st.next)
    (hr : Rel cells σ s) : Rel cells (e.eval I σ).2 (effect (machine I) s c) ∧
      v.eval (machine I) (effect (machine I) s c) = (e.eval I σ).1 ∧
      State.AgreeBelow st.next s (effect (machine I) s c)

/-- **An expression is computed** by its code, which is plain. -/
theorem walkExpr_spec (cells : Cells ι) (e : Expr ι F) (st : Builder) :
    ∃ v c st', walkExpr cells e st = some (v, c, st') ∧ Computes cells e st v c st' := by
  obtain ⟨vs, c, st₁, hl, hp, -, -⟩ := loadArgs_spec (F := F) (W := Unit) cells e.args st
  have hwalk : walkExpr cells e st =
      some (.reg st₁.next, c ++ [.op st₁.next (.user e.f) vs], ⟨st₁.next + 1, st₁.block⟩) := by
    simp [walkExpr, Build.bind_of_some hl, Build.prepend]
  refine ⟨_, _, _, hwalk, hp.append ⟨?_, Nat.le_succ _, rfl⟩, Nat.lt_succ_self _, ?_⟩
  · rintro i (_ | ⟨_, hi⟩)
    · rfl
    · cases hi
  · intro W I σ s hs hr
    obtain ⟨vs', c', st₁', hl', -, -, heff⟩ :=
      loadArgs_spec (F := F) (W := W) cells e.args st
    obtain ⟨rfl, rfl, rfl⟩ : vs' = vs ∧ c' = c ∧ st₁' = st₁ := by
      simpa using hl'.symm.trans hl
    obtain ⟨hw, hk, hmap⟩ := heff (machine I) s
    have hargs : vs'.map (·.eval (machine I) (effect (machine I) s c')) = e.args.map σ.vars := by
      rw [hmap hs]
      exact List.map_congr_left fun x _ => hr.vars x
    have hop : effect (machine I) s (c' ++ [.op st₁'.next (.user e.f) vs']) =
        { (effect (machine I) s c').setReg st₁'.next (e.eval I σ).1 with
          world := (e.eval I σ).2.world } := by
      rw [Cfg.effect_append, Cfg.effect_cons, Cfg.effect_nil, Cfg.Instr.effect, hargs, hw, hr.world]
      rfl
    have hkop : State.AgreeBelow st.next s
        (effect (machine I) s (c' ++ [.op st₁'.next (.user e.f) vs'])) := by
      rw [hop]
      intro k hlt
      have hne : k ≠ st₁'.next := Nat.ne_of_lt (Nat.lt_of_lt_of_le hlt hp.le)
      exact ⟨(Function.update_of_ne hne _ _).trans (hk k hlt).1, (hk k hlt).2⟩
    refine ⟨⟨?_, fun x => (hkop _ (hs.below x)).2.trans (hr.vars x)⟩, ?_, hkop⟩
    · rw [hop]
    · rw [hop]
      exact Function.update_self _ _ _

theorem Computes.of_walkExpr {e : Expr ι F} {v : Val Word}
    (h : walkExpr cells e st = some (v, c, st')) : Computes cells e st v c st' := by
  obtain ⟨v', c', st₁, hw, hc⟩ := walkExpr_spec cells e st
  obtain ⟨rfl, rfl, rfl⟩ : v' = v ∧ c' = c ∧ st₁ = st' := by
    simpa using hw.symm.trans h
  exact hc

/-- Code that computes the bounds of a range. -/
structure ComputesBounds (cells : Cells ι) (start fin : Expr ι F) (st : Builder) (v v' : Val Word)
    (c : Code F) (st' : Builder) : Prop where
  plain : Plain st c st'
  below : v.Below st'.next
  below' : v'.Below st'.next
  effect {W : Type} {I : Interp F W} {σ : Store ι W} {s : State Word W} (hs : Scope cells st.next)
    (hr : Rel cells σ s) :
    Rel cells (fin.eval I (start.eval I σ).2).2 (effect (machine I) s c) ∧
      v.eval (machine I) (effect (machine I) s c) = (start.eval I σ).1 ∧
      v'.eval (machine I) (effect (machine I) s c) = (fin.eval I (start.eval I σ).2).1 ∧
      State.AgreeBelow st.next s (effect (machine I) s c)

/-- **The bounds of a range are computed** one after the other. -/
theorem walkBounds_spec (cells : Cells ι) (start fin : Expr ι F) (st : Builder) :
    ∃ v v' c st', walkBounds cells start fin st = some ((v, v'), c, st') ∧
      ComputesBounds cells start fin st v v' c st' := by
  obtain ⟨v₁, c₁, st₁, hw₁, hc₁⟩ := walkExpr_spec cells start st
  obtain ⟨v₂, c₂, st₂, hw₂, hc₂⟩ := walkExpr_spec cells fin st₁
  obtain ⟨m, hm⟩ : ∃ m, m = st₂.next := ⟨_, rfl⟩
  let tail : Code F := [.store m v₁, .store (m + 1) v₂, .load (m + 2) m, .load (m + 3) (m + 1)]
  have hwalk : walkBounds cells start fin st =
      some ((.reg (m + 2), .reg (m + 3)), c₁ ++ (c₂ ++ tail), ⟨m + 4, st₂.block⟩) := by
    simp [walkBounds, Build.bind_of_some hw₁, Build.bind_of_some hw₂, Build.prepend, tail, hm]
  have htail : Plain st₂ tail ⟨m + 4, st₂.block⟩ :=
    ⟨by simp [tail, Cfg.Instr.plain], by show st₂.next ≤ m + 4; omega, rfl⟩
  refine ⟨_, _, _, _, hwalk, hc₁.plain.append (hc₂.plain.append htail), by
    show m + 2 < m + 4; omega, by show m + 3 < m + 4; omega, ?_⟩
  intro W I σ s hs hr
  have hle₁ := hc₁.plain.le
  have hle₂ := hc₂.plain.le
  obtain ⟨hr₁, hv₁, hk₁⟩ := hc₁.effect (I := I) hs hr
  obtain ⟨hr₂, hv₂, hk₂⟩ := hc₂.effect (I := I) (hs.mono hle₁) hr₁
  rw [Cfg.effect_append, Cfg.effect_append]
  generalize hs₂ : effect (machine I) (effect (machine I) s c₁) c₂ = s₂ at hr₂ hv₂ hk₂
  have hv₁' : v₁.eval (machine I) s₂ = (start.eval I σ).1 := by
    rw [hk₂.eval_eq hc₁.below, hv₁]
  -- the bounds lie in the cells `m` and `m + 1` and are loaded from there
  have htailk : State.AgreeBelow m s₂ (effect (machine I) s₂ tail) := by
    intro k hk
    have h0 : k ≠ m := by omega
    have h1 : k ≠ m + 1 := by omega
    have h2 : k ≠ m + 2 := by omega
    have h3 : k ≠ m + 3 := by omega
    simp [tail, Cfg.Instr.effect, State.setReg, State.setCell, h0, h1, h2, h3]
  have hv₂' : v₂.eval (machine I) (s₂.setCell m (v₁.eval (machine I) s₂)) =
      v₂.eval (machine I) s₂ := by
    cases v₂ <;> rfl
  refine ⟨?_, ?_, ?_, (hk₁.trans hk₂ hle₁).trans htailk (by omega)⟩
  · exact Rel.of_agree htailk (hs.mono (by omega)) rfl hr₂
  · simp only [tail, Cfg.effect_cons, Cfg.effect_nil, Cfg.Instr.effect, hv₁']
    simp [State.setReg, State.setCell, Val.eval]
  · simp only [tail, Cfg.effect_cons, Cfg.effect_nil, Cfg.Instr.effect, hv₂', hv₂]
    simp [State.setReg, State.setCell, Val.eval]

theorem ComputesBounds.of_walkBounds {start fin : Expr ι F} {v v' : Val Word}
    (h : walkBounds cells start fin st = some ((v, v'), c, st')) :
    ComputesBounds cells start fin st v v' c st' := by
  obtain ⟨v₁, v₁', c', st₁, hw, hc⟩ := walkBounds_spec cells start fin st
  obtain ⟨⟨rfl, rfl⟩, rfl, rfl⟩ : (v₁ = v ∧ v₁' = v') ∧ c' = c ∧ st₁ = st' := by
    simpa using hw.symm.trans h
  exact hc

/-! ### Runs -/

/-- A run from `x` to the code `R`, with the store `σ` at its end. -/
def Arrives (I : Interp F W) (cells : Cells ι) (n : Nat) (P : Code F)
    (x : Cfg.Config Word (Op F) Word W) (R : Code F) (σ : Store ι W) : Prop :=
  ∃ b prev s, Exec (machine I) P x ⟨R, b, prev, s⟩ ∧ Rel cells σ s ∧ Keeps cells n x.state s

namespace Arrives

variable {P R R' : Code F} {x y : Cfg.Config Word (Op F) Word W} {σ σ' : Store ι W}

theorem here {b prev : Nat} {s : State Word W} (h : Rel cells σ s) :
    Arrives I cells n P ⟨R, b, prev, s⟩ R σ :=
  ⟨b, prev, s, .refl, h, .refl _ _ _⟩

theorem exec (he : Exec (machine I) P x y) (hk : Keeps cells n x.state y.state)
    (h : Arrives I cells n P y R σ) : Arrives I cells n P x R σ := by
  obtain ⟨b, prev, s, hex, hr, hk'⟩ := h
  exact ⟨b, prev, s, he.trans hex, hr, hk.trans hk' (Nat.le_refl _)⟩

theorem trans (h : Arrives I cells n P x R σ)
    (h' : ∀ b prev s, Rel cells σ s → Arrives I cells m P ⟨R, b, prev, s⟩ R' σ') (hle : n ≤ m) :
    Arrives I cells n P x R' σ' := by
  obtain ⟨b, prev, s, hex, hr, hk⟩ := h
  obtain ⟨b', prev', s', hex', hr', hk'⟩ := h' b prev s hr
  exact ⟨b', prev', s', hex.trans hex', hr', hk.trans hk' hle⟩

theorem mono (h : Arrives I cells m P x R σ) (hle : n ≤ m) : Arrives I cells n P x R σ :=
  let ⟨b, prev, s, hex, hr, hk⟩ := h
  ⟨b, prev, s, hex, hr, hk.mono hle⟩

/-- A jump at the front. -/
theorem br {t b prev : Nat} {k : Code F} {s : State Word W} (ha : after t P = some R')
    (h : Arrives I cells n P ⟨R', t, b, s⟩ R σ) :
    Arrives I cells n P ⟨.br t :: k, b, prev, s⟩ R σ :=
  exec (Cfg.exec_br ha) (.refl _ _ _) h

/-- An expression at the front. -/
theorem expr {e : Expr ι F} {v : Val Word} {k : Code F} {b prev : Nat} {s : State Word W}
    (hc : Computes cells e st v c st') (hs : Scope cells st.next) (hle : n ≤ st.next)
    (hr : Rel cells σ s)
    (h : ∀ s₁, Rel cells (e.eval I σ).2 s₁ → v.eval (machine I) s₁ = (e.eval I σ).1 →
      Arrives I cells n P ⟨k, b, prev, s₁⟩ R σ') :
    Arrives I cells n P ⟨c ++ k, b, prev, s⟩ R σ' := by
  obtain ⟨hr', hv, hk⟩ := hc.effect (I := I) hs hr
  exact exec (Cfg.exec_plain hc.plain.plain k b prev s) ((Keeps.of_agree hk).mono hle) (h _ hr' hv)

end Arrives

/-- **A condition is a jump**, to the block that its value chooses. -/
theorem Computes.branch {e : Expr ι F} {v : Val Word} {k P R : Code F} {t t' d b prev : Nat}
    {σ : Store ι W} {s : State Word W} (hc : Computes cells e st v c st') (hs : Scope cells st.next)
    (hr : Rel cells σ s) (hd : (if truth (e.eval I σ).1 then t else t') = d)
    (ha : after d P = some R) :
    ∃ s₁, Exec (machine I) P ⟨c ++ .condbr v t t' :: k, b, prev, s⟩ ⟨R, d, b, s₁⟩ ∧
      Rel cells (e.eval I σ).2 s₁ ∧ State.AgreeBelow st.next s s₁ := by
  obtain ⟨hr', hv, hk⟩ := hc.effect (I := I) hs hr
  refine ⟨_, (Cfg.exec_plain hc.plain.plain _ b prev s).trans (Cfg.exec_condbr ?_ ha), hr', hk⟩
  rw [hv]
  exact hd

/-- The code that is reached when a statement ends in a flow. -/
def Leads (controls : List LoopControlInfo) (P R : Code F) : Flow → Code F → Prop
  | .normal, R' => R' = R
  | .break, R' => ∃ control ∈ controls.head?, after control.outbb P = some R'
  | .continue, R' => ∃ control ∈ controls.head?, after control.condbb P = some R'

/-- **The code of a statement runs as the statement does**, wherever it stands. -/
def Goes (I : Interp F W) (cells : Cells ι) (controls : List LoopControlInfo) (n : Nat) (c : Code F)
    (σ : Store ι W) (o : Flow) (σ' : Store ι W) : Prop :=
  ∀ P R b prev s, (labels P).Nodup → c ++ R <:+ P → Rel cells σ s →
    (∀ control ∈ controls.head?,
      (∃ R', after control.outbb P = some R') ∧ ∃ R', after control.condbb P = some R') →
    ∃ R', Leads controls P R o R' ∧ Arrives I cells n P ⟨c ++ R, b, prev, s⟩ R' σ'

/-- A statement in front of a jump. -/
theorem Goes.jump {out : Nat} {cb k P R : Code F} {s : State Word W}
    (h : Goes I cells controls n cb σ o σ') (b prev : Nat) (hn : (labels P).Nodup)
    (hsuf : cb ++ .br out :: k <:+ P) (hout : after out P = some R) (hr : Rel cells σ s)
    (hcontrols : ∀ control ∈ controls.head?,
      (∃ R', after control.outbb P = some R') ∧ ∃ R', after control.condbb P = some R') :
    ∃ R', Leads controls P R o R' ∧ Arrives I cells n P ⟨cb ++ .br out :: k, b, prev, s⟩ R' σ' := by
  obtain ⟨R', hR', harr⟩ := h P _ b prev s hn hsuf hr hcontrols
  cases o with
  | normal =>
      obtain rfl := hR'
      exact ⟨R, rfl, harr.trans (fun b prev s hr => .br hout (.here hr)) (Nat.le_refl _)⟩
  | «break» | «continue» => exact ⟨R', hR', harr⟩

/-- **One round of a loop**: behind its body the loop is left or goes on behind its condition
label. -/
theorem Goes.round {condbb outbb : Nat} {P R Rcond cb : Code F} {s : State Word W}
    (h : Goes I cells (⟨condbb, outbb⟩ :: controls) n cb σ o σ') (b prev : Nat)
    (hn : (labels P).Nodup) (hsuf : cb ++ .br condbb :: .label outbb :: R <:+ P)
    (hcond : after condbb P = some Rcond) (hr : Rel cells σ s) :
    Arrives I cells n P ⟨cb ++ .br condbb :: .label outbb :: R, b, prev, s⟩
      (if o = .break then R else Rcond) σ' := by
  have hout : after outbb P = some R :=
    Cfg.after_of_suffix hn (Cfg.suffix_of_cons (Cfg.suffix_of_append hsuf))
  have hcontrols : ∀ control ∈ (⟨condbb, outbb⟩ :: controls : List LoopControlInfo).head?,
      (∃ R', after control.outbb P = some R') ∧ ∃ R', after control.condbb P = some R' := by
    rintro _ ⟨⟩
    exact ⟨⟨R, hout⟩, Rcond, hcond⟩
  obtain ⟨R', hR', harr⟩ := h.jump b prev hn hsuf hcond hr hcontrols
  cases o with
  | normal =>
      obtain rfl := hR'
      exact harr
  | «break» =>
      obtain ⟨_, ⟨⟩, hR'⟩ := hR'
      obtain rfl := Option.some.inj (hout.symm.trans hR')
      exact harr
  | «continue» =>
      obtain ⟨_, ⟨⟩, hR'⟩ := hR'
      obtain rfl := Option.some.inj (hcond.symm.trans hR')
      exact harr

/-! ### New labels -/

theorem walkJump_eq {target : LoopControlInfo → Nat}
    (h : walkJump target controls st = some ((), c, st')) :
    ∃ control ∈ controls.head?, c = [.br (target control), .label st.next] ∧
      st' = ⟨st.next + 1, st.next⟩ := by
  cases controls with
  | nil => cases h
  | cons control rest =>
      cases h
      exact ⟨control, rfl, rfl, rfl⟩

theorem walkJump_fresh {target : LoopControlInfo → Nat}
    (h : walkJump target controls st = some ((), c, st')) : Cfg.Fresh st c st' := by
  obtain ⟨control, -, rfl, rfl⟩ := walkJump_eq h
  exact ⟨Nat.le_succ _, by simp [labels], by simp [labels]⟩

/-- Every walk makes its labels itself. -/
theorem walk_fresh [DecidableEq ι] (s : Stmt ι F) {cells : Cells ι}
    {controls : List LoopControlInfo} {st st' : Builder} {c : Code F}
    (h : walk cells controls s st = some ((), c, st')) : Cfg.Fresh st c st' := by
  induction s generalizing cells controls st st' c with
  | skip =>
      cases h
      exact ⟨Nat.le_refl _, nofun, List.nodup_nil⟩
  | seq s t ihs iht =>
      obtain ⟨c₁, st₁, c₂, h₁, h₂, rfl⟩ := walk_seq h
      exact (ihs h₁).append (iht h₂) (Nat.le_refl _)
  | expr e =>
      obtain ⟨v, hv⟩ := walk_expr h
      exact (Computes.of_walkExpr hv).plain.fresh
  | assign x e =>
      obtain ⟨v, c₁, hv, rfl⟩ := walk_assign h
      have hc := (Computes.of_walkExpr hv).plain
      refine .plain ?_ hc.le
      intro i hi
      rcases List.mem_append.mp hi with hi | hi
      · exact hc.plain i hi
      · rw [List.mem_singleton.mp hi]
        rfl
  | ifThen cond body ih =>
      obtain ⟨v, cc, st₁, cb, st₂, hv, hb, rfl, rfl⟩ := walk_ifThen h
      have hc := (Computes.of_walkExpr hv).plain
      have hle : st.next + 3 ≤ st₁.next := hc.le
      refine (ih hb).around [st.next, st.next + 1, st.next + 2] (by show _ ≤ st₁.next; omega)
        (Nat.le_refl _) (by simp; omega) (by simp) (List.perm_iff_count.mpr ?_)
      intro a
      simp [labels, hc.labels_eq, List.count_cons]
      omega
  | ifElse cond body remain ihb ihr =>
      obtain ⟨v, cc, st₁, cb, st₂, cr, st₃, hv, hb, hr, rfl, rfl⟩ := walk_ifElse h
      have hc := (Computes.of_walkExpr hv).plain
      have hle : st.next + 4 ≤ st₁.next := hc.le
      have hbr := (ihb hb).append (ihr hr) (Nat.le_refl _)
      refine hbr.around [st.next, st.next + 1, st.next + 2, st.next + 3]
        (by show _ ≤ st₁.next; omega) (Nat.le_refl _) (by simp; omega) (by simp)
        (List.perm_iff_count.mpr ?_)
      intro a
      simp [labels, hc.labels_eq, List.count_cons]
      omega
  | «while» cond body ih =>
      obtain ⟨v, cc, st₁, cb, st₂, hv, hb, rfl, rfl⟩ := walk_while h
      have hc := (Computes.of_walkExpr hv).plain
      have hle : st.next + 3 ≤ st₁.next := hc.le
      refine (ih hb).around [st.next, st.next + 1, st.next + 2] (by show _ ≤ st₁.next; omega)
        (Nat.le_refl _) (by simp; omega) (by simp) (List.perm_iff_count.mpr ?_)
      intro a
      simp [labels, hc.labels_eq, List.count_cons]
  | loop body ih =>
      obtain ⟨cb, st₂, hb, rfl, rfl⟩ := walk_loop h
      refine (ih hb).around [st.next, st.next + 1] (Nat.le_add_right _ 2)
        (Nat.le_refl _) (by simp) (by simp) (List.perm_iff_count.mpr ?_)
      intro a
      simp [labels, List.count_cons]
  | «for» x type start fin inclusive body ih =>
      obtain ⟨v, v', cr, st₁, cb, st₂, hv, hb, rfl, rfl⟩ := walk_for h
      have hc := (ComputesBounds.of_walkBounds hv).plain
      have hle : st.next + 3 ≤ st₁.next := hc.le
      refine (ih hb).around [st.next, st.next + 1, st.next + 2] (by show _ ≤ st₁.next + 6; omega)
        (Nat.le_refl _) (by simp; omega) (by simp) (List.perm_iff_count.mpr ?_)
      intro a
      simp [labels, hc.labels_eq, forTest, forStep, List.count_cons]
  | «break» => exact walkJump_fresh h
  | «continue» => exact walkJump_fresh h

end CaLang.Loops

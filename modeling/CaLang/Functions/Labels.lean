import CaLang.Functions.Computed

/-! # The labels of functions

The shape of the code of each statement.  **Every walk makes its labels itself**: no two labels in
the code of a function are the same, so that a jump finds what stands behind its label.
-/

namespace CaLang.Functions

open Cfg (Build Val Fun Builder labels)

variable {ι F G V : Type} {isvoidty : G → Bool} {fn : CurrFn ι} {cells : ι → Nat}
  {controls : List LoopControlInfo} {st st' : Builder} {c : Code F G V}

/-! ### Shapes -/

theorem walkJump_eq {target : LoopControlInfo → Nat}
    (h : walkJump target controls st = some ((), c, st')) :
    ∃ control ∈ controls.head?, c = [.br (target control), .label st.next] ∧
      st' = ⟨st.next + 1, st.next⟩ := by
  cases controls with
  | nil => cases h
  | cons control controls =>
      cases h
      exact ⟨control, rfl, rfl, rfl⟩

/-- A `return` with a value is one in a function that has a return slot. -/
theorem walkRet_eq {e : Option (Term ι F G false)}
    (h : walkRet isvoidty fn e st = some ((), c, st')) :
    (e = none ∧ fn.retslot = none ∧ c = [.br fn.retbb, .label st.next] ∧
      st' = ⟨st.next + 1, st.next⟩) ∨
    ∃ e' retslot v ce st₁, e = some e' ∧ fn.retslot = some retslot ∧
      popRightValue isvoidty fn.cells e' st = some (v, ce, st₁) ∧
      c = ce ++ [.store retslot v, .br fn.retbb, .label st₁.next] ∧
      st' = ⟨st₁.next + 1, st₁.next⟩ := by
  cases e with
  | none =>
      cases hslot : fn.retslot with
      | none =>
          simp only [walkRet, hslot] at h
          cases h
          exact .inl ⟨rfl, rfl, rfl, rfl⟩
      | some retslot =>
          simp only [walkRet, hslot] at h
          cases h
  | some e =>
      cases hslot : fn.retslot with
      | none =>
          simp only [walkRet, hslot] at h
          cases h
      | some retslot =>
          simp only [walkRet, hslot] at h
          obtain ⟨v, ce, st₁, cr, hv, hrest, rfl⟩ := Build.bind_eq_some.mp h
          cases hrest
          exact .inr ⟨e, retslot, v, ce, st₁, rfl, rfl, hv, rfl, rfl⟩

theorem freshes_eq (n : Nat) (st : Builder) :
    (freshes n : Build V (Op F G) Unit) st = some ((), [], ⟨st.next + n, st.block⟩) := by
  induction n generalizing st with
  | zero => rfl
  | succ n ih =>
      rw [freshes, Build.fresh_bind, ih]
      simp only [Option.some.injEq, Prod.mk.injEq, Builder.mk.injEq, true_and, and_true]
      omega

theorem walkConds_arm {cond : Term ι F G false} {body : Stmt ι F G false} {rest : Stmt ι F G true}
    {bb : Nat} (h : walkConds isvoidty cells (.arm cond body rest) bb st = some ((), c, st')) :
    ∃ v ce st₁ cr, popRightValue isvoidty cells cond st = some (v, ce, st₁) ∧
      walkConds isvoidty cells rest (bb + 2) ⟨st₁.next, bb⟩ = some ((), cr, st') ∧
      c = ce ++ .condbr v (bb + 1) bb :: .label bb :: cr := by
  obtain ⟨v, ce, st₁, cr, hv, hrest, rfl⟩ := Build.bind_eq_some.mp h
  simp only [Build.emit_bind, Build.setInsertPoint_bind, Build.prepend_eq_some] at hrest
  obtain ⟨_, ⟨cr, hcr, rfl⟩, rfl⟩ := hrest
  exact ⟨v, ce, st₁, cr, hv, hcr, rfl⟩

theorem walkBodies_cons {outbb bb : Nat} {body : Build V (Op F G) Unit}
    {bodies : List (Build V (Op F G) Unit)}
    (h : walkBodies outbb (body :: bodies) bb st = some ((), c, st')) :
    ∃ cb st₁ cr, body ⟨st.next, bb + 1⟩ = some ((), cb, st₁) ∧
      walkBodies outbb bodies (bb + 2) st₁ = some ((), cr, st') ∧
      c = .label (bb + 1) :: (cb ++ .br outbb :: cr) := by
  simp only [walkBodies, Build.emit_bind, Build.setInsertPoint_bind, Build.prepend_eq_some,
    Build.bind_eq_some] at h
  obtain ⟨_, ⟨_, cb, st₁, _, hb, ⟨cr, hcr, rfl⟩, rfl⟩, rfl⟩ := h
  exact ⟨cb, st₁, cr, hb, hcr, rfl⟩

theorem walk_seq {s t : Stmt ι F G false}
    (h : walk isvoidty fn (.seq s t) controls st = some ((), c, st')) :
    ∃ c₁ st₁ c₂, walk isvoidty fn s controls st = some ((), c₁, st₁) ∧
      walk isvoidty fn t controls st₁ = some ((), c₂, st') ∧ c = c₁ ++ c₂ := by
  obtain ⟨_, c₁, st₁, c₂, h₁, h₂, rfl⟩ := Build.bind_eq_some.mp h
  exact ⟨c₁, st₁, c₂, h₁, h₂, rfl⟩

theorem walk_expr {e : Term ι F G false}
    (h : walk isvoidty fn (.expr e) controls st = some ((), c, st')) :
    ∃ o : Option (Operand V), walkStack isvoidty fn.cells e st = some (o, c, st') := by
  obtain ⟨o, c₁, st₁, c₂, hv, hpure, rfl⟩ := Build.bind_eq_some.mp h
  cases hpure
  exact ⟨o, by rw [hv, List.append_nil]⟩

theorem walk_assign {x : ι} {e : Term ι F G false}
    (h : walk isvoidty fn (.assign x e) controls st = some ((), c, st')) :
    ∃ v ce, popRightValue isvoidty fn.cells e st = some (v, ce, st') ∧
      c = ce ++ [.store (fn.cells x) v] := by
  obtain ⟨v, ce, st₁, cr, hv, hrest, rfl⟩ := Build.bind_eq_some.mp h
  cases hrest
  exact ⟨v, ce, hv, rfl⟩

/-- The bodies of an `if`. -/
def bodies (isvoidty : G → Bool) (fn : CurrFn ι) (arms : Stmt ι F G true)
    (controls : List LoopControlInfo) : List (Build V (Op F G) Unit) :=
  walk isvoidty fn arms controls

theorem walk_ifThen {arms : Stmt ι F G true}
    (h : walk isvoidty fn (.ifThen arms) controls st = some ((), c, st')) :
    ∃ cc st₁ cb st₂, walkConds isvoidty fn.cells arms (st.next + 1)
        ⟨st.next + 1 + 2 * (bodies (V := V) isvoidty fn arms controls).length, st.block⟩ =
          some ((), cc, st₁) ∧
      walkBodies st.next (bodies isvoidty fn arms controls) (st.next + 1) st₁ =
        some ((), cb, st₂) ∧
      c = cc ++ .br st.next :: (cb ++ [.label st.next]) ∧ st' = ⟨st₂.next, st.next⟩ := by
  simp only [walk, Build.fresh_bind, Build.bind_of_some (freshes_eq _ _), Build.prepend_nil] at h
  obtain ⟨_, cc, st₁, _, hcc, hrest, rfl⟩ := Build.bind_eq_some.mp h
  simp only [Build.emit_bind, Build.prepend_eq_some] at hrest
  obtain ⟨_, hrest, rfl⟩ := hrest
  obtain ⟨_, cb, st₂, _, hcb, hend, rfl⟩ := Build.bind_eq_some.mp hrest
  cases hend
  exact ⟨cc, st₁, cb, st₂, hcc, hcb, rfl, rfl⟩

theorem walk_ifElse {arms : Stmt ι F G true} {remain : Stmt ι F G false}
    (h : walk isvoidty fn (.ifElse arms remain) controls st = some ((), c, st')) :
    ∃ n cc st₁ cb st₂ cr st₃, n = (bodies (V := V) isvoidty fn arms controls).length ∧
      walkConds isvoidty fn.cells arms (st.next + 1) ⟨st.next + 1 + 2 * n + 1, st.block⟩ =
        some ((), cc, st₁) ∧
      walkBodies st.next (bodies isvoidty fn arms controls) (st.next + 1) st₁ =
        some ((), cb, st₂) ∧
      walk isvoidty fn remain controls ⟨st₂.next, st.next + 1 + 2 * n⟩ = some ((), cr, st₃) ∧
      c = cc ++ .br (st.next + 1 + 2 * n) :: (cb ++ .label (st.next + 1 + 2 * n) ::
        (cr ++ [.br st.next, .label st.next])) ∧ st' = ⟨st₃.next, st.next⟩ := by
  simp only [walk, Build.fresh_bind, Build.bind_of_some (freshes_eq _ _), Build.prepend_nil] at h
  obtain ⟨_, cc, st₁, _, hcc, hrest, rfl⟩ := Build.bind_eq_some.mp h
  simp only [Build.emit_bind, Build.prepend_eq_some] at hrest
  obtain ⟨_, hrest, rfl⟩ := hrest
  obtain ⟨_, cb, st₂, _, hcb, hremain, rfl⟩ := Build.bind_eq_some.mp hrest
  simp only [Build.setInsertPoint_bind, Build.prepend_eq_some] at hremain
  obtain ⟨_, hremain, rfl⟩ := hremain
  obtain ⟨_, cr, st₃, _, hcr, hend, rfl⟩ := Build.bind_eq_some.mp hremain
  cases hend
  exact ⟨_, cc, st₁, cb, st₂, cr, st₃, rfl, hcc, hcb, hcr, rfl, rfl⟩

theorem walk_while {cond : Term ι F G false} {body : Stmt ι F G false}
    (h : walk isvoidty fn (.while cond body) controls st = some ((), c, st')) :
    ∃ v cc st₁ cb st₂,
      popRightValue isvoidty fn.cells cond ⟨st.next + 3, st.next⟩ = some (v, cc, st₁) ∧
      walk isvoidty fn body (⟨st.next, st.next + 2⟩ :: controls) ⟨st₁.next, st.next + 1⟩ =
        some ((), cb, st₂) ∧
      c = .br st.next :: .label st.next :: (cc ++ .condbr v (st.next + 1) (st.next + 2) ::
        .label (st.next + 1) :: (cb ++ [.br st.next, .label (st.next + 2)])) ∧
      st' = ⟨st₂.next, st.next + 2⟩ := by
  simp only [walk, Build.fresh_bind, Build.emit_bind, Build.setInsertPoint_bind,
    Build.prepend_eq_some] at h
  obtain ⟨_, ⟨_, h, rfl⟩, rfl⟩ := h
  obtain ⟨v, cc, st₁, _, hv, hrest, rfl⟩ := Build.bind_eq_some.mp h
  simp only [Build.emit_bind, Build.setInsertPoint_bind, Build.prepend_eq_some] at hrest
  obtain ⟨_, ⟨_, hrest, rfl⟩, rfl⟩ := hrest
  obtain ⟨_, cb, st₂, _, hb, hend, rfl⟩ := Build.bind_eq_some.mp hrest
  cases hend
  exact ⟨v, cc, st₁, cb, st₂, hv, hb, rfl, rfl⟩

theorem walk_loop {body : Stmt ι F G false}
    (h : walk isvoidty fn (.loop body) controls st = some ((), c, st')) :
    ∃ cb st₂, walk isvoidty fn body (⟨st.next, st.next + 1⟩ :: controls)
        ⟨st.next + 2, st.next⟩ = some ((), cb, st₂) ∧
      c = .br st.next :: .label st.next :: (cb ++ [.br st.next, .label (st.next + 1)]) ∧
      st' = ⟨st₂.next, st.next + 1⟩ := by
  simp only [walk, Build.fresh_bind, Build.emit_bind, Build.setInsertPoint_bind,
    Build.prepend_eq_some] at h
  obtain ⟨_, ⟨_, h, rfl⟩, rfl⟩ := h
  obtain ⟨_, cb, st₂, _, hb, hend, rfl⟩ := Build.bind_eq_some.mp h
  cases hend
  exact ⟨cb, st₂, hb, rfl, rfl⟩

/-! ### New labels -/

theorem Plain.labels_eq {vals : List (Val V)} (h : Plain st vals c st') : labels c = [] :=
  (Cfg.plain_code h.plain 0).1

theorem Plain.fresh {vals : List (Val V)} (h : Plain st vals c st') : Cfg.Fresh st c st' :=
  .plain h.plain h.le

/-- The labels behind the conditions. -/
theorem walkConds_labels (fn : CurrFn ι) (controls : List LoopControlInfo) :
    ∀ (arms : Stmt ι F G true) {bb : Nat} {c : Code F G V} {st st' : Builder},
    walkConds isvoidty cells arms bb st = some ((), c, st') →
    labels c = List.range' bb (bodies (V := V) isvoidty fn arms controls).length 2 ∧
      st.next ≤ st'.next
  | .noArms, _, _, _, _, h => by
      cases h
      exact ⟨rfl, Nat.le_refl _⟩
  | .arm cond body rest, _, _, _, _, h => by
      obtain ⟨v, ce, st₁, cr, hv, hcr, rfl⟩ := walkConds_arm h
      have hp := popRightValue_plain hv
      obtain ⟨hl, hle⟩ := walkConds_labels fn controls rest hcr
      refine ⟨?_, Nat.le_trans hp.le hle⟩
      rw [Cfg.labels_append, hp.labels_eq, List.nil_append]
      exact congrArg (_ :: ·) hl

/-- The labels in front of the bodies, and those in the bodies. -/
theorem walkBodies_labels {outbb bb : Nat} {bodies : List (Build V (Op F G) Unit)}
    (hb : ∀ body ∈ bodies, ∀ st c st', body st = some ((), c, st') → Cfg.Fresh st c st')
    (h : walkBodies outbb bodies bb st = some ((), c, st')) :
    ∃ ci : Code F G V, Cfg.Fresh st ci st' ∧
      (labels c).Perm (List.range' (bb + 1) bodies.length 2 ++ labels ci) := by
  induction bodies generalizing bb c st with
  | nil =>
      cases h
      exact ⟨[], .plain nofun (Nat.le_refl _), .refl _⟩
  | cons body bodies ih =>
      obtain ⟨cb, st₁, cr, hbody, hcr, rfl⟩ := walkBodies_cons h
      have hf : Cfg.Fresh st cb st₁ := by
        have := hb body List.mem_cons_self _ _ _ hbody
        exact ⟨this.le, this.labels_mem, this.nodup⟩
      obtain ⟨ci, hci, hp⟩ := ih (fun body hmem => hb body (List.mem_cons_of_mem _ hmem)) hcr
      refine ⟨cb ++ ci, hf.append hci (Nat.le_refl _), ?_⟩
      rw [Cfg.labels_append]
      refine List.Perm.cons _ ?_
      rw [Cfg.labels_append]
      calc labels cb ++ labels cr
          _ |>.Perm (labels cb ++ (List.range' (bb + 2 + 1) bodies.length 2 ++ labels ci)) :=
            hp.append_left _
          _ |>.Perm (List.range' (bb + 2 + 1) bodies.length 2 ++ (labels cb ++ labels ci)) :=
            List.perm_append_comm_assoc _ _ _

/-- The blocks of an `if` with `k` conditions. -/
def armBlocks (n k : Nat) : List Nat := List.range' n k 2 ++ List.range' (n + 1) k 2

theorem mem_armBlocks {b n k : Nat} (h : b ∈ armBlocks n k) : n ≤ b ∧ b < n + 2 * k := by
  simp only [armBlocks, List.mem_append, List.mem_range'] at h
  rcases h with ⟨i, hi, rfl⟩ | ⟨i, hi, rfl⟩ <;> omega

theorem armBlocks_nodup (n k : Nat) : (armBlocks n k).Nodup := by
  apply List.Nodup.append (List.nodup_range' 2) (List.nodup_range' 2)
  intro b hb hb'
  obtain ⟨i, -, rfl⟩ := List.mem_range'.mp hb
  obtain ⟨j, -, h⟩ := List.mem_range'.mp hb'
  omega

/-- The walks of a statement, or of the bodies of an `if`, make new labels only. -/
def AllFresh : {k : Bool} → Walks F G V k → Prop
  | false, w => ∀ st c st', w st = some ((), c, st') → Cfg.Fresh st c st'
  | true, ws => ∀ w ∈ ws, ∀ st c st', w st = some ((), c, st') → Cfg.Fresh st c st'

/-- The labels of an `if`: its blocks, and those in the bodies. -/
theorem arms_labels {arms : Stmt ι F G true} {outbb bb n : Nat} {st₁ : Builder}
    {cc cb : Code F G V} (hn : n = (bodies (V := V) isvoidty fn arms controls).length)
    (hb : AllFresh (k := true) (bodies (V := V) isvoidty fn arms controls))
    (hcc : walkConds isvoidty fn.cells arms bb st = some ((), cc, st₁))
    (hcb : walkBodies outbb (bodies isvoidty fn arms controls) bb st₁ = some ((), cb, st')) :
    ∃ ci : Code F G V, Cfg.Fresh st ci st' ∧
      (labels cc ++ labels cb).Perm (armBlocks bb n ++ labels ci) := by
  obtain ⟨hlc, hle⟩ := walkConds_labels fn controls arms hcc
  obtain ⟨ci, hci, hp⟩ := walkBodies_labels hb hcb
  refine ⟨ci, ⟨Nat.le_trans hle hci.le, ?_, hci.nodup⟩, ?_⟩
  · intro b hmem
    have := hci.labels_mem b hmem
    omega
  · rw [hlc, hn, armBlocks, List.append_assoc]
    exact hp.append_left _

theorem walkJump_fresh {target : LoopControlInfo → Nat}
    (h : walkJump target controls st = some ((), c, st')) : Cfg.Fresh st c st' := by
  obtain ⟨control, -, rfl, rfl⟩ := walkJump_eq h
  exact ⟨Nat.le_succ _, by simp [labels], by simp [labels]⟩

theorem walkRet_fresh {e : Option (Term ι F G false)}
    (h : walkRet isvoidty fn e st = some ((), c, st')) : Cfg.Fresh st c st' := by
  rcases walkRet_eq h with ⟨-, -, rfl, rfl⟩ | ⟨e', retslot, v, ce, st₁, -, -, hv, rfl, rfl⟩
  · exact ⟨Nat.le_succ _, by simp [labels], by simp [labels]⟩
  · have hjump : Cfg.Fresh st₁ ([.store retslot v, .br fn.retbb, .label st₁.next] : Code F G V)
        ⟨st₁.next + 1, st₁.next⟩ := ⟨Nat.le_succ _, by simp [labels], by simp [labels]⟩
    exact (popRightValue_plain hv).fresh.append hjump (Nat.le_refl _)

/-- **No two labels are the same**, and all of them are new. -/
theorem walk_fresh {k : Bool} (s : Stmt ι F G k) (controls : List LoopControlInfo) :
    AllFresh (V := V) (walk isvoidty fn s controls) := by
  induction s generalizing controls with
  | skip =>
      intro st c st' h
      cases h
      exact .plain (fun _ hi => absurd hi List.not_mem_nil) (Nat.le_refl _)
  | seq s t ihs iht =>
      intro st c st' h
      obtain ⟨c₁, st₁, c₂, h₁, h₂, rfl⟩ := walk_seq h
      exact (ihs _ _ _ _ h₁).append (iht _ _ _ _ h₂) (Nat.le_refl _)
  | expr e =>
      intro st c st' h
      obtain ⟨o, hv⟩ := walk_expr h
      exact (walkStack_plain hv).fresh
  | assign x e =>
      intro st c st' h
      obtain ⟨v, ce, hv, rfl⟩ := walk_assign h
      have hstore : Cfg.Fresh st' ([.store (fn.cells x) v] : Code F G V) st' :=
        ⟨Nat.le_refl _, by simp [labels], by simp [labels]⟩
      exact (popRightValue_plain hv).fresh.append hstore (Nat.le_refl _)
  | noArms =>
      intro w hw
      cases hw
  | arm cond body rest ihb ihr =>
      intro w hw st c st' h
      rcases List.mem_cons.mp hw with rfl | hw
      · exact ihb controls st c st' h
      · exact ihr controls w hw st c st' h
  | ifThen arms ih =>
      intro st c st' h
      obtain ⟨cc, st₁, cb, st₂, hcc, hcb, rfl, rfl⟩ := walk_ifThen h
      obtain ⟨ci, hci, hp⟩ := arms_labels rfl (ih controls) hcc hcb
      generalize (bodies (V := V) isvoidty fn arms controls).length = n at hci hp
      refine hci.around (st.next :: armBlocks (st.next + 1) n)
        (by show _ ≤ st.next + 1 + 2 * n; omega) (Nat.le_refl _) ?_ ?_ (List.perm_iff_count.mpr ?_)
      · intro b hb
        show _ ∧ b < st.next + 1 + 2 * n
        rcases List.mem_cons.mp hb with rfl | hb
        · omega
        · have := mem_armBlocks hb
          omega
      · refine List.nodup_cons.mpr ⟨?_, armBlocks_nodup _ _⟩
        intro hmem
        have := mem_armBlocks hmem
        omega
      · intro a
        have := hp.count_eq a
        simp only [List.count_append] at this
        simp only [labels, Cfg.labels_append, List.count_append, List.count_cons, List.cons_append,
          List.count_nil]
        omega
  | ifElse arms remain iha ihr =>
      intro st c st' h
      obtain ⟨n, cc, st₁, cb, st₂, cr, st₃, hn, hcc, hcb, hcr, rfl, rfl⟩ := walk_ifElse h
      obtain ⟨ci, hci, hp⟩ := arms_labels hn (iha controls) hcc hcb
      have hbr := hci.append (ihr _ _ _ _ hcr) (Nat.le_refl _)
      refine hbr.around (st.next :: (st.next + 1 + 2 * n) :: armBlocks (st.next + 1) n)
        (by show _ ≤ st.next + 1 + 2 * n + 1; omega) (Nat.le_refl _) ?_ ?_
        (List.perm_iff_count.mpr ?_)
      · intro b hb
        show _ ∧ b < st.next + 1 + 2 * n + 1
        rcases List.mem_cons.mp hb with rfl | hb
        · omega
        · rcases List.mem_cons.mp hb with rfl | hb
          · omega
          · have := mem_armBlocks hb
            omega
      · refine List.nodup_cons.mpr ⟨?_, List.nodup_cons.mpr ⟨?_, armBlocks_nodup _ _⟩⟩
        · intro hmem
          rcases List.mem_cons.mp hmem with h | hmem
          · omega
          · have := mem_armBlocks hmem
            omega
        · intro hmem
          have := mem_armBlocks hmem
          omega
      · intro a
        have := hp.count_eq a
        simp only [List.count_append] at this
        simp only [labels, Cfg.labels_append, List.count_append, List.count_cons, List.cons_append,
          List.count_nil]
        omega
  | «while» cond body ih =>
      intro st c st' h
      obtain ⟨v, cc, st₁, cb, st₂, hv, hb, rfl, rfl⟩ := walk_while h
      have hc := popRightValue_plain hv
      have hle : st.next + 3 ≤ st₁.next := hc.le
      refine (ih _ _ _ _ hb).around [st.next, st.next + 1, st.next + 2]
        (by show _ ≤ st₁.next; omega) (Nat.le_refl _) (by simp; omega) (by simp)
        (List.perm_iff_count.mpr ?_)
      intro a
      simp [labels, hc.labels_eq, List.count_cons]
  | loop body ih =>
      intro st c st' h
      obtain ⟨cb, st₂, hb, rfl, rfl⟩ := walk_loop h
      refine (ih _ _ _ _ hb).around [st.next, st.next + 1] (Nat.le_add_right _ 2)
        (Nat.le_refl _) (by simp) (by simp) (List.perm_iff_count.mpr ?_)
      intro a
      simp [labels, List.count_cons]
  | «break» => exact fun st c st' h => walkJump_fresh h
  | «continue» => exact fun st c st' h => walkJump_fresh h
  | ret e => exact fun st c st' h => walkRet_fresh h

end CaLang.Functions

import CaLang.Loops.Ranges

/-! # Statements run as they mean

**The run of a statement is the run of its code**, whatever stands around it: the code is left at
its end, or behind the label of the loop that a `break` or a `continue` is for, the variables are in
their cells, and nothing that was there before is changed but them.

The induction is on the fuel of the run.  A loop goes on from behind its label, so each kind of loop
has a lemma of its own, by induction on its rounds.
-/

namespace CaLang.Loops

open Instr
open Addresses (IntType)
open Cfg (Build Machine Val Builder State Exec effect labels after)

variable {ι F W : Type} [DecidableEq ι] {I : Interp F W} {cells : Cells ι}
  {controls : List LoopControlInfo} {st st' : Builder} {c : Code F} {n fuel : Nat}
  {σ σ' : Store ι W} {o : Flow} {rs : List Range}

/-- The code of a statement runs as the statement does with some fuel. -/
def Sound (I : Interp F W) (fuel : Nat) (s : Stmt ι F) : Prop :=
  ∀ ⦃σ o σ' rs⦄, run I fuel s σ = some (o, σ', rs) → (∀ r ∈ rs, r.Regular) →
    ∀ ⦃cells controls st c st'⦄, walk cells controls s st = some ((), c, st') →
      Scope cells st.next → Goes I cells controls st.next c σ o σ'

/-! ### Rounds -/

theorem Round.arrives {next : Store ι W → Option (End ι W)} {body : Stmt ι F}
    {P R Rcond cb : Code F} {condbb outbb b prev : Nat} {s : State Word W}
    (h : Round next (run I fuel body σ) .normal σ' rs) (hreg : ∀ r ∈ rs, r.Regular)
    (hbody : Sound I fuel body)
    (hb : walk cells (⟨condbb, outbb⟩ :: controls) body st = some ((), cb, st'))
    (hs : Scope cells st.next) (hle : n ≤ st.next) (hn : (labels P).Nodup)
    (hsuf : cb ++ .br condbb :: .label outbb :: R <:+ P) (hcond : after condbb P = some Rcond)
    (hr : Rel cells σ s)
    (hnext : ∀ {σ₁ rs₂}, next σ₁ = some (.normal, σ', rs₂) → (∀ r ∈ rs₂, r.Regular) →
      ∀ b prev s, Rel cells σ₁ s → Arrives I cells n P ⟨Rcond, b, prev, s⟩ R σ') :
    Arrives I cells n P ⟨cb ++ .br condbb :: .label outbb :: R, b, prev, s⟩ R σ' := by
  obtain ⟨o₁, σ₁, rs₁, hrun, ⟨rfl, -, rfl, rfl⟩ | ⟨hne, rs₂, hrest, rfl⟩⟩ := h
  · exact ((hbody hrun hreg hb hs).round b prev hn hsuf hcond hr).mono hle
  · have hround := (hbody hrun (fun r hmem => hreg r (List.mem_append_left _ hmem)) hb hs).round
      b prev hn hsuf hcond hr
    rw [if_neg hne] at hround
    exact (hround.mono hle).trans
      (hnext hrest fun r hmem => hreg r (List.mem_append_right _ hmem)) (Nat.le_refl _)

/-- A `while` from behind its condition label. -/
theorem while_arrives {cond : Expr ι F} {body : Stmt ι F} {v : Val Word} {cc cb P R : Code F}
    {st₁ st₂ : Builder} {block b prev : Nat} {s : State Word W}
    (hbody : ∀ f < fuel, Sound I f body)
    (hrun : run I fuel (.while cond body) σ = some (.normal, σ', rs))
    (hreg : ∀ r ∈ rs, r.Regular)
    (hv : walkExpr cells cond ⟨n + 3, block⟩ = some (v, cc, st₁))
    (hb : walk cells (⟨n, n + 2⟩ :: controls) body ⟨st₁.next, n + 1⟩ = some ((), cb, st₂))
    (hs : Scope cells n) (hn : (labels P).Nodup)
    (hsuf : .label n :: (cc ++ .condbr v (n + 1) (n + 2) :: .label (n + 1) ::
      (cb ++ .br n :: .label (n + 2) :: R)) <:+ P) (hr : Rel cells σ s) :
    Arrives I cells n P ⟨cc ++ .condbr v (n + 1) (n + 2) :: .label (n + 1) ::
      (cb ++ .br n :: .label (n + 2) :: R), b, prev, s⟩ R σ' := by
  have hc := Computes.of_walkExpr hv
  have hle : n + 3 ≤ st₁.next := hc.plain.le
  have hcond := Cfg.after_of_suffix hn hsuf
  have hsufb := Cfg.suffix_of_cons (Cfg.suffix_of_append (Cfg.suffix_of_cons hsuf))
  have hwhile := Cfg.after_of_suffix hn hsufb
  replace hsufb := Cfg.suffix_of_cons hsufb
  have hend := Cfg.after_of_suffix hn (Cfg.suffix_of_cons (Cfg.suffix_of_append hsufb))
  induction fuel generalizing σ rs b prev s with
  | zero => cases hrun
  | succ fuel ih =>
      have hs₃ : Scope cells (n + 3) := hs.mono (Nat.le_add_right n 3)
      rcases run_while hrun with ⟨hfalse, -, rfl, -⟩ | ⟨htrue, hround⟩
      · obtain ⟨s₁, hex, hr₁, hk⟩ := hc.branch (b := b) (k := .label (n + 1) ::
          (cb ++ .br n :: .label (n + 2) :: R)) hs₃ hr (by rw [hfalse]; rfl) hend
        exact .exec hex ((Keeps.of_agree hk).mono (Nat.le_add_right n 3)) (.here hr₁)
      · obtain ⟨s₁, hex, hr₁, hk⟩ := hc.branch (b := b) (k := .label (n + 1) ::
          (cb ++ .br n :: .label (n + 2) :: R)) hs₃ hr (by rw [htrue]; rfl) hwhile
        refine .exec hex ((Keeps.of_agree hk).mono (Nat.le_add_right n 3)) ?_
        exact hround.arrives hreg (hbody fuel (Nat.lt_succ_self _)) hb
          (hs.mono (by show n ≤ st₁.next; omega)) (by show n ≤ st₁.next; omega) hn hsufb hcond hr₁
          fun hrest hreg₂ b prev s hr => ih (fun f hf => hbody f (Nat.lt_succ_of_lt hf)) hrest
            hreg₂ hr

/-- A `loop` from behind its label. -/
theorem loop_arrives {body : Stmt ι F} {cb P R : Code F} {st₂ : Builder} {b prev : Nat}
    {s : State Word W} (hbody : ∀ f < fuel, Sound I f body)
    (hrun : run I fuel (.loop body) σ = some (.normal, σ', rs)) (hreg : ∀ r ∈ rs, r.Regular)
    (hb : walk cells (⟨n, n + 1⟩ :: controls) body ⟨n + 2, n⟩ = some ((), cb, st₂))
    (hs : Scope cells n) (hn : (labels P).Nodup)
    (hsuf : .label n :: (cb ++ .br n :: .label (n + 1) :: R) <:+ P) (hr : Rel cells σ s) :
    Arrives I cells n P ⟨cb ++ .br n :: .label (n + 1) :: R, b, prev, s⟩ R σ' := by
  have hcond := Cfg.after_of_suffix hn hsuf
  induction fuel generalizing σ rs b prev s with
  | zero => cases hrun
  | succ fuel ih =>
      exact (run_loop hrun).arrives hreg (hbody fuel (Nat.lt_succ_self _)) hb
        (hs.mono (Nat.le_add_right n 2)) (Nat.le_add_right n 2) hn (Cfg.suffix_of_cons hsuf) hcond
        hr fun hrest hreg₂ b prev s hr =>
          ih (fun f hf => hbody f (Nat.lt_succ_of_lt hf)) hrest hreg₂ hr

/-- **The rounds of a `for`** are those of the values that are left. -/
theorem ForIn.visits {r : Range} {x : ι} {m k condbb loopbb outbb b prev : Nat} {endcond : Val Word}
    {cb P R : Code F} {s : State Word W} {v : Int} {done : Bool} {body : Stmt ι F}
    (h : ForIn P cells r.type r.inclusive m endcond condbb loopbb outbb cb R)
    (hbody : Sound I fuel body)
    (hb : walk (Function.update cells x (m + 1)) (⟨condbb, outbb⟩ :: controls) body
      ⟨m + 6, loopbb⟩ = some ((), cb, st'))
    (hrun : visits (run I fuel body) x (Range.wordsFrom r.type.width v k) σ = some (done, σ', rs))
    (hreg : ∀ r ∈ rs, r.Regular) (hdone : done = true → r.Regular)
    (hk : k = (r.behind - v).toNat) (hlow : wordValue r.type.signed r.start ≤ v)
    (hv : v < wordBound r.type.signed r.type.width ∨ v = r.behind)
    (hh : ForHead I cells m endcond σ (BitVec.ofInt r.type.width v) r.fin s) :
    Arrives I cells m P
      ⟨forRest r.type r.inclusive m endcond condbb loopbb outbb cb R, b, prev, s⟩ R σ' := by
  have hbehind : r.behind ≤ wordBound r.type.signed r.type.width := by
    have := wordValue_lt_wordBound (s := r.type.signed) (x := r.fin)
    rw [Range.behind]
    split <;> omega
  induction k generalizing v σ rs s b prev with
  | zero =>
      cases hrun
      have hbound : v < wordBound r.type.signed r.type.width := by
        rcases hv with hv | rfl
        · exact hv
        · exact hdone rfl
      refine h.leave hh ?_
      rw [← Bool.not_eq_true, auxCreateCompareValueFor_iff r hlow hbound]
      omega
  | succ k ih =>
      have htest := (auxCreateCompareValueFor_iff r hlow (by omega)).mpr (by omega)
      obtain ⟨o₁, σ₁, rs₁, hrun₁, hnext⟩ := visits_cons hrun
      have hreg₁ : ∀ r ∈ rs₁, r.Regular := by
        rcases hnext with ⟨-, -, -, rfl⟩ | ⟨-, rs₂, -, rfl⟩
        · exact hreg
        · intro r hmem
          exact hreg r (List.mem_append_left _ hmem)
      have hgoes := hbody hrun₁ hreg₁ hb ((h.scope.update x (Nat.le_succ m)).mono (by
        show m + 1 + 1 ≤ m + 6
        omega))
      obtain ⟨b', prev', s', hex, hh', hkeep⟩ := h.round hh htest hgoes b prev
      rcases hnext with ⟨rfl, -, rfl, rfl⟩ | ⟨hne, rs₂, hrest, rfl⟩
      · exact ⟨b', prev', s', hex, hh'.rel, hkeep⟩
      · rw [if_neg hne] at hex
        have hsucc : BitVec.ofInt r.type.width v + 1 = BitVec.ofInt r.type.width (v + 1) := by
          rw [BitVec.ofInt_add]
          rfl
        rw [hsucc] at hh'
        exact .exec hex hkeep (ih hrest (fun r hmem => hreg r (List.mem_append_right _ hmem))
          (by omega) (by omega) (by omega) hh')

/-! ### Statements -/

/-- **The run of a statement is the run of its code**, where all the ranges that were visited to
their end have an end in their type. -/
theorem walk_sound (I : Interp F W) (fuel : Nat) (s : Stmt ι F) : Sound I fuel s := by
  induction fuel using Nat.strongRecOn generalizing s with
  | ind fuel ih =>
  intro σ o σ' rs hrun hreg cells controls st c st' hwalk hs P R b prev s₀ hn hsuf hr hcontrols
  cases fuel with
  | zero => cases hrun
  | succ fuel =>
  cases s with
  | skip =>
      cases hrun
      cases hwalk
      exact ⟨R, rfl, .here hr⟩
  | seq s t =>
      obtain ⟨c₁, st₁, c₂, h₁, h₂, rfl⟩ := walk_seq hwalk
      have hle := (walk_fresh s h₁).le
      rw [List.append_assoc] at hsuf ⊢
      rcases run_seq hrun with ⟨hne, hrun₁⟩ | ⟨σ₁, rs₁, rs₂, hrun₁, hrun₂, rfl⟩
      · obtain ⟨R', hR', harr⟩ := ih fuel (Nat.lt_succ_self _) s hrun₁ hreg h₁ hs P _ b prev s₀ hn
          hsuf hr hcontrols
        refine ⟨R', ?_, harr⟩
        cases o with
        | normal => exact absurd rfl hne
        | «break» | «continue» => exact hR'
      · obtain ⟨_, rfl, b₁, prev₁, s₁, hex, hr₁, hk₁⟩ := ih fuel (Nat.lt_succ_self _) s hrun₁
          (fun r hmem => hreg r (List.mem_append_left _ hmem)) h₁ hs P _ b prev s₀ hn hsuf hr
          hcontrols
        obtain ⟨R', hR', harr⟩ := ih fuel (Nat.lt_succ_self _) t hrun₂
          (fun r hmem => hreg r (List.mem_append_right _ hmem)) h₂ (hs.mono hle) P R b₁ prev₁ s₁ hn
          (Cfg.suffix_of_append hsuf) hr₁ hcontrols
        exact ⟨R', hR', .exec hex hk₁ (harr.mono hle)⟩
  | expr e =>
      cases hrun
      obtain ⟨v, hv⟩ := walk_expr hwalk
      exact ⟨R, rfl,
        .expr (Computes.of_walkExpr hv) hs (Nat.le_refl _) hr fun s₁ hr₁ _ => .here hr₁⟩
  | assign x e =>
      cases hrun
      obtain ⟨v, c₁, hv, rfl⟩ := walk_assign hwalk
      rw [List.append_assoc]
      refine ⟨R, rfl, .expr (Computes.of_walkExpr hv) hs (Nat.le_refl _) hr ?_⟩
      intro s₁ hr₁ hval
      refine ⟨b, prev, s₁.setCell (cells x) (v.eval (machine I) s₁), .single rfl, ?_, fun k hk =>
        ⟨rfl, fun hx => Function.update_of_ne (Ne.symm (hx x)) _ _⟩⟩
      rw [hval]
      exact hr₁.bind hs x _
  | ifThen cond body =>
      obtain ⟨v, cc, st₁, cb, st₂, hv, hb, rfl, rfl⟩ := walk_ifThen hwalk
      have hc := Computes.of_walkExpr hv
      have hs₃ : Scope cells (st.next + 3) := hs.mono (Nat.le_add_right _ 3)
      have hle : st.next + 3 ≤ st₁.next := hc.plain.le
      have hle' : st.next ≤ st₁.next := by omega
      simp only [List.append_assoc, List.cons_append, List.nil_append] at hsuf ⊢
      have hsufc := Cfg.suffix_of_cons (Cfg.suffix_of_append hsuf)
      have hcond := Cfg.after_of_suffix hn hsufc
      have hsufb := Cfg.suffix_of_cons (Cfg.suffix_of_cons hsufc)
      have hbody := Cfg.after_of_suffix hn hsufb
      replace hsufb := Cfg.suffix_of_cons hsufb
      have hout := Cfg.after_of_suffix hn (Cfg.suffix_of_cons (Cfg.suffix_of_append hsufb))
      cases htruth : truth (cond.eval I σ).1 with
      | true =>
          have hrun' : run I fuel body (cond.eval I σ).2 = some (o, σ', rs) := by
            simpa only [run, if_pos htruth] using hrun
          obtain ⟨s₁, hex, hr₁, hk⟩ := hc.branch hs₃ hr (by rw [htruth]; rfl) hbody
          have hgoes := ih fuel (Nat.lt_succ_self _) body hrun' hreg hb (hs.mono hle')
          obtain ⟨R', hR', harr⟩ := hgoes.jump (st.next + 2) b hn hsufb hout hr₁ hcontrols
          exact ⟨R', hR', .exec hex ((Keeps.of_agree hk).mono (Nat.le_add_right _ 3))
            (harr.mono hle')⟩
      | false =>
          simp only [run, htruth, Bool.false_eq_true, if_false] at hrun
          cases hrun
          obtain ⟨s₁, hex, hr₁, hk⟩ := hc.branch hs₃ hr (by rw [htruth]; rfl) hcond
          exact ⟨R, rfl, .exec hex ((Keeps.of_agree hk).mono (Nat.le_add_right _ 3))
            (.br hout (.here hr₁))⟩
  | ifElse cond body remain =>
      obtain ⟨v, cc, st₁, cb, st₂, cr, st₃, hv, hb, hrem, rfl, rfl⟩ := walk_ifElse hwalk
      have hc := Computes.of_walkExpr hv
      have hs₄ : Scope cells (st.next + 4) := hs.mono (Nat.le_add_right _ 4)
      have hle : st.next + 4 ≤ st₁.next := hc.plain.le
      have hle' : st.next ≤ st₁.next := by omega
      have hle₂ : st₁.next ≤ st₂.next := (walk_fresh body hb).le
      simp only [List.append_assoc, List.cons_append, List.nil_append] at hsuf ⊢
      have hsufc := Cfg.suffix_of_cons (Cfg.suffix_of_append hsuf)
      have hcond := Cfg.after_of_suffix hn hsufc
      have hsufb := Cfg.suffix_of_cons (Cfg.suffix_of_cons hsufc)
      have hbody := Cfg.after_of_suffix hn hsufb
      replace hsufb := Cfg.suffix_of_cons hsufb
      have hsufr := Cfg.suffix_of_cons (Cfg.suffix_of_append hsufb)
      have hremain := Cfg.after_of_suffix hn hsufr
      replace hsufr := Cfg.suffix_of_cons hsufr
      have hout := Cfg.after_of_suffix hn (Cfg.suffix_of_cons (Cfg.suffix_of_append hsufr))
      cases htruth : truth (cond.eval I σ).1 with
      | true =>
          have hrun' : run I fuel body (cond.eval I σ).2 = some (o, σ', rs) := by
            simpa only [run, if_pos htruth] using hrun
          obtain ⟨s₁, hex, hr₁, hk⟩ := hc.branch hs₄ hr (by rw [htruth]; rfl) hbody
          have hgoes := ih fuel (Nat.lt_succ_self _) body hrun' hreg hb (hs.mono hle')
          obtain ⟨R', hR', harr⟩ := hgoes.jump (st.next + 2) b hn hsufb hout hr₁ hcontrols
          exact ⟨R', hR', .exec hex ((Keeps.of_agree hk).mono (Nat.le_add_right _ 4))
            (harr.mono hle')⟩
      | false =>
          have hrun' : run I fuel remain (cond.eval I σ).2 = some (o, σ', rs) := by
            simpa only [run, htruth, Bool.false_eq_true, if_false] using hrun
          obtain ⟨s₁, hex, hr₁, hk⟩ := hc.branch hs₄ hr (by rw [htruth]; rfl) hcond
          have hgoes := ih fuel (Nat.lt_succ_self _) remain hrun' hreg hrem
            (hs.mono (Nat.le_trans hle' hle₂))
          obtain ⟨R', hR', harr⟩ :=
            hgoes.jump (st.next + 3) (st.next + 1) hn hsufr hout hr₁ hcontrols
          exact ⟨R', hR', .exec hex ((Keeps.of_agree hk).mono (Nat.le_add_right _ 4))
            (.br hremain (harr.mono (Nat.le_trans hle' hle₂)))⟩
  | «while» cond body =>
      obtain ⟨v, cc, st₁, cb, st₂, hv, hb, rfl, rfl⟩ := walk_while hwalk
      simp only [List.append_assoc, List.cons_append, List.nil_append] at hsuf ⊢
      obtain rfl := run_while_flow hrun
      have hsufc := Cfg.suffix_of_cons hsuf
      exact ⟨R, rfl, .br (Cfg.after_of_suffix hn hsufc)
        (while_arrives (fun f hf => ih f hf body) hrun hreg hv hb hs hn hsufc hr)⟩
  | loop body =>
      obtain ⟨cb, st₂, hb, rfl, rfl⟩ := walk_loop hwalk
      simp only [List.append_assoc, List.cons_append, List.nil_append] at hsuf ⊢
      obtain rfl := run_loop_flow hrun
      have hsufb := Cfg.suffix_of_cons hsuf
      exact ⟨R, rfl, .br (Cfg.after_of_suffix hn hsufb)
        (loop_arrives (fun f hf => ih f hf body) hrun hreg hb hs hn hsufb hr)⟩
  | «for» x type start fin inclusive body =>
      obtain ⟨begincond, endcond, cr, st₁, cb, st₂, hv, hb, rfl, rfl⟩ := walk_for hwalk
      have hc := ComputesBounds.of_walkBounds hv
      have hle : st.next + 3 ≤ st₁.next := hc.plain.le
      obtain ⟨a, e, done, rs', ha, he, hvisits, rfl, rfl⟩ := run_for hrun
      simp only [List.append_assoc, List.cons_append, List.nil_append] at hsuf ⊢
      have hsufc := Cfg.suffix_of_cons (Cfg.suffix_of_cons (Cfg.suffix_of_append hsuf))
      have hin : ForIn P cells type inclusive st₁.next endcond st.next (st.next + 1) (st.next + 2)
          cb R := ⟨hn, hsufc, hs.mono (by omega), hc.below'⟩
      obtain ⟨s₁, hex, hhead, hk⟩ := hc.enter (hs.mono (Nat.le_add_right _ 3)) hr
        ha he (Cfg.after_of_suffix hn hsufc)
      rw [← ofInt_wordValue type.signed a] at hhead
      have hreg' : (∀ r ∈ rs', r.Regular) ∧
          (done = true → (Range.mk type a e inclusive).Regular) := by
        cases done with
        | true =>
            exact ⟨fun r hmem => hreg r (List.mem_cons_of_mem _ hmem),
              fun _ => hreg _ List.mem_cons_self⟩
        | false => exact ⟨hreg, Bool.noConfusion⟩
      exact ⟨R, rfl, .exec hex ((Keeps.of_agree hk).mono (Nat.le_add_right _ 3))
        ((hin.visits (r := ⟨type, a, e, inclusive⟩) (ih fuel (Nat.lt_succ_self _) body) hb hvisits
          hreg'.1 hreg'.2 rfl (Int.le_refl _) (.inl wordValue_lt_wordBound) hhead).mono (by omega))⟩
  | «break» =>
      cases hrun
      obtain ⟨control, hmem, rfl, rfl⟩ := walkJump_eq hwalk
      obtain ⟨⟨R', hR'⟩, -⟩ := hcontrols control hmem
      exact ⟨R', ⟨control, hmem, hR'⟩, .br hR' (.here hr)⟩
  | «continue» =>
      cases hrun
      obtain ⟨control, hmem, rfl, rfl⟩ := walkJump_eq hwalk
      obtain ⟨-, R', hR'⟩ := hcontrols control hmem
      exact ⟨R', ⟨control, hmem, hR'⟩, .br hR' (.here hr)⟩

end CaLang.Loops

import CaLang.Lib.Cfg
import Mathlib.Data.List.Infix

/-! # Runs through code with loops

Runs in one whole code, for fragments that are left through jumps as well as at their end.  **The
code that is left is an end of the whole code**, so a fragment is known by what stands behind it,
and a jump by what stands behind its label.
-/

namespace CaLang.Cfg

variable {K Op V W : Type} {M : Machine K Op V W} {P R c c' : Code K Op} {b : Nat}

/-! ### Ends of code -/

theorem suffix_of_append (h : c ++ R <:+ P) : R <:+ P := (List.suffix_append c R).trans h

theorem suffix_of_cons {i : Instr K Op} (h : i :: R <:+ P) : R <:+ P :=
  (List.suffix_cons i R).trans h

/-- What stands behind a label is found by a jump. -/
theorem after_of_suffix (hn : (labels P).Nodup) (h : .label b :: R <:+ P) : after b P = some R := by
  obtain ⟨p, rfl⟩ := h
  refine after_append ?_ R
  rw [labels_append, List.nodup_append] at hn
  intro hmem
  exact hn.2.2 b hmem b List.mem_cons_self rfl

/-! ### Labels that are new -/

/-- The labels of code that a builder adds are new, and no two of them are the same. -/
structure Fresh (st : Builder) (c : Code K Op) (st' : Builder) : Prop where
  le : st.next ≤ st'.next
  labels_mem : ∀ b ∈ labels c, st.next ≤ b ∧ b < st'.next
  nodup : (labels c).Nodup

namespace Fresh

variable {st st' st₁ st₂ : Builder}

theorem plain (h : ∀ i ∈ c, i.plain = true) (hle : st.next ≤ st'.next) : Fresh st c st' := by
  obtain ⟨hl, -⟩ := plain_code h 0
  refine ⟨hle, ?_, ?_⟩
  · rw [hl]
    exact nofun
  · rw [hl]
    exact List.nodup_nil

theorem append (h : Fresh st c st₁) (h' : Fresh st₂ c' st') (hle : st₁.next ≤ st₂.next) :
    Fresh st (c ++ c') st' where
  le := Nat.le_trans h.le (Nat.le_trans hle h'.le)
  labels_mem b hb := by
    have := h.le
    have := h'.le
    rw [labels_append, List.mem_append] at hb
    rcases hb with hb | hb
    · have := h.labels_mem b hb
      omega
    · have := h'.labels_mem b hb
      omega
  nodup := by
    rw [labels_append]
    apply h.nodup.append h'.nodup
    intro b hb hb'
    have := h.labels_mem b hb
    have := h'.labels_mem b hb'
    omega

/-- Code with labels that were made before it. -/
theorem around (ls : List Nat) (h : Fresh st₁ c st₂) (hle : st.next ≤ st₁.next)
    (hle' : st₂.next ≤ st'.next) (hls : ∀ b ∈ ls, st.next ≤ b ∧ b < st₁.next) (hn : ls.Nodup)
    (hp : (labels c').Perm (ls ++ labels c)) : Fresh st c' st' where
  le := Nat.le_trans hle (Nat.le_trans h.le hle')
  labels_mem b hb := by
    have := h.le
    rcases List.mem_append.mp (hp.mem_iff.mp hb) with hb | hb
    · have := hls b hb
      omega
    · have := h.labels_mem b hb
      omega
  nodup := by
    refine hp.nodup_iff.mpr (hn.append h.nodup ?_)
    intro b hb hb'
    have := hls b hb
    have := h.labels_mem b hb'
    omega

end Fresh

/-! ### Plain instructions -/

/-- What a plain instruction does to a state. -/
def Instr.effect (M : Machine K Op V W) (s : State V W) : Instr K Op → State V W
  | .load r x => s.setReg r (s.cells x)
  | .store x v => s.setCell x (v.eval M s)
  | .copy x y => s.setCell x (s.cells y)
  | .op r o vs =>
      let res := M.op o (vs.map (·.eval M s)) s.world
      { s.setReg r res.1 with world := res.2 }
  | _ => s

/-- What plain code does to a state. -/
def effect (M : Machine K Op V W) (s : State V W) (c : Code K Op) : State V W :=
  c.foldl (fun s i => i.effect M s) s

@[simp] theorem effect_nil (s : State V W) : effect M s [] = s := rfl

@[simp] theorem effect_cons (s : State V W) (i : Instr K Op) :
    effect M s (i :: c) = effect M (i.effect M s) c := rfl

theorem effect_append (s : State V W) : effect M s (c ++ c') = effect M (effect M s c) c' :=
  List.foldl_append

/-- **Plain code is run through.** -/
theorem exec_plain (h : ∀ i ∈ c, i.plain = true) (R : Code K Op) (b prev : Nat) (s : State V W) :
    Exec M P ⟨c ++ R, b, prev, s⟩ ⟨R, b, prev, effect M s c⟩ := by
  induction c generalizing s with
  | nil => exact .refl
  | cons i c ih =>
      have hi := h i List.mem_cons_self
      refine .head ?_ (ih (fun j hj => h j (List.mem_cons_of_mem _ hj)) (i.effect M s))
      cases i with
      | load | store | copy | op => rfl
      | _ => cases hi

/-! ### Jumps -/

variable {v : Val K} {s : State V W} {cur prev t e d : Nat} {k : Code K Op}

theorem exec_br (h : after t P = some R) :
    Exec M P ⟨.br t :: k, cur, prev, s⟩ ⟨R, t, cur, s⟩ := by
  refine .single ?_
  show jump P _ t = _
  rw [jump, h]
  rfl

theorem exec_condbr (hd : (if M.istrue (v.eval M s) then t else e) = d) (h : after d P = some R) :
    Exec M P ⟨.condbr v t e :: k, cur, prev, s⟩ ⟨R, d, cur, s⟩ := by
  refine .single ?_
  show jump P _ (if M.istrue (v.eval M s) then t else e) = _
  rw [hd, jump, h]
  rfl

/-! ### Runs that are compared -/

/-- Of two runs from one place one goes on from the end of the other. -/
theorem Exec.comparable {x y z : Config K Op V W} (hy : Exec M P x y) (hz : Exec M P x z) :
    Exec M P y z ∨ Exec M P z y := by
  induction hy with
  | refl => exact .inl hz
  | tail _ hstep ih =>
      rcases ih with h | h
      · rcases Relation.ReflTransGen.cases_head h with rfl | ⟨w, hw, hrest⟩
        · exact .inr (.single hstep)
        · obtain rfl := Option.some.inj (hstep.symm.trans hw)
          exact .inl hrest
      · exact .inr (h.tail hstep)

/-- What no operation lets sink grows along a run. -/
theorem Exec.world_mono {f : W → Nat} (hop : ∀ o vs w, f w ≤ f (M.op o vs w).2)
    {x y : Config K Op V W} (h : Exec M P x y) : f x.state.world ≤ f y.state.world := by
  induction h with
  | refl => exact Nat.le_refl _
  | @tail y z _ hstep ih =>
      refine Nat.le_trans ih ?_
      obtain ⟨rest, cur, prev, s⟩ := y
      have hjump (b : Nat) (h : jump P ⟨rest, cur, prev, s⟩ b = some z) :
          f s.world ≤ f z.state.world := by
        obtain ⟨R, -, rfl⟩ := Option.map_eq_some_iff.mp h
        exact Nat.le_refl _
      match rest, hstep with
      | .br b :: _, h => exact hjump b h
      | .condbr v b b' :: _, h => exact hjump _ h
      | .phi r v b v' b' :: rest, h =>
          simp only [step] at h
          split at h
          · cases h; exact Nat.le_refl _
          · split at h
            · cases h; exact Nat.le_refl _
            · cases h
      | .load r x :: rest, h => cases h; exact Nat.le_refl _
      | .store x v :: rest, h => cases h; exact Nat.le_refl _
      | .copy x y :: rest, h => cases h; exact Nat.le_refl _
      | .op r o vs :: rest, h => cases h; exact hop o _ _

end CaLang.Cfg

import CaLang.Loops.Sound

/-! # Loops over ranges visit exactly the range

**A program runs as it means if none of the ranges that it visits to their end is closed and ends
in the greatest value of its type**, and only then: such a loop has no end, since the index that
follows the greatest value is not greater.
-/

namespace CaLang.Loops

open Instr
open Addresses (IntType)
open Cfg (Build Machine Val Builder State Exec effect labels after)

/-! ### Programs -/

/-- **The code of every program runs as the program does**, if it visits only the given ranges to
their end. -/
def ExactOn (ranges : Set Range) : Prop :=
  ∀ ⦃ι F W : Type⦄ [DecidableEq ι] (I : Interp F W) (s : Stmt ι F) (fuel : Nat) (σ σ' : Store ι W)
    (rs : List Range), run I fuel s σ = some (.normal, σ', rs) → (∀ r ∈ rs, r ∈ ranges) →
    ∀ (cells : Cells ι) (st st' : Builder) (c : Code F), walk cells [] s st = some ((), c, st') →
      Scope cells st.next → ∀ s₀ : State Word W, Rel cells σ s₀ →
      ∃ b prev s', Exec (machine I) c ⟨c, st.block, 0, s₀⟩ ⟨[], b, prev, s'⟩ ∧ Rel cells σ' s'

theorem exactOn_of_regular {ranges : Set Range} (h : ∀ r ∈ ranges, r.Regular) : ExactOn ranges := by
  intro ι F W _ I s fuel σ σ' rs hrun hrs cells st st' c hwalk hs s₀ hr
  have hgoes := walk_sound I fuel s hrun (fun r hmem => h r (hrs r hmem)) hwalk hs
  obtain ⟨_, rfl, b, prev, s', hex, hr', -⟩ := hgoes c [] st.block 0 s₀ (walk_fresh s hwalk).nodup
    (by rw [List.append_nil]) hr nofun
  rw [List.append_nil] at hex
  exact ⟨b, prev, s', hex, hr'⟩

/-! ### A loop without an end -/

/-- Expressions that yield a word, and one that counts. -/
inductive Count
  | word (v : Word)
  | tick

def count : Interp Count Nat
  | .word v, _, n => (v, n)
  | .tick, _, n => (⟨0, 0⟩, n + 1)

/-- A loop over a range that counts its rounds. -/
def counting (r : Range) : Stmt Unit Count :=
  .for () r.type ⟨.word ⟨r.type.width, r.start⟩, []⟩ ⟨.word ⟨r.type.width, r.fin⟩, []⟩ r.inclusive
    (.expr ⟨.tick, []⟩)

variable {r : Range} {σ : Store Unit Nat}

theorem run_tick (σ : Store Unit Nat) (fuel : Nat) :
    run count (fuel + 1) (.expr ⟨.tick, []⟩) σ = some (.normal, ⟨σ.vars, σ.world + 1⟩, []) := rfl

theorem visits_tick (vs : List Word) (σ : Store Unit Nat) (fuel : Nat) :
    visits (run count (fuel + 1) (.expr ⟨.tick, []⟩)) () vs σ =
      some (true, ⟨σ.vars, σ.world + vs.length⟩, []) := by
  induction vs generalizing σ with
  | nil => rfl
  | cons v vs ih =>
      have hvars : Function.update (Function.update σ.vars () v) () (σ.vars ()) = σ.vars := by
        rw [Function.update_idem, Function.update_eq_self]
      rw [visits, run_tick]
      simp only [Store.bind, hvars, ih, List.length_cons, Option.map_some, List.append_nil]
      congr 4
      omega

theorem length_wordsFrom (w : Nat) (v : Int) (n : Nat) : (Range.wordsFrom w v n).length = n := by
  induction n generalizing v with
  | zero => rfl
  | succ n ih => exact congrArg Nat.succ (ih (v + 1))

/-- Each value is counted once. -/
theorem run_counting (r : Range) (σ : Store Unit Nat) :
    run count 2 (counting r) σ = some (.normal, ⟨σ.vars, σ.world + r.size⟩, [r]) := by
  rw [counting, run]
  simp only [Expr.eval, count, and_self, if_true, BitVec.setWidth_eq, visits_tick, Range.words,
    length_wordsFrom, Option.map_some]

theorem walk_counting (r : Range) (cells : Cells Unit) (st : Builder) :
    ∃ c st', walk cells [] (counting r) st = some ((), c, st') := by
  obtain ⟨v, v', cr, st₁, hbounds, -⟩ := walkBounds_spec cells ⟨Count.word ⟨_, r.start⟩, []⟩
    ⟨Count.word ⟨_, r.fin⟩, []⟩ ⟨st.next + 3, st.block⟩
  obtain ⟨v₂, cb, st₂, hbody, -⟩ := walkExpr_spec (Function.update cells () (st₁.next + 1))
    ⟨Count.tick, []⟩ ⟨st₁.next + 6, st.next + 1⟩
  have hwalk : walk (Function.update cells () (st₁.next + 1)) [⟨st.next, st.next + 2⟩]
      (.expr ⟨Count.tick, []⟩) ⟨st₁.next + 6, st.next + 1⟩ = some ((), cb, st₂) := by
    rw [walk, Build.bind_of_some hbody]
    simp [Build.prepend]
  rw [counting, walk]
  simp [Build.bind_of_some hbounds, Build.bind_of_some hwalk, Build.prepend, Build.setInsertPoint]

/-- Where there is no integer behind the range in its type, the test never fails. -/
theorem test_eq_true (h : ¬r.Regular) (i : BitVec r.type.width) :
    (auxCreateCompareValueFor r.type r.inclusive).eval i r.fin = true := by
  have hi := wordValue_lt_wordBound (s := r.type.signed) (x := i)
  have hfin := wordValue_lt_wordBound (s := r.type.signed) (x := r.fin)
  rw [Range.Regular, Range.behind] at h
  cases hinc : r.inclusive with
  | false =>
      rw [hinc, if_neg Bool.false_ne_true] at h
      omega
  | true =>
      rw [hinc, if_pos rfl] at h
      rw [auxCreateCompareValueFor_eval, if_pos rfl, Bool.not_eq_true', ← Bool.not_eq_true,
        ← wordValue_lt]
      omega

/-- **The loop goes on forever**: it counts to every number. -/
theorem ForIn.forever {P cb R : Code Count} {cells : Cells Unit}
    {m condbb loopbb outbb b prev : Nat} {endcond : Val Word} {st' : Builder}
    {s : State Word Nat} {i : BitVec r.type.width}
    (h : ForIn P cells r.type r.inclusive m endcond condbb loopbb outbb cb R) (hr : ¬r.Regular)
    (hb : walk (Function.update cells () (m + 1)) [⟨condbb, outbb⟩] (.expr ⟨.tick, []⟩)
      ⟨m + 6, loopbb⟩ = some ((), cb, st'))
    (hh : ForHead count cells m endcond σ i r.fin s) (n : Nat) :
    ∃ b' prev' s', Exec (machine count) P
      ⟨forRest r.type r.inclusive m endcond condbb loopbb outbb cb R, b, prev, s⟩
      ⟨forRest r.type r.inclusive m endcond condbb loopbb outbb cb R, b', prev', s'⟩ ∧
      s'.world = s.world + n := by
  induction n generalizing σ i b prev s with
  | zero => exact ⟨b, prev, s, .refl, rfl⟩
  | succ n ih =>
      have hgoes := walk_sound count 1 (.expr ⟨.tick, []⟩) (run_tick (σ.bind () ⟨_, i⟩) 0) nofun hb
        ((h.scope.update () (Nat.le_succ m)).mono (by
          show m + 1 + 1 ≤ m + 6
          omega))
      obtain ⟨b₁, prev₁, s₁, hex, hh₁, -⟩ := h.round hh (test_eq_true hr i) hgoes b prev
      obtain ⟨b', prev', s', hex', hw⟩ := ih (b := b₁) hh₁
      refine ⟨b', prev', s', hex.trans hex', ?_⟩
      rw [hw, hh₁.rel.world, hh.rel.world]
      show σ.world + 1 + n = _
      omega

theorem counting_forever {cells : Cells Unit} {st st' : Builder} {c : Code Count}
    {s : State Word Nat} (h : ¬r.Regular)
    (hwalk : walk cells [] (counting r) st = some ((), c, st')) (hs : Scope cells st.next)
    (hr : Rel cells σ s) (n : Nat) :
    ∃ y, Exec (machine count) c ⟨c, st.block, 0, s⟩ y ∧ y.rest ≠ [] ∧
      y.state.world = σ.world + n := by
  have hn := (walk_fresh _ hwalk).nodup
  obtain ⟨begincond, endcond, cr, st₁, cb, st₂, hv, hb, hcode, -⟩ := walk_for hwalk
  have hc := ComputesBounds.of_walkBounds hv
  have hle : st.next + 3 ≤ st₁.next := hc.plain.le
  have hsuf : .label st.next :: forRest r.type r.inclusive st₁.next endcond st.next (st.next + 1)
      (st.next + 2) cb [] <:+ c :=
    ⟨cr ++ [.store st₁.next begincond, .br st.next], by simp [hcode, forRest]⟩
  have hin : ForIn c cells r.type r.inclusive st₁.next endcond st.next (st.next + 1) (st.next + 2)
      cb [] := ⟨hn, hsuf, hs.mono (by omega), hc.below'⟩
  have hstart : ((⟨.word ⟨_, r.start⟩, []⟩ : Expr Unit Count).eval count σ).1 =
      ⟨r.type.width, r.start⟩ := rfl
  obtain ⟨s₁, hex₁, hhead, -⟩ := hc.enter (b := st.block) (e := r.fin)
    (hs.mono (Nat.le_add_right _ 3)) hr hstart rfl (Cfg.after_of_suffix hn hsuf)
  rw [← hcode] at hex₁
  obtain ⟨b₂, prev₂, s₂, hex₂, hw₂⟩ := hin.forever h hb hhead n
  refine ⟨_, hex₁.trans hex₂, List.cons_ne_nil _ _, ?_⟩
  rw [hw₂, hhead.rel.world]
  rfl

theorem le_world (o : Op Count) (vs : List Word) (n : Nat) : n ≤ ((machine count).op o vs n).2 := by
  simp only [machine]
  split
  · case _ f =>
      cases f with
      | word v => exact Nat.le_refl n
      | tick => exact Nat.le_succ n
  · exact Nat.le_refl _
  · exact Nat.le_refl _
  · exact Nat.le_refl _

/-- **A range that ends in the greatest value** is not visited exactly. -/
theorem regular_of_exactOn {ranges : Set Range} (h : ExactOn ranges) (hmem : r ∈ ranges) :
    r.Regular := by
  by_contra hr
  let σ : Store Unit Nat := ⟨fun _ => ⟨0, 0⟩, 0⟩
  let s₀ : State Word Nat := ⟨fun _ => ⟨0, 0⟩, fun _ => ⟨0, 0⟩, 0⟩
  have hs : Scope (fun _ : Unit => 0) 1 := ⟨fun _ _ _ => rfl, fun _ => Nat.one_pos⟩
  have hrel : Rel (fun _ : Unit => 0) σ s₀ := ⟨rfl, fun _ => rfl⟩
  obtain ⟨c, st', hwalk⟩ : ∃ c st', walk (fun _ => 0) [] (counting r) ⟨1, 0⟩ = some ((), c, st') :=
    walk_counting r _ _
  obtain ⟨b, prev, s', hex, hr'⟩ := h count (counting r) 2 σ _ [r] (run_counting r σ)
    (fun r' h' => by rwa [List.mem_singleton.mp h']) _ _ _ c hwalk hs s₀ hrel
  obtain ⟨y, hexy, hrest, hworld⟩ := counting_forever hr hwalk hs hrel (r.size + 1)
  have hend : s'.world = r.size := hr'.world.trans (Nat.zero_add _)
  -- what has counted further is not before the end, and the end is not before anything
  rcases hex.comparable hexy with hback | hback
  · rcases Relation.ReflTransGen.cases_head hback with rfl | ⟨z, hstep, -⟩
    · exact hrest rfl
    · cases hstep
  · have hle := hback.world_mono (f := id) le_world
    rw [id, id, hworld, hend] at hle
    show False
    have : σ.world = 0 := rfl
    omega

/-- `0..=255u8` -/
def allBytes : Range := ⟨⟨.u8, rfl⟩, 0, 255, true⟩

/-- The loop over all bytes has no end. -/
theorem allBytes_not_exactOn : ¬ExactOn {allBytes} := fun h =>
  absurd (regular_of_exactOn h rfl) (by decide)

/-- **Exactly the ranges with an end in their type** can be visited. -/
theorem exactOn_iff (ranges : Set Range) : ExactOn ranges ↔ ∀ r ∈ ranges, r.Regular :=
  ⟨fun h _ => regular_of_exactOn h, exactOn_of_regular⟩

end CaLang.Loops

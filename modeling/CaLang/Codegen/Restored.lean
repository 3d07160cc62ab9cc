import CaLang.Codegen.Visits

/-! # Where the context is restored

`Agrees m tx pl s`: the generator's context agrees with the text around a node and with what the
tree says of the place.  **By induction on the tree**, a node walked in such a state has only
visits that agree with the text iff it is settled, and then the state after it agrees again.  The
case of the argument is the function: it is put back by `endFn` iff the place allows it.
-/

namespace CaLang.Codegen

/-- The context in a function. -/
structure Inside (m : Option Main) (pl : Place) (fn : Fn) (node : FnNode) (s : State)
    (b : Block) : Prop where
  currFn : s.currFn = some fn
  currFnNode : s.currFnNode = some node
  withRetValue : s.withRetValue = pl.returned
  fn_lt : fn.id < s.next
  insertBlock : s.insertBlock = some b
  parent : s.parent b = some fn
  lt : b < s.next
  atMain : ∀ main, m = some main → pl.block = .mainBlock →
    b = main.bb ∧ fn = main.fn ∧ node = main.node
  notAtMain : ∀ main, m = some main → pl.block ≠ .mainBlock → b ≠ main.bb
  atLabel : ∀ l, s.labelMap l = some b ↔ pl.block = .labelBlock l

structure Agrees (m : Option Main) (tx : Text) (pl : Place) (s : State) : Prop where
  inFn : pl.inFn = tx.owner.isSome
  inLoop : pl.inLoop = !tx.loops.isEmpty
  loops : ∃ outer, s.loopControls = tx.loops ++ outer
  labelsOk : s.LabelsOk
  main : ∀ main, m = some main → main.bb < s.next ∧ ∀ l, s.labelMap l ≠ some main.bb
  outside : tx.owner = none → s.currFn = none ∧ m = none
  inside : ∀ fn node, tx.owner = some (fn, node) → ∃ b, Inside m pl fn node s b

/-- A block made that is neither the first one of the generated function nor that of a label. -/
structure Pending (m : Option Main) (s : State) (b : Block) : Prop where
  lt : b < s.next
  label : ∀ l, s.labelMap l ≠ some b
  main : ∀ main, m = some main → b ≠ main.bb

variable {m : Option Main} {tx : Text} {pl : Place} {s s' : State} {ls : List Id} {b bb : Block}

theorem Pending.walked (h : Pending m s b) (hw : Walked m ls s s') : Pending m s' b where
  lt := h.lt.trans_le hw.next_le
  label l hl := by
    rcases hw.labels_new l b hl with hl | hle
    · exact h.label l hl
    · exact absurd h.lt (Nat.not_lt.mpr hle)
  main := h.main

theorem Pending.enter (h : Pending m s b) : Pending m (s.enter bb) b := ⟨h.lt, h.label, h.main⟩

theorem Pending.pushLoop {l : LoopControlInfo} (h : Pending m s b) : Pending m (s.pushLoop l) b :=
  ⟨h.lt, h.label, h.main⟩

theorem Pending.popLoop (h : Pending m s b) : Pending m s.popLoop b := ⟨h.lt, h.label, h.main⟩

namespace Agrees

theorem pending (h : Agrees m tx pl s) {k n : Nat} (hk : k < n) :
    Pending m (s.genBb n) (s.next + k) where
  lt := Nat.add_lt_add_left hk _
  label l hl := absurd (h.labelsOk.lt l _ hl) (Nat.not_lt.mpr (Nat.le_add_right _ _))
  main main hm he :=
    absurd (h.main main hm).1 (Nat.not_lt.mpr (he ▸ Nat.le_add_right _ _))

theorem main_walked (h : Agrees m tx pl s) (hw : Walked m ls s s') (main : Main)
    (hm : m = some main) : main.bb < s'.next ∧ ∀ l, s'.labelMap l ≠ some main.bb := by
  refine ⟨(h.main main hm).1.trans_le hw.next_le, ?_⟩
  intro l hl
  rcases hw.labels_new l _ hl with hl | hle
  · exact (h.main main hm).2 l hl
  · exact absurd (h.main main hm).1 (Nat.not_lt.mpr hle)

/-- Outside of functions any walk leaves an agreeing state. -/
theorem walked_outside (h : Agrees m tx pl s) (ho : tx.owner = none) (hw : Walked m ls s s')
    (w : Where) (r : Bool) : Agrees m tx { pl with block := w, returned := r } s' where
  inFn := h.inFn
  inLoop := h.inLoop
  loops := hw.loops ▸ h.loops
  labelsOk := hw.labelsOk h.labelsOk
  main := h.main_walked hw
  outside _ := ⟨(hw.stack (h.outside ho).2).1.trans (h.outside ho).1, (h.outside ho).2⟩
  inside fn node he := by
    rw [ho] at he
    cases he

/-- A walk that leaves the context as it was. -/
theorem same (h : Agrees m tx pl s) (hw : Walked m ls s s')
    (hs : tx.owner ≠ none → SameContext s s') : Agrees m tx pl s' where
  inFn := h.inFn
  inLoop := h.inLoop
  loops := hw.loops ▸ h.loops
  labelsOk := hw.labelsOk h.labelsOk
  main := h.main_walked hw
  outside ho := ⟨(hw.stack (h.outside ho).2).1.trans (h.outside ho).1, (h.outside ho).2⟩
  inside fn node he := by
    have hs := hs (by rw [he]; exact Option.some_ne_none _)
    obtain ⟨b, hb⟩ := h.inside fn node he
    have hins := hs.insertBlock.trans hb.insertBlock
    refine ⟨b, hs.currFn.trans hb.currFn, hs.currFnNode.trans hb.currFnNode,
      hs.withRetValue.trans hb.withRetValue, hb.fn_lt.trans_le hw.next_le, hins, ?_,
      hb.lt.trans_le hw.next_le, hb.atMain, hb.notAtMain, fun l => ⟨?_, ?_⟩⟩
    · have hfn := hs.insertFn
      rw [hins, hb.insertBlock, Option.bind_some, Option.bind_some, hb.parent] at hfn
      exact hfn
    · intro hl
      rcases hw.labels_new l b hl with hl | hle
      · exact (hb.atLabel l).mp hl
      · exact absurd hb.lt (Nat.not_lt.mpr hle)
    · intro hl
      exact hw.labels_keep l b ((hb.atLabel l).mpr hl)

/-- Blocks are made, or code is emitted. -/
theorem genBb (h : Agrees m tx pl s) (n : Nat) : Agrees m tx pl (s.genBb n) :=
  h.same (.genBb n s) fun _ => ⟨rfl, rfl, rfl, rfl, rfl, rfl⟩

theorem emit (h : Agrees m tx pl s) (i : Instr) : Agrees m tx pl (s.emit i) :=
  h.same ((Walked.refl s).emit i) fun _ => ⟨rfl, rfl, rfl, rfl, rfl, rfl⟩

theorem reject (h : Agrees m tx pl s) (b : Bool) : Agrees m tx pl (s.reject b) :=
  h.same ((Walked.refl s).reject b) fun _ => ⟨rfl, rfl, rfl, rfl, rfl, rfl⟩

/-- A pending block is entered. -/
theorem enter (h : Agrees m tx pl s) (hb : Pending m s bb) :
    Agrees m tx pl.moved (s.enter bb) where
  inFn := h.inFn
  inLoop := h.inLoop
  loops := h.loops
  labelsOk := ⟨h.labelsOk.lt, h.labelsOk.inj⟩
  main := h.main
  outside := h.outside
  inside fn node he := by
    obtain ⟨b, hi⟩ := h.inside fn node he
    exact ⟨bb, hi.currFn, hi.currFnNode, hi.withRetValue, hi.fn_lt, rfl,
      (Function.update_self _ _ _).trans hi.currFn, hb.lt, fun _ _ hw => (nomatch hw),
      fun main hm _ => hb.main main hm,
      fun l => ⟨fun hl => absurd hl (hb.label l), fun hw => (nomatch hw)⟩⟩

theorem enterNew (h : Agrees m tx pl s) : Agrees m tx pl.moved s.enterNew :=
  (h.genBb 1).enter (h.pending (k := 0) Nat.one_pos)

theorem pushLoop (h : Agrees m tx pl s) (l : LoopControlInfo) :
    Agrees m { tx with loops := l :: tx.loops } { pl with inLoop := true } (s.pushLoop l) where
  inFn := h.inFn
  inLoop := rfl
  loops := by
    obtain ⟨outer, ho⟩ := h.loops
    exact ⟨outer, congrArg (l :: ·) ho⟩
  labelsOk := ⟨h.labelsOk.lt, h.labelsOk.inj⟩
  main := h.main
  outside := h.outside
  inside fn node he := by
    obtain ⟨b, hb⟩ := h.inside fn node he
    exact ⟨b, { hb with }⟩

theorem popLoop {l : LoopControlInfo}
    (h : Agrees m { tx with loops := l :: tx.loops } pl s) :
    Agrees m tx { pl with inLoop := !tx.loops.isEmpty } s.popLoop where
  inFn := h.inFn
  inLoop := rfl
  loops := by
    obtain ⟨outer, ho⟩ := h.loops
    exact ⟨outer, congrArg List.tail ho⟩
  labelsOk := ⟨h.labelsOk.lt, h.labelsOk.inj⟩
  main := h.main
  outside := h.outside
  inside fn node he := by
    obtain ⟨b, hb⟩ := h.inside fn node he
    exact ⟨b, { hb with }⟩

theorem withRet (h : Agrees m tx pl s) :
    Agrees m tx { pl with returned := true } { s with withRetValue := true } where
  inFn := h.inFn
  inLoop := h.inLoop
  loops := h.loops
  labelsOk := ⟨h.labelsOk.lt, h.labelsOk.inj⟩
  main := h.main
  outside := h.outside
  inside fn node he := by
    obtain ⟨b, hb⟩ := h.inside fn node he
    exact ⟨b, { hb with withRetValue := rfl }⟩

theorem labelBlock (h : Agrees m tx pl s) (name : Id) :
    Agrees m tx pl (s.labelBlock name).2 := by
  apply h.same (.labelBlock name s)
  intro _
  unfold State.labelBlock
  cases s.labelMap name with
  | some bb => exact ⟨rfl, rfl, rfl, rfl, rfl, rfl⟩
  | none => exact ⟨rfl, rfl, rfl, rfl, rfl, rfl⟩

/-- The block of a label is entered. -/
theorem enterLabel {name : Id} (h : Agrees m tx pl s) (hbb : s.labelMap name = some bb) :
    Agrees m tx { pl with block := .labelBlock name } (s.enter bb) where
  inFn := h.inFn
  inLoop := h.inLoop
  loops := h.loops
  labelsOk := ⟨h.labelsOk.lt, h.labelsOk.inj⟩
  main := h.main
  outside := h.outside
  inside fn node he := by
    obtain ⟨b, hi⟩ := h.inside fn node he
    refine ⟨bb, hi.currFn, hi.currFnNode, hi.withRetValue, hi.fn_lt, rfl,
      (Function.update_self _ _ _).trans hi.currFn, h.labelsOk.lt name bb hbb,
      fun _ _ hw => (nomatch hw), ?_, fun l => ⟨?_, ?_⟩⟩
    · intro main hm _ he
      exact (h.main main hm).2 name (he ▸ hbb)
    · intro hl
      exact congrArg Where.labelBlock (h.labelsOk.inj name l bb hbb hl)
    · intro hw
      cases hw
      exact hbb

theorem walkLabel (h : Agrees m tx pl s) (name : Id) :
    Agrees m tx { pl with block := .labelBlock name } (s.walkLabel name) := by
  cases ho : tx.owner with
  | none => exact h.walked_outside ho (.walkLabel name s) _ pl.returned
  | some o =>
      obtain ⟨b, hb⟩ := h.inside o.1 o.2 ho
      unfold State.walkLabel
      rw [hb.currFn]
      exact (h.labelBlock name).enterLabel (Walked.labelBlock_spec name s)

theorem walkLabelGoto (h : Agrees m tx pl s) (name : Id) :
    Agrees m tx pl.moved (s.walkLabelGoto name) := by
  cases ho : tx.owner with
  | none => exact h.walked_outside ho (.walkLabelGoto name s) _ pl.returned
  | some o =>
      obtain ⟨b, hb⟩ := h.inside o.1 o.2 ho
      unfold State.walkLabelGoto
      rw [hb.currFn]
      exact (h.labelBlock name).enterNew

theorem walkBreak (h : Agrees m tx pl s) : Agrees m tx pl.moved s.walkBreak := by
  unfold State.walkBreak
  cases s.loopControls.head? with
  | none => exact h.enterNew
  | some l => exact (h.emit _).enterNew

theorem walkContinue (h : Agrees m tx pl s) : Agrees m tx pl.moved s.walkContinue := by
  unfold State.walkContinue
  cases s.loopControls.head? with
  | none => exact h.enterNew
  | some l => exact (h.emit _).enterNew

theorem walkRetEnd (h : Agrees m tx pl s) {retbb : Option Block}
    (hr : tx.owner ≠ none → retbb ≠ none) :
    Agrees m tx { pl.moved with returned := true } (s.walkRetEnd retbb) := by
  cases ho : tx.owner with
  | none => exact h.walked_outside ho ((Walked.refl s).walkRetEnd _) _ _
  | some o =>
      cases retbb with
      | none => exact absurd rfl (hr (by rw [ho]; exact Option.some_ne_none _))
      | some bb => exact (h.emit _).enterNew.withRet

end Agrees

/-! ### The function -/

section Function

variable {ret : Option Id} {stmts : Node .stmts}

/-- The body of a function begins in an agreeing state. -/
theorem Agrees.beginFn (h : Agrees m tx pl s) (ret : Option Id) :
    Agrees m ⟨some (s.newFn ret, s.newNode ret), []⟩ ⟨true, .other, false, false⟩
      (s.beginFn ret) where
  inFn := rfl
  inLoop := rfl
  loops := ⟨s.loopControls, rfl⟩
  labelsOk := ⟨fun l b hl => (h.labelsOk.lt l b hl).trans_le (Nat.le_add_right _ 3),
    h.labelsOk.inj⟩
  main main hm :=
    have hgen : Walked m [] s (s.genBb 3) := .genBb 3 s
    h.main_walked hgen main hm
  outside ho := nomatch ho
  inside fn node he := by
    cases he
    refine ⟨s.next + 2, rfl, rfl, rfl, Nat.lt_add_of_pos_right (by decide), rfl,
      Function.update_self _ _ _, Nat.lt_succ_self _, fun _ _ hw => (nomatch hw),
      ?_, fun l => ⟨?_, fun hw => (nomatch hw)⟩⟩
    · intro main hm _ he
      exact absurd (h.main main hm).1 (Nat.not_lt.mpr (he ▸ Nat.le_add_right _ 2))
    · intro hl
      exact absurd (h.labelsOk.lt l _ hl) (Nat.not_lt.mpr (Nat.le_add_right _ 2))

/-- Under `-main` the function must stand at the first block of the generated function. -/
theorem sameContext_main {main : Main} {fn : Fn} {node : FnNode}
    (h : Agrees (some main) tx pl s) (hb : Inside (some main) pl fn node s b)
    (hflag : (stmts.walk (some main) (s.beginFn ret)).withRetValue = stmts.returns) :
    SameContext s ((Node.fnDefine ret stmts).walk (some main) s) ↔
      pl.block = .mainBlock ∧ stmts.returns = pl.returned := by
  have hw := (Node.fnDefine ret stmts).walked (m := some main) s
  constructor
  · intro hs
    have hbb : b = main.bb :=
      (Option.some.inj (hs.insertBlock.trans hb.insertBlock)).symm
    refine ⟨not_not.mp fun hne => hb.notAtMain main rfl hne hbb, ?_⟩
    exact hflag.symm.trans (State.endFn_withRetValue.symm.trans
      (hs.withRetValue.trans hb.withRetValue))
  · rintro ⟨hat, hret⟩
    obtain ⟨rfl, rfl, rfl⟩ := hb.atMain main rfl hat
    refine ⟨hb.currFn.symm, hb.currFnNode.symm, hb.insertBlock.symm, ?_, ?_, hw.loops⟩
    · rw [hb.insertBlock]
      exact hw.parent main.bb hb.lt fun l _ => (h.main main rfl).2 l
    · exact State.endFn_withRetValue.trans (hflag.trans (hret.trans hb.withRetValue.symm))

/-- Without `-main` the function must not take the block of the insertion point with it. -/
theorem sameContext_none {fn : Fn} {node : FnNode}
    (h : Agrees none tx pl s) (hb : Inside none pl fn node s b)
    (hflag : (stmts.walk none (s.beginFn ret)).withRetValue = stmts.returns) :
    SameContext s ((Node.fnDefine ret stmts).walk none s) ↔
      stmts.returns = pl.returned ∧ pl.block.apart stmts.labels = true := by
  have hbody := stmts.walked (m := none) (s.beginFn ret)
  have hw := (Node.fnDefine ret stmts).walked (m := none) s
  obtain ⟨hf, hn, -, hi⟩ := State.endFn_none s.insertBlock (s.newFn ret) (s.newNode ret)
    (hbody.stack rfl).2.2
  constructor
  · intro hs
    refine ⟨hflag.symm.trans (State.endFn_withRetValue.symm.trans
      (hs.withRetValue.trans hb.withRetValue)), ?_⟩
    cases hblock : pl.block with
    | mainBlock => rfl
    | other => rfl
    | labelBlock l =>
        apply Bool.not_eq_true' _ ▸ Bool.eq_false_iff.mpr
        intro hl
        -- the block of the label has gone into a function begun since
        have hlb := (hb.atLabel l).mpr hblock
        obtain ⟨g, hg, hge⟩ := hbody.labelled rfl
          ⟨fun l b hl => (h.labelsOk.lt l b hl).trans_le (Nat.le_add_right _ 3), h.labelsOk.inj⟩
          _ rfl l (List.contains_iff_mem.mp hl) b hlb
        have hret : b ≠ (s.newNode ret).retbb := (Nat.lt_succ_of_lt hb.lt).ne
        have hfn := hs.insertFn
        rw [show ((Node.fnDefine ret stmts).walk none s).insertBlock = _ from hi, hb.insertBlock,
          Option.bind_some, Option.bind_some, hb.parent] at hfn
        have hfg := ((State.endFn_parent.symm ▸ Function.update_of_ne hret _ _).trans hg).symm.trans
          hfn
        cases hfg
        rcases hge with rfl | hle
        · exact lt_irrefl _ hb.fn_lt
        · exact absurd (hb.fn_lt.trans_le (Nat.le_add_right _ 3)) (Nat.not_lt.mpr hle)
  · rintro ⟨hret, hapart⟩
    refine ⟨hf, hn, hi, ?_, ?_, hw.loops⟩
    · rw [show ((Node.fnDefine ret stmts).walk none s).insertBlock = _ from hi, hb.insertBlock]
      apply hw.parent b hb.lt
      intro l hl he
      rw [(hb.atLabel l).mp he] at hapart
      exact absurd (List.contains_iff_mem.mpr hl)
        (Bool.not_eq_true _ ▸ Bool.not_eq_true' _ ▸ hapart)
    · exact State.endFn_withRetValue.trans (hflag.trans (hret.trans hb.withRetValue.symm))

/-- **A function is put back iff its place allows it.** -/
theorem Agrees.sameContext_iff (h : Agrees m tx pl s)
    (hflag : (stmts.walk m (s.beginFn ret)).withRetValue = stmts.returns) :
    (tx.owner ≠ none → SameContext s ((Node.fnDefine ret stmts).walk m s)) ↔
      pl.allows m.isSome stmts = true := by
  have hin := h.inFn
  unfold Place.allows
  cases ho : tx.owner with
  | none =>
      rw [ho] at hin
      rw [hin]
      exact iff_of_true (fun hne => absurd rfl hne) rfl
  | some o =>
      obtain ⟨b, hb⟩ := h.inside o.1 o.2 ho
      rw [ho] at hin
      rw [hin]
      have hne : some o ≠ none := Option.some_ne_none o
      rw [forall_prop_of_true hne]
      cases m with
      | none =>
          rw [sameContext_none h hb hflag]
          simp
      | some main =>
          rw [sameContext_main h hb hflag]
          have happ : pl.block = .mainBlock → pl.block.apart stmts.labels = true :=
            fun he => by rw [he]; rfl
          simp only [Option.isSome_some, Bool.not_true, Bool.false_or, Bool.and_eq_true,
            beq_iff_eq]
          exact ⟨fun ⟨hw, hr⟩ => ⟨hw, hr, happ hw⟩, fun ⟨hw, hr, _⟩ => ⟨hw, hr⟩⟩

end Function

/-! ### The induction -/

/-- A node walked in an agreeing state: its visits agree with the text iff it is settled, and then
the state after it agrees. -/
def Sound (m : Option Main) {c : Symbol} (t : Node c) (tx : Text) (pl : Place) (s : State) : Prop :=
  ((∀ v ∈ t.visits m tx s, v.Ok) ↔ t.settled m.isSome pl = true) ∧
    (t.settled m.isSome pl = true → Agrees m tx (pl.after t) (t.walk m s))

/-- Two parts, the second reached through the first. -/
theorem forall_append_iff {vs ws : List Visit} {p q : Bool}
    (hp : (∀ v ∈ vs, v.Ok) ↔ p = true) (hq : p = true → ((∀ v ∈ ws, v.Ok) ↔ q = true)) :
    (∀ v ∈ vs ++ ws, v.Ok) ↔ (p && q) = true := by
  rw [List.forall_mem_append, Bool.and_eq_true, hp]
  exact and_congr_right hq

/-- Inside a function or not. -/
theorem Agrees.cases (h : Agrees m tx pl s) :
    (tx.owner = none ∧ pl.inFn = false ∧ s.currFn = none) ∨
      (pl.inFn = true ∧ ∃ fn node b, tx.owner = some (fn, node) ∧ Inside m pl fn node s b) := by
  have hin := h.inFn
  cases ho : tx.owner with
  | none =>
      rw [ho] at hin
      exact .inl ⟨rfl, hin, (h.outside ho).1⟩
  | some o =>
      rw [ho] at hin
      obtain ⟨b, hb⟩ := h.inside o.1 o.2 ho
      exact .inr ⟨hin, o.1, o.2, b, rfl, hb⟩

theorem Agrees.jump_iff (h : Agrees m tx pl s) :
    (∀ v ∈ [Visit.jump tx s], v.Ok) ↔ pl.inLoop = true := by
  obtain ⟨outer, ho⟩ := h.loops
  rw [List.forall_mem_singleton, h.inLoop]
  simp only [Visit.Ok]
  rw [ho]
  cases tx.loops with
  | nil => simp
  | cons l ls => simp

theorem Agrees.ret_ok {after : State} (h : Agrees m tx pl s) (h' : Agrees m tx pl' after) :
    (Visit.ret tx s after).Ok := by
  intro fn node ho
  obtain ⟨b, hb⟩ := h.inside fn node ho
  obtain ⟨b', hb'⟩ := h'.inside fn node ho
  exact ⟨hb.currFn, hb.currFnNode, hb'.currFnNode⟩

theorem Agrees.stmt_ok (h : Agrees m tx pl s) : (Visit.stmt tx s).Ok := by
  intro fn node ho
  obtain ⟨b, hb⟩ := h.inside fn node ho
  refine ⟨hb.currFn, ?_⟩
  rw [hb.insertBlock]
  exact hb.parent

theorem Agrees.retbb_ne (h : Agrees m tx pl s) :
    tx.owner ≠ none → s.currFnNode.map FnNode.retbb ≠ none := by
  intro hne
  obtain ⟨o, ho⟩ := Option.ne_none_iff_exists'.mp hne
  obtain ⟨b, hb⟩ := h.inside o.1 o.2 ho
  rw [hb.currFnNode]
  exact Option.some_ne_none _

theorem Agrees.of_place {pl pl' : Place} (h : Agrees m tx pl s) (he : pl = pl') :
    Agrees m tx pl' s := he ▸ h

/-- Nothing is walked outside of functions. -/
theorem Sound.of_outside {c : Symbol} {t : Node c} (h : Agrees m tx pl s)
    (ho : tx.owner = none) (hv : t.visits m tx s = []) (hs : t.settled m.isSome pl = true) :
    Sound m t tx pl s := by
  unfold Sound
  rw [hv, hs]
  exact ⟨iff_of_true (List.forall_mem_nil _) rfl,
    fun _ => h.walked_outside ho (t.walked s) _ _⟩

/-- A node that holds no visit and leaves the context as it was. -/
theorem Sound.of_plain {c : Symbol} {t : Node c} (h : Agrees m tx pl s)
    (hv : t.visits m tx s = []) (hs : t.settled m.isSome pl = true) (hw : t.walk m s = s)
    (ha : pl.after t = pl) : Sound m t tx pl s := by
  unfold Sound
  rw [hv, hs, hw, ha]
  exact ⟨iff_of_true (List.forall_mem_nil _) rfl, fun _ => h⟩

/-- A node that is walked as a part of it is. -/
theorem Sound.of_part {c d : Symbol} {t : Node c} {t' : Node d} (h : Sound m t' tx pl s)
    (hv : t.visits m tx s = t'.visits m tx s)
    (hs : t.settled m.isSome pl = t'.settled m.isSome pl)
    (hw : t.walk m s = t'.walk m s) (ha : pl.after t = pl.after t') : Sound m t tx pl s := by
  unfold Sound
  rw [hv, hs, hw, ha]
  exact h

/-- Two parts, one after the other. -/
theorem Sound.of_seq {c d e : Symbol} {t : Node c} {t₁ : Node d} {t₂ : Node e}
    (h₁ : Sound m t₁ tx pl s)
    (h₂ : Agrees m tx (pl.after t₁) (t₁.walk m s) →
      Sound m t₂ tx (pl.after t₁) (t₁.walk m s))
    (hv : t.visits m tx s = t₁.visits m tx s ++ t₂.visits m tx (t₁.walk m s))
    (hs : t.settled m.isSome pl = (t₁.settled m.isSome pl && t₂.settled m.isSome (pl.after t₁)))
    (hw : t.walk m s = t₂.walk m (t₁.walk m s)) (ha : pl.after t = (pl.after t₁).after t₂) :
    Sound m t tx pl s := by
  unfold Sound
  rw [hv, hs, hw, ha]
  refine ⟨forall_append_iff h₁.1 fun hp => (h₂ (h₁.2 hp)).1, ?_⟩
  intro hp
  obtain ⟨hp, hq⟩ := Bool.and_eq_true_iff.mp hp
  exact (h₂ (h₁.2 hp)).2 hq

/-- The body of a loop, and the block behind it. -/
theorem Sound.behindLoop {body : Node .stmts} {l : LoopControlInfo} (h : Agrees m tx pl s)
    (hbody : Sound m body { tx with loops := l :: tx.loops } { pl with inLoop := true }
      (s.pushLoop l))
    (hpend : Pending m s bb)
    (hp : body.settled m.isSome { pl with inLoop := true } = true) :
    Agrees m tx (pl.after body).moved ((body.walk m (s.pushLoop l)).popLoop.enter bb) := by
  have hend : Pending m (body.walk m (s.pushLoop l)).popLoop bb :=
    (hpend.pushLoop.walked (body.walked _)).popLoop
  refine ((hbody.2 hp).popLoop.enter hend).of_place ?_
  rw [← h.inLoop]
  rfl

theorem Place.after_fn (pl : Place) (t : Node .fn) : pl.after t = pl := by
  cases t
  simp [after, Node.block, Node.returns]

theorem Place.after_fns (pl : Place) (t : Node .fns) : pl.after t = pl := by
  cases t <;> simp [after, Node.block, Node.returns]

theorem Node.sound {c : Symbol} (t : Node c) (tx : Text) (pl : Place) (s : State)
    (h : Agrees m tx pl s) : Sound m t tx pl s := by
  induction t generalizing tx pl s with
  | atom | decl | noConds | noBodies | noFns | noStmt =>
      refine .of_plain h ?_ ?_ ?_ ?_ <;>
        simp only [visits, settled, walk, Place.after, block, returns, Bool.or_false]
  | operands left right ihl ihr =>
      refine .of_seq (ihl tx pl s h) (ihr tx _ _) ?_ ?_ ?_ ?_ <;>
        simp only [visits, settled, walk, Place.after, block, returns, Bool.or_assoc]
  | simple parts ih =>
      refine .of_part (ih tx pl s h) ?_ ?_ ?_ ?_ <;>
        simp only [visits, settled, walk, Place.after, block, returns]
  | lexicalBody stmts ih =>
      refine .of_part (ih tx pl s h) ?_ ?_ ?_ ?_ <;>
        simp only [visits, settled, walk, Place.after, block, returns]
  | fnStmt fn ih =>
      refine .of_part (ih tx pl s h) ?_ ?_ ?_ ?_
      · simp only [visits]
      · simp only [settled]
      · simp only [walk]
      · rw [Place.after_fn]
        simp only [Place.after, block, returns, Bool.or_false]
  | fnDefineImpl fns ih =>
      refine .of_part (ih tx pl s h) ?_ ?_ ?_ ?_
      · simp only [visits]
      · simp only [settled]
      · simp only [walk]
      · rw [Place.after_fns]
        simp only [Place.after, block, returns, Bool.or_false]
  | fnThen fn rest ihf ihr =>
      refine .of_seq (ihf tx pl s h) (ihr tx _ _) ?_ ?_ ?_ ?_
      · simp only [visits]
      · rw [Place.after_fn, settled]
      · simp only [walk]
      · rw [Place.after_fn, Place.after_fns, Place.after_fns]
  | stmtThen first rest ihf ihr =>
      obtain ⟨hfst, af⟩ := ihf tx pl s h
      unfold Sound
      simp only [visits, settled, walk]
      refine ⟨?_, ?_⟩
      · rw [List.forall_mem_cons, and_iff_right h.stmt_ok]
        exact forall_append_iff hfst fun hp => (ihr tx _ _ (af hp)).1
      · intro hp
        obtain ⟨hp, hq⟩ := Bool.and_eq_true_iff.mp hp
        refine ((ihr tx _ _ (af hp)).2 hq).of_place ?_
        simp only [Place.after, block, returns, Bool.or_assoc]
  | condThen cond rest ihc ihr =>
      obtain ⟨hc, ac⟩ := ihc tx pl s h
      unfold Sound
      simp only [visits, settled, walk]
      refine ⟨forall_append_iff hc fun hp => (ihr tx _ _ (ac hp).enterNew).1, ?_⟩
      intro hp
      obtain ⟨hp, hq⟩ := Bool.and_eq_true_iff.mp hp
      refine ((ihr tx _ _ (ac hp).enterNew).2 hq).of_place ?_
      simp only [Place.after, Place.moved, block, returns, Bool.or_assoc]
  | bodyThen body rest ihb ihr =>
      obtain ⟨hb, ab⟩ := ihb tx _ _ h.enterNew
      unfold Sound
      simp only [visits, settled, walk]
      refine ⟨forall_append_iff hb fun hp => (ihr tx _ _ (ab hp)).1, ?_⟩
      intro hp
      obtain ⟨hp, hq⟩ := Bool.and_eq_true_iff.mp hp
      refine ((ihr tx _ _ (ab hp)).2 hq).of_place ?_
      simp only [Place.after, Place.moved, block, returns, Bool.or_assoc]
  | landor left right ihl ihr =>
      obtain ⟨ho, hin, hf⟩ | ⟨hin, fn, node, b, -, hb⟩ := h.cases
      · refine .of_outside h ho ?_ ?_
        · simp only [visits, hf]
        · simp only [settled, hin, Bool.not_false, Bool.true_or]
      · obtain ⟨hl, al⟩ := ihl tx pl s h
        have hright (hp : left.settled m.isSome pl = true) :=
          ihr tx _ _ (((al hp).genBb 2).enter ((al hp).pending (k := 0) (by decide)))
        unfold Sound
        simp only [visits, settled, walk, hb.currFn, hin, Bool.not_true, Bool.false_or]
        refine ⟨forall_append_iff hl fun hp => (hright hp).1, ?_⟩
        intro hp
        obtain ⟨hp, hq⟩ := Bool.and_eq_true_iff.mp hp
        refine (((hright hp).2 hq).enter
          (((al hp).pending (by decide : 1 < 2)).enter.walked (right.walked _))).of_place ?_
        simp only [Place.after, Place.moved, block, returns, Bool.or_assoc]
  | ife cond thens elses ihc iht ihe =>
      obtain ⟨ho, hin, hf⟩ | ⟨hin, fn, node, b, -, hb⟩ := h.cases
      · refine .of_outside h ho ?_ ?_
        · simp only [visits, hf]
        · simp only [settled, hin, Bool.not_false, Bool.true_or]
      · obtain ⟨hc, ac⟩ := ihc tx pl _ (h.genBb 3)
        have hpend {k : Nat} (hk : k < 3) : Pending m (cond.walk m (s.genBb 3)) (s.next + k) :=
          (h.pending hk).walked (cond.walked _)
        have hthen (hp : cond.settled m.isSome pl = true) :=
          iht tx _ _ ((ac hp).enter (hpend (by decide : 0 < 3)))
        have helse (hp : cond.settled m.isSome pl = true)
            (hq : thens.settled m.isSome (pl.after cond).moved = true) :=
          ihe tx _ _ (((hthen hp).2 hq).enter
            ((hpend (by decide : 2 < 3)).enter.walked (thens.walked _)))
        unfold Sound
        simp only [visits, settled, walk, hb.currFn, hin, Bool.not_true, Bool.false_or]
        refine ⟨forall_append_iff hc fun hp => forall_append_iff (hthen hp).1 fun hq =>
          (helse hp hq).1, ?_⟩
        intro hp
        obtain ⟨hp, hq⟩ := Bool.and_eq_true_iff.mp hp
        obtain ⟨hq, hr⟩ := Bool.and_eq_true_iff.mp hq
        refine (((helse hp hq).2 hr).enter (((hpend (by decide : 1 < 3)).enter.walked
          (thens.walked _)).enter.walked (elses.walked _))).of_place ?_
        simp only [Place.after, Place.moved, block, returns, Bool.or_assoc]
  | retVoid =>
      unfold Sound
      simp only [visits, settled, walk]
      refine ⟨iff_of_true (List.forall_mem_singleton.mpr (h.ret_ok h)) trivial, ?_⟩
      intro _
      refine ((h.reject _).walkRetEnd h.retbb_ne).of_place ?_
      simp only [Place.after, Place.moved, block, returns, Bool.or_true]
  | retExpr value type ih =>
      obtain ⟨hv, av⟩ := ih tx pl s h
      unfold Sound
      simp only [visits, settled, walk]
      refine ⟨?_, ?_⟩
      · rw [List.forall_mem_cons, hv]
        exact ⟨fun ⟨_, hp⟩ => hp, fun hp => ⟨h.ret_ok (av hp), hp⟩⟩
      · intro hp
        refine ((((av hp).reject _).emit _).walkRetEnd h.retbb_ne).of_place ?_
        simp only [Place.after, Place.moved, block, returns, Bool.or_true]
  | breakStmt =>
      unfold Sound
      simp only [visits, settled, walk]
      refine ⟨h.jump_iff, fun _ => h.walkBreak.of_place ?_⟩
      simp only [Place.after, Place.moved, block, returns, Bool.or_false]
  | continueStmt =>
      unfold Sound
      simp only [visits, settled, walk]
      refine ⟨h.jump_iff, fun _ => h.walkContinue.of_place ?_⟩
      simp only [Place.after, Place.moved, block, returns, Bool.or_false]
  | label name =>
      unfold Sound
      simp only [visits, settled, walk]
      refine ⟨iff_of_true (List.forall_mem_nil _) trivial,
        fun _ => (h.walkLabel name).of_place ?_⟩
      simp only [Place.after, block, returns, Bool.or_false]
  | labelGoto name =>
      unfold Sound
      simp only [visits, settled, walk]
      refine ⟨iff_of_true (List.forall_mem_nil _) trivial,
        fun _ => (h.walkLabelGoto name).of_place ?_⟩
      simp only [Place.after, Place.moved, block, returns, Bool.or_false]
  | loop body ih =>
      obtain ⟨ho, hin, hf⟩ | ⟨hin, fn, node, b, -, hb⟩ := h.cases
      · refine .of_outside h ho ?_ ?_
        · simp only [visits, hf]
        · simp only [settled, hin, Bool.not_false, Bool.true_or]
      · have hstart := (h.genBb 2).enter (h.pending (by decide : 0 < 2))
        have hbody := ih _ _ _ (hstart.pushLoop ⟨s.next, s.next + 1⟩)
        unfold Sound
        simp only [visits, settled, walk, hb.currFn, hin, Bool.not_true, Bool.false_or]
        refine ⟨hbody.1, ?_⟩
        intro hp
        refine (Sound.behindLoop hstart hbody (h.pending (by decide : 1 < 2)).enter hp).of_place ?_
        simp only [Place.after, Place.moved, block, returns]
  | whileStmt cond body ihc ihb =>
      obtain ⟨ho, hin, hf⟩ | ⟨hin, fn, node, b, -, hb⟩ := h.cases
      · refine .of_outside h ho ?_ ?_
        · simp only [visits, hf]
        · simp only [settled, hin, Bool.not_false, Bool.true_or]
      · obtain ⟨hc, ac⟩ := ihc tx _ _ ((h.genBb 3).enter (h.pending (by decide : 0 < 3)))
        have hpend {k : Nat} (hk : k < 3) :
            Pending m (cond.walk m ((s.genBb 3).enter s.next)) (s.next + k) :=
          (h.pending hk).enter.walked (cond.walked _)
        have hstart (hp : cond.settled m.isSome pl.moved = true) :=
          (ac hp).enter (hpend (by decide : 1 < 3))
        have hbody (hp : cond.settled m.isSome pl.moved = true) :=
          ihb _ _ _ ((hstart hp).pushLoop ⟨s.next, s.next + 2⟩)
        unfold Sound
        simp only [visits, settled, walk, hb.currFn, hin, Bool.not_true, Bool.false_or]
        refine ⟨forall_append_iff hc fun hp => (hbody hp).1, ?_⟩
        intro hp
        obtain ⟨hp, hq⟩ := Bool.and_eq_true_iff.mp hp
        refine (Sound.behindLoop (hstart hp) (hbody hp)
          (hpend (by decide : 2 < 3)).enter hq).of_place ?_
        simp only [Place.after, Place.moved, block, returns, Bool.or_assoc]
  | forStmt list body ihl ihb =>
      obtain ⟨ho, hin, hf⟩ | ⟨hin, fn, node, b, -, hb⟩ := h.cases
      · refine .of_outside h ho ?_ ?_
        · simp only [visits, hf]
        · simp only [settled, hin, Bool.not_false, Bool.true_or]
      · obtain ⟨hl, al⟩ := ihl tx _ _ (h.genBb 3)
        have hpend {k : Nat} (hk : k < 3) :
            Pending m (list.walk m (s.genBb 3)) (s.next + k) :=
          (h.pending hk).walked (list.walked _)
        have hstart (hp : list.settled m.isSome pl = true) :=
          ((al hp).enter (hpend (by decide : 0 < 3))).enter (hpend (by decide : 1 < 3)).enter
        have hbody (hp : list.settled m.isSome pl = true) :=
          ihb _ _ _ ((hstart hp).pushLoop ⟨s.next, s.next + 2⟩)
        unfold Sound
        simp only [visits, settled, walk, hb.currFn, hin, Bool.not_true, Bool.false_or]
        refine ⟨forall_append_iff hl fun hp => (hbody hp).1, ?_⟩
        intro hp
        obtain ⟨hp, hq⟩ := Bool.and_eq_true_iff.mp hp
        refine (Sound.behindLoop (hstart hp) (hbody hp)
          (hpend (by decide : 2 < 3)).enter.enter hq).of_place ?_
        simp only [Place.after, Place.moved, block, returns, Bool.or_assoc]
  | ifStmt conds bodies ihc ihb =>
      obtain ⟨ho, hin, hf⟩ | ⟨hin, fn, node, b, -, hb⟩ := h.cases
      · refine .of_outside h ho ?_ ?_
        · simp only [visits, hf]
        · simp only [settled, hin, Bool.not_false, Bool.true_or]
      · obtain ⟨hc, ac⟩ := ihc _ _ _ (h.genBb 1)
        unfold Sound
        simp only [visits, settled, walk, hb.currFn, hin, Bool.not_true, Bool.false_or]
        refine ⟨forall_append_iff hc fun hp => (ihb tx _ _ (ac hp)).1, ?_⟩
        intro hp
        obtain ⟨hp, hq⟩ := Bool.and_eq_true_iff.mp hp
        refine (((ihb tx _ _ (ac hp)).2 hq).enter (((h.pending (by decide : 0 < 1)).walked
          (conds.walked _)).walked (bodies.walked _))).of_place ?_
        simp only [Place.after, Place.moved, block, returns, Bool.or_assoc]
  | fnDefine ret stmts ih =>
      obtain ⟨hbody, ab⟩ := ih _ _ _ (h.beginFn ret)
      have hflag (hp : stmts.settled m.isSome ⟨true, .other, false, false⟩ = true) :
          (stmts.walk m (s.beginFn ret)).withRetValue = stmts.returns := by
        obtain ⟨b, hb⟩ := (ab hp).inside _ _ rfl
        exact hb.withRetValue.trans (Bool.false_or _)
      have hw := (Node.fnDefine ret stmts).walked (m := m) s
      unfold Sound
      rw [Place.after_fn]
      simp only [visits, settled, List.forall_mem_cons, Bool.and_eq_true]
      refine ⟨⟨fun ⟨hfn, _, hb⟩ => ?_, fun ⟨hallow, hp⟩ => ?_⟩, fun ⟨hallow, hp⟩ => ?_⟩
      · have hp := hbody.mp hb
        exact ⟨(h.sameContext_iff (hflag hp)).mp hfn, hp⟩
      · exact ⟨(h.sameContext_iff (hflag hp)).mpr hallow, hflag hp, hbody.mpr hp⟩
      · exact h.same hw ((h.sameContext_iff (hflag hp)).mpr hallow)

/-! ### Whole files -/

/-- `llvm_codegen_begin` leaves an agreeing state. -/
theorem agrees_codegenBegin (emitMain : Bool) :
    Agrees (mainOf emitMain) (fileText emitMain) (filePlace emitMain) (codegenBegin emitMain) where
  inFn := by cases emitMain <;> rfl
  inLoop := rfl
  loops := ⟨[], rfl⟩
  labelsOk := ⟨nofun, nofun⟩
  main main hm := by
    cases emitMain with
    | false => cases hm
    | true =>
        cases hm
        exact ⟨by decide, nofun⟩
  outside ho := by
    cases emitMain with
    | false => exact ⟨rfl, rfl⟩
    | true => cases ho
  inside fn node he := by
    cases emitMain with
    | false => cases he
    | true =>
        cases he
        refine ⟨1, rfl, rfl, rfl, by decide, rfl, rfl, by decide, ?_,
          fun _ _ hne => absurd rfl hne, fun l => ⟨nofun, nofun⟩⟩
        intro main hm _
        cases hm
        exact ⟨rfl, rfl, rfl⟩

/-- **The context is restored**: in the walk of a file every function is put back, every statement
and every return is generated in the function around it, and every jump goes to a loop of its own
function, iff the file is settled. -/
theorem Program.restored_iff (emitMain : Bool) (p : Program) :
    p.Restored emitMain ↔ p.settled emitMain (filePlace emitMain) = true := by
  have h := (p.sound _ _ _ (agrees_codegenBegin emitMain)).1
  cases emitMain <;> exact h

/-- `fn f() -> i32 { return 1; fn g() {} }` -/
def returnThenFn : Program :=
  .stmtThen (.fnStmt (.fnDefine (some 0) (.stmtThen (.retExpr .atom 0)
    (.stmtThen (.fnStmt (.fnDefine none .noStmt)) .noStmt)))) .noStmt

/-- `fn f() { loop { fn g() { break; } } }` -/
def breakInFn : Program :=
  .stmtThen (.fnStmt (.fnDefine none (.stmtThen (.loop (.stmtThen (.fnStmt (.fnDefine none
    (.stmtThen .breakStmt .noStmt))) .noStmt)) .noStmt))) .noStmt

/-- `fn f() -> *i8 { fn g() {} return null; }` for a type of its own. -/
def fnThenReturn : Program :=
  .stmtThen (.fnStmt (.fnDefine (some 1) (.stmtThen (.fnStmt (.fnDefine none .noStmt))
    (.stmtThen (.retExpr .atom 1) .noStmt)))) .noStmt

/-- Without `-main` a function after the return makes the final return of `f` an error, and the
`break` of `g` branches to the block behind the loop of `f`; with `-main` the return after `g` is
checked against the generated function. -/
theorem not_restored :
    (returnThenFn.codegen false).rejected = true ∧
      ((some 10, Instr.br 7) ∈ (breakInFn.codegen false).code ∧
        (breakInFn.codegen false).parent 10 ≠ (breakInFn.codegen false).parent 7) ∧
      ((fnThenReturn.codegen false).rejected = false ∧
        (fnThenReturn.codegen true).rejected = true) ∧
      ¬ ∀ (emitMain : Bool) (p : Program), p.Restored emitMain := by
  refine ⟨rfl, ⟨by decide, by decide⟩, ⟨rfl, rfl⟩, ?_⟩
  intro h
  have hs := (breakInFn.sound _ _ _ (agrees_codegenBegin false)).1.mp (h false breakInFn)
  exact absurd hs (by decide)

end CaLang.Codegen

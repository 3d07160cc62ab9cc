import CaLang.Codegen.Walk
import Mathlib.Order.Nat

/-! # What any walk does to the context

`Walked m ls s s'`: the state `s'` is reached from `s` by walking nodes whose labels are `ls`.
**Blocks and labels only grow**, the loop targets are left as they were, and an old block changes
its function only if it is the block of one of these labels.  Without `-main` the current function
is restored from the stack.
-/

namespace CaLang.Codegen

/-- The labels in a node, in the functions nested in it too. -/
def Node.labels : {c : Symbol} → Node c → List Id
  | _, .atom => []
  | _, .operands left right => left.labels ++ right.labels
  | _, .landor left right => left.labels ++ right.labels
  | _, .ife cond thens elses => cond.labels ++ (thens.labels ++ elses.labels)
  | _, .noConds => []
  | _, .condThen cond rest => cond.labels ++ rest.labels
  | _, .noBodies => []
  | _, .bodyThen body rest => body.labels ++ rest.labels
  | _, .fnDefine _ stmts => stmts.labels
  | _, .noFns => []
  | _, .fnThen fn rest => fn.labels ++ rest.labels
  | _, .simple parts => parts.labels
  | _, .decl => []
  | _, .retVoid => []
  | _, .retExpr value _ => value.labels
  | _, .breakStmt => []
  | _, .continueStmt => []
  | _, .label name => [name]
  | _, .labelGoto _ => []
  | _, .loop body => body.labels
  | _, .whileStmt cond body => cond.labels ++ body.labels
  | _, .forStmt list body => list.labels ++ body.labels
  | _, .ifStmt conds bodies => conds.labels ++ bodies.labels
  | _, .lexicalBody stmts => stmts.labels
  | _, .fnStmt fn => fn.labels
  | _, .fnDefineImpl fns => fns.labels
  | _, .noStmt => []
  | _, .stmtThen first rest => first.labels ++ rest.labels

/-- The blocks of the labels have been made, one for each. -/
structure State.LabelsOk (s : State) : Prop where
  lt : ∀ l b, s.labelMap l = some b → b < s.next
  inj : ∀ l l' b, s.labelMap l = some b → s.labelMap l' = some b → l = l'

namespace State

variable {m : Option Main} {s : State} {node : FnNode} {saved : Option Block} {fn : Fn}

theorem generateFinalReturn_eq (m : Option Main) (node : FnNode) (s : State) :
    ∃ code rejected, s.generateFinalReturn m node =
      { s with code := code, rejected := rejected } := by
  unfold generateFinalReturn
  cases node.ret with
  | none => exact ⟨_, _, rfl⟩
  | some ret =>
      dsimp only
      split
      · exact ⟨_, _, rfl⟩
      · split <;> exact ⟨_, _, rfl⟩

/-! ### What `endFn` leaves -/

@[simp] theorem endFn_next : (s.endFn m saved fn node).next = s.next := by
  obtain ⟨c, r, h⟩ := generateFinalReturn_eq m node (s.enterRet fn node.retbb)
  unfold endFn
  cases m <;> rw [h] <;> rfl

@[simp] theorem endFn_labelMap : (s.endFn m saved fn node).labelMap = s.labelMap := by
  obtain ⟨c, r, h⟩ := generateFinalReturn_eq m node (s.enterRet fn node.retbb)
  unfold endFn
  cases m <;> rw [h] <;> rfl

@[simp] theorem endFn_loopControls :
    (s.endFn m saved fn node).loopControls = s.loopControls := by
  obtain ⟨c, r, h⟩ := generateFinalReturn_eq m node (s.enterRet fn node.retbb)
  unfold endFn
  cases m <;> rw [h] <;> rfl

@[simp] theorem endFn_withRetValue :
    (s.endFn m saved fn node).withRetValue = s.withRetValue := by
  obtain ⟨c, r, h⟩ := generateFinalReturn_eq m node (s.enterRet fn node.retbb)
  unfold endFn
  cases m <;> rw [h] <;> rfl

@[simp] theorem endFn_parent :
    (s.endFn m saved fn node).parent = Function.update s.parent node.retbb (some fn) := by
  obtain ⟨c, r, h⟩ := generateFinalReturn_eq m node (s.enterRet fn node.retbb)
  unfold endFn
  cases m <;> rw [h] <;> rfl

/-- Under `-main` everything is put back to the generated function. -/
theorem endFn_main (main : Main) :
    (s.endFn (some main) saved fn node).currFn = some main.fn ∧
      (s.endFn (some main) saved fn node).currFnNode = some main.node ∧
      (s.endFn (some main) saved fn node).insertBlock = some main.bb :=
  ⟨rfl, rfl, rfl⟩

/-- Without `-main` the context of the definition is put back. -/
theorem endFn_none (saved : Option Block) (fn : Fn) (node : FnNode) {f : Option Fn}
    {n : Option FnNode} {rest : List (Option Fn × Option FnNode)}
    (hs : s.currFnStack = (f, n) :: rest) :
    (s.endFn none saved fn node).currFn = f ∧ (s.endFn none saved fn node).currFnNode = n ∧
      (s.endFn none saved fn node).currFnStack = rest ∧
      (s.endFn none saved fn node).insertBlock = saved := by
  obtain ⟨c, r, h⟩ := generateFinalReturn_eq none node (s.enterRet fn node.retbb)
  have he : (s.enterRet fn node.retbb).currFnStack = (f, n) :: rest := hs
  unfold endFn
  rw [h]
  exact ⟨congrArg (·.head?.bind Prod.fst) he, congrArg (·.head?.bind Prod.snd) he,
    congrArg List.tail he, rfl⟩

end State

structure Walked (m : Option Main) (ls : List Id) (s s' : State) : Prop where
  next_le : s.next ≤ s'.next
  labels_keep : ∀ l b, s.labelMap l = some b → s'.labelMap l = some b
  labels_new : ∀ l b, s'.labelMap l = some b → s.labelMap l = some b ∨ s.next ≤ b
  labelsOk : s.LabelsOk → s'.LabelsOk
  loops : s'.loopControls = s.loopControls
  stack : m = none → s'.currFn = s.currFn ∧ s'.currFnNode = s.currFnNode ∧
    s'.currFnStack = s.currFnStack
  parent : ∀ b < s.next, (∀ l ∈ ls, s.labelMap l ≠ some b) → s'.parent b = s.parent b
  /-- A label walked has its block in the function walked in, or in one begun since. -/
  labelled : m = none → s.LabelsOk → ∀ f, s.currFn = some f → ∀ l ∈ ls, ∀ b,
    s.labelMap l = some b → ∃ g, s'.parent b = some g ∧ (g = f ∨ s.next ≤ g.id)

namespace Walked

variable {m : Option Main} {ls ls' : List Id} {s s' s'' : State}

theorem trans (h : Walked m ls s s') (h' : Walked m ls' s' s'') : Walked m (ls ++ ls') s s'' where
  next_le := h.next_le.trans h'.next_le
  labels_keep l b hl := h'.labels_keep l b (h.labels_keep l b hl)
  labels_new l b hl := by
    rcases h'.labels_new l b hl with hl | hb
    · exact h.labels_new l b hl
    · exact .inr (h.next_le.trans hb)
  labelsOk ok := h'.labelsOk (h.labelsOk ok)
  loops := h'.loops.trans h.loops
  stack hm := by
    obtain ⟨h₁, h₂, h₃⟩ := h.stack hm
    obtain ⟨h₁', h₂', h₃'⟩ := h'.stack hm
    exact ⟨h₁'.trans h₁, h₂'.trans h₂, h₃'.trans h₃⟩
  parent b hb hl := by
    rw [h'.parent b (hb.trans_le h.next_le), h.parent b hb]
    · intro l hm
      exact hl l (List.mem_append_left _ hm)
    · intro l hm he
      rcases h.labels_new l b he with he | hle
      · exact hl l (List.mem_append_right _ hm) he
      · exact absurd hb (Nat.not_lt.mpr hle)
  labelled hm ok f hf l hl b hb := by
    by_cases hr : l ∈ ls'
    · obtain ⟨g, hg, hfg⟩ := h'.labelled hm (h.labelsOk ok) f ((h.stack hm).1.trans hf) l hr b
        (h.labels_keep l b hb)
      exact ⟨g, hg, hfg.imp_right h.next_le.trans⟩
    · obtain ⟨g, hg, hfg⟩ := h.labelled hm ok f hf l
        ((List.mem_append.mp hl).resolve_right hr) b hb
      refine ⟨g, ?_, hfg⟩
      -- no other label has this block
      rw [h'.parent b ((ok.lt l b hb).trans_le h.next_le), hg]
      intro l' hl' he
      exact hr ((h.labelsOk ok).inj l' l b he (h.labels_keep l b hb) ▸ hl')

/-- A step that only changes what no clause mentions. -/
theorem of_eq (hn : s.next ≤ s'.next) (hl : s'.labelMap = s.labelMap)
    (hp : s'.parent = s.parent) (hc : s'.loopControls = s.loopControls)
    (hf : s'.currFn = s.currFn) (hnode : s'.currFnNode = s.currFnNode)
    (hs : s'.currFnStack = s.currFnStack) : Walked m [] s s' where
  next_le := hn
  labels_keep l b h := by rw [hl, h]
  labels_new l b h := .inl (hl ▸ h)
  labelsOk ok := ⟨fun l b h => (ok.lt l b (hl ▸ h)).trans_le hn,
    fun l l' b h h' => ok.inj l l' b (hl ▸ h) (hl ▸ h')⟩
  loops := hc
  stack _ := ⟨hf, hnode, hs⟩
  parent b _ _ := by rw [hp]
  labelled _ _ _ _ l hm := (List.not_mem_nil hm).elim

theorem refl (s : State) : Walked m [] s s := of_eq le_rfl rfl rfl rfl rfl rfl rfl

theorem genBb (n : Nat) (s : State) : Walked m [] s (s.genBb n) :=
  of_eq (Nat.le_add_right _ _) rfl rfl rfl rfl rfl rfl

/-- Nothing is walked outside of functions. -/
theorem outside (ls : List Id) (h : s.currFn = none) : Walked m ls s s :=
  { refl (m := m) s with
    parent := fun _ _ _ => rfl
    labelled := fun _ _ f hf => by rw [h] at hf; cases hf }

/-- A block made on the way is entered. -/
theorem enter {bb : Block} (h : Walked m ls s s') (hb : s.next ≤ bb) :
    Walked m ls s (s'.enter bb) :=
  have hne : ∀ b < s.next, b ≠ bb := fun b hlt he => absurd (he ▸ hlt) (Nat.not_lt.mpr hb)
  { h with
    labelsOk := fun ok => ⟨(h.labelsOk ok).lt, (h.labelsOk ok).inj⟩
    parent := fun b hlt hl => (Function.update_of_ne (hne b hlt) _ _).trans (h.parent b hlt hl)
    labelled := fun hm ok f hf l hl b hb' => by
      obtain ⟨g, hg, hfg⟩ := h.labelled hm ok f hf l hl b hb'
      exact ⟨g, (Function.update_of_ne (hne b (ok.lt l b hb')) _ _).trans hg, hfg⟩ }

theorem enterNew (h : Walked m ls s s') : Walked m ls s s'.enterNew :=
  List.append_nil ls ▸ (h.trans (genBb 1 s')).enter h.next_le

theorem newLabel (name : Id) (s : State) (hname : s.labelMap name = none) :
    Walked m [] s { s.genBb 1 with
      labelMap := Function.update s.labelMap name (some s.next) } := by
  have hnew : ∀ l b, Function.update s.labelMap name (some s.next) l = some b →
      s.labelMap l = some b ∨ l = name ∧ b = s.next := by
    intro l b h
    by_cases hl : l = name
    · rw [hl, Function.update_self] at h
      exact .inr ⟨hl, (Option.some.inj h).symm⟩
    · rw [Function.update_of_ne hl] at h
      exact .inl h
  refine { genBb 1 s with labels_keep := ?_, labels_new := ?_, labelsOk := fun ok => ⟨?_, ?_⟩ }
  · intro l b h
    refine (Function.update_of_ne ?_ _ _).trans h
    rintro rfl
    rw [hname] at h
    cases h
  · intro l b h
    exact (hnew l b h).imp_right fun he => he.2.ge
  · intro l b h
    rcases hnew l b h with h | ⟨-, rfl⟩
    · exact Nat.lt_succ_of_lt (ok.lt l b h)
    · exact Nat.lt_succ_self _
  · intro l l' b h h'
    rcases hnew l b h with h | ⟨hl, hb⟩ <;> rcases hnew l' b h' with h' | ⟨hl', hb'⟩
    · exact ok.inj l l' b h h'
    · exact absurd (ok.lt l b h) (hb' ▸ lt_irrefl _)
    · exact absurd (ok.lt l' b h') (hb ▸ lt_irrefl _)
    · exact hl.trans hl'.symm

theorem labelBlock (name : Id) (s : State) : Walked m [] s (s.labelBlock name).2 := by
  unfold State.labelBlock
  cases hname : s.labelMap name with
  | some bb => exact refl s
  | none => exact newLabel name s hname

theorem labelBlock_spec (name : Id) (s : State) :
    (s.labelBlock name).2.labelMap name = some (s.labelBlock name).1 := by
  unfold State.labelBlock
  cases hname : s.labelMap name with
  | some bb => exact hname
  | none => exact Function.update_self _ _ _

/-- The block of a label is entered, which may be an old one. -/
theorem enterLabel {name : Id} {bb : Block} (h : Walked m [] s s')
    (hbb : s'.labelMap name = some bb) : Walked m [name] s (s'.enter bb) :=
  { h with
    labelsOk := fun ok => ⟨(h.labelsOk ok).lt, (h.labelsOk ok).inj⟩
    parent := fun b hlt hl => by
      refine (Function.update_of_ne ?_ _ _).trans (h.parent b hlt nofun)
      rintro rfl
      rcases h.labels_new name b hbb with he | hle
      · exact hl name List.mem_cons_self he
      · exact absurd hlt (Nat.not_lt.mpr hle)
    labelled := fun hm _ f hf l hl b hb => by
      cases List.mem_singleton.mp hl
      obtain rfl := Option.some.inj ((h.labels_keep name b hb).symm.trans hbb)
      exact ⟨f, (Function.update_self _ _ _).trans ((h.stack hm).1.trans hf), .inl rfl⟩ }

theorem walkLabel (name : Id) (s : State) : Walked m [name] s (s.walkLabel name) := by
  unfold State.walkLabel
  cases hf : s.currFn with
  | none => exact outside _ hf
  | some f => exact (labelBlock name s).enterLabel (labelBlock_spec name s)

theorem walkLabelGoto (name : Id) (s : State) : Walked m [] s (s.walkLabelGoto name) := by
  unfold State.walkLabelGoto
  cases hf : s.currFn with
  | none => exact outside _ hf
  | some f => exact (labelBlock name s).enterNew

theorem emit (h : Walked m ls s s') (i : Instr) : Walked m ls s (s'.emit i) :=
  { h with labelsOk := fun ok => ⟨(h.labelsOk ok).lt, (h.labelsOk ok).inj⟩ }

theorem reject (h : Walked m ls s s') (b : Bool) : Walked m ls s (s'.reject b) :=
  { h with labelsOk := fun ok => ⟨(h.labelsOk ok).lt, (h.labelsOk ok).inj⟩ }

theorem withRet (h : Walked m ls s s') (b : Bool) : Walked m ls s { s' with withRetValue := b } :=
  { h with labelsOk := fun ok => ⟨(h.labelsOk ok).lt, (h.labelsOk ok).inj⟩ }

theorem walkBreak (s : State) : Walked m [] s s.walkBreak := by
  unfold State.walkBreak
  cases s.loopControls.head? with
  | none => exact (refl s).enterNew
  | some l => exact ((refl s).emit _).enterNew

theorem walkContinue (s : State) : Walked m [] s s.walkContinue := by
  unfold State.walkContinue
  cases s.loopControls.head? with
  | none => exact (refl s).enterNew
  | some l => exact ((refl s).emit _).enterNew

theorem walkRetEnd (h : Walked m ls s s') (retbb : Option Block) :
    Walked m ls s (s'.walkRetEnd retbb) := by
  cases retbb with
  | none => exact h
  | some bb => exact ((h.emit _).enterNew).withRet true

/-- A loop: its targets stand on top during its body. -/
theorem inLoop {l : LoopControlInfo} (h : Walked m ls s s')
    (h' : Walked m ls' (s'.pushLoop l) s'') : Walked m (ls ++ ls') s s''.popLoop := by
  refine h.trans { h' with labelsOk := ?_, loops := ?_, labelled := ?_ }
  · intro ok
    have := h'.labelsOk ⟨ok.lt, ok.inj⟩
    exact ⟨this.lt, this.inj⟩
  · exact congrArg List.tail h'.loops
  · intro hm ok
    exact h'.labelled hm ⟨ok.lt, ok.inj⟩

/-- A function: the context of the definition is put back, and its blocks are new. -/
theorem fnDefine {ret : Option Id} (h : Walked m ls (s.beginFn ret) s') :
    Walked m ls s (s'.endFn m s.insertBlock (s.newFn ret) (s.newNode ret)) where
  next_le := by
    rw [State.endFn_next]
    exact (Nat.le_add_right _ 3).trans h.next_le
  labels_keep l b hl := by
    rw [State.endFn_labelMap]
    exact h.labels_keep l b hl
  labels_new l b hl := by
    rw [State.endFn_labelMap] at hl
    exact (h.labels_new l b hl).imp_right (Nat.le_add_right _ 3).trans
  labelsOk ok := by
    have := h.labelsOk ⟨fun l b hl => (ok.lt l b hl).trans_le (Nat.le_add_right _ 3), ok.inj⟩
    refine ⟨?_, ?_⟩
    · intro l b hl
      rw [State.endFn_labelMap] at hl
      rw [State.endFn_next]
      exact this.lt l b hl
    · intro l l' b hl hl'
      rw [State.endFn_labelMap] at hl hl'
      exact this.inj l l' b hl hl'
  loops := State.endFn_loopControls.trans h.loops
  stack hm := by
    subst hm
    obtain ⟨hf, hn, hs, -⟩ := State.endFn_none s.insertBlock (s.newFn ret) (s.newNode ret)
      (h.stack rfl).2.2
    exact ⟨hf, hn, hs⟩
  parent b hlt hl := by
    have hret : b ≠ (s.newNode ret).retbb := (Nat.lt_succ_of_lt hlt).ne
    have hentry : b ≠ s.next + 2 := (Nat.lt_add_right 2 hlt).ne
    rw [State.endFn_parent, Function.update_of_ne hret,
      h.parent b (Nat.lt_add_right 3 hlt) hl]
    exact Function.update_of_ne hentry _ _
  labelled hm ok f hf l hl b hb := by
    have hret : b ≠ (s.newNode ret).retbb := (Nat.lt_succ_of_lt (ok.lt l b hb)).ne
    obtain ⟨g, hg, hfg⟩ := h.labelled hm
      ⟨fun l b hl => (ok.lt l b hl).trans_le (Nat.le_add_right _ 3), ok.inj⟩ _ rfl l hl b hb
    rw [State.endFn_parent, Function.update_of_ne hret]
    refine ⟨g, hg, .inr ?_⟩
    rcases hfg with rfl | hle
    · exact le_rfl
    · exact (Nat.le_add_right _ 3).trans hle

end Walked

variable {m : Option Main}

/-- **What any walk does**, to any node from any state. -/
theorem Node.walked {c : Symbol} (t : Node c) (s : State) : Walked m t.labels s (t.walk m s) := by
  induction t generalizing s with
  | atom | decl | noConds | noBodies | noFns | noStmt => exact .refl s
  | operands left right ihl ihr => exact (ihl s).trans (ihr _)
  | fnThen fn rest ihf ihr => exact (ihf s).trans (ihr _)
  | stmtThen first rest ihf ihr => exact (ihf s).trans (ihr _)
  | simple parts ih => exact ih s
  | lexicalBody stmts ih => exact ih s
  | fnStmt fn ih => exact ih s
  | fnDefineImpl fns ih => exact ih s
  | landor left right ihl ihr =>
      unfold walk
      cases hf : s.currFn with
      | none => exact .outside _ hf
      | some f =>
          have h := (((ihl s).trans (.genBb 2 _)).enter (ihl s).next_le).trans (ihr _)
          rw [List.append_nil] at h
          exact h.enter ((ihl s).next_le.trans (Nat.le_succ _))
  | ife cond thens elses ihc iht ihe =>
      unfold walk
      cases hf : s.currFn with
      | none => exact .outside _ hf
      | some f =>
          have h := ((((Walked.genBb 3 s).trans (ihc _)).enter le_rfl).trans (iht _)).enter
            (Nat.le_add_right _ 2)
          have h := (h.trans (ihe _)).enter (Nat.le_succ _)
          rw [List.nil_append, List.append_assoc] at h
          exact h
  | condThen cond rest ihc ihr => exact (ihc s).enterNew.trans (ihr _)
  | bodyThen body rest ihb ihr =>
      exact ((Walked.refl s).enterNew.trans (ihb _)).trans (ihr _)
  | fnDefine ret stmts ih => exact (ih _).fnDefine
  | retVoid => exact ((Walked.refl s).reject _).walkRetEnd _
  | retExpr value type ih => exact (((ih s).reject _).emit _).walkRetEnd _
  | breakStmt => exact .walkBreak s
  | continueStmt => exact .walkContinue s
  | label name => exact .walkLabel name s
  | labelGoto name => exact .walkLabelGoto name s
  | loop body ih =>
      unfold walk
      cases hf : s.currFn with
      | none => exact .outside _ hf
      | some f =>
          exact (((Walked.genBb 2 s).enter le_rfl).inLoop (ih _)).enter (Nat.le_succ _)
  | whileStmt cond body ihc ihb =>
      unfold walk
      cases hf : s.currFn with
      | none => exact .outside _ hf
      | some f =>
          have h := (((Walked.genBb 3 s).enter le_rfl).trans (ihc _)).enter (Nat.le_succ _)
          exact (h.inLoop (ihb _)).enter (Nat.le_add_right _ 2)
  | forStmt list body ihl ihb =>
      unfold walk
      cases hf : s.currFn with
      | none => exact .outside _ hf
      | some f =>
          have h := (((Walked.genBb 3 s).trans (ihl _)).enter le_rfl).enter (Nat.le_succ _)
          exact (h.inLoop (ihb _)).enter (Nat.le_add_right _ 2)
  | ifStmt conds bodies ihc ihb =>
      unfold walk
      cases hf : s.currFn with
      | none => exact .outside _ hf
      | some f => exact (((Walked.genBb 1 s).trans (ihc _)).trans (ihb _)).enter le_rfl

end CaLang.Codegen

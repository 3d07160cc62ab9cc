import CaLang.Codegen.LabelTrace

/-! # Labels that a walk does not use

A walk is **the same whatever the label map has for other names**: two states that agree on
the names used, and in all but the label map, give the same uses and agree after it.
-/

namespace CaLang.Codegen

/-- A state with another label map. -/
def State.withLabels (s : State) (M : Id → Option Block) : State := { s with labelMap := M }

section

variable (m : Option Main) (node : FnNode) (s : State) (M : Id → Option Block)

theorem State.generateFinalReturn_withLabels :
    (s.withLabels M).generateFinalReturn m node =
      (s.generateFinalReturn m node).withLabels M := by
  unfold generateFinalReturn
  cases node.ret with
  | none => rfl
  | some ret =>
      obtain ⟨_, _, _, _, _, _, returned, _⟩ := s
      cases returned <;> cases m <;> rfl

theorem State.endFn_withLabels (saved : Option Block) (fn : Fn) :
    (s.withLabels M).endFn m saved fn node = (s.endFn m saved fn node).withLabels M := by
  have h := generateFinalReturn_withLabels m node (s.enterRet fn node.retbb) M
  have hret : (s.withLabels M).enterRet fn node.retbb =
      (s.enterRet fn node.retbb).withLabels M := rfl
  unfold endFn
  rw [hret, h]
  cases m <;> rfl

end

/-- The states are the same but for the label map, and there too for the names in `N`. -/
def Agree (N : Id → Prop) (s s' : State) : Prop :=
  ∃ M, s' = s.withLabels M ∧ ∀ l, N l → M l = s.labelMap l

namespace Agree

variable {N : Id → Prop} {s s' : State} {m : Option Main}

/-- Steps that do nothing with labels keep the agreement. -/
theorem step (h : Agree N s s') {g : State → State}
    (hg : ∀ s M, g (s.withLabels M) = (g s).withLabels M ∧ (g s).labelMap = s.labelMap) :
    Agree N (g s) (g s') := by
  obtain ⟨M, rfl, hM⟩ := h
  exact ⟨M, (hg s M).1, fun l hl => (hM l hl).trans (congrFun (hg s M).2 l).symm⟩

theorem next_eq (h : Agree N s s') : s'.next = s.next := by
  obtain ⟨M, rfl, -⟩ := h
  rfl

theorem currFn_eq (h : Agree N s s') : s'.currFn = s.currFn := by
  obtain ⟨M, rfl, -⟩ := h
  rfl

/-- A label gets the same block. -/
theorem labelBlock (h : Agree N s s') {l : Id} (hl : N l) :
    (s'.labelBlock l).1 = (s.labelBlock l).1 ∧
      Agree N (s.labelBlock l).2 (s'.labelBlock l).2 := by
  obtain ⟨M, rfl, hM⟩ := h
  unfold State.labelBlock
  have hl' : (s.withLabels M).labelMap l = s.labelMap l := hM l hl
  rw [hl']
  cases s.labelMap l with
  | some bb => exact ⟨rfl, M, rfl, hM⟩
  | none =>
      refine ⟨rfl, _, rfl, ?_⟩
      intro n hn
      change Function.update M l _ n = Function.update s.labelMap l _ n
      by_cases hne : n = l
      · rw [hne, Function.update_self, Function.update_self]
        rfl
      · rw [Function.update_of_ne hne, Function.update_of_ne hne, hM n hn]

theorem genBb (h : Agree N s s') (n : Nat) : Agree N (s.genBb n) (s'.genBb n) :=
  h.step (g := State.genBb n) fun _ _ => ⟨rfl, rfl⟩

theorem enter (h : Agree N s s') {bb bb' : Block} (hb : bb' = bb) :
    Agree N (s.enter bb) (s'.enter bb') :=
  hb ▸ h.step (g := State.enter bb') fun _ _ => ⟨rfl, rfl⟩

theorem enterNew (h : Agree N s s') : Agree N s.enterNew s'.enterNew :=
  (h.genBb 1).enter h.next_eq

theorem emit (h : Agree N s s') (i : Instr) : Agree N (s.emit i) (s'.emit i) :=
  h.step (g := State.emit i) fun _ _ => ⟨rfl, rfl⟩

theorem pushLoop (h : Agree N s s') {l l' : LoopControlInfo} (hl : l' = l) :
    Agree N (s.pushLoop l) (s'.pushLoop l') :=
  hl ▸ h.step (g := State.pushLoop l') fun _ _ => ⟨rfl, rfl⟩

theorem popLoop (h : Agree N s s') : Agree N s.popLoop s'.popLoop :=
  h.step (g := State.popLoop) fun _ _ => ⟨rfl, rfl⟩

theorem walkRetEnd (h : Agree N s s') (retbb : Option Block) :
    Agree N (s.walkRetEnd retbb) (s'.walkRetEnd retbb) := by
  cases retbb with
  | none => exact h
  | some bb =>
      exact (h.emit (.br bb)).enterNew.step (g := fun x => { x with withRetValue := true })
        fun _ _ => ⟨rfl, rfl⟩

theorem walkBreak (h : Agree N s s') : Agree N s.walkBreak s'.walkBreak := by
  apply h.step
  intro s M
  have hl : (s.withLabels M).loopControls = s.loopControls := rfl
  unfold State.walkBreak
  rw [hl]
  cases s.loopControls.head? <;> exact ⟨rfl, rfl⟩

theorem walkContinue (h : Agree N s s') : Agree N s.walkContinue s'.walkContinue := by
  apply h.step
  intro s M
  have hl : (s.withLabels M).loopControls = s.loopControls := rfl
  unfold State.walkContinue
  rw [hl]
  cases s.loopControls.head? <;> exact ⟨rfl, rfl⟩

theorem endFn (h : Agree N s s') (saved : Option Block) (fn : Fn) (node : FnNode) :
    Agree N (s.endFn m saved fn node) (s'.endFn m saved fn node) :=
  h.step fun s M => ⟨s.endFn_withLabels m node M saved fn, State.endFn_labelMap⟩

/-- A label or goto, in the same function. -/
theorem useWalk (h : Agree N s s') {u : Use} (hN : s.currFn ≠ none → N u.name) :
    s'.useWalk u = s.useWalk u := by
  unfold State.useWalk
  rw [h.currFn_eq]
  cases hf : s.currFn with
  | none => rfl
  | some f =>
      dsimp only
      rw [(h.labelBlock (hN (hf ▸ nofun))).1]

theorem walkLabel (h : Agree N s s') {l : Id} (hN : s.currFn ≠ none → N l) :
    Agree N (s.walkLabel l) (s'.walkLabel l) := by
  unfold State.walkLabel
  rw [h.currFn_eq]
  cases hf : s.currFn with
  | none => exact h
  | some f =>
      obtain ⟨hb, h⟩ := h.labelBlock (hN (hf ▸ nofun))
      exact h.enter hb

theorem walkLabelGoto (h : Agree N s s') {l : Id} (hN : s.currFn ≠ none → N l) :
    Agree N (s.walkLabelGoto l) (s'.walkLabelGoto l) := by
  unfold State.walkLabelGoto
  rw [h.currFn_eq]
  cases hf : s.currFn with
  | none => exact h
  | some f =>
      exact (h.labelBlock (hN (hf ▸ nofun))).2.enterNew

end Agree

/-- Two walks with the same uses, behind which the states agree. -/
structure Alike (N : Id → Prop) (es es' : List (Event UseWalk FnWalk)) (s s' : State) : Prop where
  uses : Event.uses es' = Event.uses es
  agree : Agree N s s'

namespace Alike

variable {N : Id → Prop} {es es' fs fs' : List (Event UseWalk FnWalk)} {s s' r r' : State}

theorem of_agree (h : Agree N s s') : Alike N [] [] s s' := ⟨rfl, h⟩

theorem andThen (h : Alike N es es' s s') (h' : Agree N r r') : Alike N es es' r r' :=
  ⟨h.uses, h'⟩

/-- One walk behind another. -/
theorem append (h : Alike N es es' s s') (h' : Alike N fs fs' r r') :
    Alike N (es ++ fs) (es' ++ fs') r r' :=
  ⟨by rw [Event.uses_append, Event.uses_append, h.uses, h'.uses], h'.agree⟩

end Alike

/-- **Walks from agreeing states are alike.** -/
theorem Node.alike {m : Option Main} {N : Id → Prop} {c : Symbol} (t : Node c) {s s' : State}
    (h : Agree N s s') (hN : ∀ u ∈ allUses m (t.trace m s), N u.use.name) :
    Alike N (t.trace m s) (t.trace m s') (t.walk m s) (t.walk m s') := by
  have left {es es' : List (Event UseWalk FnWalk)} (h : ∀ u ∈ allUses m (es ++ es'), N u.use.name) :
      ∀ u ∈ allUses m es, N u.use.name := fun u hu => h u (mem_allUses_append.mpr (.inl hu))
  have right {es es' : List (Event UseWalk FnWalk)}
      (h : ∀ u ∈ allUses m (es ++ es'), N u.use.name) :
      ∀ u ∈ allUses m es', N u.use.name := fun u hu => h u (mem_allUses_append.mpr (.inr hu))
  induction t generalizing s s' with
  | atom | decl | noConds | noBodies | noFns | noStmt => exact .of_agree h
  | operands l r ihl ihr =>
      have hl := ihl h (left hN)
      exact hl.append (ihr hl.agree (right hN))
  | fnThen fn rest ihf ihr =>
      have hf := ihf h (left hN)
      exact hf.append (ihr hf.agree (right hN))
  | stmtThen first rest ihf ihr =>
      have hf := ihf h (left hN)
      exact hf.append (ihr hf.agree (right hN))
  | condThen cond rest ihc ihr =>
      have hc := ihc h (left hN)
      exact hc.append (ihr hc.agree.enterNew (right hN))
  | bodyThen body rest ihb ihr =>
      have hb := ihb h.enterNew (left hN)
      exact hb.append (ihr hb.agree (right hN))
  | simple parts ih => exact ih h hN
  | lexicalBody stmts ih => exact ih h hN
  | fnStmt fn ih => exact ih h hN
  | fnDefineImpl fns ih => exact ih h hN
  | fnDefine ret stmts ih =>
      have hb := ih (h.step (g := State.beginFn ret) fun _ _ => ⟨rfl, rfl⟩)
        fun u hu => hN u (mem_allUses_nested.mpr hu)
      refine ⟨(Event.uses_nested _ _).trans (Event.uses_nested _ _).symm, ?_⟩
      obtain ⟨M, rfl, -⟩ := h
      exact hb.agree.endFn _ _ _
  | retVoid =>
      obtain ⟨M, rfl, hM⟩ := h
      refine .of_agree (Agree.walkRetEnd (s := State.reject _ s) ⟨M, rfl, hM⟩ _)
  | retExpr value type ih =>
      have hv := ih h hN
      obtain ⟨M, rfl, hM⟩ := h
      refine hv.andThen (Agree.walkRetEnd ?_ _)
      exact hv.agree.step (g := fun x => (x.reject (decide (s.currFn.bind Fn.ret ≠ some type))).emit
        (.store (x.currFnNode.bind FnNode.retslot))) fun _ _ => ⟨rfl, rfl⟩
  | breakStmt => exact .of_agree h.walkBreak
  | continueStmt => exact .of_agree h.walkContinue
  | label name =>
      have hname : s.currFn ≠ none → N name := by
        intro hf
        obtain ⟨f, hf⟩ := Option.ne_none_iff_exists'.mp hf
        refine hN ⟨.label name, (s.labelBlock name).1, f⟩ (mem_allUses.mpr (.inl ?_))
        simp only [trace, State.useWalk, hf]
        exact List.mem_singleton.mpr rfl
      exact ⟨congrArg Event.uses (h.useWalk hname), h.walkLabel hname⟩
  | labelGoto name =>
      have hname : s.currFn ≠ none → N name := by
        intro hf
        obtain ⟨f, hf⟩ := Option.ne_none_iff_exists'.mp hf
        refine hN ⟨.goto name, (s.labelBlock name).1, f⟩ (mem_allUses.mpr (.inl ?_))
        simp only [trace, State.useWalk, hf]
        exact List.mem_singleton.mpr rfl
      exact ⟨congrArg Event.uses (h.useWalk hname), h.walkLabelGoto hname⟩
  | landor l r ihl ihr =>
      unfold trace at hN
      unfold walk trace
      rw [h.currFn_eq]
      cases hf : s.currFn with
      | none => exact .of_agree h
      | some f =>
          rw [hf] at hN
          have hl := ihl h (left hN)
          have hr := ihr ((hl.agree.genBb 2).enter hl.agree.next_eq) (right hN)
          exact hl.append (hr.andThen (hr.agree.enter (congrArg (· + 1) hl.agree.next_eq)))
  | ife cond thens elses ihc iht ihe =>
      unfold trace at hN
      unfold walk trace
      rw [h.currFn_eq]
      cases hf : s.currFn with
      | none => exact .of_agree h
      | some f =>
          rw [hf] at hN
          have hc := ihc (h.genBb 3) (left hN)
          have ht := iht (hc.agree.enter h.next_eq) (left (right hN))
          have he := ihe (ht.agree.enter (congrArg (· + 2) h.next_eq)) (right (right hN))
          exact hc.append (ht.append (he.andThen
            (he.agree.enter (congrArg (· + 1) h.next_eq))))
  | loop body ih =>
      unfold trace at hN
      unfold walk trace
      rw [h.currFn_eq]
      cases hf : s.currFn with
      | none => exact .of_agree h
      | some f =>
          rw [hf] at hN
          have hb := ih (((h.genBb 2).enter h.next_eq).pushLoop
            (congrArg (fun n => ⟨n, n + 1⟩) h.next_eq)) hN
          exact hb.andThen (hb.agree.popLoop.enter (congrArg (· + 1) h.next_eq))
  | whileStmt cond body ihc ihb =>
      unfold trace at hN
      unfold walk trace
      rw [h.currFn_eq]
      cases hf : s.currFn with
      | none => exact .of_agree h
      | some f =>
          rw [hf] at hN
          have hc := ihc ((h.genBb 3).enter h.next_eq) (left hN)
          have hb := ihb ((hc.agree.enter (congrArg (· + 1) h.next_eq)).pushLoop
            (congrArg (fun n => ⟨n, n + 2⟩) h.next_eq)) (right hN)
          exact hc.append (hb.andThen
            (hb.agree.popLoop.enter (congrArg (· + 2) h.next_eq)))
  | forStmt list body ihl ihb =>
      unfold trace at hN
      unfold walk trace
      rw [h.currFn_eq]
      cases hf : s.currFn with
      | none => exact .of_agree h
      | some f =>
          rw [hf] at hN
          have hl := ihl (h.genBb 3) (left hN)
          have hb := ihb (((hl.agree.enter h.next_eq).enter (congrArg (· + 1) h.next_eq)).pushLoop
            (congrArg (fun n => ⟨n, n + 2⟩) h.next_eq)) (right hN)
          exact hl.append (hb.andThen
            (hb.agree.popLoop.enter (congrArg (· + 2) h.next_eq)))
  | ifStmt conds bodies ihc ihb =>
      unfold trace at hN
      unfold walk trace
      rw [h.currFn_eq]
      cases hf : s.currFn with
      | none => exact .of_agree h
      | some f =>
          rw [hf] at hN
          have hc := ihc (h.genBb 1) (left hN)
          have hb := ihb hc.agree (right hN)
          exact hc.append (hb.andThen (hb.agree.enter h.next_eq))

end CaLang.Codegen

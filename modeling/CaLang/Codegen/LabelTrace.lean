import CaLang.Codegen.Source
import CaLang.Codegen.Walked

/-! # The labels that are walked

`Node.trace` lists what a walk does with labels: each label and goto **with the block that
`label_map` gives it and the function it is generated in**, and each function with the state it
begins in.  `Node.events` is the same list of the tree alone.

Every walk is a `Run`: silent steps, labels, gotos and functions, one after another.  What the
labels need of a walk is proved by induction on its run.
-/

namespace CaLang.Codegen

/-- A label or goto as it is walked: the block it gets, which a label inserts in the function and a
goto there branches to. -/
structure UseWalk where
  use : Use
  block : Block
  fn : Fn
  deriving DecidableEq

/-- A function whose statements are walked from a state. -/
structure FnWalk where
  fn : Fn
  stmts : Node .stmts
  start : State

/-- A label or goto in a state. -/
def State.useWalk (u : Use) (s : State) : List (Event UseWalk FnWalk) :=
  match s.currFn with
  | none => []
  | some f => [.use ⟨u, (s.labelBlock u.name).1, f⟩]

variable (m : Option Main) in
/-- The labels, gotos and functions of a node walked from a state. -/
def Node.trace : {c : Symbol} → Node c → State → List (Event UseWalk FnWalk)
  | _, .atom, _ => []
  | _, .operands left right, s => left.trace s ++ right.trace (left.walk m s)
  | _, .landor left right, s =>
      match s.currFn with
      | none => []
      | some _ =>
          left.trace s ++ right.trace (((left.walk m s).genBb 2).enter (left.walk m s).next)
  | _, .ife cond thens elses, s =>
      match s.currFn with
      | none => []
      | some _ =>
          let s₁ := s.genBb 3
          let s₂ := (cond.walk m s₁).enter s.next
          let s₃ := (thens.walk m s₂).enter (s.next + 2)
          cond.trace s₁ ++ (thens.trace s₂ ++ elses.trace s₃)
  | _, .noConds, _ => []
  | _, .condThen cond rest, s => cond.trace s ++ rest.trace (cond.walk m s).enterNew
  | _, .noBodies, _ => []
  | _, .bodyThen body rest, s =>
      body.trace s.enterNew ++ rest.trace (body.walk m s.enterNew)
  | _, .fnDefine ret stmts, s =>
      Event.nested ⟨s.newFn ret, stmts, s.beginFn ret⟩ (stmts.trace (s.beginFn ret))
  | _, .noFns, _ => []
  | _, .fnThen fn rest, s => fn.trace s ++ rest.trace (fn.walk m s)
  | _, .simple parts, s => parts.trace s
  | _, .decl, _ => []
  | _, .retVoid, _ => []
  | _, .retExpr value _, s => value.trace s
  | _, .breakStmt, _ => []
  | _, .continueStmt, _ => []
  | _, .label name, s => s.useWalk (.label name)
  | _, .labelGoto name, s => s.useWalk (.goto name)
  | _, .loop body, s =>
      match s.currFn with
      | none => []
      | some _ => body.trace (((s.genBb 2).enter s.next).pushLoop ⟨s.next, s.next + 1⟩)
  | _, .whileStmt cond body, s =>
      match s.currFn with
      | none => []
      | some _ =>
          let s₁ := (s.genBb 3).enter s.next
          cond.trace s₁ ++
            body.trace (((cond.walk m s₁).enter (s.next + 1)).pushLoop ⟨s.next, s.next + 2⟩)
  | _, .forStmt list body, s =>
      match s.currFn with
      | none => []
      | some _ =>
          let s₁ := ((list.walk m (s.genBb 3)).enter s.next).enter (s.next + 1)
          list.trace (s.genBb 3) ++ body.trace (s₁.pushLoop ⟨s.next, s.next + 2⟩)
  | _, .ifStmt conds bodies, s =>
      match s.currFn with
      | none => []
      | some _ => conds.trace (s.genBb 1) ++ bodies.trace (conds.walk m (s.genBb 1))
  | _, .lexicalBody stmts, s => stmts.trace s
  | _, .fnStmt fn, s => fn.trace s
  | _, .fnDefineImpl fns, s => fns.trace s
  | _, .noStmt, _ => []
  | _, .stmtThen first rest, s => first.trace s ++ rest.trace (first.walk m s)

/-- What stands in a function only. -/
def inside {α : Type} (inFn : Bool) (es : List α) : List α := if inFn then es else []

/-- The labels, gotos and functions of a node in a function, or outside of them. -/
def Node.events (inFn : Bool) : {c : Symbol} → Node c → List (Event Use (Node .stmts))
  | _, .atom => []
  | _, .operands left right => left.events inFn ++ right.events inFn
  | _, .landor left right => inside inFn (left.events inFn ++ right.events inFn)
  | _, .ife cond thens elses =>
      inside inFn (cond.events inFn ++ (thens.events inFn ++ elses.events inFn))
  | _, .noConds => []
  | _, .condThen cond rest => cond.events inFn ++ rest.events inFn
  | _, .noBodies => []
  | _, .bodyThen body rest => body.events inFn ++ rest.events inFn
  | _, .fnDefine _ stmts => Event.nested stmts (stmts.events true)
  | _, .noFns => []
  | _, .fnThen fn rest => fn.events inFn ++ rest.events inFn
  | _, .simple parts => parts.events inFn
  | _, .decl => []
  | _, .retVoid => []
  | _, .retExpr value _ => value.events inFn
  | _, .breakStmt => []
  | _, .continueStmt => []
  | _, .label name => inside inFn [.use (.label name)]
  | _, .labelGoto name => inside inFn [.use (.goto name)]
  | _, .loop body => inside inFn (body.events inFn)
  | _, .whileStmt cond body => inside inFn (cond.events inFn ++ body.events inFn)
  | _, .forStmt list body => inside inFn (list.events inFn ++ body.events inFn)
  | _, .ifStmt conds bodies => inside inFn (conds.events inFn ++ bodies.events inFn)
  | _, .lexicalBody stmts => stmts.events inFn
  | _, .fnStmt fn => fn.events inFn
  | _, .fnDefineImpl fns => fns.events inFn
  | _, .noStmt => []
  | _, .stmtThen first rest => first.events inFn ++ rest.events inFn

/-! ### Runs -/

/-- A step that leaves the labels and the function as they are. -/
structure Silent (s s' : State) : Prop where
  labelMap : s'.labelMap = s.labelMap
  currFn : s'.currFn = s.currFn
  next_le : s.next ≤ s'.next

namespace Silent

theorem trans {s s' s'' : State} (h : Silent s s') (h' : Silent s' s'') : Silent s s'' :=
  ⟨h'.labelMap.trans h.labelMap, h'.currFn.trans h.currFn, h.next_le.trans h'.next_le⟩

theorem refl (s : State) : Silent s s := ⟨rfl, rfl, le_rfl⟩

theorem genBb (n : Nat) (s : State) : Silent s (s.genBb n) := ⟨rfl, rfl, Nat.le_add_right _ _⟩

theorem enter (bb : Block) (s : State) : Silent s (s.enter bb) := ⟨rfl, rfl, le_rfl⟩

theorem enterNew (s : State) : Silent s s.enterNew := (genBb 1 s).trans (enter _ _)

theorem emit (i : Instr) (s : State) : Silent s (s.emit i) := ⟨rfl, rfl, le_rfl⟩

theorem reject (b : Bool) (s : State) : Silent s (s.reject b) := ⟨rfl, rfl, le_rfl⟩

theorem pushLoop (l : LoopControlInfo) (s : State) : Silent s (s.pushLoop l) :=
  ⟨rfl, rfl, le_rfl⟩

theorem popLoop (s : State) : Silent s s.popLoop := ⟨rfl, rfl, le_rfl⟩

theorem walkRetEnd (retbb : Option Block) (s : State) : Silent s (s.walkRetEnd retbb) := by
  cases retbb with
  | none => exact refl s
  | some bb =>
      have h := (emit (.br bb) s).trans (enterNew _)
      exact ⟨h.labelMap, h.currFn, h.next_le⟩

theorem walkBreak (s : State) : Silent s s.walkBreak := by
  unfold State.walkBreak
  cases s.loopControls.head? with
  | none => exact enterNew s
  | some l => exact (emit _ s).trans (enterNew _)

theorem walkContinue (s : State) : Silent s s.walkContinue := by
  unfold State.walkContinue
  cases s.loopControls.head? with
  | none => exact enterNew s
  | some l => exact (emit _ s).trans (enterNew _)

end Silent

/-- What a walk does with labels. -/
inductive Run (m : Option Main) : State → List (Event UseWalk FnWalk) → State → Prop
  | silent {s s' : State} (h : Silent s s') : Run m s [] s'
  | seq {s s' s'' : State} {es es' : List (Event UseWalk FnWalk)} (h : Run m s es s')
      (h' : Run m s' es' s'') : Run m s (es ++ es') s''
  | use {s s' : State} {f : Fn} (u : Use) (hf : s.currFn = some f)
      (h : Silent (s.labelBlock u.name).2 s') :
      Run m s [.use ⟨u, (s.labelBlock u.name).1, f⟩] s'
  | fn {s : State} (ret : Option Id) (stmts : Node .stmts)
      (h : Run m (s.beginFn ret) (stmts.trace m (s.beginFn ret))
        (stmts.walk m (s.beginFn ret))) :
      Run m s (Event.nested ⟨s.newFn ret, stmts, s.beginFn ret⟩ (stmts.trace m (s.beginFn ret)))
        ((stmts.walk m (s.beginFn ret)).endFn m s.insertBlock (s.newFn ret) (s.newNode ret))

namespace Run

variable {m : Option Main} {s s' s'' : State} {es : List (Event UseWalk FnWalk)}

theorem before (h' : Run m s' es s'') (h : Silent s s') : Run m s es s'' :=
  (Run.silent h).seq h'

theorem andThen (h : Run m s es s') (h' : Silent s' s'') : Run m s es s'' :=
  List.append_nil es ▸ h.seq (.silent h')

theorem useWalk (u : Use) (hs : s.currFn = none → s' = s)
    (h : s.currFn ≠ none → Silent (s.labelBlock u.name).2 s') : Run m s (s.useWalk u) s' := by
  unfold State.useWalk
  cases hf : s.currFn with
  | none => exact .silent (hs hf ▸ .refl s)
  | some f => exact .use u hf (h (hf ▸ nofun))

end Run

/-- **A walk is a run.** -/
theorem Node.run {m : Option Main} {c : Symbol} (t : Node c) (s : State) :
    Run m s (t.trace m s) (t.walk m s) := by
  induction t generalizing s with
  | atom | decl | noConds | noBodies | noFns | noStmt => exact .silent (.refl s)
  | operands left right ihl ihr => exact (ihl s).seq (ihr _)
  | fnThen fn rest ihf ihr => exact (ihf s).seq (ihr _)
  | stmtThen first rest ihf ihr => exact (ihf s).seq (ihr _)
  | simple parts ih => exact ih s
  | lexicalBody stmts ih => exact ih s
  | fnStmt fn ih => exact ih s
  | fnDefineImpl fns ih => exact ih s
  | landor left right ihl ihr =>
      unfold walk trace
      cases hf : s.currFn with
      | none => exact .silent (.refl s)
      | some f =>
          have hr := (ihr _).before
            ((Silent.genBb 2 (left.walk m s)).trans (.enter (left.walk m s).next _))
          exact (ihl s).seq (hr.andThen (.enter _ _))
  | ife cond thens elses ihc iht ihe =>
      unfold walk trace
      cases hf : s.currFn with
      | none => exact .silent (.refl s)
      | some f =>
          have hc := (ihc _).before (Silent.genBb 3 s)
          have ht := (iht _).before (Silent.enter s.next (cond.walk m (s.genBb 3)))
          exact hc.seq (ht.seq (((ihe _).before (.enter (s.next + 2) _)).andThen (.enter _ _)))
  | condThen cond rest ihc ihr => exact (ihc s).seq ((ihr _).before (.enterNew _))
  | bodyThen body rest ihb ihr => exact ((ihb _).before (.enterNew s)).seq (ihr _)
  | fnDefine ret stmts ih => exact .fn ret stmts (ih _)
  | retVoid => exact .silent ((Silent.reject _ s).trans (.walkRetEnd _ _))
  | retExpr value type ih =>
      exact (ih s).andThen (((Silent.reject _ _).trans (.emit _ _)).trans (.walkRetEnd _ _))
  | breakStmt => exact .silent (.walkBreak s)
  | continueStmt => exact .silent (.walkContinue s)
  | label name =>
      refine .useWalk (.label name) ?_ ?_
      · intro hf
        simp only [walk, State.walkLabel, hf]
      · intro hf
        obtain ⟨f, hf⟩ := Option.ne_none_iff_exists'.mp hf
        simp only [walk, State.walkLabel, hf]
        exact .enter _ _
  | labelGoto name =>
      refine .useWalk (.goto name) ?_ ?_
      · intro hf
        simp only [walk, State.walkLabelGoto, hf]
      · intro hf
        obtain ⟨f, hf⟩ := Option.ne_none_iff_exists'.mp hf
        simp only [walk, State.walkLabelGoto, hf]
        exact .enterNew _
  | loop body ih =>
      unfold walk trace
      cases hf : s.currFn with
      | none => exact .silent (.refl s)
      | some f =>
          have hs := ((Silent.genBb 2 s).trans (.enter s.next _)).trans
            (.pushLoop ⟨s.next, s.next + 1⟩ _)
          exact ((ih _).before hs).andThen ((Silent.popLoop _).trans (.enter _ _))
  | whileStmt cond body ihc ihb =>
      unfold walk trace
      cases hf : s.currFn with
      | none => exact .silent (.refl s)
      | some f =>
          have hc := (ihc _).before ((Silent.genBb 3 s).trans (.enter s.next _))
          have hb := (ihb _).before ((Silent.enter (s.next + 1)
            (cond.walk m ((s.genBb 3).enter s.next))).trans (.pushLoop ⟨s.next, s.next + 2⟩ _))
          exact hc.seq (hb.andThen ((Silent.popLoop _).trans (.enter _ _)))
  | forStmt list body ihl ihb =>
      unfold walk trace
      cases hf : s.currFn with
      | none => exact .silent (.refl s)
      | some f =>
          have hl := (ihl _).before (Silent.genBb 3 s)
          have hb := (ihb _).before (((Silent.enter s.next (list.walk m (s.genBb 3))).trans
            (.enter (s.next + 1) _)).trans (.pushLoop ⟨s.next, s.next + 2⟩ _))
          exact hl.seq (hb.andThen ((Silent.popLoop _).trans (.enter _ _)))
  | ifStmt conds bodies ihc ihb =>
      unfold walk trace
      cases hf : s.currFn with
      | none => exact .silent (.refl s)
      | some f =>
          have hc := (ihc _).before (Silent.genBb 1 s)
          exact hc.seq ((ihb _).andThen (.enter _ _))

/-! ### What a run does to the label map -/

/-- The labels and gotos of a function. -/
def FnWalk.uses (m : Option Main) (F : FnWalk) : List UseWalk :=
  Event.uses (F.stmts.trace m F.start)

/-- The labels and gotos in a list, with those of the functions there. -/
def allUses (m : Option Main) (es : List (Event UseWalk FnWalk)) : List UseWalk :=
  Event.uses es ++ (Event.fns es).flatMap (FnWalk.uses m)

section

variable {m : Option Main} {u : UseWalk} {es es' : List (Event UseWalk FnWalk)}

theorem mem_allUses :
    u ∈ allUses m es ↔ u ∈ Event.uses es ∨ ∃ F ∈ Event.fns es, u ∈ F.uses m := by
  rw [allUses, List.mem_append, List.mem_flatMap]

theorem mem_allUses_append :
    u ∈ allUses m (es ++ es') ↔ u ∈ allUses m es ∨ u ∈ allUses m es' := by
  simp only [mem_allUses, Event.uses_append, Event.fns_append, List.mem_append, or_and_right,
    exists_or]
  exact or_or_or_comm

/-- The uses of a function with those of the functions in it. -/
theorem mem_allUses_nested {F : FnWalk} :
    u ∈ allUses m (Event.nested F (F.stmts.trace m F.start)) ↔
      u ∈ allUses m (F.stmts.trace m F.start) := by
  rw [mem_allUses, mem_allUses, Event.uses_nested, Event.fns_nested, List.exists_mem_cons_iff]
  exact or_iff_right List.not_mem_nil

end

namespace Run

variable {m : Option Main} {s s' : State} {es : List (Event UseWalk FnWalk)}

theorem keeps (h : Run m s es s') {l : Id} {b : Block} (hl : s.labelMap l = some b) :
    s'.labelMap l = some b := by
  induction h with
  | silent h => exact h.labelMap ▸ hl
  | seq _ _ ih ih' => exact ih' (ih hl)
  | use u hf h => exact h.labelMap ▸ (Walked.labelBlock (m := m) _ _).labels_keep l b hl
  | fn ret stmts h ih =>
      rw [State.endFn_labelMap]
      exact ih hl

/-- **The label map gives every use its block**, from then on. -/
theorem made (h : Run m s es s') {u : UseWalk} (hu : u ∈ allUses m es) :
    s'.labelMap u.use.name = some u.block := by
  induction h with
  | silent h => cases hu
  | seq _ h' ih ih' =>
      rcases mem_allUses_append.mp hu with hu | hu
      · exact h'.keeps (ih hu)
      · exact ih' hu
  | use u hf h =>
      cases List.mem_singleton.mp hu
      rw [h.labelMap]
      exact Walked.labelBlock_spec _ _
  | fn ret stmts h ih =>
      rw [State.endFn_labelMap]
      exact ih (mem_allUses_nested.mp hu)

theorem origin (h : Run m s es s') {l : Id} (hl : s'.labelMap l ≠ none) :
    s.labelMap l ≠ none ∨ ∃ u ∈ allUses m es, u.use.name = l := by
  induction h with
  | silent h => exact .inl (h.labelMap ▸ hl)
  | seq _ _ ih ih' =>
      rcases ih' hl with hl | ⟨u, hu, hn⟩
      · rcases ih hl with hl | ⟨u, hu, hn⟩
        · exact .inl hl
        · exact .inr ⟨u, mem_allUses_append.mpr (.inl hu), hn⟩
      · exact .inr ⟨u, mem_allUses_append.mpr (.inr hu), hn⟩
  | @use s _ f u hf h =>
      rw [h.labelMap] at hl
      by_cases hn : u.name = l
      · exact .inr ⟨_, List.mem_singleton.mpr rfl, hn⟩
      · refine .inl ?_
        unfold State.labelBlock at hl
        cases hm : s.labelMap u.name with
        | some bb =>
            rw [hm] at hl
            exact hl
        | none =>
            rw [hm] at hl
            exact (Function.update_of_ne (Ne.symm hn) _ _).symm.trans_ne hl
  | fn ret stmts h ih =>
      rw [State.endFn_labelMap] at hl
      rcases ih hl with hl | ⟨u, hu, hn⟩
      · exact .inl hl
      · exact .inr ⟨u, mem_allUses_nested.mpr hu, hn⟩

theorem next_le (h : Run m s es s') : s.next ≤ s'.next := by
  induction h with
  | silent h => exact h.next_le
  | seq _ _ ih ih' => exact ih.trans ih'
  | use u hf h => exact (Walked.labelBlock (m := m) _ _).next_le.trans h.next_le
  | fn ret stmts h ih =>
      rw [State.endFn_next]
      exact (Nat.le_add_right _ 3).trans ih

/-- The functions walked are new ones, and each begins in itself. -/
theorem fn_new (h : Run m s es s') {F : FnWalk} (hF : F ∈ Event.fns es) :
    s.next ≤ F.fn.id ∧ F.start.currFn = some F.fn := by
  induction h with
  | silent h => cases hF
  | seq h h' ih ih' =>
      rw [Event.fns_append, List.mem_append] at hF
      rcases hF with hF | hF
      · exact ih hF
      · exact ⟨h.next_le.trans (ih' hF).1, (ih' hF).2⟩
  | use u hf h => cases hF
  | fn ret stmts h ih =>
      rw [Event.fns_nested, List.mem_cons] at hF
      rcases hF with rfl | hF
      · exact ⟨le_rfl, rfl⟩
      · exact ⟨(Nat.le_add_right _ 3).trans (ih hF).1, (ih hF).2⟩

end Run

/-! ### The function a label is walked in -/

/-- The current function behind a function walked. -/
def fnAfter (m : Option Main) (f : Option Fn) : Option Fn :=
  match m with
  | some main => some main.fn
  | none => f

/-- The current function behind a list. -/
def currAfter (m : Option Main) : Option Fn → List (Event UseWalk FnWalk) → Option Fn
  | f, [] => f
  | f, .use _ :: es => currAfter m f es
  | f, .fn _ :: es => currAfter m (fnAfter m f) es

/-- Every use is in the current function. -/
def Follows (m : Option Main) : Option Fn → List (Event UseWalk FnWalk) → Prop
  | _, [] => True
  | f, .use u :: es => f = some u.fn ∧ Follows m f es
  | f, .fn _ :: es => Follows m (fnAfter m f) es

section

variable {m : Option Main}

theorem fnAfter_idem (f : Option Fn) : fnAfter m (fnAfter m f) = fnAfter m f := by
  cases m <;> rfl

theorem currAfter_append (es es' : List (Event UseWalk FnWalk)) (f : Option Fn) :
    currAfter m f (es ++ es') = currAfter m (currAfter m f es) es' := by
  induction es generalizing f with
  | nil => rfl
  | cons e es ih =>
      cases e with
      | use u => exact ih f
      | fn F => exact ih _

theorem follows_append (es es' : List (Event UseWalk FnWalk)) (f : Option Fn) :
    Follows m f (es ++ es') ↔ Follows m f es ∧ Follows m (currAfter m f es) es' := by
  induction es generalizing f with
  | nil => exact (iff_of_eq (true_and _)).symm
  | cons e es ih =>
      cases e with
      | use u => exact (and_congr_right fun _ => ih f).trans and_assoc.symm
      | fn F => exact ih _

/-- Behind functions alone. -/
theorem currAfter_fns (Fs : List FnWalk) (f : Option Fn) :
    currAfter m (fnAfter m f) (Fs.map .fn) = fnAfter m f := by
  induction Fs with
  | nil => rfl
  | cons F Fs ih => exact (congrArg (currAfter m · _) (fnAfter_idem f)).trans ih

theorem follows_fns (Fs : List FnWalk) (f : Option Fn) : Follows m f (Fs.map .fn) := by
  induction Fs generalizing f with
  | nil => trivial
  | cons F Fs ih => exact ih _

theorem currAfter_nested (F : FnWalk) (es : List (Event UseWalk FnWalk)) (f : Option Fn) :
    currAfter m f (Event.nested F es) = fnAfter m f := currAfter_fns _ f

theorem follows_nested (F : FnWalk) (es : List (Event UseWalk FnWalk)) (f : Option Fn) :
    Follows m f (Event.nested F es) := follows_fns _ _

end

namespace Run

variable {m : Option Main} {s s' : State} {es : List (Event UseWalk FnWalk)}

theorem currFn (h : Run m s es s') : s'.currFn = currAfter m s.currFn es := by
  induction h with
  | silent h => exact h.currFn
  | seq _ _ ih ih' => rw [currAfter_append, ← ih, ih']
  | @use s _ f u hf h =>
      refine h.currFn.trans ?_
      unfold State.labelBlock
      cases s.labelMap u.name <;> rfl
  | @fn s ret stmts h ih =>
      rw [currAfter_nested]
      cases m with
      | some main => exact (State.endFn_main main).1
      | none => exact ((stmts.walked (s.beginFn ret)).fnDefine.stack rfl).1

/-- **Every label is walked in the current function.** -/
theorem follows (h : Run m s es s') : Follows m s.currFn es := by
  induction h with
  | silent h => trivial
  | seq h _ ih ih' =>
      rw [follows_append, ← h.currFn]
      exact ⟨ih, ih'⟩
  | use u hf h => exact ⟨hf, trivial⟩
  | fn ret stmts h ih => exact follows_nested _ _ _

end Run

end CaLang.Codegen

import CaLang.Codegen.LabelTables
import CaLang.Codegen.LabelCongr
import Mathlib.Data.List.Nodup
import Mathlib.Data.List.Count

/-! # Labels belong to their functions

`Source.FunctionScoped` says what labels and gotos should do: the parser accepts the texts with
their labels in order, and in these **every goto branches to the label of its own function, every
label is inserted once, in its own function, and none of it depends on other functions**.

`Node.LabelsApart` is the condition on the tree: the label map is one for the whole program.
-/

namespace CaLang.Codegen

/-- How often a block is inserted as that of a label. -/
def insertions (us : List UseWalk) (b : Block) : Nat :=
  us.countP fun u => u.use.labelName.isSome && u.block == b

/-- A function with the label map it would have as the first one. -/
def FnWalk.alone (F : FnWalk) : FnWalk :=
  { F with start := { F.start with labelMap := fun _ => none } }

/-- The labels of a function are its own, where `us` are all the labels and gotos of the
program. -/
structure FnWalk.Resolved (m : Option Main) (us : List UseWalk) (F : FnWalk) : Prop where
  /-- A goto branches to the label of its name in the function. -/
  goto : ∀ u ∈ F.uses m, ∀ name, u.use = .goto name →
    ∃ v ∈ F.uses m, v.use = .label name ∧ v.block = u.block
  label : ∀ u ∈ F.uses m, ∀ name, u.use = .label name → insertions us u.block = 1
  /-- Labels are inserted in the function, and gotos are generated there. -/
  placed : ∀ u ∈ F.uses m, u.fn = F.fn
  /-- The result is that of the function alone. -/
  independent : F.alone.uses m = F.uses m

/-- The functions of a program as they are walked, with the generated one. -/
def Program.fnWalks (emitMain : Bool) (p : Program) : List FnWalk :=
  let m := mainOf emitMain
  (m.map fun main => ⟨main.fn, p, codegenBegin emitMain⟩).toList ++
    Event.fns (p.trace m (codegenBegin emitMain))

/-- All labels and gotos that are walked in functions. -/
def Program.useWalks (emitMain : Bool) (p : Program) : List UseWalk :=
  (p.fnWalks emitMain).flatMap (FnWalk.uses (mainOf emitMain))

/-- **Labels and gotos are scoped by functions.** -/
structure Source.FunctionScoped (emitMain : Bool) (p : Source .stmts) : Prop where
  accepted : p.Accepted emitMain ↔ p.WellLabelled emitMain
  resolved : p.Accepted emitMain →
    ∀ F ∈ p.program.fnWalks emitMain, F.Resolved (mainOf emitMain) (p.program.useWalks emitMain)

/-! ### The condition on the tree -/

/-- The labels and gotos of a body, outside of the functions nested in it. -/
def Node.uses (stmts : Node .stmts) : List Use := Event.uses (stmts.events true)

/-- The labels of a body, outside of the functions nested in it. -/
def Node.labelNames (stmts : Node .stmts) : List Id := stmts.uses.filterMap Use.labelName

/-- No label or goto stands behind a function. -/
def Event.usesFirst {α β : Type} : List (Event α β) → Bool
  | [] => true
  | .use _ :: es => usesFirst es
  | .fn _ :: es => (uses es).isEmpty

/-- The bodies of the functions that code is generated for. -/
def Program.bodies (emitMain : Bool) (p : Program) : List (Node .stmts) :=
  (if emitMain then [p] else []) ++ Event.fns (p.events emitMain)

/-- **The labels of a program are apart**: every goto has its label in its function, no label is
used twice in the whole program, and under `-main` no label or goto of a function stands behind a
function nested in it. -/
structure Node.LabelsApart (emitMain : Bool) (p : Program) : Prop where
  defined : ∀ b ∈ p.bodies emitMain, ∀ name, .goto name ∈ b.uses → name ∈ b.labelNames
  distinct : ((p.bodies emitMain).flatMap Node.labelNames).Nodup
  first : emitMain = true → ∀ b ∈ Event.fns (p.events true), Event.usesFirst (b.events true)

/-! ### The trace and the tree -/

section

variable {m : Option Main}

theorem currAfter_isSome {f : Option Fn} (hm : m.isSome = true → f.isSome = true)
    (es : List (Event UseWalk FnWalk)) : (currAfter m f es).isSome = f.isSome := by
  induction es generalizing f with
  | nil => rfl
  | cons e es ih =>
      cases e with
      | use u => exact ih hm
      | fn F =>
          cases m with
          | none => exact ih hm
          | some main => exact (ih fun _ => rfl).trans (hm rfl).symm

theorem Node.walk_isSome {c : Symbol} (t : Node c) {s : State} {inFn : Bool}
    (hm : m.isSome = true → inFn = true) (hs : s.currFn.isSome = inFn) :
    (t.walk m s).currFn.isSome = inFn := by
  rw [(t.run s).currFn, currAfter_isSome (fun h => hs.trans (hm h)), hs]

/-- What is in functions only is there iff there is a function. -/
theorem map_inside {β γ : Type} {f : Option Fn} {inFn : Bool} (hs : f.isSome = inFn)
    (g : β → γ) (es : List β) (es' : List γ) (h : es.map g = es') :
    (match f with | none => [] | some _ => es).map g = inside inFn es' := by
  subst hs h
  cases f <;> rfl

theorem State.map_useWalk {s : State} {inFn : Bool} (hs : s.currFn.isSome = inFn) (u : Use) :
    (s.useWalk u).map (Event.map UseWalk.use FnWalk.stmts) = inside inFn [.use u] := by
  unfold useWalk
  cases hf : s.currFn with
  | none =>
      rw [hf] at hs
      cases hs
      rfl
  | some f =>
      rw [hf] at hs
      cases hs
      rfl

/-- The trace of a node without its states. -/
theorem Node.map_trace {c : Symbol} (t : Node c) {s : State} {inFn : Bool}
    (hm : m.isSome = true → inFn = true) (hs : s.currFn.isSome = inFn) :
    (t.trace m s).map (Event.map UseWalk.use FnWalk.stmts) = t.events inFn := by
  induction t generalizing s inFn with
  | atom | decl | noConds | noBodies | noFns | noStmt | retVoid | breakStmt | continueStmt => rfl
  | operands left right ihl ihr =>
      exact List.map_append.trans
        (congrArg₂ (· ++ ·) (ihl hm hs) (ihr hm (left.walk_isSome hm hs)))
  | fnThen fn rest ihf ihr =>
      exact List.map_append.trans
        (congrArg₂ (· ++ ·) (ihf hm hs) (ihr hm (fn.walk_isSome hm hs)))
  | stmtThen first rest ihf ihr =>
      exact List.map_append.trans
        (congrArg₂ (· ++ ·) (ihf hm hs) (ihr hm (first.walk_isSome hm hs)))
  | condThen cond rest ihc ihr =>
      exact List.map_append.trans
        (congrArg₂ (· ++ ·) (ihc hm hs) (ihr hm (cond.walk_isSome hm hs)))
  | bodyThen body rest ihb ihr =>
      exact List.map_append.trans
        (congrArg₂ (· ++ ·) (ihb hm hs) (ihr hm (body.walk_isSome hm hs)))
  | simple parts ih => exact ih hm hs
  | lexicalBody stmts ih => exact ih hm hs
  | fnStmt fn ih => exact ih hm hs
  | fnDefineImpl fns ih => exact ih hm hs
  | retExpr value type ih => exact ih hm hs
  | fnDefine ret stmts ih =>
      refine (Event.map_nested _ _ _ _).trans ?_
      rw [ih (fun _ => rfl) rfl]
      rfl
  | label name => exact State.map_useWalk hs _
  | labelGoto name => exact State.map_useWalk hs _
  | landor left right ihl ihr =>
      refine map_inside hs _ _ _ (List.map_append.trans ?_)
      exact congrArg₂ (· ++ ·) (ihl hm hs) (ihr hm (left.walk_isSome hm hs))
  | ife cond thens elses ihc iht ihe =>
      have hc := cond.walk_isSome (s := s.genBb 3) hm hs
      have ht := thens.walk_isSome (s := (cond.walk m (s.genBb 3)).enter s.next) hm hc
      refine map_inside hs _ _ _ (List.map_append.trans (congrArg₂ (· ++ ·) (ihc hm hs) ?_))
      exact List.map_append.trans (congrArg₂ (· ++ ·) (iht hm hc) (ihe hm ht))
  | loop body ih => exact map_inside hs _ _ _ (ih hm hs)
  | whileStmt cond body ihc ihb =>
      have hc := cond.walk_isSome (s := (s.genBb 3).enter s.next) hm hs
      refine map_inside hs _ _ _ (List.map_append.trans ?_)
      exact congrArg₂ (· ++ ·) (ihc hm hs) (ihb hm hc)
  | forStmt list body ihl ihb =>
      have hl := list.walk_isSome (s := s.genBb 3) hm hs
      refine map_inside hs _ _ _ (List.map_append.trans ?_)
      exact congrArg₂ (· ++ ·) (ihl hm hs) (ihb hm hl)
  | ifStmt conds bodies ihc ihb =>
      have hc := conds.walk_isSome (s := s.genBb 1) hm hs
      refine map_inside hs _ _ _ (List.map_append.trans ?_)
      exact congrArg₂ (· ++ ·) (ihc hm hs) (ihb hm hc)

/-- The uses of a function walked are those of its body. -/
theorem FnWalk.map_uses {F : FnWalk} (hF : F.start.currFn = some F.fn) :
    (F.uses m).map UseWalk.use = F.stmts.uses := by
  have hs : F.start.currFn.isSome = true := congrArg Option.isSome hF
  rw [uses, Node.uses, ← F.stmts.map_trace (m := m) (fun _ => rfl) hs, Event.uses_map]

/-- The labels of a list of functions, by names. -/
theorem labels_flatMap {Fs : List FnWalk} (hFs : ∀ F ∈ Fs, F.start.currFn = some F.fn) :
    (Fs.flatMap (FnWalk.uses m)).filterMap (fun u => u.use.labelName) =
      (Fs.map FnWalk.stmts).flatMap Node.labelNames := by
  induction Fs with
  | nil => rfl
  | cons F Fs ih =>
      obtain ⟨hF, hFs⟩ := List.forall_mem_cons.mp hFs
      rw [List.flatMap_cons, List.filterMap_append, ih hFs, List.map_cons, List.flatMap_cons,
        Node.labelNames, ← FnWalk.map_uses (m := m) hF, List.filterMap_map]
      rfl

end

/-! ### The functions of a program -/

section

variable {emitMain : Bool} {p : Program} {F : FnWalk}

theorem codegenBegin_isSome (emitMain : Bool) :
    (codegenBegin emitMain).currFn.isSome = emitMain := by
  cases emitMain <;> rfl

theorem mainOf_isSome (emitMain : Bool) : (mainOf emitMain).isSome = emitMain := by
  cases emitMain <;> rfl

theorem Program.map_fnWalks (emitMain : Bool) (p : Program) :
    (p.fnWalks emitMain).map FnWalk.stmts = p.bodies emitMain := by
  have h := p.map_trace (m := mainOf emitMain) (fun h => (mainOf_isSome emitMain).symm.trans h)
    (codegenBegin_isSome emitMain)
  rw [fnWalks, bodies, ← h, Event.fns_map, List.map_append]
  cases emitMain <;> rfl

/-- A function of a program is the generated one, or was walked in it. -/
theorem Program.mem_fnWalks :
    F ∈ p.fnWalks emitMain ↔
      (∃ main, mainOf emitMain = some main ∧ F = ⟨main.fn, p, codegenBegin emitMain⟩) ∨
        F ∈ Event.fns (p.trace (mainOf emitMain) (codegenBegin emitMain)) := by
  rw [fnWalks, List.mem_append, Option.mem_toList, Option.map_eq_some_iff]
  simp only [eq_comm]

theorem Program.fnWalks_start (hF : F ∈ p.fnWalks emitMain) : F.start.currFn = some F.fn := by
  rcases mem_fnWalks.mp hF with ⟨main, hm, rfl⟩ | hF
  · exact congrArg (Option.map Main.fn) hm
  · exact ((p.run _).fn_new hF).2

/-! ### One block for each name -/

theorem Program.mem_useWalks {u : UseWalk} (hF : F ∈ p.fnWalks emitMain)
    (hu : u ∈ F.uses (mainOf emitMain)) : u ∈ p.useWalks emitMain :=
  List.mem_flatMap.mpr ⟨F, hF, hu⟩

/-- **In the end the label map has every use with its block.** -/
theorem Program.labelMap_use {u : UseWalk} (hu : u ∈ p.useWalks emitMain) :
    (p.codegen emitMain).labelMap u.use.name = some u.block := by
  obtain ⟨F, hF, hu⟩ := List.mem_flatMap.mp hu
  refine (p.run _).made ?_
  rcases mem_fnWalks.mp hF with ⟨main, -, rfl⟩ | hF
  · exact mem_allUses.mpr (.inl hu)
  · exact mem_allUses.mpr (.inr ⟨F, hF, hu⟩)

theorem labelsOk_codegenBegin (emitMain : Bool) : (codegenBegin emitMain).LabelsOk :=
  ⟨nofun, nofun⟩

/-- Uses have one block iff they have one name, wherever they stand. -/
theorem Program.block_eq_iff {u v : UseWalk} (hu : u ∈ p.useWalks emitMain)
    (hv : v ∈ p.useWalks emitMain) : u.block = v.block ↔ u.use.name = v.use.name := by
  have ok := (p.walked (m := mainOf emitMain) _).labelsOk (labelsOk_codegenBegin emitMain)
  constructor
  · intro h
    exact ok.inj _ _ _ (labelMap_use hu) (h ▸ labelMap_use hv)
  · intro h
    have hb := labelMap_use hu
    rw [h, labelMap_use hv] at hb
    exact (Option.some.inj hb).symm

/-- The labels of a program, by names. -/
theorem Program.useWalks_labels (emitMain : Bool) (p : Program) :
    (p.useWalks emitMain).filterMap (fun u => u.use.labelName) =
      (p.bodies emitMain).flatMap Node.labelNames := by
  rw [useWalks, labels_flatMap (fun _ hF => fnWalks_start hF), map_fnWalks]

/-- A block is inserted as often as its name is that of a label. -/
theorem Program.insertions_eq {u : UseWalk} (hu : u ∈ p.useWalks emitMain) :
    insertions (p.useWalks emitMain) u.block =
      ((p.bodies emitMain).flatMap Node.labelNames).count u.use.name := by
  rw [← useWalks_labels, List.count_filterMap, insertions]
  apply List.countP_congr
  intro v hv
  have hb := block_eq_iff hv hu
  cases hl : v.use with
  | label name =>
      have hn : v.use.name = name := congrArg Use.name hl
      simp only [Use.labelName, Option.isSome_some, Bool.true_and, beq_iff_eq, hb, hn,
        Option.some.injEq]
  | goto name => simp [Use.labelName]

/-- **Every label is inserted once iff no label is used twice.** -/
theorem Program.insertions_iff (emitMain : Bool) (p : Program) :
    (∀ F ∈ p.fnWalks emitMain, ∀ u ∈ F.uses (mainOf emitMain), ∀ name, u.use = .label name →
        insertions (p.useWalks emitMain) u.block = 1) ↔
      ((p.bodies emitMain).flatMap Node.labelNames).Nodup := by
  rw [List.nodup_iff_count_eq_one]
  constructor
  · intro h name hname
    rw [← useWalks_labels, List.mem_filterMap] at hname
    obtain ⟨u, hu, hl⟩ := hname
    obtain ⟨F, hF, huF⟩ := List.mem_flatMap.mp hu
    cases hus : u.use with
    | label name' =>
        rw [hus] at hl
        cases hl
        rw [← h F hF u huF name hus, insertions_eq hu, hus]
        rfl
    | goto name' =>
        rw [hus] at hl
        cases hl
  · intro h F hF u huF name hus
    have hu := mem_useWalks hF huF
    rw [insertions_eq hu, hus]
    refine h name ?_
    rw [← useWalks_labels]
    exact List.mem_filterMap.mpr ⟨u, hu, congrArg Use.labelName hus⟩

/-- A label of a body is walked. -/
theorem FnWalk.mem_labelNames {m : Option Main} (hF : F.start.currFn = some F.fn) {name : Id} :
    name ∈ F.stmts.labelNames ↔ ∃ v ∈ F.uses m, v.use = .label name := by
  rw [Node.labelNames, ← F.map_uses (m := m) hF, List.filterMap_map, List.mem_filterMap]
  refine exists_congr fun v => and_congr_right ?_
  intro _
  cases hv : v.use with
  | label name' => simp [Use.labelName, hv]
  | goto name' => simp [Use.labelName, hv]

/-- **Every goto branches to a label of its function iff there is one of its name.** -/
theorem Program.goto_iff (hF : F ∈ p.fnWalks emitMain) :
    (∀ u ∈ F.uses (mainOf emitMain), ∀ name, u.use = .goto name →
        ∃ v ∈ F.uses (mainOf emitMain), v.use = .label name ∧ v.block = u.block) ↔
      ∀ name, .goto name ∈ F.stmts.uses → name ∈ F.stmts.labelNames := by
  have hs := fnWalks_start hF
  rw [← F.map_uses (m := mainOf emitMain) hs]
  constructor
  · intro h name hname
    obtain ⟨u, hu, hus⟩ := List.mem_map.mp hname
    obtain ⟨v, hv, hvs, -⟩ := h u hu name hus
    exact (FnWalk.mem_labelNames hs).mpr ⟨v, hv, hvs⟩
  · intro h u hu name hus
    obtain ⟨v, hv, hvs⟩ := (FnWalk.mem_labelNames hs).mp (h name (List.mem_map.mpr ⟨u, hu, hus⟩))
    refine ⟨v, hv, hvs, (block_eq_iff (mem_useWalks hF hv) (mem_useWalks hF hu)).mpr ?_⟩
    rw [hvs, hus]
    rfl

end

/-! ### The function a label is in -/

section

variable {m : Option Main}

theorem Follows.all {f : Option Fn} (hf : fnAfter m f = f) {es : List (Event UseWalk FnWalk)}
    (h : Follows m f es) : ∀ u ∈ Event.uses es, f = some u.fn := by
  induction es with
  | nil => nofun
  | cons e es ih =>
      cases e with
      | use u => exact List.forall_mem_cons.mpr ⟨h.1, ih h.2⟩
      | fn F =>
          rw [Follows, hf] at h
          exact ih h

/-- Where functions change the current one, the labels of it stand before them. -/
theorem Follows.placed_iff {f : Fn} (hf : fnAfter m (some f) ≠ some f)
    {es : List (Event UseWalk FnWalk)} (h : Follows m (some f) es) :
    (∀ u ∈ Event.uses es, u.fn = f) ↔ Event.usesFirst es = true := by
  induction es with
  | nil => exact iff_of_true nofun rfl
  | cons e es ih =>
      cases e with
      | use u =>
          refine List.forall_mem_cons.trans ?_
          rw [and_iff_right (Option.some.inj h.1).symm]
          exact ih h.2
      | fn F =>
          have hall := Follows.all (fnAfter_idem _) h
          rw [Event.usesFirst, List.isEmpty_iff]
          constructor
          · intro hu
            refine List.eq_nil_iff_forall_not_mem.mpr fun u hm => hf ?_
            rw [hall u hm, hu u hm]
          · intro he u hm
            exact absurd (he ▸ hm : u ∈ []) List.not_mem_nil

theorem usesFirst_map {α β γ δ : Type} (g : α → γ) (h : β → δ) (es : List (Event α β)) :
    Event.usesFirst (es.map (Event.map g h)) = Event.usesFirst es := by
  induction es with
  | nil => rfl
  | cons e es ih =>
      cases e with
      | use u => exact ih
      | fn f =>
          refine (congrArg List.isEmpty (Event.uses_map g h es)).trans ?_
          exact List.isEmpty_map

end

section

variable {emitMain : Bool} {p : Program}

/-- The uses of a function are in it, if it is the current one behind nested functions. -/
theorem FnWalk.placed_of_keep {m : Option Main} {F : FnWalk} (hF : F.start.currFn = some F.fn)
    (hm : fnAfter m (some F.fn) = some F.fn) : ∀ u ∈ F.uses m, u.fn = F.fn := by
  have h := (F.stmts.run (m := m) F.start).follows
  rw [hF] at h
  intro u hu
  exact (Option.some.inj (h.all hm u hu)).symm

/-- **The uses are in their functions iff under `-main` they stand before nested functions.** -/
theorem Program.placed_iff (emitMain : Bool) (p : Program) :
    (∀ F ∈ p.fnWalks emitMain, ∀ u ∈ F.uses (mainOf emitMain), u.fn = F.fn) ↔
      (emitMain = true → ∀ b ∈ Event.fns (p.events true), Event.usesFirst (b.events true)) := by
  cases emitMain with
  | false =>
      refine iff_of_true ?_ nofun
      intro F hF
      exact F.placed_of_keep (fnWalks_start hF) rfl
  | true =>
      have hmap := p.map_trace (m := mainOf true) (fun _ => rfl) (codegenBegin_isSome true)
      rw [← hmap, Event.fns_map, List.forall_mem_map]
      have hnested : ∀ F ∈ Event.fns (p.trace (mainOf true) (codegenBegin true)),
          ((∀ u ∈ F.uses (mainOf true), u.fn = F.fn) ↔
            Event.usesFirst (F.stmts.events true) = true) := by
        intro F hF
        obtain ⟨hid, hs⟩ := (p.run _).fn_new hF
        have hstmts := F.stmts.map_trace (m := mainOf true) (fun _ => rfl)
          (congrArg Option.isSome hs : F.start.currFn.isSome = true)
        rw [← hstmts, usesFirst_map]
        have h := (F.stmts.run (m := mainOf true) F.start).follows
        rw [hs] at h
        refine Follows.placed_iff ?_ h
        intro he
        -- the generated function has the first number
        have h0 : F.fn.id = 0 := (congrArg Fn.id (Option.some.inj he)).symm
        exact absurd hid (by rw [h0]; decide)
      constructor
      · intro h _ F hF
        exact (hnested F hF).mp (h F (mem_fnWalks.mpr (.inr hF)))
      · intro h F hF
        rcases mem_fnWalks.mp hF with ⟨main, hm, rfl⟩ | hF
        · refine FnWalk.placed_of_keep (fnWalks_start hF) ?_
          rw [hm]
          rfl
        · exact (hnested F hF).mpr (h rfl F hF)

/-! ### What comes before a function does not reach it -/

/-- The names that a function uses. -/
def FnWalk.names (m : Option Main) (F : FnWalk) : List Id :=
  (F.uses m).map fun u => u.use.name

/-- **The labels of a function are new when it begins**, with those of the functions in it, if
their names are apart from those before and around. -/
theorem Run.fresh {m : Option Main} {s s' : State} {es : List (Event UseWalk FnWalk)}
    (h : Run m s es s') {D : Id → Prop} (hD : ∀ l, s.labelMap l ≠ none → D l)
    (hout : ∀ F ∈ Event.fns es, ∀ l ∈ F.names m, ¬ D l)
    (hown : ∀ F ∈ Event.fns es, ∀ u ∈ Event.uses es, u.use.name ∉ F.names m)
    (hpair : (Event.fns es).Pairwise fun F G => List.Disjoint (F.names m) (G.names m)) :
    ∀ F ∈ Event.fns es, ∀ u ∈ allUses m (F.stmts.trace m F.start),
      F.start.labelMap u.use.name = none := by
  induction h generalizing D with
  | silent h => nofun
  | use u hf h => nofun
  | @seq s s₁ s' es es' h h' ih ih' =>
      simp only [Event.fns_append, Event.uses_append, List.mem_append] at hout hown ⊢
      rw [Event.fns_append, List.pairwise_append] at hpair
      obtain ⟨hp, hp', hcross⟩ := hpair
      rintro F (hF | hF)
      · exact ih hD (fun F hF => hout F (.inl hF)) (fun F hF u hu => hown F (.inl hF) u (.inl hu))
          hp F hF
      · -- behind the first part its names are taken too
        refine ih' (D := fun l => D l ∨ ∃ u ∈ allUses m es, u.use.name = l) ?_
          ?_ (fun F hF u hu => hown F (.inr hF) u (.inr hu)) hp' F hF
        · intro l hl
          exact (h.origin hl).imp_left (hD l)
        · intro F hF l hl
          rintro (hl' | ⟨u, hu, rfl⟩)
          · exact hout F (.inr hF) l hl hl'
          · rcases mem_allUses.mp hu with hu | ⟨G, hG, hu⟩
            · exact hown F (.inr hF) u (.inl hu) hl
            · exact hcross G hG F hF (List.mem_map.mpr ⟨u, hu, rfl⟩) hl
  | @fn s ret stmts h ih =>
      simp only [Event.fns_nested, List.forall_mem_cons] at hout ⊢
      rw [Event.fns_nested, List.pairwise_cons] at hpair
      obtain ⟨hfirst, hp⟩ := hpair
      have hnone : ∀ l, ¬ D l → s.labelMap l = none := by
        intro l hl
        by_contra he
        exact hl (hD l he)
      refine ⟨?_, ih hD hout.2 ?_ hp⟩
      · intro u hu
        refine hnone _ ?_
        rcases mem_allUses.mp hu with hu | ⟨G, hG, hu⟩
        · exact hout.1 _ (List.mem_map.mpr ⟨u, hu, rfl⟩)
        · exact hout.2 G hG _ (List.mem_map.mpr ⟨u, hu, rfl⟩)
      · intro G hG u hu hn
        exact hfirst G hG (List.mem_map.mpr ⟨u, hu, rfl⟩) hn

/-- A function whose labels are new is walked as it would be alone. -/
theorem FnWalk.uses_alone {m : Option Main} {F : FnWalk}
    (h : ∀ u ∈ allUses m (F.stmts.trace m F.start), F.start.labelMap u.use.name = none) :
    F.alone.uses m = F.uses m := by
  have hagree : Agree (fun l => F.start.labelMap l = none) F.start F.alone.start :=
    ⟨fun _ => none, rfl, fun l hl => hl.symm⟩
  exact (F.stmts.alike hagree h).uses

/-- **In a program with its labels apart every function is walked as if alone.** -/
theorem Program.independent (h : p.LabelsApart emitMain) {F : FnWalk}
    (hF : F ∈ p.fnWalks emitMain) : F.alone.uses (mainOf emitMain) = F.uses (mainOf emitMain) := by
  refine F.uses_alone ?_
  -- the names of a function are those of its labels, which no two functions share
  have hnames : ∀ F ∈ p.fnWalks emitMain, ∀ l ∈ F.names (mainOf emitMain),
      l ∈ F.stmts.labelNames := by
    intro F hF l hl
    obtain ⟨u, hu, rfl⟩ := List.mem_map.mp hl
    have hs := fnWalks_start hF
    cases hus : u.use with
    | label name => exact (FnWalk.mem_labelNames hs).mpr ⟨u, hu, hus⟩
    | goto name =>
        refine h.defined F.stmts ?_ name ?_
        · exact map_fnWalks emitMain p ▸ List.mem_map_of_mem hF
        · rw [← F.map_uses (m := mainOf emitMain) hs]
          exact List.mem_map.mpr ⟨u, hu, hus⟩
  have hpair : (p.fnWalks emitMain).Pairwise fun F G =>
      List.Disjoint (F.names (mainOf emitMain)) (G.names (mainOf emitMain)) := by
    have hd := h.distinct
    rw [← map_fnWalks, List.flatMap_map, List.nodup_flatMap] at hd
    refine List.Pairwise.imp_of_mem (fun hF hG hdis l hl hl' => ?_) hd.2
    exact hdis (hnames _ hF l hl) (hnames _ hG l hl')
  rw [fnWalks, List.pairwise_append] at hpair
  obtain ⟨-, hp, hcross⟩ := hpair
  rcases mem_fnWalks.mp hF with ⟨main, hm, rfl⟩ | hF
  · intro _ _
    exact rfl
  · refine (p.run _).fresh (D := fun _ => False) (fun l hl => absurd rfl hl)
      (fun _ _ _ _ => not_false) ?_ hp F hF
    intro G hG u hu hn
    cases emitMain with
    | false =>
        -- outside of functions nothing is walked
        have hfollows := (p.run (m := mainOf false) (codegenBegin false)).follows
        exact absurd (hfollows.all rfl u hu) nofun
    | true => exact hcross _ List.mem_cons_self G hG (List.mem_map.mpr ⟨u, hu, rfl⟩) hn

/-- The functions of a program have labels of their own iff its labels are apart. -/
theorem Program.resolved_iff (emitMain : Bool) (p : Program) :
    (∀ F ∈ p.fnWalks emitMain, F.Resolved (mainOf emitMain) (p.useWalks emitMain)) ↔
      p.LabelsApart emitMain := by
  have hbodies : ∀ {P : Node .stmts → Prop},
      (∀ b ∈ p.bodies emitMain, P b) ↔ ∀ F ∈ p.fnWalks emitMain, P F.stmts := by
    intro P
    rw [← map_fnWalks, List.forall_mem_map]
  constructor
  · intro h
    refine ⟨?_, ?_, ?_⟩
    · exact hbodies.mpr fun F hF => (goto_iff hF).mp (h F hF).goto
    · exact (insertions_iff emitMain p).mp fun F hF => (h F hF).label
    · exact (placed_iff emitMain p).mp fun F hF => (h F hF).placed
  · intro h F hF
    exact {
      goto := (goto_iff hF).mpr (hbodies.mp h.defined F hF)
      label := (insertions_iff emitMain p).mpr h.distinct F hF
      placed := (placed_iff emitMain p).mpr h.first F hF
      independent := independent h hF }

end

/-- **Labels are scoped by functions** iff the parser's tables take exactly the texts with their
labels in order, and in these the labels are apart. -/
theorem Source.functionScoped_iff (emitMain : Bool) (p : Source .stmts) :
    p.FunctionScoped emitMain ↔
      (p.TablesKept emitMain ↔ p.WellLabelled emitMain) ∧
        (p.TablesKept emitMain → p.program.LabelsApart emitMain) := by
  rw [← accepted_iff, ← Program.resolved_iff]
  exact ⟨fun h => ⟨h.accepted, h.resolved⟩, fun h => ⟨h.1, h.2⟩⟩

/-- `fn f() { a: }  fn g() { goto a; a: }` -/
def labelTwice : Source .stmts :=
  .stmtThen (.fnStmt false (.fnDefine none (.stmtThen (.label 0) .noStmt)))
    (.stmtThen (.fnStmt false (.fnDefine none (.stmtThen (.labelGoto 0)
      (.stmtThen (.label 0) .noStmt)))) .noStmt)

/-- `fn f() { goto a; }` -/
def gotoNowhere : Source .stmts :=
  .stmtThen (.fnStmt false (.fnDefine none (.stmtThen (.labelGoto 0) .noStmt))) .noStmt

/-- `fn f() { fn g() {} a: }` -/
def labelBehindFn : Source .stmts :=
  .stmtThen (.fnStmt false (.fnDefine none (.stmtThen
    (.fnStmt false (.fnDefine none .noStmt)) (.stmtThen (.label 0) .noStmt)))) .noStmt

/-- A label of two functions is one block, which is inserted twice and leaves the first; a goto
without a label is accepted; behind a nested function the parser has no table, or that of the
generated function, in which the label is then inserted. -/
theorem not_functionScoped :
    (labelTwice.Accepted false ∧ labelTwice.WellLabelled false ∧
        insertions (labelTwice.program.useWalks false) 6 = 2) ∧
      (gotoNowhere.Accepted false ∧ ¬ gotoNowhere.WellLabelled false) ∧
      (labelBehindFn.parse false = .error .noTable ∧ labelBehindFn.Accepted true ∧
        (labelBehindFn.program.codegen true).parent 9 = some ⟨0, some 0⟩) ∧
      ¬ ∀ (emitMain : Bool) (p : Source .stmts), p.FunctionScoped emitMain := by
  refine ⟨⟨⟨_, rfl⟩, by decide, by decide⟩, ⟨⟨_, rfl⟩, by decide⟩, ⟨rfl, ⟨_, rfl⟩, by decide⟩, ?_⟩
  intro h
  exact absurd ((h false gotoNowhere).accepted.mp ⟨_, rfl⟩) (by decide)

end CaLang.Codegen

import CaLang.Lexical.Walks

/-! # Bodies are numbered alike

`Node.alike` is the condition: **no lexical body stands where only one of the walks comes**.  The
first walk leaves out the expressions of `let`s, assignments, returns and conditions, and what
stands before the value of an `ife`; the second leaves out all control flow outside of functions.
-/

namespace CaLang.Lexical

/-- There is no lexical body and no function in a node that the second walk would come to. -/
def Node.bodiless : {c : Symbol} → Node c → Bool
  | _, .leaf => true
  | _, .operands left right => left.bodiless && right.bodiless
  | _, .ife _ _ _ => false
  | _, .value _ => false
  | _, .stmtExpr _ _ => false
  | _, .noConds => true
  | _, .condThen cond rest => cond.bodiless && rest.bodiless
  | _, .noBodies => true
  | _, .bodyThen _ _ => false
  | _, .fnDefine _ _ => false
  | _, .noFns => true
  | _, .fnThen generic _ rest => generic && rest.bodiless
  | _, .simple parts => parts.bodiless
  | _, .exprStmt e => e.bodiless
  | _, .decl => true
  | _, .loop _ => false
  | _, .whileStmt _ _ => false
  | _, .forStmt _ _ => false
  | _, .ifStmt conds bodies => conds.bodiless && bodies.bodiless
  | _, .lexicalBody _ => false
  | _, .fnStmt generic _ => generic
  | _, .fnDefineImpl fns => fns.bodiless
  | _, .noStmt => true
  | _, .stmtThen first rest => first.bodiless && rest.bodiless

/-- Both walks come to the same bodies, in a function or outside. -/
def Node.alike : {c : Symbol} → Node c → Bool → Bool
  | _, .leaf, _ => true
  | _, .operands left right, inFn => !inFn || (left.bodiless && right.bodiless)
  | _, .ife cond thens elses, inFn =>
      inFn && (cond.bodiless && (thens.alike inFn && elses.alike inFn))
  | _, .value e, inFn => e.alike inFn
  | _, .stmtExpr stmts e, inFn => !inFn || (stmts.bodiless && e.bodiless)
  | _, .noConds, _ => true
  | _, .condThen cond rest, inFn => cond.alike inFn && rest.alike inFn
  | _, .noBodies, _ => true
  | _, .bodyThen body rest, inFn => body.alike inFn && rest.alike inFn
  | _, .fnDefine _ stmts, _ => stmts.alike true
  | _, .noFns, _ => true
  | _, .fnThen generic fn rest, inFn => (generic || fn.alike inFn) && rest.alike inFn
  | _, .simple parts, inFn => !inFn || parts.bodiless
  | _, .exprStmt e, inFn => e.alike inFn
  | _, .decl, _ => true
  | _, .loop body, inFn => inFn && body.alike inFn
  | _, .whileStmt cond body, inFn => inFn && (cond.bodiless && body.alike inFn)
  | _, .forStmt list body, inFn => inFn && (list.bodiless && body.alike inFn)
  | _, .ifStmt conds bodies, inFn =>
      if inFn then conds.bodiless && bodies.alike inFn else bodies.bodiless
  | _, .lexicalBody stmts, inFn => stmts.alike inFn
  | _, .fnStmt generic fn, inFn => generic || fn.alike inFn
  | _, .fnDefineImpl fns, inFn => fns.alike inFn
  | _, .noStmt, _ => true
  | _, .stmtThen first rest, inFn => first.alike inFn && rest.alike inFn

/-! ### Walks that agree -/

/-- Two walks are the same if `P` holds, and list the same only then. -/
structure SameIff (w w' : Walk) (P : Prop) : Prop where
  eq : P → w = w'
  visits : ∀ scopes count, (w scopes count).1 = (w' scopes count).1 → P

/-- A walk lists so many visits. -/
def Walk.Lists (w : Walk) (k : Nat) : Prop := ∀ scopes count, (w scopes count).1.length = k

namespace SameIff

variable {w w' v v' : Walk} {P Q : Prop}

theorem refl (w : Walk) : SameIff w w True := ⟨fun _ => rfl, fun _ _ _ => trivial⟩

theorem congr (h : SameIff w w' P) (hP : P ↔ Q) : SameIff w w' Q :=
  ⟨fun hq => h.eq (hP.mpr hq), fun scopes count he => hP.mp (h.visits scopes count he)⟩

theorem symm (h : SameIff w w' P) : SameIff w' w P :=
  ⟨fun hp => (h.eq hp).symm, fun scopes count he => h.visits scopes count he.symm⟩

/-- One walk behind another: the first parts are compared first. -/
theorem seq {k : Nat} (h : SameIff w w' P) (h' : SameIff v v' Q) (hw : w.Lists k)
    (hw' : w'.Lists k) : SameIff (w.seq v) (w'.seq v') (P ∧ Q) where
  eq hpq := by rw [h.eq hpq.1, h'.eq hpq.2]
  visits scopes count he := by
    obtain ⟨hl, hr⟩ := List.append_inj he ((hw scopes count).trans (hw' scopes count).symm)
    have hp := h.visits scopes count hl
    rw [h.eq hp] at hr
    exact ⟨hp, h'.visits _ _ hr⟩

theorem lexicalBody (h : SameIff w w' P) (scope : Nat → LexicalScope) :
    SameIff (w.lexicalBody scope) (w'.lexicalBody scope) P where
  eq hp := by rw [h.eq hp]
  visits _ _ he := h.visits _ _ (List.cons.inj he).2

theorem fnDeclare (h : SameIff w w' P) (name : FnName) :
    SameIff (w.fnDeclare name) (w'.fnDeclare name) P where
  eq hp := by rw [h.eq hp]
  visits _ _ he := h.visits _ _ (List.cons.inj he).2

/-- Where the first parts differ, the rest does not matter. -/
theorem seq_false {k : Nat} (h : SameIff w w' False) (hw : w.Lists k) (hw' : w'.Lists k)
    (v v' : Walk) : SameIff (w.seq v) (w'.seq v') False :=
  ⟨False.elim, fun scopes count he =>
    h.visits scopes count
      (List.append_inj he ((hw scopes count).trans (hw' scopes count).symm)).1⟩

/-- A body is not skipped. -/
theorem body_skip (scope : Nat → LexicalScope) (w : Walk) (vs : List Visit) :
    SameIff (w.lexicalBody scope) (.skip (.body none :: vs)) False :=
  ⟨False.elim, fun _ _ he => by cases (List.cons.inj he).1⟩

theorem fn_skip (name : FnName) (w : Walk) (vs : List Visit) :
    SameIff (w.fnDeclare name) (.skip (.fn none :: vs)) False :=
  ⟨False.elim, fun _ _ he => by cases (List.cons.inj he).1⟩

end SameIff

/-! ### Every walk lists all bodies -/

namespace Walk.Lists

variable {w w' : Walk} {k k' : Nat}

theorem skip (vs : List Visit) : (Walk.skip vs).Lists vs.length := fun _ _ => rfl

theorem seq (h : w.Lists k) (h' : w'.Lists k') : (w.seq w').Lists (k + k') := fun _ _ =>
  List.length_append.trans (congrArg₂ (· + ·) (h _ _) (h' _ _))

theorem lexicalBody (h : w.Lists k) (scope : Nat → LexicalScope) :
    (w.lexicalBody scope).Lists (k + 1) := fun _ _ => congrArg (· + 1) (h _ _)

theorem fnDeclare (h : w.Lists k) (name : FnName) : (w.fnDeclare name).Lists (k + 1) :=
  fun _ _ => congrArg (· + 1) (h _ _)

theorem byPass {pass : Pass} {inFn : Bool} {vs : List Visit} (h : w.Lists vs.length)
    (h' : w'.Lists vs.length) : (Walk.byPass pass inFn vs w w').Lists vs.length := by
  unfold Walk.byPass
  cases pass with
  | first => exact h
  | second =>
      cases inFn with
      | false => exact skip vs
      | true => exact h'

end Walk.Lists

theorem Node.lists {pass : Pass} {c : Symbol} (t : Node c) (inFn : Bool) :
    (t.walk pass inFn).Lists t.unwalked.length := by
  induction t generalizing inFn with
  | leaf | noConds | noBodies | noFns | decl | noStmt => exact .skip []
  | operands left right ihl ihr =>
      refine .byPass (.skip _) ?_
      rw [List.length_append]
      exact (ihl inFn).seq (ihr inFn)
  | ife cond thens elses ihc iht ihe =>
      have h := (iht inFn).seq (ihe inFn)
      refine .byPass ?_ ?_
      · rw [List.length_append, List.length_append]
        exact (Walk.Lists.skip _).seq h
      · rw [List.length_append, List.length_append]
        exact (ihc inFn).seq h
  | value e ih => exact (ih inFn).lexicalBody _
  | stmtExpr stmts e ihs ihe =>
      refine Walk.Lists.lexicalBody (.byPass (.skip _) ?_) _
      rw [List.length_append]
      exact (ihs inFn).seq (ihe inFn)
  | condThen cond rest ihc ihr =>
      rw [unwalked, List.length_append]
      exact (ihc inFn).seq (ihr inFn)
  | bodyThen body rest ihb ihr =>
      rw [unwalked, List.length_append]
      exact ((ihb inFn).lexicalBody _).seq (ihr inFn)
  | fnDefine name stmts ih => exact ((ih true).lexicalBody _).fnDeclare name
  | fnThen generic fn rest ihf ihr =>
      rw [unwalked, List.length_append]
      refine .seq ?_ (ihr inFn)
      cases generic with
      | false => exact ihf inFn
      | true => exact .skip _
  | simple parts ih => exact .byPass (.skip _) (ih inFn)
  | exprStmt e ih => exact ih inFn
  | loop body ih => exact .byPass ((ih inFn).lexicalBody _) ((ih inFn).lexicalBody _)
  | whileStmt cond body ihc ihb =>
      refine .byPass ?_ ?_
      · rw [List.length_append]
        exact (Walk.Lists.skip _).seq ((ihb inFn).lexicalBody _)
      · rw [List.length_append]
        exact (ihc inFn).seq ((ihb inFn).lexicalBody _)
  | forStmt list body ihl ihb =>
      refine Walk.Lists.lexicalBody (.byPass ?_ ?_) _
      · rw [List.length_append]
        exact (Walk.Lists.skip _).seq ((ihb inFn).lexicalBody _)
      · rw [List.length_append]
        exact (ihl inFn).seq ((ihb inFn).lexicalBody _)
  | ifStmt conds bodies ihc ihb =>
      refine .byPass ?_ ?_
      · rw [List.length_append]
        exact (Walk.Lists.skip _).seq (ihb inFn)
      · rw [List.length_append]
        exact (ihc inFn).seq (ihb inFn)
  | lexicalBody stmts ih => exact (ih inFn).lexicalBody _
  | fnStmt generic fn ih =>
      cases generic with
      | false => exact ih inFn
      | true => exact .skip _
  | fnDefineImpl fns ih => exact ih inFn
  | stmtThen first rest ihf ihr =>
      rw [unwalked, List.length_append]
      exact (ihf inFn).seq (ihr inFn)

/-! ### What is walked second only -/

/-- **The second walk passes over a node in a function iff there is no body in it.** -/
theorem Node.walk_skip {c : Symbol} (t : Node c) :
    SameIff (t.walk .second true) (.skip t.unwalked) (t.bodiless = true) := by
  have append {c d : Symbol} {a : Node c} {b : Node d}
      (ha : SameIff (a.walk .second true) (.skip a.unwalked) (a.bodiless = true))
      (hb : SameIff (b.walk .second true) (.skip b.unwalked) (b.bodiless = true)) :
      SameIff ((a.walk .second true).seq (b.walk .second true))
        (.skip (a.unwalked ++ b.unwalked)) ((a.bodiless && b.bodiless) = true) :=
    (ha.seq hb (a.lists true) (.skip _)).congr Bool.and_eq_true_iff.symm
  induction t with
  | leaf | noConds | noBodies | noFns | decl | noStmt =>
      exact (SameIff.refl _).congr (iff_of_true trivial rfl)
  | operands left right ihl ihr => exact append ihl ihr
  | condThen cond rest ihc ihr => exact append ihc ihr
  | stmtThen first rest ihf ihr => exact append ihf ihr
  | ifStmt conds bodies ihc ihb => exact append ihc ihb
  | simple parts ih => exact ih
  | exprStmt e ih => exact ih
  | fnDefineImpl fns ih => exact ih
  | value e ih => exact (SameIff.body_skip _ _ _).congr (iff_of_false id Bool.false_ne_true)
  | stmtExpr stmts e ihs ihe =>
      exact (SameIff.body_skip _ _ _).congr (iff_of_false id Bool.false_ne_true)
  | loop body ih => exact (SameIff.body_skip _ _ _).congr (iff_of_false id Bool.false_ne_true)
  | lexicalBody stmts ih =>
      exact (SameIff.body_skip _ _ _).congr (iff_of_false id Bool.false_ne_true)
  | forStmt list body ihl ihb =>
      exact (SameIff.body_skip _ _ _).congr (iff_of_false id Bool.false_ne_true)
  | fnDefine name stmts ih =>
      exact (SameIff.fn_skip _ _ _).congr (iff_of_false id Bool.false_ne_true)
  | ife cond thens elses ihc iht ihe =>
      have hthens : thens.bodiless = false := by cases thens <;> rfl
      have h := ihc.seq (iht.seq ihe (thens.lists true) (.skip _)) (cond.lists true) (.skip _)
      exact h.congr (iff_of_false (fun h => Bool.false_ne_true (hthens.symm.trans h.2.1))
        Bool.false_ne_true)
  | bodyThen body rest ihb ihr =>
      have hbody := SameIff.body_skip .block (body.walk .second true) body.unwalked
      exact (hbody.seq ihr ((body.lists true).lexicalBody _) (.skip _)).congr
        (iff_of_false (fun h => h.1) Bool.false_ne_true)
  | fnThen generic fn rest ihf ihr =>
      have hfn : fn.bodiless = false := by cases fn; rfl
      cases generic with
      | true =>
          exact ((SameIff.refl _).seq ihr (.skip _) (.skip _)).congr
            (iff_of_eq (true_and _))
      | false =>
          refine (append ihf ihr).congr ?_
          rw [hfn]
          rfl
  | whileStmt cond body ihc ihb =>
      have hbody := SameIff.body_skip .block (body.walk .second true) body.unwalked
      exact (ihc.seq hbody (cond.lists true) (.skip _)).congr
        (iff_of_false (fun h => h.2) Bool.false_ne_true)
  | fnStmt generic fn ih =>
      have hfn : fn.bodiless = false := by cases fn; rfl
      cases generic with
      | true => exact (SameIff.refl _).congr (iff_of_true trivial rfl)
      | false =>
          refine ih.congr ?_
          rw [hfn]
          rfl

/-! ### Both walks -/

/-- The blocks of an `ife` are always walked. -/
theorem Node.exprBlock_skip (pass : Pass) (b : Node .exprBlock) (inFn : Bool) :
    SameIff (b.walk pass inFn) (.skip b.unwalked) False := by
  cases b with
  | value e => exact .body_skip _ _ _
  | stmtExpr stmts e => exact .body_skip _ _ _

/-- The bodies of an `if` are always walked. -/
theorem Node.bodies_skip (pass : Pass) (b : Node .bodies) (inFn : Bool) :
    SameIff (b.walk pass inFn) (.skip b.unwalked) (b.bodiless = true) := by
  cases b with
  | noBodies => exact (SameIff.refl _).congr (iff_of_true trivial rfl)
  | bodyThen body rest =>
      have h := SameIff.body_skip .block (body.walk pass inFn) body.unwalked
      exact (h.seq_false ((body.lists inFn).lexicalBody _) (.skip _) _ (.skip rest.unwalked)).congr
        (iff_of_false id Bool.false_ne_true)

/-- **The two walks list the same iff no body stands where only one of them comes.** -/
theorem Node.walk_same {c : Symbol} (t : Node c) (inFn : Bool) :
    SameIff (t.walk .first inFn) (t.walk .second inFn) (t.alike inFn = true) := by
  have append {inFn : Bool} {c d : Symbol} {a : Node c} {b : Node d}
      (ha : SameIff (a.walk .first inFn) (a.walk .second inFn) (a.alike inFn = true))
      (hb : SameIff (b.walk .first inFn) (b.walk .second inFn) (b.alike inFn = true)) :
      SameIff ((a.walk .first inFn).seq (b.walk .first inFn))
        ((a.walk .second inFn).seq (b.walk .second inFn))
        ((a.alike inFn && b.alike inFn) = true) :=
    (ha.seq hb (a.lists inFn) (a.lists inFn)).congr Bool.and_eq_true_iff.symm
  induction t generalizing inFn with
  | leaf | noConds | noBodies | noFns | decl | noStmt =>
      exact (SameIff.refl _).congr (iff_of_true trivial rfl)
  | operands left right ihl ihr =>
      cases inFn with
      | false => exact (SameIff.refl _).congr (iff_of_true trivial rfl)
      | true => exact (operands left right).walk_skip.symm
  | simple parts ih =>
      cases inFn with
      | false => exact (SameIff.refl _).congr (iff_of_true trivial rfl)
      | true => exact parts.walk_skip.symm
  | condThen cond rest ihc ihr => exact append (ihc inFn) (ihr inFn)
  | stmtThen first rest ihf ihr => exact append (ihf inFn) (ihr inFn)
  | exprStmt e ih => exact ih inFn
  | fnDefineImpl fns ih => exact ih inFn
  | value e ih => exact (ih inFn).lexicalBody _
  | lexicalBody stmts ih => exact (ih inFn).lexicalBody _
  | fnDefine name stmts ih => exact ((ih true).lexicalBody _).fnDeclare name
  | bodyThen body rest ihb ihr =>
      have hb : ((body.walk .first inFn).lexicalBody .block).Lists (body.unwalked.length + 1) :=
        (body.lists inFn).lexicalBody .block
      exact (((ihb inFn).lexicalBody .block).seq (ihr inFn) hb
        ((body.lists inFn).lexicalBody _)).congr Bool.and_eq_true_iff.symm
  | fnThen generic fn rest ihf ihr =>
      cases generic with
      | true =>
          exact ((SameIff.refl _).seq (ihr inFn) (.skip _) (.skip _)).congr
            (iff_of_eq (true_and _))
      | false => exact append (ihf inFn) (ihr inFn)
  | fnStmt generic fn ih =>
      cases generic with
      | true => exact (SameIff.refl _).congr (iff_of_true trivial rfl)
      | false => exact ih inFn
  | stmtExpr stmts e ihs ihe =>
      cases inFn with
      | false => exact (SameIff.refl _).congr (iff_of_true trivial rfl)
      | true =>
          have h := stmts.walk_skip.seq e.walk_skip (stmts.lists true) (.skip _)
          exact (h.symm.lexicalBody .block).congr Bool.and_eq_true_iff.symm
  | ife cond thens elses ihc iht ihe =>
      cases inFn with
      | false =>
          have h := (thens.exprBlock_skip .first false).seq_false (thens.lists false) (.skip _)
            (elses.walk .first false) (.skip elses.unwalked)
          exact ((SameIff.refl _).seq h (.skip cond.unwalked) (.skip _)).congr
            (iff_of_false (fun h => h.2) Bool.false_ne_true)
      | true =>
          have h := cond.walk_skip.symm.seq (append (iht true) (ihe true)) (.skip _)
            (cond.lists true)
          exact h.congr Bool.and_eq_true_iff.symm
  | loop body ih =>
      cases inFn with
      | false => exact (SameIff.body_skip _ _ _).congr (iff_of_false id Bool.false_ne_true)
      | true => exact (ih true).lexicalBody .block
  | whileStmt cond body ihc ihb =>
      cases inFn with
      | false =>
          have h := SameIff.body_skip .block (body.walk .first false) body.unwalked
          exact ((SameIff.refl _).seq h (.skip cond.unwalked) (.skip _)).congr
            (iff_of_false (fun h => h.2) Bool.false_ne_true)
      | true =>
          have h := cond.walk_skip.symm.seq ((ihb true).lexicalBody .block) (.skip _)
            (cond.lists true)
          exact h.congr Bool.and_eq_true_iff.symm
  | forStmt list body ihl ihb =>
      cases inFn with
      | false =>
          have h := SameIff.body_skip .block (body.walk .first false) body.unwalked
          exact (((SameIff.refl _).seq h (.skip list.unwalked) (.skip _)).lexicalBody .block).congr
            (iff_of_false (fun h => h.2) Bool.false_ne_true)
      | true =>
          have h := list.walk_skip.symm.seq ((ihb true).lexicalBody .block) (.skip _)
            (list.lists true)
          exact (h.lexicalBody .block).congr Bool.and_eq_true_iff.symm
  | ifStmt conds bodies ihc ihb =>
      cases inFn with
      | false =>
          exact ((SameIff.refl _).seq (bodies.bodies_skip .first false) (.skip conds.unwalked)
            (.skip _)).congr (iff_of_eq (true_and _))
      | true =>
          have h := conds.walk_skip.symm.seq (ihb true) (.skip _) (conds.lists true)
          exact h.congr Bool.and_eq_true_iff.symm

/-- **The two walks number the lexical bodies alike** iff no body stands where only one of them
comes. -/
theorem Program.numberedAlike_iff (emitMain : Bool) (p : Program) :
    p.NumberedAlike emitMain ↔ p.alike emitMain = true := by
  have h := p.walk_same emitMain
  constructor
  · intro hp
    exact h.visits [] 0 hp.visits
  · intro hp
    have he := congrFun (congrFun (h.eq hp) []) 0
    exact ⟨congrArg Prod.fst he, congrArg Prod.snd he⟩

/-- `1 + ife (true) { 1 } else { 2 }` -/
def plusIfe : Node .expr := .operands .leaf (.ife .leaf (.value .leaf) (.value .leaf))

/-- `fn f() { let a = 1 + ife (true) { 1 } else { 2 }; }` -/
def letIfe : Program :=
  .stmtThen (.fnStmt false (.fnDefine ⟨"f", none⟩ (.stmtThen (.simple plusIfe) .noStmt))) .noStmt

/-- `loop {} loop {} fn f() { { fn g() {} } let a = 1 + ife (true) { 1 } else { 2 }; }` -/
def loopsThenIfe : Program :=
  .stmtThen (.loop .noStmt) (.stmtThen (.loop .noStmt) (.stmtThen
    (.fnStmt false (.fnDefine ⟨"f", none⟩ (.stmtThen
      (.lexicalBody (.stmtThen (.fnStmt false (.fnDefine ⟨"g", none⟩ .noStmt)) .noStmt))
      (.stmtThen (.simple plusIfe) .noStmt)))) .noStmt))

/-- An `ife` in a `let` is counted by the second walk alone, so that `walk` ends with an error;
without `-main` two loops outside of functions make up for it, and the counts agree while the
function in the block of `f` gets two names. -/
theorem not_numberedAlike :
    ((letIfe.pass false .first).2 = 1 ∧ (letIfe.pass false .second).2 = 3) ∧
      ((loopsThenIfe.pass false .first).2 = (loopsThenIfe.pass false .second).2 ∧
        .fn (some "_CA$FL4F1f1g") ∈ (loopsThenIfe.pass false .first).1 ∧
          .fn (some "_CA$FL2F1f1g") ∈ (loopsThenIfe.pass false .second).1) ∧
      ¬ ∀ (emitMain : Bool) (p : Program), p.NumberedAlike emitMain := by
  refine ⟨⟨rfl, rfl⟩, ⟨rfl, by decide, by decide⟩, ?_⟩
  intro h
  exact absurd ((letIfe.walk_same false).visits [] 0 (h false letIfe).visits) (by decide)

end CaLang.Lexical

import CaLang.Parser.Pending
import Mathlib.Algebra.Ring.Nat

/-! # What the parser does with pending lists

**Every parse builds the node that belongs to it and leaves the stacks as they were, or is rejected
because a call or a tuple has too many arguments, exactly if no `match` stands in it** and no list
of statements grows beyond its `int` before.

- `Expr.run_actions` and the others: what a parse does, with what stands for a `match`;
- `Expr.nodeWith_eq_iff` and the others: this is the node exactly if there is no `match`.
-/

namespace CaLang.Parser.Pending

/-! ### The room of a list -/

/-- The capacity of a list after some statements. -/
def capacityOf : Nat → Nat
  | 0 => 10
  | n + 1 => if n = capacityOf n then capacityOf n * 2 else capacityOf n

/-- A capacity is doubled only when it is used up. -/
theorem capacityOf_spec (n : Nat) : ∃ k, capacityOf n = 10 * 2 ^ k ∧ n ≤ capacityOf n ∧
    (k = 0 ∨ 10 * 2 ^ (k - 1) < n) := by
  induction n with
  | zero => exact ⟨0, rfl, Nat.zero_le _, .inl rfl⟩
  | succ n ih =>
      obtain ⟨k, hk, hn, hlast⟩ := ih
      have hpos : 0 < 2 ^ k := Nat.two_pow_pos k
      rw [capacityOf]
      split
      · have hdouble : capacityOf n * 2 = 10 * 2 ^ (k + 1) := by
          rw [hk, Nat.pow_succ, Nat.mul_assoc]
        have hlt : 10 * 2 ^ k < n + 1 := by omega
        exact ⟨k + 1, hdouble, by omega, .inr hlt⟩
      · exact ⟨k, hk, by omega, hlast.imp_right fun h => by omega⟩

theorem capacityOf_le {n : Nat} (h : n ≤ maxStmts) : capacityOf n ≤ maxStmts := by
  obtain ⟨k, hk, -, hlast⟩ := capacityOf_spec n
  have hexp : k ≤ 27 := by
    rcases hlast with rfl | hlast
    · exact Nat.zero_le _
    · by_contra hlt
      have hpow : 2 ^ 27 ≤ 2 ^ (k - 1) := Nat.pow_le_pow_right Nat.two_pos (by omega)
      have : maxStmts = 10 * 2 ^ 27 := rfl
      omega
  rw [hk]
  exact Nat.mul_le_mul_left 10 (Nat.pow_le_pow_right Nat.two_pos hexp)

/-- The list has a capacity as it gets it by its statements. -/
def ASTNodeList.of (stmts : List Node) : ASTNodeList := ⟨stmts, capacityOf stmts.length⟩

/-- There is room for `maxStmts` statements. -/
theorem ASTNodeList.put_of {stmts : List Node} (h : stmts.length ≤ maxStmts) (stmt : Node) :
    (ASTNodeList.of stmts).put stmt =
      if stmts.length < maxStmts then .ok (.of (stmts ++ [stmt])) else .error .crash := by
  have hcap := capacityOf_le h
  obtain ⟨k, -, hle, -⟩ := capacityOf_spec stmts.length
  obtain ⟨k', -, hle', -⟩ := capacityOf_spec (stmts.length + 1)
  have hput : (ASTNodeList.of stmts).put stmt =
      if capacityOf (stmts.length + 1) ≤ intMax ∧ stmts.length < capacityOf (stmts.length + 1) then
        .ok ⟨stmts ++ [stmt], capacityOf (stmts.length + 1)⟩
      else .error .crash := rfl
  have hof : ASTNodeList.of (stmts ++ [stmt]) =
      ⟨stmts ++ [stmt], capacityOf (stmts.length + 1)⟩ := by
    rw [ASTNodeList.of, List.length_append, List.length_singleton]
  have hmax : maxStmts = 1342177280 := rfl
  have hint : intMax = 2147483647 := rfl
  rw [hput, hof]
  by_cases hlt : stmts.length < maxStmts
  · have hnext : capacityOf (stmts.length + 1) ≤ maxStmts := capacityOf_le hlt
    rw [if_pos hlt, if_pos ⟨by omega, by omega⟩]
  · have hnext : capacityOf (stmts.length + 1) = capacityOf stmts.length * 2 :=
      if_pos (by omega)
    rw [if_neg hlt, if_neg fun hroom => by omega]

/-! ### Runs -/

/-- The result of a parse, which stops at the first excess. -/
def outcome {α : Type} (excesses : List Error) (x : α) : Except Error α :=
  match excesses with
  | [] => .ok x
  | e :: _ => .error e

variable {σ : State} {ex ex' : List Error}

theorem run_append (as as' : List Action) (σ : State) :
    run (as ++ as') σ = run as σ >>= run as' := by
  induction as generalizing σ with
  | nil => rfl
  | cons a as ih =>
      show (a.exec σ >>= run (as ++ as')) = (a.exec σ >>= run as) >>= run as'
      cases a.exec σ with
      | error e => rfl
      | ok σ' => exact ih σ'

/-- Two parts of a parse. -/
theorem run_append_eq {as as' : List Action} {σ₁ σ₂ : State} (h : run as σ = outcome ex σ₁)
    (h' : ex = [] → run as' σ₁ = outcome ex' σ₂) :
    run (as ++ as') σ = outcome (ex ++ ex') σ₂ := by
  rw [run_append, h]
  cases ex with
  | nil => exact h' rfl
  | cons e ex => rfl

/-- The last actions of a production. -/
theorem run_last {as as' : List Action} {σ₁ σ₂ : State} (h : run as σ = outcome ex σ₁)
    (h' : run as' σ₁ = .ok σ₂) : run (as ++ as') σ = outcome ex σ₂ := by
  rw [← List.append_nil ex]
  exact run_append_eq h fun _ => h'

/-- What a production makes of the values that have just been pushed. -/
theorem exec_values (nodes : List Node) (σ : State) :
    nodes.length ≤ (nodes.reverse ++ σ.values).length ∧
      ((nodes.reverse ++ σ.values).take nodes.length).reverse = nodes ∧
      (nodes.reverse ++ σ.values).drop nodes.length = σ.values := by
  refine ⟨by simp, ?_, ?_⟩
  · rw [List.take_append_of_le_length (by simp), List.take_of_length_le (by simp),
      List.reverse_reverse]
  · rw [List.drop_append_of_le_length (by simp), List.drop_of_length_le (by simp), List.nil_append]

/-- The node of the values that have just been pushed. -/
theorem run_make (tag : Tag) (nodes : List Node) (n : Nat) (hn : n = nodes.length) (σ : State) :
    run [.make tag n] { σ with values := nodes.reverse ++ σ.values } =
      .ok (σ.push (.mk tag nodes)) := by
  subst hn
  obtain ⟨hle, htake, hdrop⟩ := exec_values nodes σ
  show Action.exec _ _ >>= run [] = _
  simp only [Action.exec, if_pos hle, htake, hdrop]
  rfl

/-- Without an action there is no node of the values that have just been pushed. -/
theorem run_noAction (nodes : List Node) (n : Nat) (hn : n = nodes.length) (σ : State) :
    run [.noAction n] { σ with values := nodes.reverse ++ σ.values } = .ok (σ.push .noNode) := by
  subst hn
  obtain ⟨hle, -, hdrop⟩ := exec_values nodes σ
  show Action.exec _ _ >>= run [] = _
  simp only [Action.exec, if_pos hle, hdrop]
  rfl

section

variable {m : Node → Node}

theorem Parts.length_nodes : ∀ parts : Parts, parts.length = (parts.nodes m).length
  | .nil => rfl
  | .expr _ rest | .stmt _ rest | .block _ rest => congrArg (· + 1) rest.length_nodes

theorem FnArgsCallP.length_nodes : ∀ p : FnArgsCallP, (p.nodes m).length = p.length
  | .expr _ => rfl
  | .next p _ => by rw [nodes, List.length_append, p.length_nodes]; rfl

theorem GenTupleArgsP.length_nodes : ∀ p : GenTupleArgsP, (p.nodes m).length = p.length
  | .two _ _ => rfl
  | .next p _ => by rw [nodes, List.length_append, p.length_nodes]; rfl

theorem StmtList.length_nodes : ∀ l : StmtList, (l.nodes m).length = l.length
  | .stmt _ => rfl
  | .next l _ => by rw [nodes, List.length_append, l.length_nodes]; rfl

end

/-- A list that the parse has got through is not too long. -/
theorem StmtList.length_le : ∀ {l : StmtList}, l.excesses = [] → l.length ≤ maxStmts
  | .stmt _, _ => (by decide : 1 ≤ maxStmts)
  | .next l s, h => by
      rw [excesses, List.append_eq_nil_iff, List.append_eq_nil_iff] at h
      by_contra hlt
      have hle : maxStmts ≤ l.length := Nat.le_of_lt_succ (Nat.lt_of_not_le hlt)
      rw [excessOf, if_pos hle] at h
      cases h.2.2

/-- One more argument, if there is place. -/
theorem run_addFnArgsActual (aa : List Node) (rest : List (List Node)) (arg : Node)
    (hσ : σ.actualarglist = aa :: rest) :
    run [.addFnArgsActual] (σ.push arg) = outcome (excessOf maxArgs aa.length .tooManyArgs)
      { σ with actualarglist := (aa ++ [arg]) :: rest } := by
  show (σ.addFnArgsActual arg >>= run []) = _
  rw [State.addFnArgsActual, hσ, excessOf]
  by_cases h : maxArgs ≤ aa.length
  · simp only [if_pos h]
    rfl
  · simp only [if_neg h]
    rfl

/-- One more statement, if there is room. -/
theorem run_putAstnodeIntoList {stmts : List Node} (rest : List ASTNodeList) (stmt : Node)
    (hσ : σ.nodelisthead = .of stmts :: rest) (h : stmts.length ≤ maxStmts) :
    run [.putAstnodeIntoList false] (σ.push stmt) = outcome (excessOf maxStmts stmts.length .crash)
      { σ with nodelisthead := .of (stmts ++ [stmt]) :: rest } := by
  show (σ.putAstnodeIntoList stmt false >>= run []) = _
  simp only [State.putAstnodeIntoList, Bool.false_eq_true, if_false, hσ, ASTNodeList.put_of h]
  rw [excessOf]
  by_cases hlt : stmts.length < maxStmts
  · rw [if_pos hlt, if_neg (Nat.not_le.mpr hlt)]
    rfl
  · rw [if_neg hlt, if_pos (Nat.le_of_not_lt hlt)]
    rfl

theorem run_makeExprArglistsActual (aa : List Node) (σ : State) :
    run [.makeExprArglistsActual] { σ with actualarglist := aa :: σ.actualarglist } =
      .ok (σ.push (.mk .argList aa)) := rfl

/-- A part with one value, and the parts behind it. -/
theorem run_part {as as' : List Action} {p : Node} {nodes : List Node} {σ : State}
    (h : run as σ = outcome ex (σ.push p))
    (h' : ∀ σ, run as' σ = outcome ex' { σ with values := nodes.reverse ++ σ.values }) :
    run (as ++ as') σ = outcome (ex ++ ex')
      { σ with values := (p :: nodes).reverse ++ σ.values } := by
  rw [run_append_eq h fun _ => h' _, List.reverse_cons, List.append_assoc]
  rfl

/-! ### The induction -/

mutual

theorem Expr.run_actions : ∀ (e : Expr) (σ : State),
    run e.actions σ = outcome e.excesses (σ.push (e.nodeWith noNodeFor))
  | .other k parts, σ => by
      rw [Expr.actions, Expr.excesses, Expr.nodeWith]
      exact run_last (parts.run_actions σ) (run_make _ _ _ parts.length_nodes σ)
  | .call k callee args, σ => by
      have hmake := run_make (.fnCall k)
        (callee.nodes noNodeFor ++ [.mk .argList (args.nodes noNodeFor)])
        (callee.length + 1) (by rw [callee.length_nodes, List.length_append]; rfl) σ
      rw [List.reverse_append] at hmake
      rw [Expr.actions, Expr.excesses, Expr.nodeWith]
      exact run_append_eq (callee.run_actions σ) fun _ => run_last (args.run_actions _) hmake
  | .genTuple args, σ => by
      rw [Expr.actions, Expr.excesses, Expr.nodeWith]
      exact run_last (args.run_actions σ)
        (run_make .tuple [.mk .argList (args.nodes noNodeFor)] 1 rfl σ)
  | .ifexpr c b b', σ => by
      rw [Expr.actions, Expr.excesses, Expr.nodeWith]
      refine run_append_eq (c.run_actions σ) fun _ => run_append_eq (b.run_actions _) fun _ =>
        run_last (b'.run_actions _) (run_make .ifn [_, _, _] 3 rfl σ)

theorem FnArgsCall.run_actions : ∀ (args : FnArgsCall) (σ : State),
    run args.actions σ = outcome args.excesses (σ.push (.mk .argList (args.nodes noNodeFor)))
  | .none, σ => run_make .argList [] 0 rfl σ
  | .some p, σ => by
      rw [FnArgsCall.actions, FnArgsCall.excesses, FnArgsCall.nodes]
      exact run_last (p.run_actions σ.actualarglistNewPush σ.actualarglist rfl)
        (run_makeExprArglistsActual (p.nodes noNodeFor) σ)

/-- The arguments come to the new list on top. -/
theorem FnArgsCallP.run_actions : ∀ (p : FnArgsCallP) (σ : State) (rest : List (List Node)),
    σ.actualarglist = [] :: rest → run p.actions σ =
      outcome p.excesses { σ with actualarglist := p.nodes noNodeFor :: rest }
  | .expr e, σ, rest, hσ => by
      rw [FnArgsCallP.actions, FnArgsCallP.excesses, FnArgsCallP.nodes]
      exact run_last (e.run_actions σ) (run_addFnArgsActual [] rest (e.nodeWith noNodeFor) hσ)
  | .next p e, σ, rest, hσ => by
      rw [FnArgsCallP.actions, FnArgsCallP.excesses, FnArgsCallP.nodes]
      refine run_append_eq (p.run_actions σ rest hσ) fun _ => run_append_eq (e.run_actions _) ?_
      intro _
      rw [← p.length_nodes (m := noNodeFor)]
      exact run_addFnArgsActual (p.nodes noNodeFor) rest (e.nodeWith noNodeFor) rfl

theorem GenTupleArgs.run_actions : ∀ (args : GenTupleArgs) (σ : State),
    run args.actions σ = outcome args.excesses (σ.push (.mk .argList (args.nodes noNodeFor)))
  | .none, σ => run_make .argList [] 0 rfl σ
  | .some p, σ => by
      rw [GenTupleArgs.actions, GenTupleArgs.excesses, GenTupleArgs.nodes]
      exact run_last (p.run_actions σ) (run_makeExprArglistsActual (p.nodes noNodeFor) σ)

/-- The list begins when its second argument is there. -/
theorem GenTupleArgsP.run_actions : ∀ (p : GenTupleArgsP) (σ : State),
    run p.actions σ = outcome p.excesses
      { σ with actualarglist := p.nodes noNodeFor :: σ.actualarglist }
  | .two e e', σ => by
      rw [GenTupleArgsP.actions, GenTupleArgsP.excesses]
      exact run_append_eq (e.run_actions σ) fun _ => run_last (e'.run_actions _) rfl
  | .next p e, σ => by
      rw [GenTupleArgsP.actions, GenTupleArgsP.excesses, GenTupleArgsP.nodes]
      refine run_append_eq (p.run_actions σ) fun _ => run_append_eq (e.run_actions _) ?_
      intro _
      rw [← p.length_nodes (m := noNodeFor)]
      exact run_addFnArgsActual (p.nodes noNodeFor) σ.actualarglist (e.nodeWith noNodeFor) rfl

theorem StmtexprList.run_actions : ∀ (l : StmtexprList) (σ : State),
    run l.actions σ = outcome l.excesses (σ.push (l.nodeWith noNodeFor))
  | .list l e, σ => by
      rw [StmtexprList.actions, StmtexprList.excesses, StmtexprList.nodeWith]
      exact run_append_eq (l.run_actions σ) fun _ => run_last (e.run_actions _) rfl
  | .expr e, σ => by
      rw [StmtexprList.actions, StmtexprList.excesses, StmtexprList.nodeWith]
      exact run_last (e.run_actions σ) (run_make .lexicalBody [e.nodeWith noNodeFor] 1 rfl σ)

/-- The list begins when its first statement is there. -/
theorem StmtList.run_actions : ∀ (l : StmtList) (σ : State),
    run l.actions σ = outcome l.excesses
      { σ with nodelisthead := .of (l.nodes noNodeFor) :: σ.nodelisthead }
  | .stmt s, σ => by
      rw [StmtList.actions, StmtList.excesses, StmtList.nodes]
      exact run_last (s.run_actions σ) rfl
  | .next l s, σ => by
      rw [StmtList.actions, StmtList.excesses, StmtList.nodes]
      refine run_append_eq (l.run_actions σ) fun hl => run_append_eq (s.run_actions _) ?_
      intro _
      have hle : (l.nodes noNodeFor).length ≤ maxStmts := by
        rw [l.length_nodes]
        exact StmtList.length_le hl
      rw [← l.length_nodes (m := noNodeFor)]
      exact run_putAstnodeIntoList σ.nodelisthead (s.nodeWith noNodeFor) rfl hle

theorem StmtListStar.run_actions : ∀ (body : StmtListStar) (σ : State),
    run body.actions σ = outcome body.excesses (σ.push (body.nodeWith noNodeFor))
  | .list l, σ => by
      rw [StmtListStar.actions, StmtListStar.excesses, StmtListStar.nodeWith]
      exact run_last (l.run_actions σ) rfl
  | .empty, _ => rfl

theorem Stmt.run_actions : ∀ (s : Stmt) (σ : State),
    run s.actions σ = outcome s.excesses (σ.push (s.nodeWith noNodeFor))
  | .other k parts, σ => by
      rw [Stmt.actions, Stmt.excesses, Stmt.nodeWith]
      exact run_last (parts.run_actions σ) (run_make _ _ _ parts.length_nodes σ)
  | .block body, σ => body.run_actions σ
  | .matchStmt e patterns, σ => by
      rw [Stmt.actions, Stmt.excesses, Stmt.nodeWith]
      exact run_append_eq (e.run_actions σ) fun _ => run_last (patterns.run_actions _)
        (run_noAction [_, _] 2 rfl σ)

/-- Of the cases there is one value, which is no node. -/
theorem MatchPatterns.run_actions : ∀ (patterns : MatchPatterns) (σ : State),
    run patterns.actions σ = outcome patterns.excesses (σ.push .noNode)
  | .one p, σ => by
      rw [MatchPatterns.actions, MatchPatterns.excesses]
      exact run_last (p.run_actions σ) (run_noAction [_] 1 rfl σ)
  | .next ps p, σ => by
      rw [MatchPatterns.actions, MatchPatterns.excesses]
      exact run_append_eq (ps.run_actions σ) fun _ => run_last (p.run_actions _)
        (run_noAction [_, _] 2 rfl σ)

theorem MatchPattern.run_actions : ∀ (p : MatchPattern) (σ : State),
    run p.actions σ = outcome p.excesses (σ.push .noNode)
  | .mk left body, σ => by
      have hno := run_noAction (left.nodes noNodeFor ++ [body.nodeWith noNodeFor])
        (left.length + 1) (by rw [left.length_nodes, List.length_append]; rfl) σ
      rw [List.reverse_append] at hno
      rw [MatchPattern.actions, MatchPattern.excesses]
      exact run_append_eq (left.run_actions σ) fun _ => run_last (body.run_actions _) hno

theorem Parts.run_actions : ∀ (parts : Parts) (σ : State),
    run parts.actions σ = outcome parts.excesses
      { σ with values := (parts.nodes noNodeFor).reverse ++ σ.values }
  | .nil, _ => rfl
  | .expr e rest, σ => run_part (e.run_actions σ) rest.run_actions
  | .stmt s rest, σ => run_part (s.run_actions σ) rest.run_actions
  | .block body rest, σ => run_part (body.run_actions σ) rest.run_actions

end

/-! ### What stands for a `match` -/

/-- Lists of the same length have the same node only if they are the same. -/
theorem stmtListNode_inj {l l' : List Node} (h : l.length = l'.length) :
    stmtListNode l = stmtListNode l' ↔ l = l' := by
  refine ⟨?_, fun heq => heq ▸ rfl⟩
  intro heq
  match l, l', h with
  | [], [], _ => rfl
  | [p], [p'], _ => exact congrArg (fun p => [p]) heq
  | _ :: _ :: _, _ :: _ :: _, _ => exact (Node.mk.inj heq).2

mutual

theorem Expr.nodeWith_eq_iff : ∀ e : Expr, e.nodeWith noNodeFor = e.nodeWith id ↔ e.matchFree
  | .other k parts => by
      simp only [Expr.nodeWith, Expr.matchFree, Node.mk.injEq, true_and, parts.nodes_eq_iff]
  | .call k callee args => by
      simp only [Expr.nodeWith, Expr.matchFree, Node.mk.injEq, true_and, List.append_singleton_inj,
        Bool.and_eq_true, callee.nodes_eq_iff, args.nodes_eq_iff]
  | .genTuple args => by
      simp only [Expr.nodeWith, Expr.matchFree, Node.mk.injEq, true_and, and_true, List.cons.injEq,
        args.nodes_eq_iff]
  | .ifexpr c b b' => by
      simp only [Expr.nodeWith, Expr.matchFree, Node.mk.injEq, true_and, and_true, List.cons.injEq,
        Bool.and_eq_true, c.nodeWith_eq_iff, b.nodeWith_eq_iff, b'.nodeWith_eq_iff]

theorem FnArgsCall.nodes_eq_iff : ∀ args : FnArgsCall,
    args.nodes noNodeFor = args.nodes id ↔ args.matchFree
  | .none => by simp only [FnArgsCall.nodes, FnArgsCall.matchFree]
  | .some p => by simp only [FnArgsCall.nodes, FnArgsCall.matchFree, p.nodes_eq_iff]

theorem FnArgsCallP.nodes_eq_iff : ∀ p : FnArgsCallP,
    p.nodes noNodeFor = p.nodes id ↔ p.matchFree
  | .expr e => by
      simp only [FnArgsCallP.nodes, FnArgsCallP.matchFree, List.cons.injEq, and_true,
        e.nodeWith_eq_iff]
  | .next p e => by
      simp only [FnArgsCallP.nodes, FnArgsCallP.matchFree, List.append_singleton_inj,
        Bool.and_eq_true, p.nodes_eq_iff, e.nodeWith_eq_iff]

theorem GenTupleArgs.nodes_eq_iff : ∀ args : GenTupleArgs,
    args.nodes noNodeFor = args.nodes id ↔ args.matchFree
  | .none => by simp only [GenTupleArgs.nodes, GenTupleArgs.matchFree]
  | .some p => by simp only [GenTupleArgs.nodes, GenTupleArgs.matchFree, p.nodes_eq_iff]

theorem GenTupleArgsP.nodes_eq_iff : ∀ p : GenTupleArgsP,
    p.nodes noNodeFor = p.nodes id ↔ p.matchFree
  | .two e e' => by
      simp only [GenTupleArgsP.nodes, GenTupleArgsP.matchFree, List.cons.injEq, and_true,
        Bool.and_eq_true, e.nodeWith_eq_iff, e'.nodeWith_eq_iff]
  | .next p e => by
      simp only [GenTupleArgsP.nodes, GenTupleArgsP.matchFree, List.append_singleton_inj,
        Bool.and_eq_true, p.nodes_eq_iff, e.nodeWith_eq_iff]

theorem StmtexprList.nodeWith_eq_iff : ∀ l : StmtexprList,
    l.nodeWith noNodeFor = l.nodeWith id ↔ l.matchFree
  | .list l e => by
      simp only [StmtexprList.nodeWith, StmtexprList.matchFree, Node.mk.injEq, true_and, and_true,
        List.cons.injEq, Bool.and_eq_true, e.nodeWith_eq_iff,
        stmtListNode_inj (l.length_nodes.trans l.length_nodes.symm), l.nodes_eq_iff]
  | .expr e => by
      simp only [StmtexprList.nodeWith, StmtexprList.matchFree, Node.mk.injEq, true_and, and_true,
        List.cons.injEq, e.nodeWith_eq_iff]

theorem StmtList.nodes_eq_iff : ∀ l : StmtList, l.nodes noNodeFor = l.nodes id ↔ l.matchFree
  | .stmt s => by
      simp only [StmtList.nodes, StmtList.matchFree, List.cons.injEq, and_true, s.nodeWith_eq_iff]
  | .next l s => by
      simp only [StmtList.nodes, StmtList.matchFree, List.append_singleton_inj, Bool.and_eq_true,
        l.nodes_eq_iff, s.nodeWith_eq_iff]

theorem StmtListStar.nodeWith_eq_iff : ∀ body : StmtListStar,
    body.nodeWith noNodeFor = body.nodeWith id ↔ body.matchFree
  | .list l => by
      simp only [StmtListStar.nodeWith, StmtListStar.matchFree, Node.mk.injEq, true_and, and_true,
        List.cons.injEq, stmtListNode_inj (l.length_nodes.trans l.length_nodes.symm),
        l.nodes_eq_iff]
  | .empty => by simp only [StmtListStar.nodeWith, StmtListStar.matchFree]

/-- The value of a symbol is no node. -/
theorem Stmt.nodeWith_eq_iff : ∀ s : Stmt, s.nodeWith noNodeFor = s.nodeWith id ↔ s.matchFree
  | .other k parts => by
      simp only [Stmt.nodeWith, Stmt.matchFree, Node.mk.injEq, true_and, parts.nodes_eq_iff]
  | .block body => by simp only [Stmt.nodeWith, Stmt.matchFree, body.nodeWith_eq_iff]
  | .matchStmt _ _ => by
      simp only [Stmt.nodeWith, Stmt.matchFree, noNodeFor, id, reduceCtorEq, Bool.false_eq_true]

theorem Parts.nodes_eq_iff : ∀ parts : Parts,
    parts.nodes noNodeFor = parts.nodes id ↔ parts.matchFree
  | .nil => by simp only [Parts.nodes, Parts.matchFree]
  | .expr e rest => by
      simp only [Parts.nodes, Parts.matchFree, List.cons.injEq, Bool.and_eq_true,
        e.nodeWith_eq_iff, rest.nodes_eq_iff]
  | .stmt s rest => by
      simp only [Parts.nodes, Parts.matchFree, List.cons.injEq, Bool.and_eq_true,
        s.nodeWith_eq_iff, rest.nodes_eq_iff]
  | .block body rest => by
      simp only [Parts.nodes, Parts.matchFree, List.cons.injEq, Bool.and_eq_true,
        body.nodeWith_eq_iff, rest.nodes_eq_iff]

end

/-! ### The theorem -/

/-- A parse builds the node and leaves what is pending as it was, or it is rejected because there
are too many arguments. -/
def Keeps (as : List Action) (excesses : List Error) (node : Node) : Prop :=
  ∀ σ, run as σ = if .tooManyArgs ∈ excesses then .error .tooManyArgs
    else .ok { σ with values := node :: σ.values }

/-- No list of statements outgrows its `int` before the parse is rejected. -/
def Roomy (excesses : List Error) : Prop := excesses.head? ≠ some .crash

theorem keeps_iff {as : List Action} {ex : List Error} {built node : Node}
    (h : ∀ σ, run as σ = outcome ex (σ.push built)) {free : Bool} (hnode : built = node ↔ free) :
    Keeps as ex node ↔ Roomy ex ∧ (.tooManyArgs ∉ ex → free) := by
  unfold Keeps Roomy
  simp only [h]
  match ex with
  | [] =>
      simp only [List.not_mem_nil, if_false, outcome, State.push, Except.ok.injEq]
      refine ⟨fun heq => ⟨Option.some_ne_none _ |>.symm, fun _ => hnode.mp ?_⟩, ?_⟩
      · exact (List.cons.inj (congrArg State.values (heq ⟨[], [], []⟩))).1
      · intro hfree σ
        rw [hnode.mpr (hfree.2 id)]
  | .tooManyArgs :: rest => simp [outcome]
  | .crash :: rest =>
      simp only [List.head?_cons, ne_eq, not_true_eq_false, false_and, iff_false, not_forall,
        outcome]
      refine ⟨⟨[], [], []⟩, ?_⟩
      intro heq
      split at heq
      · cases heq
      · cases heq

/-- **Every parse of an expression or a block** builds the node with the items that are written
directly in it, each once and in order, and restores the pending lists, or is rejected because a
call or a tuple in it has too many arguments, exactly if no `match` stands in what is not rejected
and no list overflows. -/
theorem parse_keeps_iff (e : Expr) (body : StmtListStar) :
    (Keeps e.actions e.excesses e.node ↔
      Roomy e.excesses ∧ (.tooManyArgs ∉ e.excesses → e.matchFree)) ∧
    (Keeps body.actions body.excesses body.node ↔
      Roomy body.excesses ∧ (.tooManyArgs ∉ body.excesses → body.matchFree)) :=
  ⟨keeps_iff e.run_actions e.nodeWith_eq_iff, keeps_iff body.run_actions body.nodeWith_eq_iff⟩

/-- `{ f(); match (x) { y => { g(); } } h(); }`, where calls, names and statements of expressions
are the kinds 0, 1 and 2. -/
def blockWithMatch : StmtListStar :=
  let callStmt : Stmt := .other 2 (.expr (.call 0 .nil .none) .nil)
  let case : MatchPattern := .mk .nil (.list (.stmt callStmt))
  .list (.next (.next (.stmt callStmt) (.matchStmt (.other 1 .nil) (.one case))) callStmt)

/-- The `match` has no node in its block. -/
theorem not_keeps_blockWithMatch :
    ¬ Keeps blockWithMatch.actions blockWithMatch.excesses blockWithMatch.node := by
  intro h
  have hparse := h ⟨[], [], []⟩
  cases hparse

end CaLang.Parser.Pending

import CaLang.Parser.ScopeVisits
import Mathlib.Data.Nat.Init
import Mathlib.Order.Basic
import Mathlib.Order.Nat

/-! # The scope stack discipline

What the parse of a tree keeps of the scopes.  A tree without functions restores the current table
and the function's table whatever the state is (`Tree.keeps_of_plain`); it restores the return type
too unless a `ret` in it finds none and sets it (`Tree.rettype_of_plain`).  The table of a function
is made in the table around it, or with `-main` in the one around the main function, and popped
again (`Keeps.pop_fn`).
-/

namespace CaLang.Parser

/-! ### What a construct keeps -/

/-- The tables a state refers to exist, and a table is older than the tables inside it. -/
structure WellScoped (m : Bool) (s : State) : Prop where
  curr : s.currSymtable < s.tables
  fn : ∀ f, s.currFnSymtable = some f → f < s.tables
  down : ∀ t p, s.parent t = some p → p < t
  inMain : m = true → 2 ≤ s.tables ∧ s.currSymtable ≠ gRootSymtable

/-- The scopes are what they were, and so are the tables that existed. -/
structure Keeps (m : Bool) (s s' : State) : Prop where
  table : s'.currSymtable = s.currSymtable
  fn : s'.currFnSymtable = s.currFnSymtable
  tables : s.tables ≤ s'.tables
  parent : ∀ t < s.tables, s'.parent t = s.parent t
  wellScoped : WellScoped m s'

/-- The part of the state that scopes are about. -/
def State.scopes (s : State) : Nat × (TableId → Option TableId) × TableId × Option TableId :=
  (s.tables, s.parent, s.currSymtable, s.currFnSymtable)

variable {m : Bool} {s s' s'' : State}

theorem WellScoped.of_scopes (hs : WellScoped m s) (h : s'.scopes = s.scopes) :
    WellScoped m s' := by
  simp only [State.scopes, Prod.mk.injEq] at h
  obtain ⟨ht, hp, hc, hf⟩ := h
  exact ⟨by rw [hc, ht]; exact hs.curr, by rw [hf, ht]; exact hs.fn, by rw [hp]; exact hs.down,
    by rw [hc, ht]; exact hs.inMain⟩

theorem Keeps.of_scopes (hs : WellScoped m s) (h : s'.scopes = s.scopes) : Keeps m s s' := by
  have hw := hs.of_scopes h
  simp only [State.scopes, Prod.mk.injEq] at h
  obtain ⟨ht, hp, hc, hf⟩ := h
  exact ⟨hc, hf, ht.ge, fun t _ => by rw [hp], hw⟩

theorem Keeps.refl (hs : WellScoped m s) : Keeps m s s := .of_scopes hs rfl

theorem Keeps.trans (h : Keeps m s s') (h' : Keeps m s' s'') : Keeps m s s'' where
  table := h'.table.trans h.table
  fn := h'.fn.trans h.fn
  tables := h.tables.trans h'.tables
  parent := fun t ht => (h'.parent t (ht.trans_le h.tables)).trans (h.parent t ht)
  wellScoped := h'.wellScoped

/-- A change outside the scopes after the run. -/
theorem Keeps.then (h : Keeps m s s') (hsc : s''.scopes = s'.scopes) : Keeps m s s'' :=
  h.trans (.of_scopes h.wellScoped hsc)

/-- Changes outside the scopes before and after the run. -/
theorem Keeps.around {s₁ s₂ : State} (h : Keeps m s₁ s₂) (h₁ : s₁.scopes = s.scopes)
    (h₂ : s'.scopes = s₂.scopes) : Keeps m s s' := by
  have hw := h.wellScoped
  simp only [State.scopes, Prod.mk.injEq] at h₁
  obtain ⟨ht, hp, hc, hf⟩ := h₁
  have h₀ : Keeps m s s₂ :=
    ⟨by rw [h.table, hc], by rw [h.fn, hf], ht ▸ h.tables,
      fun t h' => by rw [h.parent t (ht ▸ h'), hp], hw⟩
  exact h₀.then h₂

theorem WellScoped.acyclic (hs : WellScoped m s) : s.Acyclic := by
  intro t h
  have hlt : ∀ a b, Relation.TransGen (fun a b => s.parent a = some b) a b → b < a := by
    intro a b hab
    induction hab with
    | single h => exact hs.down _ _ h
    | tail _ h ih => exact (hs.down _ _ h).trans ih
  exact lt_irrefl t (hlt t t h)

/-! ### Pushing and popping a table -/

theorem WellScoped.push (hs : WellScoped m s) : WellScoped m (pushNewSymtable s) where
  curr := Nat.lt_succ_self _
  fn := fun f hf => (hs.fn f hf).trans (Nat.lt_succ_self _)
  down := by
    intro t p h
    simp only [pushNewSymtable, Function.update_apply] at h
    split at h
    · cases h
      subst t
      exact hs.curr
    · exact hs.down t p h
  inMain := by
    intro hm
    obtain ⟨h2, -⟩ := hs.inMain hm
    exact ⟨h2.trans (Nat.le_succ _), (Nat.lt_of_lt_of_le Nat.zero_lt_two h2).ne'⟩

/-- The table pushed by `pushNewSymtable` is popped again. -/
theorem Keeps.pop (hs : WellScoped m s) (h : Keeps m (pushNewSymtable s) s') :
    Keeps m s (popSymtable s') := by
  have hcurr : s'.currSymtable = s.tables := h.table
  have hne : s'.currSymtable ≠ gRootSymtable := by
    rw [hcurr]
    exact (Nat.zero_lt_of_lt hs.curr).ne'
  have hpar : s'.parent s.tables = some s.currSymtable := by
    rw [h.parent s.tables (Nat.lt_succ_self _)]
    simp [pushNewSymtable]
  have hpop : popSymtable s' = { s' with currSymtable := s.currSymtable } := by
    rw [popSymtable, if_pos hne, hcurr, hpar]
    rfl
  have hle : s.tables ≤ s'.tables := (Nat.le_succ _).trans h.tables
  rw [hpop]
  exact
    { table := rfl
      fn := h.fn
      tables := hle
      parent := by
        intro t ht
        rw [h.parent t (ht.trans (Nat.lt_succ_self _))]
        simp [pushNewSymtable, ht.ne]
      wellScoped :=
        { curr := hs.curr.trans_le hle
          fn := h.wellScoped.fn
          down := h.wellScoped.down
          inMain := fun hm => ⟨(hs.inMain hm).1.trans hle, (hs.inMain hm).2⟩ } }

theorem scopes_reset : (resetArglistWithNewSymtable s).scopes = (pushNewSymtable s).scopes := rfl

/-- The table of a struct is popped again. -/
theorem Keeps.makeStructType (hs : WellScoped m s)
    (h : Keeps m (resetArglistWithNewSymtable s) s') : Keeps m s (makeStructType s') := by
  have h₀ : Keeps m (pushNewSymtable s) (resetArglistWithNewSymtable s) :=
    .of_scopes hs.push scopes_reset
  refine Keeps.pop hs ((h₀.trans h).then ?_)
  rfl

/-! ### Trees without functions -/

theorem Tree.keeps_of_plain {c : Symbol} (t : Tree c) {noRet : Bool} {s : State}
    (hp : t.plain noRet = true) (hs : WellScoped m s) : Keeps m s (t.parse m s) := by
  induction t generalizing s with
  | atom | noArgs | noFields | noClause | retVoid | label _ | noStmt | noTraitFn | noImplFn =>
      exact .refl hs
  | operands left right ihl ihr =>
      simp only [plain, Bool.and_eq_true] at hp
      have hl := ihl hp.1 hs
      exact hl.trans (ihr hp.2 hl.wellScoped)
  | ifexpr cond thens elses ihc iht ihe =>
      simp only [plain, Bool.and_eq_true] at hp
      have hc := ihc hp.1.1 hs
      have ht := hc.trans (iht hp.1.2 hc.wellScoped)
      exact ht.trans (ihe hp.2 ht.wellScoped)
  | stmtexprListBlock list value ihl ihv =>
      simp only [plain, Bool.and_eq_true] at hp
      have hl := ihl hp.1 hs.push
      exact (hl.trans (ihv hp.2 hl.wellScoped)).pop hs
  | stmtListBlock list ih => exact (ih hp hs.push).pop hs
  | firstParam name type ih => exact (ih hp hs).then rfl
  | nextParam init name type ihi iht =>
      simp only [plain, Bool.and_eq_true] at hp
      have hi := ihi hp.1 hs
      exact (hi.trans (iht hp.2 hi.wellScoped)).then rfl
  | someArgs list varg ih => exact (ih hp hs).then rfl
  | someFields list ih => exact ih hp hs
  | clause head body rest ihh ihb ihr =>
      simp only [plain, Bool.and_eq_true] at hp
      have hh := ihh hp.1.1 hs
      have hb := hh.trans (ihb hp.1.2 hh.wellScoped)
      exact hb.trans (ihr hp.2 hb.wellScoped)
  | simple parts ih => exact ih hp hs
  | retExpr value ih =>
      simp only [plain, Bool.and_eq_true] at hp
      refine (ih hp.2 hs).then ?_
      simp only [parse, makeStmtRetExpr]
      split <;> rfl
  | control list ih => exact ih hp hs
  | forStmt list body ihl ihb =>
      simp only [plain, Bool.and_eq_true] at hp
      have hl := ihl hp.1 hs.push
      exact (hl.trans (ihb hp.2 hl.wellScoped)).pop hs
  | structDef name members ih => exact (ih hp (hs.push.of_scopes scopes_reset)).makeStructType hs
  | traitDef name defs ih =>
      have h := ih (s := { s with currentTraitId := name }) hp (hs.of_scopes rfl)
      exact h.around rfl rfl
  | typeImpl classId traitId defs ih =>
      have h := ih (s := pushTypeImpl classId traitId s) hp (hs.of_scopes rfl)
      exact h.around rfl rfl
  | stmtThen first rest ihf ihr =>
      simp only [plain, Bool.and_eq_true] at hp
      have hf := ihf hp.1 hs
      exact hf.trans (ihr hp.2 hf.wellScoped)
  | fnDefine | fnUnit | fnDecl | traitProto | traitDefault | implFn => cases hp

/-- `noRet` forbids `ret` with a value where it would set the return type. -/
def RetGuard (m : Bool) (s : State) (noRet : Bool) : Prop :=
  m = true → s.currFnRettype = 0 → noRet = true

theorem RetGuard.congr {noRet : Bool} (hr : RetGuard m s noRet)
    (h : s'.currFnRettype = s.currFnRettype) : RetGuard m s' noRet :=
  fun hm hn => hr hm (h ▸ hn)

@[simp] theorem popSymtable_currFnRettype : (popSymtable s).currFnRettype = s.currFnRettype := by
  unfold popSymtable
  split <;> rfl

theorem Tree.rettype_of_plain {c : Symbol} (t : Tree c) {noRet : Bool} {s : State}
    (hp : t.plain noRet = true) (hr : RetGuard m s noRet) :
    (t.parse m s).currFnRettype = s.currFnRettype := by
  induction t generalizing s with
  | atom | noArgs | noFields | noClause | retVoid | label _ | noStmt | noTraitFn | noImplFn => rfl
  | operands left right ihl ihr | nextParam left _ right ihl ihr | stmtThen left right ihl ihr =>
      simp only [plain, Bool.and_eq_true] at hp
      have hl := ihl hp.1 hr
      exact (ihr hp.2 (hr.congr hl)).trans hl
  | ifexpr cond thens elses ihc iht ihe | clause cond thens elses ihc iht ihe =>
      simp only [plain, Bool.and_eq_true] at hp
      have hc := ihc hp.1.1 hr
      have ht := (iht hp.1.2 (hr.congr hc)).trans hc
      exact (ihe hp.2 (hr.congr ht)).trans ht
  | stmtexprListBlock list value ihl ihv | forStmt list value ihl ihv =>
      simp only [plain, Bool.and_eq_true] at hp
      have hl := ihl (s := pushNewSymtable s) hp.1 hr
      exact popSymtable_currFnRettype.trans ((ihv hp.2 (hr.congr hl)).trans hl)
  | stmtListBlock list ih =>
      exact popSymtable_currFnRettype.trans (ih (s := pushNewSymtable s) hp hr)
  | firstParam name type ih | someArgs type name ih | someFields type ih | simple type ih
  | control type ih => exact ih hp hr
  | retExpr value ih =>
      simp only [plain, Bool.and_eq_true, Bool.not_eq_true'] at hp
      have hv := ih hp.2 hr
      -- the return type is set already, or there is no -main
      simp only [parse, makeStmtRetExpr]
      rw [if_neg]
      · exact hv
      · intro hset
        simp only [Bool.and_eq_true, decide_eq_true_eq] at hset
        rw [hr.congr hv hset.2 hset.1] at hp
        exact Bool.noConfusion hp.1
  | structDef name members ih =>
      exact popSymtable_currFnRettype.trans (ih (s := resetArglistWithNewSymtable s) hp hr)
  | traitDef name defs ih => exact ih (s := { s with currentTraitId := name }) hp hr
  | typeImpl classId traitId defs ih => exact ih (s := pushTypeImpl classId traitId s) hp hr
  | fnDefine | fnUnit | fnDecl | traitProto | traitDefault | implFn => cases hp

/-! ### Their visits -/

/-- The scopes and the return type are what they were. -/
structure Restores (m : Bool) (s s' : State) : Prop extends Keeps m s s' where
  rettype : s'.currFnRettype = s.currFnRettype

theorem Restores.trans (h : Restores m s s') (h' : Restores m s' s'') : Restores m s s'' :=
  ⟨h.toKeeps.trans h'.toKeeps, h'.rettype.trans h.rettype⟩

theorem Restores.guard {noRet : Bool} (h : Restores m s s') (hr : RetGuard m s noRet) :
    RetGuard m s' noRet := hr.congr h.rettype

theorem Tree.restores_of_plain {c : Symbol} (t : Tree c) {noRet : Bool}
    (hp : t.plain noRet = true) (hs : WellScoped m s) (hr : RetGuard m s noRet) :
    Restores m s (t.parse m s) := ⟨t.keeps_of_plain hp hs, t.rettype_of_plain hp hr⟩

theorem Restores.ok (h : Restores m s s') : (Visit.construct s s').Ok :=
  ⟨h.table, h.fn, h.rettype, h.wellScoped.acyclic⟩

/-- The state is in the scope. -/
structure State.In (s : State) (sc : Scope) : Prop where
  table : s.currSymtable = sc.table
  fn : s.currFnSymtable = sc.fn

theorem Keeps.inScope {sc : Scope} (h : Keeps m s s') (hsc : s.In sc) : s'.In sc :=
  ⟨h.table.trans hsc.table, h.fn.trans hsc.fn⟩

theorem State.In.push {sc : Scope} (hsc : s.In sc) : (pushNewSymtable s).In (sc.inner s) :=
  ⟨rfl, hsc.fn⟩

theorem State.In.ok {sc : Scope} (hsc : s.In sc) (hs : WellScoped m s) :
    (Visit.point sc s).Ok := ⟨hsc.table, hsc.fn, hs.acyclic⟩

theorem Tree.disciplined_of_plain {c : Symbol} (t : Tree c) {noRet : Bool} {s : State} {sc : Scope}
    (hp : t.plain noRet = true) (hs : WellScoped m s) (hr : RetGuard m s noRet) (hsc : s.In sc) :
    t.Disciplined m sc s := by
  induction t generalizing s sc with
  | atom | noArgs | noFields | noClause | noStmt | noTraitFn | noImplFn =>
      exact List.forall_mem_nil _
  | retVoid | label _ => exact List.forall_mem_singleton.mpr (hsc.ok hs)
  | operands left right ihl ihr | nextParam left _ right ihl ihr | stmtThen left right ihl ihr =>
      simp only [plain, Bool.and_eq_true] at hp
      have hl := left.restores_of_plain hp.1 hs hr
      exact List.forall_mem_append.mpr
        ⟨ihl hp.1 hs hr hsc, ihr hp.2 hl.wellScoped (hl.guard hr) (hl.inScope hsc)⟩
  | ifexpr cond thens elses ihc iht ihe | clause cond thens elses ihc iht ihe =>
      simp only [plain, Bool.and_eq_true] at hp
      have hc := cond.restores_of_plain hp.1.1 hs hr
      have ht := hc.trans (thens.restores_of_plain hp.1.2 hc.wellScoped (hc.guard hr))
      exact List.forall_mem_append.mpr ⟨ihc hp.1.1 hs hr hsc, List.forall_mem_append.mpr
        ⟨iht hp.1.2 hc.wellScoped (hc.guard hr) (hc.inScope hsc),
          ihe hp.2 ht.wellScoped (ht.guard hr) (ht.inScope hsc)⟩⟩
  | stmtexprListBlock list value ihl ihv =>
      have hall := (stmtexprListBlock list value).restores_of_plain hp hs hr
      simp only [plain, Bool.and_eq_true] at hp
      have hl := list.restores_of_plain (s := pushNewSymtable s) hp.1 hs.push hr
      exact List.forall_mem_cons.mpr ⟨hsc.push.ok hs.push, List.forall_mem_append.mpr
        ⟨ihl hp.1 hs.push hr hsc.push, List.forall_mem_append.mpr
          ⟨ihv hp.2 hl.wellScoped (hl.guard hr) (hl.inScope hsc.push),
            List.forall_mem_singleton.mpr hall.ok⟩⟩⟩
  | forStmt list body ihl ihb =>
      have hall := (forStmt list body).restores_of_plain hp hs hr
      simp only [plain, Bool.and_eq_true] at hp
      have hl := list.restores_of_plain (s := pushNewSymtable s) hp.1 hs.push hr
      exact List.forall_mem_cons.mpr ⟨hsc.push.ok hs.push, List.forall_mem_append.mpr
        ⟨ihl hp.1 hs.push hr hsc.push, List.forall_mem_append.mpr
          ⟨ihb hp.2 hl.wellScoped (hl.guard hr) (hl.inScope hsc.push),
            List.forall_mem_singleton.mpr hall.ok⟩⟩⟩
  | stmtListBlock list ih =>
      have hall := (stmtListBlock list).restores_of_plain hp hs hr
      exact List.forall_mem_cons.mpr ⟨hsc.push.ok hs.push, List.forall_mem_append.mpr
        ⟨ih hp hs.push hr hsc.push, List.forall_mem_singleton.mpr hall.ok⟩⟩
  | firstParam _ type ih | someArgs type _ ih | someFields type ih | control type ih =>
      exact ih hp hs hr hsc
  | simple parts ih =>
      have hall := parts.restores_of_plain hp hs hr
      exact List.forall_mem_append.mpr ⟨ih hp hs hr hsc,
        List.forall_mem_singleton.mpr ((hall.inScope hsc).ok hall.wellScoped)⟩
  | retExpr value ih =>
      simp only [plain, Bool.and_eq_true] at hp
      have hv := value.restores_of_plain hp.2 hs hr
      exact List.forall_mem_append.mpr ⟨ih hp.2 hs hr hsc,
        List.forall_mem_singleton.mpr ((hv.inScope hsc).ok hv.wellScoped)⟩
  | structDef name members ih =>
      have hall := (structDef name members).restores_of_plain hp hs hr
      exact List.forall_mem_append.mpr ⟨ih hp (hs.push.of_scopes scopes_reset) hr ⟨rfl, hsc.fn⟩,
        List.forall_mem_singleton.mpr hall.ok⟩
  | traitDef name defs ih =>
      have hall := (traitDef name defs).restores_of_plain hp hs hr
      exact List.forall_mem_append.mpr ⟨ih hp (hs.of_scopes rfl) hr ⟨hsc.table, hsc.fn⟩,
        List.forall_mem_singleton.mpr hall.ok⟩
  | typeImpl classId traitId defs ih =>
      have hall := (typeImpl classId traitId defs).restores_of_plain hp hs hr
      exact List.forall_mem_append.mpr ⟨ih hp (hs.of_scopes rfl) hr ⟨hsc.table, hsc.fn⟩,
        List.forall_mem_singleton.mpr hall.ok⟩
  | fnDefine | fnUnit | fnDecl | traitProto | traitDefault | implFn => cases hp

/-! ### Functions -/

/-- The table in which a function's table is made: the one around it, or with `-main` the one
around the main function. -/
def State.outer (m : Bool) (s : State) : TableId :=
  if m then (popSymtable s).currSymtable else s.currSymtable

theorem State.outer_lt (hs : WellScoped m s) : s.outer m < s.tables := by
  unfold outer popSymtable
  split
  · split
    · cases hp : s.parent s.currSymtable with
      | none => exact Nat.zero_lt_of_lt hs.curr
      | some p => exact (hs.down _ _ hp).trans hs.curr
    · exact hs.curr
  · exact hs.curr

theorem scopes_fnProtoName : (fnProtoName m s).scopes =
    (s.tables + 1, Function.update s.parent s.tables (some (s.outer m)), s.tables,
      if s.externFlag then none else some s.tables) := by
  cases m with
  | false => rfl
  | true =>
      simp only [fnProtoName, State.outer, popSymtable, if_true]
      split <;> rfl

theorem WellScoped.fnProtoName (hs : WellScoped m s) : WellScoped m (fnProtoName m s) := by
  have h := scopes_fnProtoName (m := m) (s := s)
  simp only [State.scopes, Prod.mk.injEq] at h
  obtain ⟨ht, hp, hc, hf⟩ := h
  refine ⟨by rw [hc, ht]; exact Nat.lt_succ_self _, ?_, ?_, ?_⟩
  · intro f h
    rw [hf] at h
    split at h
    · cases h
    · cases h
      rw [ht]
      exact Nat.lt_succ_self _
  · intro t p h
    rw [hp, Function.update_apply] at h
    split at h
    · cases h
      subst t
      exact s.outer_lt hs
    · exact hs.down t p h
  · intro hm
    have h2 := (hs.inMain hm).1
    rw [ht, hc]
    exact ⟨h2.trans (Nat.le_succ _), (Nat.lt_of_lt_of_le Nat.zero_lt_two h2).ne'⟩

@[simp] theorem fnProtoName_currFnRettype :
    (fnProtoName m s).currFnRettype = s.currFnRettype := by
  cases m with
  | false => rfl
  | true => exact popSymtable_currFnRettype

@[simp] theorem popSymtable_externFlag : (popSymtable s).externFlag = s.externFlag := by
  unfold popSymtable
  split <;> rfl

@[simp] theorem fnProtoName_externFlag : (fnProtoName m s).externFlag = s.externFlag := by
  cases m with
  | false => rfl
  | true => exact popSymtable_externFlag

theorem scopes_makeFnProto (name rettype : Id) :
    (makeFnProto name rettype s).1.scopes = s.scopes := by
  unfold makeFnProto
  dsimp only
  split <;> rfl

@[simp] theorem makeFnProto_currFnRettype (name rettype : Id) :
    (makeFnProto name rettype s).1.currFnRettype = rettype := by
  unfold makeFnProto
  dsimp only
  split <;> rfl

@[simp] theorem makeFnProto_externFlag (name rettype : Id) :
    (makeFnProto name rettype s).1.externFlag = s.externFlag := by
  unfold makeFnProto
  dsimp only
  split <;> rfl

/-- After the types and the body of a function its table is popped. -/
theorem Keeps.pop_fn (hs : WellScoped m s) (h : Keeps m (fnProtoName m s) s') :
    popSymtable s' = { s' with currSymtable := s.outer m } := by
  have hsc := scopes_fnProtoName (m := m) (s := s)
  simp only [State.scopes, Prod.mk.injEq] at hsc
  obtain ⟨ht, hp, hc, -⟩ := hsc
  have hcurr : s'.currSymtable = s.tables := h.table.trans hc
  have hpar : s'.parent s.tables = some (s.outer m) := by
    rw [h.parent s.tables (by rw [ht]; exact Nat.lt_succ_self _), hp]
    simp
  rw [popSymtable, if_pos (by rw [hcurr]; exact (Nat.zero_lt_of_lt hs.curr).ne'), hcurr, hpar]
  rfl

end CaLang.Parser

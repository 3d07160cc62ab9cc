import CaLang.Codegen.Source
import Mathlib.Data.List.Nodup

/-! # The parser's label tables

While it parses, `make_goto` and `make_label_def` look a label up in `curr_fn_symtable`.  A goto
enters an unknown label as `Sym_Label_Hanging`, and **no one looks at the hanging ones again**.
The table is that of the last function prototype parsed: the end of a function definition leaves
no table, or that of the generated function under `-main`, also where it stands in another one.
-/

namespace CaLang.Codegen

/-- A symbol table in which labels are entered. -/
abbrev TableId := Nat

/-- The `sym_type` of a label's entry. -/
inductive LabelSym
  | label | hanging
  deriving DecidableEq

/-- Why the compiler ends at a label or goto. -/
inductive Stop
  /-- "Label '...' redefinition" -/
  | redefinition (name : Id)
  /-- There is no table: `sym_getsym` reads through a null pointer. -/
  | noTable
  deriving DecidableEq

/-- The actions of `ca.y` that concern the tables of the labels. -/
inductive Action
  | protoName (externFlag : Bool)
  | fnDef
  | fnDecl
  | goto (name : Id)
  | labelDef (name : Id)
  deriving DecidableEq

/-- `g_main_symtable`. -/
def gMainSymtable : TableId := 0

/-- Which tables there are, and `curr_fn_symtable`. -/
structure TableCtx where
  next : TableId
  currFnSymtable : Option TableId
  deriving DecidableEq

/-- `yyparser_init`. -/
def yyparserInit (emitMain : Bool) : TableCtx :=
  ⟨1, if emitMain then some gMainSymtable else none⟩

/-- What an action does to `curr_fn_symtable`. -/
def TableCtx.after (emitMain : Bool) (c : TableCtx) : Action → TableCtx
  | .protoName externFlag => ⟨c.next + 1, if externFlag then none else some c.next⟩
  | .fnDef => { c with currFnSymtable := if emitMain then some gMainSymtable else none }
  | .fnDecl =>
      { c with currFnSymtable := if emitMain then some gMainSymtable else c.currFnSymtable }
  | .goto _ => c
  | .labelDef _ => c

/-- The entries of the labels. -/
abbrev LabelSyms := TableId → Id → Option LabelSym

def LabelSyms.insert (syms : LabelSyms) (st : TableId) (name : Id) (sym : LabelSym) : LabelSyms :=
  fun st' name' => if st' = st ∧ name' = name then some sym else syms st' name'

/-- `make_goto`. -/
def makeGoto (name : Id) (syms : LabelSyms) : Option TableId → Except Stop LabelSyms
  | none => .error .noTable
  | some st =>
      match syms st name with
      | some _ => .ok syms
      | none => .ok (syms.insert st name .hanging)

/-- `make_label_def`. -/
def makeLabelDef (name : Id) (syms : LabelSyms) : Option TableId → Except Stop LabelSyms
  | none => .error .noTable
  | some st =>
      match syms st name with
      | some .label => .error (.redefinition name)
      | some .hanging => .ok (syms.insert st name .label)
      | none => .ok (syms.insert st name .label)

/-- What an action does to the entries. -/
def Action.enter (c : TableCtx) (syms : LabelSyms) : Action → Except Stop LabelSyms
  | .goto name => makeGoto name syms c.currFnSymtable
  | .labelDef name => makeLabelDef name syms c.currFnSymtable
  | _ => .ok syms

/-- The actions one after another. -/
def parseActions (emitMain : Bool) : TableCtx → LabelSyms → List Action → Except Stop LabelSyms
  | _, syms, [] => .ok syms
  | c, syms, a :: rest =>
      match a.enter c syms with
      | .error stop => .error stop
      | .ok syms => parseActions emitMain (c.after emitMain a) syms rest

/-- The actions in the order of the text. -/
def Source.actions : {c : Part} → Source c → List Action
  | _, .atom => []
  | _, .operands left right => left.actions ++ right.actions
  | _, .landor left right => left.actions ++ right.actions
  | _, .ife cond thens elses => cond.actions ++ (thens.actions ++ elses.actions)
  | _, .typeOf arg => arg.actions
  | _, .noClause => []
  | _, .elseBody body => body.actions
  | _, .clause cond body rest => cond.actions ++ (body.actions ++ rest.actions)
  | _, .fnDefine _ stmts => .protoName false :: (stmts.actions ++ [.fnDef])
  | _, .noFns => []
  | _, .fnThen _ fn rest => fn.actions ++ rest.actions
  | _, .noTraitFn => []
  | _, .protoThen rest => .protoName false :: rest.actions
  | _, .defaultThen fn rest => fn.actions ++ rest.actions
  | _, .simple parts => parts.actions
  | _, .typeDef => []
  | _, .fnDecl => [.protoName true, .fnDecl]
  | _, .traitDef defs => defs.actions
  | _, .typeImpl own _ => own.actions
  | _, .retVoid => []
  | _, .retExpr value _ => value.actions
  | _, .breakStmt => []
  | _, .continueStmt => []
  | _, .label name => [.labelDef name]
  | _, .labelGoto name => [.goto name]
  | _, .loop body => body.actions
  | _, .whileStmt cond body => cond.actions ++ body.actions
  | _, .forStmt list body => list.actions ++ body.actions
  | _, .ifStmt clauses => clauses.actions
  | _, .lexicalBody stmts => stmts.actions
  | _, .fnStmt _ fn => fn.actions
  | _, .noStmt => []
  | _, .stmtThen first rest => first.actions ++ rest.actions

/-- The labels of a text as the parser enters them. -/
def Source.parse (emitMain : Bool) (p : Source .stmts) : Except Stop LabelSyms :=
  parseActions emitMain (yyparserInit emitMain) (fun _ _ => none) p.actions

/-- The parser gets to the end of the text. -/
def Source.Accepted (emitMain : Bool) (p : Source .stmts) : Prop :=
  ∃ syms, p.parse emitMain = .ok syms

/-! ### What is accepted -/

/-- The labels and gotos with the tables they are looked up in. -/
def tableUses (emitMain : Bool) : TableCtx → List Action → List (Option TableId × Use)
  | _, [] => []
  | c, .goto name :: rest => (c.currFnSymtable, .goto name) :: tableUses emitMain c rest
  | c, .labelDef name :: rest =>
      (c.currFnSymtable, .label name) :: tableUses emitMain c rest
  | c, a :: rest => tableUses emitMain (c.after emitMain a) rest

/-- The labels among these, with their tables. -/
def tableLabels (us : List (Option TableId × Use)) : List (Option TableId × Id) :=
  us.filterMap fun u => u.2.labelName.map (u.1, ·)

/-- **Every label and goto has a table, and no table gets a label twice.** -/
def Source.TablesKept (emitMain : Bool) (p : Source .stmts) : Prop :=
  (∀ u ∈ tableUses emitMain (yyparserInit emitMain) p.actions, u.1 ≠ none) ∧
    (tableLabels (tableUses emitMain (yyparserInit emitMain) p.actions)).Nodup

instance (emitMain : Bool) (p : Source .stmts) : Decidable (p.TablesKept emitMain) :=
  inferInstanceAs (Decidable (_ ∧ _))

/-- A table has a label. -/
def LabelSyms.has (syms : LabelSyms) (u : Option TableId × Id) : Prop :=
  ∃ st, u.1 = some st ∧ syms st u.2 = some .label

theorem LabelSyms.has_insert_hanging {syms : LabelSyms} {st : TableId} {name : Id}
    (h : syms st name = none) (u : Option TableId × Id) :
    (syms.insert st name .hanging).has u ↔ syms.has u := by
  refine exists_congr fun st' => and_congr_right ?_
  intro _
  unfold insert
  split
  · rename_i he
    rw [he.1, he.2, h]
    exact ⟨nofun, nofun⟩
  · exact Iff.rfl

theorem LabelSyms.has_insert_label (syms : LabelSyms) (st : TableId) (name : Id)
    (u : Option TableId × Id) :
    (syms.insert st name .label).has u ↔ u = (some st, name) ∨ syms.has u := by
  obtain ⟨t, n⟩ := u
  constructor
  · rintro ⟨st', rfl, h⟩
    unfold insert at h
    split at h
    · rename_i he
      obtain ⟨rfl, rfl⟩ := he
      exact .inl rfl
    · exact .inr ⟨st', rfl, h⟩
  · rintro (he | ⟨st', rfl, h⟩)
    · cases he
      exact ⟨st, rfl, if_pos ⟨rfl, rfl⟩⟩
    · refine ⟨st', rfl, ?_⟩
      unfold insert
      split
      · rfl
      · exact h

section

variable {syms : LabelSyms} {st : TableId} {name : Id} {sym : LabelSym}

theorem makeGoto_of_some (h : syms st name = some sym) :
    makeGoto name syms (some st) = .ok syms := by
  simp only [makeGoto, h]

theorem makeGoto_of_none (h : syms st name = none) :
    makeGoto name syms (some st) = .ok (syms.insert st name .hanging) := by
  simp only [makeGoto, h]

theorem makeLabelDef_of_eq (h : syms st name = some .label) :
    makeLabelDef name syms (some st) = .error (.redefinition name) := by
  simp only [makeLabelDef, h]

theorem makeLabelDef_of_ne (h : syms st name ≠ some .label) :
    makeLabelDef name syms (some st) = .ok (syms.insert st name .label) := by
  match hs : syms st name with
  | some .label => exact absurd hs h
  | some .hanging => simp only [makeLabelDef, hs]
  | none => simp only [makeLabelDef, hs]

end

/-- From given entries the actions are accepted iff every use has a table, no table gets a label
twice, and none gets one it has. -/
theorem parseActions_ok_iff {emitMain : Bool} (as : List Action) (c : TableCtx)
    (syms : LabelSyms) :
    (∃ syms', parseActions emitMain c syms as = .ok syms') ↔
      (∀ u ∈ tableUses emitMain c as, u.1 ≠ none) ∧
        (tableLabels (tableUses emitMain c as)).Nodup ∧
          ∀ u ∈ tableLabels (tableUses emitMain c as), ¬ syms.has u := by
  induction as generalizing c syms with
  | nil => exact ⟨fun _ => ⟨nofun, List.nodup_nil, nofun⟩, fun _ => ⟨syms, rfl⟩⟩
  | cons a rest ih =>
      cases a with
      | protoName externFlag => exact ih _ _
      | fnDef => exact ih _ _
      | fnDecl => exact ih _ _
      | goto name =>
          simp only [parseActions, Action.enter, tableUses, TableCtx.after, List.forall_mem_cons]
          cases hc : c.currFnSymtable with
          | none => exact ⟨fun ⟨_, h⟩ => (nomatch h), fun h => absurd rfl h.1.1⟩
          | some st =>
              have hl : tableLabels ((some st, Use.goto name) :: tableUses emitMain c rest) =
                  tableLabels (tableUses emitMain c rest) := List.filterMap_cons_none rfl
              rw [hl, and_iff_right (Option.some_ne_none st)]
              cases hs : syms st name with
              | some sym =>
                  rw [makeGoto_of_some hs]
                  exact ih c syms
              | none =>
                  rw [makeGoto_of_none hs]
                  refine (ih c _).trans ?_
                  simp only [LabelSyms.has_insert_hanging hs]
      | labelDef name =>
          simp only [parseActions, Action.enter, tableUses, TableCtx.after, List.forall_mem_cons]
          cases hc : c.currFnSymtable with
          | none => exact ⟨fun ⟨_, h⟩ => (nomatch h), fun h => absurd rfl h.1.1⟩
          | some st =>
              have hl : tableLabels ((some st, Use.label name) :: tableUses emitMain c rest) =
                  (some st, name) :: tableLabels (tableUses emitMain c rest) :=
                List.filterMap_cons_some rfl
              rw [hl, and_iff_right (Option.some_ne_none st), List.nodup_cons,
                List.forall_mem_cons]
              by_cases hs : syms st name = some .label
              · rw [makeLabelDef_of_eq hs]
                exact ⟨fun ⟨_, h⟩ => (nomatch h), fun h => absurd ⟨st, rfl, hs⟩ h.2.2.1⟩
              · have hnot : ¬ syms.has (some st, name) := by
                  rintro ⟨st', he, h⟩
                  cases he
                  exact hs h
                rw [makeLabelDef_of_ne hs, and_iff_right hnot]
                refine (ih c _).trans (and_congr_right ?_)
                intro _
                simp only [LabelSyms.has_insert_label, not_or]
                constructor
                · rintro ⟨hn, hall⟩
                  exact ⟨⟨fun hm => (hall _ hm).1 rfl, hn⟩, fun u hu => (hall u hu).2⟩
                · rintro ⟨⟨hm, hn⟩, hall⟩
                  exact ⟨hn, fun u hu => ⟨fun he => hm (he ▸ hu), hall u hu⟩⟩

/-- **The parser accepts what its tables allow**; a goto is refused only for want of a table. -/
theorem Source.accepted_iff (emitMain : Bool) (p : Source .stmts) :
    p.Accepted emitMain ↔ p.TablesKept emitMain := by
  refine (parseActions_ok_iff p.actions _ _).trans (and_congr_right ?_)
  intro _
  exact and_iff_left fun u _ => fun ⟨_, _, h⟩ => by cases h

end CaLang.Codegen

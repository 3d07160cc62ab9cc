import CaLang.Lexical.Mangled
import Mathlib.Data.List.Nodup

/-! # Functions have names of their own

**No two functions of a walk get the same mangled name**, where no body declares two functions of
one name, and no type gets two methods of one name and trait: the number of a block in the name is
the number of no other block of the walk.
-/

namespace CaLang.Lexical

/-! ### The functions of a walk -/

/-- A function that is declared, with the scopes around it. -/
structure Declared where
  scopes : List LexicalScope
  fn : FnName

namespace Declared

def parts (d : Declared) : List Part := d.fn.parts d.scopes

def mangledName (d : Declared) : String := manglingFunctionName d.scopes d.fn

def isPlain (d : Declared) : Bool := d.fn.impl.isNone

end Declared

/-- The functions that a walk declares, and the count behind it. -/
abbrev Trace := List LexicalScope → Nat → List Declared × Nat

namespace Trace

def skip : Trace := fun _ count => ([], count)

def seq (t t' : Trace) : Trace := fun scopes count =>
  ((t scopes count).1 ++ (t' scopes (t scopes count).2).1, (t' scopes (t scopes count).2).2)

def lexicalBody (scope : Nat → LexicalScope) (t : Trace) : Trace := fun scopes count =>
  t (scopes ++ [scope (count + 1)]) (count + 1)

def fnDeclare (fn : FnName) (t : Trace) : Trace := fun scopes count =>
  (⟨scopes, fn⟩ :: (t scopes count).1, (t scopes count).2)

def byPass (pass : Pass) (inFn : Bool) (first second : Trace) : Trace :=
  match pass with
  | .first => first
  | .second => if inFn then second else skip

end Trace

variable (pass : Pass) in
/-- The functions that the walk of a node declares. -/
def Node.trace : {c : Symbol} → Node c → Bool → Trace
  | _, .leaf, _ => .skip
  | _, .operands left right, inFn =>
      .byPass pass inFn .skip ((left.trace inFn).seq (right.trace inFn))
  | _, .ife cond thens elses, inFn =>
      .byPass pass inFn ((thens.trace inFn).seq (elses.trace inFn))
        ((cond.trace inFn).seq ((thens.trace inFn).seq (elses.trace inFn)))
  | _, .value e, inFn => .lexicalBody .block (e.trace inFn)
  | _, .stmtExpr stmts e, inFn =>
      .lexicalBody .block (.byPass pass inFn .skip ((stmts.trace inFn).seq (e.trace inFn)))
  | _, .noConds, _ => .skip
  | _, .condThen cond rest, inFn => (cond.trace inFn).seq (rest.trace inFn)
  | _, .noBodies, _ => .skip
  | _, .bodyThen body rest, inFn =>
      (Trace.lexicalBody .block (body.trace inFn)).seq (rest.trace inFn)
  | _, .fnDefine name stmts, _ =>
      .fnDeclare name (.lexicalBody (.function · name.name) (stmts.trace true))
  | _, .noFns, _ => .skip
  | _, .fnThen generic fn rest, inFn =>
      (if generic then .skip else fn.trace inFn).seq (rest.trace inFn)
  | _, .simple parts, inFn => .byPass pass inFn .skip (parts.trace inFn)
  | _, .exprStmt e, inFn => e.trace inFn
  | _, .decl, _ => .skip
  | _, .loop body, inFn =>
      let t := Trace.lexicalBody .block (body.trace inFn)
      .byPass pass inFn t t
  | _, .whileStmt cond body, inFn =>
      let t := Trace.lexicalBody .block (body.trace inFn)
      .byPass pass inFn t ((cond.trace inFn).seq t)
  | _, .forStmt list body, inFn =>
      let t := Trace.lexicalBody .block (body.trace inFn)
      .lexicalBody .block (.byPass pass inFn t ((list.trace inFn).seq t))
  | _, .ifStmt conds bodies, inFn =>
      .byPass pass inFn (bodies.trace inFn) ((conds.trace inFn).seq (bodies.trace inFn))
  | _, .lexicalBody stmts, inFn => .lexicalBody .block (stmts.trace inFn)
  | _, .fnStmt generic fn, inFn => if generic then .skip else fn.trace inFn
  | _, .fnDefineImpl fns, inFn => fns.trace inFn
  | _, .noStmt, _ => .skip
  | _, .stmtThen first rest, inFn => (first.trace inFn).seq (rest.trace inFn)

/-- The functions that a pass declares. -/
def Program.declared (emitMain : Bool) (pass : Pass) (p : Program) : List Declared :=
  (p.trace pass emitMain [] 0).1

/-! ### A walk follows its trace -/

def Visit.mangledName? : Visit → Option String
  | .fn name => name
  | .body _ => none

/-- The names of the functions, as a pass lists them. -/
def Program.mangledNames (emitMain : Bool) (pass : Pass) (p : Program) : List String :=
  (p.pass emitMain pass).1.filterMap Visit.mangledName?

/-- The walk names what the trace declares. -/
def Walk.Follows (w : Walk) (t : Trace) : Prop := ∀ scopes count,
  (w scopes count).1.filterMap Visit.mangledName? = (t scopes count).1.map Declared.mangledName ∧
    (w scopes count).2 = (t scopes count).2

namespace Walk.Follows

variable {w w' : Walk} {t t' : Trace}

theorem skip {vs : List Visit} (h : vs.filterMap Visit.mangledName? = []) :
    (Walk.skip vs).Follows .skip := fun _ _ => ⟨h, rfl⟩

theorem seq (h : w.Follows t) (h' : w'.Follows t') : (w.seq w').Follows (t.seq t') := by
  intro scopes count
  obtain ⟨hn, hc⟩ := h scopes count
  obtain ⟨hn', hc'⟩ := h' scopes (w scopes count).2
  refine ⟨?_, by rw [Walk.seq, Trace.seq, hc', hc]⟩
  rw [Walk.seq, Trace.seq, List.filterMap_append, List.map_append, hn, hn', hc]

theorem lexicalBody (h : w.Follows t) (scope : Nat → LexicalScope) :
    (w.lexicalBody scope).Follows (t.lexicalBody scope) := fun _ _ =>
  ⟨(h _ _).1, (h _ _).2⟩

theorem fnDeclare (h : w.Follows t) (fn : FnName) : (w.fnDeclare fn).Follows (t.fnDeclare fn) :=
  fun _ _ => ⟨congrArg (_ :: ·) (h _ _).1, (h _ _).2⟩

theorem byPass {pass : Pass} {inFn : Bool} {vs : List Visit}
    (hvs : vs.filterMap Visit.mangledName? = []) (h : w.Follows t) (h' : w'.Follows t') :
    (Walk.byPass pass inFn vs w w').Follows (.byPass pass inFn t t') := by
  cases pass with
  | first => exact h
  | second =>
      cases inFn with
      | false => exact skip hvs
      | true => exact h'

end Walk.Follows

/-- What is not walked gets no name. -/
theorem Node.unwalked_names {c : Symbol} (t : Node c) :
    t.unwalked.filterMap Visit.mangledName? = [] := by
  induction t with
  | _ =>
      simp only [unwalked, List.filterMap_append, List.filterMap_cons, List.filterMap_nil,
        Visit.mangledName?, List.append_nil, *]

/-- **The walk of a node names what its trace declares.** -/
theorem Node.walk_follows (pass : Pass) {c : Symbol} (t : Node c) (inFn : Bool) :
    (t.walk pass inFn).Follows (t.trace pass inFn) := by
  have nil : (Walk.skip []).Follows .skip := .skip rfl
  have unwalked {c : Symbol} (t : Node c) : (Walk.skip t.unwalked).Follows .skip :=
    .skip t.unwalked_names
  have skipped {c : Symbol} (a : Node c) {vs : List Visit}
      (h : vs.filterMap Visit.mangledName? = []) :
      (a.unwalked ++ vs).filterMap Visit.mangledName? = [] := by
    rw [List.filterMap_append, a.unwalked_names, h, List.append_nil]
  have behind {c : Symbol} (a : Node c) {w : Walk} {t : Trace} (h : w.Follows t) :
      ((Walk.skip a.unwalked).seq w).Follows t := by
    intro scopes count
    obtain ⟨hn, hc⟩ := h scopes count
    refine ⟨?_, hc⟩
    rw [Walk.seq, List.filterMap_append, Walk.skip, a.unwalked_names]
    exact hn
  induction t generalizing inFn with
  | leaf | noConds | noBodies | noFns | decl | noStmt => exact nil
  | operands left right ihl ihr =>
      have hvs := skipped left right.unwalked_names
      exact .byPass hvs (.skip hvs) ((ihl inFn).seq (ihr inFn))
  | ife cond thens elses ihc iht ihe =>
      exact .byPass (skipped cond (skipped thens elses.unwalked_names))
        (behind cond ((iht inFn).seq (ihe inFn))) ((ihc inFn).seq ((iht inFn).seq (ihe inFn)))
  | value e ih => exact (ih inFn).lexicalBody _
  | stmtExpr stmts e ihs ihe =>
      have hvs := skipped stmts e.unwalked_names
      exact Walk.Follows.lexicalBody (.byPass hvs (.skip hvs) ((ihs inFn).seq (ihe inFn))) _
  | condThen cond rest ihc ihr => exact (ihc inFn).seq (ihr inFn)
  | bodyThen body rest ihb ihr => exact ((ihb inFn).lexicalBody _).seq (ihr inFn)
  | fnDefine name stmts ih => exact ((ih true).lexicalBody _).fnDeclare name
  | fnThen generic fn rest ihf ihr =>
      refine .seq ?_ (ihr inFn)
      cases generic with
      | false => exact ihf inFn
      | true => exact unwalked fn
  | simple parts ih => exact .byPass parts.unwalked_names (unwalked parts) (ih inFn)
  | exprStmt e ih => exact ih inFn
  | loop body ih =>
      exact .byPass body.unwalked_names ((ih inFn).lexicalBody _) ((ih inFn).lexicalBody _)
  | whileStmt cond body ihc ihb =>
      exact .byPass (skipped cond body.unwalked_names) (behind cond ((ihb inFn).lexicalBody _))
        ((ihc inFn).seq ((ihb inFn).lexicalBody _))
  | forStmt list body ihl ihb =>
      have hvs : (Visit.body none :: body.unwalked).filterMap Visit.mangledName? = [] :=
        body.unwalked_names
      exact Walk.Follows.lexicalBody (.byPass (skipped list hvs)
        (behind list ((ihb inFn).lexicalBody _)) ((ihl inFn).seq ((ihb inFn).lexicalBody _))) _
  | ifStmt conds bodies ihc ihb =>
      exact .byPass (skipped conds bodies.unwalked_names) (behind conds (ihb inFn))
        ((ihc inFn).seq (ihb inFn))
  | lexicalBody stmts ih => exact (ih inFn).lexicalBody _
  | fnStmt generic fn ih =>
      cases generic with
      | false => exact ih inFn
      | true => exact unwalked fn
  | fnDefineImpl fns ih => exact ih inFn
  | stmtThen first rest ihf ihr => exact (ihf inFn).seq (ihr inFn)

theorem Program.mangledNames_eq (emitMain : Bool) (pass : Pass) (p : Program) :
    p.mangledNames emitMain pass = (p.declared emitMain pass).map Declared.mangledName :=
  (p.walk_follows pass emitMain [] 0).1

/-! ### Programs without clashes -/

/-- The functions of a body whose name stands in mangled names: plain ones, and those that have
functions in them. -/
def Node.fnNames : {c : Symbol} → Node c → List String
  | _, .fnDefine name stmts =>
      if name.impl = none ∨ .fn none ∈ stmts.unwalked then [name.name] else []
  | _, .fnThen _ fn rest => fn.fnNames ++ rest.fnNames
  | _, .fnStmt _ fn => fn.fnNames
  | _, .fnDefineImpl fns => fns.fnNames
  | _, .stmtThen first rest => first.fnNames ++ rest.fnNames
  | _, _ => []

/-- No body in a node declares two functions of one name. -/
def Node.Distinct : {c : Symbol} → Node c → Prop
  | _, .leaf | _, .noConds | _, .noBodies | _, .noFns | _, .decl | _, .noStmt => True
  | _, .operands left right => left.Distinct ∧ right.Distinct
  | _, .ife cond thens elses => cond.Distinct ∧ thens.Distinct ∧ elses.Distinct
  | _, .value e => e.Distinct
  | _, .stmtExpr stmts e => stmts.fnNames.Nodup ∧ stmts.Distinct ∧ e.Distinct
  | _, .condThen cond rest => cond.Distinct ∧ rest.Distinct
  | _, .bodyThen body rest => body.fnNames.Nodup ∧ body.Distinct ∧ rest.Distinct
  | _, .fnDefine _ stmts => stmts.fnNames.Nodup ∧ stmts.Distinct
  | _, .fnThen _ fn rest => fn.Distinct ∧ rest.Distinct
  | _, .simple parts => parts.Distinct
  | _, .exprStmt e => e.Distinct
  | _, .loop body => body.fnNames.Nodup ∧ body.Distinct
  | _, .whileStmt cond body => cond.Distinct ∧ body.fnNames.Nodup ∧ body.Distinct
  | _, .forStmt list body => list.Distinct ∧ body.fnNames.Nodup ∧ body.Distinct
  | _, .ifStmt conds bodies => conds.Distinct ∧ bodies.Distinct
  | _, .lexicalBody stmts => stmts.fnNames.Nodup ∧ stmts.Distinct
  | _, .fnStmt _ fn => fn.Distinct
  | _, .fnDefineImpl fns => fns.Distinct
  | _, .stmtThen first rest => first.Distinct ∧ rest.Distinct

/-- Where below some scopes a function is declared: directly in them, in a block with a number
between `lo` and `hi`, or in a function. -/
def Declared.Below (lo hi : Nat) (names : List String) (d : Declared) :
    List LexicalScope → Prop
  | [] => d.isPlain → d.fn.name ∈ names
  | .block id :: _ => lo < id ∧ id ≤ hi
  | .function _ f :: _ => f ∈ names

/-- What a trace declares in some scopes: functions of the names, and functions below those and
below blocks that it numbers; no two plain ones have the same parts. -/
structure Spread (scopes : List LexicalScope) (lo hi : Nat) (names : List String)
    (ds : List Declared) : Prop where
  le : lo ≤ hi
  below : ∀ d ∈ ds, ∃ rest, d.scopes = scopes ++ rest ∧ d.Below lo hi names rest
  nodup : ((ds.filter Declared.isPlain).map Declared.parts).Nodup

def Trace.Spreads (t : Trace) (names : List String) : Prop := ∀ scopes count,
  Spread scopes count (t scopes count).2 names (t scopes count).1

theorem Declared.parts_plain {d : Declared} (h : d.isPlain) :
    d.parts = d.scopes.map LexicalScope.part ++ [.named .function d.fn.name] := by
  have hi : d.fn.impl = none := Option.isNone_iff_eq_none.mp h
  rw [parts, FnName.parts, hi]

/-- A function in the scopes has other parts than one below them. -/
theorem Declared.parts_ne_below {d d' : Declared} (h : d.isPlain) (h' : d'.isPlain)
    {scope : LexicalScope} {rest : List LexicalScope}
    (hs : d'.scopes = d.scopes ++ scope :: rest) : d.parts ≠ d'.parts := by
  intro heq
  have hlen := congrArg List.length heq
  rw [d.parts_plain h, d'.parts_plain h', hs] at hlen
  simp at hlen

/-- Blocks of other numbers and functions of other names keep apart what is below them. -/
theorem Declared.parts_ne {scopes : List LexicalScope} {lo mid hi : Nat}
    {names names' : List String} (hdisj : ∀ n ∈ names, n ∉ names') {d d' : Declared}
    {rest rest' : List LexicalScope} (h : d.isPlain) (h' : d'.isPlain)
    (hs : d.scopes = scopes ++ rest) (hs' : d'.scopes = scopes ++ rest')
    (hd : d.Below lo mid names rest) (hd' : d'.Below mid hi names' rest') : d.parts ≠ d'.parts := by
  intro heq
  rw [d.parts_plain h, d'.parts_plain h', hs, hs', List.map_append, List.map_append,
    List.append_assoc, List.append_assoc, List.append_right_inj] at heq
  cases rest with
  | nil =>
      cases rest' with
      | nil =>
          simp only [List.map_nil, List.nil_append, List.cons.injEq, Part.named.injEq, true_and,
            and_true] at heq
          have hmem := hd h
          rw [heq] at hmem
          exact hdisj _ hmem (hd' h')
      | cons scope' rest' => exact absurd (List.cons.inj heq).2.symm (by simp)
  | cons scope rest =>
      cases rest' with
      | nil => exact absurd (List.cons.inj heq).2 (by simp)
      | cons scope' rest' =>
          have hpart : scope.part = scope'.part := (List.cons.inj heq).1
          cases scope with
          | block id =>
              cases scope' with
              | block id' =>
                  obtain rfl : id = id' := Part.block.inj hpart
                  exact absurd hd'.1 (Nat.not_lt.mpr hd.2)
              | function id' f' => cases hpart
          | function id f =>
              cases scope' with
              | block id' => cases hpart
              | function id' f' =>
                  obtain rfl : f = f' := (Part.named.inj hpart).2
                  exact hdisj f hd hd'

/-! ### Traces without clashes -/

theorem Declared.Below.mono {lo lo' hi hi' : Nat} {names names' : List String} {d : Declared}
    {rest : List LexicalScope} (h : d.Below lo hi names rest) (hlo : lo' ≤ lo) (hhi : hi ≤ hi')
    (hn : names ⊆ names') : d.Below lo' hi' names' rest := by
  cases rest with
  | nil => exact fun hp => hn (h hp)
  | cons scope rest =>
      cases scope with
      | block id => exact ⟨Nat.lt_of_le_of_lt hlo h.1, Nat.le_trans h.2 hhi⟩
      | function id f => exact hn h

namespace Trace.Spreads

variable {t t' : Trace} {names names' : List String}

theorem skip (names : List String) : Trace.skip.Spreads names := fun _ count =>
  ⟨Nat.le_refl count, nofun, List.nodup_nil⟩

theorem seq (h : t.Spreads names) (h' : t'.Spreads names') (hdisj : ∀ n ∈ names, n ∉ names') :
    (t.seq t').Spreads (names ++ names') := by
  intro scopes count
  obtain ⟨hle, hbelow, hnodup⟩ := h scopes count
  obtain ⟨hle', hbelow', hnodup'⟩ := h' scopes (t scopes count).2
  refine ⟨Nat.le_trans hle hle', ?_, ?_⟩
  · intro d hd
    rcases List.mem_append.mp hd with hd | hd
    · obtain ⟨rest, hs, hb⟩ := hbelow d hd
      exact ⟨rest, hs, hb.mono (Nat.le_refl _) hle' (List.subset_append_left _ _)⟩
    · obtain ⟨rest, hs, hb⟩ := hbelow' d hd
      exact ⟨rest, hs, hb.mono hle (Nat.le_refl _) (List.subset_append_right _ _)⟩
  · rw [Trace.seq, List.filter_append, List.map_append]
    refine List.nodup_append.mpr ⟨hnodup, hnodup', ?_⟩
    rintro _ hp _ hp' rfl
    obtain ⟨d, hd, hparts⟩ := List.mem_map.mp hp
    obtain ⟨d', hd', hparts'⟩ := List.mem_map.mp hp'
    obtain ⟨hd, hplain⟩ := List.mem_filter.mp hd
    obtain ⟨hd', hplain'⟩ := List.mem_filter.mp hd'
    obtain ⟨rest, hs, hb⟩ := hbelow d hd
    obtain ⟨rest', hs', hb'⟩ := hbelow' d' hd'
    exact Declared.parts_ne hdisj hplain hplain' hs hs' hb hb' (hparts.trans hparts'.symm)

theorem seq_nil (h : t.Spreads []) (h' : t'.Spreads []) : (t.seq t').Spreads [] := h.seq h' nofun

/-- What is declared in a block is below its number. -/
theorem block (h : t.Spreads names) : (t.lexicalBody .block).Spreads [] := by
  intro scopes count
  obtain ⟨hle, hbelow, hnodup⟩ := h (scopes ++ [.block (count + 1)]) (count + 1)
  refine ⟨Nat.le_trans (Nat.le_succ count) hle, ?_, hnodup⟩
  intro d hd
  obtain ⟨rest, hs, -⟩ := hbelow d hd
  exact ⟨.block (count + 1) :: rest, by rw [hs, List.append_assoc]; rfl, Nat.lt_succ_self count,
    hle⟩

/-- What is declared in a function is below its name. -/
theorem fnDeclare {fn : FnName} {ns : List String} (h : t.Spreads names)
    (hplain : fn.impl = none → fn.name ∈ ns)
    (hinner : ∀ scopes count, (t scopes count).1 ≠ [] → fn.name ∈ ns) :
    (Trace.fnDeclare fn (t.lexicalBody (.function · fn.name))).Spreads ns := by
  intro scopes count
  obtain ⟨hle, hbelow, hnodup⟩ := h (scopes ++ [.function (count + 1) fn.name]) (count + 1)
  have hin : ∀ d ∈ (t (scopes ++ [.function (count + 1) fn.name]) (count + 1)).1,
      ∃ rest, d.scopes = scopes ++ .function (count + 1) fn.name :: rest := by
    intro d hd
    obtain ⟨rest, hs, -⟩ := hbelow d hd
    exact ⟨rest, by rw [hs, List.append_assoc]; rfl⟩
  refine ⟨Nat.le_trans (Nat.le_succ count) hle, ?_, ?_⟩
  · intro d hd
    rcases List.mem_cons.mp hd with rfl | hd
    · exact ⟨[], (List.append_nil _).symm, fun hp => hplain (Option.isNone_iff_eq_none.mp hp)⟩
    · obtain ⟨rest, hs⟩ := hin d hd
      exact ⟨_, hs, hinner _ _ (List.ne_nil_of_mem hd)⟩
  · cases hp : Declared.isPlain ⟨scopes, fn⟩ with
    | false =>
        rw [Trace.fnDeclare, List.filter_cons_of_neg (by simp [hp])]
        exact hnodup
    | true =>
        rw [Trace.fnDeclare, List.filter_cons_of_pos hp, List.map_cons]
        refine List.nodup_cons.mpr ⟨?_, hnodup⟩
        intro hmem
        obtain ⟨d, hd, hparts⟩ := List.mem_map.mp hmem
        obtain ⟨hd, hplain'⟩ := List.mem_filter.mp hd
        obtain ⟨rest, hs⟩ := hin d hd
        exact Declared.parts_ne_below hp hplain' hs hparts.symm

theorem byPass {pass : Pass} {inFn : Bool} (h : t.Spreads names) (h' : t'.Spreads names) :
    (Trace.byPass pass inFn t t').Spreads names := by
  cases pass with
  | first => exact h
  | second =>
      cases inFn with
      | false => exact skip names
      | true => exact h'

end Trace.Spreads

/-- A trace that declares nothing. -/
def Trace.Silent (t : Trace) : Prop := ∀ scopes count, (t scopes count).1 = []

namespace Trace.Silent

variable {t t' : Trace}

theorem skip : Trace.skip.Silent := fun _ _ => rfl

theorem seq (h : t.Silent) (h' : t'.Silent) : (t.seq t').Silent := by
  intro scopes count
  rw [Trace.seq, h, h', List.append_nil]

theorem lexicalBody (h : t.Silent) (scope : Nat → LexicalScope) :
    (t.lexicalBody scope).Silent := fun _ _ => h _ _

theorem byPass {pass : Pass} {inFn : Bool} (h : t.Silent) (h' : t'.Silent) :
    (Trace.byPass pass inFn t t').Silent := by
  cases pass with
  | first => exact h
  | second =>
      cases inFn with
      | false => exact skip
      | true => exact h'

end Trace.Silent

/-- Nothing is declared where there is no function. -/
theorem Node.trace_silent (pass : Pass) {c : Symbol} (t : Node c) (inFn : Bool)
    (h : .fn none ∉ t.unwalked) : (t.trace pass inFn).Silent := by
  have apart {vs vs' : List Visit} (h : .fn none ∉ vs ++ vs') :
      .fn none ∉ vs ∧ .fn none ∉ vs' := not_or.mp (mt List.mem_append.mpr h)
  induction t generalizing inFn with
  | leaf | noConds | noBodies | noFns | decl | noStmt => exact .skip
  | operands left right ihl ihr =>
      obtain ⟨hl, hr⟩ := apart h
      exact .byPass .skip ((ihl inFn hl).seq (ihr inFn hr))
  | ife cond thens elses ihc iht ihe =>
      obtain ⟨hc, hrest⟩ := apart h
      obtain ⟨ht, he⟩ := apart hrest
      have hblocks := (iht inFn ht).seq (ihe inFn he)
      exact .byPass hblocks ((ihc inFn hc).seq hblocks)
  | value e ih => exact (ih inFn (List.not_mem_of_not_mem_cons h)).lexicalBody _
  | stmtExpr stmts e ihs ihe =>
      obtain ⟨hs, he⟩ := apart (List.not_mem_of_not_mem_cons h)
      exact Trace.Silent.lexicalBody (.byPass .skip ((ihs inFn hs).seq (ihe inFn he))) _
  | condThen cond rest ihc ihr =>
      obtain ⟨hc, hr⟩ := apart h
      exact (ihc inFn hc).seq (ihr inFn hr)
  | bodyThen body rest ihb ihr =>
      obtain ⟨hb, hr⟩ := apart h
      exact ((ihb inFn (List.not_mem_of_not_mem_cons hb)).lexicalBody _).seq (ihr inFn hr)
  | fnDefine name stmts ih => exact absurd List.mem_cons_self h
  | fnThen generic fn rest ihf ihr =>
      obtain ⟨hf, hr⟩ := apart h
      refine .seq ?_ (ihr inFn hr)
      cases generic with
      | false => exact ihf inFn hf
      | true => exact .skip
  | simple parts ih => exact .byPass .skip (ih inFn h)
  | exprStmt e ih => exact ih inFn h
  | loop body ih =>
      have hbody := (ih inFn (List.not_mem_of_not_mem_cons h)).lexicalBody .block
      exact .byPass hbody hbody
  | whileStmt cond body ihc ihb =>
      obtain ⟨hc, hb⟩ := apart h
      have hbody := (ihb inFn (List.not_mem_of_not_mem_cons hb)).lexicalBody .block
      exact .byPass hbody ((ihc inFn hc).seq hbody)
  | forStmt list body ihl ihb =>
      obtain ⟨hl, hb⟩ := apart (List.not_mem_of_not_mem_cons h)
      have hbody := (ihb inFn (List.not_mem_of_not_mem_cons hb)).lexicalBody .block
      exact Trace.Silent.lexicalBody (.byPass hbody ((ihl inFn hl).seq hbody)) _
  | ifStmt conds bodies ihc ihb =>
      obtain ⟨hc, hb⟩ := apart h
      exact .byPass (ihb inFn hb) ((ihc inFn hc).seq (ihb inFn hb))
  | lexicalBody stmts ih => exact (ih inFn (List.not_mem_of_not_mem_cons h)).lexicalBody _
  | fnStmt generic fn ih =>
      cases generic with
      | false => exact ih inFn h
      | true => exact .skip
  | fnDefineImpl fns ih => exact ih inFn h
  | stmtThen first rest ihf ihr =>
      obtain ⟨hf, hr⟩ := apart h
      exact (ihf inFn hf).seq (ihr inFn hr)

/-- **What a node declares is kept apart by the numbers of the blocks and the names of the
functions.** -/
theorem Node.trace_spreads (pass : Pass) {c : Symbol} (t : Node c) (inFn : Bool)
    (hd : t.Distinct) (hn : t.fnNames.Nodup) : (t.trace pass inFn).Spreads t.fnNames := by
  have disj {c d : Symbol} {a : Node c} {b : Node d} (h : (a.fnNames ++ b.fnNames).Nodup) :
      ∀ n ∈ a.fnNames, n ∉ b.fnNames := fun n ha hb =>
    (List.nodup_append.mp h).2.2 n ha n hb rfl
  have expr (e : Node .expr) : e.fnNames = [] := by cases e <;> rfl
  have exprBlock (b : Node .exprBlock) : b.fnNames = [] := by cases b <;> rfl
  have conds (cs : Node .conds) : cs.fnNames = [] := by cases cs <;> rfl
  have bodies (bs : Node .bodies) : bs.fnNames = [] := by cases bs <;> rfl
  -- an expression declares nothing but in its blocks
  have inner {c : Symbol} {a : Node c} {t : Trace} (ha : a.fnNames = [])
      (ih : a.fnNames.Nodup → t.Spreads a.fnNames) : t.Spreads [] := by
    rw [ha] at ih
    exact ih List.nodup_nil
  induction t generalizing inFn with
  | leaf | noConds | noBodies | noFns | decl | noStmt => exact .skip _
  | operands left right ihl ihr =>
      exact .byPass (.skip _) ((inner (expr left) (ihl inFn hd.1)).seq_nil
        (inner (expr right) (ihr inFn hd.2)))
  | ife cond thens elses ihc iht ihe =>
      have hblocks := (inner (exprBlock thens) (iht inFn hd.2.1)).seq_nil
        (inner (exprBlock elses) (ihe inFn hd.2.2))
      exact .byPass hblocks ((inner (expr cond) (ihc inFn hd.1)).seq_nil hblocks)
  | value e ih => exact (inner (expr e) (ih inFn hd)).block
  | stmtExpr stmts e ihs ihe =>
      have hstmts := ihs inFn hd.2.1 hd.1
      have he := inner (expr e) (ihe inFn hd.2.2)
      exact Trace.Spreads.block (.byPass (.skip (stmts.fnNames ++ [])) (hstmts.seq he (by simp)))
  | condThen cond rest ihc ihr =>
      exact (inner (expr cond) (ihc inFn hd.1)).seq_nil (inner (conds rest) (ihr inFn hd.2))
  | bodyThen body rest ihb ihr =>
      exact (ihb inFn hd.2.1 hd.1).block.seq_nil (inner (bodies rest) (ihr inFn hd.2.2))
  | fnDefine name stmts ih =>
      refine (ih true hd.2 hd.1).fnDeclare ?_ ?_
      · intro hi
        rw [fnNames, if_pos (.inl hi)]
        exact List.mem_singleton_self _
      · intro scopes count hne
        have hfn : .fn none ∈ stmts.unwalked := by
          by_contra hno
          exact hne (stmts.trace_silent pass true hno scopes count)
        rw [fnNames, if_pos (.inr hfn)]
        exact List.mem_singleton_self _
  | fnThen generic fn rest ihf ihr =>
      obtain ⟨hfn, hrest, -⟩ := List.nodup_append.mp hn
      refine Trace.Spreads.seq ?_ (ihr inFn hd.2 hrest) (disj hn)
      cases generic with
      | false => exact ihf inFn hd.1 hfn
      | true => exact .skip _
  | simple parts ih => exact .byPass (.skip _) (inner (expr parts) (ih inFn hd))
  | exprStmt e ih => exact inner (expr e) (ih inFn hd)
  | loop body ih =>
      have hbody := (ih inFn hd.2 hd.1).block
      exact .byPass hbody hbody
  | whileStmt cond body ihc ihb =>
      have hbody := (ihb inFn hd.2.2 hd.2.1).block
      exact .byPass hbody ((inner (expr cond) (ihc inFn hd.1)).seq_nil hbody)
  | forStmt list body ihl ihb =>
      have hbody := (ihb inFn hd.2.2 hd.2.1).block
      exact Trace.Spreads.block
        (.byPass hbody ((inner (expr list) (ihl inFn hd.1)).seq_nil hbody))
  | ifStmt cs bs ihc ihb =>
      have hbodies := inner (bodies bs) (ihb inFn hd.2)
      exact .byPass hbodies ((inner (conds cs) (ihc inFn hd.1)).seq_nil hbodies)
  | lexicalBody stmts ih => exact (ih inFn hd.2 hd.1).block
  | fnStmt generic fn ih =>
      cases generic with
      | false => exact ih inFn hd hn
      | true => exact .skip _
  | fnDefineImpl fns ih => exact ih inFn hd hn
  | stmtThen first rest ihf ihr =>
      obtain ⟨hfirst, hrest, -⟩ := List.nodup_append.mp hn
      exact (ihf inFn hd.1 hfirst).seq (ihr inFn hd.2 hrest) (disj hn)

/-! ### Names -/

/-- No body of the program declares two functions of one name, and no two methods have the same
trait, type and name. -/
structure Program.NoClash (emitMain : Bool) (pass : Pass) (p : Program) : Prop where
  named : ∀ d ∈ p.declared emitMain pass, NamedFn d.scopes d.fn
  names : p.fnNames.Nodup
  bodies : p.Distinct
  methods : (((p.declared emitMain pass).filter (!·.isPlain)).map Declared.parts).Nodup

/-- A method is told by its type. -/
theorem Declared.parts_ne_method {d d' : Declared} (h : d.isPlain) (h' : d'.isPlain = false) :
    d.parts ≠ d'.parts := by
  intro heq
  have hi : d'.fn.impl ≠ none := fun hn => by simp [isPlain, hn] at h'
  obtain ⟨impl, hi⟩ := Option.ne_none_iff_exists'.mp hi
  have hmem : Part.named .struct impl.structName ∈ d'.parts := by
    rw [parts, FnName.parts, hi]
    simp
  rw [← heq, d.parts_plain h] at hmem
  simp only [List.mem_append, List.mem_map, List.mem_singleton] at hmem
  rcases hmem with ⟨scope, -, hs⟩ | hs
  · cases scope <;> cases hs
  · cases hs

/-- Lists that are apart in both halves are apart. -/
theorem nodup_map_of_filter {α β : Type} {f : α → β} {p : α → Bool} {xs : List α}
    (hp : ((xs.filter p).map f).Nodup) (hn : ((xs.filter (!p ·)).map f).Nodup)
    (hne : ∀ a b, p a = true → p b = false → f a ≠ f b) : (xs.map f).Nodup := by
  induction xs with
  | nil => exact List.nodup_nil
  | cons x xs ih =>
      cases hx : p x with
      | true =>
          rw [List.filter_cons_of_pos hx, List.map_cons] at hp
          rw [List.filter_cons_of_neg (by simp [hx])] at hn
          obtain ⟨hmem, hp⟩ := List.nodup_cons.mp hp
          refine List.nodup_cons.mpr ⟨?_, ih hp hn⟩
          intro h
          obtain ⟨y, hy, hf⟩ := List.mem_map.mp h
          cases hpy : p y with
          | true => exact hmem (List.mem_map.mpr ⟨y, List.mem_filter.mpr ⟨hy, hpy⟩, hf⟩)
          | false => exact hne x y hx hpy hf.symm
      | false =>
          rw [List.filter_cons_of_pos (by simp [hx]), List.map_cons] at hn
          rw [List.filter_cons_of_neg (by simp [hx])] at hp
          obtain ⟨hmem, hn⟩ := List.nodup_cons.mp hn
          refine List.nodup_cons.mpr ⟨?_, ih hp hn⟩
          intro h
          obtain ⟨y, hy, hf⟩ := List.mem_map.mp h
          cases hpy : p y with
          | true => exact hne y x hpy hx hf
          | false => exact hmem (List.mem_map.mpr ⟨y, List.mem_filter.mpr ⟨hy, by simp [hpy]⟩, hf⟩)

/-- **No two functions of a walk get the same name.** -/
theorem Program.mangledNames_nodup {emitMain : Bool} {pass : Pass} {p : Program}
    (h : p.NoClash emitMain pass) : (p.mangledNames emitMain pass).Nodup := by
  have hplain := (p.trace_spreads pass emitMain h.bodies h.names [] 0).nodup
  have hparts : ((p.declared emitMain pass).map Declared.parts).Nodup :=
    nodup_map_of_filter hplain h.methods fun _ _ => Declared.parts_ne_method
  rw [p.mangledNames_eq]
  refine List.Nodup.map_on ?_ (List.Nodup.of_map _ hparts)
  intro d hd d' hd' heq
  refine List.inj_on_of_nodup_map hparts hd hd' ?_
  exact parts_eq_of_manglingFunctionName (h.named d hd) (h.named d' hd') heq

/-- A function `f` outside and one in each of two blocks, the first of which has a method too. -/
def threeBlocks : Program :=
  let f : Node .fn := .fnDefine ⟨"f", none⟩ .noStmt
  let m : Node .fn := .fnDefine ⟨"T::f", some ⟨1, none, "T", "f"⟩⟩ .noStmt
  .stmtThen (.fnStmt false f) (.stmtThen
    (.lexicalBody (.stmtThen (.fnStmt false f)
      (.stmtThen (.fnDefineImpl (.fnThen false m .noFns)) .noStmt)))
    (.stmtThen (.lexicalBody (.stmtThen (.fnStmt false f) .noStmt)) .noStmt))

theorem threeBlocks_nodup : (threeBlocks.mangledNames true .second).Nodup := by
  have hf : IsName "f" := isName_of_toList (c := 'f') (l := []) (by simp) (by decide) (by decide)
  have ht : IsName "T" := isName_of_toList (c := 'T') (l := []) (by simp) (by decide) (by decide)
  have hm : IsName "T::f" :=
    isName_of_toList (c := 'T') (l := "::f".toList) (by simp) (by decide) (by simp)
  have hds : threeBlocks.declared true .second = [⟨[], ⟨"f", none⟩⟩, ⟨[.block 2], ⟨"f", none⟩⟩,
      ⟨[.block 2], ⟨"T::f", some ⟨1, none, "T", "f"⟩⟩⟩, ⟨[.block 5], ⟨"f", none⟩⟩] := rfl
  refine Program.mangledNames_nodup ⟨?_, by simp [threeBlocks, Node.fnNames],
    by simp [threeBlocks, Node.Distinct, Node.fnNames, Node.unwalked], ?_⟩
  · intro d hd
    rw [hds] at hd
    simp only [List.mem_cons, List.not_mem_nil, or_false] at hd
    rcases hd with rfl | rfl | rfl | rfl
    · exact ⟨hf, by simp, nofun⟩
    · exact ⟨hf, by simp, nofun⟩
    · refine ⟨hm, by simp, ?_⟩
      rintro impl ⟨⟩
      exact ⟨ht, hf, nofun⟩
    · exact ⟨hf, by simp, nofun⟩
  · rw [hds]
    exact List.nodup_singleton _

end CaLang.Lexical

import CaLang.Types.Reading
import Mathlib.Logic.Relation

/-! # The names an unwinding visits

An unwinding meets the names of the looked up expression, and of the declarations it expands, each
in a table and a context. **It yields a datatype exactly when none of the visited names stops it**
and every array of the visited texts has a length that can be read, but for the room that the
signature needs.

- `TypeExpr.mentions`, `STEntry.mentions`: the names in a text, and whether they stand behind a
  pointer in it;
- `Visit`, `VisitStep`: a visited name, and the visits inside the declaration it expands to;
- `unwindTypeName_isSome`, `unwindTree_isSome`: success in terms of the visits.
-/

namespace CaLang.Types

mutual
/-- The names in an expression, each with whether it stands behind a pointer; `ptr` says so of the
expression itself. -/
def TypeExpr.mentions (ptr : Bool) : TypeExpr → List (Name × Bool)
  | .ident n => [(n, ptr)]
  | .pointer t => t.mentions true
  | .array e _ => e.mentions ptr
  | .struct _ fs => fs.mentions ptr

def TypeFields.mentions (ptr : Bool) : TypeFields → List (Name × Bool)
  | .nil => []
  | .cons _ t rest => t.mentions ptr ++ rest.mentions ptr
end

mutual
/-- Every array length can be read back. -/
def TypeExpr.lensOk : TypeExpr → Bool
  | .ident _ => true
  | .pointer t => t.lensOk
  | .array e n => isLength n && e.lensOk
  | .struct _ fs => fs.lensOk

def TypeFields.lensOk : TypeFields → Bool
  | .nil => true
  | .cons _ t rest => t.lensOk && rest.lensOk
end

/-- The names in a declaration. -/
def TypeBody.mentions : TypeBody → List (Name × Bool)
  | .alias id => id.mentions false
  | .struct _ members => members.mentions false

def TypeBody.lensOk : TypeBody → Bool
  | .alias id => id.lensOk
  | .struct _ members => members.lensOk

/-- The context of a name behind a pointer or not. -/
def UnwindCtx.at (c : UnwindCtx) (ptr : Bool) : UnwindCtx := if ptr then c.fresh else c

@[simp] theorem UnwindCtx.at_false (c : UnwindCtx) : c.at false = c := rfl

@[simp] theorem UnwindCtx.at_prenamemap (c : UnwindCtx) (ptr : Bool) :
    (c.at ptr).prenamemap = c.prenamemap := by
  cases ptr <;> rfl

theorem UnwindCtx.at_fresh (c : UnwindCtx) (ptr : Bool) : (c.at ptr).fresh = c.at true := by
  cases ptr <;> rfl

theorem room_at {tabs : SymTables} (c : UnwindCtx) (ptr : Bool) :
    room tabs (c.at ptr) = room tabs c := by
  cases ptr <;> rfl

/-! ### Success of an expression -/

theorem TypeFields.namesFit_of_isSource (fs : TypeFields) (h : fs.isSource false = true) :
    fs.namesFit = true := by
  match fs with
  | .nil => rfl
  | .cons none t rest =>
      simp only [TypeFields.isSource, Bool.and_eq_true] at h
      exact rest.namesFit_of_isSource h.2
  | .cons (some n) t rest => cases h

/-- The formers write no names into a struct text. -/
theorem TypeExpr.unwind_unnamed {h : NameHandler} {st : Scope} {hd : StructHead Name}
    {fs : TypeFields} {c : UnwindCtx} (ht : (TypeExpr.struct hd fs).isSource = true)
    (hhd : hd = .generalTuple ∨ hd = .slice) :
    (TypeExpr.struct hd fs).unwind h st c =
      (fs.unwind h st c).map (.struct (hd.map (StructId.mk none))) := by
  rcases hhd with rfl | rfl
  · rw [TypeExpr.unwind, fs.namesFit_of_isSource ht]
    rfl
  · rw [TypeExpr.unwind, fs.namesFit_of_isSource ht]
    rfl

mutual
theorem TypeExpr.unwind_isSome {h : NameHandler} {st : Scope} (t : TypeExpr)
    (ht : t.isSource = true) (c : UnwindCtx) (ptr : Bool) :
    (t.unwind h st (c.at ptr)).isSome ↔
      t.lensOk = true ∧ ∀ m ∈ t.mentions ptr, (h st (c.at m.2) m.1).isSome := by
  cases t with
  | ident n => simp [TypeExpr.unwind, TypeExpr.lensOk, TypeExpr.mentions]
  | pointer t =>
      rw [TypeExpr.unwind, Option.isSome_map, UnwindCtx.at_fresh, t.unwind_isSome ht c true]
      rfl
  | array e n =>
      rw [TypeExpr.unwind, TypeExpr.lensOk, TypeExpr.mentions]
      have he : (e.unwind h st (c.at ptr)).isSome ↔ _ := e.unwind_isSome ht c ptr
      by_cases hn : isLength n = true
      · rw [if_pos hn, Option.isSome_map, he]
        simp [hn]
      · simp [hn]
  | struct hd fs =>
      cases hd with
      | namedStruct n => cases ht
      | namedTuple n => cases ht
      | generalTuple =>
          rw [TypeExpr.unwind_unnamed ht (.inl rfl), Option.isSome_map]
          exact fs.unwind_isSome ht c ptr
      | slice =>
          rw [TypeExpr.unwind_unnamed ht (.inr rfl), Option.isSome_map]
          exact fs.unwind_isSome ht c ptr

theorem TypeFields.unwind_isSome {h : NameHandler} {st : Scope} (fs : TypeFields) {named : Bool}
    (hf : fs.isSource named = true) (c : UnwindCtx) (ptr : Bool) :
    (fs.unwind h st (c.at ptr)).isSome ↔
      fs.lensOk = true ∧ ∀ m ∈ fs.mentions ptr, (h st (c.at m.2) m.1).isSome := by
  cases fs with
  | nil => simp [TypeFields.unwind, TypeFields.lensOk, TypeFields.mentions]
  | cons n t rest =>
      simp only [TypeFields.isSource, Bool.and_eq_true] at hf
      have h₁ : (t.unwind h st (c.at ptr)).isSome ↔ _ := t.unwind_isSome hf.1.2 c ptr
      have h₂ : (rest.unwind h st (c.at ptr)).isSome ↔ _ := rest.unwind_isSome hf.2 c ptr
      have hboth : ((TypeFields.cons n t rest).unwind h st (c.at ptr)).isSome ↔
          (t.unwind h st (c.at ptr)).isSome ∧ (rest.unwind h st (c.at ptr)).isSome := by
        rw [TypeFields.unwind]
        cases t.unwind h st (c.at ptr) <;> cases rest.unwind h st (c.at ptr) <;> simp
      rw [hboth, h₁, h₂]
      simp only [TypeFields.lensOk, TypeFields.mentions, Bool.and_eq_true, List.mem_append]
      constructor
      · rintro ⟨⟨hl₁, hm₁⟩, hl₂, hm₂⟩
        exact ⟨⟨hl₁, hl₂⟩, fun m hm => hm.elim (hm₁ m) (hm₂ m)⟩
      · rintro ⟨⟨hl₁, hl₂⟩, hm⟩
        exact ⟨⟨hl₁, fun m h => hm m (.inl h)⟩, hl₂, fun m h => hm m (.inr h)⟩
end

/-! ### Visits -/

section Visits

variable {tabs : SymTables}

theorem STEntry.isSource_body {e : STEntry} (he : e ∈ tabs.entries) : e.body.isSource = true := by
  have hdecl := tabs.declared e he
  simp only [STEntry.isDeclared, Bool.and_eq_true] at hdecl
  exact hdecl.2

theorem STEntry.unwind_isSome {h : NameHandler} {e : STEntry} (he : e ∈ tabs.entries)
    (c : UnwindCtx) :
    (e.unwind h c).isSome ↔ e.body.lensOk = true ∧
      ∀ m ∈ e.body.mentions, (h e.idtable ((e.ctx c).at m.2) m.1).isSome := by
  have hs := STEntry.isSource_body he
  unfold STEntry.unwind
  cases hb : e.body with
  | «alias» id =>
      rw [hb] at hs
      exact id.unwind_isSome hs (e.ctx c) false
  | struct tuple members =>
      rw [hb] at hs
      simp only [Option.isSome_map]
      exact members.unwind_isSome hs (e.ctx c) false

/-- A name met in a table and a context. -/
structure Visit where
  table : Scope
  ctx : UnwindCtx
  name : Name

/-- The name of `v'` stands in the declaration that the name of `v` expands to. -/
def VisitStep (tabs : SymTables) (v v' : Visit) : Prop :=
  ∃ e m, nameVerdict tabs v.table v.ctx v.name = .expand e ∧ m ∈ e.body.mentions ∧
    v' = ⟨e.idtable, (e.ctx v.ctx).at m.2, m.1⟩

/-- The visited name does not end the compiler, and what it expands to has array lengths that can
be read. -/
def Visit.Passes (tabs : SymTables) (v : Visit) : Prop :=
  nameVerdict tabs v.table v.ctx v.name ≠ .stop ∧
    ∀ e, nameVerdict tabs v.table v.ctx v.name = .expand e → e.body.lensOk = true

theorem VisitStep.room_lt {v v' : Visit} (h : VisitStep tabs v v') :
    room tabs v'.ctx < room tabs v.ctx := by
  obtain ⟨e, m, hv, -, rfl⟩ := h
  rw [room_at]
  exact room_ctx_lt hv

/-- **A name has a datatype when every visit from it passes.** -/
theorem unwindTypeName_isSome (v : Visit) :
    (unwindTypeName tabs v.table v.ctx v.name).isSome ↔
      ∀ v', Relation.ReflTransGen (VisitStep tabs) v v' → v'.Passes tabs := by
  induction hk : room tabs v.ctx using Nat.strong_induction_on generalizing v with
  | _ k ih =>
      have hnext : (∀ v', Relation.ReflTransGen (VisitStep tabs) v v' → v'.Passes tabs) ↔
          v.Passes tabs ∧ ∀ v₁, VisitStep tabs v v₁ →
            ∀ v', Relation.ReflTransGen (VisitStep tabs) v₁ v' → v'.Passes tabs := by
        constructor
        · intro h
          exact ⟨h v .refl, fun v₁ h₁ v' h' => h v' (.head h₁ h')⟩
        · rintro ⟨h₀, h₁⟩ v' h'
          rcases h'.cases_head with rfl | ⟨v₁, hs, hr⟩
          · exact h₀
          · exact h₁ v₁ hs v' hr
      rw [hnext, unwindTypeName_eq]
      cases hv : nameVerdict tabs v.table v.ctx v.name with
      | stop => simp [Visit.Passes, hv]
      | prim p =>
          simp only [Visit.Passes, VisitStep, hv]
          simp
      | back id =>
          simp only [Visit.Passes, VisitStep, hv]
          simp
      | expand e =>
          have hstep : ∀ m ∈ e.body.mentions,
              VisitStep tabs v ⟨e.idtable, (e.ctx v.ctx).at m.2, m.1⟩ :=
            fun m hm => ⟨e, m, hv, hm, rfl⟩
          simp only [STEntry.unwind_isSome (nameVerdict_expand_mem hv)]
          constructor
          · rintro ⟨hlen, hm⟩
            refine ⟨⟨by simp [hv], ?_⟩, ?_⟩
            · intro e' he'
              rw [hv] at he'
              cases he'
              exact hlen
            · rintro v₁ ⟨e', m, he', hmem, rfl⟩
              rw [hv] at he'
              cases he'
              have hlt := (hstep m hmem).room_lt
              exact (ih _ (hk ▸ hlt) ⟨e.idtable, (e.ctx v.ctx).at m.2, m.1⟩ rfl).mp (hm m hmem)
          · rintro ⟨hpass, hall⟩
            refine ⟨hpass.2 e hv, ?_⟩
            intro m hmem
            have hlt := (hstep m hmem).room_lt
            exact (ih _ (hk ▸ hlt) ⟨e.idtable, (e.ctx v.ctx).at m.2, m.1⟩ rfl).mpr
              (hall _ (hstep m hmem))

/-- The visits of the lookup of an expression. -/
def Visited (tabs : SymTables) (st : Scope) (t : TypeExpr) (v : Visit) : Prop :=
  ∃ m ∈ t.mentions false,
    Relation.ReflTransGen (VisitStep tabs) ⟨st, UnwindCtx.empty.at m.2, m.1⟩ v

/-- **A lookup yields a datatype when every visit passes**, but for the room of its signature. -/
theorem unwindTree_isSome {st : Scope} {t : TypeExpr} (ht : t.isSource = true) :
    (unwindTree tabs st t).isSome ↔
      t.lensOk = true ∧ ∀ v, Visited tabs st t v → v.Passes tabs := by
  have h : (t.unwind (unwindTypeName tabs) st (UnwindCtx.empty.at false)).isSome ↔ _ :=
    t.unwind_isSome ht .empty false
  rw [UnwindCtx.at_false] at h
  rw [unwindTree, h]
  refine and_congr_right fun _ => ⟨?_, ?_⟩
  · rintro hm v ⟨m, hmem, hr⟩
    exact (unwindTypeName_isSome ⟨st, UnwindCtx.empty.at m.2, m.1⟩).mp (hm m hmem) v hr
  · intro hv m hmem
    exact (unwindTypeName_isSome ⟨st, UnwindCtx.empty.at m.2, m.1⟩).mpr fun v hr =>
      hv v ⟨m, hmem, hr⟩

/-- The name `n`, met in the table `st`, stands for the declaration `e`. -/
def Resolves (tabs : SymTables) (st : Scope) (n : Name) (e : STEntry) : Prop :=
  catypeGetPrimitiveByName n = none ∧ tabs.symGettypesymByName st n = some e

variable {st : Scope} {e : STEntry}

theorem Resolves.of_expand {n : Name} {c : UnwindCtx} (h : nameVerdict tabs st c n = .expand e) :
    Resolves tabs st n e :=
  ⟨(nameVerdict_eq_expand.mp h).2.1, (nameVerdict_eq_expand.mp h).2.2.1⟩

theorem Resolves.name_eq {n : Name} (h : Resolves tabs st n e) : e.name = n :=
  (SymTables.symGettypesymByName_mem h.2).2

theorem Resolves.mem {n : Name} (h : Resolves tabs st n e) : e ∈ tabs.entries :=
  (SymTables.symGettypesymByName_mem h.2).1

/-! ### Trails -/

/-- A visit with the declarations that stand open around it, the innermost first. -/
inductive Trail (tabs : SymTables) (st : Scope) (t : TypeExpr) : List STEntry → Visit → Prop
  | start {m : Name × Bool} (hm : m ∈ t.mentions false) :
      Trail tabs st t [] ⟨st, UnwindCtx.empty.at m.2, m.1⟩
  | step {l : List STEntry} {v : Visit} {e : STEntry} {m : Name × Bool} (h : Trail tabs st t l v)
      (he : nameVerdict tabs v.table v.ctx v.name = .expand e) (hm : m ∈ e.body.mentions) :
      Trail tabs st t (e :: l) ⟨e.idtable, (e.ctx v.ctx).at m.2, m.1⟩

theorem visited_iff_trail {t : TypeExpr} {v : Visit} :
    Visited tabs st t v ↔ ∃ l, Trail tabs st t l v := by
  constructor
  · rintro ⟨m, hm, hr⟩
    induction hr with
    | refl => exact ⟨[], .start hm⟩
    | tail _ hs ih =>
        obtain ⟨l, hl⟩ := ih
        obtain ⟨e, m', he, hm', rfl⟩ := hs
        exact ⟨e :: l, hl.step he hm'⟩
  · rintro ⟨l, hl⟩
    induction hl with
    | start hm => exact ⟨_, hm, .refl⟩
    | step _ he hm ih =>
        obtain ⟨m', hm', hr⟩ := ih
        exact ⟨m', hm', hr.tail ⟨_, _, he, hm, rfl⟩⟩

variable {t : TypeExpr} {l : List STEntry} {v : Visit}

theorem UnwindCtx.insert_fresh {c : UnwindCtx} {n : Name} (dt : NameEntry)
    (h : c.prenamemap.lookup n = none) :
    c.insert n dt = ⟨(n, dt) :: c.prenamemap, n :: c.rcheckset⟩ := by
  rw [UnwindCtx.insert, h]
  rfl

/-- `prenamemap` holds the open declarations. -/
theorem Trail.prenamemap (h : Trail tabs st t l v) :
    v.ctx.prenamemap = l.map fun e => (e.name, e.nameEntry) := by
  induction h with
  | @start m hm => cases m.2 <;> rfl
  | step _ he _ ih =>
      rw [UnwindCtx.at_prenamemap, STEntry.ctx,
        UnwindCtx.insert_fresh _ (nameVerdict_expand_fresh he), List.map_cons, ih]

/-- The open declarations have different names. -/
theorem Trail.nodup (h : Trail tabs st t l v) : (l.map STEntry.name).Nodup := by
  induction h with
  | start hm => exact List.nodup_nil
  | @step l v e m h he _ ih =>
      refine List.nodup_cons.mpr ⟨?_, ih⟩
      intro hmem
      obtain ⟨x, hx, hname⟩ := List.mem_map.mp hmem
      have hfresh := nameVerdict_expand_fresh he
      rw [h.prenamemap, List.lookup_eq_none_iff] at hfresh
      have hne := hfresh (x.name, x.nameEntry) (List.mem_map_of_mem hx)
      simp [hname] at hne

theorem lookup_names_eq_some {n : Name} {x : NameEntry}
    (hx : (l.map fun e => (e.name, e.nameEntry)).lookup n = some x) :
    ∃ e ∈ l, e.name = n ∧ e.nameEntry = x := by
  rw [List.lookup_eq_some_iff] at hx
  obtain ⟨l₁, l₂, hsplit, -⟩ := hx
  have hmem : (n, x) ∈ l.map fun e => (e.name, e.nameEntry) := by simp [hsplit]
  obtain ⟨e, he, heq⟩ := List.mem_map.mp hmem
  exact ⟨e, he, (Prod.ext_iff.mp heq).1, (Prod.ext_iff.mp heq).2⟩

theorem lookup_names_eq_none {n : Name} (h : ∀ e ∈ l, e.name ≠ n) :
    (l.map fun e => (e.name, e.nameEntry)).lookup n = none := by
  rw [Option.eq_none_iff_forall_ne_some]
  intro x hx
  obtain ⟨e, he, hn, -⟩ := lookup_names_eq_some hx
  exact h e he hn

theorem lookup_names_of_mem (hnd : (l.map STEntry.name).Nodup) (he : e ∈ l) :
    (l.map fun e => (e.name, e.nameEntry)).lookup e.name = some e.nameEntry := by
  induction l with
  | nil => cases he
  | cons a l ih =>
      rw [List.map_cons, List.nodup_cons] at hnd
      rw [List.map_cons, List.lookup_cons]
      rcases List.mem_cons.mp he with rfl | he
      · simp
      · have hne : e.name ≠ a.name := fun heq => hnd.1 (heq ▸ List.mem_map_of_mem he)
        rw [show (e.name == a.name) = false by simp [hne]]
        exact ih hnd.2 he

theorem Trail.lookup_eq_some (h : Trail tabs st t l v) {n : Name} {x : NameEntry}
    (hx : v.ctx.prenamemap.lookup n = some x) : ∃ e ∈ l, e.name = n ∧ e.nameEntry = x :=
  lookup_names_eq_some (h.prenamemap ▸ hx)

theorem Trail.lookup_of_mem (h : Trail tabs st t l v) (he : e ∈ l) :
    v.ctx.prenamemap.lookup e.name = some e.nameEntry :=
  h.prenamemap ▸ lookup_names_of_mem h.nodup he

/-- An open declaration was expanded, with fewer declarations open. -/
theorem Trail.expanded (h : Trail tabs st t l v) (he : e ∈ l) :
    ∃ l' v', Trail tabs st t l' v' ∧ l'.length < l.length ∧ (∀ x ∈ l', x ∈ l) ∧
      nameVerdict tabs v'.table v'.ctx v'.name = .expand e := by
  induction h with
  | start hm => cases he
  | @step l v a m h ha _ ih =>
      rcases List.mem_cons.mp he with rfl | he
      · exact ⟨l, v, h, Nat.lt_succ_self _, fun x hx => List.mem_cons_of_mem _ hx, ha⟩
      · obtain ⟨l', v', h', hlt, hsub, hv⟩ := ih he
        exact ⟨l', v', h', Nat.lt_succ_of_lt hlt, fun x hx => List.mem_cons_of_mem _ (hsub x hx),
          hv⟩

theorem Trail.mem_entries (h : Trail tabs st t l v) (he : e ∈ l) :
    e ∈ tabs.entries := by
  obtain ⟨l', v', -, -, -, hv⟩ := h.expanded he
  exact nameVerdict_expand_mem hv

/-- The context inside the open declarations `l`, the innermost `k` of which are in `rcheckset`. -/
def ctxOf (l : List STEntry) (k : Nat) : UnwindCtx :=
  ⟨l.map fun e => (e.name, e.nameEntry), (l.take k).map STEntry.name⟩

theorem STEntry.ctx_ctxOf {k : Nat}
    (h : (ctxOf l k).prenamemap.lookup e.name = none) :
    e.ctx (ctxOf l k) = ctxOf (e :: l) (k + 1) :=
  UnwindCtx.insert_fresh _ h

/-- `rcheckset` holds the innermost open declarations, those since the last pointer. -/
theorem Trail.ctx_eq (h : Trail tabs st t l v) : ∃ k, v.ctx = ctxOf l k := by
  induction h with
  | @start m hm =>
      refine ⟨0, ?_⟩
      cases m.2 <;> rfl
  | @step l v e m h he _ ih =>
      obtain ⟨k, hk⟩ := ih
      have hfresh := nameVerdict_expand_fresh he
      rw [hk] at hfresh
      rw [hk, STEntry.ctx_ctxOf hfresh]
      cases m.2 with
      | false => exact ⟨k + 1, rfl⟩
      | true => exact ⟨0, rfl⟩

end Visits

end CaLang.Types

import CaLang.Types.Unwind
import Mathlib.Data.Finset.Card

/-! # Unwinding on trees

The unwinder reads the text of a type expression and meets its names one after the other. Here it
runs on the tree of the text instead: `nameVerdict` is what `catype_unwind_type_name` decides at a
name, and `TypeExpr.unwind` puts the datatype together. **A declaration is expanded only while its
name is not in `prenamemap`**, so the number of declarations bounds the depth of the expansion and
the result needs no fuel (`unwindTypeName_eq`). Whether `type_buf` holds the signature is asked
once, of the whole datatype (`unwindType`).
-/

namespace CaLang.Types

/-- The unwinder can read a name that starts with a letter and fits into its buffer. -/
def ReadableName (n : Name) : Prop :=
  n.head?.map Char.isAlpha = some true ∧ fitsNamebuf n = true

instance (n : Name) : Decidable (ReadableName n) :=
  inferInstanceAs (Decidable (_ ∧ _))

/-- A length that is printed by digits alone and read back as it is. -/
def isLength (n : Int) : Bool := decide (0 ≤ n) && decide (n < 2147483648)

/-- The name in front of a struct text fits into the buffer, -/
def StructHead.nameFits : StructHead Name → Bool
  | .namedStruct n | .namedTuple n => fitsNamebuf n
  | .generalTuple | .slice => true

/-- and so do the names of its members. -/
def TypeFields.namesFit : TypeFields → Bool
  | .nil => true
  | .cons n _ rest => n.all fitsNamebuf && rest.namesFit

/-- What `catype_unwind_type_name` does at a name. -/
inductive NameVerdict
  | stop
  | prim (p : Prim)
  | back (id : StructId)
  | expand (entry : STEntry)
  deriving DecidableEq

/-- The order of the tests is that of the source: the primitive types, the tables, `rcheckset`, and
`prenamemap` last. -/
def nameVerdict (tabs : SymTables) (st : Scope) (c : UnwindCtx) (n : Name) : NameVerdict :=
  if ReadableName n then
    match catypeGetPrimitiveByName n with
    | some p => .prim p
    | none =>
        match tabs.symGettypesymByName st n with
        | none => .stop
        | some entry =>
            if n ∈ c.rcheckset then .stop
            else
              match c.prenamemap.lookup n with
              | some .alias => .stop
              | some (.struct table) => .back ⟨table, n⟩
              | none => .expand entry
  else .stop

/-- How a name met in a table is unwound. -/
abbrev NameHandler := Scope → UnwindCtx → Name → Option CADataType

mutual
/-- The datatype of a type expression, by a handler for the names in it. -/
def TypeExpr.unwind (handler : NameHandler) (st : Scope) (c : UnwindCtx) :
    TypeExpr → Option CADataType
  | .ident n => handler st c n
  | .pointer t => (t.unwind handler st c.fresh).map .pointer
  | .array e len => if isLength len then (e.unwind handler st c).map (.array · len.toNat) else none
  | .struct h fs =>
      if h.nameFits && fs.namesFit then
        (fs.unwind handler st (c.enter h)).map (.struct (h.map (StructId.mk none)))
      else none

def TypeFields.unwind (handler : NameHandler) (st : Scope) (c : UnwindCtx) :
    TypeFields → Option CAStructFields
  | .nil => some .nil
  | .cons n t rest =>
      match t.unwind handler st c, rest.unwind handler st c with
      | some d, some ds => some (.cons n d ds)
      | _, _ => none
end

/-- A struct text that is unwound. -/
theorem TypeExpr.struct_of_unwind {handler : NameHandler} {st : Scope} {c : UnwindCtx}
    {h : StructHead Name} {fs : TypeFields} {D : CADataType}
    (hD : (TypeExpr.struct h fs).unwind handler st c = some D) :
    ∃ ds, fs.unwind handler st (c.enter h) = some ds ∧
      .struct (h.map (StructId.mk none)) ds = D := by
  rw [TypeExpr.unwind] at hD
  split at hD
  · exact Option.map_eq_some_iff.mp hD
  · cases hD

/-- What `prenamemap` holds for the name of a declaration inside of it. -/
def STEntry.nameEntry (e : STEntry) : NameEntry :=
  match e.body with
  | .alias _ => .alias
  | .struct _ _ => .struct e.idtable

/-- The context in which the texts of a declaration are unwound. -/
def STEntry.ctx (e : STEntry) (c : UnwindCtx) : UnwindCtx := c.insert e.name e.nameEntry

/-- The datatype of a declaration, by a handler for the names in it. -/
def STEntry.unwind (handler : NameHandler) (e : STEntry) (c : UnwindCtx) : Option CADataType :=
  match e.body with
  | .alias id => id.unwind handler e.idtable (e.ctx c)
  | .struct tuple members =>
      (members.unwind handler e.idtable (e.ctx c)).map (.struct (e.head tuple))

/-- The datatype of a name, with at most `depth` declarations expanded inside each other. -/
def unwindDecl (tabs : SymTables) (depth : Nat) : NameHandler := fun st c n =>
  match nameVerdict tabs st c n with
  | .stop => none
  | .prim p => some (.prim p)
  | .back id => some (.recur id)
  | .expand e =>
      match depth with
      | 0 => none
      | depth + 1 => e.unwind (unwindDecl tabs depth) c

/-- The datatype of a name. -/
def unwindTypeName (tabs : SymTables) : NameHandler := unwindDecl tabs tabs.entries.length

/-- The datatype of a type expression looked up in a table, were the buffer for its signature large
enough. -/
def unwindTree (tabs : SymTables) (st : Scope) (t : TypeExpr) : Option CADataType :=
  t.unwind (unwindTypeName tabs) st .empty

/-- The signature of a datatype fits into `type_buf`. -/
def CADataType.fits (D : CADataType) : Bool := fitsTypeBuf D.signature

/-- The datatype of a type expression looked up in a table. -/
def unwindType (tabs : SymTables) (st : Scope) (t : TypeExpr) : Option CADataType :=
  (unwindTree tabs st t).filter CADataType.fits

theorem unwindType_eq_some {tabs : SymTables} {st : Scope} {t : TypeExpr} {D : CADataType} :
    unwindType tabs st t = some D ↔ unwindTree tabs st t = some D ∧ D.fits = true :=
  Option.filter_eq_some_iff

/-! ### The verdict -/

section Verdict

variable {tabs : SymTables} {st : Scope} {c : UnwindCtx} {n : Name} {e : STEntry}

/-- Exactly the fresh names are expanded. -/
theorem nameVerdict_eq_expand :
    nameVerdict tabs st c n = .expand e ↔
      ReadableName n ∧ catypeGetPrimitiveByName n = none ∧
        tabs.symGettypesymByName st n = some e ∧ n ∉ c.rcheckset ∧
        c.prenamemap.lookup n = none := by
  unfold nameVerdict
  by_cases ha : ReadableName n
  · rw [if_pos ha]
    cases catypeGetPrimitiveByName n with
    | some p => simp
    | none =>
        cases tabs.symGettypesymByName st n with
        | none => simp
        | some entry =>
            by_cases hr : n ∈ c.rcheckset
            · simp [hr]
            · rcases hm : c.prenamemap.lookup n with _ | _ | table <;> simp [hr, ha]
  · simp [ha]

/-- The reasons to stop. -/
theorem nameVerdict_eq_stop :
    nameVerdict tabs st c n = .stop ↔
      ¬ ReadableName n ∨ catypeGetPrimitiveByName n = none ∧
        ∀ e, tabs.symGettypesymByName st n = some e →
          n ∈ c.rcheckset ∨ c.prenamemap.lookup n = some .alias := by
  unfold nameVerdict
  by_cases ha : ReadableName n
  · rw [if_pos ha]
    cases catypeGetPrimitiveByName n with
    | some p => simp [ha]
    | none =>
        cases tabs.symGettypesymByName st n with
        | none => simp
        | some entry =>
            by_cases hr : n ∈ c.rcheckset
            · simp [hr]
            · rcases hm : c.prenamemap.lookup n with _ | _ | table <;> simp [hr, ha]
  · simp [ha]

/-- A back reference goes to the struct that `prenamemap` holds for the name. -/
theorem nameVerdict_eq_back {id : StructId} :
    nameVerdict tabs st c n = .back id ↔
      ReadableName n ∧ catypeGetPrimitiveByName n = none ∧
        (∃ e, tabs.symGettypesymByName st n = some e) ∧ n ∉ c.rcheckset ∧
          c.prenamemap.lookup n = some (.struct id.table) ∧ id.name = n := by
  unfold nameVerdict
  by_cases ha : ReadableName n
  · rw [if_pos ha]
    cases catypeGetPrimitiveByName n with
    | some p => simp
    | none =>
        cases tabs.symGettypesymByName st n with
        | none => simp
        | some entry =>
            by_cases hr : n ∈ c.rcheckset
            · simp [hr]
            · rcases hm : c.prenamemap.lookup n with _ | _ | table
              · simp [hr]
              · simp [hr]
              · obtain ⟨table', m⟩ := id
                simp [hr, ha, eq_comm]
  · simp [ha]

theorem nameVerdict_prim {p : Prim} (h : nameVerdict tabs st c n = .prim p) :
    catypeGetPrimitiveByName n = some p := by
  unfold nameVerdict at h
  split at h
  · cases hp : catypeGetPrimitiveByName n with
    | some q =>
        rw [hp] at h
        cases h
        rfl
    | none =>
        rw [hp] at h
        dsimp only at h
        split at h
        · cases h
        · split at h
          · cases h
          · split at h <;> cases h
  · cases h

theorem STEntry.nameEntry_struct {table : Option Scope} (h : e.nameEntry = .struct table) :
    table = some e.idtable := by
  unfold STEntry.nameEntry at h
  split at h
  · cases h
  · cases h
    rfl

/-- The expanded declaration carries the name. -/
theorem nameVerdict_expand_name (h : nameVerdict tabs st c n = .expand e) : e.name = n :=
  (SymTables.symGettypesymByName_mem (nameVerdict_eq_expand.mp h).2.2.1).2

theorem nameVerdict_expand_mem (h : nameVerdict tabs st c n = .expand e) : e ∈ tabs.entries :=
  (SymTables.symGettypesymByName_mem (nameVerdict_eq_expand.mp h).2.2.1).1

theorem nameVerdict_expand_fresh (h : nameVerdict tabs st c n = .expand e) :
    c.prenamemap.lookup e.name = none := by
  rw [nameVerdict_expand_name h]
  exact (nameVerdict_eq_expand.mp h).2.2.2.2

end Verdict

/-! ### The depth of the expansion -/

section Room

variable {tabs : SymTables} {n m : Name} {dt : NameEntry}

theorem UnwindCtx.lookup_insert_self (c : UnwindCtx) (n : Name) (dt : NameEntry) :
    (c.insert n dt).prenamemap.lookup n ≠ none := by
  unfold insert
  split
  · exact Option.isSome_iff_ne_none.mp (by assumption)
  · simp

theorem UnwindCtx.lookup_of_insert {c : UnwindCtx}
    (h : (c.insert n dt).prenamemap.lookup m = none) : c.prenamemap.lookup m = none := by
  unfold insert at h
  split at h
  · exact h
  · rw [List.lookup_cons] at h
    split at h
    · cases h
    · exact h

/-- The number of names that can still be expanded. -/
def room (tabs : SymTables) (c : UnwindCtx) : Nat :=
  ((tabs.entries.map STEntry.name).toFinset.filter fun n => c.prenamemap.lookup n = none).card

variable (tabs) in
theorem room_le_length (c : UnwindCtx) : room tabs c ≤ tabs.entries.length :=
  calc room tabs c ≤ (tabs.entries.map STEntry.name).toFinset.card := Finset.card_filter_le _ _
    _ ≤ (tabs.entries.map STEntry.name).length := List.toFinset_card_le _
    _ = tabs.entries.length := List.length_map _

theorem room_insert_le (c : UnwindCtx) (n : Name) (dt : NameEntry) :
    room tabs (c.insert n dt) ≤ room tabs c :=
  Finset.card_le_card fun m hm => by
    simp only [Finset.mem_filter] at hm ⊢
    exact ⟨hm.1, UnwindCtx.lookup_of_insert hm.2⟩

theorem room_enter_le (c : UnwindCtx) (h : StructHead Name) :
    room tabs (c.enter h) ≤ room tabs c := by
  unfold UnwindCtx.enter
  split
  · exact room_insert_le c _ _
  · exact le_rfl

/-- Expanding a declaration leaves one name less to expand. -/
theorem room_ctx_lt {st : Scope} {c : UnwindCtx} {e : STEntry}
    (h : nameVerdict tabs st c n = .expand e) : room tabs (e.ctx c) < room tabs c := by
  refine Finset.card_lt_card ⟨?_, ?_⟩
  · intro m hm
    simp only [Finset.mem_filter] at hm ⊢
    exact ⟨hm.1, UnwindCtx.lookup_of_insert hm.2⟩
  · intro hsub
    have hmem : e.name ∈ (tabs.entries.map STEntry.name).toFinset :=
      List.mem_toFinset.mpr (List.mem_map_of_mem (nameVerdict_expand_mem h))
    have hin := hsub (Finset.mem_filter.mpr ⟨hmem, nameVerdict_expand_fresh h⟩)
    exact c.lookup_insert_self e.name e.nameEntry (Finset.mem_filter.mp hin).2

mutual
/-- Handlers that agree wherever there is no more room give the same datatype. -/
theorem TypeExpr.unwind_congr {f g : NameHandler} {st : Scope} (t : TypeExpr) (c : UnwindCtx)
    (h : ∀ c' n, room tabs c' ≤ room tabs c → f st c' n = g st c' n) :
    t.unwind f st c = t.unwind g st c := by
  cases t with
  | ident n => exact h c n le_rfl
  | pointer t => rw [TypeExpr.unwind, TypeExpr.unwind, t.unwind_congr c.fresh h]
  | array e len => rw [TypeExpr.unwind, TypeExpr.unwind, e.unwind_congr c h]
  | struct hd fs =>
      rw [TypeExpr.unwind, TypeExpr.unwind, fs.unwind_congr (c.enter hd) fun c' n hc =>
        h c' n (hc.trans (room_enter_le c hd))]

theorem TypeFields.unwind_congr {f g : NameHandler} {st : Scope} (fs : TypeFields)
    (c : UnwindCtx) (h : ∀ c' n, room tabs c' ≤ room tabs c → f st c' n = g st c' n) :
    fs.unwind f st c = fs.unwind g st c := by
  cases fs with
  | nil => rfl
  | cons n t rest =>
      rw [TypeFields.unwind, TypeFields.unwind, t.unwind_congr c h, rest.unwind_congr c h]
end

theorem STEntry.unwind_congr {f g : NameHandler} (e : STEntry) (c : UnwindCtx)
    (h : ∀ st c' n, room tabs c' ≤ room tabs (e.ctx c) → f st c' n = g st c' n) :
    e.unwind f c = e.unwind g c := by
  unfold STEntry.unwind
  split
  · exact TypeExpr.unwind_congr _ _ (h _)
  · rw [TypeFields.unwind_congr _ _ (h _)]

theorem unwindDecl_congr {a b : Nat} {st : Scope} {c : UnwindCtx} (ha : room tabs c ≤ a)
    (hb : room tabs c ≤ b) : unwindDecl tabs a st c n = unwindDecl tabs b st c n := by
  induction a generalizing b st c n with
  | zero =>
      rw [unwindDecl.eq_def, unwindDecl.eq_def tabs b]
      cases hv : nameVerdict tabs st c n with
      | expand e =>
          have := room_ctx_lt hv
          omega
      | _ => rfl
  | succ a ih =>
      rw [unwindDecl.eq_def, unwindDecl.eq_def tabs b]
      cases hv : nameVerdict tabs st c n with
      | expand e =>
          have hlt := room_ctx_lt hv
          cases b with
          | zero => omega
          | succ b =>
              refine e.unwind_congr c fun st' c' m (hc : room tabs c' ≤ _) => ih ?_ ?_
              · omega
              · omega
      | _ => rfl

/-- **The expansion needs no fuel**: a fresh name is its declaration unwound. -/
theorem unwindTypeName_eq (tabs : SymTables) (st : Scope) (c : UnwindCtx) (n : Name) :
    unwindTypeName tabs st c n =
      match nameVerdict tabs st c n with
      | .stop => none
      | .prim p => some (.prim p)
      | .back id => some (.recur id)
      | .expand e => e.unwind (unwindTypeName tabs) c := by
  have hlen := room_le_length tabs c
  rw [unwindTypeName, unwindDecl_congr (b := tabs.entries.length + 1) hlen (by omega),
    unwindDecl.eq_def]

end Room

end CaLang.Types

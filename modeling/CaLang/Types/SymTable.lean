import CaLang.Types.Syntax
import Mathlib.Data.List.Nodup

/-! # The tables of type declarations

A symbol table is named by the path from the outermost table to it, so that its parent is the tail
of the path. Struct, named tuple and alias declarations enter their name in the table they stand
in, and the texts in them are looked up from that table on.

- `STEntry`, `SymTables`: the declarations, as `make_struct_type` and `make_type_def_entry` leave
  them;
- `SymTables.symGettypesymByName`: the declaration visible under a name.
-/

namespace CaLang.Types

/-- A symbol table, as the path from the outermost one; the parent is the tail. -/
abbrev Scope := List Nat

/-- What a name is declared as: `type A = id`, or a struct or tuple with members. -/
inductive TypeBody
  | alias (id : TypeExpr)
  | struct (tuple : Bool) (members : TypeFields)
  deriving DecidableEq

def TypeBody.isSource : TypeBody → Bool
  | .alias id => id.isSource
  | .struct tuple members => members.isSource (!tuple)

/-- The entry of a declared type (`u.datatype`), with the table it stands in. -/
structure STEntry where
  idtable : Scope
  name : Name
  body : TypeBody
  deriving DecidableEq

namespace STEntry

/-- The checks of the parser: an identifier of the lexer that is not a primitive type. -/
def isDeclared (e : STEntry) : Bool :=
  isIdent e.name && decide (getInnerTypeString e.name = e.name) &&
    (catypeGetPrimitiveByName e.name).isNone && e.body.isSource

/-- The datatype of a declared struct points back to this declaration. -/
def id (e : STEntry) : StructId := ⟨some e.idtable, e.name⟩

end STEntry

/-- The declarations of a program. No table declares a name twice. -/
structure SymTables where
  entries : List STEntry
  nodup : (entries.map fun e => (e.idtable, e.name)).Nodup
  declared : ∀ e ∈ entries, e.isDeclared = true

namespace SymTables

/-- The entry of `n` in one table. -/
def getHere (tabs : SymTables) (st : Scope) (n : Name) : Option STEntry :=
  tabs.entries.find? fun e => e.idtable = st && e.name = n

/-- `sym_gettypesym_by_name(st, n, 1)`: the entry of `n` in the nearest table that has one. -/
def symGettypesymByName (tabs : SymTables) : Scope → Name → Option STEntry
  | [], n => tabs.getHere [] n
  | i :: parent, n =>
      match tabs.getHere (i :: parent) n with
      | some e => some e
      | none => tabs.symGettypesymByName parent n

variable {tabs : SymTables} {st : Scope} {n : Name} {e : STEntry}

theorem getHere_eq_some (h : tabs.getHere st n = some e) :
    e ∈ tabs.entries ∧ e.idtable = st ∧ e.name = n := by
  have hp := List.find?_some h
  simp only [Bool.and_eq_true, decide_eq_true_eq] at hp
  exact ⟨List.mem_of_find?_eq_some h, hp⟩

/-- Entries with the same table and name are the same. -/
theorem entry_inj {e' : STEntry} (h : e ∈ tabs.entries) (h' : e' ∈ tabs.entries)
    (hid : e.id = e'.id) : e = e' := by
  simp only [STEntry.id, StructId.mk.injEq, Option.some.injEq] at hid
  exact List.inj_on_of_nodup_map tabs.nodup h h' (Prod.ext hid.1 hid.2)

theorem getHere_eq_some_iff :
    tabs.getHere st n = some e ↔ e ∈ tabs.entries ∧ e.idtable = st ∧ e.name = n := by
  refine ⟨getHere_eq_some, fun ⟨hm, ht, hn⟩ => ?_⟩
  cases hf : tabs.getHere st n with
  | none =>
      have hno := List.find?_eq_none.mp hf e hm
      simp [ht, hn] at hno
  | some e' =>
      obtain ⟨hm', ht', hn'⟩ := getHere_eq_some hf
      rw [entry_inj hm hm' (by rw [STEntry.id, STEntry.id, ht, hn, ht', hn'])]

theorem getHere_eq_none_iff :
    tabs.getHere st n = none ↔ ∀ e ∈ tabs.entries, e.idtable = st → e.name ≠ n := by
  rw [Option.eq_none_iff_forall_ne_some]
  constructor
  · intro h e hm ht hn
    exact h e (getHere_eq_some_iff.mpr ⟨hm, ht, hn⟩)
  · intro h e he
    exact h e (getHere_eq_some he).1 (getHere_eq_some he).2.1 (getHere_eq_some he).2.2

theorem symGettypesymByName_mem (h : tabs.symGettypesymByName st n = some e) :
    e ∈ tabs.entries ∧ e.name = n := by
  induction st with
  | nil =>
      obtain ⟨hm, -, hn⟩ := getHere_eq_some h
      exact ⟨hm, hn⟩
  | cons i parent ih =>
      rw [symGettypesymByName] at h
      cases hf : tabs.getHere (i :: parent) n with
      | none =>
          rw [hf] at h
          exact ih h
      | some e' =>
          rw [hf] at h
          cases h
          obtain ⟨hm, -, hn⟩ := getHere_eq_some hf
          exact ⟨hm, hn⟩

end SymTables

end CaLang.Types

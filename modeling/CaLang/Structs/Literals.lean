import CaLang.Structs.Rearrange
import Mathlib.Data.List.Sort
import Mathlib.Data.List.Perm.Subperm

/-! # Struct expressions

`walk_expr_struct` walks the fields of a struct expression in the order they are written, and brings
the values into the order of the declaration.  **What names a field twice, or one that does not
exist, or leaves one out, stops before that**: the numbers of fields agree, every name is found, and
in the sorted copy of the order no two neighbours are equal.

- `walkExprStruct`: the walk, with all its errors;
- `NamesEach`: each field is named once;
- `walkExprStruct_named`: the value written for a field ends at the index of the field.
-/

namespace CaLang.Structs

open Placing

variable {N Ty Node V : Type} [DecidableEq N] [DecidableEq Ty]

/-- A `CAStructField`. -/
structure CAStructField (N Ty : Type) where
  name : N
  type : Ty

/-- The fields of a struct expression: expressions, or names with expressions. -/
inductive CAStructExpr (N Node : Type)
  | positional (nodes : List Node)
  | named (nodes : List (N × Node))

inductive Error (N Ty : Type)
  /-- type `%s` is not a struct type -/
  | notStruct
  /-- struct type `%s` expression field size: `%d` not equal to the struct field size: `%d` -/
  | fieldSize (fieldnum size : Nat)
  /-- cannot find the field name in struct `%s` for the `%d` field `%s` in expression -/
  | noField (i : Nat) (name : N)
  /-- The walk of the expression of a field stops. -/
  | walk (i : Nat)
  /-- the field `%d`'s type `%s` of struct expression is different from the struct definition:
  `%s` -/
  | fieldType (i : Nat) (found expected : Ty)
  /-- multiple expression specified for field `%s` in struct `%s`, with the type of a field -/
  | multiple (type : Option Ty)

/-- What `walk_stack` and `pop_right_value` yield, with or without a load, and which types are
complex. -/
structure Walker (Ty Node V : Type) where
  eval : Node → Bool → Option (V × Ty)
  isComplexType : Ty → Bool

variable (w : Walker Ty Node V) (fields : List (CAStructField N Ty))

/-- `structexpr_get_field_order`. -/
def structexprGetFieldOrder (name : N) : Option Nat := fields.findIdx? fun f => f.name = name

/-- The value of the `i`-th expression, which goes to this field. -/
def walkField (i : Nat) (node : Node) (field : CAStructField N Ty) : Except (Error N Ty) V :=
  match w.eval node (!w.isComplexType field.type) with
  | none => .error (.walk i)
  | some (v, t) => if t = field.type then .ok v else .error (.fieldType i t field.type)

/-- The fields that are named, with `fieldorder` and `values`. -/
def walkNamed : Nat → List (N × Node) → Except (Error N Ty) (List Nat × List V)
  | _, [] => .ok ([], [])
  | i, (name, node) :: nodes =>
      match structexprGetFieldOrder fields name with
      | none => .error (.noField i name)
      | some order =>
          match fields[order]? with
          | none => .error (.noField i name)
          | some field => do
              let v ← walkField w i node field
              let (fieldorder, values) ← walkNamed (i + 1) nodes
              .ok (order :: fieldorder, v :: values)

/-- The fields in the order of the declaration. -/
def walkPositional : Nat → List Node → List (CAStructField N Ty) → Except (Error N Ty) (List V)
  | i, node :: nodes, field :: fields => do
      let v ← walkField w i node field
      let values ← walkPositional (i + 1) nodes fields
      .ok (v :: values)
  | _, _, _ => .ok []

/-- The first position whose entry is equal to the one before it. -/
def firstEqual : Nat → List Nat → Option Nat
  | i, a :: b :: rest => if a = b then some i else firstEqual (i + 1) (b :: rest)
  | _, _ => none

/-- `walk_expr_struct`, with the values that are stored into the fields in order. -/
def walkExprStruct (fuel : Nat) (structcatype : Option (List (CAStructField N Ty))) :
    CAStructExpr N Node → Except (Error N Ty) (Option (List V))
  | .positional nodes =>
      match structcatype with
      | none => .error .notStruct
      | some fields =>
          if fields.length ≠ nodes.length then .error (.fieldSize fields.length nodes.length)
          else do
            let values ← walkPositional w 0 nodes fields
            .ok (some values)
  | .named nodes =>
      match structcatype with
      | none => .error .notStruct
      | some fields =>
          if fields.length ≠ nodes.length then .error (.fieldSize fields.length nodes.length)
          else do
            let (fieldorder, values) ← walkNamed w fields 0 nodes
            match firstEqual 1 (fieldorder.insertionSort (· ≤ ·)) with
            | some i => .error (.multiple (fields[i]?.map (·.type)))
            | none => .ok (rearrange fuel fieldorder values)

/-! ### What a struct expression says -/

/-- Each field is named once. -/
def NamesEach (nodes : List (N × Node)) : Prop :=
  (nodes.map Prod.fst).Perm (fields.map (·.name)) ∧ (nodes.map Prod.fst).Nodup

/-- The expressions have the types of the fields that they are written for. -/
def Typed (nodes : List (N × Node)) : Prop :=
  ∀ field ∈ fields, ∀ node, (field.name, node) ∈ nodes →
    ∃ v, w.eval node (!w.isComplexType field.type) = some (v, field.type)

/-- The index of a name in the declaration. -/
def indexOf (name : N) : Nat := fields.findIdx fun f => f.name = name

/-- The value that is written for a field. -/
def written (item : N × Node) : Option V :=
  fields[indexOf fields item.1]?.bind fun field =>
    (w.eval item.2 (!w.isComplexType field.type)).map Prod.fst

variable {w fields} {nodes : List (N × Node)} {fieldorder : List Nat} {values : List V} {i : Nat}
  {name : N} {node : Node} {field : CAStructField N Ty}

omit [DecidableEq Ty] in
theorem structexprGetFieldOrder_eq_some {order : Nat} :
    structexprGetFieldOrder fields name = some order ↔
      order = indexOf fields name ∧ ∃ field, fields[order]? = some field ∧ field.name = name := by
  rw [structexprGetFieldOrder, List.findIdx?_eq_some_iff_findIdx_eq]
  constructor
  · rintro ⟨hlt, rfl⟩
    refine ⟨rfl, _, List.getElem?_eq_getElem hlt, ?_⟩
    exact of_decide_eq_true (List.findIdx_getElem (w := hlt))
  · rintro ⟨rfl, field, hfield, -⟩
    exact ⟨(List.getElem?_eq_some_iff.mp hfield).1, rfl⟩

omit [DecidableEq Ty] in
theorem structexprGetFieldOrder_of_mem (h : name ∈ fields.map (·.name)) :
    structexprGetFieldOrder fields name = some (indexOf fields name) := by
  obtain ⟨field, hmem, rfl⟩ := List.mem_map.mp h
  refine List.findIdx?_eq_some_iff_findIdx_eq.mpr ⟨?_, rfl⟩
  exact List.findIdx_lt_length_of_exists ⟨field, hmem, decide_eq_true rfl⟩

omit [DecidableEq Ty] in
theorem indexOf_inj {name' : N} (h : name ∈ fields.map (·.name)) (h' : name' ∈ fields.map (·.name))
    (he : indexOf fields name = indexOf fields name') : name = name' := by
  obtain ⟨-, f, hf, rfl⟩ := structexprGetFieldOrder_eq_some.mp (structexprGetFieldOrder_of_mem h)
  obtain ⟨-, g, hg, rfl⟩ := structexprGetFieldOrder_eq_some.mp (structexprGetFieldOrder_of_mem h')
  rw [he, hg] at hf
  rw [Option.some.inj hf]

omit [DecidableEq N] in
theorem walkField_eq_ok {v : V} : walkField w i node field = .ok v ↔
    w.eval node (!w.isComplexType field.type) = some (v, field.type) := by
  unfold walkField
  split
  case h_1 h => simp [h]
  case h_2 v' t h =>
    rw [h]
    by_cases ht : t = field.type
    · rw [if_pos ht, ht]
      exact ⟨fun h => by rw [Except.ok.inj h], fun h => by cases h; rfl⟩
    · rw [if_neg ht]
      exact ⟨nofun, fun h => absurd (Prod.mk.inj (Option.some.inj h)).2 ht⟩

/-- One named field. -/
theorem walkNamed_cons_eq_ok {orders : List Nat} {vs : List V} :
    walkNamed w fields i ((name, node) :: nodes) = .ok (orders, vs) ↔
      ∃ field v fieldorder values, fields[indexOf fields name]? = some field ∧ field.name = name ∧
        w.eval node (!w.isComplexType field.type) = some (v, field.type) ∧
        walkNamed w fields (i + 1) nodes = .ok (fieldorder, values) ∧
        orders = indexOf fields name :: fieldorder ∧ vs = v :: values := by
  rw [walkNamed]
  cases ho : structexprGetFieldOrder fields name with
  | none =>
      refine ⟨nofun, ?_⟩
      rintro ⟨field, -, -, -, hfield, rfl, -⟩
      rw [structexprGetFieldOrder_of_mem
        (List.mem_map_of_mem (List.mem_of_getElem? hfield))] at ho
      cases ho
  | some order =>
      obtain ⟨rfl, field, hfield, hname⟩ := structexprGetFieldOrder_eq_some.mp ho
      simp only [hfield, Option.some.injEq]
      cases hwalk : walkField w i node field with
      | error e =>
          refine ⟨nofun, ?_⟩
          rintro ⟨_, v, -, -, rfl, -, heval, -⟩
          rw [walkField_eq_ok.mpr heval] at hwalk
          cases hwalk
      | ok v =>
          have heval := walkField_eq_ok.mp hwalk
          cases hrest : walkNamed w fields (i + 1) nodes with
          | error e =>
              refine ⟨nofun, ?_⟩
              rintro ⟨_, _, fieldorder, values, -, -, -, h, -⟩
              cases h
          | ok r =>
              obtain ⟨fieldorder, values⟩ := r
              constructor
              · intro h
                obtain ⟨rfl, rfl⟩ := Prod.mk.inj (Except.ok.inj h)
                exact ⟨field, v, fieldorder, values, rfl, hname, heval, rfl, rfl, rfl⟩
              · rintro ⟨_, v', _, _, rfl, -, heval', h, rfl, rfl⟩
                obtain ⟨rfl, rfl⟩ := Prod.mk.inj (Except.ok.inj h)
                obtain ⟨rfl, -⟩ := Prod.mk.inj (Option.some.inj (heval.symm.trans heval'))
                rfl

/-- The field order is the list of the indices that the names have. -/
theorem of_walkNamed (h : walkNamed w fields i nodes = .ok (fieldorder, values)) :
    fieldorder = nodes.map (fun item => indexOf fields item.1) ∧
      (∀ name ∈ nodes.map Prod.fst, name ∈ fields.map (·.name)) ∧
      values.map some = nodes.map (written w fields) := by
  induction nodes generalizing i fieldorder values with
  | nil =>
      obtain ⟨rfl, rfl⟩ := Prod.mk.inj (Except.ok.inj h)
      exact ⟨rfl, nofun, rfl⟩
  | cons item nodes ih =>
      obtain ⟨name, node⟩ := item
      obtain ⟨field, v, fieldorder, values, hfield, hname, heval, hrest, rfl, rfl⟩ :=
        walkNamed_cons_eq_ok.mp h
      obtain ⟨ho, hknown, hvalues⟩ := ih hrest
      refine ⟨by rw [ho]; rfl, ?_, ?_⟩
      · intro n hn
        rcases List.mem_cons.mp hn with rfl | hn
        · exact List.mem_map.mpr ⟨field, List.mem_of_getElem? hfield, hname⟩
        · exact hknown n hn
      · rw [List.map_cons, List.map_cons, hvalues, written, hfield]
        simp [heval]

theorem walkNamed_exists (hknown : ∀ name ∈ nodes.map Prod.fst, name ∈ fields.map (·.name))
    (ht : Typed w fields nodes) (i : Nat) :
    ∃ fieldorder values, walkNamed w fields i nodes = .ok (fieldorder, values) := by
  induction nodes generalizing i with
  | nil => exact ⟨[], [], rfl⟩
  | cons item nodes ih =>
      obtain ⟨name, node⟩ := item
      have hmem := hknown name List.mem_cons_self
      obtain ⟨-, field, hfield, rfl⟩ :=
        structexprGetFieldOrder_eq_some.mp (structexprGetFieldOrder_of_mem hmem)
      obtain ⟨v, heval⟩ := ht field (List.mem_of_getElem? hfield) node List.mem_cons_self
      obtain ⟨fieldorder, values, hrest⟩ := ih (fun n hn => hknown n (List.mem_cons_of_mem _ hn))
        (fun f hf n hn => ht f hf n (List.mem_cons_of_mem _ hn)) (i + 1)
      exact ⟨_, _, walkNamed_cons_eq_ok.mpr
        ⟨field, v, fieldorder, values, hfield, rfl, heval, hrest, rfl, rfl⟩⟩

/-! ### Repeated fields -/

theorem pairwise_lt_of_firstEqual {l : List Nat} (hs : l.Pairwise (· ≤ ·))
    (h : firstEqual i l = none) : l.Pairwise (· < ·) := by
  induction l generalizing i with
  | nil => exact .nil
  | cons a l ih =>
      cases l with
      | nil => exact .cons nofun .nil
      | cons b l =>
          rw [firstEqual] at h
          split at h
          · cases h
          · obtain ⟨ha, hs⟩ := List.pairwise_cons.mp hs
            have hl := ih hs h
            refine .cons ?_ hl
            intro c hc
            have hab : a < b := by
              have := ha b List.mem_cons_self
              omega
            rcases List.mem_cons.mp hc with rfl | hc
            · exact hab
            · exact Nat.lt_trans hab (List.rel_of_pairwise_cons hl hc)

theorem firstEqual_of_nodup {l : List Nat} (h : l.Nodup) : firstEqual i l = none := by
  induction l generalizing i with
  | nil => rfl
  | cons a l ih =>
      cases l with
      | nil => rfl
      | cons b l =>
          obtain ⟨ha, hl⟩ := List.nodup_cons.mp h
          rw [firstEqual, if_neg (fun he => ha (by rw [he]; exact List.mem_cons_self))]
          exact ih hl

/-- No two neighbours of the sorted copy are equal if and only if no index stands twice. -/
theorem firstEqual_insertionSort {l : List Nat} :
    firstEqual i (l.insertionSort (· ≤ ·)) = none ↔ l.Nodup := by
  have hp := List.perm_insertionSort (· ≤ ·) l
  rw [← hp.nodup_iff]
  constructor
  · intro h
    exact (pairwise_lt_of_firstEqual (List.pairwise_insertionSort _ l) h).imp Nat.ne_of_lt
  · exact firstEqual_of_nodup

/-! ### Named fields -/

omit [DecidableEq N] [DecidableEq Ty] in
/-- Each field is named if as many names are known and none stands twice. -/
theorem namesEach_of_known (hlen : fields.length = nodes.length)
    (hknown : ∀ name ∈ nodes.map Prod.fst, name ∈ fields.map (·.name))
    (hnodup : (nodes.map Prod.fst).Nodup) : NamesEach fields nodes :=
  ⟨(List.subperm_of_subset hnodup hknown).perm_of_length_le
    (by rw [List.length_map, List.length_map, hlen]), hnodup⟩

/-- What gets through the checks names each field once. -/
theorem namesEach_of_walkNamed (hlen : fields.length = nodes.length)
    (h : walkNamed w fields i nodes = .ok (fieldorder, values)) (hnodup : fieldorder.Nodup) :
    NamesEach fields nodes := by
  obtain ⟨ho, hknown, -⟩ := of_walkNamed h
  refine namesEach_of_known hlen hknown (List.Nodup.of_map (indexOf fields) ?_)
  rw [List.map_map]
  exact ho ▸ hnodup

theorem nodup_fieldorder (hn : NamesEach fields nodes)
    (h : walkNamed w fields i nodes = .ok (fieldorder, values)) : fieldorder.Nodup := by
  obtain ⟨ho, hknown, -⟩ := of_walkNamed h
  have hmap : fieldorder = (nodes.map Prod.fst).map (indexOf fields) := by
    rw [ho, List.map_map]
    rfl
  rw [hmap]
  exact hn.2.map_on fun a ha b hb he => indexOf_inj (hknown a ha) (hknown b hb) he

/-- **A struct expression that names each field once** gets the value written for a field at the
index of the field, and no value is lost or duplicated; one that does not is rejected before the
rearrangement, whatever its bound. -/
theorem walkExprStruct_named {fuel : Nat} (hfuel : fields.length ≤ fuel) :
    (NamesEach fields nodes → Typed w fields nodes →
      ∃ values, walkExprStruct w fuel (some fields) (.named nodes) = .ok (some values) ∧
        (values.map some).Perm (nodes.map (written w fields)) ∧
        ∀ (k : Nat) (field : CAStructField N Ty) (node : Node), fields[k]? = some field →
          (field.name, node) ∈ nodes →
          ∃ v, w.eval node (!w.isComplexType field.type) = some (v, field.type) ∧
            values[k]? = some v) ∧
    (¬ NamesEach fields nodes →
      ∃ e, ∀ fuel, walkExprStruct w fuel (some fields) (.named nodes) = .error e) := by
  constructor
  · intro hn ht
    have hknown : ∀ name ∈ nodes.map Prod.fst, name ∈ fields.map (·.name) :=
      fun name h => hn.1.mem_iff.mp h
    have hlen : fields.length = nodes.length := by
      have := hn.1.length_eq
      rw [List.length_map, List.length_map] at this
      exact this.symm
    obtain ⟨fieldorder, values, hwalk⟩ := walkNamed_exists hknown ht 0
    obtain ⟨ho, -, hvalues⟩ := of_walkNamed hwalk
    have hnodup := nodup_fieldorder hn hwalk
    have hflen : fieldorder.length = nodes.length := by rw [ho, List.length_map]
    have hvlen : values.length = nodes.length := by
      have := congrArg List.length hvalues
      rwa [List.length_map, List.length_map] at this
    have hlen' : fieldorder.length = values.length := hflen.trans hvlen.symm
    have hhomes : Homes (fieldorder.zip values) := by
      constructor
      · rw [List.map_fst_zip (Nat.le_of_eq hlen')]
        exact hnodup
      · intro a ha
        have hmem : a.1 ∈ fieldorder := (List.of_mem_zip (a := a.1) (b := a.2) ha).1
        rw [ho] at hmem
        obtain ⟨item, hitem, he⟩ := List.mem_map.mp hmem
        obtain ⟨-, f, hf, -⟩ := structexprGetFieldOrder_eq_some.mp
          (structexprGetFieldOrder_of_mem (hknown item.1 (List.mem_map_of_mem hitem)))
        rw [List.length_zip, ← hlen', Nat.min_self, hflen, ← hlen, ← he]
        exact (List.getElem?_eq_some_iff.mp hf).1
    obtain ⟨values', hre, hperm, hplaced⟩ := rearrange_eq hhomes hlen'
      (Nat.le_trans (Nat.le_of_eq (hflen.trans hlen.symm)) hfuel)
    refine ⟨values', ?_, ?_, ?_⟩
    · rw [walkExprStruct]
      simp only [hlen, ne_eq, not_true, if_false, hwalk]
      show (match firstEqual 1 (fieldorder.insertionSort (· ≤ ·)) with
        | some i => _
        | none => Except.ok (rearrange fuel fieldorder values)) = _
      rw [firstEqual_insertionSort.mpr hnodup, hre]
    · rw [← hvalues]
      exact hperm.map some
    · intro k field node hk hnode
      obtain ⟨v, heval⟩ := ht field (List.mem_of_getElem? hk) node hnode
      refine ⟨v, heval, hplaced k v ?_⟩
      have hindex : indexOf fields field.name = k := by
        obtain ⟨-, f, hf, hname⟩ := structexprGetFieldOrder_eq_some.mp
          (structexprGetFieldOrder_of_mem (hknown _ (List.mem_map_of_mem hnode)))
        have hfields := hn.1.nodup_iff.mp hn.2
        have hlt := (List.getElem?_eq_some_iff.mp hf).1
        refine (List.getElem?_inj (by rwa [List.length_map]) hfields).mp ?_
        rw [List.getElem?_map, List.getElem?_map, hf, hk]
        exact congrArg some hname
      obtain ⟨j, hj⟩ := List.getElem?_of_mem hnode
      have hoj : fieldorder[j]? = some k := by
        rw [ho, List.getElem?_map, hj, ← hindex]
        rfl
      have hvj : values[j]? = some v := by
        have hmap : (values.map some)[j]? = some (some v) := by
          rw [hvalues, List.getElem?_map, hj]
          simp [written, hindex, hk, heval]
        rw [List.getElem?_map] at hmap
        obtain ⟨u, hu, he⟩ := Option.map_eq_some_iff.mp hmap
        rw [hu, Option.some.inj he]
      refine List.mem_of_getElem? (i := j) ?_
      rw [List.getElem?_zip_eq_some]
      exact ⟨hoj, hvj⟩
  · intro hn
    by_cases hlen : fields.length = nodes.length
    · cases hwalk : walkNamed w fields 0 nodes with
      | error e => exact ⟨e, fun fuel => by simp [walkExprStruct, hlen, hwalk, bind, Except.bind]⟩
      | ok r =>
          obtain ⟨fieldorder, values⟩ := r
          cases hfirst : firstEqual 1 (fieldorder.insertionSort (· ≤ ·)) with
          | none =>
              exact absurd (namesEach_of_walkNamed hlen hwalk (firstEqual_insertionSort.mp hfirst))
                hn
          | some i =>
              exact ⟨.multiple (fields[i]?.map (·.type)), fun fuel => by
                simp [walkExprStruct, hlen, hwalk, bind, Except.bind, hfirst]⟩
    · exact ⟨.fieldSize fields.length nodes.length, fun fuel => by simp [walkExprStruct, hlen]⟩

/-- `A { c: 20, a: 0, b: 10 }` of `struct A { a: i32, b: i32, c: i32 }`. -/
theorem walkExprStruct_three :
    let w : Walker Unit Int Int := ⟨fun n _ => some (n, ()), fun _ => false⟩
    let fields : List (CAStructField Char Unit) := [⟨'a', ()⟩, ⟨'b', ()⟩, ⟨'c', ()⟩]
    ∃ values, walkExprStruct w 3 (some fields) (.named [('c', 20), ('a', 0), ('b', 10)]) =
      .ok (some values) ∧ values[0]? = some 0 ∧ values[1]? = some 10 ∧ values[2]? = some 20 := by
  intro w fields
  have hn : NamesEach fields [('c', (20 : Int)), ('a', 0), ('b', 10)] := by
    refine ⟨?_, ?_⟩ <;> decide
  have hfuel : fields.length ≤ 3 := by decide
  obtain ⟨values, hwalk, -, hplaced⟩ := (walkExprStruct_named (w := w) hfuel).1 hn
    fun field _ node _ => ⟨node, rfl⟩
  obtain ⟨_, h, h₀⟩ := hplaced 0 ⟨'a', ()⟩ 0 rfl (by simp)
  obtain rfl := (Prod.mk.inj (Option.some.inj h)).1
  obtain ⟨_, h, h₁⟩ := hplaced 1 ⟨'b', ()⟩ 10 rfl (by simp)
  obtain rfl := (Prod.mk.inj (Option.some.inj h)).1
  obtain ⟨_, h, h₂⟩ := hplaced 2 ⟨'c', ()⟩ 20 rfl (by simp)
  obtain rfl := (Prod.mk.inj (Option.some.inj h)).1
  exact ⟨values, hwalk, h₀, h₁, h₂⟩

end CaLang.Structs

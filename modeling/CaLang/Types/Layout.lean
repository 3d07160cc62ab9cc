import CaLang.Lib.Record
import CaLang.Types.Graph

/-! # The layout pass

`catype_formalize_type_layout` walks the graph of an unwound datatype and writes the sizes, the
greatest alignments and the offsets. **A field is skipped altogether while its type is in
`rcheck`**, and a pointer is followed whatever it points to, so a struct can be entered again before
it is finished.

The objects are the places of the tree (`objAddr`): `Layout` holds what the pass has written at
each. The primitive types, which all places share, have no fields and are never in `rcheck` when a
field is tested. Sizes and offsets are `size_t`, so that a product or a sum wraps around.
-/

namespace CaLang.Types

/-- A `size_t`. -/
def sizeT (n : Nat) : Nat := n % 18446744073709551616

theorem sizeT_of_lt {n : Nat} (h : n < 18446744073709551616) : sizeT n = n := Nat.mod_eq_of_lt h

/-- What the pass writes: `size` and `fieldmaxalign` of the datatypes, and the offsets of the
fields, which are known by the address of their type. -/
structure Layout where
  size : Addr → Nat
  fieldmaxalign : Addr → Nat
  offset : Addr → Nat

namespace Layout

def setSize (σ : Layout) (a : Addr) (n : Nat) : Layout :=
  { σ with size := Function.update σ.size a n }

def setFieldmaxalign (σ : Layout) (a : Addr) (n : Nat) : Layout :=
  { σ with fieldmaxalign := Function.update σ.fieldmaxalign a n }

def setOffset (σ : Layout) (a : Addr) (n : Nat) : Layout :=
  { σ with offset := Function.update σ.offset a n }

/-- `type->size` of the datatype at a place. -/
def sizeAt (σ : Layout) (t : CADataType) (a : Addr) (env : Env) : Nat :=
  match t with
  | .prim p => p.size
  | .pointer _ => 8
  | _ => σ.size (objAddr t a env)

end Layout

/-- `catype_get_field_align`. -/
def catypeGetFieldAlign (σ : Layout) : CADataType → Addr → Env → Nat
  | .prim p, _, _ => p.size
  | .pointer _, _, _ => 8
  | .array e _, a, env => catypeGetFieldAlign σ e (0 :: a) env
  | t, a, env => σ.fieldmaxalign (objAddr t a env)

/-- The variables of the loop over the fields. -/
structure FieldLoop where
  layout : Layout
  offset : Nat
  maxalign : Nat

/-- The end of a struct, behind the loop over its fields. -/
def FieldLoop.structEnd (s : FieldLoop) (a : Addr) : Layout :=
  (s.layout.setFieldmaxalign a s.maxalign).setSize a (sizeT (alignUp s.offset s.maxalign))

/-- The layout of the datatype at a place, with `rcheck`. -/
abbrev LayoutPass :=
  CADataType → Addr → Env → List Addr → Layout → Except WalkStop Layout

/-- What the loop does behind the layout of the field's type; an alignment of zero, that of `void`,
is divided by. -/
def FieldLoop.place (s : FieldLoop) (σ : Layout) (t : CADataType) (a : Addr) (env : Env) :
    Except WalkStop FieldLoop :=
  let align := catypeGetFieldAlign σ t a env
  if align = 0 then .error .crash
  else
    let offset := sizeT (alignUp s.offset align)
    .ok ⟨σ.setOffset a offset, sizeT (offset + σ.sizeAt t a env), max s.maxalign align⟩

/-- The loop over the fields of the struct at `a`, from field `i` on. -/
def layoutFields (pass : LayoutPass) (a : Addr) (env : Env) (rcheck : List Addr) :
    CAStructFields → Nat → FieldLoop → Except WalkStop FieldLoop
  | .nil, _, s => .ok s
  | .cons _ t rest, i, s =>
      if objAddr t (i :: a) env ∈ rcheck then
        layoutFields pass a env rcheck rest (i + 1) s
      else do
        let σ ← pass t (i :: a) env (objAddr t (i :: a) env :: rcheck) s.layout
        let s' ← s.place σ t (i :: a) env
        layoutFields pass a env rcheck rest (i + 1) s'

/-- `catype_formalize_type_layout`. -/
def catypeFormalizeTypeLayout (fuel : Nat) : LayoutPass := fun t a env rcheck σ =>
  match fuel with
  | 0 => .error .fuel
  | fuel + 1 =>
      match t with
      | .prim _ => .ok σ
      | .pointer t => catypeFormalizeTypeLayout fuel t (0 :: a) env rcheck σ
      | .array e n => do
          let σ ← catypeFormalizeTypeLayout fuel e (0 :: a) env rcheck σ
          return σ.setSize a (sizeT (n * σ.sizeAt e (0 :: a) env))
      | .struct h fs => do
          let s ← layoutFields (catypeFormalizeTypeLayout fuel) a (⟨a, h, fs⟩ :: env) rcheck fs 0
            ⟨σ, 0, 1⟩
          return s.structEnd a
      | .recur id =>
          match findFrame id env with
          | some (f, env) =>
              catypeFormalizeTypeLayout fuel (.struct f.head f.fields) f.addr env rcheck σ
          | none => .error .crash

/-- The layout pass of `catype_formalize_type`, with the datatype itself in `rcheck`. -/
def catypeLayout (fuel : Nat) (D : CADataType) (σ : Layout) : Except WalkStop Layout :=
  catypeFormalizeTypeLayout fuel D [] [] [[]] σ

/-! ### The C rule -/

/-- The members of a struct as they are laid out: size and alignment of each. -/
def layoutMembers (σ : Layout) (a : Addr) (env : Env) : CAStructFields → Nat → List Member
  | .nil, _ => []
  | .cons _ t rest, i =>
      ⟨σ.sizeAt t (i :: a) env, catypeGetFieldAlign σ t (i :: a) env⟩ ::
        layoutMembers σ a env rest (i + 1)

/-- The offsets of the fields of a struct. -/
def layoutOffsets (σ : Layout) (a : Addr) : CAStructFields → Nat → List Nat
  | .nil, _ => []
  | .cons _ _ rest, i => σ.offset (i :: a) :: layoutOffsets σ a rest (i + 1)

/-- The C rule for the struct at `a`: each member stands at the least multiple of its alignment
behind the previous one, `fieldmaxalign` is the greatest alignment, and the size is the end of the
last member rounded up to it. -/
def StructRule (σ : Layout) (a : Addr) (h : StructHead StructId) (fs : CAStructFields)
    (env : Env) : Prop :=
  let members := layoutMembers σ a (⟨a, h, fs⟩ :: env) fs 0
  ∃ fin, Placed 0 members (layoutOffsets σ a fs 0) fin ∧
    σ.fieldmaxalign a = maxAlignFrom 1 members ∧
      IsLeast {n | fin ≤ n ∧ σ.fieldmaxalign a ∣ n} (σ.size a)

/-- Every struct that is reachable from `D` has the layout of the C rule, and every array the size
of its elements. -/
structure LaidOut (D : CADataType) (σ : Layout) : Prop where
  struct : ∀ {a h fs env}, place D a = some (.struct h fs, env) → StructRule σ a h fs env
  array : ∀ {a e n env}, place D a = some (.array e n, env) →
    σ.size a = n * σ.sizeAt e (0 :: a) env

end CaLang.Types

import CaLang.Lib.Fuel
import CaLang.Types.Syntax
import Mathlib.Data.List.Basic

/-! # The graph of a datatype

The datatypes that are reachable from an unwound one are the places of its tree; a back reference
is the address of an enclosing struct. A place is given by its address, the path to it from the
root, innermost step first, and comes with the structs around it.

- `place`: what stands at an address, and the structs around it;
- `findFrame`: the struct that a back reference points to;
- `place_frame`: the structs around a place stand at the addresses their frames give.
-/

namespace CaLang.Types

/-- The path to a place, innermost step first. -/
abbrev Addr := List Nat

/-- Every module decides the equality of paths by this instance. -/
scoped instance instLawfulBEqAddr : LawfulBEq Addr := inferInstance

/-- An enclosing struct, with its address. -/
structure Frame where
  addr : Addr
  head : StructHead StructId
  fields : CAStructFields

/-- The enclosing structs, innermost first. -/
abbrev Env := List Frame

/-- The struct a back reference points to, and the structs around that. -/
def findFrame (id : StructId) : Env → Option (Frame × Env)
  | [] => none
  | f :: env => if f.head.name? = some id then some (f, env) else findFrame id env

/-- The type of the field `i`. -/
def CAStructFields.get? : CAStructFields → Nat → Option CADataType
  | .nil, _ => none
  | .cons _ t _, 0 => some t
  | .cons _ _ rest, i + 1 => rest.get? i

/-- The fields from `i` on. -/
def CAStructFields.drop : CAStructFields → Nat → CAStructFields
  | fs, 0 => fs
  | .nil, _ + 1 => .nil
  | .cons _ _ rest, i + 1 => rest.drop i

theorem CAStructFields.get?_of_drop {fs : CAStructFields} {i : Nat} {n : Option Name}
    {t : CADataType} {rest : CAStructFields} (h : fs.drop i = .cons n t rest) :
    fs.get? i = some t ∧ fs.drop (i + 1) = rest := by
  induction i generalizing fs with
  | zero =>
      rw [drop] at h
      subst h
      exact ⟨rfl, by simp [drop]⟩
  | succ i ih =>
      cases fs with
      | nil => cases h
      | cons n' t' rest' => exact ih h

theorem CAStructFields.get?_of_drop_nil {fs : CAStructFields} {i j : Nat} (h : fs.drop i = .nil)
    (hj : i ≤ j) : fs.get? j = none := by
  induction i generalizing fs j with
  | zero =>
      rw [drop] at h
      subst h
      cases j <;> rfl
  | succ i ih =>
      cases fs with
      | nil => cases j <;> rfl
      | cons n' t' rest' =>
          obtain ⟨k, rfl⟩ : ∃ k, j = k + 1 := ⟨j - 1, by omega⟩
          exact ih (j := k) h (by omega)

/-- What stands at an address of the tree, and the structs around it. -/
def place (D : CADataType) : Addr → Option (CADataType × Env)
  | [] => some (D, [])
  | i :: a =>
      match place D a with
      | some (.pointer t, env) => if i = 0 then some (t, env) else none
      | some (.array e _, env) => if i = 0 then some (e, env) else none
      | some (.struct h fs, env) => (fs.get? i).map fun t => (t, ⟨a, h, fs⟩ :: env)
      | _ => none

/-- The address of a datatype at a place: that of the struct, for a back reference. -/
def objAddr (t : CADataType) (a : Addr) (env : Env) : Addr :=
  match t with
  | .recur id =>
      match findFrame id env with
      | some (f, _) => f.addr
      | none => a
  | _ => a

section Places

variable {D t : CADataType} {a : Addr} {env env' : Env} {f : Frame}

theorem findFrame_split {id : StructId} (h : findFrame id env = some (f, env')) :
    f.head.name? = some id ∧ ∃ inner, env = inner ++ f :: env' := by
  induction env with
  | nil => cases h
  | cons g env ih =>
      rw [findFrame] at h
      split at h
      · cases h
        exact ⟨by assumption, [], rfl⟩
      · obtain ⟨hn, inner, rfl⟩ := ih h
        exact ⟨hn, g :: inner, rfl⟩

theorem place_pointer {t : CADataType} (h : place D a = some (.pointer t, env)) :
    place D (0 :: a) = some (t, env) := by
  simp [place, h]

theorem place_array {e : CADataType} {n : Nat} (h : place D a = some (.array e n, env)) :
    place D (0 :: a) = some (e, env) := by
  simp [place, h]

theorem place_field {hd : StructHead StructId} {fs : CAStructFields} {i : Nat}
    (h : place D a = some (.struct hd fs, env)) (hi : fs.get? i = some t) :
    place D (i :: a) = some (t, ⟨a, hd, fs⟩ :: env) := by
  simp [place, h, hi]

/-- The structs around a place stand where their frames say, around it in the tree. -/
theorem place_frame {inner : Env} (h : place D a = some (t, inner ++ f :: env)) :
    place D f.addr = some (.struct f.head f.fields, env) ∧ f.addr <:+ a ∧ f.addr ≠ a := by
  induction a generalizing t inner with
  | nil =>
      simp only [place, Option.some.injEq, Prod.mk.injEq] at h
      exact absurd h.2 (by simp)
  | cons i a ih =>
      have hup : ∀ {t' : CADataType} {inner' : Env},
          place D a = some (t', inner' ++ f :: env) →
            place D f.addr = some (.struct f.head f.fields, env) ∧ f.addr <:+ i :: a ∧
              f.addr ≠ i :: a := by
        intro t' inner' h'
        obtain ⟨hp, hsuf, -⟩ := ih h'
        refine ⟨hp, hsuf.trans (List.suffix_cons i a), ?_⟩
        intro heq
        have hlen := hsuf.length_le
        rw [heq, List.length_cons] at hlen
        omega
      rw [place] at h
      split at h
      · rename_i heq
        split at h
        · cases h
          exact hup heq
        · cases h
      · rename_i heq
        split at h
        · cases h
          exact hup heq
        · cases h
      · rename_i hd fs env₀ heq
        obtain ⟨t', -, htt⟩ := Option.map_eq_some_iff.mp h
        have henv : (⟨a, hd, fs⟩ : Frame) :: env₀ = inner ++ f :: env := (Prod.ext_iff.mp htt).2
        cases inner with
        | nil =>
            rw [List.nil_append, List.cons.injEq] at henv
            obtain ⟨rfl, rfl⟩ := henv
            exact ⟨heq, List.suffix_cons i a, by simp⟩
        | cons g inner =>
            rw [List.cons_append, List.cons.injEq] at henv
            obtain ⟨-, rfl⟩ := henv
            exact hup heq
      · cases h

end Places

/-! ### Back references behind pointers -/

mutual
/-- Every back reference is the direct target of a pointer. -/
def CADataType.backBehindPointer : CADataType → Bool
  | .prim _ => true
  | .pointer (.recur _) => true
  | .pointer t => t.backBehindPointer
  | .array e _ => e.backBehindPointer
  | .struct _ fs => fs.backBehindPointer
  | .recur _ => false

def CAStructFields.backBehindPointer : CAStructFields → Bool
  | .nil => true
  | .cons _ t rest => t.backBehindPointer && rest.backBehindPointer
end

theorem backBehindPointer_pointer {t : CADataType}
    (h : (CADataType.pointer t).backBehindPointer = true) :
    t.backBehindPointer = true ∨ ∃ id, t = .recur id := by
  cases t with
  | recur id => exact .inr ⟨id, rfl⟩
  | _ => exact .inl h

theorem backBehindPointer_get? {fs : CAStructFields} (h : fs.backBehindPointer = true) {i : Nat}
    {t : CADataType} (hi : fs.get? i = some t) : t.backBehindPointer = true := by
  induction i generalizing fs with
  | zero =>
      cases fs with
      | nil => cases hi
      | cons n t' rest =>
          cases hi
          simp only [CAStructFields.backBehindPointer, Bool.and_eq_true] at h
          exact h.1
  | succ i ih =>
      cases fs with
      | nil => cases hi
      | cons n t' rest =>
          simp only [CAStructFields.backBehindPointer, Bool.and_eq_true] at h
          exact ih h.2 hi

/-- The places of such a tree: a back reference stands behind a pointer. -/
theorem place_backBehindPointer {D t : CADataType} {a : Addr} {env : Env}
    (hD : D.backBehindPointer = true) (h : place D a = some (t, env)) :
    t.backBehindPointer = true ∨
      ∃ id a' env', t = .recur id ∧ a = 0 :: a' ∧ place D a' = some (.pointer t, env') := by
  induction a generalizing t env with
  | nil =>
      simp only [place, Option.some.injEq, Prod.mk.injEq] at h
      exact .inl (h.1 ▸ hD)
  | cons i a ih =>
      rw [place] at h
      split at h
      · rename_i t' env₀ heq
        split at h
        · rename_i hi
          cases h
          have hp := (ih heq).resolve_right (by rintro ⟨id, -, -, hc, -⟩; cases hc)
          rcases backBehindPointer_pointer hp with ht | ⟨id, rfl⟩
          · exact .inl ht
          · exact .inr ⟨id, a, env, rfl, by rw [hi], heq⟩
        · cases h
      · rename_i e n env₀ heq
        split at h
        · cases h
          exact .inl ((ih heq).resolve_right (by rintro ⟨id, -, -, hc, -⟩; cases hc))
        · cases h
      · rename_i hd fs env₀ heq
        obtain ⟨t', ht', htt⟩ := Option.map_eq_some_iff.mp h
        cases htt
        have hs := (ih heq).resolve_right (by rintro ⟨id, -, -, hc, -⟩; cases hc)
        exact .inl (backBehindPointer_get? hs ht')
      · cases h

/-! ### Walks -/

/-- Why a walk over the graph yields nothing: the compiler ends, crashes or overruns a buffer, or
the fuel is used up. -/
inductive WalkStop
  | crash
  | fuel
  deriving DecidableEq

/-- A run ends, and crashes only if `P` holds. -/
def Ends {α : Type} (P : Prop) (run : Nat → Except WalkStop α) : Prop :=
  ∃ x, Settles run x ∧ x ≠ .error .fuel ∧ (x = .error .crash → P)

namespace Ends

variable {α β : Type} {P : Prop}

theorem ok (a : α) : Ends P fun _ => .ok a :=
  ⟨.ok a, .const _, by simp, by simp⟩

theorem crash (h : P) : Ends P fun _ => (.error .crash : Except WalkStop α) :=
  ⟨.error .crash, .const _, by simp, fun _ => h⟩

theorem step {run run' : Nat → Except WalkStop α} (h : Ends P run)
    (he : ∀ k, run' (k + 1) = run k) : Ends P run' := by
  obtain ⟨x, hx, hend⟩ := h
  exact ⟨x, hx.step he, hend⟩

theorem mono {Q : Prop} {run : Nat → Except WalkStop α} (h : Ends P run) (hpq : P → Q) :
    Ends Q run := by
  obtain ⟨x, hx, hfuel, hcrash⟩ := h
  exact ⟨x, hx, hfuel, fun hx => hpq (hcrash hx)⟩

theorem bind {f : Nat → Except WalkStop α} {g : α → Nat → Except WalkStop β}
    (hf : Ends P f) (hg : ∀ a, Settles f (.ok a) → Ends P (g a)) :
    Ends P fun k => f k >>= fun a => g a k := by
  obtain ⟨x, hx, hfuel, hcrash⟩ := hf
  cases x with
  | error e =>
      have hrun := hx.bind (g := g) (y := fun _ => .error e) fun a ha => by cases ha
      refine ⟨.error e, hrun, fun h => hfuel ?_, fun h => hcrash ?_⟩
      · cases h
        rfl
      · cases h
        rfl
  | ok a =>
      obtain ⟨y, hy, hend⟩ := hg a hx
      exact ⟨y, hx.bind_ok hy, hend⟩

end Ends

end CaLang.Types

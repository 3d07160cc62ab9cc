import CaLang.Lib.CString
import CaLang.Lib.Keyed
import Mathlib.Algebra.Group.Int.Defs
import Mathlib.Algebra.Ring.Nat
import Mathlib.Data.List.Induction

/-! # Interned names

`s_symname_buffer` holds the names one behind the other, each ended by a zero byte, and
`s_symname_name2pos` the offset of each; the offset is the id of the name. **An id is an `int`, an
offset a `size_t`**, and nothing keeps the buffer below `2 ^ 31` bytes.

- `Symnames`, `symnameCheckInsert`, `symnameBinaryCheckInsert`, `symnameCheck`, `symnameGet`;
- `Call`, `run`: a sequence of calls, from `symname_init` on;
- `StableBijection`: what ids are for, over a whole run. It holds of every run that begins each
  stored name before byte `2 ^ 31` (`stableBijection_of_fits`), and not of a longer one.
-/

namespace CaLang.Text

/-- `(int)` of a `size_t`. -/
@[irreducible] def toCInt (n : Nat) : Int := Int.bmod n (2 ^ 32)

theorem toCInt_of_lt {n : Nat} (h : n < 2 ^ 31) : toCInt n = n := by
  unfold toCInt
  rw [Int.bmod_eq_emod_of_lt] <;> omega

/-- `s_symname_buffer` and `s_symname_name2pos`. -/
structure Symnames where
  buffer : List Byte
  name2pos : Keyed (List Byte) Int

namespace Symnames

/-- `symname_init`. -/
def init : Symnames := ⟨[], .empty⟩

/-- `symname_insert`. -/
def symnameInsert (σ : Symnames) (s : List Byte) : Symnames × Int :=
  let bsize := σ.buffer.length
  (⟨σ.buffer ++ strncpy s ++ [0], σ.name2pos.insert s (toCInt bsize)⟩, toCInt bsize)

theorem symnameInsert_id (σ : Symnames) (s : List Byte) :
    (σ.symnameInsert s).2 = toCInt σ.buffer.length := rfl

theorem symnameInsert_name2pos (σ : Symnames) (s : List Byte) :
    (σ.symnameInsert s).1.name2pos = σ.name2pos.insert s (toCInt σ.buffer.length) := rfl

theorem symnameInsert_buffer (σ : Symnames) (s : List Byte) :
    (σ.symnameInsert s).1.buffer = σ.buffer ++ strncpy s ++ [0] := rfl

/-- A string that is inserted unless it is there. -/
def checkInsert (σ : Symnames) (s : List Byte) : Symnames × Int :=
  match σ.name2pos.find s with
  | some id => (σ, id)
  | none => σ.symnameInsert s

/-- `symname_binary_check_insert`, of the first `len` bytes at `name`. -/
def symnameBinaryCheckInsert (σ : Symnames) (name : List Byte) (len : Int) : Symnames × Int :=
  σ.checkInsert (name.take len.toNat)

/-- `symname_check_insert`, of the C string at `name`. -/
def symnameCheckInsert (σ : Symnames) (name : List Byte) : Symnames × Int :=
  σ.checkInsert (cstring name)

theorem symnameBinaryCheckInsert_length (σ : Symnames) (s : List Byte) :
    σ.symnameBinaryCheckInsert s s.length = σ.checkInsert s := by
  rw [symnameBinaryCheckInsert, Int.toNat_natCast, List.take_length]

/-- `symname_check`. -/
def symnameCheck (σ : Symnames) (name : List Byte) : Int :=
  (σ.name2pos.find (cstring name)).getD (-1)

/-- `symname_get`, read as a C string; there is none outside of the buffer. -/
def symnameGet (σ : Symnames) (pos : Int) : Option (List Byte) :=
  if 0 ≤ pos ∧ pos < σ.buffer.length then some (cstring (σ.buffer.drop pos.toNat)) else none

end Symnames

/-! ### Runs -/

/-- A string without zero bytes. -/
abbrev NulFree := {s : List Byte // (0 : Byte) ∉ s}

/-- A call of the interner. -/
inductive Call
  | checkInsert (s : NulFree)
  | binaryCheckInsert (s : NulFree)
  | check (s : NulFree)
  deriving DecidableEq

namespace Call

/-- The string that a call inserts unless it is there. -/
def inserts : Call → Option NulFree
  | checkInsert s | binaryCheckInsert s => some s
  | check _ => none

/-- What a call does. -/
def exec (σ : Symnames) : Call → Symnames × Int
  | checkInsert s => σ.symnameCheckInsert s.1
  | binaryCheckInsert s => σ.symnameBinaryCheckInsert s.1 s.1.length
  | check s => (σ, σ.symnameCheck s.1)

end Call

/-- The state after a sequence of calls. -/
def run (calls : List Call) : Symnames := calls.foldl (fun σ c => (c.exec σ).1) .init

/-- The strings inserted by a sequence of calls. -/
def insertedBy (calls : List Call) : List NulFree := calls.filterMap Call.inserts

/-- A call of a run: the calls before it, and the calls up to a point behind it. -/
structure Occurs (calls before : List Call) (c : Call) (after : List Call) : Prop where
  here : before ++ [c] <+: after
  within : after <+: calls

/-- **Interning is a stable bijection along a run.** -/
structure StableBijection (calls : List Call) : Prop where
  /-- The table only grows. -/
  grows : ∀ {early late}, early <+: late → late <+: calls →
    (run early).buffer <+: (run late).buffer ∧
      ∀ s id, (run early).name2pos.find s = some id → (run late).name2pos.find s = some id
  /-- An id reads back as the string it was returned for, at any later point. -/
  readsBack : ∀ {before c after s}, Occurs calls before c after → c.inserts = some s →
    (run after).symnameGet (c.exec (run before)).2 = some s.1
  /-- Ids are equal when the strings are. -/
  sameId : ∀ {before c after before' c' after' s s'}, Occurs calls before c after →
    Occurs calls before' c' after' → c.inserts = some s → c'.inserts = some s' →
    ((c.exec (run before)).2 = (c'.exec (run before')).2 ↔ s = s')
  /-- `symname_check` finds what has been inserted, under its id, and nothing else. -/
  found : ∀ {before s after}, Occurs calls before (.check s) after →
    ((run before).symnameCheck s.1 ≠ -1 ↔ s ∈ insertedBy before)
  foundAs : ∀ {before c after s after'}, Occurs calls before c after → c.inserts = some s →
    Occurs calls after (.check s) after' →
    (run after).symnameCheck s.1 = (c.exec (run before)).2

/-- **The condition**: a call that stores a new string finds less than `2 ^ 31` bytes in the
buffer. -/
def Fits (calls : List Call) : Prop :=
  ∀ {before c s}, before ++ [c] <+: calls → c.inserts = some s → s ∉ insertedBy before →
    (run before).buffer.length < 2 ^ 31

variable {calls before after : List Call} {c : Call} {s t : NulFree} {σ σ' : Symnames} {id : Int}

theorem run_concat : run (calls ++ [c]) = (c.exec (run calls)).1 := by
  unfold run
  rw [List.foldl_append, List.foldl_cons, List.foldl_nil]

theorem mem_insertedBy_concat :
    s ∈ insertedBy (calls ++ [c]) ↔ s ∈ insertedBy calls ∨ c.inserts = some s := by
  unfold insertedBy
  rw [List.filterMap_append, List.mem_append, List.mem_filterMap, List.mem_filterMap]
  simp

theorem Call.exec_inserts (h : c.inserts = some s) :
    c.exec σ = σ.checkInsert s.1 := by
  cases c with
  | checkInsert t =>
      cases h
      rw [exec, Symnames.symnameCheckInsert, cstring_of_no_zero s.2]
  | binaryCheckInsert t =>
      cases h
      exact σ.symnameBinaryCheckInsert_length s.1
  | check t => cases h

theorem Call.exec_check (h : c.inserts = none) : (c.exec σ).1 = σ := by
  cases c with
  | check t => rfl
  | _ => cases h

/-! ### What a name is stored as -/

/-- What `strncpy` makes of the string, and a zero byte, stand at the id. -/
def Stored (σ : Symnames) (w : List Byte) (id : Int) : Prop :=
  0 ≤ id ∧ ∃ post, σ.buffer.drop id.toNat = strncpy w ++ 0 :: post

theorem Stored.toNat_lt {w : List Byte} (h : Stored σ w id) : id.toNat < σ.buffer.length := by
  obtain ⟨-, post, hd⟩ := h
  by_contra hle
  rw [List.drop_eq_nil_of_le (by omega)] at hd
  exact List.append_ne_nil_of_right_ne_nil (strncpy w) (List.cons_ne_nil 0 post) hd.symm

theorem Stored.get {w : List Byte} (h : Stored σ w id) :
    σ.symnameGet id = some (cstring w) := by
  have hlt := h.toNat_lt
  obtain ⟨hid, post, hd⟩ := h
  rw [Symnames.symnameGet, if_pos ⟨hid, by omega⟩, hd, cstring_strncpy_append]

theorem Stored.mono {w : List Byte} (h : Stored σ w id) (hb : σ.buffer <+: σ'.buffer) :
    Stored σ' w id := by
  have hlt := h.toNat_lt
  obtain ⟨hid, post, hd⟩ := h
  obtain ⟨more, hb⟩ := hb
  refine ⟨hid, post ++ more, ?_⟩
  rw [← hb, List.drop_append_of_le_length hlt.le, hd, List.append_assoc, List.cons_append]

/-- A string that is stored new stands at the end of the buffer. -/
theorem stored_symnameInsert (w : List Byte) (hlt : σ.buffer.length < 2 ^ 31) :
    Stored (σ.symnameInsert w).1 w (σ.symnameInsert w).2 := by
  rw [Symnames.symnameInsert_id, toCInt_of_lt hlt]
  refine ⟨Int.natCast_nonneg _, [], ?_⟩
  rw [Int.toNat_natCast, Symnames.symnameInsert_buffer, List.append_assoc, List.drop_left]

/-- Every string of the table is stored at its id. -/
def AllStored (σ : Symnames) : Prop :=
  ∀ w id, σ.name2pos.find w = some id → Stored σ w id

theorem allStored_init : AllStored .init := fun _ _ h => by cases h

namespace Symnames

theorem buffer_prefix_checkInsert (σ : Symnames) (w : List Byte) :
    σ.buffer <+: (σ.checkInsert w).1.buffer := by
  unfold checkInsert
  split
  · exact List.prefix_rfl
  · rw [symnameInsert_buffer, List.append_assoc]
    exact List.prefix_append _ _

theorem find_checkInsert {w v : List Byte} (h : σ.name2pos.find v = some id) :
    (σ.checkInsert w).1.name2pos.find v = some id := by
  unfold checkInsert
  split
  · exact h
  · rename_i hf
    have hne : v ≠ w := by
      rintro rfl
      rw [hf] at h
      cases h
    rw [symnameInsert_name2pos, Keyed.find_insert_ne hne]
    exact h

/-- The id that is returned is the one found afterwards. -/
theorem find_checkInsert_self (σ : Symnames) (w : List Byte) :
    (σ.checkInsert w).1.name2pos.find w =
      some (σ.checkInsert w).2 := by
  unfold checkInsert
  split
  · assumption
  · rename_i hf
    rw [symnameInsert_name2pos, symnameInsert_id, Keyed.find_insert_self, hf, Option.getD_none]

theorem find_of_checkInsert {w v : List Byte} (hne : v ≠ w) :
    (σ.checkInsert w).1.name2pos.find v = σ.name2pos.find v := by
  unfold checkInsert
  split
  · rfl
  · rw [symnameInsert_name2pos, Keyed.find_insert_ne hne]

theorem length_buffer_checkInsert (σ : Symnames) (w : List Byte) :
    (σ.checkInsert w).1.buffer.length ≤ σ.buffer.length + (w.length + 1) := by
  unfold checkInsert
  split
  · exact Nat.le_add_right _ _
  · rw [symnameInsert_buffer]
    simp only [List.length_append, length_strncpy, List.length_singleton]
    omega

end Symnames

/-- **The step**: inserting a string leaves every string stored at its id. -/
theorem AllStored.checkInsert {w : List Byte} (h : AllStored σ)
    (hfits : σ.name2pos.find w = none → σ.buffer.length < 2 ^ 31) :
    AllStored (σ.checkInsert w).1 := by
  intro v id hv
  by_cases hvw : v = w
  · subst hvw
    obtain rfl : _ = id :=
      Option.some.inj ((Symnames.find_checkInsert_self σ v).symm.trans hv)
    unfold Symnames.checkInsert
    split
    · rename_i hf
      exact h _ _ hf
    · rename_i hf
      exact stored_symnameInsert v (hfits hf)
  · rw [Symnames.find_of_checkInsert hvw] at hv
    exact (h _ _ hv).mono (Symnames.buffer_prefix_checkInsert σ w)

/-! ### The invariant -/

/-- The names of the table are the strings inserted, each stored at its id. -/
structure Names (calls : List Call) (σ : Symnames) : Prop where
  find_isSome : ∀ s : NulFree, (σ.name2pos.find s.1).isSome ↔ s ∈ insertedBy calls
  stored : AllStored σ

theorem names_init : Names [] .init where
  find_isSome s := by simp [Symnames.init, insertedBy]
  stored := allStored_init

theorem buffer_prefix_exec (c : Call) (σ : Symnames) : σ.buffer <+: (c.exec σ).1.buffer := by
  cases hc : c.inserts with
  | none =>
      rewrite [Call.exec_check hc]
      exact List.prefix_rfl
  | some s =>
      rw [Call.exec_inserts hc]
      exact σ.buffer_prefix_checkInsert s.1

theorem find_exec {w : List Byte} (c : Call) (h : σ.name2pos.find w = some id) :
    (c.exec σ).1.name2pos.find w = some id := by
  cases hc : c.inserts with
  | none =>
      rw [Call.exec_check hc]
      exact h
  | some s =>
      rw [Call.exec_inserts hc]
      exact Symnames.find_checkInsert h

theorem find_exec_inserts (h : c.inserts = some s) :
    (c.exec σ).1.name2pos.find s.1 = some (c.exec σ).2 := by
  rw [Call.exec_inserts h]
  exact σ.find_checkInsert_self s.1

/-- **The step**: a call keeps the invariant. -/
theorem Names.exec (h : Names calls σ)
    (hfits : ∀ s, c.inserts = some s → s ∉ insertedBy calls → σ.buffer.length < 2 ^ 31) :
    Names (calls ++ [c]) (c.exec σ).1 := by
  cases hc : c.inserts with
  | none =>
      rw [Call.exec_check hc]
      refine ⟨?_, h.stored⟩
      intro s
      rw [mem_insertedBy_concat, hc, h.find_isSome s]
      simp
  | some t =>
      refine ⟨?_, ?_⟩
      · intro s
        rw [mem_insertedBy_concat, hc, ← h.find_isSome s]
        by_cases hst : s = t
        · subst hst
          simp [find_exec_inserts hc]
        · have hne : s.1 ≠ t.1 := fun he => hst (Subtype.ext he)
          rw [Call.exec_inserts hc, Symnames.find_of_checkInsert hne]
          simp [Ne.symm hst]
      · rw [Call.exec_inserts hc]
        refine h.stored.checkInsert fun hf => hfits t hc ?_
        rw [← h.find_isSome t, hf]
        exact Bool.false_ne_true

/-- **The run**: the invariant holds after every part of a run that fits. -/
theorem Fits.names (hf : Fits calls) : ∀ {part}, part <+: calls → Names part (run part) := by
  intro part
  induction part using List.reverseRecOn with
  | nil => exact fun _ => names_init
  | append_singleton part c ih =>
      intro hp
      rw [run_concat]
      exact (ih ((List.prefix_append _ _).trans hp)).exec fun s hs hnew => hf hp hs hnew

theorem grows_run (h : before <+: after) :
    (run before).buffer <+: (run after).buffer ∧
      ∀ w id, (run before).name2pos.find w = some id → (run after).name2pos.find w = some id := by
  obtain ⟨more, rfl⟩ := h
  induction more using List.reverseRecOn with
  | nil =>
      rw [List.append_nil]
      exact ⟨List.prefix_rfl, fun _ _ h => h⟩
  | append_singleton more c ih =>
      rw [← List.append_assoc, run_concat]
      exact ⟨ih.1.trans (buffer_prefix_exec c _), fun w id h => find_exec c (ih.2 w id h)⟩

theorem Occurs.find (h : Occurs calls before c after) (hs : c.inserts = some s) :
    (run after).name2pos.find s.1 = some (c.exec (run before)).2 := by
  refine (grows_run h.here).2 s.1 _ ?_
  rw [run_concat]
  exact find_exec_inserts hs

/-- **Interning is a stable bijection along every run that fits.** -/
theorem stableBijection_of_fits (hf : Fits calls) : StableBijection calls where
  grows h _ := grows_run h
  readsBack {_ _ _ s} h hs := by
    have hget := ((hf.names h.within).stored _ _ (h.find hs)).get
    rwa [cstring_of_no_zero s.2] at hget
  sameId := by
    intro before c after before' c' after' s s' h h' hs hs'
    have hall : calls <+: calls := List.prefix_rfl
    have hfind := Occurs.find ⟨h.here.trans h.within, hall⟩ hs
    have hfind' := Occurs.find ⟨h'.here.trans h'.within, hall⟩ hs'
    constructor
    · intro hid
      have hget := ((hf.names hall).stored _ _ hfind).get
      have hget' := ((hf.names hall).stored _ _ hfind').get
      rw [cstring_of_no_zero s.2] at hget
      rw [cstring_of_no_zero s'.2] at hget'
      rw [hid, hget'] at hget
      exact Subtype.ext (Option.some.inj hget).symm
    · rintro rfl
      exact Option.some.inj (hfind.symm.trans hfind')
  found := by
    intro before s after h
    have hn := hf.names ((List.prefix_append _ _).trans (h.here.trans h.within))
    rw [← hn.find_isSome s, Symnames.symnameCheck, cstring_of_no_zero s.2]
    cases hfind : (run before).name2pos.find s.1 with
    | none => simp
    | some id =>
        have hid := (hn.stored _ _ hfind).1
        simp only [Option.getD_some, Option.isSome_some, iff_true]
        omega
  foundAs := by
    intro before c after s after' h hs h'
    rw [Symnames.symnameCheck, cstring_of_no_zero s.2, h.find hs]
    rfl

theorem length_buffer_exec (c : Call) (σ : Symnames) :
    (c.exec σ).1.buffer.length ≤ σ.buffer.length + (c.inserts.elim 0 (·.1.length + 1)) := by
  cases hc : c.inserts with
  | none => rw [Call.exec_check hc, Option.elim_none, Nat.add_zero]
  | some s =>
      rw [Call.exec_inserts hc, Option.elim_some]
      exact σ.length_buffer_checkInsert s.1

/-- The buffer is no longer than the strings inserted, each with its zero byte. -/
theorem length_buffer_run :
    (run calls).buffer.length ≤ ((insertedBy calls).map (·.1.length + 1)).sum := by
  induction calls using List.reverseRecOn with
  | nil => exact Nat.le_refl 0
  | append_singleton calls c ih =>
      have hc := length_buffer_exec c (run calls)
      rw [run_concat, insertedBy, List.filterMap_append, List.map_append, List.sum_append]
      refine hc.trans (Nat.add_le_add ih ?_)
      cases h : c.inserts with
      | none => exact Nat.zero_le _
      | some s => simp [h]

/-- Less than `2 ^ 31` bytes of strings always fit. -/
theorem fits_of_length (h : ((insertedBy calls).map (·.1.length + 1)).sum < 2 ^ 31) :
    Fits calls := by
  intro before c s hp hs _
  obtain ⟨more, hmore⟩ := hp
  refine length_buffer_run.trans_lt (lt_of_le_of_lt ?_ h)
  rw [← hmore, insertedBy, insertedBy, List.filterMap_append, List.filterMap_append,
    List.map_append, List.map_append, List.sum_append, List.sum_append, Nat.add_assoc]
  exact Nat.le_add_right _ _

def nameA : NulFree := ⟨[97], by decide⟩

def nameAB : NulFree := ⟨[97, 98], by decide⟩

theorem stableBijection_two :
    StableBijection [.checkInsert nameAB, .check nameA, .binaryCheckInsert nameA] :=
  stableBijection_of_fits (fits_of_length (by decide))

/-! ### Behind `2 ^ 31` bytes -/

/-- A new name that begins behind the range of `int` has a negative id, which reads nothing. -/
theorem not_readsBack (hlo : 2 ^ 31 ≤ s.1.length + 1) (hhi : s.1.length + 1 < 2 ^ 32)
    (hne : s ≠ t) : ¬ StableBijection [.checkInsert s, .checkInsert t] := by
  intro h
  have hoccurs : Occurs [.checkInsert s, .checkInsert t] [.checkInsert s] (.checkInsert t)
      [.checkInsert s, .checkInsert t] := ⟨List.prefix_rfl, List.prefix_rfl⟩
  have hread := h.readsBack hoccurs rfl
  have hfirst : run [.checkInsert s] = (Symnames.init.symnameInsert s.1).1 :=
    congrArg Prod.fst (Call.exec_inserts rfl)
  have hnone : (run [.checkInsert s]).name2pos.find t.1 = none := by
    rw [hfirst, Symnames.symnameInsert_name2pos,
      Keyed.find_insert_ne fun he => hne (Subtype.ext he.symm)]
    rfl
  have hlen : (run [.checkInsert s]).buffer.length = s.1.length + 1 := by
    rw [hfirst, Symnames.symnameInsert_buffer]
    simp [Symnames.init]
  have hid : ((Call.checkInsert t).exec (run [.checkInsert s])).2 = toCInt (s.1.length + 1) := by
    rw [Call.exec_inserts rfl, Symnames.checkInsert, hnone,
      Symnames.symnameInsert_id, hlen]
  have hneg : toCInt (s.1.length + 1) < 0 := by
    unfold toCInt
    rw [Int.bmod_def]
    split <;> omega
  rw [hid, Symnames.symnameGet, if_neg (by omega)] at hread
  cases hread

/-- A name of `n` letters. -/
def letters (n : Nat) : NulFree :=
  ⟨List.replicate n 97, fun h => absurd (List.eq_of_mem_replicate h) (by decide)⟩

theorem length_letters (n : Nat) : (letters n).1.length = n := List.length_replicate

theorem not_stableBijection_letters {n : Nat} (hlo : 2 ^ 31 ≤ n + 1) (hhi : n + 1 < 2 ^ 32) :
    ¬ StableBijection [.checkInsert (letters n), .checkInsert (letters 1)] := by
  have hlen := length_letters n
  apply not_readsBack (by omega) (by omega)
  intro h
  rw [h, length_letters] at hlen
  omega

theorem not_stableBijection :
    ¬ StableBijection [.checkInsert (letters (2 ^ 31 - 1)), .checkInsert (letters 1)] :=
  not_stableBijection_letters (by decide) (by decide)

end CaLang.Text

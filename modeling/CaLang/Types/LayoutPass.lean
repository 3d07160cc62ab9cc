import CaLang.Types.Hygiene
import CaLang.Types.Layout
import Mathlib.Data.Set.Insert

/-! # What the layout pass leaves behind

A struct that is entered again gets a wrong size, since the field on the way to it is skipped.
**The wrong values are overwritten when the first entry ends, and nobody has read them when every
back reference stands directly behind a pointer**: a pointer does not read the size of its target.

The invariant of the pass (`Pass`): with the places `O` that are being laid out,

- what is right outside of `O` stays right, and so do the offsets in front of a skipped field;
- a place outside of `O` is right afterwards, with all that is below.
-/

namespace CaLang.Types

/-! ### The layout by recursion on the datatype -/

mutual
/-- Size and alignment of a datatype without back references by value. -/
def CADataType.member : CADataType → Member
  | .prim p => ⟨p.size, p.size⟩
  | .pointer _ => ⟨8, 8⟩
  | .array e n => ⟨n * e.member.size, e.member.align⟩
  | .struct _ fs =>
      ⟨alignUp (endFrom 0 fs.members) (maxAlignFrom 1 fs.members), maxAlignFrom 1 fs.members⟩
  | .recur _ => ⟨0, 0⟩

def CAStructFields.members : CAStructFields → List Member
  | .nil => []
  | .cons _ t rest => t.member :: rest.members
end

mutual
/-- No size by this rule, here or behind a pointer, is too large for a `size_t`. -/
def CADataType.sizesFit : CADataType → Bool
  | .prim _ | .recur _ => true
  | .pointer t => t.sizesFit
  | .array e n => e.sizesFit && decide (n * e.member.size < 18446744073709551616)
  | .struct _ fs => fs.sizesFit &&
      decide (alignUp (endFrom 0 fs.members) (maxAlignFrom 1 fs.members) < 18446744073709551616)

def CAStructFields.sizesFit : CAStructFields → Bool
  | .nil => true
  | .cons _ t rest => t.sizesFit && rest.sizesFit
end

theorem sizesFit_get? {fs : CAStructFields} (h : fs.sizesFit = true) {i : Nat} {t : CADataType}
    (hi : fs.get? i = some t) : t.sizesFit = true := by
  induction i generalizing fs with
  | zero =>
      cases fs with
      | nil => cases hi
      | cons n t' rest =>
          cases hi
          exact (Bool.and_eq_true_iff.mp h).1
  | succ i ih =>
      cases fs with
      | nil => cases hi
      | cons n t' rest => exact ih (Bool.and_eq_true_iff.mp h).2 hi

theorem place_sizesFit {D t : CADataType} {a : Addr} {env : Env} (hD : D.sizesFit = true)
    (h : place D a = some (t, env)) : t.sizesFit = true := by
  induction a generalizing t env with
  | nil =>
      cases h
      exact hD
  | cons i a ih =>
      rw [place] at h
      split at h
      · rename_i t' env' hp
        split at h
        · cases h
          have htarget := ih hp
          exact htarget
        · cases h
      · rename_i e n env' hp
        split at h
        · cases h
          exact (Bool.and_eq_true_iff.mp (ih hp)).1
        · cases h
      · rename_i hd fs env' hp
        obtain ⟨t', ht, heq⟩ := Option.map_eq_some_iff.mp h
        cases heq
        exact sizesFit_get? (Bool.and_eq_true_iff.mp (ih hp)).1 ht
      · cases h

theorem CAStructFields.getElem?_members {fs : CAStructFields} {i : Nat} {t : CADataType}
    (h : fs.get? i = some t) : fs.members[i]? = some t.member := by
  induction i generalizing fs with
  | zero =>
      cases fs with
      | nil => cases h
      | cons n t' rest =>
          cases h
          rfl
  | succ i ih =>
      cases fs with
      | nil => cases h
      | cons n t' rest => exact ih h

theorem CAStructFields.take_members_succ {fs : CAStructFields} {i : Nat} {t : CADataType}
    (h : fs.get? i = some t) : fs.members.take (i + 1) = fs.members.take i ++ [t.member] := by
  rw [List.take_add_one, getElem?_members h]
  rfl

/-! ### Right values -/

/-- What is written at a place is right. -/
def RightAt (σ : Layout) (a : Addr) (t : CADataType) : Prop :=
  match t with
  | .array _ _ => σ.size a = t.member.size
  | .struct _ _ => σ.size a = t.member.size ∧ σ.fieldmaxalign a = t.member.align
  | _ => True

/-- The offset of field `i` is right, and its type has an alignment. -/
def OffsetAt (σ : Layout) (a : Addr) (fs : CAStructFields) (i : Nat) : Prop :=
  ∀ t, fs.get? i = some t → 0 < t.member.align ∧
    σ.offset (i :: a) = alignUp (endFrom 0 (fs.members.take i)) t.member.align

def SizeRight (D : CADataType) (σ : Layout) (a : Addr) : Prop :=
  ∀ t env, place D a = some (t, env) → RightAt σ a t

def OffsetRight (D : CADataType) (σ : Layout) (a : Addr) (i : Nat) : Prop :=
  ∀ h fs env, place D a = some (.struct h fs, env) → OffsetAt σ a fs i

/-- Everything at and below a place is right. -/
def RightBelow (D : CADataType) (σ : Layout) (a : Addr) : Prop :=
  ∀ b, a <:+ b → SizeRight D σ b ∧ ∀ i, OffsetRight D σ b i

section Right

variable {D t : CADataType} {σ σ' : Layout} {a b : Addr} {env : Env} {i : Nat}

theorem place_of_suffix {x : CADataType × Env} (h : place D b = some x) (hs : a <:+ b) :
    ∃ y, place D a = some y := by
  induction b generalizing x with
  | nil =>
      rw [List.suffix_nil.mp hs]
      exact ⟨x, h⟩
  | cons i b ih =>
      rcases List.suffix_cons_iff.mp hs with rfl | hs'
      · exact ⟨x, h⟩
      · rw [place] at h
        cases hb : place D b with
        | none =>
            rw [hb] at h
            cases h
        | some y => exact ih hb hs'

theorem suffix_iff_exists_cons : a <:+ b ↔ b = a ∨ ∃ i, i :: a <:+ b := by
  constructor
  · rintro ⟨l, rfl⟩
    rcases List.eq_nil_or_concat l with rfl | ⟨l, i, rfl⟩
    · exact .inl rfl
    · exact .inr ⟨i, l, by simp⟩
  · rintro (rfl | ⟨i, hs⟩)
    · exact List.suffix_rfl
    · exact (List.suffix_cons i a).trans hs

/-- The places below one are those below the next step. -/
theorem RightBelow.of_cons (hs : SizeRight D σ a) (ho : ∀ i, OffsetRight D σ a i)
    (h : ∀ i y, place D (i :: a) = some y → RightBelow D σ (i :: a)) : RightBelow D σ a := by
  intro b hb
  rcases suffix_iff_exists_cons.mp hb with rfl | ⟨i, hi⟩
  · exact ⟨hs, ho⟩
  · refine ⟨?_, ?_⟩
    · intro t env hp
      obtain ⟨y, hy⟩ := place_of_suffix hp hi
      exact (h i y hy b hi).1 t env hp
    · intro j hd fs env hp
      obtain ⟨y, hy⟩ := place_of_suffix hp hi
      exact (h i y hy b hi).2 j hd fs env hp

/-- The end of the first members is in front of that of all. -/
theorem endFrom_take_lt {h : StructHead StructId} {fs : CAStructFields}
    (hp : (CADataType.struct h fs).sizesFit = true) (n : Nat) :
    endFrom 0 (fs.members.take n) < 18446744073709551616 := by
  have hsize := of_decide_eq_true (Bool.and_eq_true_iff.mp hp).2
  have hup := le_alignUp (endFrom 0 fs.members) (maxAlignFrom 1 fs.members)
  have htake : endFrom 0 (fs.members.take n) ≤ endFrom 0 fs.members := by
    conv_rhs => rw [← List.take_append_drop n fs.members, endFrom_append]
    exact le_endFrom _ _
  omega

theorem objAddr_of_back (ht : t.backBehindPointer = true) : objAddr t a env = a := by
  cases t with
  | recur id => cases ht
  | _ => rfl

theorem sizeAt_right (ht : t.backBehindPointer = true) (h : RightAt σ a t) :
    σ.sizeAt t a env = t.member.size := by
  cases t with
  | prim p => rfl
  | pointer t => rfl
  | array e n => exact h
  | struct hd fs => exact h.1
  | recur id => cases ht

theorem catypeGetFieldAlign_right (t : CADataType) {a : Addr} (ht : t.backBehindPointer = true)
    (hp : place D a = some (t, env)) (h : RightBelow D σ a) :
    catypeGetFieldAlign σ t a env = t.member.align := by
  cases t with
  | prim p => rfl
  | pointer t => rfl
  | array e n =>
      have hb : RightBelow D σ (0 :: a) := fun b hs => h b ((List.suffix_cons 0 a).trans hs)
      exact catypeGetFieldAlign_right e ht (place_array hp) hb
  | struct hd fs => exact ((h a List.suffix_rfl).1 _ _ hp).2
  | recur id => cases ht

end Right

/-! ### The places that are being laid out -/

/-- The places `O` on the way of the pass, and its `rcheck`: the fields among them are in `rcheck`,
and the structs of the fields in `rcheck` are among them. -/
structure Open (D : CADataType) (rcheck : List Addr) (O : Set Addr) : Prop where
  up : ∀ {i b}, i :: b ∈ O → b ∈ O
  field : ∀ {i b h fs env}, i :: b ∈ O → place D b = some (.struct h fs, env) → i :: b ∈ rcheck
  parent : ∀ {i b h fs env}, i :: b ∈ rcheck → place D b = some (.struct h fs, env) → b ∈ O

/-- The pass may enter a place: the way to it is open. -/
structure Enter (D : CADataType) (rcheck : List Addr) (O : Set Addr) (a : Addr) : Prop
    extends Open D rcheck O where
  way : ∀ {i b}, a = i :: b → b ∈ O
  self : ∀ {i b h fs env}, a = i :: b → place D b = some (.struct h fs, env) → a ∈ rcheck

/-- What is kept: the right values outside of `O`, and the right offsets in front of a field in
`rcheck`. -/
structure Kept (D : CADataType) (rcheck : List Addr) (O : Set Addr) (σ σ' : Layout) : Prop where
  size : ∀ b ∉ O, SizeRight D σ b → SizeRight D σ' b
  offset : ∀ b i, (∀ j ≤ i, j :: b ∉ rcheck) → OffsetRight D σ b i → OffsetRight D σ' b i

section Open

variable {D : CADataType} {rcheck : List Addr} {O : Set Addr} {a b : Addr} {σ σ' : Layout}

theorem Open.suffix (h : Open D rcheck O) (hb : b ∈ O) (hs : a <:+ b) : a ∈ O := by
  induction b with
  | nil =>
      rw [List.suffix_nil.mp hs]
      exact hb
  | cons i b ih =>
      rcases List.suffix_cons_iff.mp hs with rfl | hs'
      · exact hb
      · exact ih (h.up hb) hs'

theorem Enter.opened (h : Enter D rcheck O a) : Open D rcheck (insert a O) where
  up := by
    rintro i b (hb | hb)
    · exact .inr (h.way hb.symm)
    · exact .inr (h.up hb)
  field := by
    rintro i b hd fs env (hb | hb) hp
    · exact hb ▸ h.self hb.symm hp
    · exact h.field hb hp
  parent := fun hm hp => .inr (h.parent hm hp)

/-- Below a place outside of `O`, all that is right stays right. -/
theorem Kept.rightBelow (hk : Kept D rcheck O σ σ') (ho : Open D rcheck O) (ha : a ∉ O)
    (h : RightBelow D σ a) : RightBelow D σ' a := by
  intro b hb
  have hbO : b ∉ O := fun hm => ha (ho.suffix hm hb)
  refine ⟨hk.size b hbO (h b hb).1, ?_⟩
  intro i hd fs env hp
  exact hk.offset b i (fun j _ hm => hbO (ho.parent hm hp)) ((h b hb).2 i) hd fs env hp

end Open

/-! ### The loop over the fields -/

/-- What the pass does at a place. -/
def Pass (D : CADataType) (pass : LayoutPass) : Prop :=
  ∀ ⦃t a env rcheck σ σ' O⦄, place D a = some (t, env) → t.backBehindPointer = true →
    Enter D rcheck O a → pass t a env rcheck σ = .ok σ' →
      Kept D rcheck O σ σ' ∧ (a ∉ O → RightBelow D σ' a)

/-- The loop over the fields of the struct at `a`, in front of field `i`. The variables of the loop
and the fields behind are right as long as no field has been skipped. -/
structure AtField (D : CADataType) (rcheck : List Addr) (O : Set Addr) (a : Addr)
    (fs : CAStructFields) (σ : Layout) (i : Nat) (s : FieldLoop) : Prop where
  size : ∀ b ∉ O, SizeRight D σ b → SizeRight D s.layout b
  offset : ∀ b j, b ≠ a → (∀ k ≤ j, k :: b ∉ rcheck) → OffsetRight D σ b j →
    OffsetRight D s.layout b j
  placed : ∀ j < i, (∀ k ≤ j, k :: a ∉ rcheck) → OffsetAt s.layout a fs j
  fin : (∀ k < i, k :: a ∉ rcheck) → s.offset = endFrom 0 (fs.members.take i)
  align : (∀ k < i, k :: a ∉ rcheck) → s.maxalign = maxAlignFrom 1 (fs.members.take i)
  below : (∀ k < i, k :: a ∉ rcheck) → ∀ j < i, RightBelow D s.layout (j :: a)

section Loop

variable {D t : CADataType} {rcheck : List Addr} {O : Set Addr} {a : Addr} {fs : CAStructFields}
  {h : StructHead StructId} {env : Env} {σ τ : Layout} {i : Nat} {s s' : FieldLoop}

theorem AtField.start (σ : Layout) : AtField D rcheck O a fs σ 0 ⟨σ, 0, 1⟩ where
  size _ _ h := h
  offset _ _ _ _ h := h
  placed _ hj := absurd hj (Nat.not_lt_zero _)
  fin _ := rfl
  align _ := rfl
  below _ _ hj := absurd hj (Nat.not_lt_zero _)

theorem AtField.skip (hs : AtField D rcheck O a fs σ i s) (hi : i :: a ∈ rcheck) :
    AtField D rcheck O a fs σ (i + 1) s where
  size := hs.size
  offset := hs.offset
  placed j hj hfree := by
    rcases Nat.lt_succ_iff_lt_or_eq.mp hj with hj | rfl
    · exact hs.placed j hj hfree
    · exact absurd hi (hfree j le_rfl)
  fin hfree := absurd hi (hfree i (Nat.lt_succ_self i))
  align hfree := absurd hi (hfree i (Nat.lt_succ_self i))
  below hfree := absurd hi (hfree i (Nat.lt_succ_self i))

theorem SizeRight.of_eq {σ σ' : Layout} {b : Addr} (hsize : σ'.size b = σ.size b)
    (halign : σ'.fieldmaxalign b = σ.fieldmaxalign b) (h : SizeRight D σ b) : SizeRight D σ' b := by
  intro t env hp
  have ht := h t env hp
  unfold RightAt at ht ⊢
  split
  · exact hsize.trans ht
  · exact ⟨hsize.trans ht.1, halign.trans ht.2⟩
  · trivial

theorem OffsetRight.of_eq {σ σ' : Layout} {b : Addr} {j : Nat}
    (hoff : σ'.offset (j :: b) = σ.offset (j :: b)) (h : OffsetRight D σ b j) :
    OffsetRight D σ' b j :=
  fun hd fs env hp t ht => ⟨(h hd fs env hp t ht).1, hoff.trans (h hd fs env hp t ht).2⟩

theorem FieldLoop.place_eq_ok {env : Env} (h : s.place τ t (i :: a) env = .ok s') :
    0 < catypeGetFieldAlign τ t (i :: a) env ∧
      s'.layout = τ.setOffset (i :: a)
        (sizeT (alignUp s.offset (catypeGetFieldAlign τ t (i :: a) env))) ∧
      s'.offset = sizeT (sizeT (alignUp s.offset (catypeGetFieldAlign τ t (i :: a) env)) +
        τ.sizeAt t (i :: a) env) ∧
      s'.maxalign = max s.maxalign (catypeGetFieldAlign τ t (i :: a) env) := by
  unfold FieldLoop.place at h
  dsimp only at h
  split at h
  · cases h
  · rename_i hne
    cases h
    exact ⟨Nat.pos_of_ne_zero hne, rfl, rfl, rfl⟩

theorem setOffset_of_ne {b : Addr} {j v : Nat} (h : j :: b ≠ i :: a) :
    (τ.setOffset (i :: a) v).offset (j :: b) = τ.offset (j :: b) :=
  Function.update_of_ne h _ _

theorem RightBelow.setOffset {j v : Nat} (hr : RightBelow D τ (j :: a)) :
    RightBelow D (τ.setOffset (i :: a) v) (j :: a) := by
  intro b hb
  refine ⟨(hr b hb).1.of_eq rfl rfl, fun k => ((hr b hb).2 k).of_eq (setOffset_of_ne ?_)⟩
  intro heq
  have hlen := hb.length_le
  rw [(List.cons.inj heq).2, List.length_cons] at hlen
  omega

theorem OffsetAt.of_eq {τ' : Layout} {j : Nat} (hoff : τ'.offset (j :: a) = τ.offset (j :: a))
    (ho : OffsetAt τ a fs j) : OffsetAt τ' a fs j :=
  fun t ht => ⟨(ho t ht).1, hoff.trans (ho t ht).2⟩

theorem Open.enterField (hO : Open D rcheck O) (ha : a ∈ O) :
    Enter D ((i :: a) :: rcheck) O (i :: a) where
  up := hO.up
  field hb hp := List.mem_cons_of_mem _ (hO.field hb hp)
  parent := by
    intro j b hd fs env hm hp
    rcases List.mem_cons.mp hm with heq | hm
    · exact (List.cons.inj heq).2 ▸ ha
    · exact hO.parent hm hp
  way heq := (List.cons.inj heq).2 ▸ ha
  self _ _ := List.mem_cons_self

/-- One field that is not in `rcheck`. -/
theorem AtField.lay {pass : LayoutPass} (hfit : D.sizesFit = true) (hpass : Pass D pass)
    (hp : place D a = some (.struct h fs, env)) (hback : fs.backBehindPointer = true)
    (hO : Open D rcheck O) (ha : a ∈ O) (hs : AtField D rcheck O a fs σ i s)
    (hi : fs.get? i = some t) (hni : i :: a ∉ rcheck)
    (hrun : pass t (i :: a) (⟨a, h, fs⟩ :: env) ((i :: a) :: rcheck) s.layout = .ok τ)
    (hplace : s.place τ t (i :: a) (⟨a, h, fs⟩ :: env) = .ok s') :
    AtField D rcheck O a fs σ (i + 1) s' := by
  have ht := backBehindPointer_get? hback hi
  have hpi := place_field hp hi
  have hent : Enter D ((i :: a) :: rcheck) O (i :: a) := hO.enterField ha
  obtain ⟨hkept, hright⟩ := hpass hpi ht hent hrun
  have hri : RightBelow D τ (i :: a) := hright fun hm => hni (hO.field hm hp)
  obtain ⟨hpos, hlayout, hoffset, hmax⟩ := FieldLoop.place_eq_ok hplace
  rw [catypeGetFieldAlign_right t ht hpi hri] at hpos hlayout hoffset hmax
  rw [sizeAt_right ht ((hri _ List.suffix_rfl).1 _ _ hpi)] at hoffset
  have hmem := CAStructFields.take_members_succ hi
  -- nothing wraps around
  have hroom : (∀ k < i, k :: a ∉ rcheck) →
      alignUp s.offset t.member.align + t.member.size < 18446744073709551616 := by
    intro hfree
    have hend := endFrom_take_lt (place_sizesFit hfit hp) (i + 1)
    rw [hmem, endFrom_append, ← hs.fin hfree] at hend
    exact hend
  refine ⟨?_, ?_, ?_, ?_, ?_, ?_⟩
  · intro b hb hσ
    rw [hlayout]
    exact (hkept.size b hb (hs.size b hb hσ)).of_eq rfl rfl
  · intro b j hb hfree hσ
    rw [hlayout]
    have hk : ∀ k ≤ j, k :: b ∉ (i :: a) :: rcheck := by
      intro k hkj hm
      rcases List.mem_cons.mp hm with heq | hm
      · exact hb (List.cons.inj heq).2
      · exact hfree k hkj hm
    exact (hkept.offset b j hk (hs.offset b j hb hfree hσ)).of_eq
      (setOffset_of_ne fun heq => hb (List.cons.inj heq).2)
  · intro j hj hfree
    rw [hlayout]
    rcases Nat.lt_succ_iff_lt_or_eq.mp hj with hj | rfl
    · have hold := hs.placed j hj hfree
      have hk : ∀ k ≤ j, k :: a ∉ (i :: a) :: rcheck := by
        intro k hkj hm
        rcases List.mem_cons.mp hm with heq | hm
        · have := (List.cons.inj heq).1
          omega
        · exact hfree k hkj hm
      have hτ : OffsetRight D τ a j := hkept.offset a j hk fun hd fs' env' hp' => by
        cases hp.symm.trans hp'
        exact hold
      refine (hτ _ _ _ hp).of_eq (setOffset_of_ne ?_)
      intro heq
      have := (List.cons.inj heq).1
      omega
    · intro t' ht'
      cases hi.symm.trans ht'
      have hlt := hroom fun k hk => hfree k hk.le
      refine ⟨hpos, ?_⟩
      rw [← hs.fin fun k hk => hfree k hk.le]
      exact (Function.update_self _ _ _).trans (sizeT_of_lt (by omega))
  · intro hfree
    have hlt := hroom fun k hk => hfree k (by omega)
    rw [hoffset, sizeT_of_lt (n := alignUp _ _) (by omega), sizeT_of_lt hlt, hmem, endFrom_append,
      hs.fin fun k hk => hfree k (by omega)]
    rfl
  · intro hfree
    rw [hmax, hmem, maxAlignFrom_append, hs.align fun k hk => hfree k (by omega)]
    rfl
  · intro hfree j hj
    rw [hlayout]
    rcases Nat.lt_succ_iff_lt_or_eq.mp hj with hj' | rfl
    · have hjO : j :: a ∉ O := fun hm => hfree j hj (hO.field hm hp)
      have hold := hs.below (fun k hk => hfree k (by omega)) j hj'
      exact (hkept.rightBelow hent.toOpen hjO hold).setOffset
    · exact hri.setOffset

/-- The loop from field `i` to the last one. -/
theorem layoutFields_atField {pass : LayoutPass} (hfit : D.sizesFit = true) (hpass : Pass D pass)
    (hp : place D a = some (.struct h fs, env)) (hback : fs.backBehindPointer = true)
    (hO : Open D rcheck O) (ha : a ∈ O) (rest : CAStructFields) {i : Nat} {s : FieldLoop}
    (hrest : fs.drop i = rest) (hs : AtField D rcheck O a fs σ i s)
    (hrun : layoutFields pass a (⟨a, h, fs⟩ :: env) rcheck rest i s = .ok s') :
    ∃ n, fs.drop n = .nil ∧ AtField D rcheck O a fs σ n s' := by
  cases rest with
  | nil =>
      cases hrun
      exact ⟨i, hrest, hs⟩
  | cons n t rest =>
      obtain ⟨hi, hdrop⟩ := CAStructFields.get?_of_drop hrest
      have ht := backBehindPointer_get? hback hi
      rw [layoutFields, objAddr_of_back ht] at hrun
      split at hrun
      · rename_i hm
        exact layoutFields_atField hfit hpass hp hback hO ha rest hdrop (hs.skip hm) hrun
      · rename_i hni
        obtain ⟨τ, hτ, hrun⟩ := except_bind_eq_ok hrun
        obtain ⟨s₁, hs₁, hrun⟩ := except_bind_eq_ok hrun
        exact layoutFields_atField hfit hpass hp hback hO ha rest hdrop
          (hs.lay hfit hpass hp hback hO ha hi hni hτ hs₁) hrun

end Loop

/-! ### The pass -/

section Pass

variable {D t : CADataType} {rcheck : List Addr} {O : Set Addr} {a : Addr} {env : Env}
  {σ σ' : Layout} {fuel : Nat}

/-- The place that was laid out is right itself. -/
theorem Kept.of_insert (h : Kept D rcheck (insert a O) σ σ')
    (ha : a ∉ O → SizeRight D σ a → SizeRight D σ' a) : Kept D rcheck O σ σ' where
  size b hb hσ := by
    by_cases heq : b = a
    · exact heq ▸ ha (heq ▸ hb) (heq ▸ hσ)
    · exact h.size b (by simp [heq, hb]) hσ
  offset := h.offset

theorem notMem_insert_cons {i : Nat} (hO : Open D rcheck O) (ha : a ∉ O) : i :: a ∉ insert a O := by
  rintro (h | h)
  · simp at h
  · exact ha (hO.up h)

theorem Enter.child {i : Nat} (h : Enter D rcheck O a)
    (hs : ∀ hd fs env, place D a ≠ some (.struct hd fs, env)) :
    Enter D rcheck (insert a O) (i :: a) where
  toOpen := h.opened
  way heq := (List.cons.inj heq).2 ▸ Set.mem_insert ..
  self heq hp := by
    rw [← (List.cons.inj heq).2] at hp
    exact absurd hp (hs _ _ _)

theorem Enter.frame {b : Addr} (hO : Open D rcheck O) (hb : b ∈ O) : Enter D rcheck O b where
  toOpen := hO
  way heq := hO.up (heq ▸ hb)
  self heq hp := heq ▸ hO.field (heq ▸ hb) hp

theorem sizeRight_pointer (h : place D a = some (.pointer t, env)) : SizeRight D σ a := by
  intro t' env' hp
  cases h.symm.trans hp
  trivial

theorem offsetRight_of_ne {i : Nat} (h : ∀ hd fs env, place D a ≠ some (.struct hd fs, env)) :
    OffsetRight D σ a i :=
  fun hd fs env hp => absurd hp (h hd fs env)

/-- A pointer to a struct around it. -/
theorem rightBelow_pointer_recur {id : StructId}
    (h : place D a = some (.pointer (.recur id), env)) : RightBelow D σ a := by
  refine .of_cons (sizeRight_pointer h) (fun i => offsetRight_of_ne (by simp [h])) ?_
  intro i y hy
  have hi : i = 0 := by
    by_contra hi
    simp [place, h, hi] at hy
  subst hi
  have hp := place_pointer h
  refine .of_cons ?_ (fun i => offsetRight_of_ne (by simp [hp])) ?_
  · intro t env' hp'
    cases hp.symm.trans hp'
    trivial
  · intro i y hy
    rw [place, hp] at hy
    cases hy

theorem pass_pointer (ih : Pass D (catypeFormalizeTypeLayout fuel))
    (hp : place D a = some (.pointer t, env)) (ht : t.backBehindPointer = true)
    (hent : Enter D rcheck O a)
    (hrun : catypeFormalizeTypeLayout fuel t (0 :: a) env rcheck σ = .ok σ') :
    Kept D rcheck O σ σ' ∧ (a ∉ O → RightBelow D σ' a) := by
  obtain ⟨hkept, hright⟩ := ih (place_pointer hp) ht (hent.child (by simp [hp])) hrun
  refine ⟨hkept.of_insert fun _ _ => sizeRight_pointer hp, ?_⟩
  intro ha
  refine .of_cons (sizeRight_pointer hp) (fun i => offsetRight_of_ne (by simp [hp])) ?_
  intro i y hy
  have hi : i = 0 := by
    by_contra hi
    simp [place, hp, hi] at hy
  subst hi
  exact hright (notMem_insert_cons hent.toOpen ha)

/-- A struct that is entered again. -/
theorem pass_pointer_recur {id : StructId} {f : Frame} {env' : Env}
    (hD : D.backBehindPointer = true) (ih : Pass D (catypeFormalizeTypeLayout fuel))
    (hp : place D a = some (.pointer (.recur id), env)) (hent : Enter D rcheck O a)
    (hf : findFrame id env = some (f, env'))
    (hrun : catypeFormalizeTypeLayout fuel (.struct f.head f.fields) f.addr env' rcheck σ =
      .ok σ') :
    Kept D rcheck O σ σ' ∧ (a ∉ O → RightBelow D σ' a) := by
  obtain ⟨-, inner, rfl⟩ := findFrame_split hf
  obtain ⟨hpf, hsuf, hne⟩ := place_frame hp
  have hback := (place_backBehindPointer hD hpf).resolve_right
    (by rintro ⟨id, -, -, hc, -⟩; cases hc)
  have hfO : f.addr ∈ insert a O := hent.opened.suffix (Set.mem_insert a O) hsuf
  obtain ⟨hkept, -⟩ := ih hpf hback (Enter.frame hent.opened hfO) hrun
  exact ⟨hkept.of_insert fun _ _ => sizeRight_pointer hp, fun _ => rightBelow_pointer_recur hp⟩

theorem setSize_of_ne {b : Addr} {n : Nat} (h : b ≠ a) : (σ.setSize a n).size b = σ.size b :=
  Function.update_of_ne h _ _

theorem pass_array {e : CADataType} {n : Nat} (hfit : D.sizesFit = true)
    (ih : Pass D (catypeFormalizeTypeLayout fuel)) (hp : place D a = some (.array e n, env))
    (he : e.backBehindPointer = true)
    (hent : Enter D rcheck O a)
    (hrun : catypeFormalizeTypeLayout fuel e (0 :: a) env rcheck σ = .ok σ') :
    Kept D rcheck O σ (σ'.setSize a (sizeT (n * σ'.sizeAt e (0 :: a) env))) ∧
      (a ∉ O → RightBelow D (σ'.setSize a (sizeT (n * σ'.sizeAt e (0 :: a) env))) a) := by
  obtain ⟨hkept, hright⟩ := ih (place_array hp) he (hent.child (by simp [hp])) hrun
  have hbelow : ∀ v, a ∉ O → RightBelow D (σ'.setSize a v) (0 :: a) := by
    intro v ha b hb
    have hr := hright (notMem_insert_cons hent.toOpen ha) b hb
    refine ⟨hr.1.of_eq (setSize_of_ne ?_) rfl, fun i => (hr.2 i).of_eq rfl⟩
    intro heq
    have hlen := hb.length_le
    rw [heq, List.length_cons] at hlen
    omega
  have hself : a ∉ O → SizeRight D (σ'.setSize a (sizeT (n * σ'.sizeAt e (0 :: a) env))) a := by
    intro ha t' env' hp'
    cases hp.symm.trans hp'
    have hr := hright (notMem_insert_cons hent.toOpen ha)
    have hlt := of_decide_eq_true (Bool.and_eq_true_iff.mp (place_sizesFit hfit hp)).2
    rw [sizeAt_right he ((hr _ List.suffix_rfl).1 _ _ (place_array hp)), sizeT_of_lt hlt]
    exact Function.update_self _ _ _
  refine ⟨.of_insert ⟨?_, ?_⟩ fun ha _ => hself ha, ?_⟩
  · intro b hb hσ
    have hne : b ≠ a := fun heq => hb (heq ▸ Set.mem_insert ..)
    exact (hkept.size b hb hσ).of_eq (setSize_of_ne hne) rfl
  · intro b i hfree hσ
    exact (hkept.offset b i hfree hσ).of_eq rfl
  · intro ha
    refine .of_cons (hself ha) (fun i => offsetRight_of_ne (by simp [hp])) ?_
    intro i y hy
    have hi : i = 0 := by
      by_contra hi
      simp [place, hp, hi] at hy
    subst hi
    exact hbelow _ ha

theorem members_take_of_drop {fs : CAStructFields} {n : Nat} (h : fs.drop n = .nil) :
    fs.members.take n = fs.members := by
  induction n generalizing fs with
  | zero =>
      rw [CAStructFields.drop] at h
      subst h
      rfl
  | succ n ih =>
      cases fs with
      | nil => rfl
      | cons m t rest => rw [CAStructFields.members, List.take_succ_cons, ih h]

theorem pass_struct {h : StructHead StructId} {fs : CAStructFields} {s : FieldLoop}
    (hfit : D.sizesFit = true) (ih : Pass D (catypeFormalizeTypeLayout fuel))
    (hp : place D a = some (.struct h fs, env)) (hfs : fs.backBehindPointer = true)
    (hent : Enter D rcheck O a)
    (hrun : layoutFields (catypeFormalizeTypeLayout fuel) a (⟨a, h, fs⟩ :: env) rcheck fs 0
      ⟨σ, 0, 1⟩ = .ok s) :
    Kept D rcheck O σ (s.structEnd a) ∧ (a ∉ O → RightBelow D (s.structEnd a) a) := by
  obtain ⟨n, hn, hs⟩ := layoutFields_atField hfit ih hp hfs hent.opened (Set.mem_insert a O) fs
    (by simp [CAStructFields.drop]) (AtField.start σ) hrun
  have hsize : ∀ {b}, b ≠ a → SizeRight D s.layout b → SizeRight D (s.structEnd a) b := by
    intro b hb hr
    have hsize : (s.structEnd a).size b = s.layout.size b := Function.update_of_ne hb _ _
    have halign : (s.structEnd a).fieldmaxalign b = s.layout.fieldmaxalign b :=
      Function.update_of_ne hb _ _
    exact hr.of_eq hsize halign
  have hplaced : ∀ j, (∀ k ≤ j, k :: a ∉ rcheck) → OffsetRight D (s.structEnd a) a j := by
    intro j hfree hd fs' env' hp'
    cases hp.symm.trans hp'
    by_cases hj : j < n
    · exact (hs.placed j hj hfree).of_eq rfl
    · intro t ht
      rw [CAStructFields.get?_of_drop_nil hn (by omega)] at ht
      cases ht
  have hself : a ∉ O → SizeRight D (s.structEnd a) a := by
    intro ha t env' hp'
    cases hp.symm.trans hp'
    have hfree : ∀ k < n, k :: a ∉ rcheck := fun k _ hm => ha (hent.parent hm hp)
    have hfin := hs.fin hfree
    have halign := hs.align hfree
    rw [members_take_of_drop hn] at hfin halign
    have hlt := of_decide_eq_true (Bool.and_eq_true_iff.mp (place_sizesFit hfit hp)).2
    rw [FieldLoop.structEnd, hfin, halign, sizeT_of_lt hlt]
    exact ⟨Function.update_self _ _ _, Function.update_self _ _ _⟩
  refine ⟨.of_insert ⟨?_, ?_⟩ fun ha _ => hself ha, ?_⟩
  · intro b hb hσ
    exact hsize (fun heq => hb (heq ▸ Set.mem_insert ..)) (hs.size b hb hσ)
  · intro b i hfree hσ
    by_cases hb : b = a
    · exact hb ▸ hplaced i (hb ▸ hfree)
    · exact (hs.offset b i hb hfree hσ).of_eq rfl
  · intro ha
    have hfree : ∀ k, k :: a ∉ rcheck := fun k hm => ha (hent.parent hm hp)
    refine .of_cons (hself ha) (fun i => hplaced i fun k _ => hfree k) ?_
    intro i y hy
    have hi : i < n := by
      by_contra hi
      rw [place, hp] at hy
      dsimp only at hy
      rw [CAStructFields.get?_of_drop_nil hn (by omega)] at hy
      cases hy
    intro b hb
    have hr := hs.below (fun k _ => hfree k) i hi b hb
    refine ⟨hsize ?_ hr.1, fun j => (hr.2 j).of_eq rfl⟩
    intro heq
    have hlen := hb.length_le
    rw [heq, List.length_cons] at hlen
    omega

/-- **The pass does what `Pass` says**, by induction on the fuel. -/
theorem pass_catypeFormalizeTypeLayout (hD : D.backBehindPointer = true)
    (hfit : D.sizesFit = true) (fuel : Nat) : Pass D (catypeFormalizeTypeLayout fuel) := by
  induction fuel using Nat.strong_induction_on with
  | h fuel ih =>
      intro t a env rcheck σ σ' O hp ht hent hrun
      cases fuel with
      | zero => cases hrun
      | succ fuel =>
          have ih' := ih fuel (Nat.lt_succ_self fuel)
          cases t with
          | prim p =>
              cases hrun
              have hsize : SizeRight D σ a := by
                intro t' env' hp'
                cases hp.symm.trans hp'
                trivial
              refine ⟨⟨fun _ _ h => h, fun _ _ _ h => h⟩, ?_⟩
              intro _
              refine .of_cons hsize (fun i => offsetRight_of_ne (by simp [hp])) ?_
              intro i y hy
              rw [place, hp] at hy
              cases hy
          | pointer t =>
              rcases backBehindPointer_pointer ht with ht | ⟨id, rfl⟩
              · exact pass_pointer ih' hp ht hent hrun
              · cases fuel with
                | zero => cases hrun
                | succ fuel =>
                    rw [catypeFormalizeTypeLayout, catypeFormalizeTypeLayout] at hrun
                    split at hrun
                    · rename_i f env' hf
                      exact pass_pointer_recur hD (ih fuel (by omega)) hp hent hf hrun
                    · cases hrun
          | array e n =>
              obtain ⟨τ, hτ, hrun⟩ := except_bind_eq_ok hrun
              cases hrun
              exact pass_array hfit ih' hp ht hent hτ
          | struct h fs =>
              obtain ⟨s, hs, hrun⟩ := except_bind_eq_ok hrun
              cases hrun
              exact pass_struct hfit ih' hp ht hent hs
          | recur id => cases ht

end Pass

/-! ### The C rule -/

section Rule

variable {D : CADataType} {a : Addr} {env : Env} {h : StructHead StructId} {fs : CAStructFields}
  {σ : Layout}

theorem layoutMembers_right (hp : place D a = some (.struct h fs, env))
    (hback : fs.backBehindPointer = true) (hright : RightBelow D σ a) (rest : CAStructFields)
    {i : Nat} (hrest : fs.drop i = rest) :
    layoutMembers σ a (⟨a, h, fs⟩ :: env) rest i = rest.members := by
  cases rest with
  | nil => rfl
  | cons n t rest =>
      obtain ⟨hi, hdrop⟩ := CAStructFields.get?_of_drop hrest
      have ht := backBehindPointer_get? hback hi
      have hpi := place_field hp hi
      have hri : RightBelow D σ (i :: a) := fun b hb => hright b ((List.suffix_cons i a).trans hb)
      rw [layoutMembers, layoutMembers_right hp hback hright rest hdrop,
        sizeAt_right ht ((hri _ List.suffix_rfl).1 _ _ hpi), catypeGetFieldAlign_right t ht hpi hri]
      rfl

theorem placed_of_right (hp : place D a = some (.struct h fs, env)) (hright : RightBelow D σ a)
    (rest : CAStructFields) {i : Nat} (hrest : fs.drop i = rest) :
    Placed (endFrom 0 (fs.members.take i)) rest.members (layoutOffsets σ a rest i)
      (endFrom 0 fs.members) := by
  cases rest with
  | nil => exact congrArg (endFrom 0) (members_take_of_drop hrest).symm
  | cons n t rest =>
      obtain ⟨hi, hdrop⟩ := CAStructFields.get?_of_drop hrest
      obtain ⟨hpos, hoff⟩ := (hright a List.suffix_rfl).2 i _ _ _ hp t hi
      have hnext := placed_of_right hp hright rest hdrop
      rw [CAStructFields.take_members_succ hi, endFrom_append] at hnext
      refine ⟨hoff ▸ alignUp_isLeast _ hpos, ?_⟩
      rw [hoff]
      exact hnext

/-- Where everything is right, the C rule holds. -/
theorem laidOut_of_right (hD : D.backBehindPointer = true) (hright : RightBelow D σ []) :
    LaidOut D σ where
  struct := by
    intro a hd fs env hp
    have hfs := (place_backBehindPointer hD hp).resolve_right
      (by rintro ⟨id, -, -, hc, -⟩; cases hc)
    have hra : RightBelow D σ a := fun b _ => hright b (List.nil_suffix)
    obtain ⟨hsize, halign⟩ := (hra a List.suffix_rfl).1 _ _ hp
    have hdrop : fs.drop 0 = fs := by simp [CAStructFields.drop]
    have hmem := layoutMembers_right hp hfs hra fs hdrop
    refine ⟨endFrom 0 fs.members, ?_, ?_, ?_⟩
    · rw [hmem]
      exact placed_of_right hp hra fs hdrop
    · rw [hmem]
      exact halign
    · rw [hsize, halign]
      exact alignUp_isLeast _ (le_maxAlignFrom 1 _)
  array := by
    intro a e n env hp
    have he : e.backBehindPointer = true := (place_backBehindPointer hD hp).resolve_right
      (by rintro ⟨id, -, -, hc, -⟩; cases hc)
    have hsize := (hright a List.nil_suffix).1 _ _ hp
    rw [sizeAt_right he ((hright (0 :: a) List.nil_suffix).1 _ _ (place_array hp))]
    exact hsize

end Rule

/-- **When the layout is that of the C rule**: when every back reference is the direct target of a
pointer, and no size is too large. -/
theorem laidOut_of_catypeLayout {D : CADataType} {σ₀ σ : Layout} {fuel : Nat}
    (hrun : catypeLayout fuel D σ₀ = .ok σ) (hD : D.backBehindPointer = true)
    (hfit : D.sizesFit = true) : LaidOut D σ := by
  have henter : Enter D [[]] ∅ [] := by
    refine ⟨⟨?_, ?_, ?_⟩, ?_, ?_⟩
    · exact fun h => h.elim
    · exact fun h _ => h.elim
    · intro i b hd fs env hm
      simp at hm
    · exact fun h => by cases h
    · exact fun h => by cases h
  have hright := (pass_catypeFormalizeTypeLayout hD hfit fuel rfl hD henter hrun).2
  exact laidOut_of_right hD (hright (Set.notMem_empty _))

/-! ### An array of the enclosing struct -/

/-- `struct L { x: i8, next: *L }`. -/
def structL : STEntry :=
  ⟨[], ['L'], .struct false (.cons (some ['x']) (.ident ['i', '8'])
    (.cons (some ['n', 'e', 'x', 't']) (.pointer (.ident ['L'])) .nil))⟩

/-- `struct A { x: i64, p: *[A; 2] }`. -/
def structPair : STEntry :=
  ⟨[], ['A'], .struct false (.cons (some ['x']) (.ident ['i', '6', '4'])
    (.cons (some ['p']) (.pointer (.array (.ident ['A']) 2)) .nil))⟩

def pairTables : SymTables := ⟨[structL, structPair], by decide, by decide⟩

/-- What `L` is unwound to. -/
def listL : CADataType :=
  .struct (.namedStruct structL.id) (.cons (some ['x']) (.prim .i8)
    (.cons (some ['n', 'e', 'x', 't']) (.pointer (.recur structL.id)) .nil))

/-- What `A` is unwound to. -/
def pairA : CADataType :=
  .struct (.namedStruct structPair.id) (.cons (some ['x']) (.prim .i64)
    (.cons (some ['p']) (.pointer (.array (.recur structPair.id) 2)) .nil))

end CaLang.Types

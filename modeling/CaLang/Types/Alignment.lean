import CaLang.Types.LayoutPass
import Mathlib.Data.Finset.Card

/-! # Alignments of fields

`catype_formalize_type_layout` rounds the offset of a field up to the alignment of its type, without
a look at it. A struct has an alignment of at least one from its creation on, an array that of its
elements, a primitive type its size: **only `void`, and arrays of it, have the alignment zero**.

- `CADataType.closed`: the back references of an unwound datatype point to structs around them;
- `catypeFormalizeType_settles`: the pass ends;
- `neverDividesByZero_iff`: it divides by zero exactly when a field is `void` or an array of it.
-/

namespace CaLang.Types

/-! ### Back references point to structs around them -/

/-- The structs whose name is open around a place, with one more. -/
def StructHead.open (h : StructHead StructId) (ids : List StructId) : List StructId :=
  match h.name? with
  | some id => id :: ids
  | none => ids

mutual
/-- Every back reference is to one of `ids` or to a struct around it. -/
def CADataType.closedIn (ids : List StructId) : CADataType → Prop
  | .prim _ => True
  | .pointer t => t.closedIn ids
  | .array e _ => e.closedIn ids
  | .struct h fs => fs.closedIn (h.open ids)
  | .recur id => id ∈ ids

def CAStructFields.closedIn (ids : List StructId) : CAStructFields → Prop
  | .nil => True
  | .cons _ t rest => t.closedIn ids ∧ rest.closedIn ids
end

/-- The structs that `prenamemap` holds are among `ids`. -/
def UnwindCtx.Opens (c : UnwindCtx) (ids : List StructId) : Prop :=
  ∀ n table, c.prenamemap.lookup n = some (.struct table) → ⟨table, n⟩ ∈ ids

section Closed

variable {tabs : SymTables} {st : Scope} {c : UnwindCtx} {n : Name} {e : STEntry}
  {ids ids' : List StructId} {D t : CADataType} {handler : NameHandler}

theorem UnwindCtx.Opens.insert_struct (h : c.Opens ids) {table : Option Scope} :
    (c.insert n (.struct table)).Opens (⟨table, n⟩ :: ids) := by
  intro m table' hm
  simp only [UnwindCtx.insert] at hm
  split at hm
  · exact List.mem_cons_of_mem _ (h m table' hm)
  · rw [List.lookup_cons] at hm
    split at hm
    · rename_i heq
      cases hm
      rw [eq_of_beq heq]
      exact List.mem_cons_self
    · exact List.mem_cons_of_mem _ (h m table' hm)

theorem UnwindCtx.Opens.insert_alias (h : c.Opens ids) : (c.insert n .alias).Opens ids := by
  intro m table' hm
  simp only [UnwindCtx.insert] at hm
  split at hm
  · exact h m table' hm
  · rw [List.lookup_cons] at hm
    split at hm
    · cases hm
    · exact h m table' hm

theorem UnwindCtx.Opens.enter (h : c.Opens ids) (hd : StructHead Name) :
    (c.enter hd).Opens ((hd.map (StructId.mk none)).open ids) := by
  cases hd with
  | namedStruct n => exact h.insert_struct
  | namedTuple n => exact h.insert_struct
  | generalTuple => exact h
  | slice => exact h

mutual
/-- **The names of a text**: where they are closed, so is the text. -/
theorem TypeExpr.closed_of_unwind (t : TypeExpr) {c : UnwindCtx} {ids : List StructId}
    {D : CADataType} (hc : c.Opens ids)
    (hN : ∀ c' ids' m E, room tabs c' ≤ room tabs c → c'.Opens ids' → handler st c' m = some E →
      E.closedIn ids')
    (hD : t.unwind handler st c = some D) : D.closedIn ids := by
  cases t with
  | ident n => exact hN c ids n D (Nat.le_refl _) hc hD
  | pointer t =>
      obtain ⟨E, hE, rfl⟩ := Option.map_eq_some_iff.mp hD
      rw [CADataType.closedIn]
      exact t.closed_of_unwind (c := c.fresh) hc hN hE
  | array e len =>
      rw [TypeExpr.unwind] at hD
      split at hD
      · obtain ⟨E, hE, rfl⟩ := Option.map_eq_some_iff.mp hD
        rw [CADataType.closedIn]
        exact e.closed_of_unwind hc hN hE
      · cases hD
  | struct hd fs =>
      obtain ⟨ds, hds, rfl⟩ := TypeExpr.struct_of_unwind hD
      refine fs.closed_of_unwind (hc.enter hd) ?_ hds
      intro c' ids' m E hroom
      exact hN c' ids' m E (hroom.trans (room_enter_le c hd))

theorem TypeFields.closed_of_unwind (fs : TypeFields) {c : UnwindCtx} {ids : List StructId}
    {ds : CAStructFields} (hc : c.Opens ids)
    (hN : ∀ c' ids' m E, room tabs c' ≤ room tabs c → c'.Opens ids' → handler st c' m = some E →
      E.closedIn ids')
    (hD : fs.unwind handler st c = some ds) : ds.closedIn ids := by
  cases fs with
  | nil =>
      cases hD
      trivial
  | cons n t rest =>
      rw [TypeFields.unwind] at hD
      split at hD
      · rename_i d ds' hd hds
        cases hD
        exact ⟨t.closed_of_unwind hc hN hd, rest.closed_of_unwind hc hN hds⟩
      · cases hD
end

theorem nameVerdict_back {id : StructId} (h : nameVerdict tabs st c n = .back id) :
    ∃ table, id = ⟨table, n⟩ ∧ c.prenamemap.lookup n = some (.struct table) := by
  unfold nameVerdict at h
  split at h
  · split at h
    · cases h
    · split at h
      · cases h
      · split at h
        · cases h
        · split at h
          · cases h
          · rename_i table hm
            cases h
            exact ⟨table, rfl, hm⟩
          · cases h
  · cases h

/-- **An unwound name is closed** in what is open around it. -/
theorem unwindTypeName_closed (hc : c.Opens ids) (hD : unwindTypeName tabs st c n = some D) :
    D.closedIn ids := by
  induction hk : room tabs c using Nat.strong_induction_on generalizing c st n ids D with
  | _ k ih =>
      subst hk
      rw [unwindTypeName_eq] at hD
      cases hv : nameVerdict tabs st c n with
      | stop => simp [hv] at hD
      | prim p =>
          simp only [hv] at hD
          cases hD
          trivial
      | back id =>
          simp only [hv] at hD
          cases hD
          obtain ⟨table, rfl, hlookup⟩ := nameVerdict_back hv
          exact hc n table hlookup
      | expand e =>
          simp only [hv] at hD
          have hlt := room_ctx_lt hv
          have hN : ∀ c' ids' m E, room tabs c' ≤ room tabs (e.ctx c) → c'.Opens ids' →
              unwindTypeName tabs e.idtable c' m = some E → E.closedIn ids' :=
            fun c' ids' m E hroom hc' hE => ih _ (by omega) hc' hE rfl
          rw [STEntry.unwind] at hD
          cases hb : e.body with
          | «alias» id =>
              simp only [hb] at hD
              have hctx : (e.ctx c).Opens ids := by
                rw [STEntry.ctx, STEntry.nameEntry, hb]
                exact hc.insert_alias
              exact id.closed_of_unwind hctx hN hD
          | struct tuple members =>
              simp only [hb] at hD
              obtain ⟨ds, hds, rfl⟩ := Option.map_eq_some_iff.mp hD
              have hctx : (e.ctx c).Opens (e.id :: ids) := by
                rw [STEntry.ctx, STEntry.nameEntry, hb]
                exact hc.insert_struct
              have hopen : (e.head tuple).open ids = e.id :: ids := by
                cases tuple <;> rfl
              rw [CADataType.closedIn, hopen]
              exact members.closed_of_unwind hctx hN hds

/-- **An unwound datatype is closed.** -/
theorem closedIn_of_unwindType {T : TypeExpr} (hD : unwindType tabs st T = some D) :
    D.closedIn [] := by
  have hempty : UnwindCtx.empty.Opens [] := by
    intro n table h
    cases h
  refine T.closed_of_unwind hempty (fun c' ids' m E (_ : room tabs c' ≤ _) hc hE => ?_)
    (unwindType_eq_some.mp hD).1
  exact unwindTypeName_closed hc hE

/-- The structs that are open around a place. -/
def openIds (env : Env) : List StructId := env.filterMap fun f => f.head.name?

theorem openIds_cons (f : Frame) (env : Env) : openIds (f :: env) = f.head.open (openIds env) := by
  unfold openIds StructHead.open
  rw [List.filterMap_cons]
  cases f.head.name? <;> rfl

theorem findFrame_of_mem {id : StructId} {env : Env} (h : id ∈ openIds env) :
    ∃ f env', findFrame id env = some (f, env') := by
  induction env with
  | nil => cases h
  | cons f env ih =>
      rw [findFrame]
      by_cases hf : f.head.name? = some id
      · exact ⟨f, env, if_pos hf⟩
      · rw [if_neg hf]
        refine ih ?_
        rw [openIds_cons, StructHead.open] at h
        cases hn : f.head.name? with
        | none => simpa [hn] using h
        | some m =>
            rw [hn] at h hf
            exact (List.mem_cons.mp h).resolve_left fun he => hf (congrArg some he.symm)

theorem CAStructFields.closedIn_get? {fs : CAStructFields} (h : fs.closedIn ids) {i : Nat}
    (hi : fs.get? i = some t) : t.closedIn ids := by
  induction i generalizing fs with
  | zero =>
      cases fs with
      | nil => cases hi
      | cons n t' rest =>
          cases hi
          exact h.1
  | succ i ih =>
      cases fs with
      | nil => cases hi
      | cons n t' rest => exact ih h.2 hi

/-- What stands at a place is closed in what is open around it. -/
theorem closedIn_place (hD : D.closedIn []) {a : Addr} {env : Env}
    (h : place D a = some (t, env)) : t.closedIn (openIds env) := by
  induction a generalizing t env with
  | nil =>
      simp only [place, Option.some.injEq, Prod.mk.injEq] at h
      obtain ⟨rfl, rfl⟩ := h
      exact hD
  | cons i a ih =>
      rw [place] at h
      split at h
      · rename_i heq
        split at h
        · cases h
          have hup : (CADataType.pointer t).closedIn (openIds env) := ih heq
          exact hup
        · cases h
      · rename_i e len env₀ heq
        split at h
        · cases h
          have hup : (CADataType.array t len).closedIn (openIds env) := ih heq
          exact hup
        · cases h
      · rename_i hd fs env₀ heq
        obtain ⟨t', ht', htt⟩ := Option.map_eq_some_iff.mp h
        cases htt
        rw [openIds_cons]
        exact CAStructFields.closedIn_get? (ih heq) ht'
      · cases h

/-- A back reference is to a struct around it. -/
theorem findFrame_place (hD : D.closedIn []) {a : Addr} {env : Env} {id : StructId}
    (h : place D a = some (.recur id, env)) : ∃ f env', findFrame id env = some (f, env') ∧
      place D f.addr = some (.struct f.head f.fields, env') := by
  obtain ⟨f, env', hf⟩ := findFrame_of_mem (closedIn_place hD h)
  obtain ⟨-, inner, rfl⟩ := findFrame_split hf
  exact ⟨f, env', hf, (place_frame h).1⟩

end Closed

/-! ### Places that are not being laid out -/

mutual
/-- The places at and below a datatype at `a`. -/
def CADataType.addrs : CADataType → Addr → List Addr
  | .prim _, a => [a]
  | .pointer t, a => a :: t.addrs (0 :: a)
  | .array e _, a => a :: e.addrs (0 :: a)
  | .struct _ fs, a => a :: fs.addrs a 0
  | .recur _, a => [a]

def CAStructFields.addrs : CAStructFields → Addr → Nat → List Addr
  | .nil, _, _ => []
  | .cons _ t rest, a, i => t.addrs (i :: a) ++ rest.addrs a (i + 1)
end

/-- The number of places that are not in `rcheck`. -/
def free (D : CADataType) (rcheck : List Addr) : Nat :=
  ((D.addrs []).toFinset \ rcheck.toFinset).card

section Free

variable {D t : CADataType} {a : Addr} {env : Env} {rcheck : List Addr}

theorem CADataType.self_mem_addrs (t : CADataType) (a : Addr) : a ∈ t.addrs a := by
  cases t <;> exact List.mem_cons_self

theorem CAStructFields.addrs_get? {fs : CAStructFields} {i : Nat} (j : Nat)
    (h : fs.get? i = some t) : t.addrs ((j + i) :: a) ⊆ fs.addrs a j := by
  induction i generalizing fs j with
  | zero =>
      cases fs with
      | nil => cases h
      | cons n t' rest =>
          cases h
          exact List.subset_append_left _ _
  | succ i ih =>
      cases fs with
      | nil => cases h
      | cons n t' rest =>
          have hrest := ih (j + 1) h
          rw [show j + 1 + i = j + (i + 1) by omega] at hrest
          exact List.Subset.trans hrest (List.subset_append_right _ _)

theorem addrs_place (h : place D a = some (t, env)) : t.addrs a ⊆ D.addrs [] := by
  induction a generalizing t env with
  | nil =>
      simp only [place, Option.some.injEq, Prod.mk.injEq] at h
      rw [h.1]
      exact List.Subset.refl _
  | cons i a ih =>
      rw [place] at h
      split at h
      · rename_i heq
        split at h
        · rename_i hi
          cases h
          subst hi
          exact List.Subset.trans (List.subset_cons_self a _) (ih heq)
        · cases h
      · rename_i heq
        split at h
        · rename_i hi
          cases h
          subst hi
          exact List.Subset.trans (List.subset_cons_self a _) (ih heq)
        · cases h
      · rename_i hd fs env₀ heq
        obtain ⟨t', ht', htt⟩ := Option.map_eq_some_iff.mp h
        cases htt
        have hsub := CAStructFields.addrs_get? (a := a) 0 ht'
        rw [Nat.zero_add] at hsub
        exact List.Subset.trans hsub (List.Subset.trans (List.subset_cons_self a _) (ih heq))
      · cases h

/-- A place that enters `rcheck` leaves fewer. -/
theorem free_cons_lt (h : place D a = some (t, env)) (hr : a ∉ rcheck) :
    free D (a :: rcheck) < free D rcheck := by
  have hmem : a ∈ (D.addrs []).toFinset \ rcheck.toFinset := by
    rw [Finset.mem_sdiff, List.mem_toFinset, List.mem_toFinset]
    exact ⟨addrs_place h (t.self_mem_addrs a), hr⟩
  refine Finset.card_lt_card ⟨?_, ?_⟩
  · refine Finset.sdiff_subset_sdiff (Finset.Subset.refl _) ?_
    rw [List.toFinset_cons]
    exact Finset.subset_insert _ _
  · intro hsub
    have hin := hsub hmem
    rw [Finset.mem_sdiff, List.mem_toFinset] at hin
    exact hin.2 (by simp)

end Free

/-! ### Alignments -/

/-- `void`, and arrays of it. -/
def CADataType.isVoid : CADataType → Bool
  | .prim .void => true
  | .array e _ => e.isVoid
  | _ => false

/-- A struct in the datatype has a field that is `void` or an array of it. -/
def VoidField (D : CADataType) : Prop :=
  ∃ a h fs env i t, place D a = some (.struct h fs, env) ∧ fs.get? i = some t ∧ t.isVoid = true

/-- Every struct has an alignment, as `catype_make_struct_type` gives it one. -/
def Layout.Aligned (σ : Layout) : Prop := ∀ a, 1 ≤ σ.fieldmaxalign a

/-- **Only `void` has the alignment zero.** -/
theorem catypeGetFieldAlign_eq_zero {σ : Layout} (hσ : σ.Aligned) (t : CADataType) (a : Addr)
    (env : Env) : catypeGetFieldAlign σ t a env = 0 ↔ t.isVoid = true := by
  cases t with
  | prim p => cases p <;> simp [catypeGetFieldAlign, Prim.size, CADataType.isVoid]
  | pointer t => exact iff_of_false (by simp [catypeGetFieldAlign]) (by simp [CADataType.isVoid])
  | array e n => exact catypeGetFieldAlign_eq_zero hσ e (0 :: a) env
  | struct hd fs =>
      have hpos := hσ (objAddr (.struct hd fs) a env)
      refine iff_of_false ?_ (by simp [CADataType.isVoid])
      intro h
      rw [catypeGetFieldAlign] at h
      · omega
      all_goals simp
  | recur id =>
      have hpos := hσ (objAddr (.recur id) a env)
      refine iff_of_false ?_ (by simp [CADataType.isVoid])
      intro h
      rw [catypeGetFieldAlign] at h
      · omega
      all_goals simp

/-! ### The pass ends -/

section Pass

variable {D t : CADataType} {a : Addr} {env : Env} {rcheck : List Addr} {σ σ' : Layout}
  {pass : LayoutPass} {fs : CAStructFields}

theorem Layout.Aligned.setSize (h : σ.Aligned) (b : Addr) (n : Nat) : (σ.setSize b n).Aligned := h

theorem Layout.Aligned.setOffset (h : σ.Aligned) (b : Addr) (n : Nat) :
    (σ.setOffset b n).Aligned := h

theorem Layout.Aligned.setFieldmaxalign (h : σ.Aligned) (b : Addr) {n : Nat} (hn : 1 ≤ n) :
    (σ.setFieldmaxalign b n).Aligned := by
  intro c
  by_cases hc : c = b
  · subst hc
    simpa [Layout.setFieldmaxalign] using hn
  · simpa [Layout.setFieldmaxalign, hc] using h c

/-- The loop over the fields keeps an alignment of at least one. -/
def FieldLoop.Aligned (s : FieldLoop) : Prop := s.layout.Aligned ∧ 1 ≤ s.maxalign

theorem FieldLoop.Aligned.place {s s' : FieldLoop} (hs : s.Aligned) (hσ : σ.Aligned)
    (h : s.place σ t a env = .ok s') : s'.Aligned := by
  unfold FieldLoop.place at h
  simp only at h
  split at h
  · cases h
  · cases h
    exact ⟨hσ.setOffset a _, hs.2.trans (Nat.le_max_left _ _)⟩

theorem layoutFields_aligned (hp : ∀ t a env rcheck σ σ', Layout.Aligned σ →
      pass t a env rcheck σ = .ok σ' → Layout.Aligned σ') (fs : CAStructFields) (i : Nat)
    {s s' : FieldLoop} (hs : s.Aligned) (h : layoutFields pass a env rcheck fs i s = .ok s') :
    s'.Aligned := by
  match fs with
  | .nil =>
      cases h
      exact hs
  | .cons n t rest =>
      rw [layoutFields] at h
      split at h
      · exact layoutFields_aligned hp rest (i + 1) hs h
      · obtain ⟨σ₁, hσ₁, h⟩ := except_bind_eq_ok h
        obtain ⟨s₁, hs₁, h⟩ := except_bind_eq_ok h
        have hσ := hp _ _ _ _ _ _ hs.1 hσ₁
        exact layoutFields_aligned hp rest (i + 1) (hs.place hσ hs₁) h

/-- **The pass keeps the alignments.** -/
theorem catypeFormalizeTypeLayout_aligned (fuel : Nat) : ∀ t a env rcheck σ σ', Layout.Aligned σ →
    catypeFormalizeTypeLayout fuel t a env rcheck σ = .ok σ' → Layout.Aligned σ' := by
  induction fuel with
  | zero => exact fun t a env rcheck σ σ' _ h => by cases h
  | succ fuel ih =>
      intro t a env rcheck σ σ' hσ h
      cases t with
      | prim p =>
          cases h
          exact hσ
      | pointer t => exact ih _ _ _ _ _ _ hσ h
      | array e n =>
          obtain ⟨σ₁, hσ₁, h⟩ := except_bind_eq_ok h
          cases h
          exact (ih _ _ _ _ _ _ hσ hσ₁).setSize a _
      | struct hd fs =>
          obtain ⟨s, hs, h⟩ := except_bind_eq_ok h
          cases h
          have hloop : FieldLoop.Aligned ⟨σ, 0, 1⟩ := ⟨hσ, Nat.le_refl 1⟩
          have hal := layoutFields_aligned ih fs 0 hloop hs
          exact (hal.1.setFieldmaxalign a hal.2).setSize a _
      | recur id =>
          rw [catypeFormalizeTypeLayout] at h
          split at h
          · exact ih _ _ _ _ _ _ hσ h
          · cases h

/-- The pass yields an aligned layout if it ends so. -/
theorem aligned_of_settles (hσ : σ.Aligned)
    (h : Settles (fun k => catypeFormalizeTypeLayout k t a env rcheck σ) (.ok σ')) :
    σ'.Aligned := by
  obtain ⟨N, hN⟩ := h
  exact catypeFormalizeTypeLayout_aligned N _ _ _ _ _ _ hσ (hN N (Nat.le_refl N))

/-- A field is placed, unless it has no alignment. -/
theorem fieldPlace_ends {s : FieldLoop} {hd : StructHead StructId} {env' : Env} {i : Nat}
    (hσ : σ.Aligned) (hp : place D a = some (.struct hd fs, env')) (hi : fs.get? i = some t) :
    Ends (VoidField D) fun _ => s.place σ t (i :: a) env := by
  unfold FieldLoop.place
  simp only
  split
  · rename_i hzero
    have hvoid := (catypeGetFieldAlign_eq_zero hσ t (i :: a) env).mp hzero
    exact ⟨_, .const _, by simp, fun _ => ⟨a, hd, fs, env', i, t, hp, hi, hvoid⟩⟩
  · exact .ok _

/-- The type of a field is a datatype that stands somewhere. -/
theorem place_objAddr (hD : D.closedIn []) (h : place D a = some (t, env)) :
    ∃ y, place D (objAddr t a env) = some y := by
  cases t with
  | recur id =>
      obtain ⟨f, env', hf, hp⟩ := findFrame_place hD h
      rw [objAddr, hf]
      exact ⟨_, hp⟩
  | _ => exact ⟨_, h⟩

/-- **The loop ends** if the pass does with one more place in `rcheck`. -/
theorem layoutFields_ends {hd : StructHead StructId} {full : CAStructFields} {env' : Env}
    (hp : place D a = some (.struct hd full, env')) (hD : D.closedIn [])
    (ih : ∀ rcheck', free D rcheck' < free D rcheck → ∀ t b env σ, place D b = some (t, env) →
      σ.Aligned → Ends (VoidField D) fun k => catypeFormalizeTypeLayout k t b env rcheck' σ)
    (fs : CAStructFields) (i : Nat) (hfs : full.drop i = fs) {s : FieldLoop} (hs : s.Aligned) :
    Ends (VoidField D) fun k =>
      layoutFields (catypeFormalizeTypeLayout k) a (⟨a, hd, full⟩ :: env') rcheck fs i s := by
  match fs with
  | .nil => exact .ok s
  | .cons n t rest =>
      obtain ⟨hi, hrest⟩ := CAStructFields.get?_of_drop hfs
      have hpi := place_field hp hi
      simp only [layoutFields]
      by_cases hr : objAddr t (i :: a) (⟨a, hd, full⟩ :: env') ∈ rcheck
      · simp only [if_pos hr]
        exact layoutFields_ends hp hD ih rest (i + 1) hrest hs
      · simp only [if_neg hr]
        obtain ⟨y, hy⟩ := place_objAddr hD hpi
        have hpass := ih _ (free_cons_lt hy hr) t (i :: a) _ s.layout hpi hs.1
        apply hpass.bind
        intro σ hσ
        have hal := aligned_of_settles hs.1 hσ
        apply (fieldPlace_ends hal hp hi).bind
        intro s' hs'
        obtain ⟨N, hN⟩ := hs'
        exact layoutFields_ends hp hD ih rest (i + 1) hrest (hs.place hal (hN N (Nat.le_refl N)))

/-- Pointers and arrays end where the structs do. -/
theorem typeEnds (hD : D.closedIn [])
    (hstruct : ∀ hd fs a env σ, place D a = some (.struct hd fs, env) → Layout.Aligned σ →
      Ends (VoidField D) fun k => catypeFormalizeTypeLayout k (.struct hd fs) a env rcheck σ)
    (t : CADataType) {a : Addr} {env : Env} {σ : Layout} (hp : place D a = some (t, env))
    (hσ : σ.Aligned) :
    Ends (VoidField D) fun k => catypeFormalizeTypeLayout k t a env rcheck σ := by
  match t with
  | .prim p => exact (Ends.ok σ).step fun k => rfl
  | .pointer t => exact (typeEnds hD hstruct t (place_pointer hp) hσ).step fun k => rfl
  | .array e n =>
      have helem := typeEnds hD hstruct e (place_array hp) hσ
      exact (helem.bind (g := fun σ' _ => .ok (σ'.setSize a (sizeT (n * σ'.sizeAt e (0 :: a) env))))
        fun σ' _ => .ok _).step fun k => rfl
  | .struct hd fs => exact hstruct hd fs a env σ hp hσ
  | .recur id =>
      obtain ⟨f, env', hf, hp'⟩ := findFrame_place hD hp
      apply (hstruct f.head f.fields f.addr env' σ hp' hσ).step
      intro k
      rw [catypeFormalizeTypeLayout, hf]

/-- **The pass ends** at every place, by the number of places that are not in `rcheck`. -/
theorem catypeFormalizeTypeLayout_ends (hD : D.closedIn []) (rcheck : List Addr) : ∀ t a env σ,
    place D a = some (t, env) → Layout.Aligned σ →
      Ends (VoidField D) fun k => catypeFormalizeTypeLayout k t a env rcheck σ := by
  induction hk : free D rcheck using Nat.strong_induction_on generalizing rcheck with
  | _ m ih =>
      subst hk
      have hfewer : ∀ rcheck', free D rcheck' < free D rcheck → ∀ t b env σ,
          place D b = some (t, env) → Layout.Aligned σ →
          Ends (VoidField D) fun k => catypeFormalizeTypeLayout k t b env rcheck' σ :=
        fun rcheck' hlt => ih _ hlt rcheck' rfl
      have hstruct : ∀ hd fs a env σ, place D a = some (.struct hd fs, env) → Layout.Aligned σ →
          Ends (VoidField D) fun k =>
            catypeFormalizeTypeLayout k (.struct hd fs) a env rcheck σ := by
        intro hd fs a env σ hp hσ
        have hloop : FieldLoop.Aligned ⟨σ, 0, 1⟩ := ⟨hσ, Nat.le_refl 1⟩
        have hrun := layoutFields_ends hp hD hfewer fs 0 (by cases fs <;> rfl) hloop
        exact (hrun.bind (g := fun s _ => .ok (s.structEnd a)) fun s _ => .ok _).step fun k => rfl
      intro t a env σ hp hσ
      exact typeEnds hD hstruct t hp hσ

/-- No struct at or below `a` has a field of type `void`. -/
def SoundBelow (D : CADataType) (a : Addr) : Prop :=
  ∀ b hd fs env i t, a <:+ b → place D b = some (.struct hd fs, env) → fs.get? i = some t →
    t.isVoid = false

/-- A place that is no struct is as sound as what is below. -/
theorem SoundBelow.of_cons (hp : place D a = some (t, env)) (ht : ∀ hd fs, t ≠ .struct hd fs)
    (h : ∀ i y, place D (i :: a) = some y → SoundBelow D (i :: a)) : SoundBelow D a := by
  intro b hd fs env' j t' hab hb hj
  rcases suffix_iff_exists_cons.mp hab with rfl | ⟨i, hi⟩
  · rw [hp] at hb
    cases hb
    exact absurd rfl (ht hd fs)
  · obtain ⟨y, hy⟩ := place_of_suffix hb hi
    exact h i y hy b hd fs env' j t' hi hb hj

theorem soundBelow_recur {id : StructId} (hp : place D a = some (.recur id, env)) :
    SoundBelow D a := by
  refine .of_cons hp (by simp) ?_
  intro i y hy
  rw [place, hp] at hy
  cases hy

/-- Nothing below `a` is in `rcheck`. -/
def Fresh (rcheck : List Addr) (a : Addr) : Prop := ∀ b ∈ rcheck, a <:+ b → b = a

theorem Fresh.not_below {b : Addr} {i : Nat} (h : Fresh rcheck a) (hb : b ∈ rcheck) :
    ¬ i :: a <:+ b := by
  intro hi
  have hba := h b hb ((List.suffix_cons i a).trans hi)
  subst hba
  have hlen := hi.length_le
  rw [List.length_cons] at hlen
  omega

theorem Fresh.cons (h : Fresh rcheck a) (i : Nat) : Fresh rcheck (i :: a) :=
  fun _ hb hi => absurd hi (h.not_below hb)

theorem Fresh.insert (h : Fresh rcheck a) (i : Nat) : Fresh ((i :: a) :: rcheck) (i :: a) := by
  intro b hb hi
  rcases List.mem_cons.mp hb with rfl | hb
  · rfl
  · exact absurd hi (h.not_below hb)

/-- What stands below a pointer or an array is its target. -/
theorem place_child {x : CADataType × Env} {i : Nat} {c : CADataType}
    (hp : place D a = some (.pointer c, env) ∨ ∃ n, place D a = some (.array c n, env))
    (hx : place D (i :: a) = some x) : i = 0 := by
  by_contra hne
  rcases hp with hp | ⟨n, hp⟩ <;> simp [place, hp, hne] at hx

mutual
/-- **A pass that ends without a division by zero has placed every field below.** -/
theorem soundBelow_of_ok (t : CADataType) {a : Addr} {env : Env} {rcheck : List Addr}
    {σ σ' : Layout} {fuel : Nat} (hp : place D a = some (t, env)) (hσ : σ.Aligned)
    (hfresh : Fresh rcheck a) (h : catypeFormalizeTypeLayout fuel t a env rcheck σ = .ok σ') :
    SoundBelow D a := by
  cases fuel with
  | zero => cases h
  | succ fuel =>
      match t with
      | .prim p =>
          refine .of_cons hp (by simp) ?_
          intro i y hy
          rw [place, hp] at hy
          cases hy
      | .recur id => exact soundBelow_recur hp
      | .pointer t =>
          refine .of_cons hp (by simp) ?_
          intro i y hy
          obtain rfl := place_child (.inl hp) hy
          exact soundBelow_of_ok t (place_pointer hp) hσ (hfresh.cons 0) h
      | .array e n =>
          obtain ⟨σ₁, hσ₁, -⟩ := except_bind_eq_ok h
          refine .of_cons hp (by simp) ?_
          intro i y hy
          obtain rfl := place_child (.inr ⟨n, hp⟩) hy
          exact soundBelow_of_ok e (place_array hp) hσ (hfresh.cons 0) hσ₁
      | .struct hd fs =>
          obtain ⟨s, hs, -⟩ := except_bind_eq_ok h
          have hloop : FieldLoop.Aligned ⟨σ, 0, 1⟩ := ⟨hσ, Nat.le_refl 1⟩
          have hfields := soundFields_of_ok fs hp 0 (by cases fs <;> rfl) hloop hfresh hs
          intro b hd' fs' env' j t' hab hb hj
          rcases suffix_iff_exists_cons.mp hab with rfl | ⟨i, hi⟩
          · rw [hp] at hb
            cases hb
            exact (hfields j t' (Nat.zero_le j) hj).1
          · obtain ⟨y, hy⟩ := place_of_suffix hb hi
            rw [place, hp] at hy
            obtain ⟨ti, hti, -⟩ := Option.map_eq_some_iff.mp hy
            exact (hfields i ti (Nat.zero_le i) hti).2 b hd' fs' env' j t' hi hb hj

/-- The fields of a struct from `i` on. -/
theorem soundFields_of_ok (fs : CAStructFields) {a : Addr} {env : Env} {rcheck : List Addr}
    {hd : StructHead StructId} {full : CAStructFields} {s s' : FieldLoop} {fuel : Nat}
    (hp : place D a = some (.struct hd full, env)) (i : Nat) (hfs : full.drop i = fs)
    (hs : s.Aligned) (hfresh : Fresh rcheck a)
    (h : layoutFields (catypeFormalizeTypeLayout fuel) a (⟨a, hd, full⟩ :: env) rcheck fs i s =
      .ok s') : ∀ j t, i ≤ j → full.get? j = some t →
        t.isVoid = false ∧ SoundBelow D (j :: a) := by
  match fs with
  | .nil =>
      intro j t hij hj
      rw [CAStructFields.get?_of_drop_nil hfs hij] at hj
      cases hj
  | .cons n t rest =>
      obtain ⟨hi, hrest⟩ := CAStructFields.get?_of_drop hfs
      have hpi := place_field hp hi
      rw [layoutFields] at h
      have hself : ∀ id, t = .recur id → t.isVoid = false ∧ SoundBelow D (i :: a) := by
        rintro id rfl
        exact ⟨rfl, soundBelow_recur hpi⟩
      have hadr : (∀ id, t ≠ .recur id) → objAddr t (i :: a) (⟨a, hd, full⟩ :: env) = i :: a := by
        intro hne
        cases t with
        | recur id => exact absurd rfl (hne id)
        | _ => rfl
      by_cases hr : objAddr t (i :: a) (⟨a, hd, full⟩ :: env) ∈ rcheck
      · rw [if_pos hr] at h
        have hfield : t.isVoid = false ∧ SoundBelow D (i :: a) := by
          by_contra hno
          have hne : ∀ id, t ≠ .recur id := fun id he => hno (hself id he)
          rw [hadr hne] at hr
          exact hfresh.not_below hr List.suffix_rfl
        have hmore := soundFields_of_ok rest hp (i + 1) hrest hs hfresh h
        intro j t' hij hj
        rcases Nat.eq_or_lt_of_le hij with rfl | hlt
        · rw [hi] at hj
          cases hj
          exact hfield
        · exact hmore j t' hlt hj
      · rw [if_neg hr] at h
        obtain ⟨σ₁, hσ₁, h⟩ := except_bind_eq_ok h
        obtain ⟨s₁, hs₁, h⟩ := except_bind_eq_ok h
        have hal := catypeFormalizeTypeLayout_aligned fuel _ _ _ _ _ _ hs.1 hσ₁
        have hvoid : t.isVoid = false := by
          by_contra hv
          have hzero := (catypeGetFieldAlign_eq_zero hal t (i :: a) (⟨a, hd, full⟩ :: env)).mpr
            (Bool.not_eq_false _ ▸ hv)
          rw [FieldLoop.place] at hs₁
          simp only [if_pos hzero] at hs₁
          cases hs₁
        have hfield : SoundBelow D (i :: a) := by
          by_cases hrec : ∃ id, t = .recur id
          · obtain ⟨id, he⟩ := hrec
            exact (hself id he).2
          · rw [hadr fun id he => hrec ⟨id, he⟩] at hσ₁
            exact soundBelow_of_ok t hpi hs.1 (hfresh.insert i) hσ₁
        have hmore := soundFields_of_ok rest hp (i + 1) hrest (hs.place hal hs₁) hfresh h
        intro j t' hij hj
        rcases Nat.eq_or_lt_of_le hij with rfl | hlt
        · rw [hi] at hj
          cases hj
          exact ⟨hvoid, hfield⟩
        · exact hmore j t' hlt hj
end

/-- The pass comes to its end without a division by zero. -/
def NeverDividesByZero (D : CADataType) : Prop :=
  ∀ σ : Layout, σ.Aligned → ∃ σ', Settles (fun fuel => catypeLayout fuel D σ) (.ok σ')

theorem not_voidField_of_ok {fuel : Nat} (hσ : σ.Aligned) (h : catypeLayout fuel D σ = .ok σ') :
    ¬ VoidField D := by
  rintro ⟨b, hd, fs, env, i, t, hb, hi, hvoid⟩
  have hfresh : Fresh [[]] [] := fun b hb _ => List.mem_singleton.mp hb
  have hsound := soundBelow_of_ok D rfl hσ hfresh h
  rw [hsound b hd fs env i t List.nil_suffix hb hi] at hvoid
  cases hvoid

theorem neverDividesByZero_of_closed (hD : D.closedIn []) :
    NeverDividesByZero D ↔ ¬ VoidField D := by
  constructor
  · intro h
    have hinit : Layout.Aligned ⟨fun _ => 0, fun _ => 1, fun _ => 0⟩ := fun _ => Nat.le_refl 1
    obtain ⟨σ', N, hN⟩ := h _ hinit
    exact not_voidField_of_ok hinit (hN N (Nat.le_refl N))
  · intro hno σ hσ
    obtain ⟨x, hx, hfuel, hcrash⟩ := catypeFormalizeTypeLayout_ends hD [[]] D [] [] σ rfl hσ
    cases x with
    | ok σ' => exact ⟨σ', hx⟩
    | error e =>
        cases e with
        | crash => exact absurd (hcrash rfl) hno
        | fuel => exact absurd rfl hfuel

/-- **The layout of an unwound datatype divides by zero exactly when a field is `void`**, or an
array of it. -/
theorem neverDividesByZero_iff {tabs : SymTables} {st : Scope} {T : TypeExpr}
    (hT : T.isSource = true) (hD : Unwinds tabs st T D) :
    NeverDividesByZero D ↔ ¬ VoidField D :=
  neverDividesByZero_of_closed (closedIn_of_unwindType ((unwinds_iff hT).mp hD))

end Pass

theorem pairA_neverDividesByZero_iff : NeverDividesByZero pairA ↔ ¬ VoidField pairA := by
  have hT : (TypeExpr.ident ['A']).isSource = true := by decide
  have hD : Unwinds pairTables [] (.ident ['A']) pairA := (unwinds_iff hT).mpr (by decide)
  exact neverDividesByZero_iff hT hD

/-! ### A field of type `void` -/

/-- `struct V { v: void }`. -/
def structV : STEntry :=
  ⟨[], ['V'], .struct false (.cons (some ['v']) (.ident ['v', 'o', 'i', 'd']) .nil)⟩

def voidTables : SymTables := ⟨[structV], by decide, by decide⟩

/-- What `V` is unwound to. -/
def voidV : CADataType :=
  .struct (.namedStruct structV.id) (.cons (some ['v']) (.prim .void) .nil)

/-- The offset of `v` is divided by zero. -/
theorem voidV_dividesByZero :
    Unwinds voidTables [] (.ident ['V']) voidV ∧
      (∀ k σ, catypeLayout (k + 2) voidV σ = .error .crash) ∧ ¬ NeverDividesByZero voidV := by
  have hcrash : ∀ k σ, catypeLayout (k + 2) voidV σ = .error .crash := fun k σ => rfl
  refine ⟨(unwinds_iff (by decide)).mpr (by decide), hcrash, ?_⟩
  intro h
  obtain ⟨σ', N, hN⟩ := h ⟨fun _ => 0, fun _ => 1, fun _ => 0⟩ fun _ => Nat.le_refl 1
  have hok := (hcrash N _).symm.trans (hN (N + 2) (Nat.le_add_right N 2))
  cases hok

end CaLang.Types

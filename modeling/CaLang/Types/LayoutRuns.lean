import CaLang.Types.Interning

/-! # The layouts of the datatypes that are looked up

A datatype that a lookup makes is laid out by the pass, and one that is made of others keeps what
was written to these.  **In a run every datatype has the layout of the C rule, as long as each
request meets `Orderly`**: what a lookup has to make has its back references behind pointers and no
size that is too large, length and size of an array are in their ranges, and no datatype is put into
the maps that holds a tuple of `catype_make_tuple_type` or a slice of `slice_create_catype`, which
lay nothing out.

- `LaidOut.around`: the datatypes that are made of one other;
- `Orderly`: the condition on a request;
- `serves_laidOut`, `lookup_laidOut`: runs.
-/

namespace CaLang.Types

/-! ### The places of a part -/

section Under

variable {W D t : CADataType} {a : Addr} {env : Env} {i : Nat} {σ σ' : Layout}

theorem under_concat {α : Type} (root : α) (parts : Nat → Addr → α) (a : Addr) (i : Nat) :
    under root parts (a ++ [i]) = parts i a := by
  rw [under, List.getLast?_concat, List.dropLast_concat]

/-- A struct of the part that stands at step `i`. -/
def Frame.under (i : Nat) (f : Frame) : Frame := { f with addr := f.addr ++ [i] }

theorem findFrame_under (id : StructId) (env : Env) :
    findFrame id (env.map (Frame.under i)) =
      (findFrame id env).map fun x => (x.1.under i, x.2.map (Frame.under i)) := by
  induction env with
  | nil => rfl
  | cons f env ih =>
      rw [List.map_cons, findFrame, findFrame]
      by_cases hf : f.head.name? = some id
      · rw [if_pos hf]
        exact if_pos hf
      · rw [if_neg hf, ← ih]
        exact if_neg hf

theorem objAddr_under (t : CADataType) (a : Addr) (env : Env) :
    objAddr t (a ++ [i]) (env.map (Frame.under i)) = objAddr t a env ++ [i] := by
  cases t with
  | recur id =>
      rw [objAddr, objAddr, findFrame_under]
      cases findFrame id env <;> rfl
  | _ => rfl

/-- The places below a part are those of the part. -/
theorem place_under (h : place W [i] = some (D, [])) (a : Addr) :
    place W (a ++ [i]) = (place D a).map fun x => (x.1, x.2.map (Frame.under i)) := by
  induction a with
  | nil => exact h
  | cons j a ih =>
      rw [List.cons_append, place, ih, place]
      cases place D a with
      | none => rfl
      | some x =>
          obtain ⟨t, env⟩ := x
          cases t with
          | prim p => rfl
          | recur id => rfl
          | pointer t =>
              simp only [Option.map_some]
              split <;> rfl
          | array e n =>
              simp only [Option.map_some]
              split <;> rfl
          | struct hd fs =>
              simp only [Option.map_some]
              cases fs.get? j <;> rfl

/-- A layout holds that of the part at step `i`. -/
structure Layout.Holds (σ' : Layout) (i : Nat) (σ : Layout) : Prop where
  size : ∀ a, σ'.size (a ++ [i]) = σ.size a
  fieldmaxalign : ∀ a, σ'.fieldmaxalign (a ++ [i]) = σ.fieldmaxalign a
  offset : ∀ a, σ'.offset (a ++ [i]) = σ.offset a

theorem sizeAt_under (h : σ'.Holds i σ) (t : CADataType) (a : Addr) (env : Env) :
    σ'.sizeAt t (a ++ [i]) (env.map (Frame.under i)) = σ.sizeAt t a env := by
  have hobj := h.size (objAddr t a env)
  rw [← objAddr_under] at hobj
  cases t with
  | prim p => rfl
  | pointer t => rfl
  | _ => exact hobj

theorem catypeGetFieldAlign_under (h : σ'.Holds i σ) (t : CADataType) (a : Addr) (env : Env) :
    catypeGetFieldAlign σ' t (a ++ [i]) (env.map (Frame.under i)) =
      catypeGetFieldAlign σ t a env := by
  cases t with
  | prim p => rfl
  | pointer t => rfl
  | array e n => exact catypeGetFieldAlign_under h e (0 :: a) env
  | struct hd fs => exact h.fieldmaxalign a
  | recur id =>
      have hobj := h.fieldmaxalign (objAddr (.recur id) a env)
      rw [← objAddr_under] at hobj
      exact hobj

theorem layoutMembers_under (h : σ'.Holds i σ) (fs : CAStructFields) (a : Addr) (env : Env)
    (j : Nat) :
    layoutMembers σ' (a ++ [i]) (env.map (Frame.under i)) fs j = layoutMembers σ a env fs j := by
  cases fs with
  | nil => rfl
  | cons n t rest =>
      have hsize := sizeAt_under h t (j :: a) env
      have halign := catypeGetFieldAlign_under h t (j :: a) env
      rw [List.cons_append] at hsize halign
      rw [layoutMembers, layoutMembers, hsize, halign, layoutMembers_under h rest]

theorem layoutOffsets_under (h : σ'.Holds i σ) (fs : CAStructFields) (a : Addr) (j : Nat) :
    layoutOffsets σ' (a ++ [i]) fs j = layoutOffsets σ a fs j := by
  cases fs with
  | nil => rfl
  | cons n t rest =>
      have hoffset := h.offset (j :: a)
      rw [List.cons_append] at hoffset
      rw [layoutOffsets, layoutOffsets, hoffset, layoutOffsets_under h rest]

theorem StructRule.under {hd : StructHead StructId} {fs : CAStructFields} (h : σ'.Holds i σ)
    (hrule : StructRule σ a hd fs env) :
    StructRule σ' (a ++ [i]) hd fs (env.map (Frame.under i)) := by
  have hmembers := layoutMembers_under h fs a (⟨a, hd, fs⟩ :: env) 0
  rw [List.map_cons] at hmembers
  obtain ⟨fin, hplaced, halign, hsize⟩ := hrule
  refine ⟨fin, ?_, ?_, ?_⟩
  · rw [layoutOffsets_under h]
    exact hmembers ▸ hplaced
  · rw [h.fieldmaxalign]
    exact halign.trans (congrArg _ hmembers.symm)
  · rw [h.fieldmaxalign, h.size]
    exact hsize

/-- **A datatype that is made of one other**, a pointer to it or an array of it. -/
theorem LaidOut.around (h : σ'.Holds i σ) (hpart : place W [i] = some (D, []))
    (hone : ∀ j y, place W [j] = some y → j = i) (hD : LaidOut D σ)
    (hstruct : ∀ hd fs, W ≠ .struct hd fs)
    (harray : ∀ e n, W = .array e n → σ'.size [] = n * σ'.sizeAt e [0] []) : LaidOut W σ' := by
  have hbelow : ∀ {b j u env'}, place W (b ++ [j]) = some (u, env') →
      j = i ∧ ∃ env, env' = env.map (Frame.under i) ∧ place D b = some (u, env) := by
    intro b j u env' hp
    obtain ⟨y, hy⟩ := place_of_suffix hp (List.suffix_append b [j])
    obtain rfl := hone j y hy
    rw [place_under hpart] at hp
    obtain ⟨⟨u', env⟩, hpart, heq⟩ := Option.map_eq_some_iff.mp hp
    cases heq
    exact ⟨rfl, env, rfl, hpart⟩
  constructor
  · intro b hd fs env' hp
    rcases List.eq_nil_or_concat b with rfl | ⟨b, j, rfl⟩
    · cases hp
      exact absurd rfl (hstruct hd fs)
    · rw [List.concat_eq_append] at hp ⊢
      obtain ⟨rfl, env, rfl, hpart⟩ := hbelow hp
      exact (hD.struct hpart).under h
  · intro b e n env' hp
    rcases List.eq_nil_or_concat b with rfl | ⟨b, j, rfl⟩
    · cases hp
      exact harray e n rfl
    · rw [List.concat_eq_append] at hp ⊢
      obtain ⟨rfl, env, rfl, hpart⟩ := hbelow hp
      have hsize := sizeAt_under h e (0 :: b) env
      rw [List.cons_append] at hsize
      rw [h.size, hsize]
      exact hD.array hpart

end Under

/-! ### What is made of other datatypes -/

section MadeOf

variable {o : Made} {len : Nat}

theorem laidOut_prim (p : Prim) (σ : Layout) : LaidOut (.prim p) σ := by
  have hplace : ∀ b u env, place (.prim p) b = some (u, env) → u = .prim p := by
    intro b u env hp
    rcases List.eq_nil_or_concat b with rfl | ⟨b, j, rfl⟩
    · cases hp
      rfl
    · rw [List.concat_eq_append] at hp
      obtain ⟨y, hy⟩ := place_of_suffix hp (List.suffix_append b [j])
      cases hy
  constructor
  · intro b hd fs env hp
    cases hplace b _ env hp
  · intro b e n env hp
    cases hplace b _ env hp

theorem laidOut_pointer (h : LaidOut o.datatype o.layout) :
    LaidOut o.pointer.datatype o.pointer.layout := by
  refine h.around (i := 0) ⟨?_, ?_, ?_⟩ rfl ?_ ?_ ?_
  · intro a
    exact under_concat _ _ a 0
  · intro a
    exact under_concat _ _ a 0
  · intro a
    exact under_concat _ _ a 0
  · intro j y hy
    by_contra hj
    simp [Made.pointer, place, hj] at hy
  · intro hd fs heq
    cases heq
  · intro e n heq
    cases heq

/-- What an array may measure. -/
def Made.arrayLimit (o : Made) : Nat :=
  match o.datatype with
  | .array _ _ => 18446744073709551616
  | _ => 2147483648

theorem wrapInt_toNat {n : Nat} (h : n < 2147483648) :
    (wrapInt n % 18446744073709551616).toNat = n := by
  rw [wrapInt, BitVec.toInt_ofInt, Int.bmod_eq_of_le (by omega) (by omega)]
  omega

theorem arraySize_of_lt (h : len * o.size < o.arrayLimit) : o.arraySize len = len * o.size := by
  obtain ⟨D, σ, τ⟩ := o
  cases D with
  | array e n => exact sizeT_of_lt h
  | _ => exact wrapInt_toNat h

theorem laidOut_array (h : LaidOut o.datatype o.layout) (hlen : len * o.size < o.arrayLimit) :
    LaidOut (o.array len).datatype (o.array len).layout := by
  have hholds : (o.array len).layout.Holds 0 o.layout :=
    ⟨fun a => under_concat _ _ a 0, fun a => under_concat _ _ a 0, fun a => under_concat _ _ a 0⟩
  refine h.around hholds rfl ?_ ?_ ?_
  · intro j y hy
    by_contra hj
    simp [Made.array, place, hj] at hy
  · intro hd fs heq
    cases heq
  · intro e n heq
    cases heq
    have hsize := sizeAt_under hholds o.datatype [] []
    rw [List.nil_append, List.map_nil] at hsize
    rw [hsize]
    exact arraySize_of_lt hlen

end MadeOf

/-! ### Runs -/

section Runs

variable {tabs : SymTables} {st : Scope} {t : TypeExpr} {m m' : TypeMaps} {i j fuel : Nat}
  {o : Made} {D : CADataType} {mem : Memory}

/-- The requests that lay everything out. -/
def Orderly (tabs : SymTables) (m : TypeMaps) : Request → Prop
  | .byName st t => ∀ D, unwindType tabs st t = some D → m.Lacks D.signature →
      D.backBehindPointer = true ∧ D.sizesFit = true
  | .pointer _ => True
  | .array i len =>
      -- `dimarray` holds `int`s
      len < 2147483648 ∧ ∀ o, m.objects[i]? = some o → len * o.size < o.arrayLimit
  | .tuple _ catypes => ∀ os, catypes.mapM m.get = .ok os →
      ¬ m.Lacks (Made.tuple os).datatype.signature
  | .slicePointer i => ∀ o, m.objects[i]? = some o →
      ¬ m.Lacks (CADataType.pointer (.slice (.pointer o.datatype))).signature

/-- Every datatype has the layout of the C rule. -/
def AllLaidOut (m : TypeMaps) : Prop := ∀ o ∈ m.objects, LaidOut o.datatype o.layout

theorem AllLaidOut.put (h : AllLaidOut m) (ho : LaidOut o.datatype o.layout) :
    AllLaidOut (m.put o).2 := by
  intro o' ho'
  rcases List.mem_append.mp ho' with ho' | ho'
  · exact h o' ho'
  · rw [List.mem_singleton.mp ho']
    exact ho

theorem allLaidOut_formDatatype (h : AllLaidOut m) (ho : LaidOut o.datatype o.layout)
    (hi : formDatatype m o = .ok (i, m')) : AllLaidOut m' := by
  have hm : m' = (m.obtain o).2 := by rw [formDatatype_eq_ok hi]
  rw [hm, TypeMaps.obtain]
  split
  · exact h
  · exact h.put ho

theorem allLaidOut_pointer (h : AllLaidOut m) (hi : catypeMakePointerType m j = .ok (i, m')) :
    AllLaidOut m' := by
  obtain ⟨o, ho, hi⟩ := except_bind_eq_ok hi
  have hmem := List.mem_of_getElem? (TypeMaps.get_eq_ok ho)
  exact allLaidOut_formDatatype h (laidOut_pointer (h o hmem)) hi

/-- What the pass lays out. -/
theorem catypeFormalizeType_laidOut {anon : Name} (h : catypeFormalizeType anon fuel D = .ok o)
    (hback : D.backBehindPointer = true) (hfit : D.sizesFit = true) :
    LaidOut o.datatype o.layout := by
  obtain ⟨σ, -, h⟩ := except_bind_eq_ok h
  obtain ⟨τ, hτ, h⟩ := except_bind_eq_ok h
  cases h
  exact laidOut_of_catypeLayout hτ hback hfit

/-- **A lookup** that meets the condition. -/
theorem allLaidOut_catypeGetByName (hm : Interned tabs m) (h : AllLaidOut m) (ht : t.isText = true)
    (hP : Orderly tabs m (.byName st t)) (hi : catypeGetByName mem fuel tabs m st t = .ok (i, m')) :
    AllLaidOut m' := by
  rcases catypeGetByName_cases hi with ⟨-, rfl⟩ | ⟨-, rfl⟩ | ⟨D, m₁, hD, hobtain, rfl⟩
  · exact h
  · exact h
  · rcases obtainUnwound_eq_ok hobtain with ⟨-, rfl⟩ | ⟨hnone, o, ho, -, rfl⟩
    · exact h
    · have hlacks := (hm.find_eq_none_iff (Whole.of_unwindType ht hD).isText).mp hnone
      obtain ⟨hback, hfit⟩ := hP D hD hlacks
      exact h.put (catypeFormalizeType_laidOut ho hback hfit)

/-- **A request** that meets the condition. -/
theorem allLaidOut_serve {r : Request} (hm : Interned tabs m) (h : AllLaidOut m)
    (hr : r.isFormed = true) (hP : Orderly tabs m r) (hs : r.serve mem fuel tabs m = .ok (i, m')) :
    AllLaidOut m' := by
  cases r with
  | byName st t => exact allLaidOut_catypeGetByName hm h hr hP hs
  | pointer j => exact allLaidOut_pointer h hs
  | array j len =>
      obtain ⟨o, ho, hs⟩ := except_bind_eq_ok hs
      have hget := TypeMaps.get_eq_ok ho
      have hlaid := laidOut_array (h o (List.mem_of_getElem? hget)) (hP.2 o hget)
      exact allLaidOut_formDatatype h hlaid hs
  | tuple st is =>
      obtain ⟨os, hos, hm'⟩ := catypeMakeTupleType_cases hs
      rcases hm' with rfl | rfl | ⟨hnone, -, -⟩
      · exact h
      · exact h
      · have hwhole := whole_tuple hm hos
        exact absurd ((hm.find_eq_none_iff hwhole.isText).mp hnone) (hP os hos)
  | slicePointer j =>
      obtain ⟨⟨o, m₁⟩, hslice, hs⟩ := except_bind_eq_ok hs
      obtain ⟨item, ptr, k, hitem, hpointer, hptr, hsig, rfl, hm₁, hg⟩ :=
        sliceCreateCatype_spec hm hslice
      -- a pointer with this signature is there, so that none is made
      have hwhole := (hm₁.whole ptr hptr).slice.pointer
      have hlike : (Made.slice ptr).pointer.datatype.signature =
          (CADataType.pointer (.slice (.pointer item.datatype))).signature :=
        congrArg ('*' :: ·) (signature_slice hsig)
      have hthere : m₁.typeMap.find (Made.slice ptr).pointer.datatype.signature ≠ none := by
        intro hnone
        refine hP item hitem ?_
        rw [← hlike]
        intro o ho
        obtain ⟨n, hn⟩ := List.mem_iff_getElem?.mp ho
        exact (hm₁.find_eq_none_iff hwhole.isText).mp hnone o
          (List.mem_of_getElem? (hg.getElem? hn))
      obtain ⟨n, hn⟩ := Option.ne_none_iff_exists'.mp hthere
      have hobtain := formDatatype_eq_ok hs
      rw [TypeMaps.obtain, hn] at hobtain
      cases hobtain
      exact allLaidOut_pointer h hpointer

/-- The datatypes at the start. -/
theorem allLaidOut_catypeInit : AllLaidOut catypeInit := by
  intro o ho
  rcases catypeInit_datatypes ho with ⟨p, hp⟩ | hp
  · rw [hp]
    exact laidOut_prim p _
  · rw [hp]
    have hinner : ∀ σ : Layout, LaidOut (.pointer (.prim .u8)) σ := by
      intro σ
      refine (laidOut_prim .u8 ⟨fun a => σ.size (a ++ [0]), fun a => σ.fieldmaxalign (a ++ [0]),
        fun a => σ.offset (a ++ [0])⟩).around (i := 0) ⟨fun _ => rfl, fun _ => rfl, fun _ => rfl⟩
        rfl ?_ ?_ ?_
      · intro j y hy
        by_contra hj
        simp [place, hj] at hy
      · intro hd fs heq
        cases heq
      · intro e n heq
        cases heq
    exact hinner o.layout

/-- **Every run**: as long as each request meets the condition, all datatypes are laid out. -/
theorem serves_laidOut (hs : Serves (Orderly tabs) mem tabs catypeInit m) :
    Interned tabs m ∧ AllLaidOut m := by
  induction hs with
  | refl => exact ⟨interned_catypeInit tabs, allLaidOut_catypeInit⟩
  | tail _ hr hP hserve ih =>
      exact ⟨(serve_spec ih.1 hr hserve).1, allLaidOut_serve ih.1 ih.2 hr hP hserve⟩

/-- **The layout of what is looked up.**  In a run whose requests meet `Orderly`, every datatype
that a lookup returns, new or known, has the layout of the C rule at all that is reachable from it.
-/
theorem lookup_laidOut (hm : Serves (Orderly tabs) mem tabs catypeInit m) (ht : t.isText = true)
    (hP : Orderly tabs m (.byName st t)) (hi : catypeGetByName mem fuel tabs m st t = .ok (i, m')) :
    ∃ o, m'.objects[i]? = some o ∧ o.datatype.signature = signatureOf tabs st t ∧
      LaidOut o.datatype o.layout := by
  obtain ⟨hinterned, hlaid⟩ := serves_laidOut hm
  obtain ⟨-, -, o, ho, hsig⟩ := catypeGetByName_spec hinterned ht hi
  have hall := allLaidOut_catypeGetByName hinterned hlaid ht hP hi
  exact ⟨o, ho, hsig, hall o (List.mem_of_getElem? ho)⟩

end Runs

/-! ### A list, and an array of the enclosing struct -/

/-- The theorem at a list. -/
theorem listL_laidOut : ∃ i m' o,
    catypeGetByName someMemory 9 pairTables catypeInit [] (.ident ['L']) = .ok (i, m') ∧
      m'.objects[i]? = some o ∧ o.datatype.signature = listL.signature ∧
        LaidOut o.datatype o.layout := by
  have hunwind : unwindType pairTables [] (.ident ['L']) = some listL := by decide
  have hP : Orderly pairTables catypeInit (.byName [] (.ident ['L'])) := by
    intro D hD _
    cases hunwind.symm.trans hD
    exact ⟨rfl, by decide⟩
  have hL : (TypeExpr.ident ['L']).isText = true := by decide
  cases hi : catypeGetByName someMemory 9 pairTables catypeInit [] (.ident ['L']) with
  | error e =>
      have hok : (catypeGetByName someMemory 9 pairTables catypeInit []
        (.ident ['L'])).isOk = true := by decide +kernel
      rw [hi] at hok
      cases hok
  | ok r =>
      obtain ⟨o, ho, hsig, hlaid⟩ := lookup_laidOut .refl hL hP hi
      rw [signatureOf, hunwind] at hsig
      exact ⟨r.1, r.2, o, rfl, ho, hsig, hlaid⟩

/-- **The array behind `p` gets half its size**: `A` is entered again from it, with `p` skipped, and
the array reads the 8 bytes that this leaves. -/
theorem pairA_not_laidOut : ∃ i m' o,
    catypeGetByName someMemory 9 pairTables catypeInit [] (.ident ['A']) = .ok (i, m') ∧
      m'.objects[i]? = some o ∧ o.datatype = pairA ∧ o.layout.size [] = 16 ∧
        o.layout.size [0, 1] = 16 ∧ ¬ LaidOut o.datatype o.layout := by
  have hrun : ((catypeGetByName someMemory 9 pairTables catypeInit [] (.ident ['A'])).toOption.bind
      fun r => r.2.objects[r.1]?).any (fun o => decide (o.datatype = pairA ∧
        o.layout.size [] = 16 ∧ o.layout.size [0, 1] = 16)) = true := by decide +kernel
  cases hi : catypeGetByName someMemory 9 pairTables catypeInit [] (.ident ['A']) with
  | error e =>
      rw [hi] at hrun
      cases hrun
  | ok r =>
      rw [hi] at hrun
      obtain ⟨o, ho, hsizes⟩ := (Option.any_eq_true _ _).mp hrun
      obtain ⟨hA, hroot, helems⟩ := of_decide_eq_true hsizes
      refine ⟨r.1, r.2, o, rfl, ho, hA, hroot, helems, ?_⟩
      intro h
      rw [hA] at h
      have harray := h.array (a := [0, 1]) rfl
      have hsame : o.layout.sizeAt (.recur structPair.id) [0, 0, 1]
          [⟨[], .namedStruct structPair.id, .cons (some ['x']) (.prim .i64)
            (.cons (some ['p']) (.pointer (.array (.recur structPair.id) 2)) .nil)⟩] =
          o.layout.size [] := rfl
      rw [hsame, hroot, helems] at harray
      omega

end CaLang.Types

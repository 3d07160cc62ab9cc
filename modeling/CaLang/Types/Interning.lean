import CaLang.Types.Lookup
import CaLang.Types.Overruns
import CaLang.Types.Rereading

/-! # One datatype for each signature

**Whatever was asked before, a lookup yields the datatype that the unwinding would**: what is in the
maps is right for its table, and a name that is the signature of a datatype is unwound to that
signature, if to any.

A datatype is made only when no other has its signature, so that two datatypes are the same exactly
if their signatures are (`catype_check_identical`).
-/

namespace CaLang.Types

/-! ### What the maps hold -/

variable {tabs : SymTables} {st st' : Scope} {t t' : TypeExpr} {m m' m'' : TypeMaps}
  {i j fuel : Nat} {o o' : Made} {D E : CADataType} {s : List Char} {mem : Memory}

/-- The signature of the datatype that a name stands for: as it is unwound, or as it is written
where it cannot be unwound. -/
def signatureOf (tabs : SymTables) (st : Scope) (t : TypeExpr) : List Char :=
  match unwindType tabs st t with
  | some D => D.signature
  | none => t.text

/-- What holds of the maps whatever was asked for. -/
structure Interned (tabs : SymTables) (m : TypeMaps) : Prop where
  whole : ∀ o ∈ m.objects, Whole o.datatype
  /-- Every datatype is found under its signature. -/
  own : ∀ i o, m.objects[i]? = some o → m.typeMap.find o.datatype.signature = some i
  /-- What is found is found under its signature, or under another word for a primitive type. -/
  found : ∀ s i, m.typeMap.find s = some i → ∃ o, m.objects[i]? = some o ∧
    (o.datatype.signature = s ∨ primWords.lookup s ≠ none)
  /-- What a lookup is answered with is right for its table. -/
  answers : ∀ st t i, t.isText = true → m.symtableTypeMap.find (some st, t.text) = some i →
    ∃ o, m.objects[i]? = some o ∧ o.datatype.signature = signatureOf tabs st t

/-- The signature of a datatype stands for itself, in any table. -/
theorem Whole.signatureOf_eq (h : Whole D) (ht : t.isText = true) (heq : t.text = D.signature) :
    signatureOf tabs st t = D.signature := by
  have hD : unwindType tabs st t = unwindType tabs st D.toExpr := unwindType_text ht h.isText heq
  rw [signatureOf, hD]
  cases hE : unwindType tabs st D.toExpr with
  | none => exact heq
  | some E => exact h.signature_eq hE

/-- No type text is one of the other words for a primitive type. -/
theorem primWords_lookup_text (ht : t.isText = true) : primWords.lookup t.text = none := by
  cases t with
  | ident n =>
      simp only [TypeExpr.isText, Bool.and_eq_true, decide_eq_true_eq] at ht
      cases hp : primWords.lookup n with
      | none => exact hp
      | some p =>
          have hw : (primWords ++ sizeWords).lookup n = some p := by
            rw [List.lookup_append, hp]
            rfl
          have hn : p.text = n := by simpa only [getInnerTypeString, hw] using ht.2
          subst hn
          cases p <;> cases hp
  | pointer t => simp [TypeExpr.text, primWords, List.lookup_cons]
  | array e len => simp [TypeExpr.text, primWords, List.lookup_cons]
  | struct hd fs =>
      cases hd <;> simp [TypeExpr.text, StructHead.opener, primWords, List.lookup_cons]

theorem signatureOf_text (ht : t.isText = true) (ht' : t'.isText = true) (h : t.text = t'.text) :
    signatureOf tabs st t = signatureOf tabs st t' := by
  rw [signatureOf, signatureOf, unwindType_text ht ht' h, h]

/-- Datatypes stay as they are, under their numbers. -/
def Grows (m m' : TypeMaps) : Prop := m.objects <+: m'.objects

namespace Grows

theorem refl (m : TypeMaps) : Grows m m := List.prefix_refl _

theorem trans (h : Grows m m') (h' : Grows m' m'') : Grows m m'' := List.IsPrefix.trans h h'

theorem getElem? (h : Grows m m') (ho : m.objects[i]? = some o) : m'.objects[i]? = some o := by
  obtain ⟨l, hl⟩ := h
  rw [← hl, List.getElem?_append_left (List.getElem?_eq_some_iff.mp ho).1]
  exact ho

theorem put (m : TypeMaps) (o : Made) : Grows m (m.put o).2 := List.prefix_append _ _

theorem obtain (m : TypeMaps) (o : Made) : Grows m (m.obtain o).2 := by
  rw [TypeMaps.obtain]
  split
  · exact refl m
  · exact put m o

theorem remember (m : TypeMaps) (k : Option Scope) (s : List Char) (i : Nat) :
    Grows m (m.remember k s i) :=
  List.prefix_refl _

end Grows

theorem TypeMaps.getElem?_put (m : TypeMaps) (o : Made) :
    (m.put o).2.objects[m.objects.length]? = some o := List.getElem?_concat_length

namespace Interned

/-- A datatype whose signature is found under it, not as another word. -/
theorem find_signature (h : Interned tabs m) (hD : Whole D)
    (hi : m.typeMap.find D.signature = some i) :
    ∃ o, m.objects[i]? = some o ∧ o.datatype.signature = D.signature := by
  obtain ⟨o, ho, heq | hw⟩ := h.found _ _ hi
  · exact ⟨o, ho, heq⟩
  · exact absurd (primWords_lookup_text hD.isText) hw

theorem put (h : Interned tabs m) (ho : Whole o.datatype)
    (hnone : m.typeMap.find o.datatype.signature = none) : Interned tabs (m.put o).2 where
  whole o' ho' := by
    rcases List.mem_append.mp ho' with ho' | ho'
    · exact h.whole o' ho'
    · rw [List.mem_singleton.mp ho']
      exact ho
  own i o' ho' := by
    rcases Nat.lt_or_ge i m.objects.length with hlt | hge
    · rw [TypeMaps.put, List.getElem?_append_left hlt] at ho'
      have hfind := h.own i o' ho'
      refine (Keyed.find_insert_ne ?_).trans hfind
      intro heq
      rw [heq, hnone] at hfind
      cases hfind
    · rw [TypeMaps.put, List.getElem?_append_right hge] at ho'
      obtain ⟨hlt, rfl⟩ := List.getElem?_eq_some_iff.mp ho'
      have hi : i = m.objects.length := by
        rw [List.length_singleton] at hlt
        omega
      subst hi
      simp only [Nat.sub_self, List.getElem_cons_zero]
      rw [TypeMaps.put, Keyed.find_insert_self, hnone]
      rfl
  found s i hs := by
    by_cases heq : s = o.datatype.signature
    · subst heq
      rw [TypeMaps.put, Keyed.find_insert_self, hnone] at hs
      cases hs
      exact ⟨o, m.getElem?_put o, .inl rfl⟩
    · rw [TypeMaps.put, Keyed.find_insert_ne heq] at hs
      obtain ⟨o', ho', hsig⟩ := h.found s i hs
      exact ⟨o', (Grows.put m o).getElem? ho', hsig⟩
  answers st t i ht hi := by
    obtain ⟨o', ho', hsig⟩ := h.answers st t i ht hi
    exact ⟨o', (Grows.put m o).getElem? ho', hsig⟩

/-- **A datatype is made only if no other has its signature.** -/
theorem obtain (h : Interned tabs m) (ho : Whole o.datatype) : Interned tabs (m.obtain o).2 := by
  rw [TypeMaps.obtain]
  cases hfind : m.typeMap.find o.datatype.signature with
  | some i => exact h
  | none => exact h.put ho hfind

/-- An answer that is right can be remembered. -/
theorem remember (h : Interned tabs m) (ho : m.objects[i]? = some o)
    (hs : ∀ t, t.isText = true → t.text = s → o.datatype.signature = signatureOf tabs st t) :
    Interned tabs (m.remember (some st) s i) where
  whole := h.whole
  own := h.own
  found := h.found
  answers st' t i' ht hi' := by
    by_cases hk : (some st', t.text) = (some st, s)
    · obtain ⟨hst, hts⟩ := Prod.mk.inj hk
      cases hst
      cases hfind : m.symtableTypeMap.find (some st, t.text) with
      | none =>
          rw [TypeMaps.remember, hk, Keyed.find_insert_self, ← hk, hfind] at hi'
          cases hi'
          exact ⟨o, ho, hs t ht hts⟩
      | some j =>
          rw [TypeMaps.remember, hk, Keyed.find_insert_self, ← hk, hfind] at hi'
          cases hi'
          exact h.answers st t j ht hfind
    · rw [TypeMaps.remember, Keyed.find_insert_ne hk] at hi'
      exact h.answers st' t i' ht hi'

/-- What is remembered without a table answers no lookup. -/
theorem remember_none (h : Interned tabs m) (s : List Char) (i : Nat) :
    Interned tabs (m.remember none s i) where
  whole := h.whole
  own := h.own
  found := h.found
  answers st t j ht hj := by
    have hne : ((some st : Option Scope), t.text) ≠ (none, s) := by simp
    rw [TypeMaps.remember, Keyed.find_insert_ne hne] at hj
    exact h.answers st t j ht hj

end Interned

/-! ### Runs -/

theorem Whole.prim (p : Prim) : Whole (.prim p) := ⟨isTypeName_text p, trivial⟩

theorem Whole.pointer (h : Whole D) : Whole (.pointer D) := ⟨h.isText, h.closed⟩

theorem Whole.array (h : Whole D) (len : Nat) : Whole (.array D len) := ⟨h.isText, h.closed⟩

theorem Whole.tuple {ts : List CADataType} (h : ∀ D ∈ ts, Whole D) : Whole (.tuple ts) := by
  have hfields : (CAStructFields.ofList ts).toExpr.isText false = true ∧
      (CAStructFields.ofList ts).closedIn [] := by
    induction ts with
    | nil => exact ⟨rfl, trivial⟩
    | cons D ts ih =>
        obtain ⟨htext, hclosed⟩ := ih fun E hE => h E (List.mem_cons_of_mem _ hE)
        have hD := h D List.mem_cons_self
        refine ⟨?_, hD.closed, hclosed⟩
        simp only [CAStructFields.ofList, CAStructFields.toExpr, TypeFields.isText,
          Bool.and_eq_true]
        exact ⟨⟨rfl, hD.isText⟩, htext⟩
  refine ⟨?_, hfields.2⟩
  simp only [CADataType.tuple, CADataType.toExpr, TypeExpr.isText, Bool.and_eq_true]
  exact ⟨rfl, hfields.1⟩

theorem Whole.slice (h : Whole D) : Whole (.slice D) := by
  refine ⟨?_, h.closed, trivial, trivial⟩
  simp only [CADataType.slice, CADataType.toExpr, CAStructFields.toExpr, TypeExpr.isText,
    TypeFields.isText, Bool.and_eq_true]
  have hi64 : (TypeExpr.ident Prim.i64.text).isText = true := isTypeName_text .i64
  simp only [TypeExpr.isText, Bool.and_eq_true] at hi64
  exact ⟨rfl, ⟨rfl, h.isText⟩, ⟨rfl, hi64⟩, trivial⟩

/-- The signature of a slice tells only that of the pointer. -/
theorem signature_slice (h : D.signature = E.signature) :
    (CADataType.slice D).signature = (CADataType.slice E).signature := by
  have htext : D.toExpr.text = E.toExpr.text := h
  simp only [CADataType.signature, CADataType.slice, CADataType.toExpr, CAStructFields.toExpr,
    TypeExpr.text, TypeFields.text, htext]
  rfl

/-- The datatypes that are there at the start. -/
theorem catypeInit_datatypes (ho : o ∈ catypeInit.objects) :
    (∃ p, o.datatype = .prim p) ∨ o.datatype = .pointer (.prim .u8) := by
  have hall : catypeInit.objects.map Made.datatype = [Prim.void, .i16, .i32, .i64, .u16, .u32, .u64,
      .f32, .f64, .bool, .i8, .u8].map .prim ++ [.pointer (.prim .u8)] := by decide +kernel
  have hD := List.mem_map_of_mem (f := Made.datatype) ho
  rw [hall] at hD
  rcases List.mem_append.mp hD with hD | hD
  · obtain ⟨p, -, heq⟩ := List.mem_map.mp hD
    exact .inl ⟨p, heq.symm⟩
  · exact .inr (List.mem_singleton.mp hD)

/-- **The maps at the start.** -/
theorem interned_catypeInit (tabs : SymTables) : Interned tabs catypeInit where
  whole o ho := by
    rcases catypeInit_datatypes ho with ⟨p, hp⟩ | hp
    · rw [hp]
      exact .prim p
    · rw [hp]
      exact (Whole.prim .u8).pointer
  own i o ho := by
    have hall : ∀ e ∈ (catypeInit.objects.map Made.datatype).zipIdx,
        catypeInit.typeMap.find e.1.signature = some e.2 := by decide +kernel
    refine hall (o.datatype, i) (List.mem_zipIdx_iff_getElem?.mpr ?_)
    rw [List.getElem?_map, ho]
    rfl
  found s i hs := by
    have hall : ∀ e ∈ catypeInit.typeMap.entries, (catypeInit.objects[e.2]?).any (fun o =>
        decide (o.datatype.signature = e.1) || (primWords.lookup e.1).isSome) = true := by
      decide +kernel
    have h := hall (s, i) (Keyed.mem_entries_iff.mpr hs)
    obtain ⟨o, ho, hsig⟩ := (Option.any_eq_true _ _).mp h
    rw [Bool.or_eq_true, decide_eq_true_eq, Option.isSome_iff_ne_none] at hsig
    exact ⟨o, ho, hsig⟩
  answers st t i _ hi := by
    have hempty : catypeInit.symtableTypeMap.entries = [] := by decide +kernel
    rw [Keyed.find, hempty] at hi
    cases hi

/-! ### Lookups -/

/-- What is remembered is the answer, unless the key overruns its buffer. -/
theorem answer_eq_ok {f : Except WalkStop (Nat × TypeMaps)}
    (h : answer mem m st s f = .ok (i, m')) :
    (m.symtableTypeMap.find (some st, s) = some i ∧ m' = m) ∨
      (m.symtableTypeMap.find (some st, s) = none ∧ f = .ok (i, m')) := by
  unfold answer at h
  split at h
  · split at h
    · cases h
      exact .inl ⟨by assumption, rfl⟩
    · exact .inr ⟨by assumption, h⟩
  · cases h

/-- The datatype that a name is unwound to, or the one with its signature. -/
theorem obtainUnwound_eq_ok (h : obtainUnwound mem fuel m D = .ok (i, m')) :
    (m.typeMap.find D.signature = some i ∧ m' = m) ∨
      (m.typeMap.find D.signature = none ∧ ∃ o, catypeFormalizeType mem.anon fuel D = .ok o ∧
        i = m.objects.length ∧ m' = (m.put o).2) := by
  unfold obtainUnwound at h
  split at h
  · cases h
    exact .inl ⟨by assumption, rfl⟩
  · obtain ⟨o, ho, h⟩ := except_bind_eq_ok h
    cases h
    exact .inr ⟨by assumption, o, ho, rfl, rfl⟩

/-- **What a lookup does**: it is answered from one of the maps, or the name is unwound. -/
theorem catypeGetByName_cases (h : catypeGetByName mem fuel tabs m st t = .ok (i, m')) :
    (m.symtableTypeMap.find (some st, t.text) = some i ∧ m' = m) ∨
      (m.typeMap.find t.text = some i ∧ m' = m.remember (some st) t.text i) ∨
        ∃ D m₁, unwindType tabs st t = some D ∧ obtainUnwound mem fuel m D = .ok (i, m₁) ∧
          m' = m₁.remember (some st) t.text i := by
  rcases answer_eq_ok h with hfound | ⟨-, h⟩
  · exact .inl hfound
  · split at h
    · cases h
      exact .inr (.inl ⟨by assumption, rfl⟩)
    · split at h
      · cases h
      · rename_i D hD
        obtain ⟨⟨j, m₁⟩, hobtain, h⟩ := except_bind_eq_ok h
        cases h
        exact .inr (.inr ⟨D, m₁, hD, hobtain, rfl⟩)

theorem catypeFormalizeType_datatype {anon : Name} (h : catypeFormalizeType anon fuel D = .ok o) :
    o.datatype = D := by
  obtain ⟨σ, -, h⟩ := except_bind_eq_ok h
  obtain ⟨τ, -, h⟩ := except_bind_eq_ok h
  cases h
  rfl

/-- The components of a datatype have the signatures of their places. -/
theorem catypeFormalizeType_signatures {anon : Name} (hfit : D.fits = true)
    (h : catypeFormalizeType anon fuel D = .ok o) {a : Addr} {u : CADataType} {env : Env}
    (hp : place o.datatype a = some (u, env)) (hu : u.isOwn = true) :
    o.signatures a = some (u.placeSignature anon a env) := by
  obtain ⟨σ, hσ, h⟩ := except_bind_eq_ok h
  obtain ⟨τ, -, h⟩ := except_bind_eq_ok h
  cases h
  exact (signatures_eq hfit hσ hp hu).1

/-- The datatype that is made of an unwound one, or that has its signature. -/
theorem obtainUnwound_spec (h : Interned tabs m) (hD : Whole D)
    (hi : obtainUnwound mem fuel m D = .ok (i, m')) : Interned tabs m' ∧ Grows m m' ∧
      ∃ o, m'.objects[i]? = some o ∧ o.datatype.signature = D.signature := by
  rcases obtainUnwound_eq_ok hi with ⟨hfind, rfl⟩ | ⟨hnone, o, ho, rfl, rfl⟩
  · exact ⟨h, .refl _, h.find_signature hD hfind⟩
  · obtain rfl := catypeFormalizeType_datatype ho
    exact ⟨h.put hD hnone, .put m o, o, m.getElem?_put o, rfl⟩

/-- **A lookup** yields the datatype that the unwinding would, and is answered so from then on. -/
theorem catypeGetByName_spec (h : Interned tabs m) (ht : t.isText = true)
    (hi : catypeGetByName mem fuel tabs m st t = .ok (i, m')) : Interned tabs m' ∧ Grows m m' ∧
      ∃ o, m'.objects[i]? = some o ∧ o.datatype.signature = signatureOf tabs st t := by
  rcases catypeGetByName_cases hi with ⟨hfind, rfl⟩ | ⟨hfind, rfl⟩ | ⟨D, m₁, hD, hobtain, rfl⟩
  · exact ⟨h, .refl _, h.answers st t i ht hfind⟩
  · -- the name is the signature of a datatype
    obtain ⟨o, ho, heq | hw⟩ := h.found _ _ hfind
    · have hsig {t'} (ht' : t'.isText = true) (h' : t'.text = t.text) :
          o.datatype.signature = signatureOf tabs st t' :=
        ((h.whole o (List.mem_of_getElem? ho)).signatureOf_eq ht' (h'.trans heq.symm)).symm
      exact ⟨h.remember ho fun _ ht' h' => hsig ht' h', .remember _ _ _ _, o, ho, hsig ht rfl⟩
    · exact absurd (primWords_lookup_text ht) hw
  · have hsig : D.signature = signatureOf tabs st t := by rw [signatureOf, hD]
    obtain ⟨h₁, hg, o, ho, heq⟩ := obtainUnwound_spec h (Whole.of_unwindType ht hD) hobtain
    refine ⟨h₁.remember ho ?_, hg.trans (.remember _ _ _ _), o, ho, heq.trans hsig⟩
    intro t' ht' h'
    rw [heq, hsig, signatureOf_text ht ht' h'.symm]

/-- A datatype that a lookup makes has the signatures of its places. -/
theorem catypeGetByName_signatures
    (hi : catypeGetByName mem fuel tabs m st t = .ok (i, m')) (ho : m'.objects[i]? = some o)
    (hnew : m.objects[i]? = none) {a : Addr} {u : CADataType} {env : Env}
    (hp : place o.datatype a = some (u, env)) (hu : u.isOwn = true) :
    o.signatures a = some (u.placeSignature mem.anon a env) := by
  have hold : ∀ o', m.objects[i]? ≠ some o' := by
    intro o' ho'
    rw [hnew] at ho'
    cases ho'
  rcases catypeGetByName_cases hi with ⟨hfind, rfl⟩ | ⟨hfind, rfl⟩ | ⟨D, m₁, hD, hobtain, rfl⟩
  · exact absurd ho (hold o)
  · exact absurd ho (hold o)
  · rcases obtainUnwound_eq_ok hobtain with ⟨hfind, rfl⟩ | ⟨-, o', ho', rfl, rfl⟩
    · exact absurd ho (hold o)
    · cases (m.getElem?_put o').symm.trans ho
      exact catypeFormalizeType_signatures (unwindType_eq_some.mp hD).2 ho' hp hu

/-! ### Runs -/

/-- Requests that meet anything. -/
abbrev Any : TypeMaps → Request → Prop := fun _ _ => True

theorem TypeMaps.get_eq_ok (h : m.get i = .ok o) : m.objects[i]? = some o := by
  unfold TypeMaps.get at h
  split at h
  · cases h
    assumption
  · cases h

theorem formDatatype_eq_ok (h : formDatatype m o = .ok (i, m')) : m.obtain o = (i, m') := by
  unfold formDatatype at h
  split at h
  · exact Except.ok.inj h
  · cases h

theorem formDatatype_spec (h : Interned tabs m) (ho : Whole o.datatype)
    (hi : formDatatype m o = .ok (i, m')) : Interned tabs m' ∧ Grows m m' := by
  have hm : m' = (m.obtain o).2 := by rw [formDatatype_eq_ok hi]
  rw [hm]
  exact ⟨h.obtain ho, .obtain m o⟩

/-- The datatype that is obtained has the signature. -/
theorem formDatatype_signature (h : Interned tabs m) (ho : Whole o.datatype)
    (hi : formDatatype m o = .ok (i, m')) (ho' : m'.objects[i]? = some o') :
    o'.datatype.signature = o.datatype.signature := by
  have hobtain := formDatatype_eq_ok hi
  unfold TypeMaps.obtain at hobtain
  split at hobtain
  · rename_i j hfind
    cases hobtain
    obtain ⟨o₁, ho₁, hsig⟩ := h.find_signature ho hfind
    cases ho₁.symm.trans ho'
    exact hsig
  · cases hobtain
    cases (m.getElem?_put o).symm.trans ho'
    rfl

/-- The members of a tuple are datatypes that were made. -/
theorem mem_objects_of_mapM {is : List Nat} {os : List Made} (hos : is.mapM m.get = .ok os)
    (ho : o ∈ os) : o ∈ m.objects := by
  induction is generalizing os with
  | nil =>
      cases hos
      cases ho
  | cons j is ih =>
      rw [List.mapM_cons] at hos
      obtain ⟨o₁, ho₁, hos⟩ := except_bind_eq_ok hos
      obtain ⟨os', hos', heq⟩ := except_bind_eq_ok hos
      cases heq
      rcases List.mem_cons.mp ho with rfl | ho
      · exact List.mem_of_getElem? (TypeMaps.get_eq_ok ho₁)
      · exact ih hos' ho

/-- **What a request for a tuple does.** -/
theorem catypeMakeTupleType_cases {is : List Nat}
    (h : catypeMakeTupleType mem m st is = .ok (i, m')) : ∃ os, is.mapM m.get = .ok os ∧
      (m' = m ∨ m' = m.remember none (Made.tuple os).datatype.signature i ∨
        (m.typeMap.find (Made.tuple os).datatype.signature = none ∧ i = m.objects.length ∧
          m' = (m.put (.tuple os)).2.remember (some st) (Made.tuple os).datatype.signature i)) := by
  obtain ⟨os, hos, h⟩ := except_bind_eq_ok h
  refine ⟨os, hos, ?_⟩
  rcases answer_eq_ok h with ⟨-, hm⟩ | ⟨-, h⟩
  · exact .inl hm
  · split at h
    · cases h
      exact .inr (.inl rfl)
    · cases h
      exact .inr (.inr ⟨by assumption, rfl, rfl⟩)

theorem whole_tuple {is : List Nat} {os : List Made} (h : Interned tabs m)
    (hos : is.mapM m.get = .ok os) : Whole (Made.tuple os).datatype := by
  apply Whole.tuple
  intro D hD
  obtain ⟨o, ho, rfl⟩ := List.mem_map.mp hD
  exact h.whole o (mem_objects_of_mapM hos ho)

/-- **What `slice_create_catype` does**: it makes a slice of the pointer to its items, which is
there from then on. -/
theorem sliceCreateCatype_spec (h : Interned tabs m) (hi : sliceCreateCatype m i = .ok (o, m')) :
    ∃ item ptr j, m.objects[i]? = some item ∧ catypeMakePointerType m i = .ok (j, m') ∧
      ptr ∈ m'.objects ∧ ptr.datatype.signature = item.pointer.datatype.signature ∧ o = .slice ptr ∧
        Interned tabs m' ∧ Grows m m' := by
  obtain ⟨⟨j, m₁⟩, hptr, hi⟩ := except_bind_eq_ok hi
  obtain ⟨ptr, hget, hi⟩ := except_bind_eq_ok hi
  dsimp only at hi
  split at hi
  · cases hi
    obtain ⟨item, hitem, hform⟩ := except_bind_eq_ok hptr
    have hitem := TypeMaps.get_eq_ok hitem
    have hwhole := (h.whole item (List.mem_of_getElem? hitem)).pointer
    obtain ⟨h', hg⟩ := formDatatype_spec h hwhole hform
    exact ⟨item, ptr, j, hitem, hptr, List.mem_of_getElem? (TypeMaps.get_eq_ok hget),
      formDatatype_signature h hwhole hform (TypeMaps.get_eq_ok hget), rfl, h', hg⟩
  · cases hi

/-- What is served keeps what holds of the maps. -/
theorem serve_spec {r : Request} (h : Interned tabs m) (hr : r.isFormed = true)
    (hs : r.serve mem fuel tabs m = .ok (i, m')) : Interned tabs m' ∧ Grows m m' := by
  cases r with
  | byName st t =>
      obtain ⟨h', hg, -⟩ := catypeGetByName_spec h hr hs
      exact ⟨h', hg⟩
  | pointer j =>
      obtain ⟨o, ho, hs⟩ := except_bind_eq_ok hs
      have hwhole := h.whole o (List.mem_of_getElem? (TypeMaps.get_eq_ok ho))
      exact formDatatype_spec h hwhole.pointer hs
  | array j len =>
      obtain ⟨o, ho, hs⟩ := except_bind_eq_ok hs
      have hwhole := h.whole o (List.mem_of_getElem? (TypeMaps.get_eq_ok ho))
      exact formDatatype_spec h (hwhole.array len) hs
  | tuple st is =>
      obtain ⟨os, hos, hm⟩ := catypeMakeTupleType_cases hs
      rcases hm with rfl | rfl | ⟨hnone, rfl, rfl⟩
      · exact ⟨h, .refl _⟩
      · exact ⟨h.remember_none _ _, .remember _ _ _ _⟩
      · have hwhole := whole_tuple h hos
        refine ⟨(h.put hwhole hnone).remember (m.getElem?_put _) fun t ht htext => ?_,
          (Grows.put m _).trans (.remember _ _ _ _)⟩
        exact (hwhole.signatureOf_eq ht htext).symm
  | slicePointer j =>
      obtain ⟨⟨o, m₁⟩, hslice, hs⟩ := except_bind_eq_ok hs
      obtain ⟨item, ptr, k, -, -, hptr, -, rfl, h₁, hg⟩ := sliceCreateCatype_spec h hslice
      obtain ⟨h', hg'⟩ := formDatatype_spec h₁ (h₁.whole ptr hptr).slice.pointer hs
      exact ⟨h', hg.trans hg'⟩

theorem Serves.spec {P : TypeMaps → Request → Prop} (h : Interned tabs m)
    (hs : Serves P mem tabs m m') : Interned tabs m' ∧ Grows m m' := by
  induction hs with
  | refl => exact ⟨h, .refl m⟩
  | tail _ hr _ hserve ih =>
      obtain ⟨h', hg⟩ := serve_spec ih.1 hr hserve
      exact ⟨h', ih.2.trans hg⟩

/-- Two datatypes with one signature are the same. -/
theorem Interned.eq_iff (h : Interned tabs m) (ho : m.objects[i]? = some o)
    (ho' : m.objects[j]? = some o') : i = j ↔ o.datatype.signature = o'.datatype.signature := by
  constructor
  · rintro rfl
    rw [Option.some.inj (ho.symm.trans ho')]
  · intro heq
    have hi := h.own i o ho
    rw [heq, h.own j o' ho'] at hi
    exact (Option.some.inj hi).symm

/-! ### Lookups that fail -/

/-- No datatype has the signature. -/
def TypeMaps.Lacks (m : TypeMaps) (s : List Char) : Prop :=
  ∀ o ∈ m.objects, o.datatype.signature ≠ s

theorem Interned.find_eq_none_iff (h : Interned tabs m) (ht : t.isText = true) :
    m.typeMap.find t.text = none ↔ m.Lacks t.text := by
  constructor
  · intro hnone o ho heq
    obtain ⟨j, hj⟩ := List.mem_iff_getElem?.mp ho
    have hfind := h.own j o hj
    rw [heq, hnone] at hfind
    cases hfind
  · intro hall
    cases hfind : m.typeMap.find t.text with
    | none => rfl
    | some j =>
        obtain ⟨o, ho, heq | hw⟩ := h.found _ _ hfind
        · exact absurd heq (hall o (List.mem_of_getElem? ho))
        · exact absurd (primWords_lookup_text ht) hw

/-- The datatype that a name is unwound to cannot be made: the signature of a component is too long,
or a field is `void`. -/
def Unmade (anon : Name) (m : TypeMaps) (D : CADataType) : Prop :=
  m.Lacks D.signature ∧ (Overruns anon D ∨ VoidField D)

/-- A lookup ends or crashes: its key is too long, or the name is no signature of a datatype and
cannot be unwound, or not be made. -/
def LookupFails (mem : Memory) (tabs : SymTables) (m : TypeMaps) (st : Scope)
    (t : TypeExpr) : Prop :=
  mem.fitsNameBuf st t.text = false ∨
    (m.Lacks t.text ∧ ∀ D, unwindType tabs st t = some D → Unmade mem.anon m D)

/-- **An unwound datatype is obtained unless it cannot be made.** -/
theorem obtainUnwound_ends (h : Interned tabs m) (ht : t.isText = true)
    (hD : unwindType tabs st t = some D) :
    ∃ x, Settles (fun k => obtainUnwound mem k m D) x ∧ x ≠ .error .fuel ∧
      (x = .error .crash ↔ Unmade mem.anon m D) := by
  have hwhole := Whole.of_unwindType ht hD
  have hlacks : m.typeMap.find D.signature = none ↔ m.Lacks D.signature :=
    h.find_eq_none_iff hwhole.isText
  simp only [obtainUnwound]
  cases hfind : m.typeMap.find D.signature with
  | some i =>
      refine ⟨.ok (i, m), .const _, ?_, ?_, ?_⟩
      · intro heq
        cases heq
      · intro heq
        cases heq
      · intro hun
        rw [hlacks.mpr hun.1] at hfind
        cases hfind
  | none =>
      obtain ⟨x, hx, hfuel, hcrash⟩ :=
        @catypeFormalizeType_ends mem.anon D hwhole.closed (unwindType_eq_some.mp hD).2
      have hrun := hx.bind (g := fun o _ => .ok (m.put o)) (y := fun o => .ok (m.put o))
        fun o _ => .const _
      refine ⟨_, hrun, fun heq => hfuel (except_bind_ok_eq_error.mp heq), ?_⟩
      rw [except_bind_ok_eq_error, hcrash, Unmade, ← hlacks]
      exact ⟨fun hstop => ⟨hfind, hstop⟩, fun hun => hun.2⟩

/-- **A lookup ends**, and fails exactly where `LookupFails` says so. -/
theorem catypeGetByName_ends (h : Interned tabs m) (ht : t.isText = true) :
    ∃ x, Settles (fun k => catypeGetByName mem k tabs m st t) x ∧ x ≠ .error .fuel ∧
      (x = .error .crash ↔ LookupFails mem tabs m st t) := by
  have hlacks := h.find_eq_none_iff ht
  simp only [catypeGetByName, answer, LookupFails]
  cases hkey : mem.fitsNameBuf st t.text with
  | false =>
      refine ⟨.error .crash, .const _, ?_, fun _ => .inl rfl, fun _ => rfl⟩
      intro heq
      cases heq
  | true =>
      simp only [if_true, Bool.true_eq_false, false_or]
      cases hfind : m.symtableTypeMap.find (some st, t.text) with
      | some j =>
          -- what was answered once was unwound, or is a signature
          refine ⟨.ok (j, m), .const _, ?_, ?_, ?_⟩
          · intro heq
            cases heq
          · intro heq
            cases heq
          · intro hfail
            obtain ⟨o, ho, hsig⟩ := h.answers st t j ht hfind
            have hmem := List.mem_of_getElem? ho
            rw [signatureOf] at hsig
            cases hD : unwindType tabs st t with
            | none => exact absurd (by rw [hsig, hD]) (hfail.1 o hmem)
            | some D => exact absurd (by rw [hsig, hD]) ((hfail.2 D hD).1 o hmem)
      | none =>
          cases htype : m.typeMap.find t.text with
          | some j =>
              refine ⟨.ok _, .const _, ?_, ?_, ?_⟩
              · intro heq
                cases heq
              · intro heq
                cases heq
              · intro hfail
                rw [hlacks.mpr hfail.1] at htype
                cases htype
          | none =>
              cases hD : unwindType tabs st t with
              | none =>
                  refine ⟨.error .crash, .const _, ?_, ?_, fun _ => rfl⟩
                  · intro heq
                    cases heq
                  · intro _
                    exact ⟨hlacks.mp htype, fun D hD' => by cases hD'⟩
              | some D =>
                  have hobtain : ∃ x, Settles (fun k => obtainUnwound mem k m D) x ∧
                      x ≠ .error .fuel ∧ (x = .error .crash ↔ Unmade mem.anon m D) :=
                    obtainUnwound_ends h ht hD
                  obtain ⟨x, hx, hfuel, hcrash⟩ := hobtain
                  have hrun := hx.bind
                    (g := fun r _ => .ok (r.1, r.2.remember (some st) t.text r.1))
                    (y := fun r => .ok (r.1, r.2.remember (some st) t.text r.1)) fun r _ => .const _
                  refine ⟨_, hrun, fun heq => hfuel (except_bind_ok_eq_error.mp heq), ?_⟩
                  rw [except_bind_ok_eq_error, hcrash]
                  constructor
                  · intro hun
                    refine ⟨hlacks.mp htype, ?_⟩
                    intro E hE
                    cases hE
                    exact hun
                  · intro hun
                    exact hun.2 D rfl

/-- What the formats may print. -/
def someMemory : Memory := ⟨[], fun _ => ['0', 'x', '1']⟩

end CaLang.Types

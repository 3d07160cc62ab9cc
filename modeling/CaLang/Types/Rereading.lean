import CaLang.Types.Alignment

/-! # Signatures as type names

The signature of a datatype is a type text, and the compiler uses it as a name: a variable keeps the
signature of its type, which is looked up again, in other tables.  **A signature that is read at all
is read as itself**, in whatever table: every name in it is a primitive type, or goes back to a
struct that the text writes out around it.

It need not be read: the unwinder looks for a declaration of a name before it goes back.
-/

namespace CaLang.Types

variable {tabs : SymTables} {st : Scope} {c : UnwindCtx} {n : Name} {handler : NameHandler}
  {D E : CADataType}

/-! ### Signatures are type texts -/

/-- An identifier that is written as the type it stands for. -/
def isTypeName (n : Name) : Bool := isIdent n && decide (getInnerTypeString n = n)

theorem isTypeName_text (p : Prim) : isTypeName p.text = true := by cases p <;> decide

theorem isTextName_of_isIdent (h : isIdent n = true) : isTextName n = true := by
  obtain ⟨c, cs, rfl, -⟩ := isIdent_cons h
  rw [isTextName, List.isEmpty_cons, Bool.not_false, Bool.true_and]
  exact List.all_eq_true.mpr (isIdent_all h)

@[simp] theorem StructHead.hasFieldNames_map {α β : Type} (f : α → β) (h : StructHead α) :
    (h.map f).hasFieldNames = h.hasFieldNames := by
  cases h <;> rfl

mutual
/-- **A datatype has a signature that can be read**, if those of the names in its text have. -/
theorem TypeExpr.isText_of_unwind (t : TypeExpr) {c : UnwindCtx} {D : CADataType}
    (ht : t.isText = true)
    (hN : ∀ c' m E, room tabs c' ≤ room tabs c → isTypeName m = true → handler st c' m = some E →
      E.toExpr.isText = true)
    (hD : t.unwind handler st c = some D) : D.toExpr.isText = true := by
  cases t with
  | ident n => exact hN c n D (Nat.le_refl _) ht hD
  | pointer t =>
      obtain ⟨E, hE, rfl⟩ := Option.map_eq_some_iff.mp hD
      exact show E.toExpr.isText = true from t.isText_of_unwind (c := c.fresh) ht hN hE
  | array e len =>
      rw [TypeExpr.unwind] at hD
      split at hD
      · obtain ⟨E, hE, rfl⟩ := Option.map_eq_some_iff.mp hD
        exact show E.toExpr.isText = true from e.isText_of_unwind ht hN hE
      · cases hD
  | struct hd fs =>
      obtain ⟨ds, hds, rfl⟩ := TypeExpr.struct_of_unwind hD
      simp only [TypeExpr.isText, Bool.and_eq_true] at ht
      simp only [CADataType.toExpr, TypeExpr.isText, StructHead.map_name, Bool.and_eq_true]
      exact ⟨ht.1, fs.isText_of_unwind ht.2 (fun c' m E hroom => hN c' m E
        (hroom.trans (room_enter_le c hd))) hds⟩

theorem TypeFields.isText_of_unwind (fs : TypeFields) {named : Bool} {c : UnwindCtx}
    {ds : CAStructFields} (hfs : fs.isText named = true)
    (hN : ∀ c' m E, room tabs c' ≤ room tabs c → isTypeName m = true → handler st c' m = some E →
      E.toExpr.isText = true)
    (hD : fs.unwind handler st c = some ds) : ds.toExpr.isText named = true := by
  cases fs with
  | nil =>
      cases hD
      rfl
  | cons n t rest =>
      rw [TypeFields.unwind] at hD
      simp only [TypeFields.isText, Bool.and_eq_true] at hfs
      split at hD
      · rename_i d ds' hd hds
        cases hD
        simp only [CAStructFields.toExpr, TypeFields.isText, Bool.and_eq_true]
        exact ⟨⟨hfs.1.1, t.isText_of_unwind hfs.1.2 hN hd⟩, rest.isText_of_unwind hfs.2 hN hds⟩
      · cases hD
end

theorem unwindTypeName_isText (hn : isTypeName n = true)
    (hD : unwindTypeName tabs st c n = some D) : D.toExpr.isText = true := by
  induction hk : room tabs c using Nat.strong_induction_on generalizing c st n D with
  | _ k ih =>
      subst hk
      rw [unwindTypeName_eq] at hD
      cases hv : nameVerdict tabs st c n with
      | stop => simp [hv] at hD
      | prim p =>
          simp only [hv] at hD
          cases hD
          exact isTypeName_text p
      | back id =>
          simp only [hv] at hD
          cases hD
          obtain ⟨table, rfl, -⟩ := nameVerdict_back hv
          exact hn
      | expand e =>
          simp only [hv] at hD
          have hlt := room_ctx_lt hv
          have hN : ∀ c' m E, room tabs c' ≤ room tabs (e.ctx c) → isTypeName m = true →
              unwindTypeName tabs e.idtable c' m = some E → E.toExpr.isText = true :=
            fun c' m E hroom hm hE => ih _ (by omega) hm hE rfl
          have hdecl := tabs.declared e (nameVerdict_expand_mem hv)
          simp only [STEntry.isDeclared, Bool.and_eq_true] at hdecl
          rw [STEntry.unwind] at hD
          cases hb : e.body with
          | «alias» id =>
              simp only [hb] at hD
              have hsource : id.isSource = true := by
                simpa only [hb, TypeBody.isSource] using hdecl.2
              exact id.isText_of_unwind (id.isText_of_isSource hsource) hN hD
          | struct tuple members =>
              simp only [hb] at hD
              obtain ⟨ds, hds, rfl⟩ := Option.map_eq_some_iff.mp hD
              have hsource : members.isSource (!tuple) = true := by
                simpa only [hb, TypeBody.isSource] using hdecl.2
              have hms := members.isText_of_unwind (members.isText_of_isSource hsource) hN hds
              have hname := isTextName_of_isIdent hdecl.1.1.1
              simp only [CADataType.toExpr, TypeExpr.isText, Bool.and_eq_true,
                StructHead.hasFieldNames_map]
              cases tuple with
              | true => exact ⟨hname, hms⟩
              | false => exact ⟨hname, hms⟩

/-- **The signature of a datatype can be read as a type text.** -/
theorem isText_of_unwindType {t : TypeExpr} (ht : t.isText = true)
    (hD : unwindType tabs st t = some D) : D.toExpr.isText = true :=
  t.isText_of_unwind ht (fun _ _ _ (_ : room tabs _ ≤ _) hm hE => unwindTypeName_isText hm hE)
    (unwindType_eq_some.mp hD).1

/-! ### Signatures are read as themselves -/

/-- The names of `ids` are in `prenamemap`. -/
def Within (c : UnwindCtx) (ids : List StructId) : Prop :=
  ∀ id ∈ ids, c.prenamemap.lookup id.name ≠ none

theorem Within.insert {ids : List StructId} {id : StructId} {entry : NameEntry}
    (h : Within c ids) : Within (c.insert id.name entry) (id :: ids) := by
  intro i hi hm
  rcases List.mem_cons.mp hi with rfl | hi
  · exact c.lookup_insert_self _ _ hm
  · exact h i hi (UnwindCtx.lookup_of_insert hm)

theorem Within.enter {ids : List StructId} (h : Within c ids) (hd : StructHead StructId) :
    Within (c.enter (hd.map StructId.name)) (hd.open ids) := by
  cases hd with
  | namedStruct id => exact h.insert
  | namedTuple id => exact h.insert
  | generalTuple => exact h
  | slice => exact h

/-- A name that is open is a primitive type or goes back. -/
theorem unwindTypeName_known (hn : isTypeName n = true)
    (hk : c.prenamemap.lookup n ≠ none) (hE : unwindTypeName tabs st c n = some E) :
    E.toExpr = .ident n := by
  rw [unwindTypeName_eq] at hE
  cases hv : nameVerdict tabs st c n with
  | stop => simp [hv] at hE
  | prim p =>
      simp only [hv] at hE
      cases hE
      simp only [isTypeName, Bool.and_eq_true, decide_eq_true_eq] at hn
      rw [catypeGetPrimitiveByName_eq_some hn.2 (nameVerdict_prim hv)]
      rfl
  | back id =>
      simp only [hv] at hE
      cases hE
      obtain ⟨table, rfl, -⟩ := nameVerdict_back hv
      rfl
  | expand e => exact absurd (nameVerdict_eq_expand.mp hv).2.2.2.2 hk

mutual
theorem CADataType.toExpr_of_unwind (D : CADataType) {c : UnwindCtx} {ids : List StructId}
    {E : CADataType} (hD : D.toExpr.isText = true) (hcl : D.closedIn ids) (hc : Within c ids)
    (hE : D.toExpr.unwind (unwindTypeName tabs) st c = some E) : E.toExpr = D.toExpr := by
  cases D with
  | prim p =>
      have hv : nameVerdict tabs st c p.text = .prim p := by
        have hread : ReadableName p.text := by cases p <;> decide
        simp only [nameVerdict, if_pos hread, catypeGetPrimitiveByName_text]
      have hprim : unwindTypeName tabs st c p.text = some (.prim p) := by
        rw [unwindTypeName_eq, hv]
      cases hprim.symm.trans hE
      rfl
  | pointer t =>
      obtain ⟨E', hE', rfl⟩ := Option.map_eq_some_iff.mp hE
      exact congrArg TypeExpr.pointer (t.toExpr_of_unwind (c := c.fresh) hD hcl hc hE')
  | array e len =>
      rw [CADataType.toExpr, TypeExpr.unwind] at hE
      split at hE
      · obtain ⟨E', hE', rfl⟩ := Option.map_eq_some_iff.mp hE
        rw [CADataType.toExpr, CADataType.toExpr, e.toExpr_of_unwind hD hcl hc hE',
          Int.toNat_natCast]
      · cases hE
  | struct hd fs =>
      obtain ⟨ds, hds, rfl⟩ := TypeExpr.struct_of_unwind hE
      simp only [CADataType.toExpr, TypeExpr.isText, Bool.and_eq_true] at hD
      rw [CADataType.toExpr, CADataType.toExpr, StructHead.map_name,
        fs.toExpr_of_unwind hD.2 hcl (hc.enter hd) hds]
  | recur id => exact unwindTypeName_known hD (hc id hcl) hE

theorem CAStructFields.toExpr_of_unwind (fs : CAStructFields) {named : Bool} {c : UnwindCtx}
    {ids : List StructId} {ds : CAStructFields} (hfs : fs.toExpr.isText named = true)
    (hcl : fs.closedIn ids) (hc : Within c ids)
    (hE : fs.toExpr.unwind (unwindTypeName tabs) st c = some ds) : ds.toExpr = fs.toExpr := by
  cases fs with
  | nil =>
      cases hE
      rfl
  | cons n t rest =>
      rw [CAStructFields.toExpr, TypeFields.unwind] at hE
      simp only [CAStructFields.toExpr, TypeFields.isText, Bool.and_eq_true] at hfs
      split at hE
      · rename_i d ds' hd hds
        cases hE
        rw [CAStructFields.toExpr, CAStructFields.toExpr, t.toExpr_of_unwind hfs.1.2 hcl.1 hc hd,
          rest.toExpr_of_unwind hfs.2 hcl.2 hc hds]
      · cases hE
end

/-- A datatype whose signature can be read, with no back reference out of it. -/
structure Whole (D : CADataType) : Prop where
  isText : D.toExpr.isText = true
  closed : D.closedIn []

theorem Whole.of_unwindType {t : TypeExpr} (ht : t.isText = true)
    (hD : unwindType tabs st t = some D) : Whole D :=
  ⟨isText_of_unwindType ht hD, closedIn_of_unwindType hD⟩

/-- **A signature is read as itself** in any table, if it is read. -/
theorem Whole.signature_eq (h : Whole D) (hE : unwindType tabs st D.toExpr = some E) :
    E.signature = D.signature := by
  have hempty : Within .empty [] := nofun
  rw [CADataType.signature, CADataType.signature,
    D.toExpr_of_unwind h.isText h.closed hempty (unwindType_eq_some.mp hE).1]

/-- What a text is unwound to depends on its characters only. -/
theorem unwindType_text {t t' : TypeExpr} (ht : t.isText = true) (ht' : t'.isText = true)
    (h : t.text = t'.text) : unwindType tabs st t = unwindType tabs st t' := by
  have hs := catypeUnwindTypeSignature_settles tabs st ht
  rw [h] at hs
  have heq := hs.unique (catypeUnwindTypeSignature_settles tabs st ht')
  cases hD : unwindType tabs st t with
  | none =>
      rw [hD] at heq
      cases hD' : unwindType tabs st t' with
      | none => rfl
      | some D' =>
          rw [hD'] at heq
          cases heq
  | some D =>
      rw [hD] at heq
      cases hD' : unwindType tabs st t' with
      | none =>
          rw [hD'] at heq
          cases heq
      | some D' =>
          rw [hD'] at heq
          exact congrArg some (congrArg Unwound.retdt (Except.ok.inj heq))

end CaLang.Types

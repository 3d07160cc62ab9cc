import CaLang.Types.Renaming

/-! # Types written out in full

A name stands for what it is declared as, so that a type can be written without declared names, but
for those inside their own declaration.  **The signature of an unwound datatype is the type written
out in full** (`unwindTree_toExpr`), as long as no open declaration has the name of a different
visible one: so the declarations alone say whether the buffer for the signature is large enough.

- `writtenOut`: the type written out;
- `Short`: it fits into the buffer.
-/

namespace CaLang.Types

mutual
/-- The expression with its names written out as `f` says. -/
def TypeExpr.writeOut (f : Name → TypeExpr) : TypeExpr → TypeExpr
  | .ident n => f n
  | .pointer t => .pointer (t.writeOut f)
  | .array e len => .array (e.writeOut f) len
  | .struct h fs => .struct h (fs.writeOut f)

def TypeFields.writeOut (f : Name → TypeExpr) : TypeFields → TypeFields
  | .nil => .nil
  | .cons n t rest => .cons n (t.writeOut f) (rest.writeOut f)
end

/-- What a declaration stands for. -/
def STEntry.writeOut (f : Name → TypeExpr) (e : STEntry) : TypeExpr :=
  match e.body with
  | .alias id => id.writeOut f
  | .struct tuple members =>
      .struct (if tuple then .namedTuple e.name else .namedStruct e.name) (members.writeOut f)

/-- A name written out inside the declarations `l`, at most `depth` of them inside each other. -/
def writtenName (tabs : SymTables) : Nat → List STEntry → Scope → Name → TypeExpr
  | 0, _, _, n => .ident n
  | depth + 1, l, st, n =>
      match catypeGetPrimitiveByName n, tabs.symGettypesymByName st n with
      | none, some e =>
          if e ∈ l then .ident n else e.writeOut (writtenName tabs depth (e :: l) e.idtable)
      | _, _ => .ident n

/-- A type written out in full. -/
def writtenOut (tabs : SymTables) (st : Scope) (t : TypeExpr) : TypeExpr :=
  t.writeOut (writtenName tabs tabs.entries.length [] st)

/-- **The type written out in full fits into the buffer.** -/
def Short (tabs : SymTables) (st : Scope) (t : TypeExpr) : Prop :=
  fitsTypeBuf (writtenOut tabs st t).text = true

instance (tabs : SymTables) (st : Scope) (t : TypeExpr) : Decidable (Short tabs st t) :=
  inferInstanceAs (Decidable (_ = _))

/-! ### The names of an expression -/

mutual
/-- The formers write names as the types they stand for. -/
theorem TypeExpr.inner_of_mentions (t : TypeExpr) (ht : t.isSource = true) (ptr : Bool) :
    ∀ m ∈ t.mentions ptr, getInnerTypeString m.1 = m.1 := by
  cases t with
  | ident n =>
      intro m hm
      rw [List.mem_singleton.mp hm]
      simp only [TypeExpr.isSource, Bool.and_eq_true, decide_eq_true_eq] at ht
      exact ht.2
  | pointer t => exact t.inner_of_mentions ht true
  | array e len => exact e.inner_of_mentions ht ptr
  | struct hd fs =>
      cases hd with
      | namedStruct n => cases ht
      | namedTuple n => cases ht
      | generalTuple => exact fs.inner_of_mentions ht ptr
      | slice => exact fs.inner_of_mentions ht ptr

theorem TypeFields.inner_of_mentions (fs : TypeFields) {named : Bool}
    (hf : fs.isSource named = true) (ptr : Bool) :
    ∀ m ∈ fs.mentions ptr, getInnerTypeString m.1 = m.1 := by
  cases fs with
  | nil =>
      intro m hm
      cases hm
  | cons n t rest =>
      simp only [TypeFields.isSource, Bool.and_eq_true] at hf
      intro m hm
      rcases List.mem_append.mp hm with hm | hm
      · exact t.inner_of_mentions hf.1.2 ptr m hm
      · exact rest.inner_of_mentions hf.2 ptr m hm
end

section Signatures

variable {tabs : SymTables} {st : Scope} {t : TypeExpr}

theorem STEntry.inner_of_mentions {e : STEntry} (he : e ∈ tabs.entries) :
    ∀ m ∈ e.body.mentions, getInnerTypeString m.1 = m.1 := by
  have hs := STEntry.isSource_body he
  cases hb : e.body with
  | «alias» id =>
      rw [hb] at hs
      exact id.inner_of_mentions hs false
  | struct tuple members =>
      rw [hb] at hs
      exact members.inner_of_mentions hs false

theorem Trail.inner {l : List STEntry} {v : Visit} (hv : Trail tabs st t l v)
    (ht : t.isSource = true) : getInnerTypeString v.name = v.name := by
  cases hv with
  | start hm => exact t.inner_of_mentions ht false _ hm
  | step _ he hm => exact STEntry.inner_of_mentions (nameVerdict_expand_mem he) _ hm

/-! ### Signatures -/

mutual
/-- The signature of a datatype is the expression with the signatures of its names. -/
theorem TypeExpr.toExpr_unwind {h : NameHandler} {c : UnwindCtx} {f : Name → TypeExpr}
    (t : TypeExpr) (ht : t.isSource = true) (ptr : Bool)
    (hf : ∀ m ∈ t.mentions ptr, ∀ E, h st (c.at m.2) m.1 = some E → E.toExpr = f m.1)
    {D : CADataType} (hD : t.unwind h st (c.at ptr) = some D) : D.toExpr = t.writeOut f := by
  cases t with
  | ident n => exact hf (n, ptr) (List.mem_singleton_self _) D hD
  | pointer t =>
      rw [TypeExpr.unwind, UnwindCtx.at_fresh] at hD
      obtain ⟨E, hE, rfl⟩ := Option.map_eq_some_iff.mp hD
      exact congrArg TypeExpr.pointer (t.toExpr_unwind ht true hf hE)
  | array e len =>
      rw [TypeExpr.unwind] at hD
      split at hD
      · rename_i hlen
        obtain ⟨E, hE, rfl⟩ := Option.map_eq_some_iff.mp hD
        simp only [isLength, Bool.and_eq_true, decide_eq_true_eq] at hlen
        rw [CADataType.toExpr, TypeExpr.writeOut, e.toExpr_unwind ht ptr hf hE,
          Int.toNat_of_nonneg hlen.1]
      · cases hD
  | struct hd fs =>
      cases hd with
      | namedStruct n => cases ht
      | namedTuple n => cases ht
      | generalTuple =>
          rw [TypeExpr.unwind_unnamed ht (.inl rfl)] at hD
          obtain ⟨ds, hds, rfl⟩ := Option.map_eq_some_iff.mp hD
          exact congrArg (TypeExpr.struct .generalTuple) (fs.toExpr_unwind ht ptr hf hds)
      | slice =>
          rw [TypeExpr.unwind_unnamed ht (.inr rfl)] at hD
          obtain ⟨ds, hds, rfl⟩ := Option.map_eq_some_iff.mp hD
          exact congrArg (TypeExpr.struct .slice) (fs.toExpr_unwind ht ptr hf hds)

theorem TypeFields.toExpr_unwind {h : NameHandler} {c : UnwindCtx} {f : Name → TypeExpr}
    (fs : TypeFields) {named : Bool} (hfs : fs.isSource named = true) (ptr : Bool)
    (hf : ∀ m ∈ fs.mentions ptr, ∀ E, h st (c.at m.2) m.1 = some E → E.toExpr = f m.1)
    {ds : CAStructFields} (hD : fs.unwind h st (c.at ptr) = some ds) :
    ds.toExpr = fs.writeOut f := by
  cases fs with
  | nil =>
      cases hD
      rfl
  | cons n t rest =>
      simp only [TypeFields.isSource, Bool.and_eq_true] at hfs
      rw [TypeFields.unwind] at hD
      split at hD
      · rename_i D ds' hd hds
        cases hD
        rw [CAStructFields.toExpr, TypeFields.writeOut,
          t.toExpr_unwind hfs.1.2 ptr (fun m hm => hf m (List.mem_append_left _ hm)) hd,
          rest.toExpr_unwind hfs.2 ptr (fun m hm => hf m (List.mem_append_right _ hm)) hds]
      · cases hD
end

theorem STEntry.toExpr_unwind {h : NameHandler} {c : UnwindCtx} {f : Name → TypeExpr}
    {e : STEntry} (he : e ∈ tabs.entries)
    (hf : ∀ m ∈ e.body.mentions, ∀ E, h e.idtable ((e.ctx c).at m.2) m.1 = some E →
      E.toExpr = f m.1)
    {D : CADataType} (hD : e.unwind h c = some D) : D.toExpr = e.writeOut f := by
  have hs := STEntry.isSource_body he
  unfold STEntry.unwind at hD
  unfold STEntry.writeOut
  cases hb : e.body with
  | «alias» id =>
      simp only [hb] at hs hf hD ⊢
      exact id.toExpr_unwind hs false hf hD
  | struct tuple members =>
      simp only [hb] at hs hf hD ⊢
      obtain ⟨ds, hds, rfl⟩ := Option.map_eq_some_iff.mp hD
      rw [CADataType.toExpr, members.toExpr_unwind hs false hf hds]
      cases tuple <;> rfl

/-- **A visited name is written out as it is declared.** -/
theorem Trail.toExpr_unwindDecl (ht : t.isSource = true) (hc : Clean tabs st t) (depth : Nat)
    {l : List STEntry} {v : Visit} (hv : Trail tabs st t l v) {D : CADataType}
    (hD : unwindDecl tabs depth v.table v.ctx v.name = some D) :
    D.toExpr = writtenName tabs depth l v.table v.name := by
  induction depth generalizing l v D with
  | zero =>
      rw [unwindDecl.eq_def] at hD
      cases hverdict : nameVerdict tabs v.table v.ctx v.name with
      | stop => simp [hverdict] at hD
      | prim p =>
          simp only [hverdict, Option.some.injEq] at hD
          rw [← hD, catypeGetPrimitiveByName_eq_some (hv.inner ht) (nameVerdict_prim hverdict)]
          rfl
      | back id =>
          simp only [hverdict, Option.some.injEq] at hD
          rw [← hD, ← (nameVerdict_eq_back.mp hverdict).2.2.2.2.2]
          rfl
      | expand e => simp [hverdict] at hD
  | succ depth ih =>
      rw [unwindDecl.eq_def] at hD
      cases hverdict : nameVerdict tabs v.table v.ctx v.name with
      | stop => simp [hverdict] at hD
      | prim p =>
          have hp := nameVerdict_prim hverdict
          simp only [hverdict, Option.some.injEq] at hD
          rw [← hD, writtenName, hp]
          exact congrArg TypeExpr.ident
            (catypeGetPrimitiveByName_eq_some (hv.inner ht) hp).symm
      | back id =>
          obtain ⟨-, hprim, ⟨x, hx⟩, -, hlookup, hname⟩ := nameVerdict_eq_back.mp hverdict
          obtain ⟨a, ha, haname, -⟩ := hv.lookup_eq_some hlookup
          have hax := hc l v hv x ⟨hprim, hx⟩ a ha haname
          simp only [hverdict, Option.some.injEq] at hD
          rw [← hD, writtenName, hprim, hx]
          simp only [if_pos (hax ▸ ha), CADataType.toExpr, hname]
      | expand e =>
          obtain ⟨-, hprim, hx, -, hfresh⟩ := nameVerdict_eq_expand.mp hverdict
          have hnew : e ∉ l := fun hmem => by
            have hlookup := hv.lookup_of_mem hmem
            rw [nameVerdict_expand_name hverdict, hfresh] at hlookup
            cases hlookup
          simp only [hverdict] at hD
          rw [writtenName, hprim, hx]
          simp only [if_neg hnew]
          exact STEntry.toExpr_unwind (nameVerdict_expand_mem hverdict)
            (fun m hm E hE => ih (hv.step hverdict hm) hE) hD

/-- **The signature of an unwound datatype is the type written out in full.** -/
theorem unwindTree_toExpr (ht : t.isSource = true) (hc : Clean tabs st t) {D : CADataType}
    (hD : unwindTree tabs st t = some D) : D.toExpr = writtenOut tabs st t :=
  t.toExpr_unwind (c := .empty) ht false
    (fun _ hm _ hE => Trail.toExpr_unwindDecl ht hc tabs.entries.length (.start hm) hE) hD

/-- **Where the names are hygienic, the buffer is large enough exactly for short types.** -/
theorem unwindType_isSome_iff (ht : t.isSource = true) (hc : Clean tabs st t) :
    (unwindType tabs st t).isSome ↔ (unwindTree tabs st t).isSome ∧ Short tabs st t := by
  rw [unwindType]
  cases hD : unwindTree tabs st t with
  | none => simp
  | some D =>
      have hfits : Short tabs st t ↔ D.fits = true := by
        rw [Short, ← unwindTree_toExpr ht hc hD]
        rfl
      rw [hfits]
      simp [Option.filter_some]

end Signatures

end CaLang.Types

import CaLang.Types.Visits

/-! # Renaming a declaration

A declaration is renamed together with the names that stand for it where they are written. With a
fresh name the tables answer as before (`symGettypesymByName_rename`). **The unwinder answers as
before too, as long as no open declaration has the name of a different visible one**
(`unwindTree_rename`): `prenamemap` and `rcheckset` are searched by name, and then they cannot
confuse the two. Where the renamed declaration is met, its new name has to be readable if the old
one is.
-/

namespace CaLang.Types

mutual
def TypeExpr.mapNames (f : Name → Name) : TypeExpr → TypeExpr
  | .ident n => .ident (f n)
  | .pointer t => .pointer (t.mapNames f)
  | .array e len => .array (e.mapNames f) len
  | .struct h fs => .struct h (fs.mapNames f)

def TypeFields.mapNames (f : Name → Name) : TypeFields → TypeFields
  | .nil => .nil
  | .cons n t rest => .cons n (t.mapNames f) (rest.mapNames f)
end

def TypeBody.mapNames (f : Name → Name) : TypeBody → TypeBody
  | .alias id => .alias (id.mapNames f)
  | .struct tuple members => .struct tuple (members.mapNames f)

mutual
def CADataType.mapIds (g : StructId → StructId) : CADataType → CADataType
  | .prim p => .prim p
  | .pointer t => .pointer (t.mapIds g)
  | .array e len => .array (e.mapIds g) len
  | .struct h fs => .struct (h.map g) (fs.mapIds g)
  | .recur i => .recur (g i)

def CAStructFields.mapIds (g : StructId → StructId) : CAStructFields → CAStructFields
  | .nil => .nil
  | .cons n t rest => .cons n (t.mapIds g) (rest.mapIds g)
end

/-- The name `n`, written in the table `st`, after `d` is renamed to `n'`. -/
def renameName (tabs : SymTables) (d : STEntry) (n' : Name) (st : Scope) (n : Name) : Name :=
  if catypeGetPrimitiveByName n = none ∧ tabs.symGettypesymByName st n = some d then n' else n

/-- The struct of `d` is now called `n'`. -/
def renameId (d : STEntry) (n' : Name) (i : StructId) : StructId :=
  if i = d.id then ⟨some d.idtable, n'⟩ else i

/-- The declaration `e` after `d` is renamed to `n'`. -/
def STEntry.rename (e : STEntry) (tabs : SymTables) (d : STEntry) (n' : Name) : STEntry where
  idtable := e.idtable
  name := if e = d then n' else e.name
  body := e.body.mapNames (renameName tabs d n' e.idtable)

/-- A name for `d` that occurs nowhere. -/
structure FreshName (tabs : SymTables) (d : STEntry) (n' : Name) : Prop where
  mem : d ∈ tabs.entries
  ident : isIdent n' = true
  inner : getInnerTypeString n' = n'
  notPrim : catypeGetPrimitiveByName n' = none
  declared : ∀ e ∈ tabs.entries, e.name ≠ n'
  mentioned : ∀ e ∈ tabs.entries, ∀ m ∈ e.body.mentions, m.1 ≠ n'

mutual
theorem TypeExpr.isSource_mapNames {f : Name → Name} (t : TypeExpr) (ht : t.isSource = true)
    (hf : ∀ n, isIdent n = true → getInnerTypeString n = n →
      isIdent (f n) = true ∧ getInnerTypeString (f n) = f n) :
    (t.mapNames f).isSource = true := by
  cases t with
  | ident n =>
      simp only [TypeExpr.isSource, TypeExpr.mapNames, Bool.and_eq_true, decide_eq_true_eq] at ht ⊢
      exact hf n ht.1 ht.2
  | pointer t => exact t.isSource_mapNames ht hf
  | array e n => exact e.isSource_mapNames ht hf
  | struct hd fs =>
      cases hd with
      | namedStruct n => cases ht
      | namedTuple n => cases ht
      | generalTuple => exact fs.isSource_mapNames ht hf
      | slice => exact fs.isSource_mapNames ht hf

theorem TypeFields.isSource_mapNames {f : Name → Name} (fs : TypeFields) {named : Bool}
    (h : fs.isSource named = true)
    (hf : ∀ n, isIdent n = true → getInnerTypeString n = n →
      isIdent (f n) = true ∧ getInnerTypeString (f n) = f n) :
    (fs.mapNames f).isSource named = true := by
  cases fs with
  | nil => rfl
  | cons n t rest =>
      simp only [TypeFields.isSource, TypeFields.mapNames, Bool.and_eq_true] at h ⊢
      exact ⟨⟨h.1.1, t.isSource_mapNames h.1.2 hf⟩, rest.isSource_mapNames h.2 hf⟩
end

theorem TypeBody.isSource_mapNames {f : Name → Name} {b : TypeBody} (hb : b.isSource = true)
    (hf : ∀ n, isIdent n = true → getInnerTypeString n = n →
      isIdent (f n) = true ∧ getInnerTypeString (f n) = f n) :
    (b.mapNames f).isSource = true := by
  cases b with
  | «alias» id => exact id.isSource_mapNames hb hf
  | struct tuple members => exact members.isSource_mapNames hb hf

/-! ### The renamed tables -/

section Tables

variable {tabs : SymTables} {d e x : STEntry} {n n' : Name} {st : Scope}

theorem FreshName.renameName_ok (h : FreshName tabs d n') (st : Scope) (n : Name)
    (hn : isIdent n = true) (hi : getInnerTypeString n = n) :
    isIdent (renameName tabs d n' st n) = true ∧
      getInnerTypeString (renameName tabs d n' st n) = renameName tabs d n' st n := by
  unfold renameName
  split
  · exact ⟨h.ident, h.inner⟩
  · exact ⟨hn, hi⟩

theorem STEntry.rename_name_self : (d.rename tabs d n').name = n' := if_pos rfl

theorem STEntry.rename_name_of_ne (h : e ≠ d) : (e.rename tabs d n').name = e.name := if_neg h

theorem STEntry.rename_nameEntry : (e.rename tabs d n').nameEntry = e.nameEntry := by
  unfold STEntry.nameEntry STEntry.rename
  cases e.body <;> rfl

/-- Renamed declarations have the same name only if they had it, or are the same. -/
theorem FreshName.name_of_rename (h : FreshName tabs d n') (he : e ∈ tabs.entries)
    (hx : x ∈ tabs.entries)
    (heq : (e.rename tabs d n').name = (x.rename tabs d n').name) : e = x ∨ e.name = x.name := by
  by_cases hed : e = d
  · subst hed
    by_cases hxd : x = e
    · exact .inl hxd.symm
    · rw [STEntry.rename_name_self, STEntry.rename_name_of_ne hxd] at heq
      exact absurd heq.symm (h.declared x hx)
  · by_cases hxd : x = d
    · subst hxd
      rw [STEntry.rename_name_self, STEntry.rename_name_of_ne hed] at heq
      exact absurd heq (h.declared e he)
    · rw [STEntry.rename_name_of_ne hed, STEntry.rename_name_of_ne hxd] at heq
      exact .inr heq

/-- The tables after `d` is renamed to a fresh name. -/
def SymTables.rename (tabs : SymTables) (d : STEntry) (n' : Name) (h : FreshName tabs d n') :
    SymTables where
  entries := tabs.entries.map (·.rename tabs d n')
  nodup := by
    rw [List.map_map]
    refine List.Nodup.map_on ?_ (List.Nodup.of_map _ tabs.nodup)
    intro e he x hx heq
    simp only [Function.comp, Prod.mk.injEq] at heq
    rcases h.name_of_rename he hx heq.2 with hex | hname
    · exact hex
    · exact SymTables.entry_inj he hx
        (by rw [STEntry.id, STEntry.id, show e.idtable = x.idtable from heq.1, hname])
  declared := by
    intro e' he'
    obtain ⟨e, he, rfl⟩ := List.mem_map.mp he'
    have hdecl := tabs.declared e he
    simp only [STEntry.isDeclared, Bool.and_eq_true, decide_eq_true_eq] at hdecl ⊢
    refine ⟨?_, TypeBody.isSource_mapNames hdecl.2 (h.renameName_ok e.idtable)⟩
    by_cases hed : e = d
    · subst hed
      rw [STEntry.rename_name_self]
      exact ⟨⟨h.ident, h.inner⟩, by rw [h.notPrim]; rfl⟩
    · rw [STEntry.rename_name_of_ne hed]
      exact hdecl.1

theorem mem_rename_entries (h : FreshName tabs d n') {e' : STEntry} :
    e' ∈ (tabs.rename d n' h).entries ↔ ∃ e ∈ tabs.entries, e.rename tabs d n' = e' :=
  List.mem_map

/-- One renamed table answers as before. -/
theorem getHere_rename (h : FreshName tabs d n') {m m' : Name}
    (hm : ∀ e ∈ tabs.entries, e.idtable = st →
      ((e.rename tabs d n').name = m' ↔ e.name = m)) :
    (tabs.rename d n' h).getHere st m' = (tabs.getHere st m).map (·.rename tabs d n') := by
  cases hf : tabs.getHere st m with
  | some e =>
      obtain ⟨he, ht, hn⟩ := SymTables.getHere_eq_some hf
      exact SymTables.getHere_eq_some_iff.mpr
        ⟨List.mem_map_of_mem he, ht, (hm e he ht).mpr hn⟩
  | none =>
      rw [Option.map_none, SymTables.getHere_eq_none_iff]
      intro e' he' ht hn
      obtain ⟨e, he, rfl⟩ := (mem_rename_entries h).mp he'
      exact SymTables.getHere_eq_none_iff.mp hf e he ht ((hm e he ht).mp hn)

/-- A name that stands for `d` finds the renamed `d` under its new name. -/
theorem symGettypesymByName_rename_self (h : FreshName tabs d n')
    (hs : tabs.symGettypesymByName st n = some d) :
    (tabs.rename d n' h).symGettypesymByName st n' = some (d.rename tabs d n') := by
  have hname : ∀ e ∈ tabs.entries, e.idtable ≠ d.idtable →
      (e.rename tabs d n').name ≠ n' := by
    intro e he ht
    have hed : e ≠ d := fun hed => ht (hed ▸ rfl)
    rw [STEntry.rename_name_of_ne hed]
    exact h.declared e he
  have hdn : d.name = n := (SymTables.symGettypesymByName_mem hs).2
  have hhere : (tabs.rename d n' h).getHere d.idtable n' = some (d.rename tabs d n') :=
    SymTables.getHere_eq_some_iff.mpr
      ⟨List.mem_map_of_mem h.mem, rfl, STEntry.rename_name_self⟩
  have hother : ∀ st', st' ≠ d.idtable → (tabs.rename d n' h).getHere st' n' = none := by
    intro st' hne
    rw [SymTables.getHere_eq_none_iff]
    intro e' he' ht hn
    obtain ⟨e, he, rfl⟩ := (mem_rename_entries h).mp he'
    exact hname e he (fun heq => hne (ht.symm.trans heq)) hn
  induction st with
  | nil =>
      obtain ⟨-, ht, -⟩ := SymTables.getHere_eq_some hs
      rw [SymTables.symGettypesymByName, ← ht]
      exact hhere
  | cons i parent ih =>
      rw [SymTables.symGettypesymByName] at hs ⊢
      by_cases ht : i :: parent = d.idtable
      · rw [ht, hhere]
      · have hnone : tabs.getHere (i :: parent) n = none := by
          cases hf : tabs.getHere (i :: parent) n with
          | none => rfl
          | some e =>
              rw [hf] at hs
              cases hs
              exact absurd (SymTables.getHere_eq_some hf).2.1.symm ht
        rw [hnone] at hs
        rw [hother _ ht]
        exact ih hs

/-- A name that stands for another declaration, or for none, does so still. -/
theorem symGettypesymByName_rename_other (h : FreshName tabs d n') (hn : n ≠ n')
    (hs : tabs.symGettypesymByName st n ≠ some d) :
    (tabs.rename d n' h).symGettypesymByName st n =
      (tabs.symGettypesymByName st n).map (·.rename tabs d n') := by
  have hhere : ∀ st', tabs.getHere st' n ≠ some d →
      (tabs.rename d n' h).getHere st' n =
        (tabs.getHere st' n).map (·.rename tabs d n') := by
    intro st' hd
    apply getHere_rename h
    intro e he ht
    by_cases hed : e = d
    · subst hed
      rw [STEntry.rename_name_self]
      apply iff_of_false (Ne.symm hn)
      intro hname
      exact hd (SymTables.getHere_eq_some_iff.mpr ⟨he, ht, hname⟩)
    · rw [STEntry.rename_name_of_ne hed]
  induction st with
  | nil => exact hhere [] hs
  | cons i parent ih =>
      rw [SymTables.symGettypesymByName] at hs
      rw [SymTables.symGettypesymByName, SymTables.symGettypesymByName]
      cases hf : tabs.getHere (i :: parent) n with
      | some e =>
          rw [hf] at hs
          rw [hhere _ (hf ▸ hs), hf]
          rfl
      | none =>
          rw [hf] at hs
          rw [hhere _ (by simp [hf]), hf]
          exact ih hs

/-- **The renamed tables answer as before.** -/
theorem symGettypesymByName_rename (h : FreshName tabs d n') (hn : n ≠ n')
    (hp : catypeGetPrimitiveByName n = none) :
    (tabs.rename d n' h).symGettypesymByName st (renameName tabs d n' st n) =
      (tabs.symGettypesymByName st n).map (·.rename tabs d n') := by
  by_cases hs : tabs.symGettypesymByName st n = some d
  · rw [renameName, if_pos ⟨hp, hs⟩, hs]
    exact symGettypesymByName_rename_self h hs
  · rw [renameName, if_neg (fun hc => hs hc.2)]
    exact symGettypesymByName_rename_other h hn hs

end Tables

/-! ### The verdicts after the renaming -/

section Verdicts

variable {tabs : SymTables} {d : STEntry} {n n' : Name} {st : Scope} {l : List STEntry} {k : Nat}

def NameVerdict.rename (tabs : SymTables) (d : STEntry) (n' : Name) : NameVerdict → NameVerdict
  | .stop => .stop
  | .prim p => .prim p
  | .back id => .back (renameId d n' id)
  | .expand e => .expand (e.rename tabs d n')

/-- No open declaration has the name of a different visible one. -/
def NoClash (tabs : SymTables) (l : List STEntry) (st : Scope) (n : Name) : Prop :=
  ∀ x, Resolves tabs st n x → ∀ e ∈ l, e.name = n → e = x

/-- The open declarations of a trail. -/
structure OpenDecls (tabs : SymTables) (l : List STEntry) : Prop where
  mem : ∀ e ∈ l, e ∈ tabs.entries
  nodup : (l.map STEntry.name).Nodup

theorem FreshName.rename_id (h : FreshName tabs d n') {e : STEntry} (he : e ∈ tabs.entries) :
    (e.rename tabs d n').id = renameId d n' e.id := by
  by_cases hed : e = d
  · subst hed
    rw [renameId, if_pos rfl, STEntry.id, STEntry.rename_name_self]
    rfl
  · rw [renameId, if_neg fun hid => hed (SymTables.entry_inj he h.mem hid), STEntry.id,
      STEntry.rename_name_of_ne hed]
    rfl

theorem FreshName.resolves_name (h : FreshName tabs d n') {x : STEntry}
    (hx : Resolves tabs st n x) :
    renameName tabs d n' st n = (x.rename tabs d n').name := by
  by_cases hxd : x = d
  · subst hxd
    rw [renameName, if_pos ⟨hx.1, hx.2⟩, STEntry.rename_name_self]
  · have hne : ¬ (catypeGetPrimitiveByName n = none ∧ tabs.symGettypesymByName st n = some d) := by
      rintro ⟨-, hd⟩
      rw [hx.2] at hd
      exact hxd (Option.some.inj hd)
    rw [renameName, if_neg hne, STEntry.rename_name_of_ne hxd, hx.name_eq]

/-- Without a clash, a renamed open declaration has the renamed name only if it is visible. -/
theorem FreshName.open_name_iff (h : FreshName tabs d n') (ho : OpenDecls tabs l)
    (hc : NoClash tabs l st n) {x : STEntry} (hx : Resolves tabs st n x) {e : STEntry}
    (he : e ∈ l) : (e.rename tabs d n').name = renameName tabs d n' st n ↔ e.name = n := by
  rw [h.resolves_name hx]
  constructor
  · intro heq
    rcases h.name_of_rename (ho.mem e he) hx.mem heq with rfl | hname
    · exact hx.name_eq
    · exact hname.trans hx.name_eq
  · intro hname
    rw [hc x hx e he hname]

theorem OpenDecls.nodup_rename (h : FreshName tabs d n') (ho : OpenDecls tabs l) :
    ((l.map (·.rename tabs d n')).map STEntry.name).Nodup := by
  rw [List.map_map]
  refine List.Nodup.map_on ?_ (List.Nodup.of_map _ ho.nodup)
  intro e he x hx heq
  rcases h.name_of_rename (ho.mem e he) (ho.mem x hx) heq with hex | hname
  · exact hex
  · exact List.inj_on_of_nodup_map ho.nodup he hx hname

theorem FreshName.rcheckset_iff (h : FreshName tabs d n') (ho : OpenDecls tabs l)
    (hc : NoClash tabs l st n) {x : STEntry} (hx : Resolves tabs st n x) :
    renameName tabs d n' st n ∈ (ctxOf (l.map (·.rename tabs d n')) k).rcheckset ↔
      n ∈ (ctxOf l k).rcheckset := by
  simp only [ctxOf, ← List.map_take, List.map_map, List.mem_map, Function.comp]
  refine exists_congr fun e => and_congr_right ?_
  intro he
  exact h.open_name_iff ho hc hx (List.mem_of_mem_take he)

theorem FreshName.lookup_eq (h : FreshName tabs d n') (ho : OpenDecls tabs l)
    (hc : NoClash tabs l st n) {x : STEntry} (hx : Resolves tabs st n x) :
    (ctxOf (l.map (·.rename tabs d n')) k).prenamemap.lookup (renameName tabs d n' st n) =
      (ctxOf l k).prenamemap.lookup n := by
  by_cases hmem : ∃ e ∈ l, e.name = n
  · obtain ⟨e, he, rfl⟩ := hmem
    have hname := (h.open_name_iff ho hc hx he).mpr rfl
    rw [ctxOf, ctxOf, lookup_names_of_mem ho.nodup he, ← hname,
      lookup_names_of_mem (ho.nodup_rename h) (List.mem_map_of_mem he), STEntry.rename_nameEntry]
  · push Not at hmem
    rw [ctxOf, ctxOf, lookup_names_eq_none hmem, lookup_names_eq_none]
    intro e' he' hname
    obtain ⟨e, he, rfl⟩ := List.mem_map.mp he'
    exact hmem e he ((h.open_name_iff ho hc hx he).mp hname)

/-- **Without a clash the verdict is the renamed one.** -/
theorem nameVerdict_rename (h : FreshName tabs d n') (ho : OpenDecls tabs l)
    (hc : NoClash tabs l st n) (hn : n ≠ n')
    (hread : Resolves tabs st n d → (ReadableName n' ↔ ReadableName n)) :
    nameVerdict (tabs.rename d n' h) st (ctxOf (l.map (·.rename tabs d n')) k)
        (renameName tabs d n' st n) =
      (nameVerdict tabs st (ctxOf l k) n).rename tabs d n' := by
  cases hp : catypeGetPrimitiveByName n with
  | some p =>
      have hname : renameName tabs d n' st n = n := by
        rw [renameName, if_neg]
        rintro ⟨hnone, -⟩
        rw [hp] at hnone
        cases hnone
      unfold nameVerdict
      simp only [hname, hp]
      split <;> rfl
  | none =>
      have hsym : (tabs.rename d n' h).symGettypesymByName st _ = _ :=
        symGettypesymByName_rename h hn hp
      cases hs : tabs.symGettypesymByName st n with
      | none =>
          have hname : renameName tabs d n' st n = n := by
            rw [renameName, if_neg]
            rintro ⟨-, hsome⟩
            rw [hs] at hsome
            cases hsome
          rw [hs, hname] at hsym
          unfold nameVerdict
          simp only [hname, hp, hs, hsym, Option.map_none]
          split <;> rfl
      | some x =>
          have hx : Resolves tabs st n x := ⟨hp, hs⟩
          rw [hs, Option.map_some] at hsym
          have hprim : catypeGetPrimitiveByName (renameName tabs d n' st n) = none := by
            unfold renameName
            split
            · exact h.notPrim
            · exact hp
          have halpha : ReadableName (renameName tabs d n' st n) ↔ ReadableName n := by
            unfold renameName
            split
            · rename_i hd
              exact hread hd
            · exact Iff.rfl
          unfold nameVerdict
          simp only [halpha, hprim, hp, hsym, hs, h.rcheckset_iff ho hc hx, h.lookup_eq ho hc hx]
          by_cases ha : ReadableName n
          · rw [if_pos ha, if_pos ha]
            by_cases hr : n ∈ (ctxOf l k).rcheckset
            · rw [if_pos hr, if_pos hr]
              rfl
            · rw [if_neg hr, if_neg hr]
              cases hm : (ctxOf l k).prenamemap.lookup n with
              | none => rfl
              | some y =>
                  cases y with
                  | «alias» => rfl
                  | struct table =>
                      obtain ⟨e, he, hname, hentry⟩ := lookup_names_eq_some hm
                      obtain rfl := hc x hx e he hname
                      have htable := STEntry.nameEntry_struct hentry
                      subst htable
                      have hid := h.rename_id (ho.mem e he)
                      rw [STEntry.id, ← h.resolves_name hx, STEntry.id, hname] at hid
                      exact congrArg NameVerdict.back hid
          · rw [if_neg ha, if_neg ha]
            rfl

end Verdicts

/-! ### The unwinding after the renaming -/

section Simulation

variable {tabs : SymTables} {d : STEntry} {n' : Name} {st : Scope} {t : TypeExpr}

theorem TypeFields.namesFit_mapNames (f : Name → Name) (fs : TypeFields) :
    (fs.mapNames f).namesFit = fs.namesFit := by
  match fs with
  | .nil => rfl
  | .cons n t rest => exact congrArg (n.all fitsNamebuf && ·) (rest.namesFit_mapNames f)

mutual
theorem TypeExpr.unwind_mapNames {f : Name → Name} {g : StructId → StructId}
    {h h' : NameHandler} {st : Scope} {c c' : UnwindCtx} (t : TypeExpr) (ht : t.isSource = true)
    (ptr : Bool)
    (hh : ∀ m ∈ t.mentions ptr, h' st (c'.at m.2) (f m.1) =
      (h st (c.at m.2) m.1).map (·.mapIds g)) :
    (t.mapNames f).unwind h' st (c'.at ptr) = (t.unwind h st (c.at ptr)).map (·.mapIds g) := by
  cases t with
  | ident n => exact hh (n, ptr) (List.mem_singleton_self _)
  | pointer t =>
      have ih := t.unwind_mapNames ht true hh
      rw [TypeExpr.mapNames, TypeExpr.unwind, TypeExpr.unwind, UnwindCtx.at_fresh,
        UnwindCtx.at_fresh, ih, Option.map_map, Option.map_map]
      rfl
  | array e len =>
      have ih := e.unwind_mapNames ht ptr hh
      rw [TypeExpr.mapNames, TypeExpr.unwind, TypeExpr.unwind, ih]
      by_cases hlen : isLength len = true
      · rw [if_pos hlen, if_pos hlen, Option.map_map, Option.map_map]
        rfl
      · rw [if_neg hlen, if_neg hlen]
        rfl
  | struct hd fs =>
      cases hd with
      | namedStruct n => cases ht
      | namedTuple n => cases ht
      | generalTuple =>
          have ih := fs.unwind_mapNames ht ptr hh
          rw [TypeExpr.mapNames, TypeExpr.unwind, TypeExpr.unwind, fs.namesFit_mapNames f,
            fs.namesFit_of_isSource ht]
          simp only [StructHead.nameFits, Bool.and_self, if_true, Option.map_map]
          refine (congrArg (Option.map _) ih).trans ?_
          rw [Option.map_map]
          rfl
      | slice =>
          have ih := fs.unwind_mapNames ht ptr hh
          rw [TypeExpr.mapNames, TypeExpr.unwind, TypeExpr.unwind, fs.namesFit_mapNames f,
            fs.namesFit_of_isSource ht]
          simp only [StructHead.nameFits, Bool.and_self, if_true, Option.map_map]
          refine (congrArg (Option.map _) ih).trans ?_
          rw [Option.map_map]
          rfl

theorem TypeFields.unwind_mapNames {f : Name → Name} {g : StructId → StructId}
    {h h' : NameHandler} {st : Scope} {c c' : UnwindCtx} (fs : TypeFields) {named : Bool}
    (hf : fs.isSource named = true) (ptr : Bool)
    (hh : ∀ m ∈ fs.mentions ptr, h' st (c'.at m.2) (f m.1) =
      (h st (c.at m.2) m.1).map (·.mapIds g)) :
    (fs.mapNames f).unwind h' st (c'.at ptr) = (fs.unwind h st (c.at ptr)).map (·.mapIds g) := by
  cases fs with
  | nil => rfl
  | cons n t rest =>
      simp only [TypeFields.isSource, Bool.and_eq_true] at hf
      have ih₁ := t.unwind_mapNames hf.1.2 ptr fun m hm =>
        hh m (List.mem_append_left _ hm)
      have ih₂ := rest.unwind_mapNames hf.2 ptr fun m hm =>
        hh m (List.mem_append_right _ hm)
      rw [TypeFields.mapNames, TypeFields.unwind, TypeFields.unwind, ih₁, ih₂]
      cases t.unwind h st (c.at ptr) <;> cases rest.unwind h st (c.at ptr) <;> rfl
end

theorem STEntry.head_rename (h : FreshName tabs d n') {e : STEntry} (he : e ∈ tabs.entries)
    (tuple : Bool) : (e.rename tabs d n').head tuple = (e.head tuple).map (renameId d n') := by
  unfold STEntry.head
  cases tuple with
  | true => exact congrArg StructHead.namedTuple (h.rename_id he)
  | false => exact congrArg StructHead.namedStruct (h.rename_id he)

theorem STEntry.unwind_rename (h : FreshName tabs d n') {e : STEntry} (he : e ∈ tabs.entries)
    {f f' : NameHandler} {c c' : UnwindCtx}
    (hh : ∀ m ∈ e.body.mentions,
      f' e.idtable (((e.rename tabs d n').ctx c').at m.2) (renameName tabs d n' e.idtable m.1) =
        (f e.idtable ((e.ctx c).at m.2) m.1).map (·.mapIds (renameId d n'))) :
    (e.rename tabs d n').unwind f' c' = (e.unwind f c).map (·.mapIds (renameId d n')) := by
  have hs := STEntry.isSource_body he
  have hbody : (e.rename tabs d n').body =
      e.body.mapNames (renameName tabs d n' e.idtable) := rfl
  unfold STEntry.unwind
  rw [hbody]
  cases hb : e.body with
  | «alias» id =>
      rw [hb] at hs hh
      exact id.unwind_mapNames hs false hh
  | struct tuple members =>
      rw [hb] at hs hh
      have hm := members.unwind_mapNames hs false hh
      simp only [TypeBody.mapNames, STEntry.head_rename h he]
      refine (congrArg (Option.map _) hm).trans ?_
      rw [Option.map_map, Option.map_map]
      rfl

theorem Trail.openDecls {l : List STEntry} {v : Visit} (h : Trail tabs st t l v) :
    OpenDecls tabs l :=
  ⟨fun _ he => h.mem_entries he, h.nodup⟩

/-- Every visit is without a clash. -/
def Clean (tabs : SymTables) (st : Scope) (t : TypeExpr) : Prop :=
  ∀ l v, Trail tabs st t l v → NoClash tabs l v.table v.name

/-- Where `d` is visited, its new name is as readable as the one written there. -/
def AlikeReadable (tabs : SymTables) (st : Scope) (t : TypeExpr) (d : STEntry) (n' : Name) : Prop :=
  ∀ l v, Trail tabs st t l v → Resolves tabs v.table v.name d →
    (ReadableName n' ↔ ReadableName v.name)

theorem Trail.name_ne {l : List STEntry} {v : Visit} (hv : Trail tabs st t l v)
    (h : FreshName tabs d n') (hstart : ∀ m ∈ t.mentions false, m.1 ≠ n') : v.name ≠ n' := by
  cases hv with
  | start hm => exact hstart _ hm
  | step _ he hm => exact h.mentioned _ (nameVerdict_expand_mem he) _ hm

/-- **The renamed declarations unwind alike**, name by name, down from any visit. -/
theorem Trail.unwindDecl_rename (h : FreshName tabs d n')
    (hstart : ∀ m ∈ t.mentions false, m.1 ≠ n') (hc : Clean tabs st t)
    (hread : AlikeReadable tabs st t d n') (depth : Nat)
    {l : List STEntry} {v : Visit} (hv : Trail tabs st t l v) {k : Nat} (hk : v.ctx = ctxOf l k) :
    unwindDecl (tabs.rename d n' h) depth v.table (ctxOf (l.map (·.rename tabs d n')) k)
        (renameName tabs d n' v.table v.name) =
      (unwindDecl tabs depth v.table v.ctx v.name).map (·.mapIds (renameId d n')) := by
  induction depth generalizing l v k with
  | zero =>
      rw [unwindDecl.eq_def, unwindDecl.eq_def tabs, nameVerdict_rename h hv.openDecls (hc l v hv)
        (hv.name_ne h hstart) (hread l v hv), hk]
      cases nameVerdict tabs v.table (ctxOf l k) v.name <;> rfl
  | succ depth ih =>
      have hverdicts := nameVerdict_rename (k := k) h hv.openDecls (hc l v hv)
        (hv.name_ne h hstart) (hread l v hv)
      rw [unwindDecl.eq_def, unwindDecl.eq_def tabs, hverdicts, hk]
      cases hverdict : nameVerdict tabs v.table (ctxOf l k) v.name with
      | stop => rfl
      | prim p => rfl
      | back id => rfl
      | expand e =>
          have hexp : nameVerdict tabs v.table v.ctx v.name = .expand e := hk ▸ hverdict
          have hfresh := nameVerdict_expand_fresh hverdict
          have hctx := STEntry.ctx_ctxOf hfresh
          have hctx' : (e.rename tabs d n').ctx (ctxOf (l.map (·.rename tabs d n')) k) =
              ctxOf ((e :: l).map (·.rename tabs d n')) (k + 1) := by
            rw [hverdict] at hverdicts
            exact STEntry.ctx_ctxOf (nameVerdict_expand_fresh hverdicts)
          apply STEntry.unwind_rename h (nameVerdict_expand_mem hexp)
          intro m hm
          have hnext := hv.step hexp hm
          rw [hk, hctx] at hnext
          rw [hctx', hctx]
          cases hptr : m.2 with
          | false =>
              rw [hptr] at hnext
              exact ih hnext rfl
          | true =>
              rw [hptr] at hnext
              exact ih (k := 0) hnext rfl

/-- **A lookup of the renamed program yields the renamed datatype.** -/
theorem unwindTree_rename (h : FreshName tabs d n') (ht : t.isSource = true)
    (hstart : ∀ m ∈ t.mentions false, m.1 ≠ n') (hc : Clean tabs st t)
    (hread : AlikeReadable tabs st t d n') :
    unwindTree (tabs.rename d n' h) st (t.mapNames (renameName tabs d n' st)) =
      (unwindTree tabs st t).map (·.mapIds (renameId d n')) := by
  have hlen : (tabs.rename d n' h).entries.length = tabs.entries.length := List.length_map _
  apply t.unwind_mapNames ht false
  intro m hm
  rw [unwindTypeName, unwindTypeName, hlen]
  have hv : Trail tabs st t [] ⟨st, UnwindCtx.empty.at m.2, m.1⟩ := .start hm
  have hempty : UnwindCtx.empty.at m.2 = ctxOf [] 0 := by cases m.2 <;> rfl
  have hrun := hv.unwindDecl_rename h hstart hc hread tabs.entries.length hempty
  rw [List.map_nil] at hrun
  change unwindDecl _ _ st (UnwindCtx.empty.at m.2) _ =
    Option.map _ (unwindDecl tabs _ st (UnwindCtx.empty.at m.2) m.1)
  rw [hempty] at hrun ⊢
  exact hrun

/-! ### A visit of the renamed declaration -/

mutual
theorem TypeExpr.mentions_mapNames (f : Name → Name) (t : TypeExpr) (ptr : Bool) :
    (t.mapNames f).mentions ptr = (t.mentions ptr).map fun m => (f m.1, m.2) := by
  cases t with
  | ident n => rfl
  | pointer t => exact t.mentions_mapNames f true
  | array e len => exact e.mentions_mapNames f ptr
  | struct hd fs => exact fs.mentions_mapNames f ptr

theorem TypeFields.mentions_mapNames (f : Name → Name) (fs : TypeFields) (ptr : Bool) :
    (fs.mapNames f).mentions ptr = (fs.mentions ptr).map fun m => (f m.1, m.2) := by
  cases fs with
  | nil => rfl
  | cons n t rest =>
      rw [TypeFields.mapNames, TypeFields.mentions, TypeFields.mentions, t.mentions_mapNames f ptr,
        rest.mentions_mapNames f ptr, List.map_append]
end

theorem TypeBody.mentions_mapNames (f : Name → Name) (b : TypeBody) :
    (b.mapNames f).mentions = b.mentions.map fun m => (f m.1, m.2) := by
  cases b with
  | «alias» id => exact id.mentions_mapNames f false
  | struct tuple members => exact members.mentions_mapNames f false

/-- While `d` is not open, the renamed program makes the same visits. -/
theorem Trail.rename (h : FreshName tabs d n') (hstart : ∀ m ∈ t.mentions false, m.1 ≠ n')
    (hc : Clean tabs st t) {l : List STEntry} {v : Visit} (hv : Trail tabs st t l v) (hd : d ∉ l) :
    ∃ k, v.ctx = ctxOf l k ∧
      Trail (tabs.rename d n' h) st (t.mapNames (renameName tabs d n' st))
        (l.map (·.rename tabs d n'))
        ⟨v.table, ctxOf (l.map (·.rename tabs d n')) k, renameName tabs d n' v.table v.name⟩ := by
  induction hv with
  | @start m hm =>
      have hm' : (renameName tabs d n' st m.1, m.2) ∈
          (t.mapNames (renameName tabs d n' st)).mentions false := by
        rw [TypeExpr.mentions_mapNames]
        exact List.mem_map_of_mem hm
      have hempty : UnwindCtx.empty.at m.2 = ctxOf [] 0 := by cases m.2 <;> rfl
      have hnext : Trail (tabs.rename d n' h) st _ [] _ := .start hm'
      exact ⟨0, hempty, hempty ▸ hnext⟩
  | @step l v e m hv he hm ih =>
      have hne : d ≠ e := fun heq => hd (heq ▸ List.mem_cons_self ..)
      obtain ⟨k, hk, hv'⟩ := ih fun hmem => hd (List.mem_cons_of_mem _ hmem)
      have hother : Resolves tabs v.table v.name d → (ReadableName n' ↔ ReadableName v.name) :=
        fun hres => absurd (Option.some.inj (hres.2.symm.trans (Resolves.of_expand he).2)) hne
      have he' := nameVerdict_rename (k := k) h hv.openDecls (hc l v hv) (hv.name_ne h hstart)
        hother
      rw [← hk, he] at he'
      have hm' :
          (renameName tabs d n' e.idtable m.1, m.2) ∈ (e.rename tabs d n').body.mentions := by
        rw [STEntry.rename, TypeBody.mentions_mapNames]
        exact List.mem_map_of_mem hm
      have hnext := hv'.step he' hm'
      have hfresh := nameVerdict_expand_fresh he
      rw [hk] at hfresh
      dsimp only at hnext
      rw [STEntry.ctx_ctxOf (nameVerdict_expand_fresh he')] at hnext
      rw [hk, STEntry.ctx_ctxOf hfresh]
      cases hptr : m.2 with
      | false =>
          rw [hptr] at hnext
          exact ⟨k + 1, rfl, hnext⟩
      | true =>
          rw [hptr] at hnext
          exact ⟨0, rfl, hnext⟩

/-- A declaration that is visited is visited before it is open. -/
theorem Trail.before {l : List STEntry} {v : Visit} (hv : Trail tabs st t l v)
    (hd : Resolves tabs v.table v.name d) :
    ∃ l' v', Trail tabs st t l' v' ∧ d ∉ l' ∧ Resolves tabs v'.table v'.name d := by
  induction hk : l.length using Nat.strong_induction_on generalizing l v with
  | _ k ih =>
      subst hk
      by_cases hmem : d ∈ l
      · obtain ⟨l', v', hv', hlt, -, hexp⟩ := hv.expanded hmem
        exact ih l'.length hlt hv' (.of_expand hexp) rfl
      · exact ⟨l, v, hv, hmem, hd⟩

/-- **If the renamed program is unwound, the new name can be read where it is written.** -/
theorem readable_of_unwindTree_rename (h : FreshName tabs d n') (ht : t.isSource = true)
    (hstart : ∀ m ∈ t.mentions false, m.1 ≠ n') (hc : Clean tabs st t) {l : List STEntry}
    {v : Visit} (hv : Trail tabs st t l v) (hd : Resolves tabs v.table v.name d)
    (hsome : (unwindTree (tabs.rename d n' h) st
      (t.mapNames (renameName tabs d n' st))).isSome) : ReadableName n' := by
  obtain ⟨l', v', hv', hfree, hd'⟩ := hv.before hd
  obtain ⟨k, -, htrail⟩ := hv'.rename h hstart hc hfree
  have hsource := t.isSource_mapNames ht (h.renameName_ok st)
  have hpass := ((unwindTree_isSome hsource).mp hsome).2 _ (visited_iff_trail.mpr ⟨_, htrail⟩)
  have hname : renameName tabs d n' v'.table v'.name = n' := if_pos ⟨hd'.1, hd'.2⟩
  by_contra hno
  refine hpass.1 (nameVerdict_eq_stop.mpr (.inl ?_))
  rw [hname]
  exact hno

/-! ### The renamed program is hygienic too -/

theorem NameVerdict.rename_eq_expand {w : NameVerdict} {e' : STEntry}
    (hw : w.rename tabs d n' = .expand e') : ∃ e, w = .expand e ∧ e.rename tabs d n' = e' := by
  cases w with
  | expand e => exact ⟨e, rfl, NameVerdict.expand.inj hw⟩
  | stop => cases hw
  | prim p => cases hw
  | back id => cases hw

/-- The renamed program makes no other visits. -/
theorem Trail.of_rename (h : FreshName tabs d n') (hstart : ∀ m ∈ t.mentions false, m.1 ≠ n')
    (hc : Clean tabs st t) (hread : AlikeReadable tabs st t d n') {l' : List STEntry} {v' : Visit}
    (hv' : Trail (tabs.rename d n' h) st (t.mapNames (renameName tabs d n' st)) l' v') :
    ∃ l v k, Trail tabs st t l v ∧ v.ctx = ctxOf l k ∧ l' = l.map (·.rename tabs d n') ∧
      v' = ⟨v.table, ctxOf l' k, renameName tabs d n' v.table v.name⟩ := by
  induction hv' with
  | @start m' hm' =>
      rw [TypeExpr.mentions_mapNames] at hm'
      obtain ⟨m, hm, rfl⟩ := List.mem_map.mp hm'
      have hempty : UnwindCtx.empty.at m.2 = ctxOf [] 0 := by cases m.2 <;> rfl
      exact ⟨[], _, 0, .start hm, hempty, rfl, congrArg (Visit.mk st · _) hempty⟩
  | @step l' v' e' m' _ he' hm' ih =>
      obtain ⟨l, v, k, hv, hk, rfl, rfl⟩ := ih
      have hverdict := nameVerdict_rename (k := k) h hv.openDecls (hc l v hv)
        (hv.name_ne h hstart) (hread l v hv)
      obtain ⟨e, he, rfl⟩ := NameVerdict.rename_eq_expand (hverdict.symm.trans he')
      rw [STEntry.rename, TypeBody.mentions_mapNames] at hm'
      obtain ⟨m, hm, rfl⟩ := List.mem_map.mp hm'
      have hnext := hv.step (hk ▸ he) hm
      rw [hk, STEntry.ctx_ctxOf (nameVerdict_expand_fresh he)] at hnext
      dsimp only at he' ⊢
      rw [STEntry.ctx_ctxOf (nameVerdict_expand_fresh he')]
      cases hptr : m.2 with
      | false =>
          rw [hptr] at hnext
          exact ⟨e :: l, _, k + 1, hnext, rfl, rfl, rfl⟩
      | true =>
          rw [hptr] at hnext
          exact ⟨e :: l, _, 0, hnext, rfl, rfl, rfl⟩

/-- A name of the renamed program stands for a renamed declaration. -/
theorem Resolves.of_rename (h : FreshName tabs d n') {n : Name} (hn : n ≠ n') {x' : STEntry}
    (hx : Resolves (tabs.rename d n' h) st (renameName tabs d n' st n) x') :
    ∃ x, Resolves tabs st n x ∧ x.rename tabs d n' = x' := by
  have hprim : catypeGetPrimitiveByName n = none := by
    have hp := hx.1
    unfold renameName at hp
    split at hp
    · rename_i hd
      exact hd.1
    · exact hp
  have hsym := hx.2
  rw [symGettypesymByName_rename h hn hprim, Option.map_eq_some_iff] at hsym
  obtain ⟨x, hx', hxx⟩ := hsym
  exact ⟨x, ⟨hprim, hx'⟩, hxx⟩

theorem clean_rename (h : FreshName tabs d n') (hstart : ∀ m ∈ t.mentions false, m.1 ≠ n')
    (hc : Clean tabs st t) (hread : AlikeReadable tabs st t d n') :
    Clean (tabs.rename d n' h) st (t.mapNames (renameName tabs d n' st)) := by
  intro l' v' hv' x' hx' a' ha' hname
  obtain ⟨l, v, k, hv, -, rfl, rfl⟩ := hv'.of_rename h hstart hc hread
  obtain ⟨a, ha, rfl⟩ := List.mem_map.mp ha'
  obtain ⟨x, hx, rfl⟩ := hx'.of_rename h (hv.name_ne h hstart)
  have hax := (h.open_name_iff hv.openDecls (hc l v hv) hx ha).mp hname
  rw [hc l v hv x hx a ha hax]

end Simulation

end CaLang.Types

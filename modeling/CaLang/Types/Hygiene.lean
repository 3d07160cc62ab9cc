import CaLang.Types.Acceptance
import Mathlib.Data.Set.Defs

/-! # Lexical hygiene of the unwinding

Each name of a declaration is written in a table and should stand for the declaration visible
there. The unwinder looks that declaration up, but recognises recursion by the bare name: an open
declaration answers for every declaration of its name. **The unwinding is hygienic exactly when no
chain of open declarations mentions a declaration that has the name of a different one on the
chain**, the names can be read, and the type is short when written out, before and after a renaming.
Then consistent renaming changes nothing but the name; `outerInner_not_hygienic` is a program where
an inner struct captures the name of an outer one.

A name can be read if it starts with a letter and has at most 127 characters; a type is short if it
has at most 1021 when written out in full. A longer one overruns a buffer of the unwinder.
-/

namespace CaLang.Types

variable {tabs : SymTables} {st : Scope} {t : TypeExpr} {l : List STEntry} {v : Visit}
  {e x : STEntry}

/-- The unwinder returns the datatype `D`, with its signature and size, and reads the whole text. -/
def Unwinds (tabs : SymTables) (st : Scope) (t : TypeExpr) (D : CADataType) : Prop :=
  Settles (fun fuel => catypeUnwindTypeSignature tabs fuel st t.text) (.ok (.of [] D))

theorem unwinds_iff (ht : t.isSource = true) {D : CADataType} :
    Unwinds tabs st t D ↔ unwindType tabs st t = some D := by
  have h := catypeUnwindTypeSignature_settles tabs st (t.isText_of_isSource ht)
  constructor
  · intro hD
    have heq := h.unique hD
    cases hx : unwindType tabs st t with
    | none =>
        rw [hx] at heq
        cases heq
    | some D' =>
        rw [hx] at heq
        exact congrArg (some ∘ Unwound.retdt) (Except.ok.inj heq)
  · intro hD
    rw [hD] at h
    exact h

/-- The decision at a visited name is about the declaration visible in the table where the name is
written: it is that declaration that is expanded, that a back reference points to, or that is open
already when the compiler ends. -/
def ResolvedLexically (tabs : SymTables) (l : List STEntry) (v : Visit) : Prop :=
  ∀ x, Resolves tabs v.table v.name x →
    match nameVerdict tabs v.table v.ctx v.name with
    | .expand e => e = x
    | .back id => id = x.id
    | .stop => x ∈ l
    | .prim _ => False

/-- A declaration and a fresh name for it. -/
structure Renaming (tabs : SymTables) (t : TypeExpr) where
  decl : STEntry
  name : Name
  fresh : FreshName tabs decl name
  start : ∀ m ∈ t.mentions false, m.1 ≠ name

namespace Renaming

variable (ρ : Renaming tabs t)

/-- The declarations after the renaming. -/
def tables : SymTables := tabs.rename ρ.decl ρ.name ρ.fresh

/-- The looked up expression after the renaming. -/
def expr (st : Scope) : TypeExpr := t.mapNames (renameName tabs ρ.decl ρ.name st)

end Renaming

/-- No visited name and no length ends the compiler. -/
def NoStop (tabs : SymTables) (st : Scope) (t : TypeExpr) : Prop :=
  t.lensOk = true ∧ ∀ v, Visited tabs st t v → v.Passes tabs

/-- Every name is resolved lexically, **no buffer is too small for a lookup that nothing ends**, and
the renamings in `R` change neither the success of the lookup nor, but for the name, the datatype.
-/
structure Hygienic (tabs : SymTables) (st : Scope) (t : TypeExpr) (R : Set (Renaming tabs t)) :
    Prop where
  lexical : ∀ l v, Trail tabs st t l v → ResolvedLexically tabs l v
  inBounds : NoStop tabs st t → Succeeds tabs st t
  success : ∀ ρ ∈ R, (Succeeds ρ.tables st (ρ.expr st) ↔ Succeeds tabs st t)
  datatype : ∀ ρ ∈ R, ∀ D, Unwinds tabs st t D →
    Unwinds ρ.tables st (ρ.expr st) (D.mapIds (renameId ρ.decl ρ.name))

/-- A chain of declarations with different, readable names, each mentioned in the one before; the
last one first. -/
inductive NameChain (tabs : SymTables) (st : Scope) (t : TypeExpr) : List STEntry → Prop
  | start {e : STEntry} (h : Starts tabs st t e) (hr : ReadableName e.name) :
      NameChain tabs st t [e]
  | next {e e' : STEntry} {l : List STEntry} (h : NameChain tabs st t (e :: l))
      (he : Edge tabs e e') (hr : ReadableName e'.name)
      (hne : e'.name ∉ (e :: l).map STEntry.name) : NameChain tabs st t (e' :: e :: l)

/-- The end of a chain mentions a declaration that has the name of a different one on it. -/
def Clash (tabs : SymTables) (st : Scope) (t : TypeExpr) : Prop :=
  ∃ e l x, NameChain tabs st t (e :: l) ∧ Edge tabs e x ∧ ∃ a ∈ e :: l, a.name = x.name ∧ a ≠ x

/-- The looked up expression or the end of a chain mentions `x`. -/
def Mentioned (tabs : SymTables) (st : Scope) (t : TypeExpr) (x : STEntry) : Prop :=
  Starts tabs st t x ∨ ∃ e l, NameChain tabs st t (e :: l) ∧ Edge tabs e x

/-- What is mentioned can be read, and where nothing ends the compiler, the types are short. -/
structure InBounds (tabs : SymTables) (st : Scope) (t : TypeExpr) (R : Set (Renaming tabs t)) :
    Prop where
  names : ∀ x, Mentioned tabs st t x → ReadableName x.name
  short : NoStop tabs st t → Short tabs st t
  newNames : NoStop tabs st t → ∀ ρ ∈ R, Mentioned tabs st t ρ.decl → ReadableName ρ.name
  newShort : NoStop tabs st t → ∀ ρ ∈ R, Short ρ.tables st (ρ.expr st)

/-! ### Chains and trails -/

/-- A declared, readable name that no open declaration has is expanded. -/
theorem Trail.expands (h : Trail tabs st t l v) (hx : Resolves tabs v.table v.name x)
    (hr : ReadableName v.name) (hne : ∀ e ∈ l, e.name ≠ v.name) :
    nameVerdict tabs v.table v.ctx v.name = .expand x := by
  obtain ⟨k, hk⟩ := h.ctx_eq
  refine nameVerdict_eq_expand.mpr ⟨hr, hx.1, hx.2, ?_, ?_⟩
  · rw [hk]
    intro hmem
    obtain ⟨e, he, hname⟩ := List.mem_map.mp hmem
    exact hne e (List.mem_of_mem_take he) hname
  · rw [h.prenamemap]
    exact lookup_names_eq_none hne

theorem NameChain.trail (h : NameChain tabs st t l) :
    ∃ e l' v, l = e :: l' ∧ Trail tabs st t l' v ∧
      nameVerdict tabs v.table v.ctx v.name = .expand e := by
  induction h with
  | @start e hs hr =>
      obtain ⟨m, hm, hres⟩ := hs
      have htrail : Trail tabs st t [] _ := .start hm
      exact ⟨e, [], _, rfl, htrail, htrail.expands hres (hres.name_eq ▸ hr) fun _ h => by cases h⟩
  | @next e e' l _ hedge hr hne ih =>
      obtain ⟨_, _, v, heq, htrail, hv⟩ := ih
      cases heq
      obtain ⟨ptr, n, hn, hres⟩ := hedge
      have hnext := htrail.step hv hn
      refine ⟨e', _, _, rfl, hnext, hnext.expands hres (hres.name_eq ▸ hr) ?_⟩
      intro a ha hname
      exact hne (List.mem_map.mpr ⟨a, ha, hname.trans hres.name_eq.symm⟩)

theorem readable_of_expand {n : Name} {c : UnwindCtx}
    (h : nameVerdict tabs st c n = .expand e) : ReadableName e.name :=
  nameVerdict_expand_name h ▸ (nameVerdict_eq_expand.mp h).1

theorem Trail.nameChain (h : Trail tabs st t (e :: l) v) : NameChain tabs st t (e :: l) := by
  cases h with
  | @step _ v₀ _ m h₀ he hm =>
      induction h₀ generalizing e m with
      | start hm₀ => exact .start ⟨_, hm₀, .of_expand he⟩ (readable_of_expand he)
      | @step l v₁ a m₁ h₁ ha hm₁ ih =>
          refine .next (ih ha hm₁) ⟨m₁.2, m₁.1, hm₁, .of_expand he⟩ (readable_of_expand he) ?_
          exact (List.nodup_cons.mp ((h₁.step ha hm₁).step he hm).nodup).1

/-- The visits are without a clash exactly when the chains are. -/
theorem clean_iff_not_clash : Clean tabs st t ↔ ¬ Clash tabs st t := by
  constructor
  · rintro hc ⟨e, l, x, hchain, ⟨ptr, n, hn, hres⟩, a, ha, hname, hne⟩
    obtain ⟨_, _, v, heq, htrail, hv⟩ := hchain.trail
    cases heq
    exact hne (hc _ _ (htrail.step hv hn) x hres a ha (hname.trans hres.name_eq))
  · intro hno l v h x hx a ha hname
    by_contra hne
    cases l with
    | nil => cases ha
    | cons e l =>
        exact hno ⟨e, l, x, h.nameChain, h.edge hx, a, ha, hname.trans hx.name_eq.symm, hne⟩

theorem mentioned_iff {x : STEntry} :
    Mentioned tabs st t x ↔ ∃ l v, Trail tabs st t l v ∧ Resolves tabs v.table v.name x := by
  constructor
  · rintro (⟨m, hm, hx⟩ | ⟨e, l, hchain, ptr, n, hn, hx⟩)
    · exact ⟨[], _, .start hm, hx⟩
    · obtain ⟨_, _, v, heq, htrail, hv⟩ := hchain.trail
      cases heq
      exact ⟨_, _, htrail.step hv hn, hx⟩
  · rintro ⟨l, v, hv, hx⟩
    cases l with
    | nil =>
        cases hv with
        | start hm => exact .inl ⟨_, hm, hx⟩
    | cons e l => exact .inr ⟨e, l, hv.nameChain, hv.edge hx⟩

/-! ### The verdict at a visit -/

/-- **The verdict at a visit is lexical exactly when no open declaration has the name of a different
visible one**, and the name can be read. -/
theorem Trail.resolvedLexically_iff (h : Trail tabs st t l v) :
    ResolvedLexically tabs l v ↔
      NoClash tabs l v.table v.name ∧
        ∀ x, Resolves tabs v.table v.name x → ReadableName x.name := by
  constructor
  · intro hlex
    have hread : ∀ x, Resolves tabs v.table v.name x → ReadableName x.name := by
      intro x hx
      have hx' := hlex x hx
      rw [hx.name_eq]
      cases hv : nameVerdict tabs v.table v.ctx v.name with
      | prim p =>
          rw [hv] at hx'
          exact hx'.elim
      | expand e => exact (nameVerdict_eq_expand.mp hv).1
      | back id => exact (nameVerdict_eq_back.mp hv).1
      | stop =>
          rw [hv] at hx'
          obtain ⟨l', v', -, -, -, hv'⟩ := h.expanded hx'
          exact hx.name_eq ▸ readable_of_expand hv'
    refine ⟨?_, hread⟩
    intro x hx a ha hname
    have hlookup := h.lookup_of_mem ha
    rw [hname] at hlookup
    have hopen : x ∈ l → a = x := fun hmem =>
      List.inj_on_of_nodup_map h.nodup ha hmem (hname.trans hx.name_eq.symm)
    have hx' := hlex x hx
    by_cases hset : v.name ∈ v.ctx.rcheckset
    · have hstop : nameVerdict tabs v.table v.ctx v.name = .stop :=
        nameVerdict_eq_stop.mpr (.inr ⟨hx.1, fun _ _ => .inl hset⟩)
      rw [hstop] at hx'
      exact hopen hx'
    · cases hentry : a.nameEntry with
      | «alias» =>
          have hstop : nameVerdict tabs v.table v.ctx v.name = .stop :=
            nameVerdict_eq_stop.mpr (.inr ⟨hx.1, fun _ _ => .inr (hentry ▸ hlookup)⟩)
          rw [hstop] at hx'
          exact hopen hx'
      | struct table =>
          have hback : nameVerdict tabs v.table v.ctx v.name = .back ⟨table, v.name⟩ :=
            nameVerdict_eq_back.mpr
              ⟨hx.name_eq ▸ hread x hx, hx.1, ⟨x, hx.2⟩, hset, hentry ▸ hlookup, rfl⟩
          rw [hback] at hx'
          refine SymTables.entry_inj (h.mem_entries ha) hx.mem ?_
          rw [← hx', STEntry.nameEntry_struct hentry, STEntry.id, hname]
  · rintro ⟨hno, hread⟩ x hx
    cases hv : nameVerdict tabs v.table v.ctx v.name with
    | prim p =>
        have hprim := nameVerdict_prim hv
        rw [hx.1] at hprim
        cases hprim
    | expand e => exact Option.some.inj ((Resolves.of_expand hv).2.symm.trans hx.2)
    | stop =>
        rcases nameVerdict_eq_stop.mp hv with hname | ⟨-, hsym⟩
        · exact absurd (hx.name_eq ▸ hread x hx) hname
        · obtain ⟨a, ha, hname⟩ : ∃ a ∈ l, a.name = v.name := by
            rcases hsym x hx.2 with hset | hmap
            · obtain ⟨k, hk⟩ := h.ctx_eq
              rw [hk] at hset
              obtain ⟨a, ha, hname⟩ := List.mem_map.mp hset
              exact ⟨a, List.mem_of_mem_take ha, hname⟩
            · obtain ⟨a, ha, hname, -⟩ := h.lookup_eq_some hmap
              exact ⟨a, ha, hname⟩
          exact hno x hx a ha hname ▸ ha
    | back id =>
        obtain ⟨-, -, -, -, hlookup, hid⟩ := nameVerdict_eq_back.mp hv
        obtain ⟨a, ha, hname, hentry⟩ := h.lookup_eq_some hlookup
        obtain rfl := hno x hx a ha hname
        obtain ⟨table, m⟩ := id
        rw [STEntry.id, hname, ← STEntry.nameEntry_struct hentry, ← hid]

/-- Every name is resolved lexically exactly if nothing clashes and what is mentioned can be
read. -/
theorem lexical_iff :
    (∀ l v, Trail tabs st t l v → ResolvedLexically tabs l v) ↔
      ¬ Clash tabs st t ∧ ∀ x, Mentioned tabs st t x → ReadableName x.name := by
  rw [← clean_iff_not_clash]
  constructor
  · intro h
    refine ⟨fun l v hv => (hv.resolvedLexically_iff.mp (h l v hv)).1, ?_⟩
    intro x hx
    obtain ⟨l, v, hv, hx⟩ := mentioned_iff.mp hx
    exact (hv.resolvedLexically_iff.mp (h l v hv)).2 x hx
  · intro h l v hv
    exact hv.resolvedLexically_iff.mpr
      ⟨h.1 l v hv, fun x hx => h.2 x (mentioned_iff.mpr ⟨l, v, hv, hx⟩)⟩

/-! ### The renamed program -/

section Renamed

variable {ρ : Renaming tabs t}

theorem noStop_iff (ht : t.isSource = true) : NoStop tabs st t ↔ (unwindTree tabs st t).isSome :=
  (unwindTree_isSome ht).symm

theorem succeeds_iff_noStop_and (ht : t.isSource = true) (hc : Clean tabs st t) :
    Succeeds tabs st t ↔ NoStop tabs st t ∧ Short tabs st t := by
  rw [succeeds_iff ht, unwindType_isSome_iff ht hc, noStop_iff ht]

theorem Renaming.isSource_expr (ht : t.isSource = true) : (ρ.expr st).isSource = true :=
  t.isSource_mapNames ht (ρ.fresh.renameName_ok st)

theorem Renaming.alikeReadable (hnames : ∀ x, Mentioned tabs st t x → ReadableName x.name)
    (hnew : Mentioned tabs st t ρ.decl → ReadableName ρ.name) :
    AlikeReadable tabs st t ρ.decl ρ.name := by
  intro l v hv hd
  have hm : Mentioned tabs st t ρ.decl := mentioned_iff.mpr ⟨l, v, hv, hd⟩
  exact iff_of_true (hnew hm) (hd.name_eq ▸ hnames _ hm)

/-- **When the renamed program is unwound**: if the old one is and the new name can be read. -/
theorem Renaming.unwindTree_isSome_iff (ht : t.isSource = true) (hc : Clean tabs st t)
    (hnames : ∀ x, Mentioned tabs st t x → ReadableName x.name) :
    (unwindTree ρ.tables st (ρ.expr st)).isSome ↔
      NoStop tabs st t ∧ (Mentioned tabs st t ρ.decl → ReadableName ρ.name) := by
  have hsame : (Mentioned tabs st t ρ.decl → ReadableName ρ.name) →
      unwindTree ρ.tables st (ρ.expr st) =
        (unwindTree tabs st t).map (·.mapIds (renameId ρ.decl ρ.name)) := fun hnew =>
    unwindTree_rename ρ.fresh ht ρ.start hc (ρ.alikeReadable hnames hnew)
  rw [noStop_iff ht]
  constructor
  · intro hsome
    have hnew : Mentioned tabs st t ρ.decl → ReadableName ρ.name := fun hm => by
      obtain ⟨l, v, hv, hd⟩ := mentioned_iff.mp hm
      exact readable_of_unwindTree_rename ρ.fresh ht ρ.start hc hv hd hsome
    rw [hsame hnew, Option.isSome_map] at hsome
    exact ⟨hsome, hnew⟩
  · rintro ⟨hsome, hnew⟩
    rwa [hsame hnew, Option.isSome_map]

theorem Renaming.succeeds_iff (ht : t.isSource = true) (hc : Clean tabs st t)
    (hnames : ∀ x, Mentioned tabs st t x → ReadableName x.name) :
    Succeeds ρ.tables st (ρ.expr st) ↔
      NoStop tabs st t ∧ (Mentioned tabs st t ρ.decl → ReadableName ρ.name) ∧
        Short ρ.tables st (ρ.expr st) := by
  rw [← and_assoc, ← ρ.unwindTree_isSome_iff ht hc hnames, Types.succeeds_iff (ρ.isSource_expr ht)]
  constructor
  · intro hsome
    obtain ⟨D, hD⟩ := Option.isSome_iff_exists.mp hsome
    have htree : (unwindTree ρ.tables st (ρ.expr st)).isSome :=
      Option.isSome_iff_exists.mpr ⟨D, (unwindType_eq_some.mp hD).1⟩
    have hnew := ((ρ.unwindTree_isSome_iff ht hc hnames).mp htree).2
    have hclean := clean_rename ρ.fresh ρ.start hc (ρ.alikeReadable hnames hnew)
    exact (unwindType_isSome_iff (ρ.isSource_expr ht) hclean).mp hsome
  · rintro ⟨htree, hshort⟩
    have hnew := ((ρ.unwindTree_isSome_iff ht hc hnames).mp htree).2
    have hclean := clean_rename ρ.fresh ρ.start hc (ρ.alikeReadable hnames hnew)
    exact (unwindType_isSome_iff (ρ.isSource_expr ht) hclean).mpr ⟨htree, hshort⟩

end Renamed

/-- `struct A { x: i32 }`. -/
def outerA : STEntry :=
  ⟨[], ['A'], .struct false (.cons (some ['x']) (.ident ['i', '3', '2']) .nil)⟩

/-- `struct B { a: *A }`. -/
def outerB : STEntry :=
  ⟨[], ['B'], .struct false (.cons (some ['a']) (.pointer (.ident ['A'])) .nil)⟩

/-- `struct A { b: B }`, in a block. -/
def innerA : STEntry := ⟨[0], ['A'], .struct false (.cons (some ['b']) (.ident ['B']) .nil)⟩

def outerInner : SymTables := ⟨[outerA, outerB, innerA], by decide, by decide⟩

/-- The inner `A` is called `C`. -/
def innerC : Renaming outerInner (.ident ['A']) where
  decl := innerA
  name := ['C']
  fresh := {
    mem := by decide
    ident := by decide
    inner := by decide
    notPrim := by decide
    declared := by decide
    mentioned := by decide }
  start := by decide

/-- The outer `A` is called `C`. -/
def outerC : Renaming outerInner (.ident ['B']) where
  decl := outerA
  name := ['C']
  fresh := {
    mem := by decide
    ident := by decide
    inner := by decide
    notPrim := by decide
    declared := by decide
    mentioned := by decide }
  start := by decide

end CaLang.Types

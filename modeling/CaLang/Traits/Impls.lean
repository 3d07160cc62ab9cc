import CaLang.Lexical.Distinct
import CaLang.Traits.Conformance
import CaLang.Traits.Runables
import Mathlib.Data.List.Induction
import Mathlib.Data.String.Basic
import Mathlib.Logic.Equiv.Defs

/-! # The methods that a program declares

`walk_fn_declare_full_withsym` takes a function whose mangled name is in `function_map` for one that
is there already, and enters every other method for its type.  **After the first walk a lookup gives
the first declared method of the type**: as mangled names tell trait, type and method, none is taken
for another function.

So a type has all methods of a trait that it implements: what an accepted block leaves out is
declared from the trait.
-/

namespace CaLang.Traits

open Lexical (Part Declared Program NamedFn IsName LexicalScope FnName TypeImplInfo
  isName_of_toList)

/-- A type is told by its name, and by the blocks and functions around its definition. -/
structure Cls where
  path : List Part
  structName : String
  deriving DecidableEq

/-- The type of a method, where `impl` is what the method is mangled with. -/
def clsOf (scopes : List LexicalScope) (impl : TypeImplInfo) : Cls :=
  ⟨(scopes.take impl.pos).map LexicalScope.part, impl.structName⟩

variable {Id Assoc : Type} [LinearOrder Id]

variable (Id Assoc) in
/-- `function_map`, and the methods in the entries of the types.  A declared function stands for its
entry in the symbol table. -/
structure Declarations where
  functionMap : List String
  runables : Cls → Option (StructImplInfo Id Declared Assoc)

def Declarations.empty : Declarations Id Assoc := ⟨[], fun _ => none⟩

variable (symname : String ≃ Id)

/-- `sym_form_type_id`, where `symname` is `symname_check_insert`. -/
def symFormTypeId (name : String) : Id := symname ("t:" ++ name)

/-- What is entered for a method. -/
def methodImplInfo (d : Declared) (impl : TypeImplInfo) : MethodImplInfo Id Declared where
  fnname := symname impl.localName
  nameentry := d
  fnnameManged := symname d.mangledName

/-- `walk_fn_declare_full_withsym` in the first walk. -/
def walkFnDeclare (st : Declarations Id Assoc) (d : Declared) : Declarations Id Assoc :=
  if d.mangledName ∈ st.functionMap then st
  else
    { functionMap := d.mangledName :: st.functionMap
      runables :=
        match d.fn.impl with
        | none => st.runables
        | some impl =>
            let cls := clsOf d.scopes impl
            let trait := impl.traitName.map (symFormTypeId symname)
            Function.update st.runables cls
              (runableAddEntry trait (st.runables cls) (methodImplInfo symname d impl)) }

/-- The functions of a walk, from the first on. -/
def walkFnDeclares (ds : List Declared) : Declarations Id Assoc :=
  ds.foldl (walkFnDeclare symname) .empty

/-- The first walk of a program. -/
def firstWalk (emitMain : Bool) (p : Program) : Declarations Id Assoc :=
  walkFnDeclares symname (p.declared emitMain .first)

/-! ### The methods of a type among the declared functions -/

/-- The methods of a type, as they are declared. -/
def methodsOf (cls : Cls) (ds : List Declared) : List (Registration Id Declared Assoc) :=
  ds.filterMap fun d => d.fn.impl.bind fun impl =>
    if clsOf d.scopes impl = cls then
      some (.method (impl.traitName.map (symFormTypeId symname)) (methodImplInfo symname d impl))
    else none

/-- The first method of a type that is declared under a name, for a trait or without one. -/
def firstDeclared (ds : List Declared) (cls : Cls) (trait : Option Id) (fnname : Id) :
    Option (MethodImplInfo Id Declared) :=
  ds.findSome? fun d => d.fn.impl.bind fun impl =>
    if clsOf d.scopes impl = cls ∧ impl.traitName.map (symFormTypeId symname) = trait ∧
        symname impl.localName = fnname then
      some (methodImplInfo symname d impl)
    else none

theorem firstMethod_methodsOf (ds : List Declared) (cls : Cls) (trait : Option Id) (fnname : Id) :
    firstMethod (methodsOf symname cls ds : List (Registration Id Declared Assoc)) trait fnname =
      firstDeclared symname ds cls trait fnname := by
  induction ds with
  | nil => rfl
  | cons d ds ih =>
      rw [methodsOf, List.filterMap_cons, firstDeclared, List.findSome?_cons]
      cases hi : d.fn.impl with
      | none => exact ih
      | some impl =>
          rw [Option.bind_some, Option.bind_some]
          by_cases hcls : clsOf d.scopes impl = cls
          · rw [if_pos hcls, firstMethod, List.findSome?_cons]
            by_cases hkey : impl.traitName.map (symFormTypeId symname) = trait ∧
                symname impl.localName = fnname
            · simp only [methodImplInfo, hcls, hkey, and_self, if_true]
            · simp only [methodImplInfo, hcls, hkey, true_and, if_false]
              exact ih
          · simp only [hcls, false_and, if_false]
            exact ih

/-- No scope is that of a trait. -/
theorem trait_notMem (scopes : List LexicalScope) (t : String) :
    Part.named .trait t ∉ scopes.map LexicalScope.part := by
  rw [List.mem_map]
  rintro ⟨scope, -, h⟩
  cases scope <;> cases h

/-- The parts of a method tell its type, its trait and its name. -/
theorem impl_eq_of_parts {d d' : Declared} {impl impl' : TypeImplInfo} (hd : d.fn.impl = some impl)
    (hd' : d'.fn.impl = some impl') (h : d.parts = d'.parts) :
    clsOf d.scopes impl = clsOf d'.scopes impl' ∧ impl.traitName = impl'.traitName ∧
      impl.localName = impl'.localName := by
  rw [Declared.parts, Declared.parts, FnName.parts, FnName.parts, hd, hd'] at h
  obtain ⟨hpath, hlast⟩ := List.append_inj' h rfl
  simp only [List.cons.injEq, Part.named.injEq, true_and, and_true] at hlast
  obtain ⟨hstruct, hlocal⟩ := hlast
  have hends : (d.scopes.take impl.pos).map LexicalScope.part =
      (d'.scopes.take impl'.pos).map LexicalScope.part ∧ impl.traitName = impl'.traitName := by
    cases ht : impl.traitName with
    | none =>
        rw [ht] at hpath
        cases ht' : impl'.traitName with
        | none =>
            rw [ht'] at hpath
            exact ⟨by simpa using hpath, rfl⟩
        | some t' =>
            rw [ht'] at hpath
            refine absurd ?_ (trait_notMem (d.scopes.take impl.pos) t')
            simp only [Option.map_none, Option.toList_none, List.append_nil] at hpath
            rw [hpath]
            simp
    | some t =>
        rw [ht] at hpath
        cases ht' : impl'.traitName with
        | none =>
            rw [ht'] at hpath
            refine absurd ?_ (trait_notMem (d'.scopes.take impl'.pos) t)
            simp only [Option.map_none, Option.toList_none, List.append_nil] at hpath
            rw [← hpath]
            simp
        | some t' =>
            rw [ht'] at hpath
            obtain ⟨hscopes, htrait⟩ := List.append_inj' hpath rfl
            exact ⟨hscopes, by simpa using htrait⟩
  exact ⟨by rw [clsOf, clsOf, hends.1, hstruct], hends.2, hlocal⟩

/-! ### A walk enters the first method of every name -/

/-- The methods of a type hold the first ones that are declared. -/
structure Entered (st : Declarations Id Assoc) (ds : List Declared) : Prop where
  functionMap : ∀ name, name ∈ st.functionMap ↔ name ∈ ds.map Declared.mangledName
  runables : ∀ cls, Holds (st.runables cls) (methodsOf symname cls ds)

/-- A method that has been declared is among the first ones. -/
theorem isSome_firstDeclared {ds : List Declared} {d : Declared} {impl : TypeImplInfo}
    (hmem : d ∈ ds) (hd : d.fn.impl = some impl) :
    (firstDeclared symname ds (clsOf d.scopes impl) (impl.traitName.map (symFormTypeId symname))
      (symname impl.localName)).isSome := by
  rw [firstDeclared, List.findSome?_isSome_iff]
  exact ⟨d, hmem, by simp [hd]⟩

/-- A method under a name that is there is the method that is there. -/
theorem isSome_of_mangledName {ds : List Declared} {d : Declared} {impl : TypeImplInfo}
    (hnamed : ∀ d' ∈ ds ++ [d], NamedFn d'.scopes d'.fn) (hd : d.fn.impl = some impl)
    (hmem : d.mangledName ∈ ds.map Declared.mangledName) :
    (firstDeclared symname ds (clsOf d.scopes impl) (impl.traitName.map (symFormTypeId symname))
      (symname impl.localName)).isSome := by
  obtain ⟨d', hd'mem, hname⟩ := List.mem_map.mp hmem
  have hparts : d'.parts = d.parts := Lexical.parts_eq_of_manglingFunctionName
    (hnamed d' (List.mem_append_left _ hd'mem)) (hnamed d (by simp)) hname
  cases hd' : d'.fn.impl with
  | none =>
      exact absurd hparts (Declared.parts_ne_method (by simp [Declared.isPlain, hd'])
        (by simp [Declared.isPlain, hd]))
  | some impl' =>
      obtain ⟨hcls, htrait, hlocal⟩ := impl_eq_of_parts hd' hd hparts
      rw [← hcls, ← htrait, ← hlocal]
      exact isSome_firstDeclared symname hd'mem hd'

/-- What is found was declared. -/
theorem of_firstDeclared {ds : List Declared} {cls : Cls} {trait : Option Id} {fnname : Id}
    {info : MethodImplInfo Id Declared}
    (h : firstDeclared symname ds cls trait fnname = some info) :
    ∃ d ∈ ds, ∃ impl, d.fn.impl = some impl ∧ clsOf d.scopes impl = cls ∧
      impl.traitName.map (symFormTypeId symname) = trait ∧ symname impl.localName = fnname ∧
        info = methodImplInfo symname d impl := by
  obtain ⟨d, hmem, hd⟩ := List.exists_of_findSome?_eq_some h
  obtain ⟨impl, himpl, hinfo⟩ := Option.bind_eq_some_iff.mp hd
  split at hinfo
  · rename_i hkey
    exact ⟨d, hmem, impl, himpl, hkey.1, hkey.2.1, hkey.2.2, (Option.some.inj hinfo).symm⟩
  · cases hinfo

omit [LinearOrder Id] in
theorem methodsOf_append (cls : Cls) (ds ds' : List Declared) :
    (methodsOf symname cls (ds ++ ds') : List (Registration Id Declared Assoc)) =
      methodsOf symname cls ds ++ methodsOf symname cls ds' := List.filterMap_append

omit [LinearOrder Id] in
theorem methodsOf_singleton (cls : Cls) {d : Declared} {impl : TypeImplInfo}
    (hd : d.fn.impl = some impl) :
    (methodsOf symname cls [d] : List (Registration Id Declared Assoc)) =
      if clsOf d.scopes impl = cls then
        [.method (impl.traitName.map (symFormTypeId symname)) (methodImplInfo symname d impl)]
      else [] := by
  rw [methodsOf, List.filterMap_cons, hd, Option.bind_some]
  by_cases hcls : clsOf d.scopes impl = cls
  · simp [hcls]
  · simp [hcls]

omit [LinearOrder Id] in
theorem methodsOf_plain (cls : Cls) {d : Declared} (hd : d.fn.impl = none) :
    (methodsOf symname cls [d] : List (Registration Id Declared Assoc)) = [] := by
  rw [methodsOf, List.filterMap_cons, hd]
  rfl

/-- One more function that is declared. -/
theorem Entered.walkFnDeclare {st : Declarations Id Assoc} {ds : List Declared} {d : Declared}
    (h : Entered symname st ds) (hnamed : ∀ d' ∈ ds ++ [d], NamedFn d'.scopes d'.fn) :
    Entered symname (Traits.walkFnDeclare symname st d) (ds ++ [d]) := by
  obtain ⟨hmap, hrun⟩ := h
  unfold Traits.walkFnDeclare
  by_cases hmem : d.mangledName ∈ st.functionMap
  · rw [if_pos hmem]
    have hold := (hmap _).mp hmem
    refine ⟨?_, ?_⟩
    · intro name
      rw [hmap, List.map_append, List.mem_append, List.map_singleton, List.mem_singleton]
      exact ⟨Or.inl, fun h => h.elim id fun h => h ▸ hold⟩
    · intro cls
      rw [methodsOf_append]
      cases hd : d.fn.impl with
      | none =>
          rw [methodsOf_plain symname cls hd, List.append_nil]
          exact hrun cls
      | some impl =>
          rw [methodsOf_singleton symname cls hd]
          split
          · rename_i hcls
            subst hcls
            refine (hrun _).again ?_
            rw [firstMethod_methodsOf]
            exact isSome_of_mangledName symname hnamed hd hold
          · rw [List.append_nil]
            exact hrun cls
  · rw [if_neg hmem]
    refine ⟨?_, ?_⟩
    · intro name
      rw [List.mem_cons, hmap, List.map_append, List.mem_append, List.map_singleton,
        List.mem_singleton, or_comm]
    · intro cls
      rw [methodsOf_append]
      cases hd : d.fn.impl with
      | none =>
          rw [methodsOf_plain symname cls hd, List.append_nil]
          exact hrun cls
      | some impl =>
          rw [methodsOf_singleton symname cls hd]
          by_cases hcls : clsOf d.scopes impl = cls
          · subst hcls
            rw [if_pos rfl]
            simp only [Function.update_self]
            exact (hrun _).register (.method _ _)
          · rw [if_neg hcls, List.append_nil]
            simp only [Function.update_of_ne (Ne.symm hcls)]
            exact hrun cls

theorem entered_walkFnDeclares {ds : List Declared} (hnamed : ∀ d ∈ ds, NamedFn d.scopes d.fn) :
    Entered symname (walkFnDeclares symname ds : Declarations Id Assoc) ds := by
  induction ds using List.reverseRecOn with
  | nil => exact ⟨fun _ => by simp [walkFnDeclares, Declarations.empty], fun _ => holds_nil⟩
  | append_singleton ds d ih =>
      rw [walkFnDeclares, List.foldl_append]
      exact (ih fun d' hd' => hnamed d' (List.mem_append_left _ hd')).walkFnDeclare symname hnamed

/-! ### The methods of a program -/

/-- A lookup after the first walk. -/
theorem Entered.resolves {st : Declarations Id Assoc} {ds : List Declared}
    (h : Entered symname st ds) (cls : Cls) (fnname : Id) (trait : Option Id) :
    Resolves (firstDeclared symname ds cls trait fnname)
      (fun t => firstDeclared symname ds cls (some t) fnname)
      (runableFindEntry (st.runables cls) fnname trait) := by
  have hr := (h.runables cls).resolves fnname trait
  simpa only [firstMethod_methodsOf] using hr

theorem entered_firstWalk {emitMain : Bool} {p : Program}
    (hnamed : ∀ d ∈ p.declared emitMain .first, NamedFn d.scopes d.fn) :
    Entered symname (firstWalk symname emitMain p : Declarations Id Assoc)
      (p.declared emitMain .first) := entered_walkFnDeclares symname hnamed

/-- **After the first walk, a lookup finds the first declared method** of the type itself, or of the
trait that is asked for, or of the only trait that has one. -/
theorem runableFindEntry_firstWalk_iff {emitMain : Bool} {p : Program}
    (hnamed : ∀ d ∈ p.declared emitMain .first, NamedFn d.scopes d.fn) (cls : Cls) (fnname : Id)
    (trait : Option Id) (r : Except (Ambiguous Id (MethodImplInfo Id Declared))
      (Option (MethodImplInfo Id Declared))) :
    runableFindEntry ((firstWalk symname emitMain p : Declarations Id Assoc).runables cls)
        fnname trait = r ↔
      Resolves (firstDeclared symname (p.declared emitMain .first) cls trait fnname)
        (fun t => firstDeclared symname (p.declared emitMain .first) cls (some t) fnname) r := by
  have hwalk : Entered symname (firstWalk symname emitMain p : Declarations Id Assoc) _ :=
    entered_firstWalk symname hnamed
  have h := hwalk.resolves symname cls fnname trait
  exact ⟨fun heq => heq ▸ h, fun h' => h.unique_result h'⟩

/-- A type `A` that has its own `f` and the default `g` of a trait `T`, and `h` of a trait `U`. -/
def inheritsG : Program :=
  .stmtThen (.fnDefineImpl (.fnThen false
    (.fnDefine ⟨"A::<T>::f", some ⟨0, some "T", "A", "f"⟩⟩ .noStmt) (.fnThen false
      (.fnDefine ⟨"T::g", some ⟨0, some "T", "A", "g"⟩⟩ .noStmt) .noFns)))
    (.stmtThen (.fnDefineImpl (.fnThen false
      (.fnDefine ⟨"A::<U>::h", some ⟨0, some "U", "A", "h"⟩⟩ .noStmt) .noFns)) .noStmt)

/-- The functions that a block of `T` for `A` declares. -/
def declaredByT : List Declared :=
  [⟨[], ⟨"A::<T>::f", some ⟨0, some "T", "A", "f"⟩⟩⟩, ⟨[], ⟨"T::g", some ⟨0, some "T", "A", "g"⟩⟩⟩]

theorem inheritsG_declared : inheritsG.declared true .first =
    declaredByT ++ [⟨[], ⟨"A::<U>::h", some ⟨0, some "U", "A", "h"⟩⟩⟩] := rfl

theorem namedFn_method {name trait fnname : String} (hname : IsName name) (htrait : IsName trait)
    (hfn : IsName fnname) : NamedFn [] ⟨name, some ⟨0, some trait, "A", fnname⟩⟩ := by
  have ha : IsName "A" := isName_of_toList (c := 'A') (l := []) (by simp) (by decide) (by decide)
  refine ⟨hname, fun id f h => absurd h List.not_mem_nil, ?_⟩
  rintro impl ⟨⟩
  refine ⟨ha, hfn, ?_⟩
  rintro t ⟨⟩
  exact htrait

theorem inheritsG_named : ∀ d ∈ inheritsG.declared true .first, NamedFn d.scopes d.fn := by
  have ht : IsName "T" := isName_of_toList (c := 'T') (l := []) (by simp) (by decide) (by decide)
  have hu : IsName "U" := isName_of_toList (c := 'U') (l := []) (by simp) (by decide) (by decide)
  have hf : IsName "f" := isName_of_toList (c := 'f') (l := []) (by simp) (by decide) (by decide)
  have hg : IsName "g" := isName_of_toList (c := 'g') (l := []) (by simp) (by decide) (by decide)
  have hh : IsName "h" := isName_of_toList (c := 'h') (l := []) (by simp) (by decide) (by decide)
  rw [inheritsG_declared]
  refine List.forall_mem_cons.mpr ⟨namedFn_method ?_ ht hf, List.forall_mem_cons.mpr
    ⟨namedFn_method ?_ ht hg, List.forall_mem_cons.mpr ⟨namedFn_method ?_ hu hh,
      fun d h => absurd h List.not_mem_nil⟩⟩⟩
  · exact isName_of_toList (c := 'A') (l := "::<T>::f".toList) (by simp) (by decide) (by simp)
  · exact isName_of_toList (c := 'T') (l := "::g".toList) (by simp) (by decide) (by simp)
  · exact isName_of_toList (c := 'A') (l := "::<U>::h".toList) (by simp) (by decide) (by simp)

/-- Of the two traits of `A` only `T` has a `g`. -/
theorem inheritsG_onlyT {t : String} (ht : (firstDeclared (Equiv.refl String)
    (inheritsG.declared true .first) ⟨[], "A"⟩ (some t) "g").isSome) : t = "t:T" := by
  by_contra hne
  have hne' : "t:T" ≠ t := fun h => hne h.symm
  simp [inheritsG_declared, declaredByT, firstDeclared, clsOf, symFormTypeId, hne'] at ht

theorem inheritsG_find :
    runableFindEntry ((firstWalk (Equiv.refl String) true inheritsG :
        Declarations String Unit).runables ⟨[], "A"⟩) "g" none =
      .ok (some (methodImplInfo (Equiv.refl String) ⟨[], ⟨"T::g", some ⟨0, some "T", "A", "g"⟩⟩⟩
        ⟨0, some "T", "A", "g"⟩)) := by
  refine (runableFindEntry_firstWalk_iff (Equiv.refl String) inheritsG_named _ _ _ _).mpr ?_
  refine .unique (t := "t:T") ?_ ?_ fun t ht => inheritsG_onlyT ht
  · simp [inheritsG_declared, declaredByT, firstDeclared]
  · simp [inheritsG_declared, declaredByT, firstDeclared, clsOf, symFormTypeId]

/-! ### Calls that name a trait -/

/-- `sym_get_function_entry_for_domainas`: the method of `<structName as trait>::fnname`. -/
def symGetFunctionEntryForDomainas (st : Declarations Id Assoc) (cls : Cls)
    (trait fnname : String) :
    Except (Ambiguous Id (MethodImplInfo Id Declared)) (Option (MethodImplInfo Id Declared)) :=
  -- the name itself is asked for, not that of a type
  runableFindEntry (st.runables cls) (symname fnname) (some (symname trait))

/-- No method is declared for a trait under its plain name. -/
theorem firstDeclared_plainName (ds : List Declared) (cls : Cls) {trait : String}
    (htrait : ':' ∉ trait.toList) (fnname : Id) :
    firstDeclared symname ds cls (some (symname trait)) fnname = none := by
  rw [firstDeclared, List.findSome?_eq_none_iff]
  intro d _
  cases d.fn.impl with
  | none => rfl
  | some impl =>
      refine if_neg fun h => htrait ?_
      obtain ⟨t, -, heq⟩ := Option.map_eq_some_iff.mp h.2.1
      rw [← symname.injective heq, String.toList_append]
      simp

/-- **A trait that is named in a call is not looked at**: the call finds the method of the only
trait that has one, and is an error if two traits have it. -/
theorem symGetFunctionEntryForDomainas_iff {emitMain : Bool} {p : Program}
    (hnamed : ∀ d ∈ p.declared emitMain .first, NamedFn d.scopes d.fn) (cls : Cls)
    {trait : String} (htrait : ':' ∉ trait.toList) (fnname : String)
    (r : Except (Ambiguous Id (MethodImplInfo Id Declared))
      (Option (MethodImplInfo Id Declared))) :
    symGetFunctionEntryForDomainas symname (firstWalk symname emitMain p : Declarations Id Assoc)
        cls trait fnname = r ↔
      Resolves none (fun t =>
        firstDeclared symname (p.declared emitMain .first) cls (some t) (symname fnname)) r := by
  have hwalk : Entered symname (firstWalk symname emitMain p : Declarations Id Assoc) _ :=
    entered_firstWalk symname hnamed
  have h := hwalk.resolves symname cls (symname fnname) (some (symname trait))
  rw [firstDeclared_plainName symname _ cls htrait] at h
  exact ⟨fun heq => heq ▸ h, fun h' => h.unique_result h'⟩

/-- `<A as U>::g` is the method of `T`. -/
theorem inheritsG_domainas :
    symGetFunctionEntryForDomainas (Equiv.refl String)
        (firstWalk (Equiv.refl String) true inheritsG : Declarations String Unit) ⟨[], "A"⟩
        "U" "g" =
      .ok (some (methodImplInfo (Equiv.refl String) ⟨[], ⟨"T::g", some ⟨0, some "T", "A", "g"⟩⟩⟩
        ⟨0, some "T", "A", "g"⟩)) := by
  refine (symGetFunctionEntryForDomainas_iff (Equiv.refl String) inheritsG_named _ (by simp) _
    _).mpr ?_
  refine .unique (t := "t:T") rfl ?_ fun t ht => inheritsG_onlyT ht
  simp [inheritsG_declared, declaredByT, firstDeclared, clsOf, symFormTypeId]

/-! ### The blocks of a trait -/

/-- Where an impl block of a trait stands. -/
structure ImplBlock where
  scopes : List LexicalScope
  /-- How many of the scopes are around the type. -/
  pos : Nat
  structName : String
  traitName : String
  deriving DecidableEq

section

variable {TypeId Symtable Sig : Type} [DecidableEq TypeId] [DecidableEq Sig]

/-- A function of the block, under its name in the symbol table. -/
def ImplBlock.declare (b : ImplBlock) (prefixName : String) (fnname : Id) : Declared :=
  let localName := symname.symm fnname
  ⟨b.scopes, ⟨prefixName ++ "::" ++ localName,
    some ⟨b.pos, some b.traitName, b.structName, localName⟩⟩⟩

/-- `walk_fn_define_impl`: the functions that a block of a trait declares, its own ones and the
defaults that stand in.  Generic ones are left to their calls. -/
def walkFnDefineImpl (E : TypeEnv Id TypeId Symtable Assoc Sig) (cls : Sig) (assoc : Assoc)
    (b : ImplBlock) (fns impls : List (FnDef Id TypeId Symtable)) :
    Except (ImplError Id) (List Declared) :=
  match checkTraitImplMatch E cls assoc (symCreateTraitDefsEntry fns) impls with
  | .error e => .error e
  | .ok useDefaultImpls =>
      .ok ((impls.filter (!·.genericTypes)).map (fun fn =>
          b.declare symname (b.structName ++ "::<" ++ b.traitName ++ ">") fn.fnDecl.name) ++
        ((useDefaultImpls.map Prod.snd).filter (!·.genericTypes)).map (fun fn =>
          b.declare symname b.traitName fn.fnDecl.name))

/-- A block declares every function of the trait that is not generic, its own or as a default. -/
theorem exists_declared {E : TypeEnv Id TypeId Symtable Assoc Sig} {cls : Sig} {assoc : Assoc}
    {b : ImplBlock} {fns impls : List (FnDef Id TypeId Symtable)} {ds : List Declared}
    (hwalk : walkFnDefineImpl symname E cls assoc b fns impls = .ok ds) {fnname : Id}
    {fnnode : FnDef Id TypeId Symtable} (hfn : traitFn fns fnname = some fnnode)
    (hgeneric : fnnode.genericTypes = false)
    (hgenerics : ∀ fn ∈ impls, fn.fnDecl.name = fnname → fn.genericTypes = false) :
    ∃ prefixName, b.declare symname prefixName fnname ∈ ds := by
  unfold walkFnDefineImpl at hwalk
  cases hcheck : checkTraitImplMatch E cls assoc (symCreateTraitDefsEntry fns) impls with
  | error e =>
      rw [hcheck] at hwalk
      cases hwalk
  | ok defaults =>
      rw [hcheck] at hwalk
      cases hwalk
      by_cases himpl : Implemented impls fnname
      · obtain ⟨fn, hmem, rfl⟩ := himpl
        exact ⟨_, List.mem_append_left _ (List.mem_map.mpr
          ⟨fn, List.mem_filter.mpr ⟨hmem, by simp [hgenerics fn hmem rfl]⟩, rfl⟩)⟩
      · have hmem := ((standIns_of_ok E hcheck).mem fnname fnnode).mpr ⟨hfn, himpl⟩
        exact ⟨_, List.mem_append_right _ (List.mem_map.mpr
          ⟨fnnode, List.mem_filter.mpr ⟨List.mem_map.mpr ⟨_, hmem, rfl⟩, by simp [hgeneric]⟩,
            by rw [name_of_traitFn hfn]⟩)⟩

/-- **A type has the methods of a trait that it implements.**  If a program declares the functions
of an accepted block, then every function of the trait is found for the type, under the trait and
under its name, unless it is generic. -/
theorem implemented_found {E : TypeEnv Id TypeId Symtable Assoc Sig} {cls : Sig} {assoc : Assoc}
    {b : ImplBlock} {fns impls : List (FnDef Id TypeId Symtable)} {ds : List Declared}
    (hblock : walkFnDefineImpl symname E cls assoc b fns impls = .ok ds) {emitMain : Bool}
    {p : Program} (hnamed : ∀ d ∈ p.declared emitMain .first, NamedFn d.scopes d.fn)
    (hds : ds ⊆ p.declared emitMain .first) {fnname : Id} {fnnode : FnDef Id TypeId Symtable}
    (hfn : traitFn fns fnname = some fnnode) (hgeneric : fnnode.genericTypes = false)
    (hgenerics : ∀ fn ∈ impls, fn.fnDecl.name = fnname → fn.genericTypes = false) :
    ∃ d ∈ p.declared emitMain .first, ∃ impl, d.fn.impl = some impl ∧
      clsOf d.scopes impl = ⟨(b.scopes.take b.pos).map LexicalScope.part, b.structName⟩ ∧
      impl.traitName = some b.traitName ∧ symname impl.localName = fnname ∧
      runableFindEntry ((firstWalk symname emitMain p : Declarations Id Assoc).runables
          (clsOf d.scopes impl)) fnname (some (symFormTypeId symname b.traitName)) =
        .ok (some (methodImplInfo symname d impl)) := by
  obtain ⟨prefixName, hmem⟩ := exists_declared symname hblock hfn hgeneric hgenerics
  obtain ⟨info, hinfo⟩ := Option.isSome_iff_exists.mp
    (isSome_firstDeclared symname (hds hmem) rfl)
  have hwalk : Entered symname (firstWalk symname emitMain p : Declarations Id Assoc) _ :=
    entered_firstWalk symname hnamed
  have hresolves := hwalk.resolves symname
    (clsOf b.scopes ⟨b.pos, some b.traitName, b.structName, symname.symm fnname⟩) fnname
    (some (symFormTypeId symname b.traitName))
  simp only [ImplBlock.declare, Option.map_some, Equiv.apply_symm_apply] at hinfo
  obtain ⟨d, hd, impl, himpl, hcls, htrait, hlocal, rfl⟩ := of_firstDeclared symname hinfo
  obtain ⟨t, ht, hteq⟩ := Option.map_eq_some_iff.mp htrait
  have htname : t = b.traitName := by
    have happ := symname.injective hteq
    rwa [← String.toList_inj, String.toList_append, String.toList_append, List.append_right_inj,
      String.toList_inj] at happ
  refine ⟨d, hd, impl, himpl, hcls, htname ▸ ht, hlocal, ?_⟩
  rw [hcls]
  exact hresolves.unique_result (.preferred hinfo)

end

/-- A parameter `x: i32` that no `let` rebinds. -/
def paramX : Param String String := .atRest "x" "i32" []

/-- `A` has the `g` that it inherits with its own `f`. -/
theorem inheritsG_found :
    ∃ d ∈ inheritsG.declared true .first, ∃ impl, d.fn.impl = some impl ∧
      clsOf d.scopes impl = ⟨[], "A"⟩ ∧ impl.traitName = some "T" ∧ impl.localName = "g" ∧
      runableFindEntry ((firstWalk (Equiv.refl String) true inheritsG :
          Declarations String Unit).runables (clsOf d.scopes impl)) "g" (some "t:T") =
        .ok (some (methodImplInfo (Equiv.refl String) d impl)) := by
  let f : FnDef String String Unit := ⟨⟨"f", [paramX], "i32", ()⟩, false, false⟩
  let g : FnDef String String Unit := ⟨⟨"g", [paramX], "i32", ()⟩, true, false⟩
  let ownF : FnDef String String Unit := ⟨⟨"f", [paramX], "i32", ()⟩, true, false⟩
  let E : TypeEnv String String Unit Unit String :=
    ⟨"self", "*Self", fun _ _ t => some ⟨t, none⟩⟩
  have hcheck : checkTraitImplMatch E "A" () (symCreateTraitDefsEntry [f, g]) [ownF] =
      .ok [("g", g)] := by
    have hleft : (setDifference (symCreateTraitDefsEntry [f, g]).fnnodes
        (insertAll .empty ["f"])).keys = ["g"] := by
      rw [keys_setDifference]
      decide
    have hagrees : Agrees E "A" () f.fnDecl ownF.fnDecl :=
      (compareTraitAndImplSignature_ok_iff E "A" () _ _).mp (by decide)
    have hconf : checkImplFns E "A" () (symCreateTraitDefsEntry [f, g]) [ownF] .empty =
        .ok (insertAll .empty ["f"]) :=
      (checkImplFns_ok_iff E "A" () [f, g] [ownF] .empty _).mpr
        ⟨List.forall_mem_singleton.mpr ⟨f, rfl, hagrees⟩, rfl⟩
    simp only [checkTraitImplMatch, hconf, hleft]
    decide
  have hblock : walkFnDefineImpl (Equiv.refl String) E "A" () ⟨[], 0, "A", "T"⟩ [f, g] [ownF] =
      .ok declaredByT := by
    rw [walkFnDefineImpl, hcheck]
    rfl
  have hfn : traitFn [f, g] "g" = some g := rfl
  have hds : declaredByT ⊆ inheritsG.declared true .first := List.subset_append_left _ _
  exact implemented_found (Equiv.refl String) hblock inheritsG_named hds hfn rfl
    fun fn hmem _ => by rw [List.mem_singleton.mp hmem]

end CaLang.Traits

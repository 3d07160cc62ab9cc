import CaLang.Lib.Ordered
import CaLang.Lib.Ring

/-! # An impl block of a trait

`check_trait_impl_match` compares the functions of an impl block with those of the trait.  **A block
is accepted iff each of its functions is one of the trait with the same prototype, and it leaves out
none that the trait gives no body**; the trait's own bodies stand in for what it leaves out.

A prototype is read as the comparison reads it: the datatypes come from `catype_get_by_name`, where
`Self` of the trait means the type of the block, and the type of a parameter is that of the variable
which its name designates when the block is checked.  In a function that is not being walked this is
the last `let` of the name in the function's own block, if there is one.
-/

namespace CaLang.Traits

/-- A parameter: the variables under its name in the table of the function, with their types, and
the one that is designated.  An untyped `let` has none before it is walked. -/
structure Param (Id TypeId : Type) where
  argname : Id
  varshielding : Ring (Option TypeId)
  deriving DecidableEq

/-- What the parser leaves of a parameter: the lets of its name are registered after it. -/
def Param.atRest {Id TypeId : Type} (argname : Id) (datatype : TypeId)
    (lets : List (Option TypeId)) : Param Id TypeId :=
  ⟨argname, lets.foldl Ring.push ⟨some datatype, []⟩⟩

/-- A prototype, under the name behind its type. -/
structure FnDecl (Id TypeId Symtable : Type) where
  name : Id
  args : List (Param Id TypeId)
  ret : TypeId
  symtable : Symtable
  deriving DecidableEq

/-- A function of a trait or of an impl block; one that is only declared has no statements. -/
structure FnDef (Id TypeId Symtable : Type) where
  fnDecl : FnDecl Id TypeId Symtable
  stmts : Bool
  genericTypes : Bool
  deriving DecidableEq

/-- What is looked at of a datatype: its signature, and that of what it points to. -/
structure CADataType (Sig : Type) where
  signature : Sig
  pointee : Option Sig

/-- The names and lookups that a comparison uses; an association says what `Self` is. -/
structure TypeEnv (Id TypeId Symtable Assoc Sig : Type) where
  oself : Id
  traitSelfPtrId : TypeId
  catypeGetByName : Option Assoc → Symtable → TypeId → Option (CADataType Sig)

variable {Id TypeId Symtable Assoc Sig : Type}

/-! ### Comparing prototypes -/

/-- Why a function does not match that of the trait; a missing datatype ends the compiler. -/
inductive Mismatch
  | returnType
  | argc (impl trait : Nat)
  | selfName
  | selfInTrait
  | selfInImpl
  | argType
  | noDatatype
  deriving DecidableEq

section

variable (E : TypeEnv Id TypeId Symtable Assoc Sig)

/-- The datatype of a parameter: that of the current variable. -/
def paramDatatype (assoc : Option Assoc) (symtable : Symtable) (p : Param Id TypeId) :
    Option (CADataType Sig) :=
  p.varshielding.current.bind (E.catypeGetByName assoc symtable)

variable [DecidableEq Id] [DecidableEq TypeId] [DecidableEq Sig]

/-- `compare_self_type`: whether there is a `self`, which is compared here. -/
def compareSelfType (cls : Sig) (trait impl : FnDecl Id TypeId Symtable) : Except Mismatch Bool :=
  match trait.args, impl.args with
  | p :: _, q :: _ =>
      if p.argname = E.oself ∨ q.argname = E.oself then
        if p.argname ≠ q.argname then .error .selfName
        else if p.varshielding.current ≠ some E.traitSelfPtrId then .error .selfInTrait
        else
          match paramDatatype E none impl.symtable q with
          | none => .error .noDatatype
          | some implCatype =>
              if implCatype.pointee ≠ some cls then .error .selfInImpl else .ok true
      else .ok false
  -- there are as many arguments here as there
  | _, _ => .ok false

/-- The signatures of a datatype of the trait and one of the block are compared. -/
def compareSignatures (e : Mismatch) : Option (CADataType Sig) → Option (CADataType Sig) →
    Except Mismatch Unit
  | some traitCatype, some implCatype =>
      if traitCatype.signature ≠ implCatype.signature then .error e else .ok ()
  | _, _ => .error .noDatatype

/-- The loop of `compare_trait_and_impl_args` over the parameters. -/
def compareParams (assoc : Assoc) (trait impl : FnDecl Id TypeId Symtable) :
    List (Param Id TypeId × Param Id TypeId) → Except Mismatch Unit
  | [] => .ok ()
  | (p, q) :: rest =>
      match compareSignatures .argType (paramDatatype E (some assoc) trait.symtable p)
          (paramDatatype E none impl.symtable q) with
      | .error e => .error e
      | .ok () => compareParams assoc trait impl rest

/-- `compare_trait_and_impl_args` -/
def compareTraitAndImplArgs (cls : Sig) (assoc : Assoc) (trait impl : FnDecl Id TypeId Symtable) :
    Except Mismatch Unit :=
  if trait.args.length ≠ impl.args.length then .error (.argc impl.args.length trait.args.length)
  else
    match compareSelfType E cls trait impl with
    | .error e => .error e
    | .ok selfParamChecked =>
        compareParams E assoc trait impl
          ((trait.args.zip impl.args).drop (if selfParamChecked then 1 else 0))

/-- `compare_trait_and_impl_signature`; the names are the same here. -/
def compareTraitAndImplSignature (cls : Sig) (assoc : Assoc)
    (trait impl : FnDecl Id TypeId Symtable) : Except Mismatch Unit :=
  match compareSignatures .returnType (E.catypeGetByName (some assoc) trait.symtable trait.ret)
      (E.catypeGetByName none impl.symtable impl.ret) with
  | .error e => .error e
  | .ok () => compareTraitAndImplArgs E cls assoc trait impl

end

/-! ### The check of a block -/

section

variable [LinearOrder Id]

variable (Id TypeId Symtable) in
structure TraitNodeInfo where
  fnnodes : Ordered Id (FnDef Id TypeId Symtable)
  idsWithDef : Ordered Id Unit
  idsNoDef : Ordered Id Unit

/-- One round of the loop of `sym_create_trait_defs_entry`. -/
def addTraitFn (info : TraitNodeInfo Id TypeId Symtable) (fnnode : FnDef Id TypeId Symtable) :
    TraitNodeInfo Id TypeId Symtable :=
  let name := fnnode.fnDecl.name
  { fnnodes := info.fnnodes.insert name fnnode
    idsWithDef := if fnnode.stmts then info.idsWithDef.insert name () else info.idsWithDef
    idsNoDef := if fnnode.stmts then info.idsNoDef else info.idsNoDef.insert name () }

/-- `sym_create_trait_defs_entry` -/
def symCreateTraitDefsEntry (fns : List (FnDef Id TypeId Symtable)) :
    TraitNodeInfo Id TypeId Symtable :=
  fns.foldl addTraitFn ⟨.empty, .empty, .empty⟩

/-- A set of identifiers with those of a list in it. -/
def insertAll (ids : Ordered Id Unit) (names : List Id) : Ordered Id Unit :=
  names.foldl (fun ids name => ids.insert name ()) ids

/-- `set_difference` -/
def setDifference {α : Type} (s₁ : Ordered Id α) (s₂ : Ordered Id Unit) : Ordered Id Unit :=
  insertAll .empty (difference s₁.keys s₂.keys)

/-- Why a block is rejected. -/
inductive ImplError (Id : Type)
  | notMember (name : Id)
  | mismatch (name : Id) (why : Mismatch)
  | missing (names : List Id)
  deriving DecidableEq

variable [DecidableEq TypeId] [DecidableEq Sig] (E : TypeEnv Id TypeId Symtable Assoc Sig)

/-- The loop of `check_trait_impl_match` over the functions of the block. -/
def checkImplFns (cls : Sig) (assoc : Assoc) (info : TraitNodeInfo Id TypeId Symtable) :
    List (FnDef Id TypeId Symtable) → Ordered Id Unit → Except (ImplError Id) (Ordered Id Unit)
  | [], fnidsImpls => .ok fnidsImpls
  | fn :: rest, fnidsImpls =>
      let purename := fn.fnDecl.name
      match info.fnnodes.find purename with
      | none => .error (.notMember purename)
      | some fnnode =>
          match compareTraitAndImplSignature E cls assoc fnnode.fnDecl fn.fnDecl with
          | .error why => .error (.mismatch purename why)
          | .ok () => checkImplFns cls assoc info rest (fnidsImpls.insert purename ())

/-- `check_trait_impl_match`: the functions of the trait that stand in. -/
def checkTraitImplMatch (cls : Sig) (assoc : Assoc) (info : TraitNodeInfo Id TypeId Symtable)
    (impls : List (FnDef Id TypeId Symtable)) :
    Except (ImplError Id) (List (Id × FnDef Id TypeId Symtable)) :=
  match checkImplFns E cls assoc info impls .empty with
  | .error e => .error e
  | .ok fnidsImpls =>
      let fnidsNotImpls := setDifference info.fnnodes fnidsImpls
      let missingImpls := fnidsNotImpls.keys.filter fun name => (info.idsNoDef.find name).isSome
      if missingImpls ≠ [] then .error (.missing missingImpls)
      else .ok (fnidsNotImpls.keys.filterMap fun name =>
        (info.fnnodes.find name).map (name, ·))

end

/-! ### The functions of a trait -/

section

variable [LinearOrder Id]

/-- The function of a trait under a name. -/
def traitFn (fns : List (FnDef Id TypeId Symtable)) (name : Id) :
    Option (FnDef Id TypeId Symtable) := fns.find? (·.fnDecl.name = name)

/-- **The entry of a trait has its functions**, the first one under each name. -/
theorem fnnodes_symCreateTraitDefsEntry (fns : List (FnDef Id TypeId Symtable)) (name : Id) :
    (symCreateTraitDefsEntry fns).fnnodes.find name = traitFn fns name := by
  have run : ∀ (fns : List (FnDef Id TypeId Symtable)) (info : TraitNodeInfo Id TypeId Symtable),
      (fns.foldl addTraitFn info).fnnodes.find name =
        (info.fnnodes.find name).or (traitFn fns name) := by
    intro fns
    induction fns with
    | nil => exact fun info => (Option.or_none).symm
    | cons fn fns ih =>
        intro info
        rw [List.foldl_cons, ih]
        simp only [traitFn, List.find?_cons]
        by_cases h : fn.fnDecl.name = name
        · subst h
          simp only [addTraitFn, Ordered.find_insert_self, decide_true]
          cases info.fnnodes.find fn.fnDecl.name <;> rfl
        · have hne : name ≠ fn.fnDecl.name := fun heq => h heq.symm
          simp only [addTraitFn, h, decide_false]
          rw [Ordered.find_insert_ne hne]
  exact run fns _

/-- The names without a body are those of functions that are only declared. -/
theorem idsNoDef_symCreateTraitDefsEntry (fns : List (FnDef Id TypeId Symtable)) (name : Id) :
    ((symCreateTraitDefsEntry fns).idsNoDef.find name).isSome ↔
      ∃ fn ∈ fns, fn.fnDecl.name = name ∧ fn.stmts = false := by
  have run : ∀ (fns : List (FnDef Id TypeId Symtable)) (info : TraitNodeInfo Id TypeId Symtable),
      ((fns.foldl addTraitFn info).idsNoDef.find name).isSome ↔
        (info.idsNoDef.find name).isSome ∨
          ∃ fn ∈ fns, fn.fnDecl.name = name ∧ fn.stmts = false := by
    intro fns
    induction fns with
    | nil => exact fun info => by simp
    | cons fn fns ih =>
        intro info
        rw [List.foldl_cons, ih]
        simp only [addTraitFn, List.mem_cons, exists_eq_or_imp]
        cases hs : fn.stmts with
        | true => simp
        | false =>
            by_cases h : fn.fnDecl.name = name
            · subst h
              simp
            · have hne : name ≠ fn.fnDecl.name := fun heq => h heq.symm
              simp [h, Ordered.find_insert_ne hne]
  exact (run fns _).trans (by simp)

/-! ### The difference of sets -/

theorem mem_keys_insertAll (ids : Ordered Id Unit) (names : List Id) (name : Id) :
    name ∈ (insertAll ids names).keys ↔ name ∈ names ∨ name ∈ ids.keys := by
  induction names generalizing ids with
  | nil => simp [insertAll]
  | cons n names ih =>
      rw [insertAll, List.foldl_cons]
      refine (ih _).trans ?_
      rw [Ordered.mem_keys_insert, List.mem_cons]
      tauto

/-- **The loop over both sets leaves the identifiers that only the first one has**, in order. -/
theorem keys_setDifference {α : Type} (s₁ : Ordered Id α) (s₂ : Ordered Id Unit) :
    (setDifference s₁ s₂).keys = s₁.keys.filter (· ∉ s₂.keys) := by
  have hfilter := difference_eq_filter s₁.sorted s₂.sorted
  apply (setDifference s₁ s₂).sorted.eq_of_mem_iff (s₁.sorted.filter _)
  intro name
  refine (mem_keys_insertAll _ _ name).trans ?_
  rw [Ordered.keys, Ordered.keys, hfilter]
  exact or_iff_left (by simp [Ordered.keys, Ordered.empty])

end

/-! ### What is accepted -/

/-- Both datatypes are there, with the same signature. -/
def SameSignature (traitCatype implCatype : Option (CADataType Sig)) : Prop :=
  ∃ c ∈ traitCatype, ∃ d ∈ implCatype, c.signature = d.signature

section

variable (E : TypeEnv Id TypeId Symtable Assoc Sig)

/-- One of the two prototypes has a `self`. -/
def HasSelf (trait impl : FnDecl Id TypeId Symtable) : Prop :=
  (∃ p ∈ trait.args.head?, p.argname = E.oself) ∨ ∃ q ∈ impl.args.head?, q.argname = E.oself

/-- The first parameters are `self` parameters of the trait and of the type. -/
def SelfAgrees (cls : Sig) (trait impl : FnDecl Id TypeId Symtable) : Prop :=
  ∃ p ∈ trait.args.head?, ∃ q ∈ impl.args.head?, p.argname = q.argname ∧
    p.varshielding.current = some E.traitSelfPtrId ∧
      ∃ c ∈ paramDatatype E none impl.symtable q, c.pointee = some cls

/-- **The prototype of a block is that of the trait**: the types of the results and of all
parameters, as their names are bound, are the same, but that `self` points to the trait's `Self`
there and to the type here. -/
structure Agrees (cls : Sig) (assoc : Assoc) (trait impl : FnDecl Id TypeId Symtable) : Prop where
  ret : SameSignature (E.catypeGetByName (some assoc) trait.symtable trait.ret)
    (E.catypeGetByName none impl.symtable impl.ret)
  argc : trait.args.length = impl.args.length
  self : HasSelf E trait impl → SelfAgrees E cls trait impl
  args : ∀ (i : Nat) p q, (i = 0 → ¬HasSelf E trait impl) → trait.args[i]? = some p →
    impl.args[i]? = some q → SameSignature (paramDatatype E (some assoc) trait.symtable p)
      (paramDatatype E none impl.symtable q)

end

/-- **The variable that a parameter's name designates at rest** is the last let of the name in the
function's own block, and the parameter if there is none. -/
theorem current_atRest (argname : Id) (datatype : TypeId) (lets : List (Option TypeId)) :
    (Param.atRest argname datatype lets).varshielding.current =
      lets.getLast?.getD (some datatype) := by
  rcases List.eq_nil_or_concat' lets with rfl | ⟨earlier, last, rfl⟩
  · rfl
  · unfold Param.atRest
    rw [List.foldl_append, List.getLast?_append]
    rfl

/-- With `let x: f64` in the function, `x: i32` is compared as an `f64`. -/
example : (Param.atRest "x" "i32" [some "f64"]).varshielding.current = some "f64" :=
  current_atRest _ _ _

section

variable [DecidableEq Id] [DecidableEq TypeId] [DecidableEq Sig]
  (E : TypeEnv Id TypeId Symtable Assoc Sig)

theorem compareSignatures_ok_iff (e : Mismatch) (c d : Option (CADataType Sig)) :
    compareSignatures e c d = .ok () ↔ SameSignature c d := by
  unfold compareSignatures SameSignature
  cases c with
  | none => exact iff_of_false (fun h => by cases h) fun ⟨_, h, _⟩ => by cases h
  | some c =>
      cases d with
      | none => exact iff_of_false (fun h => by cases h) fun ⟨_, _, _, h, _⟩ => by cases h
      | some d =>
          simp only [Option.mem_some_iff, exists_eq_left']
          by_cases h : c.signature = d.signature
          · rw [if_neg (not_not.mpr h)]
            exact iff_of_true rfl h
          · rw [if_pos h]
            exact iff_of_false (fun h => by cases h) h

/-- `self` is compared if there is one. -/
theorem compareSelfType_ok_iff (cls : Sig) {trait impl : FnDecl Id TypeId Symtable}
    (hlen : trait.args.length = impl.args.length) (checked : Bool) :
    compareSelfType E cls trait impl = .ok checked ↔
      (checked = true ↔ HasSelf E trait impl) ∧
        (HasSelf E trait impl → SelfAgrees E cls trait impl) := by
  unfold compareSelfType HasSelf SelfAgrees
  match hp : trait.args, hq : impl.args with
  | [], [] => cases checked <;> simp
  | [], _ :: _ | _ :: _, [] => rw [hp, hq] at hlen; cases hlen
  | p :: ps, q :: qs =>
      simp only [List.head?_cons, Option.mem_def, Option.some.injEq, exists_eq_left']
      by_cases hself : p.argname = E.oself ∨ q.argname = E.oself
      · rw [if_pos hself]
        by_cases hname : p.argname = q.argname
        · have hq : q.argname = E.oself := hself.elim (fun h => hname ▸ h) id
          by_cases htype : p.varshielding.current = some E.traitSelfPtrId
          · cases hd : paramDatatype E none impl.symtable q with
            | none => simp [hname, hq, htype]
            | some c =>
                by_cases hpointee : c.pointee = some cls
                · cases checked <;> simp [hname, hq, htype, hpointee]
                · simp [hname, hq, htype, hpointee]
          · simp [hname, hq, htype]
        · simp [hself, hname]
      · rw [if_neg hself]
        cases checked <;> simp [hself]

omit [DecidableEq Id] [DecidableEq TypeId] in
theorem compareParams_ok_iff (assoc : Assoc) (trait impl : FnDecl Id TypeId Symtable)
    (pairs : List (Param Id TypeId × Param Id TypeId)) :
    compareParams E assoc trait impl pairs = .ok () ↔ ∀ p q, (p, q) ∈ pairs →
      SameSignature (paramDatatype E (some assoc) trait.symtable p)
        (paramDatatype E none impl.symtable q) := by
  induction pairs with
  | nil => exact iff_of_true rfl fun p q h => absurd h List.not_mem_nil
  | cons pq pairs ih =>
      obtain ⟨p, q⟩ := pq
      have hsig := compareSignatures_ok_iff .argType (paramDatatype E (some assoc) trait.symtable p)
        (paramDatatype E none impl.symtable q)
      rw [compareParams]
      cases hc : compareSignatures .argType (paramDatatype E (some assoc) trait.symtable p)
          (paramDatatype E none impl.symtable q) with
      | error e =>
          rw [hc] at hsig
          exact iff_of_false (fun h => by cases h)
            fun h => by cases hsig.mpr (h p q List.mem_cons_self)
      | ok u =>
          rw [hc] at hsig
          refine ih.trans ⟨?_, fun h p' q' hmem => h p' q' (List.mem_cons_of_mem _ hmem)⟩
          intro h p' q' hmem
          rcases List.mem_cons.mp hmem with heq | hmem
          · cases heq
            exact hsig.mp rfl
          · exact h p' q' hmem

theorem mem_drop_zip_iff {α : Type} (n : Nat) (xs ys : List α) (p q : α) :
    (p, q) ∈ (xs.zip ys).drop n ↔
      ∃ i : Nat, n ≤ i ∧ xs[i]? = some p ∧ ys[i]? = some q := by
  rw [List.mem_iff_getElem?]
  constructor
  · rintro ⟨i, hi⟩
    rw [List.getElem?_drop, List.getElem?_zip_eq_some] at hi
    exact ⟨n + i, Nat.le_add_right n i, hi⟩
  · rintro ⟨i, hni, hi⟩
    refine ⟨i - n, ?_⟩
    rw [List.getElem?_drop, Nat.add_sub_cancel' hni]
    exact List.getElem?_zip_eq_some.mpr hi

/-- **The comparison accepts the prototypes that agree.** -/
theorem compareTraitAndImplSignature_ok_iff (cls : Sig) (assoc : Assoc)
    (trait impl : FnDecl Id TypeId Symtable) :
    compareTraitAndImplSignature E cls assoc trait impl = .ok () ↔
      Agrees E cls assoc trait impl := by
  have hret := compareSignatures_ok_iff .returnType
    (E.catypeGetByName (some assoc) trait.symtable trait.ret)
    (E.catypeGetByName none impl.symtable impl.ret)
  unfold compareTraitAndImplSignature compareTraitAndImplArgs
  cases hr : compareSignatures .returnType
      (E.catypeGetByName (some assoc) trait.symtable trait.ret)
      (E.catypeGetByName none impl.symtable impl.ret) with
  | error e =>
      rw [hr] at hret
      exact iff_of_false (fun h => by cases h) fun h => by cases hret.mpr h.ret
  | ok u =>
      rw [hr] at hret
      simp only
      by_cases hlen : trait.args.length = impl.args.length
      · rw [if_neg (not_not.mpr hlen)]
        have hself := compareSelfType_ok_iff E cls hlen
        cases hc : compareSelfType E cls trait impl with
        | error e =>
            refine iff_of_false (fun h => by cases h) ?_
            intro h
            by_cases hs : HasSelf E trait impl
            · rw [(hself true).mpr ⟨iff_of_true rfl hs, h.self⟩] at hc
              cases hc
            · rw [(hself false).mpr ⟨iff_of_false Bool.false_ne_true hs, h.self⟩] at hc
              cases hc
        | ok checked =>
            obtain ⟨hchecked, hagrees⟩ := (hself checked).mp hc
            have hfirst : ∀ i : Nat, (if checked = true then 1 else 0) ≤ i ↔
                (i = 0 → ¬HasSelf E trait impl) := by
              intro i
              rw [← hchecked]
              cases checked with
              | true => simp [Nat.one_le_iff_ne_zero]
              | false => simp
            simp only
            rw [compareParams_ok_iff]
            constructor
            · intro h
              exact ⟨hret.mp rfl, hlen, hagrees, fun i p q hi hp hq =>
                h p q ((mem_drop_zip_iff _ _ _ p q).mpr ⟨i, (hfirst i).mpr hi, hp, hq⟩)⟩
            · intro h p q hmem
              obtain ⟨i, hi, hp, hq⟩ := (mem_drop_zip_iff _ _ _ p q).mp hmem
              exact h.args i p q ((hfirst i).mp hi) hp hq
      · rw [if_pos hlen]
        exact iff_of_false (fun h => by cases h) fun h => hlen h.argc

end

/-! ### What a block is checked for -/

section

variable [LinearOrder Id] {fns impls : List (FnDef Id TypeId Symtable)}

/-- The block has a function of this name. -/
def Implemented (impls : List (FnDef Id TypeId Symtable)) (name : Id) : Prop :=
  ∃ fn ∈ impls, fn.fnDecl.name = name

/-- The names of trait functions without a body that the block leaves out, in order. -/
structure Missing (fns impls : List (FnDef Id TypeId Symtable)) (names : List Id) : Prop where
  sorted : names.Pairwise (· < ·)
  mem : ∀ name, name ∈ names ↔
    (∃ fn ∈ fns, fn.fnDecl.name = name ∧ fn.stmts = false) ∧ ¬Implemented impls name

/-- The functions of the trait that the block leaves out, in the order of their names. -/
structure StandIns (fns impls : List (FnDef Id TypeId Symtable))
    (defaults : List (Id × FnDef Id TypeId Symtable)) : Prop where
  sorted : (defaults.map Prod.fst).Pairwise (· < ·)
  mem : ∀ name fnnode, (name, fnnode) ∈ defaults ↔
    traitFn fns name = some fnnode ∧ ¬Implemented impls name

variable (fns impls) in
/-- What the check has left after the loop over the block. -/
theorem mem_leftOut (name : Id) :
    name ∈ (setDifference (symCreateTraitDefsEntry fns).fnnodes
        (insertAll .empty (impls.map (·.fnDecl.name)))).keys ↔
      (traitFn fns name).isSome ∧ ¬Implemented impls name := by
  rw [keys_setDifference, List.mem_filter, Ordered.mem_keys_iff, fnnodes_symCreateTraitDefsEntry]
  apply and_congr_right
  intro _
  rw [decide_eq_true_iff, mem_keys_insertAll, List.mem_map]
  exact not_congr (or_iff_left (by simp [Ordered.keys, Ordered.empty]))

theorem name_of_traitFn {name : Id} {fn : FnDef Id TypeId Symtable}
    (h : traitFn fns name = some fn) : fn.fnDecl.name = name := by
  simpa using List.find?_some h

/-- A function that is only declared is a function. -/
theorem isSome_traitFn {name : Id} {fn : FnDef Id TypeId Symtable} (hmem : fn ∈ fns)
    (hname : fn.fnDecl.name = name) : (traitFn fns name).isSome := by
  rw [traitFn, List.find?_isSome]
  exact ⟨fn, hmem, by simpa using hname⟩

variable (fns impls) in
/-- The names that the check reports. -/
theorem missing_filter :
    Missing fns impls ((setDifference (symCreateTraitDefsEntry fns).fnnodes
        (insertAll .empty (impls.map (·.fnDecl.name)))).keys.filter fun name =>
          ((symCreateTraitDefsEntry fns).idsNoDef.find name).isSome) := by
  refine ⟨(Ordered.sorted _).filter _, ?_⟩
  intro name
  rw [List.mem_filter, mem_leftOut, idsNoDef_symCreateTraitDefsEntry]
  constructor
  · intro h
    exact ⟨h.2, h.1.2⟩
  · rintro ⟨⟨fn, hmem, hname, hstmts⟩, himpl⟩
    exact ⟨⟨isSome_traitFn hmem hname, himpl⟩, fn, hmem, hname, hstmts⟩

variable (fns impls) in
/-- The functions that the check returns. -/
theorem standIns_filterMap :
    StandIns fns impls ((setDifference (symCreateTraitDefsEntry fns).fnnodes
        (insertAll .empty (impls.map (·.fnDecl.name)))).keys.filterMap fun name =>
          ((symCreateTraitDefsEntry fns).fnnodes.find name).map (name, ·)) := by
  simp only [fnnodes_symCreateTraitDefsEntry]
  refine ⟨?_, ?_⟩
  · rw [List.map_filterMap, List.pairwise_filterMap]
    refine (Ordered.sorted _).imp fun hlt => ?_
    rintro _ hb _ hb'
    obtain ⟨_, hf, rfl⟩ := Option.map_eq_some_iff.mp hb
    obtain ⟨_, hf', rfl⟩ := Option.map_eq_some_iff.mp hb'
    obtain ⟨_, -, rfl⟩ := Option.map_eq_some_iff.mp hf
    obtain ⟨_, -, rfl⟩ := Option.map_eq_some_iff.mp hf'
    exact hlt
  · intro name fnnode
    rw [List.mem_filterMap]
    constructor
    · rintro ⟨name', hmem, h⟩
      obtain ⟨g, hg, heq⟩ := Option.map_eq_some_iff.mp h
      cases heq
      exact ⟨hg, ((mem_leftOut fns impls name).mp hmem).2⟩
    · rintro ⟨hfn, himpl⟩
      exact ⟨name, (mem_leftOut fns impls name).mpr ⟨by rw [hfn]; rfl, himpl⟩, by rw [hfn]; rfl⟩

theorem Missing.unique {names names' : List Id} (h : Missing fns impls names)
    (h' : Missing fns impls names') : names = names' :=
  h.sorted.eq_of_mem_iff h'.sorted fun name => (h.mem name).trans (h'.mem name).symm

theorem StandIns.unique {defaults defaults' : List (Id × FnDef Id TypeId Symtable)}
    (h : StandIns fns impls defaults) (h' : StandIns fns impls defaults') :
    defaults = defaults' :=
  Ordered.entries_ext h.sorted h'.sorted fun name fnnode =>
    (h.mem name fnnode).trans (h'.mem name fnnode).symm

end

/-! ### The verdict -/

section

variable [LinearOrder Id] [DecidableEq TypeId] [DecidableEq Sig]
  (E : TypeEnv Id TypeId Symtable Assoc Sig) {cls : Sig} {assoc : Assoc}
  {fns impls : List (FnDef Id TypeId Symtable)}

/-- A function of a block is one of the trait with the same prototype. -/
def Conforms (cls : Sig) (assoc : Assoc) (fns : List (FnDef Id TypeId Symtable))
    (fn : FnDef Id TypeId Symtable) : Prop :=
  ∃ fnnode, traitFn fns fn.fnDecl.name = some fnnode ∧ Agrees E cls assoc fnnode.fnDecl fn.fnDecl

/-- The loop over the block collects the names, if all functions conform. -/
theorem checkImplFns_ok_iff (cls : Sig) (assoc : Assoc)
    (fns impls : List (FnDef Id TypeId Symtable)) (ids ids' : Ordered Id Unit) :
    checkImplFns E cls assoc (symCreateTraitDefsEntry fns) impls ids = .ok ids' ↔
      (∀ fn ∈ impls, Conforms E cls assoc fns fn) ∧
        insertAll ids (impls.map (·.fnDecl.name)) = ids' := by
  induction impls generalizing ids with
  | nil => simp [checkImplFns, insertAll]
  | cons fn impls ih =>
      rw [checkImplFns, List.forall_mem_cons, Conforms, fnnodes_symCreateTraitDefsEntry]
      cases hfind : traitFn fns fn.fnDecl.name with
      | none => simp
      | some fnnode =>
          have hsig := compareTraitAndImplSignature_ok_iff E cls assoc fnnode.fnDecl
            fn.fnDecl
          simp only [Option.some.injEq, exists_eq_left']
          cases hc : compareTraitAndImplSignature E cls assoc fnnode.fnDecl fn.fnDecl with
          | error why =>
              rw [hc] at hsig
              exact iff_of_false nofun fun h => nomatch hsig.mpr h.1.1
          | ok u =>
              rw [hc] at hsig
              simp only [hsig.mp rfl, true_and]
              exact ih _

/-- Before the names are compared, a block is rejected for its first function that does not
conform. -/
theorem checkImplFns_error {ids : Ordered Id Unit} {e : ImplError Id}
    (h : checkImplFns E cls assoc (symCreateTraitDefsEntry fns) impls ids = .error e) :
    ∃ checked fn rest, impls = checked ++ fn :: rest ∧
      (∀ fn ∈ checked, Conforms E cls assoc fns fn) ∧ ¬Conforms E cls assoc fns fn ∧
        (e = .notMember fn.fnDecl.name ∨ ∃ why, e = .mismatch fn.fnDecl.name why) := by
  induction impls generalizing ids with
  | nil => cases h
  | cons fn impls ih =>
      rw [checkImplFns, fnnodes_symCreateTraitDefsEntry] at h
      cases hfind : traitFn fns fn.fnDecl.name with
      | none =>
          rw [hfind] at h
          cases h
          exact ⟨[], fn, impls, rfl, nofun, by simp [Conforms, hfind], Or.inl rfl⟩
      | some fnnode =>
          rw [hfind] at h
          simp only at h
          have hsig := compareTraitAndImplSignature_ok_iff E cls assoc fnnode.fnDecl
            fn.fnDecl
          cases hc : compareTraitAndImplSignature E cls assoc fnnode.fnDecl fn.fnDecl with
          | error why =>
              rw [hc] at h hsig
              cases h
              refine ⟨[], fn, impls, rfl, nofun, ?_, Or.inr ⟨why, rfl⟩⟩
              rintro ⟨fnnode', hfind', hagrees⟩
              obtain rfl := Option.some.inj (hfind.symm.trans hfind')
              exact nomatch hsig.mpr hagrees
          | ok u =>
              rw [hc] at h hsig
              obtain ⟨checked, fn', rest, rfl, hchecked, hno, he⟩ := ih h
              exact ⟨fn :: checked, fn', rest, rfl,
                List.forall_mem_cons.mpr ⟨⟨fnnode, hfind, hsig.mp rfl⟩, hchecked⟩, hno, he⟩

/-- The functions that an accepted block gets from the trait. -/
theorem standIns_of_ok {defaults : List (Id × FnDef Id TypeId Symtable)}
    (h : checkTraitImplMatch E cls assoc (symCreateTraitDefsEntry fns) impls = .ok defaults) :
    StandIns fns impls defaults := by
  unfold checkTraitImplMatch at h
  cases hc : checkImplFns E cls assoc (symCreateTraitDefsEntry fns) impls .empty with
  | error e =>
      rw [hc] at h
      cases h
  | ok ids =>
      obtain ⟨-, rfl⟩ := (checkImplFns_ok_iff E cls assoc fns impls .empty ids).mp hc
      rw [hc] at h
      simp only at h
      split at h
      · cases h
      · cases h
        exact standIns_filterMap fns impls

/-- **The verdict on a block.**  It is accepted iff its functions conform and none without a body is
left out; then what it leaves out is returned.  If just some are left out, these are reported. -/
theorem checkTraitImplMatch_iff :
    (∀ defaults,
      checkTraitImplMatch E cls assoc (symCreateTraitDefsEntry fns) impls = .ok defaults ↔
      (∀ fn ∈ impls, Conforms E cls assoc fns fn) ∧ Missing fns impls [] ∧
        StandIns fns impls defaults) ∧
    ∀ names, checkTraitImplMatch E cls assoc (symCreateTraitDefsEntry fns) impls =
        .error (.missing names) ↔
      (∀ fn ∈ impls, Conforms E cls assoc fns fn) ∧ names ≠ [] ∧ Missing fns impls names := by
  have hloop := checkImplFns_ok_iff E cls assoc fns impls .empty
  have hmissing := missing_filter fns impls
  have hdefaults := standIns_filterMap fns impls
  unfold checkTraitImplMatch
  cases hc : checkImplFns E cls assoc (symCreateTraitDefsEntry fns) impls .empty with
  | error e =>
      obtain ⟨checked, fn, rest, rfl, -, hno, he⟩ := checkImplFns_error E hc
      have hall : ¬∀ fn' ∈ checked ++ fn :: rest, Conforms E cls assoc fns fn' :=
        fun h => hno (h fn (by simp))
      refine ⟨fun _ => iff_of_false nofun fun h => hall h.1,
        fun names => iff_of_false ?_ fun h => hall h.1⟩
      intro h
      obtain rfl := Except.error.inj h
      rcases he with he | ⟨why, he⟩ <;> cases he
  | ok ids =>
      obtain ⟨hconf, rfl⟩ := (hloop ids).mp hc
      simp only
      split
      · rename_i hne
        refine ⟨fun defaults => iff_of_false nofun fun h => hne (hmissing.unique h.2.1),
          fun names => ⟨?_, ?_⟩⟩
        · intro h
          cases h
          exact ⟨hconf, hne, hmissing⟩
        · intro h
          rw [hmissing.unique h.2.2]
      · rename_i hnil
        rw [not_not] at hnil
        rw [hnil] at hmissing
        refine ⟨fun defaults => ⟨?_, ?_⟩,
          fun names => iff_of_false nofun fun h => h.2.1 (h.2.2.unique hmissing)⟩
        · intro h
          cases h
          exact ⟨hconf, hmissing, hdefaults⟩
        · intro h
          rw [hdefaults.unique h.2.2]

end

end CaLang.Traits

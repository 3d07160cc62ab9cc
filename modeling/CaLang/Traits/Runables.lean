import CaLang.Lib.Ordered

/-! # The methods of a type

The entry of a type keeps its methods in maps: those of its own impl blocks, and those of each
trait.  `runable_find_entry` looks a method up.  **What it finds depends on the first registrations
only**: the type's own method if no trait is asked for, then the one of the trait that is asked for,
and else the one of the only trait that has such a method.  Two traits with such a method are an
error.
-/

namespace CaLang.Traits

/-- An identifier of the symbol name table, and the entry of a name in a symbol table. -/
structure MethodImplInfo (Id Entry : Type) where
  fnname : Id
  nameentry : Entry
  fnnameManged : Id
  deriving DecidableEq

section

variable (Id Entry Assoc : Type) [LinearOrder Id]

abbrev ImplInfoMap := Ordered Id (MethodImplInfo Id Entry)

abbrev ImplAssocInfoMap := Ordered Id Assoc

/-- `StructImplInfo`: the methods of a type, and the associations of the trait defaults that it
inherits. -/
structure StructImplInfo where
  methodInStruct : ImplInfoMap Id Entry
  methodInTraits : Ordered Id (ImplInfoMap Id Entry)
  methodInTraitsCopied : Ordered Id (ImplAssocInfoMap Id Assoc)

def StructImplInfo.empty : StructImplInfo Id Entry Assoc := ⟨.empty, .empty, .empty⟩

/-- "multiple applicable items in scope", with the traits and what each of them has. -/
abbrev Ambiguous (α : Type) := List (Id × α)

end

variable {Id Entry Assoc α : Type} [LinearOrder Id]

/-! ### Registration -/

/-- A value of a method in the map of its trait, which is made if it is not there yet. -/
def addInTrait (m : Ordered Id (Ordered Id α)) (trait fnname : Id) (a : α) :
    Ordered Id (Ordered Id α) :=
  m.alter trait fun fns => (fns.getD .empty).insert fnname a

/-- `runable_add_entry`, where `trait` is `none` in an impl block without a trait; `m` is `none` for
a type that has no methods yet. -/
def runableAddEntry (trait : Option Id) (m : Option (StructImplInfo Id Entry Assoc))
    (info : MethodImplInfo Id Entry) : Option (StructImplInfo Id Entry Assoc) :=
  let m := m.getD (.empty Id Entry Assoc)
  match trait with
  | none => some { m with methodInStruct := m.methodInStruct.insert info.fnname info }
  | some trait =>
      some { m with methodInTraits := addInTrait m.methodInTraits trait info.fnname info }

/-- `runable_add_entry_assoc` -/
def runableAddEntryAssoc (trait : Id) (m : Option (StructImplInfo Id Entry Assoc)) (fnname : Id)
    (assoc : Assoc) : Option (StructImplInfo Id Entry Assoc) :=
  let m := m.getD (.empty Id Entry Assoc)
  some { m with
    methodInTraitsCopied := addInTrait m.methodInTraitsCopied trait fnname assoc }

/-! ### Lookup -/

/-- The loop over the traits: the method of the trait that is asked for, or all that there are. -/
def findInTraits (fnname : Id) (trait : Option Id) :
    List (Id × Ordered Id α) → List (Id × α) → α ⊕ List (Id × α)
  | [], impls => .inr impls
  | (t, fns) :: rest, impls =>
      match fns.find fnname with
      | none => findInTraits fnname trait rest impls
      | some a =>
          if trait = some t then .inl a else findInTraits fnname trait rest (impls ++ [(t, a)])

/-- What is found among the traits. -/
def findUnique (fnname : Id) (trait : Option Id) (m : Ordered Id (Ordered Id α)) :
    Except (Ambiguous Id α) (Option α) :=
  match findInTraits fnname trait m.entries [] with
  | .inl a => .ok (some a)
  | .inr [] => .ok none
  | .inr [(_, a)] => .ok (some a)
  | .inr impls => .error impls

/-- `runable_find_entry`, where `trait` is `none` if no trait is asked for. -/
def runableFindEntry (m : Option (StructImplInfo Id Entry Assoc)) (fnname : Id)
    (trait : Option Id) :
    Except (Ambiguous Id (MethodImplInfo Id Entry)) (Option (MethodImplInfo Id Entry)) :=
  match m with
  | none => .ok none
  | some m =>
      match trait, m.methodInStruct.find fnname with
      | none, some info => .ok (some info)
      | trait, _ => findUnique fnname trait m.methodInTraits

/-! ### What the traits have -/

/-- The method of a trait in its map. -/
def inTrait (m : Ordered Id (Ordered Id α)) (trait fnname : Id) : Option α :=
  (m.find trait).bind (·.find fnname)

/-- What a trait has is not changed by another method or trait, and the first one stays. -/
theorem inTrait_addInTrait (m : Ordered Id (Ordered Id α)) (t f t' f' : Id) (a : α) :
    inTrait (addInTrait m t f a) t' f' =
      if t' = t ∧ f' = f then some ((inTrait m t f).getD a) else inTrait m t' f' := by
  unfold inTrait addInTrait
  by_cases ht : t' = t
  · subst ht
    rw [Ordered.find_alter_self, Option.bind_some]
    by_cases hf : f' = f
    · subst hf
      rw [Ordered.find_insert_self, if_pos ⟨rfl, rfl⟩]
      cases m.find t' <;> rfl
    · rw [Ordered.find_insert_ne hf, if_neg fun h => hf h.2]
      cases m.find t' <;> rfl
  · rw [Ordered.find_alter_ne ht, if_neg fun h => ht h.1]

/-- The traits that have the method, in order, with what they have. -/
def havingIt (fnname : Id) (ms : List (Id × Ordered Id α)) : List (Id × α) :=
  ms.filterMap fun e => (e.2.find fnname).map (e.1, ·)

theorem havingIt_keys {fnname : Id} {ms : List (Id × Ordered Id α)}
    (hs : (ms.map Prod.fst).Pairwise (· < ·)) :
    ((havingIt fnname ms).map Prod.fst).Pairwise (· < ·) := by
  have hsub : ((havingIt fnname ms).map Prod.fst).Sublist (ms.map Prod.fst) := by
    clear hs
    induction ms with
    | nil => exact List.Sublist.refl _
    | cons e ms ih =>
        rw [havingIt, List.filterMap_cons]
        cases e.2.find fnname with
        | none => exact ih.trans (List.sublist_cons_self _ _)
        | some a => exact ih.cons_cons e.1
  exact hs.sublist hsub

theorem mem_havingIt {m : Ordered Id (Ordered Id α)} {fnname t : Id} {a : α} :
    (t, a) ∈ havingIt fnname m.entries ↔ inTrait m t fnname = some a := by
  rw [havingIt, List.mem_filterMap, inTrait, Option.bind_eq_some_iff]
  constructor
  · rintro ⟨⟨t', fns⟩, hmem, h⟩
    obtain ⟨b, hb, heq⟩ := Option.map_eq_some_iff.mp h
    cases heq
    exact ⟨fns, Ordered.mem_entries_iff.mp hmem, hb⟩
  · rintro ⟨fns, hfns, ha⟩
    exact ⟨(t, fns), Ordered.mem_entries_iff.mpr hfns, by rw [ha]; rfl⟩

/-- The loop stops at the trait that is asked for, and collects the others. -/
theorem findInTraits_eq (fnname : Id) (trait : Option Id) (ms : List (Id × Ordered Id α))
    (impls : List (Id × α)) :
    findInTraits fnname trait ms impls =
      match (havingIt fnname ms).find? (fun e => trait = some e.1) with
      | some e => .inl e.2
      | none => .inr (impls ++ havingIt fnname ms) := by
  induction ms generalizing impls with
  | nil => simp [findInTraits, havingIt]
  | cons e ms ih =>
      obtain ⟨t, fns⟩ := e
      rw [findInTraits, havingIt, List.filterMap_cons]
      cases hf : fns.find fnname with
      | none => exact ih impls
      | some a =>
          simp only [Option.map_some, List.find?_cons]
          by_cases ht : trait = some t
          · simp [ht]
          · simp only [ht, if_false, decide_false]
            rw [ih (impls ++ [(t, a)])]
            simp [havingIt]

/-! ### The lookup by what is there -/

/-- **What a lookup gives** where `preferred` is the method that is asked for and `has` is what each
trait has: that one, or else the only one of a trait. -/
inductive Resolves (preferred : Option α) (has : Id → Option α) :
    Except (Ambiguous Id α) (Option α) → Prop
  | preferred {a : α} : preferred = some a → Resolves preferred has (.ok (some a))
  | unique {t : Id} {a : α} : preferred = none → has t = some a →
      (∀ t', (has t').isSome → t' = t) → Resolves preferred has (.ok (some a))
  | nothing : preferred = none → (∀ t, has t = none) → Resolves preferred has (.ok none)
  | ambiguous {impls : List (Id × α)} : preferred = none → 2 ≤ impls.length →
      (impls.map Prod.fst).Pairwise (· < ·) → (∀ t a, (t, a) ∈ impls ↔ has t = some a) →
        Resolves preferred has (.error impls)

/-- There is one result. -/
theorem Resolves.unique_result {preferred : Option α} {has : Id → Option α}
    {r r' : Except (Ambiguous Id α) (Option α)} (h : Resolves preferred has r)
    (h' : Resolves preferred has r') : r = r' := by
  -- two candidates are two traits
  have two : ∀ {impls : List (Id × α)}, 2 ≤ impls.length →
      (impls.map Prod.fst).Pairwise (· < ·) → (∀ t a, (t, a) ∈ impls ↔ has t = some a) →
      ∃ t t', t ≠ t' ∧ (has t).isSome ∧ (has t').isSome := by
    intro impls hlen hs hmem
    match impls, hlen with
    | (t, a) :: (t', a') :: rest, _ =>
        have hlt : t < t' := List.rel_of_pairwise_cons hs (by simp)
        exact ⟨t, t', hlt.ne, by rw [(hmem t a).mp (by simp)]; rfl,
          by rw [(hmem t' a').mp (by simp)]; rfl⟩
  cases h with
  | preferred hp => cases h' <;> simp_all
  | unique hp ha hone =>
      cases h' with
      | preferred hp' => rw [hp] at hp'; cases hp'
      | unique hp' ha' hone' =>
          obtain rfl := hone _ (by rw [ha']; rfl)
          rw [← ha, ha']
      | nothing hp' hno => rw [hno] at ha; cases ha
      | ambiguous hp' hlen hs hmem =>
          obtain ⟨t, t', hne, ht, ht'⟩ := two hlen hs hmem
          exact absurd ((hone t ht).trans (hone t' ht').symm) hne
  | nothing hp hno =>
      cases h' with
      | preferred hp' => rw [hp] at hp'; cases hp'
      | unique hp' ha' hone' => rw [hno] at ha'; cases ha'
      | nothing => rfl
      | ambiguous hp' hlen hs hmem =>
          obtain ⟨t, t', hne, ht, ht'⟩ := two hlen hs hmem
          rw [hno] at ht
          cases ht
  | ambiguous hp hlen hs hmem =>
      obtain ⟨t, t', hne, ht, ht'⟩ := two hlen hs hmem
      cases h' with
      | preferred hp' => rw [hp] at hp'; cases hp'
      | unique hp' ha' hone' =>
          exact absurd ((hone' t ht).trans (hone' t' ht').symm) hne
      | nothing hp' hno => rw [hno] at ht; cases ht
      | @ambiguous impls' hp' hlen' hs' hmem' =>
          exact congrArg Except.error
            (Ordered.entries_ext hs hs' fun t a => (hmem t a).trans (hmem' t a).symm)

/-- The loop and what follows it. -/
theorem findUnique_resolves (fnname : Id) (trait : Option Id) (m : Ordered Id (Ordered Id α)) :
    Resolves (trait.bind (inTrait m · fnname)) (inTrait m · fnname)
      (findUnique fnname trait m) := by
  rw [findUnique, findInTraits_eq]
  have hsorted : ((havingIt fnname m.entries).map Prod.fst).Pairwise (· < ·) :=
    havingIt_keys m.sorted
  cases hfind : (havingIt fnname m.entries).find? (fun e => trait = some e.1) with
  | some e =>
      obtain ⟨t, a⟩ := e
      have ht : trait = some t := by simpa using List.find?_some hfind
      have hmem := mem_havingIt.mp (List.mem_of_find?_eq_some hfind)
      exact .preferred (by rw [ht]; exact hmem)
  | none =>
      have hnone : trait.bind (inTrait m · fnname) = none := by
        cases trait with
        | none => rfl
        | some t =>
            rw [Option.bind_some]
            cases ha : inTrait m t fnname with
            | none => rfl
            | some a =>
                exact absurd (List.find?_eq_none.mp hfind (t, a) (mem_havingIt.mpr ha)) (by simp)
      simp only [List.nil_append]
      have hmem : ∀ t a, (t, a) ∈ havingIt fnname m.entries ↔ inTrait m t fnname = some a :=
        fun _ _ => mem_havingIt
      cases hh : havingIt fnname m.entries with
      | nil =>
          refine .nothing hnone ?_
          intro t
          cases ha : inTrait m t fnname with
          | none => rfl
          | some a => rw [← hmem, hh] at ha; cases ha
      | cons e rest =>
          obtain ⟨t, a⟩ := e
          cases rest with
          | nil =>
              refine .unique (t := t) hnone ((hmem t a).mp (by simp [hh])) ?_
              intro t' ht'
              obtain ⟨a', ha'⟩ := Option.isSome_iff_exists.mp ht'
              rw [← hmem, hh, List.mem_singleton] at ha'
              exact (Prod.mk.inj ha').1
          | cons e' rest =>
              rw [hh] at hsorted
              refine .ambiguous hnone (by simp) hsorted ?_
              intro t a
              rw [← hh]
              exact hmem t a

/-! ### Lookups after registrations -/

/-- What is registered for a type. -/
inductive Registration (Id Entry Assoc : Type)
  | method (trait : Option Id) (info : MethodImplInfo Id Entry)
  | assoc (trait fnname : Id) (assoc : Assoc)

def register (m : Option (StructImplInfo Id Entry Assoc)) :
    Registration Id Entry Assoc → Option (StructImplInfo Id Entry Assoc)
  | .method trait info => runableAddEntry trait m info
  | .assoc trait fnname assoc => runableAddEntryAssoc trait m fnname assoc

/-- The registrations of a type, from the first on. -/
def registerAll (log : List (Registration Id Entry Assoc)) :
    Option (StructImplInfo Id Entry Assoc) :=
  log.foldl register none

/-- The first method that is registered under a name, for a trait or without one. -/
def firstMethod (log : List (Registration Id Entry Assoc)) (trait : Option Id) (fnname : Id) :
    Option (MethodImplInfo Id Entry) :=
  log.findSome? fun
    | .method t info => if t = trait ∧ info.fnname = fnname then some info else none
    | .assoc _ _ _ => none

def firstAssoc (log : List (Registration Id Entry Assoc)) (trait fnname : Id) : Option Assoc :=
  log.findSome? fun
    | .method _ _ => none
    | .assoc t f assoc => if t = trait ∧ f = fnname then some assoc else none

theorem firstMethod_append_method (log : List (Registration Id Entry Assoc)) (t t' : Option Id)
    (info : MethodImplInfo Id Entry) (f : Id) :
    firstMethod (log ++ [.method t info]) t' f =
      if t' = t ∧ f = info.fnname then some ((firstMethod log t' f).getD info)
      else firstMethod log t' f := by
  rw [firstMethod, List.findSome?_append]
  by_cases h : t' = t ∧ f = info.fnname
  · obtain ⟨rfl, rfl⟩ := h
    rw [if_pos ⟨rfl, rfl⟩, List.findSome?_cons_of_isSome (by simp)]
    cases hm : firstMethod log t' info.fnname with
    | none =>
        rw [firstMethod] at hm
        simp [hm]
    | some a =>
        rw [firstMethod] at hm
        simp [hm]
  · have hno : ¬(t = t' ∧ info.fnname = f) := fun hc => h ⟨hc.1.symm, hc.2.symm⟩
    rw [if_neg h, List.findSome?_cons_of_isNone (by simp [hno]), List.findSome?_nil,
      Option.or_none]
    rfl

theorem firstMethod_append_assoc (log : List (Registration Id Entry Assoc)) (t : Id)
    (f : Id) (assoc : Assoc) (t' : Option Id) (f' : Id) :
    firstMethod (log ++ [.assoc t f assoc]) t' f' = firstMethod log t' f' := by
  rw [firstMethod, List.findSome?_append]
  exact Option.or_none

theorem firstAssoc_append_method (log : List (Registration Id Entry Assoc)) (t : Option Id)
    (info : MethodImplInfo Id Entry) (t' f' : Id) :
    firstAssoc (log ++ [.method t info]) t' f' = firstAssoc log t' f' := by
  rw [firstAssoc, List.findSome?_append]
  exact Option.or_none

theorem firstAssoc_append_assoc (log : List (Registration Id Entry Assoc)) (t f : Id)
    (assoc : Assoc) (t' f' : Id) :
    firstAssoc (log ++ [.assoc t f assoc]) t' f' =
      if t' = t ∧ f' = f then some ((firstAssoc log t' f').getD assoc)
      else firstAssoc log t' f' := by
  rw [firstAssoc, List.findSome?_append]
  by_cases h : t' = t ∧ f' = f
  · obtain ⟨rfl, rfl⟩ := h
    rw [if_pos ⟨rfl, rfl⟩, List.findSome?_cons_of_isSome (by simp)]
    cases hm : firstAssoc log t' f' with
    | none =>
        rw [firstAssoc] at hm
        simp [hm]
    | some a =>
        rw [firstAssoc] at hm
        simp [hm]
  · have hno : ¬(t = t' ∧ f = f') := fun hc => h ⟨hc.1.symm, hc.2.symm⟩
    rw [if_neg h, List.findSome?_cons_of_isNone (by simp [hno]), List.findSome?_nil,
      Option.or_none]
    rfl

/-- The maps of a type hold the first registrations. -/
structure Holds (m : Option (StructImplInfo Id Entry Assoc))
    (log : List (Registration Id Entry Assoc)) : Prop where
  own : ∀ f, (m.getD (.empty Id Entry Assoc)).methodInStruct.find f = firstMethod log none f
  trait : ∀ t f, inTrait (m.getD (.empty Id Entry Assoc)).methodInTraits t f =
    firstMethod log (some t) f
  copied : ∀ t f, inTrait (m.getD (.empty Id Entry Assoc)).methodInTraitsCopied t f =
    firstAssoc log t f

theorem holds_nil : Holds (none : Option (StructImplInfo Id Entry Assoc)) [] :=
  ⟨fun _ => rfl, fun _ _ => rfl, fun _ _ => rfl⟩

/-- A later registration does not take the place of an earlier one. -/
theorem Holds.register {m : Option (StructImplInfo Id Entry Assoc)}
    {log : List (Registration Id Entry Assoc)} (h : Holds m log)
    (r : Registration Id Entry Assoc) : Holds (register m r) (log ++ [r]) := by
  obtain ⟨hown, htrait, hcopied⟩ := h
  cases r with
  | method t info =>
      cases t with
      | none =>
          refine ⟨?_, ?_, ?_⟩
          · intro f
            rw [firstMethod_append_method, ← hown]
            by_cases hf : f = info.fnname
            · subst hf
              rw [if_pos ⟨rfl, rfl⟩]
              exact Ordered.find_insert_self
            · rw [if_neg fun h => hf h.2]
              exact Ordered.find_insert_ne hf
          · intro t f
            rw [firstMethod_append_method, if_neg fun h => nomatch h.1]
            exact htrait t f
          · intro t f
            rw [firstAssoc_append_method]
            exact hcopied t f
      | some t' =>
          refine ⟨?_, ?_, ?_⟩
          · intro f
            rw [firstMethod_append_method, if_neg fun h => nomatch h.1]
            exact hown f
          · intro t f
            rw [firstMethod_append_method, ← htrait]
            refine (inTrait_addInTrait _ _ _ _ _ _).trans ?_
            simp only [Option.some.injEq]
            split
            · rename_i h
              rw [h.1, h.2]
            · rfl
          · intro t f
            rw [firstAssoc_append_method]
            exact hcopied t f
  | assoc t' f' assoc =>
      refine ⟨?_, ?_, ?_⟩
      · intro f
        rw [firstMethod_append_assoc]
        exact hown f
      · intro t f
        rw [firstMethod_append_assoc]
        exact htrait t f
      · intro t f
        rw [firstAssoc_append_assoc, ← hcopied]
        refine (inTrait_addInTrait _ _ _ _ _ _).trans ?_
        split
        · rename_i h
          rw [h.1, h.2]
        · rfl

/-- A method under a name that is there is not entered again. -/
theorem Holds.again {m : Option (StructImplInfo Id Entry Assoc)}
    {log : List (Registration Id Entry Assoc)} {t : Option Id} {info : MethodImplInfo Id Entry}
    (h : Holds m log) (hsome : (firstMethod log t info.fnname).isSome) :
    Holds m (log ++ [.method t info]) := by
  obtain ⟨first, hfirst⟩ := Option.isSome_iff_exists.mp hsome
  have hsame : ∀ t' f, firstMethod (log ++ [.method t info]) t' f = firstMethod log t' f := by
    intro t' f
    rw [firstMethod_append_method]
    split
    · rename_i heq
      rw [heq.1, heq.2, hfirst]
      rfl
    · rfl
  exact ⟨fun f => (h.own f).trans (hsame none f).symm,
    fun t' f => (h.trait t' f).trans (hsame (some t') f).symm,
    fun t' f => (h.copied t' f).trans (firstAssoc_append_method log t info t' f).symm⟩

theorem holds_registerAll (log : List (Registration Id Entry Assoc)) :
    Holds (registerAll log) log := by
  have run : ∀ (rest : List (Registration Id Entry Assoc))
      {m : Option (StructImplInfo Id Entry Assoc)} {log : List (Registration Id Entry Assoc)},
      Holds m log → Holds (rest.foldl Traits.register m) (log ++ rest) := by
    intro rest
    induction rest with
    | nil => exact fun h => by rwa [List.append_nil]
    | cons r rest ih =>
        intro m log h
        rw [← List.singleton_append, ← List.append_assoc]
        exact ih (h.register r)
  exact run log holds_nil

/-- A lookup where the maps hold the first registrations. -/
theorem Holds.resolves {m : Option (StructImplInfo Id Entry Assoc)}
    {log : List (Registration Id Entry Assoc)} (h : Holds m log) (fnname : Id)
    (trait : Option Id) :
    Resolves (firstMethod log trait fnname) (fun t => firstMethod log (some t) fnname)
      (runableFindEntry m fnname trait) := by
  have hhas : (inTrait (m.getD (.empty Id Entry Assoc)).methodInTraits · fnname) =
      fun t => firstMethod log (some t) fnname := funext fun t => h.trait t fnname
  cases m with
  | none =>
      have hnone : ∀ t, firstMethod log t fnname = none := by
        intro t
        cases t with
        | none => exact (h.own fnname).symm
        | some t => exact (h.trait t fnname).symm
      exact .nothing (hnone trait) fun t => hnone (some t)
  | some m =>
      have hunique := findUnique_resolves fnname trait m.methodInTraits
      rw [show (fun t => inTrait m.methodInTraits t fnname) = _ from hhas] at hunique
      cases trait with
      | some t => exact hunique
      | none =>
          rw [← h.own fnname, Option.getD_some]
          cases hf : m.methodInStruct.find fnname with
          | none =>
              simp only [runableFindEntry, hf]
              exact hunique
          | some info =>
              simp only [runableFindEntry, hf]
              exact .preferred rfl

/-- **A lookup after any registrations**: the first method that was registered for the type itself,
or for the trait that is asked for, or else the first one of the only trait that has one. -/
theorem runableFindEntry_eq_iff (log : List (Registration Id Entry Assoc)) (fnname : Id)
    (trait : Option Id)
    (r : Except (Ambiguous Id (MethodImplInfo Id Entry)) (Option (MethodImplInfo Id Entry))) :
    runableFindEntry (registerAll log) fnname trait = r ↔
      Resolves (firstMethod log trait fnname) (fun t => firstMethod log (some t) fnname) r := by
  have h := (holds_registerAll log).resolves fnname trait
  exact ⟨fun heq => heq ▸ h, fun h' => h.unique_result h'⟩

end CaLang.Traits

import CaLang.Types.Formalize
import CaLang.Types.LayoutPass

/-! # What signatures the walk writes

Down to the outermost struct a datatype gets its own signature; below, the printed text of
`CADataType.topDown`, where the outermost struct stands with its whole signature and every other
enclosing struct with its bare name. **Whatever the order of the walk, these are the signatures it
leaves** (`signatures_eq`).

The invariant (`SignaturesOk`): what is written is right, and behind the outermost struct a place
has a signature only when all below has.
-/

namespace CaLang.Types

variable (anon : Name)

/-- What is printed for a back reference. -/
def backText (id : StructId) (env : Env) : List Char :=
  match findFrame id env with
  | some (f, []) => (CADataType.struct f.head f.fields).signature
  | _ => id.name

mutual
/-- What `typeid_get_top_down` prints of a datatype behind the outermost struct. -/
def CADataType.topDown : CADataType → Addr → Env → List Char
  | .prim p, _, _ => p.text
  | .pointer t, a, env => '*' :: t.topDown (0 :: a) env
  | .array e n, a, env => '[' :: e.topDown (0 :: a) env ++ ';' :: printInt n ++ [']']
  | .struct h fs, a, env => printedStruct anon h (fs.topDown h a (⟨a, h, fs⟩ :: env) 0)
  | .recur id, _, env => backText id env

def CAStructFields.topDown (h : StructHead StructId) :
    CAStructFields → Addr → Env → Nat → List Char
  | .nil, _, _, _ => []
  | .cons n t rest, a, env, i =>
      printedMember h n (t.topDown (i :: a) env) ++ rest.topDown h a env (i + 1)
end

/-- The signature that a place ends up with. -/
def CADataType.placeSignature (t : CADataType) (a : Addr) (env : Env) : List Char :=
  match env with
  | [] => t.signature
  | _ :: _ => t.topDown anon a env

/-- Whether a datatype is an object of its own place. -/
def CADataType.isOwn : CADataType → Bool
  | .prim _ | .recur _ => false
  | _ => true

/-- All objects at and below a place have a signature. -/
def SetBelow (D : CADataType) (σ : Signatures) (a : Addr) : Prop :=
  ∀ b t env, a <:+ b → place D b = some (t, env) → t.isOwn = true → σ b ≠ none

structure SignaturesOk (D : CADataType) (σ : Signatures) : Prop where
  right : ∀ {a t env s}, place D a = some (t, env) → σ a = some s → s = t.placeSignature anon a env
  closed : ∀ {a t env}, place D a = some (t, env) → env ≠ [] → σ a ≠ none → SetBelow D σ a
  fit : ∀ {a t env s}, place D a = some (t, env) → σ a = some s → fitsTypeBuf s = true

/-- A walk only adds signatures. -/
def Extends (σ σ' : Signatures) : Prop := ∀ a s, σ a = some s → σ' a = some s

section Basics

variable {anon} {D t : CADataType} {σ σ' τ : Signatures} {a b : Addr} {env : Env} {s : List Char}

theorem Extends.rfl : Extends σ σ := fun _ _ h => h

theorem Extends.trans (h : Extends σ τ) (h' : Extends τ σ') : Extends σ σ' :=
  fun a s ha => h' a s (h a s ha)

theorem Extends.ne_none (h : Extends σ σ') (ha : σ a ≠ none) : σ' a ≠ none := by
  obtain ⟨s, hs⟩ := Option.ne_none_iff_exists'.mp ha
  simp [h a s hs]

theorem Extends.setBelow (h : Extends σ σ') (hb : SetBelow D σ a) : SetBelow D σ' a :=
  fun b t env hs hp ht => h.ne_none (hb b t env hs hp ht)

theorem extends_setSignature (ha : σ a = none ∨ σ a = some s) : Extends σ (setSignature σ a s) := by
  intro b s' hb
  unfold setSignature
  by_cases heq : b = a
  · subst heq
    rcases ha with ha | ha
    · rw [ha] at hb
      cases hb
    · rw [ha] at hb
      cases hb
      exact Function.update_self ..
  · rw [Function.update_of_ne heq]
    exact hb

theorem setBelow_of_not_own (hp : place D a = some (t, env)) (hl : ∀ i, place D (i :: a) = none)
    (ht : t.isOwn = false) : SetBelow D σ a := by
  intro b t' env' hs hp' ht'
  rcases suffix_iff_exists_cons.mp hs with rfl | ⟨i, hi⟩
  · cases hp.symm.trans hp'
    rw [ht] at ht'
    cases ht'
  · obtain ⟨y, hy⟩ := place_of_suffix hp' hi
    rw [hl i] at hy
    cases hy

/-- The objects below one are those below the next step. -/
theorem SetBelow.of_cons (ha : σ a ≠ none)
    (h : ∀ i y, place D (i :: a) = some y → SetBelow D σ (i :: a)) : SetBelow D σ a := by
  intro b t env hs hp ht
  rcases suffix_iff_exists_cons.mp hs with rfl | ⟨i, hi⟩
  · exact ha
  · obtain ⟨y, hy⟩ := place_of_suffix hp hi
    exact h i y hy b t env hi hp ht

theorem SetBelow.cons {i : Nat} (h : SetBelow D σ a) : SetBelow D σ (i :: a) :=
  fun b t env hs => h b t env ((List.suffix_cons i a).trans hs)

theorem SignaturesOk.set (h : SignaturesOk anon D σ) (hp : place D a = some (t, env))
    (hs : s = t.placeSignature anon a env) (hfit : fitsTypeBuf s = true)
    (hnone : σ a = none ∨ σ a = some s)
    (hbelow : env ≠ [] → SetBelow D (setSignature σ a s) a) :
    SignaturesOk anon D (setSignature σ a s) where
  right := by
    intro b t' env' s' hp' hb
    unfold setSignature at hb
    by_cases heq : b = a
    · subst heq
      cases hp.symm.trans hp'
      rw [Function.update_self] at hb
      cases hb
      exact hs
    · rw [Function.update_of_ne heq] at hb
      exact h.right hp' hb
  closed := by
    intro b t' env' hp' he hb
    by_cases heq : b = a
    · subst heq
      cases hp.symm.trans hp'
      exact hbelow he
    · unfold setSignature at hb
      rw [Function.update_of_ne heq] at hb
      exact (extends_setSignature hnone).setBelow (h.closed hp' he hb)
  fit := by
    intro b t' env' s' hp' hb
    unfold setSignature at hb
    by_cases heq : b = a
    · subst heq
      rw [Function.update_self] at hb
      cases hb
      exact hfit
    · rw [Function.update_of_ne heq] at hb
      exact h.fit hp' hb

end Basics

/-! ### Printing -/

/-- `typeid_get_top_down` may print a place: the outermost struct has its signature, and the other
structs around the place are being printed. -/
structure Printing (D : CADataType) (rcheck : List Addr) (a : Addr) (env : Env) (σ : Signatures) :
    Prop where
  ok : SignaturesOk anon D σ
  outer : ∀ {inner f}, env = inner ++ [f] → σ f.addr ≠ none
  inner : ∀ {inner f env'}, env = inner ++ f :: env' → env' ≠ [] →
    f.addr ∈ rcheck ∧ σ f.addr = none
  around : ∀ {b}, b ∈ rcheck → b <:+ a ∧ b ≠ a

/-- What printing a place leaves. -/
structure Printed (D : CADataType) (a : Addr) (σ σ' : Signatures) : Prop where
  ok : SignaturesOk anon D σ'
  extend : Extends σ σ'
  below : SetBelow D σ' a
  frame : ∀ b, ¬ a <:+ b → σ' b = σ b

/-- What the printer does at a place behind the outermost struct. -/
def Prints (D : CADataType) (pass : TypeidPass) : Prop :=
  ∀ ⦃t a env rcheck σ s σ'⦄, place D a = some (t, env) → env ≠ [] →
    Printing anon D rcheck a env σ → pass t a env rcheck σ = .ok (s, σ') →
      s = t.topDown anon a env ∧ Printed anon D a σ σ'

section Print

variable {anon} {D t : CADataType} {rcheck : List Addr} {a b : Addr} {env : Env}
  {σ σ' τ : Signatures} {s : List Char} {h : StructHead StructId} {fs : CAStructFields} {fuel : Nat}

theorem Printing.mono (hσ : Printing anon D rcheck a env σ) (ht : SignaturesOk anon D σ')
    (he : Extends σ σ')
    (hsame : ∀ {inner f env'}, env = inner ++ f :: env' → env' ≠ [] → σ' f.addr = σ f.addr) :
    Printing anon D rcheck a env σ' where
  ok := ht
  outer heq := he.ne_none (hσ.outer heq)
  inner heq hne := ⟨(hσ.inner heq hne).1, (hsame heq hne).trans (hσ.inner heq hne).2⟩
  around := hσ.around

theorem Printing.next (hσ : Printing anon D rcheck a env σ) (i : Nat) :
    Printing anon D rcheck (i :: a) env σ where
  ok := hσ.ok
  outer := hσ.outer
  inner := hσ.inner
  around := by
    intro b hb
    obtain ⟨hs, -⟩ := hσ.around hb
    refine ⟨hs.trans (List.suffix_cons i a), ?_⟩
    intro heq
    have hlen := hs.length_le
    rw [heq, List.length_cons] at hlen
    omega

/-- The struct itself is being printed while its fields are. -/
theorem Printing.field (hσ : Printing anon D rcheck a env σ) (he : env ≠ []) (ha : σ a = none)
    (i : Nat) : Printing anon D (a :: rcheck) (i :: a) (⟨a, h, fs⟩ :: env) σ where
  ok := hσ.ok
  outer := by
    intro inner f heq
    cases inner with
    | nil => exact absurd (List.cons.inj heq).2 he
    | cons g inner => exact hσ.outer (List.cons.inj heq).2
  inner := by
    intro inner f env' heq hne
    cases inner with
    | nil =>
        obtain ⟨rfl, rfl⟩ := List.cons.inj heq
        exact ⟨List.mem_cons_self, ha⟩
    | cons g inner =>
        obtain ⟨hm, hnone⟩ := hσ.inner (List.cons.inj heq).2 hne
        exact ⟨List.mem_cons_of_mem _ hm, hnone⟩
  around := by
    intro b hb
    rcases List.mem_cons.mp hb with rfl | hb
    · exact ⟨List.suffix_cons i b, by simp⟩
    · exact (hσ.next i).around hb

theorem placeSignature_of_ne (he : env ≠ []) :
    t.placeSignature anon a env = t.topDown anon a env := by
  cases env with
  | nil => exact absurd rfl he
  | cons f env => rfl

theorem StructHead.printedName_of_name? {id : StructId} (hn : h.name? = some id) :
    h.printedName anon = id.name := by
  cases h <;> cases hn <;> rfl

theorem frame_ne_of_place (hp : place D a = some (t, env)) {inner env' : Env} {f : Frame}
    (heq : env = inner ++ f :: env') : ¬ a <:+ f.addr := by
  subst heq
  obtain ⟨-, hs, hne⟩ := place_frame hp
  intro hs'
  exact hne (hs.eq_of_length_le hs'.length_le)

/-- A place that has a signature already. -/
theorem printed_of_some (hp : place D a = some (t, env)) (he : env ≠ [])
    (hσ : Printing anon D rcheck a env σ) (hs : signatureAt σ t a env = some s) :
    s = t.topDown anon a env ∧ Printed anon D a σ σ := by
  have hown : ∀ t', place D a = some (t', env) → σ a = some s →
      s = t'.topDown anon a env ∧ Printed anon D a σ σ := by
    intro t' hp' ha
    refine ⟨(hσ.ok.right hp' ha).trans (placeSignature_of_ne he), hσ.ok, .rfl, ?_, fun _ _ => rfl⟩
    exact hσ.ok.closed hp' he (by simp [ha])
  cases t with
  | prim p =>
      cases hs
      refine ⟨rfl, hσ.ok, .rfl, setBelow_of_not_own hp ?_ rfl, fun _ _ => rfl⟩
      intro i
      rw [place, hp]
  | pointer t => exact hown _ hp hs
  | array e n => exact hown _ hp hs
  | struct hd fs => exact hown _ hp hs
  | recur id =>
      have hbelow : SetBelow D σ a := setBelow_of_not_own hp (fun i => by rw [place, hp]) rfl
      replace hs : σ (objAddr (.recur id) a env) = some s := hs
      rw [objAddr] at hs
      rw [CADataType.topDown, backText]
      cases hf : findFrame id env with
      | none =>
          simp only [hf] at hs
          rw [(hown _ hp hs).1, CADataType.topDown, backText, hf]
          exact ⟨rfl, hσ.ok, .rfl, hbelow, fun _ _ => rfl⟩
      | some x =>
          obtain ⟨f, env'⟩ := x
          simp only [hf] at hs
          obtain ⟨-, inner, rfl⟩ := findFrame_split hf
          obtain ⟨hpf, -⟩ := place_frame hp
          cases env' with
          | nil => exact ⟨hσ.ok.right hpf hs, hσ.ok, .rfl, hbelow, fun _ _ => rfl⟩
          | cons g env' =>
              rw [(hσ.inner rfl (List.cons_ne_nil _ _)).2] at hs
              cases hs

/-- One more signature, behind the outermost struct. -/
theorem Printed.set (hp : place D a = some (t, env)) (he : env ≠ [])
    (hs : s = t.topDown anon a env) (hfit : fitsTypeBuf s = true) (hτ : τ a = none)
    (ok : SignaturesOk anon D τ) (extend : Extends σ τ)
    (frame : ∀ b, ¬ a <:+ b → τ b = σ b)
    (hbelow : ∀ j y, place D (j :: a) = some y → SetBelow D τ (j :: a)) :
    Printed anon D a σ (setSignature τ a s) := by
  have hext : Extends τ (setSignature τ a s) := extends_setSignature (.inl hτ)
  have hset : SetBelow D (setSignature τ a s) a := by
    refine .of_cons (by simp [setSignature]) fun j y hy => hext.setBelow (hbelow j y hy)
  refine ⟨ok.set hp (hs.trans (placeSignature_of_ne he).symm) hfit (.inl hτ) fun _ => hset,
    extend.trans hext, hset, ?_⟩
  intro b hb
  have hne : b ≠ a := fun heq => hb (heq ▸ List.suffix_rfl)
  exact (Function.update_of_ne hne _ _).trans (frame b hb)

/-- The struct is still being printed when a field of it has been. -/
theorem Printed.afterField {i : Nat} (hp : place D a = some (.struct h fs, env))
    (hσ : Printing anon D rcheck a env σ) (ha : σ a = none) (hτ : Printed anon D (i :: a) σ τ) :
    Printing anon D rcheck a env τ ∧ τ a = none := by
  have hup : ∀ {inner f env'}, env = inner ++ f :: env' → τ f.addr = σ f.addr := by
    intro inner f env' heq
    exact hτ.frame _ fun hs => frame_ne_of_place hp heq ((List.suffix_cons i a).trans hs)
  refine ⟨hσ.mono hτ.ok hτ.extend fun heq _ => hup heq, ?_⟩
  rw [hτ.frame a fun hs => ?_, ha]
  have hlen := hs.length_le
  rw [List.length_cons] at hlen
  omega

/-- The loop over the fields of a struct that is being printed. -/
theorem typeidFields_printed {pass : TypeidPass} (hpass : Prints anon D pass)
    (hp : place D a = some (.struct h fs, env)) (he : env ≠ []) (rest : CAStructFields) {i : Nat}
    {σ σ' : Signatures} {s : List Char} (hrest : fs.drop i = rest)
    (hσ : Printing anon D rcheck a env σ) (ha : σ a = none)
    (hrun : typeidFields pass h a (⟨a, h, fs⟩ :: env) (a :: rcheck) rest i σ = .ok (s, σ')) :
    s = rest.topDown anon h a (⟨a, h, fs⟩ :: env) i ∧ SignaturesOk anon D σ' ∧ Extends σ σ' ∧
      (∀ j y, i ≤ j → place D (j :: a) = some y → SetBelow D σ' (j :: a)) ∧
        ∀ b, (∀ j, ¬ j :: a <:+ b) → σ' b = σ b := by
  cases rest with
  | nil =>
      cases hrun
      refine ⟨rfl, hσ.ok, .rfl, ?_, fun _ _ => rfl⟩
      intro j y hj hy
      rw [place, hp] at hy
      dsimp only at hy
      rw [CAStructFields.get?_of_drop_nil hrest hj] at hy
      cases hy
  | cons n t rest =>
      obtain ⟨hi, hdrop⟩ := CAStructFields.get?_of_drop hrest
      have hpi := place_field hp hi
      obtain ⟨⟨s₁, τ⟩, hτ, hrun⟩ := except_bind_eq_ok hrun
      obtain ⟨⟨s₂, σ₂⟩, hσ₂, hrun⟩ := except_bind_eq_ok hrun
      cases hrun
      obtain ⟨hs₁, hprinted⟩ := hpass hpi (List.cons_ne_nil _ _) (hσ.field he ha i) hτ
      obtain ⟨hστ, haτ⟩ := hprinted.afterField hp hσ ha
      obtain ⟨hs₂, hok, hext, hbelow, hframe⟩ :=
        typeidFields_printed hpass hp he rest hdrop hστ haτ hσ₂
      refine ⟨?_, hok, hprinted.extend.trans hext, ?_, ?_⟩
      · rw [CAStructFields.topDown, ← hs₁, ← hs₂]
      · intro j y hj hy
        rcases hj.eq_or_lt with rfl | hj
        · exact hext.setBelow hprinted.below
        · exact hbelow j y hj hy
      · intro b hb
        rw [hframe b hb, hprinted.frame b (hb i)]

theorem prints_struct (ih : Prints anon D (typeidGetTopDown anon fuel))
    (hp : place D a = some (.struct h fs, env)) (he : env ≠ [])
    (hσ : Printing anon D rcheck a env σ) (ha : σ a = none) {members : List Char}
    (hrun : typeidFields (typeidGetTopDown anon fuel) h a (⟨a, h, fs⟩ :: env) (a :: rcheck) fs 0 σ =
      .ok (members, τ)) (hfit : fitsTypeBuf (printedStruct anon h members) = true) :
    printedStruct anon h members = (CADataType.struct h fs).topDown anon a env ∧
      Printed anon D a σ (setSignature τ a (printedStruct anon h members)) := by
  obtain ⟨hs, hok, hext, hbelow, hframe⟩ := typeidFields_printed ih hp he fs
    (by simp [CAStructFields.drop]) hσ ha hrun
  have htext : printedStruct anon h members = (CADataType.struct h fs).topDown anon a env := by
    rw [CADataType.topDown, hs]
  have hτ : τ a = none := by
    rw [hframe a fun j hs => ?_, ha]
    have hlen := hs.length_le
    rw [List.length_cons] at hlen
    omega
  refine ⟨htext, .set hp he htext hfit hτ hok hext (fun b hb => hframe b fun j hs => hb ?_)
    fun j y hy => hbelow j y (Nat.zero_le j) hy⟩
  exact (List.suffix_cons j a).trans hs

/-- A pointer or an array, whose signature is put around that of the target or element. -/
theorem prints_around {t' : CADataType} (hp : place D a = some (t, env)) (he : env ≠ [])
    (hσ : Printing anon D rcheck a env σ) (ha : σ a = none)
    (hp' : place D (0 :: a) = some (t', env))
    (hone : ∀ j y, place D (j :: a) = some y → j = 0) {s' : List Char}
    (hfit : fitsTypeBuf s' = true)
    (hs : s = t'.topDown anon (0 :: a) env → s' = t.topDown anon a env)
    (ih : Prints anon D (typeidGetTopDown anon fuel))
    (hrun : typeidGetTopDown anon fuel t' (0 :: a) env rcheck σ = .ok (s, τ)) :
    s' = t.topDown anon a env ∧ Printed anon D a σ (setSignature τ a s') := by
  obtain ⟨htext, hprinted⟩ := ih hp' he (hσ.next 0) hrun
  have hτ : τ a = none := by
    rw [hprinted.frame a fun hs => ?_, ha]
    have hlen := hs.length_le
    rw [List.length_cons] at hlen
    omega
  refine ⟨hs htext, .set hp he (hs htext) hfit hτ hprinted.ok hprinted.extend
    (fun b hb => hprinted.frame b fun hs => hb ((List.suffix_cons 0 a).trans hs)) ?_⟩
  intro j y hy
  exact hone j y hy ▸ hprinted.below

/-- **The printer prints `topDown`**, by induction on the fuel. -/
theorem prints_typeidGetTopDown (fuel : Nat) : Prints anon D (typeidGetTopDown anon fuel) := by
  induction fuel using Nat.strong_induction_on with
  | h fuel ih =>
      intro t a env rcheck σ s σ' hp he hσ hrun
      cases fuel with
      | zero => cases hrun
      | succ fuel =>
          have ih' := ih fuel (Nat.lt_succ_self fuel)
          rw [typeidGetTopDown.eq_def] at hrun
          dsimp only at hrun
          split at hrun
          · rename_i s' hs
            cases hrun
            exact printed_of_some hp he hσ hs
          · rename_i hnone
            cases t with
            | prim p => cases hnone
            | pointer t =>
                obtain ⟨⟨s₁, τ⟩, hτ, hrun⟩ := except_bind_eq_ok hrun
                obtain ⟨s₂, hs₂, hrun⟩ := except_bind_eq_ok hrun
                obtain ⟨hfit, rfl⟩ := symFormTypeIdByStr_eq_ok hs₂
                cases hrun
                refine prints_around hp he hσ hnone (place_pointer hp) ?_ hfit
                  (fun hs => by rw [CADataType.topDown, hs]) ih' hτ
                intro j y hy
                by_contra hj
                simp [place, hp, hj] at hy
            | array e n =>
                obtain ⟨⟨s₁, τ⟩, hτ, hrun⟩ := except_bind_eq_ok hrun
                obtain ⟨s₂, hs₂, hrun⟩ := except_bind_eq_ok hrun
                obtain ⟨hfit, rfl⟩ := symFormTypeIdByStr_eq_ok hs₂
                cases hrun
                refine prints_around hp he hσ hnone (place_array hp) ?_ hfit
                  (fun hs => by rw [CADataType.topDown, hs]) ih' hτ
                intro j y hy
                by_contra hj
                simp [place, hp, hj] at hy
            | struct h fs =>
                have hm : a ∉ rcheck := fun hm => (hσ.around hm).2 rfl
                dsimp only at hrun
                rw [if_neg hm] at hrun
                obtain ⟨⟨members, τ⟩, hτ, hrun⟩ := except_bind_eq_ok hrun
                obtain ⟨s₂, hs₂, hrun⟩ := except_bind_eq_ok hrun
                obtain ⟨hfit, rfl⟩ := symFormTypeIdByStr_eq_ok hs₂
                cases hrun
                exact prints_struct ih' hp he hσ hnone hτ hfit
            | recur id =>
                dsimp only at hrun
                split at hrun
                · rename_i f env' hf
                  replace hnone : σ f.addr = none := by simpa [signatureAt, objAddr, hf] using hnone
                  obtain ⟨hn, inner, rfl⟩ := findFrame_split hf
                  cases env' with
                  | nil => exact absurd hnone (hσ.outer rfl)
                  | cons g env' =>
                      obtain ⟨hm, -⟩ := hσ.inner rfl (List.cons_ne_nil _ _)
                      cases fuel with
                      | zero => cases hrun
                      | succ fuel =>
                          rw [typeidGetTopDown.eq_def] at hrun
                          simp only [signatureAt, objAddr, hnone, if_pos hm] at hrun
                          cases hrun
                          refine ⟨?_, hσ.ok, .rfl, ?_, fun _ _ => rfl⟩
                          · rw [CADataType.topDown, backText, hf]
                            exact StructHead.printedName_of_name? hn
                          · exact setBelow_of_not_own hp (fun i => by rw [place, hp]) rfl
                · cases hrun

end Print

/-! ### The walk -/

/-- The walk may enter a place: the structs around it have their signatures, and what is below has,
unless the place is in front of the outermost struct or that struct itself. -/
structure Expanding (D : CADataType) (rcheck : List Addr) (a : Addr) (t : CADataType) (env : Env)
    (σ : Signatures) : Prop where
  ok : SignaturesOk anon D σ
  here : t.isOwn = true → σ a ≠ none
  below : env ≠ [] → SetBelow D σ a
  frames : ∀ {inner f env'}, env = inner ++ f :: env' →
    σ f.addr ≠ none ∧ (env' ≠ [] → SetBelow D σ f.addr)
  rcheck : ∀ {b t env}, b ∈ rcheck → place D b = some (t, env) → env ≠ [] → SetBelow D σ b

/-- What the walk leaves. -/
structure Expanded (D : CADataType) (σ σ' : Signatures) : Prop where
  ok : SignaturesOk anon D σ'
  extend : Extends σ σ'

/-- What the walk does at a place. -/
def Expands (D : CADataType) (pass : ExpandPass) : Prop :=
  ∀ ⦃t a env rcheck σ σ'⦄, place D a = some (t, env) → Expanding anon D rcheck a t env σ →
    pass t a env rcheck σ = .ok σ' →
      Expanded anon D σ σ' ∧ (env = [] → SetBelow D σ' a)

section Walk

variable {anon} {D t : CADataType} {rcheck : List Addr} {a b : Addr} {env : Env}
  {σ σ' τ : Signatures} {s : List Char} {h : StructHead StructId} {fs : CAStructFields}
  {fuel : Nat} {id : StructId}

theorem Expanded.trans (h : Expanded anon D σ τ) (h' : Expanded anon D τ σ') :
    Expanded anon D σ σ' := ⟨h'.ok, h.extend.trans h'.extend⟩

theorem Expanding.mono (h : Expanding anon D rcheck a t env σ) (he : Expanded anon D σ σ') :
    Expanding anon D rcheck a t env σ' where
  ok := he.ok
  here ht := he.extend.ne_none (h.here ht)
  below hne := he.extend.setBelow (h.below hne)
  frames heq :=
    ⟨he.extend.ne_none (h.frames heq).1, fun hne => he.extend.setBelow ((h.frames heq).2 hne)⟩
  rcheck hb hp hne := he.extend.setBelow (h.rcheck hb hp hne)

/-- Everything behind the outermost struct has a signature already. -/
theorem Expanding.signatureAt_ne_none {t' : CADataType} {i : Nat}
    (h : Expanding anon D rcheck a t env σ) (he : env ≠ []) {env' : Env}
    (hp : place D (i :: a) = some (t', env'))
    (hf : ∀ id, t' = .recur id → ∃ f env'', findFrame id env' = some (f, env'') ∧ σ f.addr ≠ none) :
    signatureAt σ t' (i :: a) env' ≠ none := by
  have hown : t'.isOwn = true → σ (i :: a) ≠ none :=
    fun ht => h.below he _ _ _ (List.suffix_cons i a) hp ht
  cases t' with
  | prim p => exact Option.some_ne_none _
  | pointer t => exact hown rfl
  | array e n => exact hown rfl
  | struct hd fs => exact hown rfl
  | recur id =>
      obtain ⟨f, env'', hf, hne⟩ := hf id rfl
      simpa [signatureAt, objAddr, hf] using hne

theorem catypeFormalizeTypeExpand_recur
    (hrun : catypeFormalizeTypeExpand anon fuel (.recur id) a env rcheck σ = .ok σ') :
    ∃ f env' k, fuel = k + 1 ∧ findFrame id env = some (f, env') ∧
      catypeFormalizeTypeExpand anon k (.struct f.head f.fields) f.addr env' rcheck σ = .ok σ' := by
  cases fuel with
  | zero => cases hrun
  | succ k =>
      rw [catypeFormalizeTypeExpand.eq_def] at hrun
      dsimp only at hrun
      split at hrun
      · rename_i f env' hf
        exact ⟨f, env', k, rfl, hf, hrun⟩
      · cases hrun

theorem Expanding.frame_of_run (h : ∀ {inner f env'}, env = inner ++ f :: env' → σ f.addr ≠ none)
    (hrun : catypeFormalizeTypeExpand anon fuel t b env rcheck τ = .ok σ') :
    ∀ id, t = .recur id → ∃ f env', findFrame id env = some (f, env') ∧ σ f.addr ≠ none := by
  rintro id rfl
  obtain ⟨f, env', -, -, hf, -⟩ := catypeFormalizeTypeExpand_recur hrun
  obtain ⟨-, inner, heq⟩ := findFrame_split hf
  exact ⟨f, env', hf, h heq⟩

/-- The step of a pointer or an array, with what `decrease` makes of its signature. -/
theorem expandNext_expanded {t' : CADataType} {decrease : List Char → Option (List Char)}
    (hp : place D a = some (t, env)) (ht : t.isOwn = true)
    (hp' : place D (0 :: a) = some (t', env)) (h : Expanding anon D rcheck a t env σ)
    (hd : decrease t.signature = some t'.signature)
    (hlen : t'.signature.length ≤ t.signature.length)
    (hf : ∀ id, t' = .recur id → ∃ f env', findFrame id env = some (f, env') ∧ σ f.addr ≠ none)
    (hrun : expandNext decrease t' a env σ = .ok τ) :
    Expanded anon D σ τ ∧ Expanding anon D rcheck (0 :: a) t' env τ := by
  have hmove : ∀ τ', Expanded anon D σ τ' → (t'.isOwn = true → τ' (0 :: a) ≠ none) →
      Expanding anon D rcheck (0 :: a) t' env τ' := fun τ' he hhere =>
    let hm := h.mono he
    ⟨hm.ok, hhere, fun hne => (hm.below hne).cons, hm.frames, hm.rcheck⟩
  have hown : t'.isOwn = true →
      ∀ σ' : Signatures, signatureAt σ' t' (0 :: a) env = σ' (0 :: a) := by
    intro ht' σ'
    cases t' with
    | prim p => cases ht'
    | recur id => cases ht'
    | _ => rfl
  rw [expandNext] at hrun
  split at hrun
  · rename_i hsome
    cases hrun
    refine ⟨⟨h.ok, .rfl⟩, hmove _ ⟨h.ok, .rfl⟩ ?_⟩
    intro ht'
    rw [hown ht'] at hsome
    exact Option.isSome_iff_ne_none.mp hsome
  · rename_i hnone
    have hnone : signatureAt σ t' (0 :: a) env = none := by simpa using hnone
    cases env with
    | cons f env => exact absurd hnone (h.signatureAt_ne_none (List.cons_ne_nil _ _) hp' hf)
    | nil =>
        obtain ⟨s, hs⟩ := Option.ne_none_iff_exists'.mp (h.here ht)
        have hsig : s = t.signature := h.ok.right hp hs
        rw [hs, hsig, Option.bind_eq_bind, Option.bind_some, hd] at hrun
        have haddr : objAddr t' (0 :: a) [] = 0 :: a := by
          cases t' with
          | recur id =>
              obtain ⟨f, env', hf, -⟩ := hf id rfl
              cases hf
          | _ => rfl
        rw [haddr] at hrun
        cases hrun
        have hσ : σ (0 :: a) = none := by
          cases t' with
          | prim p => cases hnone
          | recur id =>
              obtain ⟨f, env', hf, -⟩ := hf id rfl
              cases hf
          | _ => exact hnone
        have he : Expanded anon D σ (setSignature σ (0 :: a) t'.signature) :=
          ⟨h.ok.set hp' rfl (fitsTypeBuf_of_le (h.ok.fit hp (hsig ▸ hs)) hlen) (.inl hσ)
            fun hne => absurd rfl hne, extends_setSignature (.inl hσ)⟩
        exact ⟨he, hmove _ he fun _ => by simp [setSignature]⟩

theorem semicolon_notMem_printInt (n : Nat) : ';' ∉ printInt n := by
  intro hm
  rw [printInt, if_neg (by omega)] at hm
  have hd := Nat.isDigit_of_mem_toDigits (by omega) (by omega) hm
  exact absurd hd (by decide)

theorem typeidDecreaseArray_text (s : List Char) (n : Nat) :
    typeidDecreaseArray ('[' :: s ++ ';' :: printInt n ++ [']']) = some s := by
  have hrev : (s ++ ';' :: printInt n ++ [']']).reverse =
      ']' :: ((printInt n).reverse ++ ';' :: s.reverse) := by simp
  have hdrop : ((printInt n).reverse ++ ';' :: s.reverse).dropWhile (· ≠ ';') =
      ';' :: s.reverse := by
    rw [List.dropWhile_append_of_pos, List.dropWhile_cons_of_neg (by simp)]
    intro c hc
    have hne : c ≠ ';' := fun heq => semicolon_notMem_printInt n (heq ▸ List.mem_reverse.mp hc)
    simpa using hne
  rw [List.cons_append, List.cons_append, typeidDecreaseArray, hrev]
  show (if ';' ∈ (printInt n).reverse ++ ';' :: s.reverse then _ else _) = _
  rw [if_pos (by simp), hdrop, List.tail_cons, List.reverse_reverse]

theorem signature_array_length (e : CADataType) (n : Nat) :
    e.signature.length ≤ (CADataType.array e n).signature.length := by
  have hsig : (CADataType.array e n).signature =
      '[' :: e.signature ++ ';' :: printInt n ++ [']'] := rfl
  rw [hsig]
  simp only [List.length_append, List.length_cons]
  omega

/-- The structs around a field have their signatures. -/
theorem Expanding.frames_field (hσ : Expanding anon D rcheck a (.struct h fs) env σ)
    {inner env' : Env} {f : Frame} (heq : (⟨a, h, fs⟩ : Frame) :: env = inner ++ f :: env') :
    σ f.addr ≠ none ∧ (env' ≠ [] → SetBelow D σ f.addr) := by
  cases inner with
  | nil =>
      obtain ⟨rfl, rfl⟩ := List.cons.inj heq
      exact ⟨hσ.here rfl, hσ.below⟩
  | cons g inner => exact hσ.frames (List.cons.inj heq).2

/-- A field of the outermost struct can be printed. -/
theorem Expanding.printing {i : Nat} (hσ : Expanding anon D rcheck a (.struct h fs) [] σ) :
    Printing anon D [] (i :: a) [⟨a, h, fs⟩] σ := by
  refine ⟨hσ.ok, fun {inner f} heq => ?_, fun {inner f env'} heq hne => ?_, fun hm => ?_⟩
  · exact (hσ.frames_field heq).1
  · cases inner with
    | nil => exact absurd (List.cons.inj heq).2.symm hne
    | cons g inner => simp at heq
  · cases hm

/-- Only the fields of the outermost struct are without a signature. -/
theorem Expanding.env_eq_nil {i : Nat} (hσ : Expanding anon D rcheck a (.struct h fs) env σ)
    (hpi : place D (i :: a) = some (t, ⟨a, h, fs⟩ :: env))
    (hf : ∀ id, t = .recur id →
      ∃ f env', findFrame id (⟨a, h, fs⟩ :: env) = some (f, env') ∧ σ f.addr ≠ none)
    (hnone : signatureAt σ t (i :: a) (⟨a, h, fs⟩ :: env) = none) : env = [] := by
  by_contra he
  exact hσ.signatureAt_ne_none he hpi hf hnone

/-- A field of the struct at `a` gets its signature. -/
theorem expandField_expanded {i : Nat} (hp : place D a = some (.struct h fs, env))
    (hpi : place D (i :: a) = some (t, ⟨a, h, fs⟩ :: env))
    (hσ : Expanding anon D rcheck a (.struct h fs) env σ)
    (hf : ∀ id, t = .recur id →
      ∃ f env', findFrame id (⟨a, h, fs⟩ :: env) = some (f, env') ∧ σ f.addr ≠ none)
    (hrun : expandField anon fuel t (i :: a) (⟨a, h, fs⟩ :: env) σ = .ok τ) :
    Expanded anon D σ τ ∧ SetBelow D τ (i :: a) := by
  rw [expandField] at hrun
  split at hrun
  · rename_i hsome
    cases hrun
    refine ⟨⟨hσ.ok, .rfl⟩, ?_⟩
    have hown : t.isOwn = true → SetBelow D σ (i :: a) := by
      intro ht
      refine hσ.ok.closed hpi (List.cons_ne_nil _ _) (Option.isSome_iff_ne_none.mp ?_)
      cases t with
      | prim p => cases ht
      | recur id => cases ht
      | _ => exact hsome
    cases t with
    | prim p => exact setBelow_of_not_own hpi (fun j => by rw [place, hpi]) rfl
    | recur id => exact setBelow_of_not_own hpi (fun j => by rw [place, hpi]) rfl
    | _ => exact hown rfl
  · rename_i hnone
    have hnone : signatureAt σ t (i :: a) (⟨a, h, fs⟩ :: env) = none := by simpa using hnone
    obtain ⟨⟨s, τ'⟩, hτ, hrun⟩ := except_bind_eq_ok hrun
    cases hrun
    obtain rfl := hσ.env_eq_nil hpi hf hnone
    obtain ⟨hs, hprinted⟩ := prints_typeidGetTopDown fuel hpi (List.cons_ne_nil _ _) hσ.printing hτ
    have hown : t.isOwn = true := by
      cases t with
      | prim p => cases hnone
      | recur id =>
          obtain ⟨f, env', hf, hne⟩ := hf id rfl
          rw [signatureAt, objAddr, hf] at hnone
          · exact absurd hnone hne
          · exact fun p hc => by cases hc
      | _ => rfl
    have haddr : objAddr t (i :: a) [⟨a, h, fs⟩] = i :: a := by
      cases t with
      | recur id => cases hown
      | _ => rfl
    obtain ⟨s', hs'⟩ := Option.ne_none_iff_exists'.mp
      (hprinted.below _ _ _ List.suffix_rfl hpi hown)
    have hsame : τ' (i :: a) = some s := by
      rw [hs', hprinted.ok.right hpi hs', hs]
      rfl
    have hext : Extends τ' (setSignature τ' (i :: a) s) := extends_setSignature (.inr hsame)
    have hset := hext.setBelow hprinted.below
    rw [haddr]
    have hfit := hprinted.ok.fit hpi hsame
    exact ⟨⟨hprinted.ok.set hpi hs hfit (.inr hsame) fun _ => hset, hprinted.extend.trans hext⟩,
      hset⟩

/-- The walk may enter a field that has its signature. -/
theorem Expanding.field {i : Nat} (hpi : place D (i :: a) = some (t, ⟨a, h, fs⟩ :: env))
    (hσ : Expanding anon D rcheck a (.struct h fs) env σ) (he : Expanded anon D σ τ)
    (hset : SetBelow D τ (i :: a))
    (hf : ∀ id, t = .recur id →
      ∃ f env', findFrame id (⟨a, h, fs⟩ :: env) = some (f, env') ∧ σ f.addr ≠ none) :
    Expanding anon D (objAddr t (i :: a) (⟨a, h, fs⟩ :: env) :: rcheck) (i :: a) t
      (⟨a, h, fs⟩ :: env) τ := by
  refine ⟨he.ok, fun ht => hset _ _ _ List.suffix_rfl hpi ht, fun _ => hset,
    fun heq => ⟨he.extend.ne_none (hσ.frames_field heq).1,
      fun hne => he.extend.setBelow ((hσ.frames_field heq).2 hne)⟩, ?_⟩
  intro b t' env' hb hp' hne
  rcases List.mem_cons.mp hb with rfl | hb
  · cases t with
    | recur id =>
        obtain ⟨f, env'', hf, -⟩ := hf id rfl
        simp only [objAddr, hf] at hp' ⊢
        obtain ⟨-, inner, heq⟩ := findFrame_split hf
        obtain ⟨hpf, -⟩ := place_frame (heq ▸ hpi)
        cases hpf.symm.trans hp'
        exact he.extend.setBelow ((hσ.frames_field heq).2 hne)
    | _ => exact hset
  · exact he.extend.setBelow (hσ.rcheck hb hp' hne)

/-- The loop over the fields of a struct, from field `i` on. -/
theorem expandFields_expanded (ih : Expands anon D (catypeFormalizeTypeExpand anon fuel))
    (hp : place D a = some (.struct h fs, env)) (rest : CAStructFields) {i : Nat}
    {σ σ' : Signatures} (hrest : fs.drop i = rest)
    (hσ : Expanding anon D rcheck a (.struct h fs) env σ)
    (hrun : expandFields anon fuel (catypeFormalizeTypeExpand anon fuel) a (⟨a, h, fs⟩ :: env)
      rcheck rest i σ = .ok σ') :
    Expanded anon D σ σ' ∧ ∀ j y, i ≤ j → place D (j :: a) = some y → SetBelow D σ' (j :: a) := by
  cases rest with
  | nil =>
      cases hrun
      refine ⟨⟨hσ.ok, .rfl⟩, ?_⟩
      intro j y hj hy
      rw [place, hp] at hy
      dsimp only at hy
      rw [CAStructFields.get?_of_drop_nil hrest hj] at hy
      cases hy
  | cons n t rest =>
      obtain ⟨hi, hdrop⟩ := CAStructFields.get?_of_drop hrest
      have hpi := place_field hp hi
      have hcont : ∀ {τ : Signatures}, Expanded anon D σ τ → SetBelow D τ (i :: a) →
          expandFields anon fuel (catypeFormalizeTypeExpand anon fuel) a (⟨a, h, fs⟩ :: env)
            rcheck rest (i + 1) τ = .ok σ' →
          Expanded anon D σ σ' ∧
            ∀ j y, i ≤ j → place D (j :: a) = some y → SetBelow D σ' (j :: a) := by
        intro τ he hset hrun
        obtain ⟨he', hrestset⟩ := expandFields_expanded ih hp rest hdrop (hσ.mono he) hrun
        refine ⟨he.trans he', ?_⟩
        intro j y hj hy
        rcases hj.eq_or_lt with rfl | hj
        · exact he'.extend.setBelow hset
        · exact hrestset j y hj hy
      rw [expandFields] at hrun
      split at hrun
      · rename_i hm
        refine hcont ⟨hσ.ok, .rfl⟩ ?_ hrun
        cases t with
        | prim p => exact setBelow_of_not_own hpi (fun j => by rw [place, hpi]) rfl
        | recur id => exact setBelow_of_not_own hpi (fun j => by rw [place, hpi]) rfl
        | _ => exact hσ.rcheck hm hpi (List.cons_ne_nil _ _)
      · obtain ⟨τ, hτ, hrun⟩ := except_bind_eq_ok hrun
        obtain ⟨τ', hτ', hrun⟩ := except_bind_eq_ok hrun
        have hf := Expanding.frame_of_run (fun heq => (hσ.frames_field heq).1) hτ'
        obtain ⟨he, hset⟩ := expandField_expanded hp hpi hσ hf hτ
        obtain ⟨he', -⟩ := ih hpi (hσ.field hpi he hset hf) hτ'
        exact hcont (he.trans he') (he'.extend.setBelow hset) hrun

/-- The walk may enter a struct around a place again. -/
theorem Expanding.frame {inner env' : Env} {f : Frame}
    (hσ : Expanding anon D rcheck a t (inner ++ f :: env') σ) :
    Expanding anon D rcheck f.addr (.struct f.head f.fields) env' σ := by
  refine ⟨hσ.ok, fun _ => (hσ.frames rfl).1, (hσ.frames rfl).2, ?_, hσ.rcheck⟩
  intro inner' g env'' heq
  have hsplit : inner ++ f :: env' = (inner ++ f :: inner') ++ g :: env'' := by
    rw [heq, List.append_assoc, List.cons_append]
  exact hσ.frames hsplit

/-- **The walk writes the right signatures**, by induction on the fuel. -/
theorem expands_catypeFormalizeTypeExpand (fuel : Nat) :
    Expands anon D (catypeFormalizeTypeExpand anon fuel) := by
  induction fuel using Nat.strong_induction_on with
  | h fuel ih =>
      intro t a env rcheck σ σ' hp hσ hrun
      cases fuel with
      | zero => cases hrun
      | succ fuel =>
          have ih' := ih fuel (Nat.lt_succ_self fuel)
          have hnext : ∀ {t' τ}, t.isOwn = true → place D (0 :: a) = some (t', env) →
              (∀ j y, place D (j :: a) = some y → j = 0) →
              Expanded anon D σ τ ∧ Expanding anon D rcheck (0 :: a) t' env τ →
              catypeFormalizeTypeExpand anon fuel t' (0 :: a) env rcheck τ = .ok σ' →
              Expanded anon D σ σ' ∧ (env = [] → SetBelow D σ' a) := by
            rintro t' τ ht hp' hone ⟨he, hentry⟩ hrun
            obtain ⟨he', hset⟩ := ih' hp' hentry hrun
            refine ⟨he.trans he', fun hnil => .of_cons ?_ ?_⟩
            · exact (he.trans he').extend.ne_none (hσ.here ht)
            · intro j y hy
              exact hone j y hy ▸ hset hnil
          cases t with
          | prim p =>
              cases hrun
              exact ⟨⟨hσ.ok, .rfl⟩, fun _ =>
                setBelow_of_not_own hp (fun j => by rw [place, hp]) rfl⟩
          | pointer t =>
              obtain ⟨τ, hτ, hrun⟩ := except_bind_eq_ok hrun
              have hf := Expanding.frame_of_run (fun heq => (hσ.frames heq).1) hrun
              refine hnext rfl (place_pointer hp) ?_
                (expandNext_expanded hp rfl (place_pointer hp) hσ rfl (Nat.le_succ _) hf hτ) hrun
              intro j y hy
              by_contra hj
              simp [place, hp, hj] at hy
          | array e n =>
              obtain ⟨τ, hτ, hrun⟩ := except_bind_eq_ok hrun
              have hf := Expanding.frame_of_run (fun heq => (hσ.frames heq).1) hrun
              refine hnext rfl (place_array hp) ?_ (expandNext_expanded hp rfl (place_array hp) hσ
                  (typeidDecreaseArray_text e.signature n) (signature_array_length e n) hf hτ) hrun
              intro j y hy
              by_contra hj
              simp [place, hp, hj] at hy
          | struct h fs =>
              obtain ⟨he, hset⟩ := expandFields_expanded ih' hp fs
                (by simp [CAStructFields.drop]) hσ hrun
              refine ⟨he, fun _ => .of_cons (he.extend.ne_none (hσ.here rfl)) ?_⟩
              intro j y hy
              exact hset j y (Nat.zero_le j) hy
          | recur id =>
              obtain ⟨f, env', k, hk, hf, hrun'⟩ := catypeFormalizeTypeExpand_recur hrun
              obtain ⟨-, inner, rfl⟩ := findFrame_split hf
              obtain ⟨hpf, -⟩ := place_frame hp
              obtain ⟨he, -⟩ := ih k (by omega) hpf hσ.frame hrun'
              exact ⟨he, fun hnil => by simp at hnil⟩

theorem signaturesOk_root (hD : D.fits = true) : SignaturesOk anon D (rootSignature D) := by
  have hroot : ∀ {b s'}, rootSignature D b = some s' → b = [] ∧ s' = D.signature := by
    intro b s' hb
    unfold rootSignature at hb
    split at hb
    · cases hb
      exact ⟨by assumption, rfl⟩
    · cases hb
  refine ⟨fun hp hb => ?_, fun hp hne hb => ?_, fun hp hb => ?_⟩
  · obtain ⟨rfl, rfl⟩ := hroot hb
    cases hp
    rfl
  · obtain ⟨s', hs'⟩ := Option.ne_none_iff_exists'.mp hb
    obtain ⟨rfl, -⟩ := hroot hs'
    cases hp
    exact absurd rfl hne
  · obtain ⟨-, rfl⟩ := hroot hb
    exact hD

theorem expanding_root (hD : D.fits = true) :
    Expanding anon D [[]] [] D [] (rootSignature D) := by
  refine ⟨signaturesOk_root hD, fun _ => by simp [rootSignature], fun hne => absurd rfl hne, ?_, ?_⟩
  · intro inner f env' heq
    simp at heq
  · intro b t' env' hb hp' hne
    rw [List.mem_singleton] at hb
    subst hb
    cases hp'
    exact absurd rfl hne

/-- **The signatures of the components**: every object that is reachable from the unwound datatype
ends up with the signature of its place, which fits into the buffer. -/
theorem signatures_eq (hD : D.fits = true) (h : catypeExpand anon fuel D = .ok σ)
    (hp : place D a = some (t, env)) (ht : t.isOwn = true) :
    σ a = some (t.placeSignature anon a env) ∧
      fitsTypeBuf (t.placeSignature anon a env) = true := by
  obtain ⟨he, hset⟩ := expands_catypeFormalizeTypeExpand fuel rfl (expanding_root hD) h
  obtain ⟨s, hs⟩ := Option.ne_none_iff_exists'.mp (hset rfl a t env List.nil_suffix hp ht)
  have hright := he.ok.right hp hs
  exact ⟨hright ▸ hs, hright ▸ he.ok.fit hp hs⟩

end Walk

end CaLang.Types

import CaLang.Types.Alignment
import CaLang.Types.Signatures

/-! # When a datatype is made

The printer enters no struct that it is inside of, and the walk enters a field only while the type
of the field is not in `rcheck`. **So the expansion ends, and it stops early only where the
signature of a component does not fit into `type_buf`**: the back references to the outermost struct
print it in full, so that a component can have a longer signature than the datatype itself.

- `Overruns`: some component has such a signature;
- `catypeExpand_ends`: the expansion;
- `catypeFormalizeType_ends`: the expansion, and the layout behind it.
-/

namespace CaLang.Types

variable (anon : Name)

/-- The signature of some component does not fit into `type_buf`. -/
def Overruns (D : CADataType) : Prop :=
  ∃ a t env, place D a = some (t, env) ∧ t.isOwn = true ∧
    fitsTypeBuf (t.placeSignature anon a env) = false

section Print

variable {anon} {D t : CADataType} {a : Addr} {env : Env} {rcheck : List Addr} {σ : Signatures}
  {s : List Char}

/-- The signature of a component becomes one, unless it is too long. -/
theorem symFormTypeIdByStr_ends (hp : place D a = some (t, env)) (ht : t.isOwn = true)
    (he : env ≠ []) (hs : s = t.topDown anon a env) :
    Ends (Overruns anon D) fun _ => symFormTypeIdByStr s := by
  unfold symFormTypeIdByStr
  split
  · exact .ok s
  · rename_i hfit
    refine .crash ⟨a, t, env, hp, ht, ?_⟩
    rw [placeSignature_of_ne he, ← hs]
    exact Bool.eq_false_iff.mpr hfit

/-- What a run of the printer has printed. -/
theorem printed_of_settles {τ : Signatures} (hp : place D a = some (t, env)) (he : env ≠ [])
    (hσ : Printing anon D rcheck a env σ)
    (h : Settles (fun k => typeidGetTopDown anon k t a env rcheck σ) (.ok (s, τ))) :
    s = t.topDown anon a env ∧ Printed anon D a σ τ := by
  obtain ⟨N, hN⟩ := h
  exact prints_typeidGetTopDown N hp he hσ (hN N le_rfl)

mutual
/-- **The printer ends**, by recursion on what it prints: no back reference is followed. -/
theorem typeidGetTopDown_ends (hD : D.closedIn []) (t : CADataType) {a : Addr} {env : Env}
    {rcheck : List Addr} {σ : Signatures} (hp : place D a = some (t, env)) (he : env ≠ [])
    (hσ : Printing anon D rcheck a env σ) :
    Ends (Overruns anon D) fun k => typeidGetTopDown anon k t a env rcheck σ := by
  cases hsig : signatureAt σ t a env with
  | some s =>
      apply (Ends.ok (s, σ)).step
      intro k
      rw [typeidGetTopDown.eq_def]
      simp only [hsig]
  | none =>
      match t with
      | .prim p => cases hsig
      | .pointer t =>
          have htarget := typeidGetTopDown_ends hD t (place_pointer hp) he (hσ.next 0)
          have hrun := htarget.bind (g := fun r _ => symFormTypeIdByStr ('*' :: r.1) >>= fun s =>
              .ok (s, setSignature r.2 a s)) fun r hr => by
            obtain ⟨htext, -⟩ := printed_of_settles (place_pointer hp) he (hσ.next 0) hr
            refine (symFormTypeIdByStr_ends hp rfl he ?_).bind fun s _ => .ok _
            rw [htext, CADataType.topDown]
          apply hrun.step
          intro k
          rw [typeidGetTopDown.eq_def]
          simp only [hsig]
          rfl
      | .array e n =>
          have helem := typeidGetTopDown_ends hD e (place_array hp) he (hσ.next 0)
          have hrun := helem.bind (g := fun r _ =>
              symFormTypeIdByStr ('[' :: r.1 ++ ';' :: printInt n ++ [']']) >>= fun s =>
                .ok (s, setSignature r.2 a s)) fun r hr => by
            obtain ⟨htext, -⟩ := printed_of_settles (place_array hp) he (hσ.next 0) hr
            refine (symFormTypeIdByStr_ends hp rfl he ?_).bind fun s _ => .ok _
            rw [htext, CADataType.topDown]
          apply hrun.step
          intro k
          rw [typeidGetTopDown.eq_def]
          simp only [hsig]
          rfl
      | .struct h fs =>
          have hm : a ∉ rcheck := fun hm => (hσ.around hm).2 rfl
          have hmembers := typeidFields_ends (i := 0) hD fs hp he (by cases fs <;> rfl) hσ hsig
          have hrun := hmembers.bind (g := fun r _ =>
              symFormTypeIdByStr (printedStruct anon h r.1) >>= fun s =>
                .ok (s, setSignature r.2 a s)) fun r hr => by
            obtain ⟨N, hN⟩ := hr
            obtain ⟨htext, -⟩ := typeidFields_printed (prints_typeidGetTopDown N) hp he fs
              (by cases fs <;> rfl) hσ hsig (hN N le_rfl)
            refine (symFormTypeIdByStr_ends hp rfl he ?_).bind fun s _ => .ok _
            rw [htext, CADataType.topDown]
          apply hrun.step
          intro k
          rw [typeidGetTopDown.eq_def]
          simp only [hsig, if_neg hm]
          rfl
      | .recur id =>
          obtain ⟨f, env', hf, -⟩ := findFrame_place hD hp
          have hnone : σ f.addr = none := by
            simpa [signatureAt, objAddr, hf] using hsig
          obtain ⟨-, inner, rfl⟩ := findFrame_split hf
          cases env' with
          | nil => exact absurd hnone (hσ.outer rfl)
          | cons g env' =>
              obtain ⟨hm, -⟩ := hσ.inner rfl (List.cons_ne_nil _ _)
              have hframe : Ends (Overruns anon D) fun k => typeidGetTopDown anon k
                  (.struct f.head f.fields) f.addr (g :: env') rcheck σ := by
                apply (Ends.ok (f.head.printedName anon, σ)).step
                intro k
                rw [typeidGetTopDown.eq_def]
                simp only [signatureAt, objAddr, hnone, if_pos hm]
              apply hframe.step
              intro k
              rw [typeidGetTopDown.eq_def]
              simp only [hsig, hf]

/-- The loop over the fields of a struct that is being printed. -/
theorem typeidFields_ends (hD : D.closedIn []) (rest : CAStructFields) {a : Addr} {env : Env}
    {rcheck : List Addr} {σ : Signatures} {h : StructHead StructId} {fs : CAStructFields} {i : Nat}
    (hp : place D a = some (.struct h fs, env)) (he : env ≠ []) (hrest : fs.drop i = rest)
    (hσ : Printing anon D rcheck a env σ) (ha : σ a = none) :
    Ends (Overruns anon D) fun k => typeidFields (typeidGetTopDown anon k) h a
      (⟨a, h, fs⟩ :: env) (a :: rcheck) rest i σ := by
  match rest with
  | .nil => exact .ok _
  | .cons n t rest =>
      obtain ⟨hi, hdrop⟩ := CAStructFields.get?_of_drop hrest
      have hpi := place_field hp hi
      have hfield : Printing anon D (a :: rcheck) (i :: a) (⟨a, h, fs⟩ :: env) σ :=
        hσ.field he ha i
      apply (typeidGetTopDown_ends hD t hpi (List.cons_ne_nil _ _) hfield).bind
      intro r hr
      obtain ⟨-, hprinted⟩ := printed_of_settles hpi (List.cons_ne_nil _ _) hfield hr
      obtain ⟨hσ', ha'⟩ := hprinted.afterField hp hσ ha
      exact (typeidFields_ends hD rest hp he hdrop hσ' ha').bind fun r' _ => .ok _
end

end Print

section Walk

variable {anon} {D t : CADataType} {a : Addr} {env : Env} {rcheck : List Addr} {σ τ : Signatures}
  {h : StructHead StructId} {fs : CAStructFields} {i : Nat}

/-- The structs around a place are found, and have their signatures. -/
theorem findFrame_of_closed (hD : D.closedIn []) (hp : place D a = some (t, env))
    (hframes : ∀ {inner f env'}, env = inner ++ f :: env' → σ f.addr ≠ none) :
    ∀ id, t = .recur id → ∃ f env', findFrame id env = some (f, env') ∧ σ f.addr ≠ none := by
  rintro id rfl
  obtain ⟨f, env', hf, -⟩ := findFrame_place hD hp
  obtain ⟨-, inner, heq⟩ := findFrame_split hf
  exact ⟨f, env', hf, hframes heq⟩

/-- The signature of a pointer or an array can be decreased. -/
theorem expandNext_ok {t' : CADataType} {decrease : List Char → Option (List Char)}
    (hp : place D a = some (t, env)) (ht : t.isOwn = true)
    (hp' : place D (0 :: a) = some (t', env)) (hσ : Expanding anon D rcheck a t env σ)
    (hd : decrease t.signature = some t'.signature)
    (hf : ∀ id, t' = .recur id → ∃ f env', findFrame id env = some (f, env') ∧ σ f.addr ≠ none) :
    ∃ τ, expandNext decrease t' a env σ = .ok τ := by
  rw [expandNext]
  split
  · exact ⟨σ, rfl⟩
  · rename_i hnone
    cases env with
    | cons f env =>
        have hne := hσ.signatureAt_ne_none (List.cons_ne_nil _ _) hp' hf
        exact absurd (by simpa using hnone) hne
    | nil =>
        obtain ⟨s, hs⟩ := Option.ne_none_iff_exists'.mp (hσ.here ht)
        have hsig : s = t.signature := hσ.ok.right hp hs
        rw [hs, hsig, Option.bind_eq_bind, Option.bind_some, hd]
        exact ⟨_, rfl⟩

theorem expandField_ends (hD : D.closedIn []) (hpi : place D (i :: a) = some (t, ⟨a, h, fs⟩ :: env))
    (hσ : Expanding anon D rcheck a (.struct h fs) env σ) :
    Ends (Overruns anon D) fun k => expandField anon k t (i :: a) (⟨a, h, fs⟩ :: env) σ := by
  have hf := findFrame_of_closed hD hpi fun heq => (hσ.frames_field heq).1
  simp only [expandField]
  by_cases hsome : (signatureAt σ t (i :: a) (⟨a, h, fs⟩ :: env)).isSome = true
  · simp only [if_pos hsome]
    exact .ok σ
  · simp only [if_neg hsome]
    obtain rfl := hσ.env_eq_nil hpi hf (by simpa using hsome)
    have hprint := typeidGetTopDown_ends hD t hpi (List.cons_ne_nil _ _) hσ.printing
    exact hprint.bind fun r _ => .ok _

/-- **The loop ends** if the walk does with one more place in `rcheck`. -/
theorem expandFields_ends (hD : D.closedIn []) (hp : place D a = some (.struct h fs, env))
    (ih : ∀ rcheck', free D rcheck' < free D rcheck → ∀ t b env σ, place D b = some (t, env) →
      Expanding anon D rcheck' b t env σ →
        Ends (Overruns anon D) fun k => catypeFormalizeTypeExpand anon k t b env rcheck' σ)
    (rest : CAStructFields) {i : Nat} (hrest : fs.drop i = rest) {σ : Signatures}
    (hσ : Expanding anon D rcheck a (.struct h fs) env σ) :
    Ends (Overruns anon D) fun k => expandFields anon k (catypeFormalizeTypeExpand anon k) a
      (⟨a, h, fs⟩ :: env) rcheck rest i σ := by
  match rest with
  | .nil => exact .ok σ
  | .cons n t rest =>
      obtain ⟨hi, hdrop⟩ := CAStructFields.get?_of_drop hrest
      have hpi := place_field hp hi
      simp only [expandFields]
      by_cases hr : objAddr t (i :: a) (⟨a, h, fs⟩ :: env) ∈ rcheck
      · simp only [if_pos hr]
        exact expandFields_ends hD hp ih rest hdrop hσ
      · simp only [if_neg hr]
        have hf := findFrame_of_closed hD hpi fun heq => (hσ.frames_field heq).1
        apply (expandField_ends hD hpi hσ).bind
        intro τ hτ
        obtain ⟨N, hN⟩ := hτ
        obtain ⟨he, hset⟩ := expandField_expanded hp hpi hσ hf (hN N le_rfl)
        obtain ⟨y, hy⟩ := place_objAddr hD hpi
        have hentry := hσ.field hpi he hset hf
        apply (ih _ (free_cons_lt hy hr) t (i :: a) _ τ hpi hentry).bind
        intro τ' hτ'
        obtain ⟨N', hN'⟩ := hτ'
        obtain ⟨he', -⟩ := expands_catypeFormalizeTypeExpand N' hpi hentry (hN' N' le_rfl)
        exact expandFields_ends hD hp ih rest hdrop (hσ.mono (he.trans he'))

/-- Pointers and arrays end where the structs do. -/
theorem expandEnds (hD : D.closedIn [])
    (hstruct : ∀ hd fs a env σ, place D a = some (.struct hd fs, env) →
      Expanding anon D rcheck a (.struct hd fs) env σ →
        Ends (Overruns anon D) fun k =>
          catypeFormalizeTypeExpand anon k (.struct hd fs) a env rcheck σ)
    (t : CADataType) {a : Addr} {env : Env} {σ : Signatures} (hp : place D a = some (t, env))
    (hσ : Expanding anon D rcheck a t env σ) :
    Ends (Overruns anon D) fun k => catypeFormalizeTypeExpand anon k t a env rcheck σ := by
  match t with
  | .prim p => exact (Ends.ok σ).step fun k => rfl
  | .pointer t =>
      have hp' := place_pointer hp
      have hf := findFrame_of_closed hD hp' fun heq => (hσ.frames heq).1
      have hd : typeidDecreasePointer (CADataType.pointer t).signature = some t.signature := rfl
      obtain ⟨τ, hτ⟩ := expandNext_ok hp rfl hp' hσ hd hf
      obtain ⟨-, hentry⟩ := expandNext_expanded hp rfl hp' hσ hd (Nat.le_succ _) hf hτ
      apply (expandEnds hD hstruct t hp' hentry).step
      intro k
      rw [catypeFormalizeTypeExpand.eq_def]
      simp only [hτ]
      rfl
  | .array e n =>
      have hp' := place_array hp
      have hf := findFrame_of_closed hD hp' fun heq => (hσ.frames heq).1
      have hd := typeidDecreaseArray_text e.signature n
      obtain ⟨τ, hτ⟩ := expandNext_ok hp rfl hp' hσ hd hf
      obtain ⟨-, hentry⟩ :=
        expandNext_expanded hp rfl hp' hσ hd (signature_array_length e n) hf hτ
      apply (expandEnds hD hstruct e hp' hentry).step
      intro k
      rw [catypeFormalizeTypeExpand.eq_def]
      simp only [hτ]
      rfl
  | .struct hd fs => exact hstruct hd fs a env σ hp hσ
  | .recur id =>
      obtain ⟨f, env', hf, hp'⟩ := findFrame_place hD hp
      obtain ⟨-, inner, rfl⟩ := findFrame_split hf
      apply (hstruct f.head f.fields f.addr env' σ hp' hσ.frame).step
      intro k
      rw [catypeFormalizeTypeExpand.eq_def]
      simp only [hf]

/-- **The walk ends** at every place, by the number of places that are not in `rcheck`. -/
theorem catypeFormalizeTypeExpand_ends (hD : D.closedIn []) (rcheck : List Addr) : ∀ t a env σ,
    place D a = some (t, env) → Expanding anon D rcheck a t env σ →
      Ends (Overruns anon D) fun k => catypeFormalizeTypeExpand anon k t a env rcheck σ := by
  induction hk : free D rcheck using Nat.strong_induction_on generalizing rcheck with
  | _ m ih =>
      subst hk
      have hfewer : ∀ rcheck', free D rcheck' < free D rcheck → ∀ t b env σ,
          place D b = some (t, env) → Expanding anon D rcheck' b t env σ →
          Ends (Overruns anon D) fun k => catypeFormalizeTypeExpand anon k t b env rcheck' σ :=
        fun rcheck' hlt => ih _ hlt rcheck' rfl
      intro t a env σ hp hσ
      refine expandEnds hD ?_ t hp hσ
      intro hd fs a env σ hp hσ
      exact (expandFields_ends hD hp hfewer fs (by cases fs <;> rfl) hσ).step fun k => rfl

theorem catypeExpand_ends (hD : D.closedIn []) (hfit : D.fits = true) :
    Ends (Overruns anon D) fun k => catypeExpand anon k D :=
  catypeFormalizeTypeExpand_ends hD [[]] D [] [] _ rfl (expanding_root hfit)

theorem not_overruns_of_ok {fuel : Nat} (hfit : D.fits = true)
    (h : catypeExpand anon fuel D = .ok σ) : ¬ Overruns anon D := by
  rintro ⟨a, t, env, hp, ht, hlong⟩
  rw [(signatures_eq hfit h hp ht).2] at hlong
  cases hlong

end Walk

/-! ### The layout behind the expansion -/

section Formalize

variable {anon} {D : CADataType}

theorem unwoundLayout_aligned (D : CADataType) : (unwoundLayout D).Aligned := fun _ => Nat.le_refl 1

/-- **A datatype is made unless a signature is too long or a field is `void`.** -/
theorem catypeFormalizeType_ends (hD : D.closedIn []) (hfit : D.fits = true) :
    ∃ x, Settles (fun k => catypeFormalizeType anon k D) x ∧ x ≠ .error .fuel ∧
      (x = .error .crash ↔ Overruns anon D ∨ VoidField D) := by
  have hlayout : Ends (VoidField D) fun k => catypeLayout k D (unwoundLayout D) :=
    catypeFormalizeTypeLayout_ends hD [[]] D [] [] _ rfl (unwoundLayout_aligned D)
  have hends : Ends (Overruns anon D ∨ VoidField D) fun k => catypeFormalizeType anon k D := by
    apply ((catypeExpand_ends hD hfit).mono .inl).bind
    intro σ _
    exact (hlayout.mono .inr).bind fun τ _ => .ok (⟨D, σ, τ⟩ : Made)
  obtain ⟨x, hx, hfuel, hcrash⟩ := hends
  refine ⟨x, hx, hfuel, hcrash, ?_⟩
  intro hstop
  cases x with
  | error e =>
      cases e with
      | crash => rfl
      | fuel => exact absurd rfl hfuel
  | ok o =>
      obtain ⟨N, hN⟩ := hx
      obtain ⟨σ, hσ, hrun⟩ := except_bind_eq_ok (hN N le_rfl)
      obtain ⟨τ, hτ, -⟩ := except_bind_eq_ok hrun
      rcases hstop with hlong | hvoid
      · exact absurd hlong (not_overruns_of_ok hfit hσ)
      · exact absurd hvoid (not_voidField_of_ok (unwoundLayout_aligned D) hτ)

end Formalize

end CaLang.Types

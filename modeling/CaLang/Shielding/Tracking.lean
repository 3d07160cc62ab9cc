import CaLang.Lib.Outcome
import CaLang.Shielding.Walk
import CaLang.Shielding.Registration
import Mathlib.Data.Finset.Basic
import Mathlib.Data.Finset.Dedup
import Mathlib.Data.Finset.Lattice.Lemmas

/-! # Where every entry stands while code is generated

`F s x` are the bindings of `x` in table `s`, oldest first, as the parser leaves them.  `Tracks`
says of the tables that the entry of `x` in `s` is that list turned forward `k s x` times, that
the first `d s x` of its variables have their types, that no variable has a type other than its
own, and that exactly the first `b s x` have their storage.
Between two statements the three numbers agree with the number of bindings visited; inside a let
they differ on the names of its pattern.

Each operation of the pass moves one of the numbers by one on the names it is about, and a turn
back undoes a turn forward, whatever happens to the types in between.
-/

namespace CaLang.Shielding

variable {τ : Type}

abbrev Count := ScopeId → Name → Nat

/-- One more on the names `N` in table `s`. -/
def up (s : ScopeId) (N : Finset Name) (c : Count) : Count :=
  fun s' x => if s' = s ∧ x ∈ N then c s' x + 1 else c s' x

@[simp] theorem up_empty (s : ScopeId) (c : Count) : up s ∅ c = c := by
  funext s' x
  simp [up]

theorem up_of_mem {s : ScopeId} {N : Finset Name} {x : Name} (h : x ∈ N) (c : Count) :
    up s N c s x = c s x + 1 := by simp [up, h]

theorem up_of_not_mem {s : ScopeId} {N : Finset Name} {x : Name} (h : x ∉ N) (c : Count) :
    up s N c s x = c s x := by simp [up, h]

theorem le_up (s : ScopeId) (N : Finset Name) (c : Count) (s' : ScopeId) (x : Name) :
    c s' x ≤ up s N c s' x := by
  unfold up
  split <;> omega

/-- Away from `x` in `s`, one name more or less in the set makes no difference. -/
theorem up_congr {s : ScopeId} {N M : Finset Name} {x : Name} (c : Count)
    (h : ∀ y, y ≠ x → (y ∈ N ↔ y ∈ M)) {s' : ScopeId} {x' : Name} (hne : ¬(s' = s ∧ x' = x)) :
    up s N c s' x' = up s M c s' x' := by
  unfold up
  by_cases hs : s' = s
  · simp only [hs, true_and] at hne ⊢
    simp [h x' hne]
  · simp [hs]

theorem up_insert (s : ScopeId) {N : Finset Name} {x : Name} (h : x ∉ N) (c : Count) :
    up s (insert x N) c = up s {x} (up s N c) := by
  funext s' y
  unfold up
  by_cases hs : s' = s
  · by_cases hy : y = x
    · subst hy
      simp [hs, h]
    · simp [hs, hy]
  · simp [hs]

/-! ### The invariant -/

/-- The variables `L` of an entry, oldest first: none has a type other than its own, the first
`d` have it and exactly the first `b` have their storage. -/
structure EntryOk (typeOf : Site → τ) (ss : List Site) (d b : Nat) (L : List (CAVariable τ)) :
    Prop where
  sites : L.map (·.site) = ss
  types : ∀ v ∈ L, v.datatype = none ∨ v.datatype = some (typeOf v.site)
  typed : ∀ i (h : i < L.length), i < d → L[i].datatype = some (typeOf L[i].site)
  stored : ∀ i (h : i < L.length), i < b → L[i].llvmValue = some L[i].site
  fresh : ∀ i (h : i < L.length), b ≤ i → L[i].llvmValue = none

/-- **The invariant**: every entry has been turned `k` times. -/
structure Tracks (typeOf : Site → τ) (F : ScopeId → Name → List Site) (k d b : Count)
    (t : Tables τ) : Prop where
  absent : ∀ s x, t s x = none → F s x = []
  entry : ∀ s x r, t s x = some r →
    ∃ L, r.Turned L (k s x) ∧ EntryOk typeOf (F s x) (d s x) (b s x) L

variable {typeOf : Site → τ} {F : ScopeId → Name → List Site} {k k' d d' b b' c : Count}

theorem EntryOk.length {ss : List Site} {d b : Nat} {L : List (CAVariable τ)}
    (h : EntryOk typeOf ss d b L) : L.length = ss.length := by simp [← h.sites]

theorem Tracks.isSome {t : Tables τ} (h : Tracks typeOf F k d b t) (s : ScopeId) (x : Name) :
    (t s x).isSome ↔ F s x ≠ [] := by
  cases ht : t s x with
  | none => simp [h.absent s x ht]
  | some r =>
      obtain ⟨L, hL, ok⟩ := h.entry s x r ht
      have hne := hL.ne_nil
      simp only [Option.isSome_some, true_iff]
      rw [← ok.sites]
      simpa using hne

/-- An operation on one entry changes the numbers there only. -/
theorem Tracks.modifyEntry {w : Walk τ} {s : ScopeId} {x : Name}
    {f : CAVariableShielding τ → CAVariableShielding τ} (h : Tracks typeOf F k d b w.tables)
    (hother : ∀ s' x', ¬(s' = s ∧ x' = x) →
      k' s' x' = k s' x' ∧ d' s' x' = d s' x' ∧ b' s' x' = b s' x')
    (hf : ∀ r L, r.Turned L (k s x) → EntryOk typeOf (F s x) (d s x) (b s x) L →
      ∃ L', (f r).Turned L' (k' s x) ∧ EntryOk typeOf (F s x) (d' s x) (b' s x) L') :
    Tracks typeOf F k' d' b' (w.modifyEntry s x f).tables := by
  unfold Walk.modifyEntry
  cases ht : w.tables s x with
  | none =>
      refine ⟨h.absent, ?_⟩
      intro s' x' r hr
      have hne : ¬(s' = s ∧ x' = x) := by
        rintro ⟨rfl, rfl⟩
        rw [ht] at hr
        cases hr
      obtain ⟨hk, hd, hb⟩ := hother s' x' hne
      rw [hk, hd, hb]
      exact h.entry s' x' r hr
  | some r₀ =>
      refine ⟨?_, ?_⟩
      · intro s' x' hn
        simp only [Tables.set] at hn
        split at hn
        · cases hn
        · exact h.absent s' x' hn
      · intro s' x' r hr
        simp only [Tables.set] at hr
        split at hr
        · rename_i heq
          obtain ⟨rfl, rfl⟩ := heq
          cases hr
          obtain ⟨L, hL, ok⟩ := h.entry s' x' r₀ ht
          exact hf r₀ L hL ok
        · rename_i hne
          obtain ⟨hk, hd, hb⟩ := hother s' x' hne
          rw [hk, hd, hb]
          exact h.entry s' x' r hr

@[simp] theorem Walk.modifyEntry_log (w : Walk τ) (s : ScopeId) (x : Name)
    (f : CAVariableShielding τ → CAVariableShielding τ) : (w.modifyEntry s x f).log = w.log := by
  unfold Walk.modifyEntry
  split <;> rfl

/-! ### Turning -/

/-- A turn forward of the names `xs`. -/
theorem Tracks.forwards {s : ScopeId} (xs : List Name) (hx : xs.Nodup) {N : Finset Name}
    (hN : ∀ x ∈ xs, x ∉ N) {w : Walk τ} (h : Tracks typeOf F (up s N c) d b w.tables) :
    Tracks typeOf F (up s (N ∪ xs.toFinset) c) d b
      (xs.foldl (fun w x => w.modifyEntry s x (varshieldingRotateVariable false)) w).tables := by
  induction xs generalizing N w with
  | nil => simpa using h
  | cons x xs ih =>
      obtain ⟨hxs, hnd⟩ := List.nodup_cons.mp hx
      have hxN : x ∉ N := hN x (by simp)
      have step : Tracks typeOf F (up s (insert x N) c) d b
          (w.modifyEntry s x (varshieldingRotateVariable false)).tables := by
        refine h.modifyEntry ?_ ?_
        · intro s' x' hne
          exact ⟨up_congr c (fun y hy => by simp [hy]) hne, rfl, rfl⟩
        · intro r L hL ok
          rw [up_of_not_mem hxN] at hL
          rw [up_of_mem (Finset.mem_insert_self x N)]
          exact ⟨L, hL.forward, ok⟩
      have hset : N ∪ (x :: xs).toFinset = insert x N ∪ xs.toFinset := by
        ext y
        simp only [Finset.mem_union, List.toFinset_cons, Finset.mem_insert, List.mem_toFinset]
        tauto
      rw [List.foldl_cons, hset]
      refine ih hnd ?_ step
      intro y hy
      rw [Finset.mem_insert, not_or]
      exact ⟨fun e => hxs (e ▸ hy), hN y (by simp [hy])⟩

/-- A turn back of the names `xs`. -/
theorem Tracks.backs {s : ScopeId} (xs : List Name) (hx : xs.Nodup) {w : Walk τ}
    (h : Tracks typeOf F (up s xs.toFinset c) d b w.tables) :
    Tracks typeOf F c d b
      (xs.foldl (fun w x => w.modifyEntry s x (varshieldingRotateVariable true)) w).tables := by
  induction xs generalizing w with
  | nil => simpa using h
  | cons x xs ih =>
      obtain ⟨hxs, hnd⟩ := List.nodup_cons.mp hx
      rw [List.foldl_cons]
      refine ih hnd (h.modifyEntry ?_ ?_)
      · intro s' x' hne
        exact ⟨up_congr c (fun y hy => by simp [hy]) hne, rfl, rfl⟩
      · intro r L hL ok
        rw [up_of_mem (by simp)] at hL
        rw [up_of_not_mem (by simpa using hxs)]
        exact ⟨L, hL.back, ok⟩

variable {cap : CAPattern τ} {s : ScopeId}

theorem Tracks.rotate_forward (hcap : cap.names.Nodup) {w : Walk τ}
    (h : Tracks typeOf F c d b w.tables) :
    Tracks typeOf F (up s cap.names.toFinset c) d b
      (varshieldingRotateCapattern cap s false w).tables := by
  have h' := Tracks.forwards (s := s) (c := c) (N := ∅) cap.names hcap (by simp) (by simpa using h)
  simpa [varshieldingRotateCapattern] using h'

theorem Tracks.rotate_back (hcap : cap.names.Nodup) {w : Walk τ}
    (h : Tracks typeOf F (up s cap.names.toFinset c) d b w.tables) :
    Tracks typeOf F c d b (varshieldingRotateCapattern cap s true w).tables :=
  h.backs cap.names hcap

theorem foldl_modifyEntry_log {f : CAVariableShielding τ → CAVariableShielding τ}
    (s : ScopeId) (xs : List Name) (w : Walk τ) :
    (xs.foldl (fun w x => w.modifyEntry s x f) w).log = w.log := by
  induction xs generalizing w with
  | nil => rfl
  | cons x xs ih => rw [List.foldl_cons, ih, Walk.modifyEntry_log]

@[simp] theorem rotate_log (cap : CAPattern τ) (s : ScopeId) (isBack : Bool) (w : Walk τ) :
    (varshieldingRotateCapattern cap s isBack w).log = w.log :=
  foldl_modifyEntry_log s cap.names w

/-! ### Types and storage of the bindings being visited

In a let on the names `N` the entries of `N` are one turn ahead; `T` are the names that have
their types and `B` those that have their storage. -/

/-- The bindings about to be visited exist. -/
def Fits (F : ScopeId → Name → List Site) (s : ScopeId) (N : Finset Name) (c : Count) : Prop :=
  ∀ x ∈ N, c s x < (F s x).length

theorem EntryOk.set_typed {ss : List Site} {j b : Nat} {L : List (CAVariable τ)} {d : Nat}
    (h : EntryOk typeOf ss d b L) (hj : j < L.length) (hd : j ≤ d) :
    EntryOk typeOf ss (max d (j + 1)) b
      (L.set j { L[j] with datatype := some (typeOf L[j].site) }) := by
  refine ⟨?_, ?_, ?_, ?_, ?_⟩
  · rw [← h.sites]
    apply List.ext_getElem <;> simp [List.getElem_set]
    rintro i hi rfl
    rfl
  · intro v hv
    rcases List.mem_or_eq_of_mem_set hv with hv | rfl
    · exact h.types v hv
    · exact .inr rfl
  · intro i hi hlt
    rw [List.length_set] at hi
    by_cases hij : j = i
    · subst hij
      simp
    · simpa [List.getElem_set, hij] using h.typed i hi (by omega)
  · intro i hi hlt
    rw [List.length_set] at hi
    by_cases hij : j = i
    · subst hij
      simpa using h.stored j hj hlt
    · simpa [List.getElem_set, hij] using h.stored i hi hlt
  · intro i hi hle
    rw [List.length_set] at hi
    by_cases hij : j = i
    · subst hij
      simpa using h.fresh j hj hle
    · simpa [List.getElem_set, hij] using h.fresh i hi hle

theorem EntryOk.set_stored {ss : List Site} {j d : Nat} {L : List (CAVariable τ)}
    (h : EntryOk typeOf ss d j L) (hj : j < L.length) :
    EntryOk typeOf ss d (j + 1) (L.set j { L[j] with llvmValue := some L[j].site }) := by
  refine ⟨?_, ?_, ?_, ?_, ?_⟩
  · rw [← h.sites]
    apply List.ext_getElem <;> simp [List.getElem_set]
    rintro i hi rfl
    rfl
  · intro v hv
    rcases List.mem_or_eq_of_mem_set hv with hv | rfl
    · exact h.types v hv
    · exact h.types L[j] (List.getElem_mem hj)
  · intro i hi hlt
    rw [List.length_set] at hi
    by_cases hij : j = i
    · subst hij
      simpa using h.typed j hj hlt
    · simpa [List.getElem_set, hij] using h.typed i hi hlt
  · intro i hi hlt
    rw [List.length_set] at hi
    by_cases hij : j = i
    · subst hij
      simp
    · simpa [List.getElem_set, hij] using h.stored i hi (by omega)
  · intro i hi hle
    rw [List.length_set] at hi
    have hij : j ≠ i := by omega
    simpa [List.getElem_set, hij] using h.fresh i hi (by omega)

/-- A variable found with a type has its own. -/
theorem EntryOk.typed_succ {ss : List Site} {j b : Nat} {L : List (CAVariable τ)}
    (h : EntryOk typeOf ss j b L) (hj : j < L.length) (hs : L[j].datatype.isSome) :
    EntryOk typeOf ss (j + 1) b L := by
  refine ⟨h.sites, h.types, ?_, h.stored, h.fresh⟩
  intro i hi hlt
  rcases Nat.lt_succ_iff_lt_or_eq.mp hlt with hij | rfl
  · exact h.typed i hi hij
  · rcases h.types L[i] (List.getElem_mem hi) with hnone | hsome
    · rw [hnone] at hs
      cases hs
    · exact hsome

/-- Fewer types may be asked for. -/
theorem Tracks.fewer {t : Tables τ} (h : Tracks typeOf F k d b t) (hd : ∀ s x, d' s x ≤ d s x) :
    Tracks typeOf F k d' b t := by
  refine ⟨h.absent, ?_⟩
  intro s x r hr
  obtain ⟨L, hL, ok⟩ := h.entry s x r hr
  exact ⟨L, hL, ok.sites, ok.types, fun i hi hlt => ok.typed i hi (hlt.trans_le (hd s x)),
    ok.stored, ok.fresh⟩

/-- The variable being visited is found with a type. -/
theorem Tracks.typed {N T : Finset Name} {x : Name} {t : Tables τ} {r : CAVariableShielding τ}
    (hx : x ∈ N) (hxT : x ∉ T) (hfit : Fits F s N c)
    (h : Tracks typeOf F (up s N c) (up s T c) b t) (hr : t s x = some r)
    (hs : r.current.datatype.isSome) :
    Tracks typeOf F (up s N c) (up s (insert x T) c) b t := by
  refine ⟨h.absent, ?_⟩
  intro s' x' r' hr'
  obtain ⟨L, hL, ok⟩ := h.entry s' x' r' hr'
  by_cases hsx : s' = s ∧ x' = x
  · obtain ⟨rfl, rfl⟩ := hsx
    obtain rfl : r' = r := Option.some.inj (hr'.symm.trans hr)
    have hj : c s' x' < L.length := by
      rw [ok.length]
      exact hfit x' hx
    rw [up_of_mem (Finset.mem_insert_self x' T)]
    rw [up_of_not_mem hxT] at ok
    have hcur := hL
    rw [up_of_mem hx] at hcur
    rw [hcur.current hj] at hs
    exact ⟨L, hL, ok.typed_succ hj hs⟩
  · refine ⟨L, hL, ?_⟩
    rwa [up_congr (N := insert x T) (M := T) c (fun y hy => by simp [hy]) hsx]

theorem Tracks.register {N T : Finset Name} {x : Name} {w : Walk τ} (hx : x ∈ N)
    (hfit : Fits F s N c) (h : Tracks typeOf F (up s N c) (up s T c) b w.tables) :
    Tracks typeOf F (up s N c) (up s (insert x T) c) b
      (registerVariableCatype typeOf s w x).tables := by
  refine h.modifyEntry ?_ ?_
  · intro s' x' hne
    exact ⟨rfl, up_congr c (fun y hy => by simp [hy]) hne, rfl⟩
  · intro r L hL ok
    rw [up_of_mem hx] at hL ⊢
    rw [up_of_mem (Finset.mem_insert_self x T)]
    have hj : c s x < L.length := by rw [ok.length]; exact hfit x hx
    refine ⟨_, hL.modify hj _, ?_⟩
    have hset := ok.set_typed hj (le_up s T c s x)
    have hmax : max (up s T c s x) (c s x + 1) = c s x + 1 := by
      unfold up
      split <;> omega
    rwa [hmax] at hset

theorem Tracks.registers {N T : Finset Name} (xs : List Name) {w : Walk τ}
    (hx : ∀ x ∈ xs, x ∈ N) (hfit : Fits F s N c)
    (h : Tracks typeOf F (up s N c) (up s T c) b w.tables) :
    Tracks typeOf F (up s N c) (up s (T ∪ xs.toFinset) c) b
      (xs.foldl (registerVariableCatype typeOf s) w).tables := by
  induction xs generalizing T w with
  | nil => simpa using h
  | cons x xs ih =>
      have step := h.register (hx x (by simp)) hfit
      have hset : T ∪ (x :: xs).toFinset = insert x T ∪ xs.toFinset := by
        ext y
        simp only [Finset.mem_union, List.toFinset_cons, Finset.mem_insert, List.mem_toFinset]
        tauto
      rw [List.foldl_cons, hset]
      exact ih (fun y hy => hx y (by simp [hy])) step

@[simp] theorem registers_log (s : ScopeId) (xs : List Name) (w : Walk τ) :
    (xs.foldl (registerVariableCatype typeOf s) w).log = w.log := by
  induction xs generalizing w with
  | nil => rfl
  | cons x xs ih =>
      rw [List.foldl_cons, ih]
      exact Walk.modifyEntry_log ..

theorem Tracks.store {N B : Finset Name} {x : Name} {w : Walk τ} (hx : x ∈ N) (hxB : x ∉ B)
    (hfit : Fits F s N c) (h : Tracks typeOf F (up s N c) d (up s B c) w.tables) :
    Tracks typeOf F (up s N c) d (up s (insert x B) c) (makeStorage s w x).tables := by
  refine h.modifyEntry ?_ ?_
  · intro s' x' hne
    exact ⟨rfl, rfl, up_congr c (fun y hy => by simp [hy]) hne⟩
  · intro r L hL ok
    rw [up_of_mem hx] at hL ⊢
    rw [up_of_not_mem hxB] at ok
    rw [up_of_mem (Finset.mem_insert_self x B)]
    have hj : c s x < L.length := by rw [ok.length]; exact hfit x hx
    exact ⟨_, hL.modify hj _, ok.set_stored hj⟩

end CaLang.Shielding

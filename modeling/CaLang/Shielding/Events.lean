import CaLang.Shielding.Tracking

/-! # The events of a pass

`visited` counts the bindings of each name the events tell of.  `LogSound Q` asks `Q` of every
use that is read, and of the tables between two statements that every entry stands where that
count says.  Inside one let nothing but reads of its initialiser and bindings of its names
happens (`walkLetbind_outcome`).
-/

namespace CaLang.Shielding

variable {τ : Type}

/-- How many bindings of each name have been visited. -/
def visited : List (Event τ) → Count
  | [], _, _ => 0
  | .bind s x :: l, s', x' => if s' = s ∧ x' = x then visited l s' x' + 1 else visited l s' x'
  | .read _ _ :: l, s', x' => visited l s' x'
  | .point _ :: l, s', x' => visited l s' x'

/-- The tables stand where the events say. -/
def AtRest (typeOf : Site → τ) (F : ScopeId → Name → List Site) (l : List (Event τ))
    (t : Tables τ) : Prop :=
  Tracks typeOf F (visited l) (visited l) (visited l) t

/-- Every read satisfies `Q`, and between statements the tables are at rest. -/
def LogSound (typeOf : Site → τ) (F : ScopeId → Name → List Site)
    (Q : Nat → CAVariable τ → Prop) : List (Event τ) → Prop
  | [] => True
  | .read n v :: l => Q n v ∧ LogSound typeOf F Q l
  | .bind _ _ :: l => LogSound typeOf F Q l
  | .point t :: l => AtRest typeOf F l t ∧ LogSound typeOf F Q l

/-- The pass has read the node. -/
def HasRead (l : List (Event τ)) (n : Nat) : Prop := ∃ v, Event.read n v ∈ l

variable {typeOf : Site → τ} {F : ScopeId → Name → List Site} {Q : Nat → CAVariable τ → Prop}
  {k d c : Count}

theorem LogSound.read {l : List (Event τ)} (h : LogSound typeOf F Q l) {n : Nat}
    {v : CAVariable τ} (hm : Event.read n v ∈ l) : Q n v := by
  induction l with
  | nil => cases hm
  | cons e l ih =>
      cases e with
      | read n' v' =>
          rcases List.mem_cons.mp hm with he | hm
          · cases he
            exact h.1
          · exact ih h.2 hm
      | bind s x => exact ih h (by simpa using hm)
      | point t => exact ih h.2 (by simpa using hm)

theorem LogSound.point {l pre post : List (Event τ)} {t : Tables τ}
    (h : LogSound typeOf F Q l) (hl : l = post ++ .point t :: pre) : AtRest typeOf F pre t := by
  subst hl
  induction post with
  | nil => exact h.1
  | cons e post ih =>
      cases e with
      | read n v => exact ih h.2
      | bind s x => exact ih h
      | point t => exact ih h.2

/-! ### Reading -/

/-- What the entry `e` designates when `c` bindings have been visited: the last of them, with its
type and storage; before the first, a variable without storage. -/
def Designates (typeOf : Site → τ) (F : ScopeId → Name → List Site) (c : Count) (e : STEntry)
    (v : CAVariable τ) : Prop :=
  (∀ i (h : i < (F e.scope e.name).length), c e.scope e.name = i + 1 →
      v = ⟨(F e.scope e.name)[i], some (typeOf (F e.scope e.name)[i]),
        some (F e.scope e.name)[i]⟩) ∧
    (c e.scope e.name = 0 → v.llvmValue = none) ∧ v.site ∈ F e.scope e.name

theorem Tracks.designates {t : Tables τ} (h : Tracks typeOf F c d c t)
    (hd : ∀ s x, c s x ≤ d s x) (hc : ∀ s x, c s x ≤ (F s x).length) {e : STEntry}
    {r : CAVariableShielding τ} (hr : t e.scope e.name = some r) :
    Designates typeOf F c e r.current := by
  obtain ⟨L, hL, ok⟩ := h.entry e.scope e.name r hr
  have hmem : ∀ i (hi : i < L.length), L[i].site ∈ F e.scope e.name := by
    intro i hi
    rw [← ok.sites]
    exact List.mem_map_of_mem (List.getElem_mem hi)
  have hpos : 0 < L.length := List.length_pos_iff.mpr hL.ne_nil
  have hle : c e.scope e.name ≤ L.length := by
    rw [ok.length]
    exact hc e.scope e.name
  have hde := hd e.scope e.name
  unfold Designates
  generalize c e.scope e.name = m at *
  cases m with
  | zero =>
      have hcur : r.current = L[L.length - 1] := by
        have hlast := hL.current_zero
        rw [List.getLast?_eq_getElem?, List.getElem?_eq_getElem (by omega)] at hlast
        exact (Option.some.inj hlast).symm
      rw [hcur]
      exact ⟨fun i _ hi => by omega, fun _ => ok.fresh _ (by omega) (Nat.zero_le _),
        hmem _ (by omega)⟩
  | succ j =>
      have hj : j < L.length := by omega
      have hsite : ∀ i (hi : i < (F e.scope e.name).length), j + 1 = i + 1 →
          (F e.scope e.name)[i] = L[j].site := by
        intro i hi hij
        obtain rfl : j = i := by omega
        simp [← ok.sites]
      rw [hL.current hj]
      refine ⟨?_, fun h0 => by omega, hmem j hj⟩
      intro i hi hij
      rw [hsite i hi hij, ← ok.typed j hj (by omega), ← ok.stored j hj (by omega)]

/-- The log grows soundly and tells of the nodes `ns`. -/
structure LogStep (typeOf : Site → τ) (F : ScopeId → Name → List Site)
    (Q : Nat → CAVariable τ → Prop) (ns : List Nat) (l l' : List (Event τ)) : Prop where
  sound : LogSound typeOf F Q l → LogSound typeOf F Q l'
  kept : ∀ n, HasRead l n → HasRead l' n
  new : ∀ n ∈ ns, HasRead l' n

theorem LogStep.refl (l : List (Event τ)) : LogStep typeOf F Q [] l l :=
  ⟨id, fun _ h => h, by simp⟩

theorem LogStep.trans {ns ms : List Nat} {l l₁ l₂ : List (Event τ)}
    (h₁ : LogStep typeOf F Q ns l l₁) (h₂ : LogStep typeOf F Q ms l₁ l₂) :
    LogStep typeOf F Q (ns ++ ms) l l₂ := by
  refine ⟨fun h => h₂.sound (h₁.sound h), fun n h => h₂.kept n (h₁.kept n h), ?_⟩
  intro n hn
  rcases List.mem_append.mp hn with hn | hn
  · exact h₂.kept n (h₁.new n hn)
  · exact h₂.new n hn

theorem LogStep.mono {ns ms : List Nat} {l l' : List (Event τ)}
    (h : LogStep typeOf F Q ns l l') (hs : ∀ n ∈ ms, n ∈ ns) : LogStep typeOf F Q ms l l' :=
  ⟨h.sound, h.kept, fun n hn => h.new n (hs n hn)⟩

/-- A use may be read when its entry exists and what the entry designates is what `Q` asks. -/
def Readable (typeOf : Site → τ) (F : ScopeId → Name → List Site)
    (Q : Nat → CAVariable τ → Prop) (c : Count) (n : Nat × STEntry) : Prop :=
  F n.2.scope n.2.name ≠ [] ∧ ∀ v, Designates typeOf F c n.2 v → Q n.1 v

@[simp] theorem Walk.read_tables (w : Walk τ) (n : Nat × STEntry) :
    (w.read n).tables = w.tables := by
  unfold Walk.read
  split <;> rfl

@[simp] theorem Walk.read_visited (w : Walk τ) (n : Nat × STEntry) :
    visited (w.read n).log = visited w.log := by
  unfold Walk.read
  split <;> rfl

@[simp] theorem walkExpr_tables (e : Expr STEntry) (w : Walk τ) :
    (walkExpr e w).tables = w.tables := by
  unfold walkExpr
  generalize e.ids = ns
  induction ns generalizing w with
  | nil => rfl
  | cons n ns ih => rw [List.foldl_cons, ih, Walk.read_tables]

@[simp] theorem walkExpr_visited (e : Expr STEntry) (w : Walk τ) :
    visited (walkExpr e w).log = visited w.log := by
  unfold walkExpr
  generalize e.ids = ns
  induction ns generalizing w with
  | nil => rfl
  | cons n ns ih => rw [List.foldl_cons, ih, Walk.read_visited]

theorem Walk.read_step {w : Walk τ} (h : Tracks typeOf F c d c w.tables)
    (hd : ∀ s x, c s x ≤ d s x) (hc : ∀ s x, c s x ≤ (F s x).length) {n : Nat × STEntry}
    (hn : Readable typeOf F Q c n) : LogStep typeOf F Q [n.1] w.log (w.read n).log := by
  obtain ⟨r, hr⟩ := Option.isSome_iff_exists.mp ((h.isSome n.2.scope n.2.name).mpr hn.1)
  have hread : w.read n = { w with log := .read n.1 r.current :: w.log } := by
    simp [Walk.read, hr]
  rw [hread]
  refine ⟨?_, ?_, ?_⟩
  · intro hs
    exact ⟨hn.2 _ (h.designates hd hc hr), hs⟩
  · rintro m ⟨v, hv⟩
    exact ⟨v, List.mem_cons_of_mem _ hv⟩
  · intro m hm
    obtain rfl := List.mem_singleton.mp hm
    exact ⟨r.current, List.mem_cons_self ..⟩

/-- Looking at an expression reads its uses. -/
theorem walkExpr_step (e : Expr STEntry) {w : Walk τ} (h : Tracks typeOf F c d c w.tables)
    (hd : ∀ s x, c s x ≤ d s x) (hc : ∀ s x, c s x ≤ (F s x).length)
    (hn : ∀ n ∈ e.ids, Readable typeOf F Q c n) :
    LogStep typeOf F Q (e.ids.map Prod.fst) w.log (walkExpr e w).log := by
  unfold walkExpr
  generalize e.ids = ns at hn
  induction ns generalizing w with
  | nil => exact .refl _
  | cons n ns ih =>
      have h₁ := Walk.read_step h hd hc (hn n (by simp))
      have h₂ := ih (w := w.read n) (by rw [Walk.read_tables]; exact h)
        (fun m hm => hn m (by simp [hm]))
      exact h₁.trans h₂

end CaLang.Shielding

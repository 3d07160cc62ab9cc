import CaLang.Params.Reads

/-! # When the parameter is what is read

An entry of a function that is not being walked is at rest: the last let of the name is current,
and a turn forward designates the parameter.  **While the function is walked** the entry is turned
to the parameter and then to one let after the other, so a turn forward designates the next let,
until the last one is passed.  `Program.direct` is the condition this gives: an argument is read
rightly iff the callee is not walked or has passed all lets of the name, and what is read without
a turn is right iff no let of the name stands between.

The induction over the text carries `TablesOk`: each entry is its list turned by as many steps as
lets have been passed.  A function is not walked again inside itself, since its tree would contain
itself.
-/

namespace CaLang.Params

open CaLang.Shielding (Name CAVariable CAVariableShielding varshieldingRotateVariable)

variable {τ : Type}

/-- The functions being walked, each with the names of its lets passed so far. -/
abbrev Active := FnId → Option (List Name)

namespace Active

def pass (own : Option FnId) (names : List Name) (act : Active) : Active :=
  match own with
  | none => act
  | some f => Function.update act f ((act f).map (· ++ names))

def begin (f : FnId) (act : Active) : Active := Function.update act f (some [])

/-- The turns an entry has made. -/
def turns (act : Active) (f : FnId) (x : Name) : Nat :=
  match act f with
  | none => 0
  | some passed => passed.count x + 1

variable {act : Active} {f g : FnId} {passed : List Name} {x : Name}

theorem turns_none (h : act f = none) : act.turns f x = 0 := by
  unfold turns
  rw [h]

theorem turns_some (h : act f = some passed) : act.turns f x = passed.count x + 1 := by
  unfold turns
  rw [h]

theorem turns_congr {act' : Active} (h : act f = act' f) : act.turns f x = act'.turns f x := by
  unfold turns
  rw [h]

theorem pass_self {names : List Name} (h : act f = some passed) :
    act.pass (some f) names f = some (passed ++ names) :=
  (Function.update_self _ _ _).trans (congrArg (Option.map _) h)

theorem pass_ne {names : List Name} (h : g ≠ f) : act.pass (some f) names g = act g :=
  Function.update_of_ne h _ _

theorem pass_pass (own : Option FnId) (names names' : List Name) (act : Active) :
    (act.pass own names).pass own names' = act.pass own (names ++ names') := by
  cases own with
  | none => rfl
  | some f =>
      unfold pass
      simp only [Function.update_self, Function.update_idem, Option.map_map]
      congr 2
      funext passed
      exact List.append_assoc _ _ _

theorem begin_self : act.begin f f = some [] := Function.update_self _ _ _

theorem begin_ne (h : g ≠ f) : act.begin f g = act g := Function.update_of_ne h _ _

end Active

/-! ### The condition -/

section
variable (p : Program τ)

/-- The function is not walked, or has passed all lets of the name. -/
def passedAll (act : Active) (f : FnId) (x : Name) : Bool :=
  match act f with
  | none => true
  | some passed => passed.count x == (p.letNames f).count x

/-- The function is not walked and has no let of the name, or has passed none. -/
def untouched (act : Active) (f : FnId) (x : Name) : Bool :=
  match act f with
  | none => !(p.letNames f).contains x
  | some passed => !passed.contains x

def Call.direct (act : Active) (c : Call) : Bool :=
  match p.params c.callee with
  | [] => true
  | x :: xs =>
      (if c.method then untouched p act c.callee x else passedAll p act c.callee x) &&
        xs.all (passedAll p act c.callee)

def compareDirect (act : Active) (trait impl : FnId) : Bool :=
  if (p.params trait).length = (p.params impl).length then
    ((p.params trait).zip (p.params impl)).all fun (x, y) =>
      untouched p act trait x && untouched p act impl y
  else true

/-- The condition of the first pass, in which no function is walked. -/
def Body.declareDirect : Body τ → Bool
  | .nil => true
  | .letbind _ _ _ rest => rest.declareDirect
  | .expr _ rest => rest.declareDirect
  | .block body rest => body.declareDirect && rest.declareDirect
  | .fnDefine _ _ body rest => body.declareDirect && rest.declareDirect
  | .fnDecl _ _ rest => rest.declareDirect
  | .traitFn _ _ _ rest => rest.declareDirect
  | .compare trait impl rest => compareDirect p (fun _ => none) trait impl && rest.declareDirect

/-- The condition of the second pass. -/
def Body.direct : Body τ → Option FnId → Active → Bool
  | .nil, _, _ => true
  | .letbind _ names init rest, own, act =>
      init.all (Call.direct p act) && rest.direct own (act.pass own (names.map Prod.fst))
  | .expr calls rest, own, act => calls.all (Call.direct p act) && rest.direct own act
  | .block body rest, own, act => body.direct none act && rest.direct own act
  | .fnDefine fn _ body rest, own, act =>
      body.direct (some fn) (act.begin fn) && rest.direct own act
  | .fnDecl _ _ rest, own, act => rest.direct own act
  | .traitFn _ _ _ rest, own, act => rest.direct own act
  | .compare trait impl rest, own, act => compareDirect p act trait impl && rest.direct own act

end

/-- **The condition**: no parameter of a compared prototype is shadowed in its function's own
block, and no call reads a parameter while lets of it are still to come, or, for the value of a
method call, once there is one. -/
def Program.direct (p : Program τ) : Bool :=
  p.text.declareDirect p && p.text.direct p none fun _ => none

/-! ### The lists the entries are made of -/

variable {p : Program τ} {f : FnId} {x : Name} {v : CAVariable τ}

theorem Program.length_letVars (p : Program τ) (f : FnId) (x : Name) :
    (p.letVars f x).length = (p.letNames f).count x := by
  unfold letVars letNames
  rw [List.length_map, List.count_eq_length_filter, List.filter_map, List.length_map]
  rfl

theorem Program.paramVar_isSome (hx : x ∈ p.params f) : ∃ v, p.paramVar f x = some v := by
  unfold params at hx
  unfold paramVar paramType
  cases hn : p.node f with
  | none => rw [hn] at hx; cases hx
  | some n =>
      rw [hn] at hx
      obtain ⟨⟨y, t⟩, hy, rfl⟩ := List.mem_map.mp hx
      obtain ⟨t', ht⟩ : ∃ t', n.params.lookup y = some t' :=
        Option.isSome_iff_exists.mp (List.lookup_isSome_iff.mpr ⟨_, hy, beq_self_eq_true _⟩)
      exact ⟨_, congrArg (Option.map _) ht⟩

theorem Program.mem_params (hv : p.paramVar f x = some v) : x ∈ p.params f := by
  obtain ⟨t, ht, -⟩ := Option.map_eq_some_iff.mp hv
  unfold paramType at ht
  unfold params
  cases hn : p.node f with
  | none => rw [hn] at ht; cases ht
  | some n =>
      rw [hn] at ht
      obtain ⟨l₁, l₂, he, -⟩ := List.lookup_eq_some_iff.mp ht
      refine List.mem_map.mpr ⟨(x, t), ?_, rfl⟩
      rw [Option.elim_some, he]
      exact List.mem_append_right l₁ List.mem_cons_self

/-- The variable of a let is not that of a parameter. -/
theorem Program.paramVar_not_mem (hv : p.paramVar f x = some v) : v ∉ p.letVars f x := by
  intro hm
  obtain ⟨l, -, hl⟩ := List.mem_map.mp hm
  obtain ⟨t, -, ht⟩ := Option.map_eq_some_iff.mp hv
  rw [← hl] at ht
  cases congrArg CAVariable.site ht

/-- Each entry is its list, turned as often as lets have been passed. -/
def TablesOk (p : Program τ) (act : Active) (t : Tables τ) : Prop :=
  ∀ f x v, p.paramVar f x = some v →
    ∃ r, t f x = some r ∧ r.Turned (v :: p.letVars f x) (act.turns f x)

/-- No function has passed more lets than it has. -/
def Active.Bounded (p : Program τ) (act : Active) : Prop :=
  ∀ f passed, act f = some passed → ∀ x, passed.count x ≤ (p.letNames f).count x

/-! ### What a read designates -/

section Reads

variable {act : Active} {t : Tables τ}

/-- Nothing after the first variable is the parameter. -/
theorem getElem_eq_paramVar (hv : p.paramVar f x = some v) {k : Nat}
    (hk : k < (v :: p.letVars f x).length) : (v :: p.letVars f x)[k] = v ↔ k = 0 := by
  cases k with
  | zero => simp
  | succ k =>
      refine iff_of_false (fun he => p.paramVar_not_mem hv ?_) (Nat.succ_ne_zero k)
      rw [← he]
      exact List.getElem_mem _

theorem TablesOk.rotated_eq (h : TablesOk p act t) (hb : act.Bounded p)
    (hv : p.paramVar f x = some v) :
    t.rotated f x = some v ↔ passedAll p act f x = true := by
  obtain ⟨r, hr, hturn⟩ := h f x v hv
  have hrot : t.rotated f x = some r.forward.current := by
    unfold Tables.rotated Tables.current Tables.turn
    rw [if_pos ⟨rfl, rfl⟩, hr]
    rfl
  have hlen : (v :: p.letVars f x).length = (p.letNames f).count x + 1 :=
    congrArg (· + 1) (p.length_letVars f x)
  rw [hrot, Option.some_inj]
  unfold passedAll
  unfold Active.turns at hturn
  cases hact : act f with
  | none =>
      rw [hact] at hturn
      rw [hturn.forward.current (Nat.zero_lt_succ _)]
      simp
  | some passed =>
      rw [hact] at hturn
      have hle := hb f passed hact x
      rcases Nat.eq_or_lt_of_le hle with he | hlt
      · -- all lets are passed, and the entry is at rest
        dsimp only at hturn
        rw [he, ← hlen] at hturn
        rw [hturn.full.forward.current (Nat.zero_lt_succ _)]
        simp [he]
      · rw [hturn.forward.current (hlen ▸ Nat.succ_lt_succ hlt),
          getElem_eq_paramVar hv (hlen ▸ Nat.succ_lt_succ hlt)]
        simp [hlt.ne]

theorem TablesOk.current_eq (h : TablesOk p act t) (hb : act.Bounded p)
    (hv : p.paramVar f x = some v) :
    t.current f x = some v ↔ untouched p act f x = true := by
  obtain ⟨r, hr, hturn⟩ := h f x v hv
  have hcur : t.current f x = some r.current := by
    unfold Tables.current
    rw [hr]
    rfl
  have hlen : (v :: p.letVars f x).length = (p.letNames f).count x + 1 :=
    congrArg (· + 1) (p.length_letVars f x)
  rw [hcur, Option.some_inj]
  unfold untouched
  unfold Active.turns at hturn
  cases hact : act f with
  | none =>
      rw [hact] at hturn
      have hlast := hturn.current_zero
      have hlets : (p.letNames f).contains x = false ↔ p.letVars f x = [] := by
        rw [← List.length_eq_zero_iff, p.length_letVars, List.count_eq_zero]
        simp
      rw [Bool.not_eq_true', hlets]
      rcases List.eq_nil_or_concat' (p.letVars f x) with hnil | ⟨l, w, hl⟩
      · rw [hnil] at hlast
        exact iff_of_true (Option.some.inj hlast).symm hnil
      · have hw : w ∈ p.letVars f x := hl ▸ List.mem_append_right _ List.mem_cons_self
        rw [hl, ← List.cons_append, List.getLast?_concat] at hlast
        have hne : r.current ≠ v := by
          rintro rfl
          exact p.paramVar_not_mem hv (Option.some.inj hlast ▸ hw)
        exact iff_of_false hne (fun he => List.ne_nil_of_mem hw he)
  | some passed =>
      rw [hact] at hturn
      have hk : passed.count x < (v :: p.letVars f x).length :=
        hlen ▸ Nat.lt_succ_of_le (hb f passed hact x)
      rw [hturn.current hk, getElem_eq_paramVar hv hk, List.count_eq_zero]
      simp

theorem TablesOk.read_rotated (h : TablesOk p act t) (hb : act.Bounded p) (hx : x ∈ p.params f)
    (kind : Kind) :
    (⟨kind, f, x, t.rotated f x⟩ : Read τ).Ok p ↔ passedAll p act f x = true := by
  obtain ⟨v, hv⟩ := Program.paramVar_isSome hx
  rw [← h.rotated_eq hb hv]
  unfold Read.Ok
  dsimp only
  rw [hv]
  exact and_iff_right_of_imp fun he => by rw [he]; rfl

theorem TablesOk.read_current (h : TablesOk p act t) (hb : act.Bounded p) (hx : x ∈ p.params f)
    (kind : Kind) :
    (⟨kind, f, x, t.current f x⟩ : Read τ).Ok p ↔ untouched p act f x = true := by
  obtain ⟨v, hv⟩ := Program.paramVar_isSome hx
  rw [← h.current_eq hb hv]
  unfold Read.Ok
  dsimp only
  rw [hv]
  exact and_iff_right_of_imp fun he => by rw [he]; rfl

theorem TablesOk.call_reads (h : TablesOk p act t) (hb : act.Bounded p) (c : Call) :
    (∀ r ∈ c.reads p t, r.Ok p) ↔ c.direct p act = true := by
  unfold Call.reads Call.direct
  cases hps : p.params c.callee with
  | nil => simp
  | cons x xs =>
      have hmem : ∀ y ∈ x :: xs, y ∈ p.params c.callee := fun y hy => hps ▸ hy
      rw [List.forall_mem_cons, List.forall_mem_map, Bool.and_eq_true, List.all_eq_true]
      refine and_congr ?_ (forall₂_congr fun y hy =>
        h.read_rotated hb (hmem y (List.mem_cons_of_mem x hy)) _)
      split
      · exact h.read_current hb (hmem x List.mem_cons_self) _
      · exact h.read_rotated hb (hmem x List.mem_cons_self) _

theorem TablesOk.calls_reads (h : TablesOk p act t) (hb : act.Bounded p) (cs : List Call) :
    (∀ r ∈ cs.flatMap (Call.reads p t), r.Ok p) ↔ cs.all (Call.direct p act) = true := by
  rw [List.forall_mem_flatMap, List.all_eq_true]
  exact forall₂_congr fun c _ => h.call_reads hb c

theorem TablesOk.compare_reads (h : TablesOk p act t) (hb : act.Bounded p) (trait impl : FnId) :
    (∀ r ∈ compareReads p t trait impl, r.Ok p) ↔ compareDirect p act trait impl = true := by
  unfold compareReads compareDirect
  split
  · rw [List.forall_mem_flatMap, List.all_eq_true]
    refine forall₂_congr fun ⟨x, y⟩ hxy => ?_
    obtain ⟨hx, hy⟩ := List.of_mem_zip hxy
    rw [List.forall_mem_cons, List.forall_mem_singleton, Bool.and_eq_true]
    exact and_congr (h.read_current hb hx _) (h.read_current hb hy _)
  · simp

end Reads

/-! ### What the walk does to the entries -/

section Walk

variable {act : Active} {t : Tables τ} {own : Option FnId}

/-- An entry is turned once for each time its name stands in the list. -/
theorem turnAll_apply (isBack : Bool) (g : FnId) (names : List Name) (t : Tables τ) (f : FnId)
    (x : Name) :
    t.turnAll isBack (some g) names f x =
      if f = g then (t f x).map (varshieldingRotateVariable isBack)^[names.count x] else t f x := by
  unfold Tables.turnAll
  dsimp only
  induction names generalizing t with
  | nil =>
      split
      · exact Option.map_id'.symm
      · rfl
  | cons y ys ih =>
      rw [List.foldl_cons, ih]
      unfold Tables.turn
      by_cases hf : f = g
      · by_cases hx : x = y
        · subst hx
          simp only [hf, true_and, if_true, List.count_cons_self, Option.map_map]
          rfl
        · simp only [hf, hx, and_false, if_true, if_false, List.count_cons_of_ne (Ne.symm hx)]
      · simp only [hf, false_and, if_false]

theorem letTables_eq (own : Option FnId) (names : List Name) (t : Tables τ) :
    letTables own names t = (t, t.turnAll false own names) := by
  have hback : (t.turnAll false own names).turnAll true own names = t := by
    cases own with
    | none => rfl
    | some g =>
        funext f x
        rw [turnAll_apply, turnAll_apply]
        split
        · have hinv : Function.LeftInverse
              (varshieldingRotateVariable (τ := τ) true) (varshieldingRotateVariable false) :=
            Ring.back_forward
          cases t f x with
          | none => rfl
          | some r => exact congrArg some (hinv.iterate _ r)
        · rfl
  unfold letTables
  rw [hback]

theorem Turned.iterate {r : CAVariableShielding τ} {l : List (CAVariable τ)} {k : Nat} (n : Nat)
    (h : r.Turned l k) : ((varshieldingRotateVariable false)^[n] r).Turned l (k + n) := by
  induction n generalizing r k with
  | zero => exact h
  | succ n ih =>
      rw [Function.iterate_succ_apply, Nat.add_succ, ← Nat.succ_add]
      exact ih h.forward

/-- Lets are passed. -/
theorem TablesOk.turnAll (h : TablesOk p act t) (names : List Name)
    (hown : ∀ f, own = some f → ∃ passed, act f = some passed) :
    TablesOk p (act.pass own names) (t.turnAll false own names) := by
  cases own with
  | none => exact h
  | some g =>
      obtain ⟨passed, hact⟩ := hown g rfl
      intro f x v hv
      obtain ⟨r, hr, hturn⟩ := h f x v hv
      rw [turnAll_apply]
      by_cases hf : f = g
      · subst hf
        rw [Active.turns_some hact] at hturn
        rw [if_pos rfl, hr, Active.turns_some (Active.pass_self hact), List.count_append,
          Nat.add_right_comm]
        exact ⟨_, rfl, Turned.iterate _ hturn⟩
      · rw [if_neg hf, Active.turns_congr (Active.pass_ne hf)]
        exact ⟨r, hr, hturn⟩

theorem initFnParamInfo_tables (f : FnId) (xs : List Name) (t : Tables τ) :
    (initFnParamInfo f xs t).2 = t.turnAll false (some f) xs := by
  induction xs generalizing t with
  | nil => rfl
  | cons x xs ih => exact ih _

/-- Each parameter is read after one turn. -/
theorem initFnParamInfo_reads (f : FnId) (xs : List Name) (t : Tables τ) (hnd : xs.Nodup) :
    ∀ r ∈ (initFnParamInfo f xs t).1, ∃ x ∈ xs, r = ⟨.init, f, x, t.rotated f x⟩ := by
  induction xs generalizing t with
  | nil => exact nofun
  | cons x xs ih =>
      obtain ⟨hx, hnd⟩ := List.nodup_cons.mp hnd
      intro r hr
      rcases List.mem_cons.mp hr with rfl | hr
      · exact ⟨x, List.mem_cons_self, rfl⟩
      · obtain ⟨y, hy, rfl⟩ := ih (t.turn false f x) hnd r hr
        refine ⟨y, List.mem_cons_of_mem x hy, ?_⟩
        have hne : y ≠ x := fun he => hx (he ▸ hy)
        have hsame : (t.turn false f x).rotated f y = t.rotated f y := by
          unfold Tables.rotated Tables.current Tables.turn
          simp [hne]
        rw [hsame]

/-- A function begins: its parameters are turned to. -/
theorem TablesOk.begin (h : TablesOk p act t) (hact : act f = none)
    (hnd : (p.params f).Nodup) :
    TablesOk p (act.begin f) (t.turnAll false (some f) (p.params f)) := by
  intro g x v hv
  obtain ⟨r, hr, hturn⟩ := h g x v hv
  rw [turnAll_apply]
  by_cases hg : g = f
  · subst hg
    rw [Active.turns_none hact] at hturn
    rw [if_pos rfl, hr, Active.turns_some Active.begin_self,
      List.count_eq_one_of_mem hnd (Program.mem_params hv)]
    exact ⟨_, rfl, hturn.forward⟩
  · rw [if_neg hg, Active.turns_congr (Active.begin_ne hg)]
    exact ⟨r, hr, hturn⟩

/-- A function ends: all its lets are passed. -/
theorem TablesOk.end_fn {act' : Active} {passed : List Name} (h : TablesOk p act' t)
    (hf : act' f = some passed) (hact : act f = none) (hne : ∀ g ≠ f, act' g = act g)
    (hall : ∀ x, passed.count x = (p.letNames f).count x) : TablesOk p act t := by
  intro g x v hv
  obtain ⟨r, hr, hturn⟩ := h g x v hv
  refine ⟨r, hr, ?_⟩
  by_cases hg : g = f
  · subst hg
    have hlen : (v :: p.letVars g x).length = passed.count x + 1 :=
      congrArg (· + 1) ((p.length_letVars g x).trans (hall x).symm)
    rw [Active.turns_some hf, ← hlen] at hturn
    rw [Active.turns_none hact]
    exact hturn.full
  · rw [Active.turns_congr (hne g hg)] at hturn
    exact hturn

end Walk

/-! ### The induction -/

/-- Where a text stands: in the table of `own`, inside of the functions `act`. -/
structure Walking (p : Program τ) (own : Option FnId) (act : Active) (b : Body τ) : Prop where
  bounded : act.Bounded p
  /-- The lets passed and those to come are all lets of the function. -/
  own : ∀ f, own = some f → ∃ passed, act f = some passed ∧
    ∀ x, passed.count x + (b.lets.map (·.2.1)).count x = (p.letNames f).count x
  /-- The text is part of every function being walked. -/
  size : ∀ f passed n, act f = some passed → p.node f = some n → sizeOf b ≤ sizeOf n.body
  nodes : ∀ n ∈ b.nodes, n ∈ p.text.nodes

theorem Program.node_of_mem {n : FnText τ} (hn : n ∈ p.text.nodes) : p.node n.fn = some n := by
  unfold node
  cases hf : p.text.nodes.find? (·.fn == n.fn) with
  | none =>
      have := List.find?_eq_none.mp hf n hn
      exact absurd (beq_self_eq_true n.fn) this
  | some n' =>
      have hfn : n'.fn = n.fn := by
        have := List.find?_some hf
        exact beq_iff_eq.mp this
      rw [p.coherent n' (List.mem_of_find?_eq_some hf) n hn hfn]

namespace Walking

variable {own : Option FnId} {act : Active} {b b' : Body τ} {names : List Name}

/-- The text goes on in the same table. -/
theorem rest (w : Walking p own act b) (hlets : b'.lets = b.lets) (hsize : sizeOf b' ≤ sizeOf b)
    (hnodes : ∀ n ∈ b'.nodes, n ∈ b.nodes) : Walking p own act b' where
  bounded := w.bounded
  own := hlets ▸ w.own
  size f passed n hf hn := hsize.trans (w.size f passed n hf hn)
  nodes n hn := w.nodes n (hnodes n hn)

/-- A text with a table of its own. -/
theorem inner (w : Walking p own act b) (hsize : sizeOf b' ≤ sizeOf b)
    (hnodes : ∀ n ∈ b'.nodes, n ∈ b.nodes) : Walking p none act b' where
  bounded := w.bounded
  own := nofun
  size f passed n hf hn := hsize.trans (w.size f passed n hf hn)
  nodes n hn := w.nodes n (hnodes n hn)

theorem active (w : Walking p own act b) :
    ∀ f, own = some f → ∃ passed, act f = some passed := fun f hf => by
  obtain ⟨passed, h, -⟩ := w.own f hf
  exact ⟨passed, h⟩

/-- A let is passed. -/
theorem letbind {id : Nat} {names : List (Name × Option τ)} {init : List Call}
    (w : Walking p own act (.letbind id names init b)) :
    Walking p own (act.pass own (names.map Prod.fst)) b := by
  cases own with
  | none =>
      exact w.inner (by simp) fun n hn => hn
  | some f =>
      obtain ⟨passed, hact, hcount⟩ := w.own f rfl
      have hcount' (x : Name) : (passed ++ names.map Prod.fst).count x +
          (b.lets.map (·.2.1)).count x = (p.letNames f).count x := by
        rw [← hcount x]
        simp only [Body.lets, List.map_append, List.map_map, List.count_append]
        exact Nat.add_assoc _ _ _
      refine ⟨?_, ?_, ?_, w.nodes⟩
      · intro g passed' hg x
        by_cases hgf : g = f
        · subst hgf
          rw [Active.pass_self hact] at hg
          cases hg
          exact Nat.le.intro (hcount' x)
        · rw [Active.pass_ne hgf] at hg
          exact w.bounded g passed' hg x
      · intro g hg
        cases hg
        exact ⟨_, Active.pass_self hact, hcount'⟩
      · intro g passed' n hg hn
        have hle : sizeOf b ≤ sizeOf (Body.letbind id names init b) := by simp
        by_cases hgf : g = f
        · subst hgf
          exact hle.trans (w.size g passed n hact hn)
        · rw [Active.pass_ne hgf] at hg
          exact hle.trans (w.size g passed' n hg hn)

/-- A function is not walked again inside itself. -/
theorem not_active {f : FnId} {params : List (Name × τ)} {body : Body τ}
    (w : Walking p own act (.fnDefine f params body b)) : act f = none := by
  cases hf : act f with
  | none => rfl
  | some passed =>
      have hn := Program.node_of_mem (w.nodes ⟨f, params, body⟩ List.mem_cons_self)
      have := w.size f passed _ hf hn
      simp at this
      omega

/-- The body of a function. -/
theorem fnDefine {f : FnId} {params : List (Name × τ)} {body : Body τ}
    (w : Walking p own act (.fnDefine f params body b)) :
    Walking p (some f) (act.begin f) body := by
  have hn := Program.node_of_mem (w.nodes ⟨f, params, body⟩ List.mem_cons_self)
  refine ⟨?_, ?_, ?_, fun n hn => w.nodes n (List.mem_cons_of_mem _ (List.mem_append_left _ hn))⟩
  · intro g passed hg x
    by_cases hgf : g = f
    · subst hgf
      rw [Active.begin_self] at hg
      cases hg
      exact Nat.zero_le _
    · rw [Active.begin_ne hgf] at hg
      exact w.bounded g passed hg x
  · intro g hg
    cases hg
    refine ⟨[], Active.begin_self, ?_⟩
    intro x
    unfold Program.letNames
    rw [hn]
    exact Nat.zero_add _
  · intro g passed n hg hgn
    by_cases hgf : g = f
    · subst hgf
      rw [hn] at hgn
      cases hgn
      exact le_rfl
    · rw [Active.begin_ne hgf] at hg
      have := w.size g passed n hg hgn
      simp at this
      omega

end Walking

theorem Program.params_of_mem {n : FnText τ} (hn : n ∈ p.text.nodes) :
    p.params n.fn = n.params.map Prod.fst := by
  unfold params
  rw [node_of_mem hn]
  rfl

/-- **The reads of a text** are those of the parameters iff it is direct, and its walk keeps the
entries. -/
theorem Body.reads_iff (b : Body τ) {own : Option FnId} {act : Active} {t : Tables τ}
    (h : TablesOk p act t) (w : Walking p own act b) :
    ((∀ r ∈ b.reads p own t, r.Ok p) ↔ b.direct p own act = true) ∧
      TablesOk p (act.pass own (b.lets.map (·.2.1))) (b.walk own t) := by
  induction b generalizing own act t with
  | nil =>
      refine ⟨iff_of_true (List.forall_mem_nil _) rfl, ?_⟩
      have := h.turnAll [] w.active
      cases own <;> exact this
  | letbind id names init rest ih =>
      obtain ⟨hr, ht⟩ := ih (h.turnAll _ w.active) w.letbind
      simp only [reads, direct, walk, letTables_eq, lets]
      refine ⟨?_, ?_⟩
      · rw [List.forall_mem_append, Bool.and_eq_true]
        exact and_congr (h.calls_reads w.bounded init) hr
      · rw [Active.pass_pass] at ht
        rw [List.map_append, List.map_map]
        exact ht
  | expr calls rest ih =>
      obtain ⟨hr, ht⟩ := ih h (w.rest rfl (by simp) fun n hn => hn)
      refine ⟨?_, ht⟩
      simp only [reads, direct]
      rw [List.forall_mem_append, Bool.and_eq_true]
      exact and_congr (h.calls_reads w.bounded calls) hr
  | block body rest ihb ihr =>
      obtain ⟨hb, htb⟩ := ihb h
        (w.inner (by simp; omega) fun n hn => List.mem_append_left _ hn)
      obtain ⟨hr, ht⟩ := ihr htb
        (w.rest rfl (by simp) fun n hn => List.mem_append_right _ hn)
      refine ⟨?_, ht⟩
      simp only [reads, direct]
      rw [List.forall_mem_append, Bool.and_eq_true]
      exact and_congr hb hr
  | fnDefine f params body rest ihb ihr =>
      have hmem := w.nodes ⟨f, params, body⟩ List.mem_cons_self
      have hparams : p.params f = params.map Prod.fst := Program.params_of_mem hmem
      have hnd : (p.params f).Nodup := hparams ▸ p.nodup _ hmem
      have hlets : p.letNames f = body.lets.map (·.2.1) := by
        unfold Program.letNames
        rw [Program.node_of_mem hmem]
        rfl
      have hact := w.not_active
      obtain ⟨hb, htb⟩ := ihb (h.begin hact hnd) w.fnDefine
      have hend : TablesOk p act (body.walk (some f) (t.turnAll false (some f) (p.params f))) :=
        htb.end_fn (Active.pass_self Active.begin_self) hact
          (fun g hg => (Active.pass_ne hg).trans (Active.begin_ne hg)) fun x => by rw [hlets]; rfl
      obtain ⟨hr, ht⟩ := ihr hend
        (w.rest rfl (by simp) fun n hn =>
          List.mem_cons_of_mem _ (List.mem_append_right _ hn))
      have hinit : ∀ r ∈ (initFnParamInfo f (params.map Prod.fst) t).1, r.Ok p := by
        intro r hr
        obtain ⟨x, hx, rfl⟩ := initFnParamInfo_reads f _ t (p.nodup _ hmem) r hr
        rw [h.read_rotated w.bounded (hparams ▸ hx)]
        unfold passedAll
        rw [hact]
      simp only [reads, direct, walk, initFnParamInfo_tables, ← hparams]
      refine ⟨?_, ht⟩
      rw [List.forall_mem_append, List.forall_mem_append, Bool.and_eq_true,
        and_iff_right (hparams ▸ hinit)]
      exact and_congr hb hr
  | fnDecl f params rest ih =>
      exact ih h (w.rest rfl (by simp) fun n hn => List.mem_cons_of_mem _ hn)
  | traitFn f params body rest ihb ihr =>
      exact ihr h (w.rest rfl (by simp) fun n hn =>
        List.mem_cons_of_mem _ (List.mem_append_right _ hn))
  | compare trait impl rest ih =>
      obtain ⟨hr, ht⟩ := ih h (w.rest rfl (by simp) fun n hn => hn)
      refine ⟨?_, ht⟩
      simp only [reads, direct]
      rw [List.forall_mem_append, Bool.and_eq_true]
      exact and_congr (h.compare_reads w.bounded trait impl) hr

/-! ### Whole files -/

theorem Program.tablesOk (p : Program τ) : TablesOk p (fun _ => none) p.tables := by
  intro f x v hv
  refine ⟨_, congrArg (Option.map _) hv, ?_⟩
  have hpush : ∀ (l : List (CAVariable τ)) (r : CAVariableShielding τ),
      (l.foldl Ring.push r).toList = r.toList ++ l := by
    intro l
    induction l with
    | nil => exact fun r => (List.append_nil _).symm
    | cons a l ih =>
        intro r
        rw [List.foldl_cons, ih, Ring.toList_push, List.append_assoc]
        rfl
  rw [Active.turns_none rfl, Ring.Turned, List.rotate_zero, hpush]
  rfl

theorem Program.bounded (p : Program τ) : Active.Bounded p fun _ => none := nofun

theorem Program.walking (p : Program τ) : Walking p none (fun _ => none) p.text :=
  ⟨p.bounded, nofun, nofun, fun _ hn => hn⟩

/-- The first pass, in which all entries are at rest. -/
theorem Body.declareReads_iff (b : Body τ) (hb : ∀ n ∈ b.nodes, n ∈ p.text.nodes) :
    (∀ r ∈ b.declareReads p p.tables, r.Ok p) ↔ b.declareDirect p = true := by
  have hdecl {f : FnId} {params : List (Name × τ)} {body : Body τ}
      (hn : (⟨f, params, body⟩ : FnText τ) ∈ p.text.nodes) :
      ∀ r ∈ params.map (fun x => (⟨.declare, f, x.1, p.tables.rotated f x.1⟩ : Read τ)),
        r.Ok p := by
    rw [List.forall_mem_map]
    intro x hx
    have hmem : x.1 ∈ p.params f := by
      rw [show p.params f = _ from Program.params_of_mem hn]
      exact List.mem_map_of_mem hx
    exact (p.tablesOk.read_rotated p.bounded hmem _).mpr rfl
  induction b with
  | nil => exact iff_of_true (List.forall_mem_nil _) rfl
  | letbind id names init rest ih => exact ih hb
  | expr calls rest ih => exact ih hb
  | block body rest ihb ihr =>
      obtain ⟨hbb, hbr⟩ := List.forall_mem_append.mp hb
      simp only [declareReads, declareDirect]
      rw [List.forall_mem_append, Bool.and_eq_true]
      exact and_congr (ihb hbb) (ihr hbr)
  | fnDefine f params body rest ihb ihr =>
      obtain ⟨hn, hb⟩ := List.forall_mem_cons.mp hb
      obtain ⟨hbb, hbr⟩ := List.forall_mem_append.mp hb
      simp only [declareReads, declareDirect]
      rw [List.forall_mem_append, List.forall_mem_append, Bool.and_eq_true,
        and_iff_right (hdecl hn)]
      exact and_congr (ihb hbb) (ihr hbr)
  | fnDecl f params rest ih =>
      obtain ⟨hn, hb⟩ := List.forall_mem_cons.mp hb
      simp only [declareReads, declareDirect]
      rw [List.forall_mem_append, and_iff_right (hdecl hn)]
      exact ih hb
  | traitFn f params body rest ihb ihr =>
      obtain ⟨-, hb⟩ := List.forall_mem_cons.mp hb
      exact ihr (List.forall_mem_append.mp hb).2
  | compare trait impl rest ih =>
      simp only [declareReads, declareDirect]
      rw [List.forall_mem_append, Bool.and_eq_true]
      exact and_congr (p.tablesOk.compare_reads p.bounded trait impl) (ih hb)

/-- All reads are those of the parameters iff the file is direct. -/
theorem Program.reads_iff (p : Program τ) :
    (∀ r ∈ p.reads, r.Ok p) ↔ p.direct = true := by
  unfold reads direct
  rw [List.forall_mem_append, Bool.and_eq_true, p.text.declareReads_iff fun _ hn => hn,
    (p.text.reads_iff p.tablesOk p.walking).1]

end CaLang.Params

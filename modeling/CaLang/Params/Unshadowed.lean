import CaLang.Params.Direct

/-! # The file without its shadowing lets

`Program.unshadowed` takes the names of the parameters out of the lets of each function.  Its reads
stand at the same places, and **none of them can go wrong**, so the reads of a file and of the file
without its shadowing lets are the same iff the file is direct.
-/

namespace CaLang.Params

open CaLang.Shielding (Name CAVariable)

variable {τ : Type} {p : Program τ}

/-- Take some names out of the lets, up to the functions inside. -/
def Body.unshadow : Body τ → List Name → Body τ
  | .nil, _ => .nil
  | .letbind id names init rest, ps =>
      .letbind id (names.filter fun n => !ps.contains n.1) init (rest.unshadow ps)
  | .expr calls rest, ps => .expr calls (rest.unshadow ps)
  | .block body rest, ps => .block (body.unshadow ps) (rest.unshadow ps)
  | .fnDefine fn params body rest, ps =>
      .fnDefine fn params (body.unshadow (params.map Prod.fst)) (rest.unshadow ps)
  | .fnDecl fn params rest, ps => .fnDecl fn params (rest.unshadow ps)
  | .traitFn fn params body rest, ps =>
      .traitFn fn params (body.unshadow (params.map Prod.fst)) (rest.unshadow ps)
  | .compare trait impl rest, ps => .compare trait impl (rest.unshadow ps)

def FnText.unshadow (n : FnText τ) : FnText τ :=
  { n with body := n.body.unshadow (n.params.map Prod.fst) }

theorem Body.nodes_unshadow (b : Body τ) (ps : List Name) :
    (b.unshadow ps).nodes = b.nodes.map FnText.unshadow := by
  induction b generalizing ps with
  | nil => rfl
  | letbind id names init rest ih => exact ih ps
  | expr calls rest ih => exact ih ps
  | block body rest ihb ihr =>
      simp only [unshadow, nodes, ihb, ihr, List.map_append]
  | fnDefine fn params body rest ihb ihr =>
      simp only [unshadow, nodes, ihb, ihr, List.map_append, List.map_cons, FnText.unshadow]
  | fnDecl fn params rest ih =>
      simp only [unshadow, nodes, ih, List.map_cons, FnText.unshadow]
  | traitFn fn params body rest ihb ihr =>
      simp only [unshadow, nodes, ihb, ihr, List.map_append, List.map_cons, FnText.unshadow]
  | compare trait impl rest ih => exact ih ps

theorem Body.not_mem_lets_unshadow (b : Body τ) {ps : List Name} {x : Name} (hx : x ∈ ps) :
    x ∉ (b.unshadow ps).lets.map (·.2.1) := by
  induction b with
  | nil => exact List.not_mem_nil
  | letbind id names init rest ih =>
      simp only [unshadow, lets, List.map_append, List.map_map, List.mem_append, not_or]
      refine ⟨?_, ih⟩
      intro hm
      obtain ⟨n, hn, rfl⟩ := List.mem_map.mp hm
      have hnot := (List.mem_filter.mp hn).2
      exact absurd (List.contains_iff_mem.mpr hx) (by simpa using hnot)
  | expr calls rest ih => exact ih
  | block body rest ihb ihr => exact ihr
  | fnDefine fn params body rest ihb ihr => exact ihr
  | fnDecl fn params rest ih => exact ih
  | traitFn fn params body rest ihb ihr => exact ihr
  | compare trait impl rest ih => exact ih

namespace Program

/-- The file without its shadowing lets. -/
def unshadowed (p : Program τ) : Program τ where
  text := p.text.unshadow []
  coherent a' ha' b' hb' hab := by
    rw [p.text.nodes_unshadow] at ha' hb'
    obtain ⟨a, ha, rfl⟩ := List.mem_map.mp ha'
    obtain ⟨b, hb, rfl⟩ := List.mem_map.mp hb'
    exact congrArg FnText.unshadow (p.coherent a ha b hb hab)
  nodup a' ha' := by
    rw [p.text.nodes_unshadow] at ha'
    obtain ⟨a, ha, rfl⟩ := List.mem_map.mp ha'
    exact p.nodup a ha

theorem node_unshadowed (p : Program τ) (f : FnId) :
    p.unshadowed.node f = (p.node f).map FnText.unshadow := by
  unfold node unshadowed
  rw [p.text.nodes_unshadow, List.find?_map]
  rfl

theorem params_unshadowed (p : Program τ) : p.unshadowed.params = p.params := by
  funext f
  unfold params
  rw [p.node_unshadowed]
  cases p.node f <;> rfl

theorem paramVar_unshadowed (p : Program τ) : p.unshadowed.paramVar = p.paramVar := by
  funext f x
  unfold paramVar paramType
  rw [p.node_unshadowed]
  cases p.node f <;> rfl

theorem not_mem_letNames_unshadowed {f : FnId} {x : Name} (hx : x ∈ p.unshadowed.params f) :
    x ∉ p.unshadowed.letNames f := by
  rw [p.params_unshadowed] at hx
  unfold letNames
  unfold params at hx
  rw [p.node_unshadowed]
  cases hn : p.node f with
  | none => exact List.not_mem_nil
  | some n =>
      rw [hn] at hx
      exact n.body.not_mem_lets_unshadow hx

end Program

/-! ### A file whose lets shadow nothing -/

section NoLets

variable {act : Active} {own : Option FnId} {f : FnId} {x : Name}

theorem passedAll_of_not_mem (hb : act.Bounded p) (hx : x ∉ p.letNames f) :
    passedAll p act f x = true := by
  unfold passedAll
  cases hact : act f with
  | none => rfl
  | some passed =>
      have hle := hb f passed hact x
      rw [List.count_eq_zero_of_not_mem hx] at hle ⊢
      exact beq_iff_eq.mpr (Nat.le_zero.mp hle)

theorem untouched_of_not_mem (hb : act.Bounded p) (hx : x ∉ p.letNames f) :
    untouched p act f x = true := by
  unfold untouched
  cases hact : act f with
  | none => simpa using hx
  | some passed =>
      have hle := hb f passed hact x
      rw [List.count_eq_zero_of_not_mem hx] at hle
      have := List.count_eq_zero.mp (Nat.le_zero.mp hle)
      simpa using this

variable (hno : ∀ f x, x ∈ p.params f → x ∉ p.letNames f)
include hno

theorem Call.direct_of_not_mem (hb : act.Bounded p) (c : Call) : c.direct p act = true := by
  unfold Call.direct
  cases hps : p.params c.callee with
  | nil => rfl
  | cons x xs =>
      have hnot : ∀ y ∈ x :: xs, y ∉ p.letNames c.callee := fun y hy => hno _ _ (hps ▸ hy)
      have hx := hnot x List.mem_cons_self
      simp only [passedAll_of_not_mem hb hx, untouched_of_not_mem hb hx, ite_self, Bool.true_and,
        List.all_eq_true]
      intro y hy
      exact passedAll_of_not_mem hb (hnot y (List.mem_cons_of_mem x hy))

theorem compareDirect_of_not_mem (hb : act.Bounded p) (trait impl : FnId) :
    compareDirect p act trait impl = true := by
  unfold compareDirect
  split
  · rw [List.all_eq_true]
    rintro ⟨x, y⟩ hxy
    obtain ⟨hx, hy⟩ := List.of_mem_zip hxy
    exact Bool.and_eq_true_iff.mpr ⟨untouched_of_not_mem hb (hno _ _ hx),
      untouched_of_not_mem hb (hno _ _ hy)⟩
  · rfl

theorem Body.declareDirect_of_not_mem (b : Body τ) : b.declareDirect p = true := by
  induction b with
  | nil => rfl
  | letbind id names init rest ih => exact ih
  | expr calls rest ih => exact ih
  | block body rest ihb ihr => exact Bool.and_eq_true_iff.mpr ⟨ihb, ihr⟩
  | fnDefine fn params body rest ihb ihr => exact Bool.and_eq_true_iff.mpr ⟨ihb, ihr⟩
  | fnDecl fn params rest ih => exact ih
  | traitFn fn params body rest ihb ihr => exact ihr
  | compare trait impl rest ih =>
      exact Bool.and_eq_true_iff.mpr ⟨compareDirect_of_not_mem hno p.bounded trait impl, ih⟩

theorem Body.direct_of_not_mem (b : Body τ) (w : Walking p own act b) :
    b.direct p own act = true := by
  have hcalls {act : Active} (hb : act.Bounded p) (cs : List Call) :
      cs.all (Call.direct p act) = true :=
    List.all_eq_true.mpr fun c _ => Call.direct_of_not_mem hno hb c
  induction b generalizing own act with
  | nil => rfl
  | letbind id names init rest ih =>
      exact Bool.and_eq_true_iff.mpr ⟨hcalls w.bounded init, ih w.letbind⟩
  | expr calls rest ih =>
      exact Bool.and_eq_true_iff.mpr ⟨hcalls w.bounded calls,
        ih (w.rest rfl (by simp) fun n hn => hn)⟩
  | block body rest ihb ihr =>
      exact Bool.and_eq_true_iff.mpr
        ⟨ihb (w.inner (by simp; omega) fun n hn => List.mem_append_left _ hn),
          ihr (w.rest rfl (by simp) fun n hn => List.mem_append_right _ hn)⟩
  | fnDefine fn params body rest ihb ihr =>
      exact Bool.and_eq_true_iff.mpr ⟨ihb w.fnDefine, ihr (w.rest rfl (by simp) fun n hn =>
        List.mem_cons_of_mem _ (List.mem_append_right _ hn))⟩
  | fnDecl fn params rest ih =>
      exact ih (w.rest rfl (by simp) fun n hn => List.mem_cons_of_mem _ hn)
  | traitFn fn params body rest ihb ihr =>
      exact ihr (w.rest rfl (by simp) fun n hn =>
        List.mem_cons_of_mem _ (List.mem_append_right _ hn))
  | compare trait impl rest ih =>
      exact Bool.and_eq_true_iff.mpr ⟨compareDirect_of_not_mem hno w.bounded trait impl,
        ih (w.rest rfl (by simp) fun n hn => hn)⟩

end NoLets

theorem Program.direct_unshadowed (p : Program τ) : p.unshadowed.direct = true :=
  have hno : ∀ f x, x ∈ p.unshadowed.params f → x ∉ p.unshadowed.letNames f :=
    fun _ _ hx => not_mem_letNames_unshadowed hx
  Bool.and_eq_true_iff.mpr ⟨Body.declareDirect_of_not_mem hno _,
    Body.direct_of_not_mem hno _ p.unshadowed.walking⟩

/-! ### The places of the reads -/

/-- Who reads which parameter. -/
def Read.place (r : Read τ) : Kind × FnId × Name := (r.kind, r.fn, r.name)

section Places

variable {p' : Program τ} {own : Option FnId} {t t' : Tables τ}

/-- The reads of a call stand at the same places in any tables. -/
theorem Call.places_reads (hp : p'.params = p.params) (t t' : Tables τ) (c : Call) :
    (c.reads p' t').map Read.place = (c.reads p t).map Read.place := by
  unfold Call.reads
  rw [hp]
  cases p.params c.callee with
  | nil => rfl
  | cons x xs =>
      simp only [List.map_cons, List.map_map]
      congr 1
      split <;> rfl

theorem calls_places (hp : p'.params = p.params) (t t' : Tables τ) (cs : List Call) :
    (cs.flatMap (Call.reads p' t')).map Read.place =
      (cs.flatMap (Call.reads p t)).map Read.place := by
  rw [List.map_flatMap, List.map_flatMap]
  congr 1
  funext c
  exact c.places_reads hp t t'

theorem compareReads_places (hp : p'.params = p.params) (t t' : Tables τ) (trait impl : FnId) :
    (compareReads p' t' trait impl).map Read.place =
      (compareReads p t trait impl).map Read.place := by
  unfold compareReads
  rw [hp]
  split
  · rw [List.map_flatMap, List.map_flatMap]
    rfl
  · rfl

theorem initFnParamInfo_places (f : FnId) (xs : List Name) (t t' : Tables τ) :
    (initFnParamInfo f xs t').1.map Read.place = (initFnParamInfo f xs t).1.map Read.place := by
  induction xs generalizing t t' with
  | nil => rfl
  | cons x xs ih => exact congrArg ((.init, f, x) :: ·) (ih _ _)

theorem Body.places_reads (hp : p'.params = p.params) (b : Body τ) (ps : List Name)
    (own : Option FnId) (t t' : Tables τ) :
    ((b.unshadow ps).reads p' own t').map Read.place = (b.reads p own t).map Read.place := by
  induction b generalizing ps own t t' with
  | nil => rfl
  | letbind id names init rest ih =>
      simp only [unshadow, reads, List.map_append]
      rw [calls_places hp (letTables own (names.map Prod.fst) t).1, ih]
  | expr calls rest ih =>
      simp only [unshadow, reads, List.map_append]
      rw [calls_places hp t, ih]
  | block body rest ihb ihr =>
      simp only [unshadow, reads, List.map_append]
      rw [ihb, ihr]
  | fnDefine fn params body rest ihb ihr =>
      simp only [unshadow, reads, List.map_append]
      rw [initFnParamInfo_places fn _ t, ihb, ihr]
  | fnDecl fn params rest ih => exact ih ps own t t'
  | traitFn fn params body rest ihb ihr => exact ihr ps own t t'
  | compare trait impl rest ih =>
      simp only [unshadow, reads, List.map_append]
      rw [compareReads_places hp t, ih]

theorem Body.places_declareReads (hp : p'.params = p.params) (b : Body τ) (ps : List Name)
    (t t' : Tables τ) :
    ((b.unshadow ps).declareReads p' t').map Read.place = (b.declareReads p t).map Read.place := by
  induction b generalizing ps with
  | nil => rfl
  | letbind id names init rest ih => exact ih ps
  | expr calls rest ih => exact ih ps
  | block body rest ihb ihr =>
      simp only [unshadow, declareReads, List.map_append]
      rw [ihb, ihr]
  | fnDefine fn params body rest ihb ihr =>
      simp only [unshadow, declareReads, List.map_append, List.map_map]
      rw [ihb, ihr]
      rfl
  | fnDecl fn params rest ih =>
      simp only [unshadow, declareReads, List.map_append, List.map_map]
      rw [ih]
      rfl
  | traitFn fn params body rest ihb ihr => exact ihr ps
  | compare trait impl rest ih =>
      simp only [unshadow, declareReads, List.map_append]
      rw [compareReads_places hp t, ih]

end Places

/-- The reads of a file stand where those of the file without its shadowing lets stand. -/
theorem Program.places_unshadowed (p : Program τ) :
    p.unshadowed.reads.map Read.place = p.reads.map Read.place := by
  unfold Program.reads
  rw [List.map_append, List.map_append]
  exact congrArg₂ _ (Body.places_declareReads p.params_unshadowed p.text [] _ _)
    (Body.places_reads p.params_unshadowed p.text [] none _ _)

/-- The read of the parameter itself at a place. -/
def Read.ofPlace (p : Program τ) (q : Kind × FnId × Name) : Read τ :=
  ⟨q.1, q.2.1, q.2.2, p.paramVar q.2.1 q.2.2⟩

theorem Read.ofPlace_place {r : Read τ} (h : r.Ok p) : Read.ofPlace p r.place = r := by
  unfold ofPlace place
  rw [← h.2]

/-- Reads of the parameters are determined by their places. -/
theorem eq_of_places {l l' : List (Read τ)} (h : l'.map Read.place = l.map Read.place)
    (hl : ∀ r ∈ l, r.Ok p) (hl' : ∀ r ∈ l', r.Ok p) : l' = l := by
  have hre : ∀ l : List (Read τ), (∀ r ∈ l, r.Ok p) →
      (l.map Read.place).map (Read.ofPlace p) = l := by
    intro l hl
    rw [List.map_map]
    exact (List.map_congr_left fun r hr => Read.ofPlace_place (hl r hr)).trans (List.map_id l)
  rw [← hre l hl, ← hre l' hl', h]

/-! ### Both laws -/

/-- `fn f(x: i32) { f(1); let x: f64 = 2.0; }`, where the types are numbers. -/
def callBeforeLet : Program Nat where
  text := .fnDefine 0 [(5, 32)] (.expr [⟨0, false⟩] (.letbind 1 [(5, some 64)] [] .nil)) .nil
  coherent a ha b hb _ :=
    (List.mem_singleton.mp ha).trans (List.mem_singleton.mp hb).symm
  nodup a ha := by
    cases List.mem_singleton.mp ha
    exact List.nodup_singleton _

/-- `trait T { fn m(x: i32); } impl T for A { fn m(x: i32) { let x: f64 = 2.0; } }` -/
def letInImpl : Program Nat where
  text := .traitFn 0 [(5, 32)] .nil (.compare 0 1
    (.fnDefine 1 [(5, 32)] (.letbind 1 [(5, some 64)] [] .nil) .nil))
  coherent a ha b hb hab := by
    simp only [Body.nodes, List.nil_append, List.mem_cons, List.not_mem_nil, or_false] at ha hb
    rcases ha with rfl | rfl <;> rcases hb with rfl | rfl <;>
      first
        | rfl
        | cases hab
  nodup a ha := by
    simp only [Body.nodes, List.nil_append, List.mem_cons, List.not_mem_nil, or_false] at ha
    rcases ha with rfl | rfl <;> exact List.nodup_singleton _

end CaLang.Params

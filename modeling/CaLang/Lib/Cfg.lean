import Mathlib.Data.List.Nodup
import Mathlib.Logic.Relation
import Mathlib.Data.Nat.Init

/-! # Basic blocks in a row

The code of a function as its blocks stand one after the other, each behind its label: **what is
left to do is always an end of the code**, and a jump goes on behind a label.  Registers, cells and
blocks are numbers; the operations, the constants and what they mean are parameters.

A `Build` yields code together with the next free number and the block where more code goes.  What
every builder must see to is `Built`: its labels are new, it jumps to new labels only, and **the
blocks that a phi names are the blocks that jump to it**.
-/

namespace CaLang.Cfg

inductive Val (K : Type)
  | reg (r : Nat)
  | const (k : K)

inductive Instr (K Op : Type)
  /-- A block begins. -/
  | label (b : Nat)
  | br (b : Nat)
  | condbr (v : Val K) (b b' : Nat)
  /-- `v` if the control came from `b`, and `v'` if it came from `b'`. -/
  | phi (r : Nat) (v : Val K) (b : Nat) (v' : Val K) (b' : Nat)
  | load (r c : Nat)
  | store (c : Nat) (v : Val K)
  /-- What is in the cell `c'` is copied to the cell `c`. -/
  | copy (c c' : Nat)
  | op (r : Nat) (o : Op) (vs : List (Val K))

abbrev Code (K Op : Type) := List (Instr K Op)

variable {K Op V W α β : Type}

/-! ### Execution -/

/-- The meaning of constants and operations, which can change the world. -/
structure Machine (K Op V W : Type) where
  const : K → V
  op : Op → List V → W → V × W
  istrue : V → Bool

structure State (V W : Type) where
  regs : Nat → V
  cells : Nat → V
  world : W

namespace State

def setReg (s : State V W) (r : Nat) (v : V) : State V W :=
  { s with regs := Function.update s.regs r v }

def setCell (s : State V W) (c : Nat) (v : V) : State V W :=
  { s with cells := Function.update s.cells c v }

end State

def Val.eval (M : Machine K Op V W) (s : State V W) : Val K → V
  | .reg r => s.regs r
  | .const k => M.const k

/-- A value that uses registers below `n` only. -/
def Val.Below (n : Nat) : Val K → Prop
  | .reg r => r < n
  | .const _ => True

theorem Val.Below.mono {n m : Nat} {v : Val K} (h : v.Below n) (hle : n ≤ m) : v.Below m := by
  cases v with
  | reg r => exact Nat.lt_of_lt_of_le h hle
  | const k => trivial

/-- Two states have the same registers and cells below `n`. -/
def State.AgreeBelow (n : Nat) (s s' : State V W) : Prop :=
  ∀ k < n, s'.regs k = s.regs k ∧ s'.cells k = s.cells k

namespace State.AgreeBelow

variable {n m : Nat} {s s' s'' : State V W}

theorem refl (n : Nat) (s : State V W) : AgreeBelow n s s := fun _ _ => ⟨rfl, rfl⟩

theorem trans (h : AgreeBelow n s s') (h' : AgreeBelow m s' s'') (hle : n ≤ m) :
    AgreeBelow n s s'' := fun k hk =>
  ⟨((h' k (Nat.lt_of_lt_of_le hk hle)).1).trans (h k hk).1,
    ((h' k (Nat.lt_of_lt_of_le hk hle)).2).trans (h k hk).2⟩

theorem mono (h : AgreeBelow m s s') (hle : n ≤ m) : AgreeBelow n s s' :=
  fun k hk => h k (Nat.lt_of_lt_of_le hk hle)

theorem setReg (h : AgreeBelow n s s') {r : Nat} (hr : n ≤ r) (v : V) :
    AgreeBelow n s (s'.setReg r v) := fun k hk =>
  ⟨(Function.update_of_ne (by omega) _ _).trans (h k hk).1, (h k hk).2⟩

theorem setCell (h : AgreeBelow n s s') {c : Nat} (hc : n ≤ c) (v : V) :
    AgreeBelow n s (s'.setCell c v) := fun k hk =>
  ⟨(h k hk).1, (Function.update_of_ne (by omega) _ _).trans (h k hk).2⟩

theorem setWorld (h : AgreeBelow n s s') (w : W) : AgreeBelow n s { s' with world := w } := h

theorem eval_eq (h : AgreeBelow n s s') {M : Machine K Op V W} {v : Val K} (hv : v.Below n) :
    v.eval M s' = v.eval M s := by
  cases v with
  | reg r => exact (h r hv).1
  | const k => rfl

end State.AgreeBelow

/-- What is left to do, the block that is run and the one before it. -/
structure Config (K Op V W : Type) where
  rest : Code K Op
  cur : Nat
  prev : Nat
  state : State V W

/-- The code behind a label. -/
def after (b : Nat) : Code K Op → Option (Code K Op)
  | [] => none
  | .label b' :: rest => if b' = b then some rest else after b rest
  | _ :: rest => after b rest

def jump (P : Code K Op) (c : Config K Op V W) (b : Nat) : Option (Config K Op V W) :=
  (after b P).map fun rest => ⟨rest, b, c.cur, c.state⟩

/-- One step in the code `P`.  A block ends in a jump: the control does not run into a label. -/
def step (M : Machine K Op V W) (P : Code K Op) (c : Config K Op V W) :
    Option (Config K Op V W) :=
  match c.rest with
  | [] => none
  | .label _ :: _ => none
  | .br b :: _ => jump P c b
  | .condbr v b b' :: _ => jump P c (if M.istrue (v.eval M c.state) then b else b')
  | .phi r v b v' b' :: rest =>
      if c.prev = b then some { c with rest, state := c.state.setReg r (v.eval M c.state) }
      else if c.prev = b' then some { c with rest, state := c.state.setReg r (v'.eval M c.state) }
      else none
  | .load r x :: rest => some { c with rest, state := c.state.setReg r (c.state.cells x) }
  | .store x v :: rest => some { c with rest, state := c.state.setCell x (v.eval M c.state) }
  | .copy x y :: rest => some { c with rest, state := c.state.setCell x (c.state.cells y) }
  | .op r o vs :: rest =>
      let res := M.op o (vs.map (·.eval M c.state)) c.state.world
      some { c with rest, state := { c.state.setReg r res.1 with world := res.2 } }

/-- A run in the code `P`. -/
def Exec (M : Machine K Op V W) (P : Code K Op) : Config K Op V W → Config K Op V W → Prop :=
  Relation.ReflTransGen fun c c' => step M P c = some c'

/-! ### Labels, jumps and phis of code -/

def labels : Code K Op → List Nat
  | [] => []
  | .label b :: rest => b :: labels rest
  | _ :: rest => labels rest

/-- The block at the end of code that starts in `b`. -/
def last (b : Nat) : Code K Op → Nat
  | [] => b
  | .label b' :: rest => last b' rest
  | _ :: rest => last b rest

/-- The jumps, from a block to a label. -/
def edges (b : Nat) : Code K Op → List (Nat × Nat)
  | [] => []
  | .label b' :: rest => edges b' rest
  | .br t :: rest => (b, t) :: edges b rest
  | .condbr _ t t' :: rest => (b, t) :: (b, t') :: edges b rest
  | _ :: rest => edges b rest

/-- The phis: the block where one stands, and the two blocks that it names. -/
def phis (b : Nat) : Code K Op → List (Nat × Nat × Nat)
  | [] => []
  | .label b' :: rest => phis b' rest
  | .phi _ _ p _ p' :: rest => (b, p, p') :: phis b rest
  | _ :: rest => phis b rest

/-- The phis name the blocks that jump to them. -/
def Closed (es : List (Nat × Nat)) (qs : List (Nat × Nat × Nat)) : Prop :=
  ∀ q ∈ qs, ∀ x, (x, q.1) ∈ es ↔ x = q.2.1 ∨ x = q.2.2

theorem Closed.nil (es : List (Nat × Nat)) : Closed es [] := nofun

/-- Code whose jumps go elsewhere can stand next to it. -/
theorem Closed.append {es es' : List (Nat × Nat)} {qs qs' : List (Nat × Nat × Nat)}
    (h : Closed es qs) (h' : Closed es' qs') (hd : ∀ q ∈ qs, ∀ e ∈ es', e.2 ≠ q.1)
    (hd' : ∀ q ∈ qs', ∀ e ∈ es, e.2 ≠ q.1) : Closed (es ++ es') (qs ++ qs') := by
  intro q hq x
  rw [List.mem_append]
  rcases List.mem_append.mp hq with hq | hq
  · rw [or_iff_left fun he => hd q hq _ he rfl]
    exact h q hq x
  · rw [or_iff_right fun he => hd' q hq _ he rfl]
    exact h' q hq x

variable {P P' : Code K Op} {b : Nat}

@[simp] theorem labels_append : labels (P ++ P') = labels P ++ labels P' := by
  induction P with
  | nil => rfl
  | cons i P ih => cases i <;> simp [labels, ih]

@[simp] theorem last_append : last b (P ++ P') = last (last b P) P' := by
  induction P generalizing b with
  | nil => rfl
  | cons i P ih => cases i <;> simp [last, ih]

@[simp] theorem edges_append : edges b (P ++ P') = edges b P ++ edges (last b P) P' := by
  induction P generalizing b with
  | nil => rfl
  | cons i P ih => cases i <;> simp [edges, last, ih]

@[simp] theorem phis_append : phis b (P ++ P') = phis b P ++ phis (last b P) P' := by
  induction P generalizing b with
  | nil => rfl
  | cons i P ih => cases i <;> simp [phis, last, ih]

theorem last_mem (b : Nat) (P : Code K Op) : last b P = b ∨ last b P ∈ labels P := by
  induction P generalizing b with
  | nil => exact .inl rfl
  | cons i P ih =>
      cases i with
      | label b' =>
          rcases ih b' with h | h
          · exact .inr (by rw [last, h]; exact List.mem_cons_self)
          · exact .inr (List.mem_cons_of_mem _ h)
      | _ => exact ih b

theorem after_append (h : b ∉ labels P) (P' : Code K Op) :
    after b (P ++ .label b :: P') = some P' := by
  induction P with
  | nil => simp [after]
  | cons i P ih =>
      cases i with
      | label b' =>
          rw [labels, List.mem_cons, not_or] at h
          rw [List.cons_append, after, if_neg (Ne.symm h.1)]
          exact ih h.2
      | _ => exact ih h

/-! ### Builders -/

/-- The next number that is free, and the block where code is put. -/
structure Builder where
  next : Nat
  block : Nat

/-- What yields code, or stops with an error. -/
def Build (K Op α : Type) : Type := Builder → Option (α × Code K Op × Builder)

namespace Build

instance : Monad (Build K Op) where
  pure a st := some (a, [], st)
  bind x f st := (x st).bind fun r => (f r.1 r.2.2).map fun r' => (r'.1, r.2.1 ++ r'.2.1, r'.2.2)

def fail : Build K Op α := fun _ => none

/-- A new number, of a register, a cell or a block. -/
def fresh : Build K Op Nat := fun st => some (st.next, [], { st with next := st.next + 1 })

def emit (i : Instr K Op) : Build K Op Unit := fun st => some ((), [i], st)

/-- The block is put behind the others, and code goes to it. -/
def setInsertPoint (b : Nat) : Build K Op Unit :=
  fun st => some ((), [.label b], { st with block := b })

def getInsertBlock : Build K Op Nat := fun st => some (st.block, [], st)

theorem bind_eq_some {x : Build K Op α} {f : α → Build K Op β} {st st' : Builder} {b : β}
    {c : Code K Op} :
    (x >>= f) st = some (b, c, st') ↔ ∃ a c₁ st₁ c₂, x st = some (a, c₁, st₁) ∧
      f a st₁ = some (b, c₂, st') ∧ c = c₁ ++ c₂ := by
  constructor
  · intro h
    obtain ⟨⟨a, c₁, st₁⟩, hx, h⟩ := Option.bind_eq_some_iff.mp h
    obtain ⟨⟨b', c₂, st₂⟩, hf, h⟩ := Option.map_eq_some_iff.mp h
    simp only [Prod.mk.injEq] at h
    obtain ⟨rfl, rfl, rfl⟩ := h
    exact ⟨a, c₁, st₁, c₂, hx, hf, rfl⟩
  · rintro ⟨a, c₁, st₁, c₂, hx, hf, rfl⟩
    exact Option.bind_eq_some_iff.mpr ⟨_, hx, Option.map_eq_some_iff.mpr ⟨_, hf, rfl⟩⟩

variable {x : Build K Op α} {f : α → Build K Op β} {st st' : Builder} {a : α} {c c' : Code K Op}

/-- The code that was built before. -/
def prepend (c : Code K Op) (r : Option (α × Code K Op × Builder)) :
    Option (α × Code K Op × Builder) :=
  r.map fun r => (r.1, c ++ r.2.1, r.2.2)

theorem prepend_eq_some {r : Option (α × Code K Op × Builder)} :
    prepend c r = some (a, c', st) ↔ ∃ c₁, r = some (a, c₁, st) ∧ c' = c ++ c₁ := by
  constructor
  · intro h
    obtain ⟨⟨a', c₁, st'⟩, hr, h⟩ := Option.map_eq_some_iff.mp h
    simp only [Prod.mk.injEq] at h
    obtain ⟨rfl, rfl, rfl⟩ := h
    exact ⟨c₁, hr, rfl⟩
  · rintro ⟨c₁, rfl, rfl⟩
    rfl

theorem prepend_nil (r : Option (α × Code K Op × Builder)) : prepend [] r = r := by
  cases r <;> rfl

theorem prepend_prepend (c c' : Code K Op) (r : Option (α × Code K Op × Builder)) :
    prepend c (prepend c' r) = prepend (c ++ c') r := by
  cases r with
  | none => rfl
  | some r => exact congrArg some (by simp)

theorem bind_of_some (h : x st = some (a, c, st')) : (x >>= f) st = prepend c (f a st') := by
  show (x st).bind _ = _
  rw [h]
  rfl

/-! The simp set of the builders. -/

@[simp] theorem pure_apply (a : α) : (pure a : Build K Op α) st = some (a, [], st) := rfl

@[simp] theorem fail_apply : (fail : Build K Op α) st = none := rfl

@[simp] theorem fail_bind : ((fail : Build K Op α) >>= f) st = none := rfl

@[simp] theorem fresh_bind {f : Nat → Build K Op β} :
    ((fresh : Build K Op Nat) >>= f) st = f st.next ⟨st.next + 1, st.block⟩ :=
  (bind_of_some rfl).trans (prepend_nil _)

@[simp] theorem getInsertBlock_bind {f : Nat → Build K Op β} :
    ((getInsertBlock : Build K Op Nat) >>= f) st = f st.block st :=
  (bind_of_some rfl).trans (prepend_nil _)

@[simp] theorem emit_bind {i : Instr K Op} {f : Unit → Build K Op β} :
    (emit i >>= f) st = prepend [i] (f () st) := bind_of_some rfl

@[simp] theorem setInsertPoint_bind {b : Nat} {f : Unit → Build K Op β} :
    ((setInsertPoint b : Build K Op Unit) >>= f) st = prepend [.label b] (f () ⟨st.next, b⟩) :=
  bind_of_some rfl

attribute [simp] prepend_prepend

end Build

/-! ### Code that is built -/

/-- What a builder must see to. -/
structure Built (st : Builder) (c : Code K Op) (st' : Builder) : Prop where
  le : st.next ≤ st'.next
  labels_mem : ∀ b ∈ labels c, st.next ≤ b ∧ b < st'.next
  nodup : (labels c).Nodup
  last_eq : last st.block c = st'.block
  edges_mem : ∀ e ∈ edges st.block c, st.next ≤ e.2 ∧ e.2 < st'.next
  phis_mem : ∀ q ∈ phis st.block c, st.next ≤ q.1 ∧ q.1 < st'.next
  closed : Closed (edges st.block c) (phis st.block c)

/-- Instructions without labels, jumps and phis. -/
def Instr.plain : Instr K Op → Bool
  | .load _ _ | .store _ _ | .copy _ _ | .op _ _ _ => true
  | _ => false

theorem plain_code {c : Code K Op} (h : ∀ i ∈ c, i.plain = true) (b : Nat) :
    labels c = [] ∧ last b c = b ∧ edges b c = [] ∧ phis b c = [] := by
  induction c with
  | nil => exact ⟨rfl, rfl, rfl, rfl⟩
  | cons i c ih =>
      have hi := h i List.mem_cons_self
      have ih := ih fun j hj => h j (List.mem_cons_of_mem _ hj)
      cases i with
      | load | store | copy | op => exact ih
      | _ => cases hi

namespace Built

variable {st st' st₀ st₁ st₂ st₃ st₄ : Builder} {c c' c₁ c₂ : Code K Op}

theorem plain (h : ∀ i ∈ c, i.plain = true) (hle : st.next ≤ st'.next)
    (hb : st'.block = st.block) : Built st c st' := by
  obtain ⟨hl, hlast, he, hp⟩ := plain_code h st.block
  refine ⟨hle, ?_, ?_, hlast.trans hb.symm, ?_, ?_, ?_⟩
  · rw [hl]
    exact nofun
  · rw [hl]
    exact List.nodup_nil
  · rw [he]
    exact nofun
  · rw [hp]
    exact nofun
  · rw [hp]
    exact .nil _

/-- The end is a new block, or the one where it began. -/
theorem block_eq_or (h : Built st c st') :
    st'.block = st.block ∨ st.next ≤ st'.block ∧ st'.block < st'.next := by
  rw [← h.last_eq]
  exact (last_mem st.block c).imp_right (h.labels_mem _)

theorem block_lt (h : Built st c st') (hb : st.block < st.next) : st'.block < st'.next := by
  rcases h.block_eq_or with he | he
  · rw [he]
    exact Nat.lt_of_lt_of_le hb h.le
  · exact he.2

theorem append (h : Built st c st₁) (h' : Built st₁ c' st₂) : Built st (c ++ c') st₂ where
  le := Nat.le_trans h.le h'.le
  labels_mem b hb := by
    rw [labels_append, List.mem_append] at hb
    have := h.le
    have := h'.le
    rcases hb with hb | hb
    · have := h.labels_mem b hb
      omega
    · have := h'.labels_mem b hb
      omega
  nodup := by
    rw [labels_append]
    apply h.nodup.append h'.nodup
    intro b hb hb'
    have := h.labels_mem b hb
    have := h'.labels_mem b hb'
    omega
  last_eq := by rw [last_append, h.last_eq, h'.last_eq]
  edges_mem e he := by
    rw [edges_append, h.last_eq, List.mem_append] at he
    have := h.le
    have := h'.le
    rcases he with he | he
    · have := h.edges_mem e he
      omega
    · have := h'.edges_mem e he
      omega
  phis_mem q hq := by
    rw [phis_append, h.last_eq, List.mem_append] at hq
    have := h.le
    have := h'.le
    rcases hq with hq | hq
    · have := h.phis_mem q hq
      omega
    · have := h'.phis_mem q hq
      omega
  closed := by
    rw [edges_append, phis_append, h.last_eq]
    refine h.closed.append h'.closed ?_ ?_
    · intro q hq e he
      have := h.phis_mem q hq
      have := h'.edges_mem e he
      omega
    · intro q hq e he
      have := h'.phis_mem q hq
      have := h.edges_mem e he
      omega

/-- Two branches that meet: `t` and `o` are new before the condition, `e` behind it. -/
theorem diamond {n t e o : Nat} {v : Val K} (hb : st₀.block = st.block) (hle : st.next ≤ st₀.next)
    (ht : st.next ≤ t ∧ t < st₀.next) (ho : st.next ≤ o ∧ o < st₀.next) (hto : t ≠ o)
    (hc : Built st₀ c st₁) (he : st₁.next ≤ e ∧ e < n) (h₁ : Built ⟨n, t⟩ c₁ st₂)
    (h₂ : Built ⟨st₂.next, e⟩ c₂ st₃) :
    Built st (c ++ .condbr v t e :: .label t :: (c₁ ++ .br o :: .label e ::
      (c₂ ++ [.br o, .label o]))) ⟨st₃.next, o⟩ := by
  have hle₀ := hc.le
  have hle₁ : n ≤ st₂.next := h₁.le
  have hle₂ : st₂.next ≤ st₃.next := h₂.le
  have hedges : edges st.block (c ++ .condbr v t e :: .label t :: (c₁ ++ .br o :: .label e ::
      (c₂ ++ [.br o, .label o]))) = edges st₀.block c ++ ([(st₁.block, t), (st₁.block, e)] ++
      (edges t c₁ ++ ([(st₂.block, o)] ++ (edges e c₂ ++ [(st₃.block, o)])))) := by
    simp [edges, ← hb, hc.last_eq, h₁.last_eq, h₂.last_eq]
  have hphis : phis st.block (c ++ .condbr v t e :: .label t :: (c₁ ++ .br o :: .label e ::
      (c₂ ++ [.br o, .label o]))) = phis st₀.block c ++ (phis t c₁ ++ phis e c₂) := by
    simp [phis, ← hb]
  have hlabels : labels (c ++ .condbr v t e :: .label t :: (c₁ ++ .br o :: .label e ::
      (c₂ ++ [.br o, .label o]))) = labels c ++ t :: (labels c₁ ++ e :: (labels c₂ ++ [o])) := by
    simp [labels]
  have hlc := hc.labels_mem
  have hl₁ : ∀ b ∈ labels c₁, n ≤ b ∧ b < st₂.next := h₁.labels_mem
  have hl₂ : ∀ b ∈ labels c₂, st₂.next ≤ b ∧ b < st₃.next := h₂.labels_mem
  have hec := hc.edges_mem
  have he₁ : ∀ p ∈ edges t c₁, n ≤ p.2 ∧ p.2 < st₂.next := h₁.edges_mem
  have he₂ : ∀ p ∈ edges e c₂, st₂.next ≤ p.2 ∧ p.2 < st₃.next := h₂.edges_mem
  have hqc := hc.phis_mem
  have hq₁ : ∀ q ∈ phis t c₁, n ≤ q.1 ∧ q.1 < st₂.next := h₁.phis_mem
  have hq₂ : ∀ q ∈ phis e c₂, st₂.next ≤ q.1 ∧ q.1 < st₃.next := h₂.phis_mem
  refine ⟨Nat.le_trans hle (by show st₀.next ≤ st₃.next; omega), ?_, ?_, ?_, ?_, ?_, ?_⟩
  · intro b hbm
    show st.next ≤ b ∧ b < st₃.next
    rw [hlabels] at hbm
    simp only [List.mem_append, List.mem_cons, List.not_mem_nil, or_false] at hbm
    grind
  · rw [hlabels]
    have hn := hc.nodup
    have hn₁ := h₁.nodup
    have hn₂ := h₂.nodup
    simp only [List.nodup_append, List.nodup_cons, List.mem_append, List.mem_cons,
      List.not_mem_nil]
    grind
  · simp [last]
  · intro p hp
    show st.next ≤ p.2 ∧ p.2 < st₃.next
    rw [hedges] at hp
    simp only [List.mem_append, List.mem_cons, List.not_mem_nil, or_false] at hp
    grind
  · intro q hq
    show st.next ≤ q.1 ∧ q.1 < st₃.next
    rw [hphis] at hq
    simp only [List.mem_append] at hq
    grind
  · rw [hedges, hphis]
    intro q hq x
    have hec := hec (x, q.1)
    have he₁ := he₁ (x, q.1)
    have he₂ := he₂ (x, q.1)
    simp only [List.mem_append, List.mem_cons, List.not_mem_nil, or_false, Prod.mk.injEq] at hq ⊢
    rcases hq with hq | hq | hq
    · rw [← hc.closed q hq x]
      grind
    · rw [← h₁.closed q hq x]
      grind
    · rw [← h₂.closed q hq x]
      grind

/-- The second operand of a short circuit is a branch of its own, and a phi stands where the two
ways meet. -/
theorem shortCircuit {n n' t o r : Nat} {isand : Bool} {v v' : Val K} (hc : Built st c st₁)
    (ht : st₁.next ≤ t ∧ t < n) (ho : st₁.next ≤ o ∧ o < n) (hto : t ≠ o)
    (h₁ : Built ⟨n, t⟩ c₁ st₂) (hn : st₂.next ≤ n') :
    Built st (c ++ .condbr v (if isand then t else o) (if isand then o else t) :: .label t ::
      (c₁ ++ [.br o, .label o, .phi r v' st₂.block v st₁.block])) ⟨n', o⟩ := by
  have hle₀ := hc.le
  have hle₁ : n ≤ st₂.next := h₁.le
  have hedges : edges st.block (c ++ .condbr v (if isand then t else o)
      (if isand then o else t) :: .label t :: (c₁ ++ [.br o, .label o,
        .phi r v' st₂.block v st₁.block])) = edges st.block c ++
      ([(st₁.block, if isand then t else o), (st₁.block, if isand then o else t)] ++
        (edges t c₁ ++ [(st₂.block, o)])) := by
    simp [edges, hc.last_eq, h₁.last_eq]
  have hphis : phis st.block (c ++ .condbr v (if isand then t else o)
      (if isand then o else t) :: .label t :: (c₁ ++ [.br o, .label o,
        .phi r v' st₂.block v st₁.block])) =
      phis st.block c ++ (phis t c₁ ++ [(o, st₂.block, st₁.block)]) := by
    simp [phis]
  have hlabels : labels (c ++ .condbr v (if isand then t else o)
      (if isand then o else t) :: .label t :: (c₁ ++ [.br o, .label o,
        .phi r v' st₂.block v st₁.block])) = labels c ++ t :: (labels c₁ ++ [o]) := by
    simp [labels]
  have hlc := hc.labels_mem
  have hl₁ : ∀ b ∈ labels c₁, n ≤ b ∧ b < st₂.next := h₁.labels_mem
  have hec := hc.edges_mem
  have he₁ : ∀ p ∈ edges t c₁, n ≤ p.2 ∧ p.2 < st₂.next := h₁.edges_mem
  have hqc := hc.phis_mem
  have hq₁ : ∀ q ∈ phis t c₁, n ≤ q.1 ∧ q.1 < st₂.next := h₁.phis_mem
  refine ⟨by show st.next ≤ n'; omega, ?_, ?_, ?_, ?_, ?_, ?_⟩
  · intro b hbm
    show st.next ≤ b ∧ b < n'
    rw [hlabels] at hbm
    simp only [List.mem_append, List.mem_cons, List.not_mem_nil, or_false] at hbm
    grind
  · rw [hlabels]
    have hn := hc.nodup
    have hn₁ := h₁.nodup
    simp only [List.nodup_append, List.nodup_cons, List.mem_append, List.mem_cons,
      List.not_mem_nil]
    grind
  · simp [last]
  · intro p hp
    show st.next ≤ p.2 ∧ p.2 < n'
    rw [hedges] at hp
    simp only [List.mem_append, List.mem_cons, List.not_mem_nil, or_false] at hp
    grind
  · intro q hq
    show st.next ≤ q.1 ∧ q.1 < n'
    rw [hphis] at hq
    simp only [List.mem_append, List.mem_cons, List.not_mem_nil, or_false] at hq
    grind
  · rw [hedges, hphis]
    intro q hq x
    have hec := hec (x, q.1)
    have he₁ := he₁ (x, q.1)
    simp only [List.mem_append, List.mem_cons, List.not_mem_nil, or_false, Prod.mk.injEq] at hq ⊢
    rcases hq with hq | hq | rfl
    · rw [← hc.closed q hq x]
      grind
    · rw [← h₁.closed q hq x]
      grind
    · -- the new phi: both ways end here, and no other jump does
      grind

end Built

/-! ### What code does -/

/-- From the block `b` and the state `s`, in whatever code it stands with labels of its own, the
code `c` runs through to the block `b'` and a state as `Q` says. -/
def Runs (M : Machine K Op V W) (c : Code K Op) (b : Nat) (s : State V W) (b' : Nat)
    (Q : State V W → Prop) : Prop :=
  ∀ pre post, (labels (pre ++ (c ++ post))).Nodup → ∀ prev, ∃ prev' s',
    Exec M (pre ++ (c ++ post)) ⟨c ++ post, b, prev, s⟩ ⟨post, b', prev', s'⟩ ∧ Q s'

namespace Runs

variable {M : Machine K Op V W} {c c' c₁ c₂ : Code K Op} {s : State V W} {Q Q' : State V W → Prop}
  {b' b₁ b₂ b₃ t e o r : Nat} {v v' : Val K}

theorem nil (h : Q s) : Runs M [] b s b Q := fun _ _ _ prev => ⟨prev, s, .refl, h⟩

theorem imp (h : Runs M c b s b' Q) (hQ : ∀ s', Q s' → Q' s') : Runs M c b s b' Q' := by
  intro pre post hn prev
  obtain ⟨prev', s', hex, hs⟩ := h pre post hn prev
  exact ⟨prev', s', hex, hQ s' hs⟩

theorem append (h : Runs M c b s b₁ Q') (h' : ∀ s₁, Q' s₁ → Runs M c' b₁ s₁ b' Q) :
    Runs M (c ++ c') b s b' Q := by
  intro pre post hn prev
  rw [List.append_assoc] at hn ⊢
  obtain ⟨prev₁, s₁, hex, hs⟩ := h pre (c' ++ post) hn prev
  obtain ⟨prev₂, s₂, hex', hs'⟩ := h' s₁ hs (pre ++ c) post (by rwa [List.append_assoc]) prev₁
  rw [List.append_assoc] at hex'
  exact ⟨prev₂, s₂, hex.trans hex', hs'⟩

/-- A step to the next instruction. -/
theorem step {i : Instr K Op} (s' : State V W)
    (hi : ∀ (P rest : Code K Op) (prev : Nat),
      Cfg.step M P ⟨i :: rest, b, prev, s⟩ = some ⟨rest, b, prev, s'⟩) (h : Q s') :
    Runs M [i] b s b Q := fun _ _ _ prev => ⟨prev, s', .single (hi _ _ _), h⟩

theorem load {x : Nat} (h : Q (s.setReg r (s.cells x))) :
    Runs M [.load r x] b s b Q := step _ (fun _ _ _ => rfl) h

theorem store {x : Nat} (h : Q (s.setCell x (v.eval M s))) :
    Runs M [.store x v] b s b Q := step _ (fun _ _ _ => rfl) h

theorem copy {x y : Nat} (h : Q (s.setCell x (s.cells y))) :
    Runs M [.copy x y] b s b Q := step _ (fun _ _ _ => rfl) h

theorem op {f : Op} {vs : List (Val K)} {u : V} {w : W}
    (hop : M.op f (vs.map (·.eval M s)) s.world = (u, w))
    (h : Q { s.setReg r u with world := w }) : Runs M [.op r f vs] b s b Q := by
  refine step { s.setReg r u with world := w } ?_ h
  intro _ _ _
  simp only [Cfg.step, hop]

/-- A jump goes on behind its label. -/
theorem exec_jump {P p rest k : Code K Op} {i : Instr K Op} {cur prev : Nat}
    (hn : (labels P).Nodup) (hP : P = p ++ .label t :: rest)
    (hi : Cfg.step M P ⟨i :: k, cur, prev, s⟩ = jump P ⟨i :: k, cur, prev, s⟩ t) :
    Exec M P ⟨i :: k, cur, prev, s⟩ ⟨rest, t, cur, s⟩ := by
  subst hP
  have ht : t ∉ labels p := by
    rw [labels_append, List.nodup_append] at hn
    intro hmem
    exact hn.2.2 t hmem t List.mem_cons_self rfl
  refine .single ?_
  rw [hi, jump, after_append ht]
  rfl

theorem exec_br {P p rest k : Code K Op} {cur prev : Nat} (hn : (labels P).Nodup)
    (hP : P = p ++ .label t :: rest) :
    Exec M P ⟨.br t :: k, cur, prev, s⟩ ⟨rest, t, cur, s⟩ := exec_jump hn hP rfl

theorem exec_condbr {P p rest k : Code K Op} {cur prev d : Nat} (hn : (labels P).Nodup)
    (hP : P = p ++ .label d :: rest) (hd : (if M.istrue (v.eval M s) then t else e) = d) :
    Exec M P ⟨.condbr v t e :: k, cur, prev, s⟩ ⟨rest, d, cur, s⟩ :=
  exec_jump hn hP (by subst hd; rfl)

/-- The run of a part, in code that is split another way. -/
theorem exec (h : Runs M c b s b' Q) {P p post : Code K Op} (hn : (labels P).Nodup)
    (hP : P = p ++ (c ++ post)) (prev : Nat) :
    ∃ prev' s', Exec M P ⟨c ++ post, b, prev, s⟩ ⟨post, b', prev', s'⟩ ∧ Q s' := by
  subst hP
  exact h p post hn prev

/-- **Two branches**: the one that the condition selects is run, and no other. -/
theorem diamond (hc : Runs M c b s b₁ Q')
    (h : ∀ s₁, Q' s₁ → if M.istrue (v.eval M s₁) then Runs M c₁ t s₁ b₂ Q
      else Runs M c₂ e s₁ b₃ Q) :
    Runs M (c ++ .condbr v t e :: .label t :: (c₁ ++ .br o :: .label e ::
      (c₂ ++ [.br o, .label o]))) b s o Q := by
  apply hc.append
  intro s₁ hs₁ pre post hn prev
  have h := h s₁ hs₁
  obtain ⟨P, hP⟩ : ∃ P, P = pre ++ ((.condbr v t e :: .label t :: (c₁ ++ .br o :: .label e ::
      (c₂ ++ [.br o, .label o]))) ++ post) := ⟨_, rfl⟩
  rw [← hP] at hn ⊢
  have hcode : (.condbr v t e :: .label t :: (c₁ ++ .br o :: .label e ::
      (c₂ ++ [.br o, .label o]))) ++ post = .condbr v t e :: .label t :: (c₁ ++ .br o ::
        .label e :: (c₂ ++ .br o :: .label o :: post)) := by simp
  rw [hcode] at hP ⊢
  cases htrue : M.istrue (v.eval M s₁) with
  | true =>
      rw [htrue, if_pos rfl] at h
      obtain ⟨prev', s', hex, hs'⟩ := h.exec (p := pre ++ [.condbr v t e, .label t]) hn
        (by simpa using hP) b₁
      refine ⟨b₂, s', Relation.ReflTransGen.trans ?_ (hex.trans ?_), hs'⟩
      · exact exec_condbr (p := pre ++ [.condbr v t e]) hn (by simpa using hP)
          (by rw [htrue, if_pos rfl])
      · exact exec_br (p := pre ++ .condbr v t e :: .label t :: (c₁ ++ .br o :: .label e ::
          (c₂ ++ [.br o]))) hn (by simpa using hP)
  | false =>
      rw [htrue, if_neg Bool.false_ne_true] at h
      obtain ⟨prev', s', hex, hs'⟩ := h.exec
        (p := pre ++ .condbr v t e :: .label t :: (c₁ ++ [.br o, .label e])) hn
        (by simpa using hP) b₁
      refine ⟨b₃, s', Relation.ReflTransGen.trans ?_ (hex.trans ?_), hs'⟩
      · exact exec_condbr (p := pre ++ .condbr v t e :: .label t :: (c₁ ++ [.br o])) hn
          (by simpa using hP) (by rw [htrue, if_neg Bool.false_ne_true])
      · exact exec_br (p := pre ++ .condbr v t e :: .label t :: (c₁ ++ .br o :: .label e ::
          (c₂ ++ [.br o]))) hn (by simpa using hP)

/-- **A short circuit**: the second operand is run only if the first one does not decide, and the
phi takes the value of the block that the control came from. -/
theorem shortCircuit {isand : Bool} (hc : Runs M c b s b₁ Q')
    (h : ∀ s₁, Q' s₁ → if M.istrue (v.eval M s₁) = isand then
        Runs M c₁ t s₁ b₂ fun s₂ => Q (s₂.setReg r (v'.eval M s₂))
      else b₁ ≠ b₂ ∧ Q (s₁.setReg r (v.eval M s₁))) :
    Runs M (c ++ .condbr v (if isand then t else o) (if isand then o else t) :: .label t ::
      (c₁ ++ [.br o, .label o, .phi r v' b₂ v b₁])) b s o Q := by
  apply hc.append
  intro s₁ hs₁ pre post hn prev
  have h := h s₁ hs₁
  obtain ⟨P, hP⟩ : ∃ P, P = pre ++ ((.condbr v (if isand then t else o)
      (if isand then o else t) :: .label t :: (c₁ ++ [.br o, .label o, .phi r v' b₂ v b₁])) ++
        post) := ⟨_, rfl⟩
  rw [← hP] at hn ⊢
  have hcode : (.condbr v (if isand then t else o) (if isand then o else t) :: .label t ::
      (c₁ ++ [.br o, .label o, .phi r v' b₂ v b₁])) ++ post =
        .condbr v (if isand then t else o) (if isand then o else t) :: .label t :: (c₁ ++
          .br o :: .label o :: .phi r v' b₂ v b₁ :: post) := by simp
  rw [hcode] at hP ⊢
  by_cases htrue : M.istrue (v.eval M s₁) = isand
  · rw [if_pos htrue] at h
    obtain ⟨prev', s', hex, hs'⟩ := h.exec
      (p := pre ++ [.condbr v (if isand then t else o) (if isand then o else t), .label t]) hn
      (by simpa using hP) b₁
    refine ⟨b₂, _, Relation.ReflTransGen.trans ?_ (hex.trans
      (.tail (b := ⟨.phi r v' b₂ v b₁ :: post, o, b₂, s'⟩) ?_ ?_)), hs'⟩
    · exact exec_condbr
        (p := pre ++ [.condbr v (if isand then t else o) (if isand then o else t)]) hn
        (by simpa using hP) (by rw [htrue]; cases isand <;> rfl)
    · exact exec_br (p := pre ++ .condbr v (if isand then t else o)
        (if isand then o else t) :: .label t :: (c₁ ++ [.br o])) hn (by simpa using hP)
    · simp only [Cfg.step, if_true]
  · rw [if_neg htrue] at h
    obtain ⟨hne, hs⟩ := h
    refine ⟨b₁, _, .tail (b := ⟨.phi r v' b₂ v b₁ :: post, o, b₁, s₁⟩) ?_ ?_, hs⟩
    · exact exec_condbr (p := pre ++ .condbr v (if isand then t else o)
        (if isand then o else t) :: .label t :: (c₁ ++ [.br o])) hn (by simpa using hP)
        (by rw [Bool.eq_not_of_ne htrue]; cases isand <;> rfl)
    · simp only [Cfg.step, if_neg hne, if_true]

end Runs

end CaLang.Cfg

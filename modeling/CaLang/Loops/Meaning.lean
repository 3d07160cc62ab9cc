import CaLang.Addresses.Indices

/-! # What loops mean

Statements with `for` over a range, `while`, `loop`, `if`, `break` and `continue`, and their
meaning. **A range is the list of its values**: the body of a `for` is run for each of them in
order, with the loop variable bound to it, until there are none left or a `break` leaves the loop.

A variable keeps a word; what an expression does besides reading variables is a parameter.  The run
of a statement lists the ranges that were visited to their end.
-/

namespace CaLang.Loops

open Instr
open Addresses (IntType)

/-! ### Ranges -/

/-- `a..b` or `a..=b` of an integer type. -/
structure Range where
  type : IntType
  start : BitVec type.width
  fin : BitVec type.width
  inclusive : Bool

namespace Range

variable (r : Range)

/-- The integer behind the last one of the range. -/
def behind : Int := wordValue r.type.signed r.fin + if r.inclusive then 1 else 0

/-- How many integers the range has. -/
def size : Nat := (r.behind - wordValue r.type.signed r.start).toNat

/-- The words of `n` integers from `v` on. -/
def wordsFrom (w : Nat) (v : Int) : Nat → List Word
  | 0 => []
  | n + 1 => ⟨w, BitVec.ofInt w v⟩ :: wordsFrom w (v + 1) n

/-- **The values of the range in order.** -/
def words : List Word := wordsFrom r.type.width (wordValue r.type.signed r.start) r.size

/-- The type has an integer behind the last one of the range. -/
def Regular : Prop := r.behind < wordBound r.type.signed r.type.width

instance : Decidable r.Regular := inferInstanceAs (Decidable (_ < _))

end Range

/-! ### Statements -/

/-- An expression, which reads variables and may change the world. -/
structure Expr (ι F : Type) where
  f : F
  args : List ι

inductive Stmt (ι F : Type)
  | skip
  | seq (s t : Stmt ι F)
  | expr (e : Expr ι F)
  | assign (x : ι) (e : Expr ι F)
  | ifThen (cond : Expr ι F) (body : Stmt ι F)
  | ifElse (cond : Expr ι F) (body remain : Stmt ι F)
  | while (cond : Expr ι F) (body : Stmt ι F)
  | loop (body : Stmt ι F)
  | for (var : ι) (type : IntType) (start fin : Expr ι F) (inclusive : Bool) (body : Stmt ι F)
  | break
  | continue

/-- What expressions do. -/
abbrev Interp (F W : Type) := F → List Word → W → Word × W

/-- The variables and the world. -/
structure Store (ι W : Type) where
  vars : ι → Word
  world : W

/-- How a statement ends. -/
inductive Flow
  | normal | break | continue
  deriving DecidableEq

variable {ι F W : Type} [DecidableEq ι]

def Store.bind (σ : Store ι W) (x : ι) (v : Word) : Store ι W :=
  { σ with vars := Function.update σ.vars x v }

def Expr.eval (I : Interp F W) (e : Expr ι F) (σ : Store ι W) : Word × Store ι W :=
  let r := I e.f (e.args.map σ.vars) σ.world
  (r.1, { σ with world := r.2 })

/-- A word that is not zero is true. -/
def truth (v : Word) : Bool := v.bits ≠ 0

/-- The end of a statement: how it ends, the store and the ranges that were visited to their end. -/
abbrev End (ι W : Type) := Flow × Store ι W × List Range

/-- The body of a loop for each of the words; the variable is that of the loop only. -/
def visits (body : Store ι W → Option (End ι W)) (x : ι) :
    List Word → Store ι W → Option (Bool × Store ι W × List Range)
  | [], σ => some (true, σ, [])
  | v :: vs, σ =>
      match body (σ.bind x v) with
      | none => none
      | some (.break, σ₁, rs) => some (false, σ₁.bind x (σ.vars x), rs)
      | some (_, σ₁, rs) =>
          (visits body x vs (σ₁.bind x (σ.vars x))).map fun (done, σ₂, rs') =>
            (done, σ₂, rs ++ rs')

/-- A run that goes on, with the ranges that were visited before. -/
def before (rs : List Range) (r : Option (End ι W)) : Option (End ι W) :=
  r.map fun (o, σ, rs') => (o, σ, rs ++ rs')

/-- **The run of a statement**, if it ends within the fuel; bounds have the type of the range. -/
def run (I : Interp F W) : Nat → Stmt ι F → Store ι W → Option (End ι W)
  | 0, _, _ => none
  | fuel + 1, s, σ =>
      match s with
      | .skip => some (.normal, σ, [])
      | .seq s t =>
          match run I fuel s σ with
          | some (.normal, σ₁, rs) => before rs (run I fuel t σ₁)
          | r => r
      | .expr e => some (.normal, (e.eval I σ).2, [])
      | .assign x e => some (.normal, (e.eval I σ).2.bind x (e.eval I σ).1, [])
      | .ifThen cond body =>
          let (v, σ) := cond.eval I σ
          if truth v then run I fuel body σ else some (.normal, σ, [])
      | .ifElse cond body remain =>
          let (v, σ) := cond.eval I σ
          if truth v then run I fuel body σ else run I fuel remain σ
      | .while cond body =>
          let (v, σ) := cond.eval I σ
          if truth v then
            match run I fuel body σ with
            | none => none
            | some (.break, σ₁, rs) => some (.normal, σ₁, rs)
            | some (_, σ₁, rs) => before rs (run I fuel (.while cond body) σ₁)
          else some (.normal, σ, [])
      | .loop body =>
          match run I fuel body σ with
          | none => none
          | some (.break, σ₁, rs) => some (.normal, σ₁, rs)
          | some (_, σ₁, rs) => before rs (run I fuel (.loop body) σ₁)
      | .for x type start fin inclusive body =>
          let (v, σ₁) := start.eval I σ
          let (v', σ₂) := fin.eval I σ₁
          if v.width = type.width ∧ v'.width = type.width then
            let r : Range := ⟨type, v.bits.setWidth _, v'.bits.setWidth _, inclusive⟩
            (visits (run I fuel body) x r.words σ₂).map fun (done, σ₃, rs) =>
              (.normal, σ₃, if done then r :: rs else rs)
          else none
      | .break => some (.break, σ, [])
      | .continue => some (.continue, σ, [])

/-! ### Runs that end -/

section

variable {I : Interp F W} {fuel : Nat} {s t body : Stmt ι F} {cond : Expr ι F}
  {σ σ' : Store ι W} {o : Flow} {rs : List Range}

omit [DecidableEq ι] in
theorem before_eq_some {rs' : List Range} {r : Option (End ι W)}
    (h : before rs' r = some (o, σ', rs)) : ∃ rs₂, r = some (o, σ', rs₂) ∧ rs = rs' ++ rs₂ := by
  obtain ⟨⟨o₂, σ₂, rs₂⟩, hr, h⟩ := Option.map_eq_some_iff.mp h
  cases h
  exact ⟨rs₂, hr, rfl⟩

theorem run_seq (h : run I (fuel + 1) (.seq s t) σ = some (o, σ', rs)) :
    (o ≠ .normal ∧ run I fuel s σ = some (o, σ', rs)) ∨
      ∃ σ₁ rs₁ rs₂, run I fuel s σ = some (.normal, σ₁, rs₁) ∧
        run I fuel t σ₁ = some (o, σ', rs₂) ∧ rs = rs₁ ++ rs₂ := by
  simp only [run] at h
  split at h
  · case _ σ₁ rs₁ hs =>
      obtain ⟨rs₂, ht, rfl⟩ := before_eq_some h
      exact .inr ⟨σ₁, rs₁, rs₂, hs, ht, rfl⟩
  · case _ hne =>
      refine .inl ⟨?_, h⟩
      rintro rfl
      exact hne σ' rs h

/-- How a loop goes on behind a round of its body. -/
def Round (next : Store ι W → Option (End ι W)) (r : Option (End ι W)) (o : Flow) (σ' : Store ι W)
    (rs : List Range) : Prop :=
  ∃ o₁ σ₁ rs₁, r = some (o₁, σ₁, rs₁) ∧
    (o₁ = .break ∧ o = .normal ∧ σ' = σ₁ ∧ rs = rs₁ ∨
      o₁ ≠ .break ∧ ∃ rs₂, next σ₁ = some (o, σ', rs₂) ∧ rs = rs₁ ++ rs₂)

theorem run_while (h : run I (fuel + 1) (.while cond body) σ = some (o, σ', rs)) :
    (truth (cond.eval I σ).1 = false ∧ o = .normal ∧ σ' = (cond.eval I σ).2 ∧ rs = []) ∨
      (truth (cond.eval I σ).1 = true ∧
        Round (run I fuel (.while cond body)) (run I fuel body (cond.eval I σ).2) o σ' rs) := by
  simp only [run] at h
  cases htruth : truth (cond.eval I σ).1 with
  | false =>
      rw [htruth] at h
      cases h
      exact .inl ⟨rfl, rfl, rfl, rfl⟩
  | true =>
      rw [if_pos htruth] at h
      refine .inr ⟨rfl, ?_⟩
      split at h
      · cases h
      · case _ σ₁ rs₁ hb =>
          cases h
          exact ⟨_, _, _, hb, .inl ⟨rfl, rfl, rfl, rfl⟩⟩
      · case _ o₁ σ₁ rs₁ hne hb =>
          exact ⟨_, _, _, hb, .inr ⟨hne, before_eq_some h⟩⟩

theorem run_loop (h : run I (fuel + 1) (.loop body) σ = some (o, σ', rs)) :
    Round (run I fuel (.loop body)) (run I fuel body σ) o σ' rs := by
  simp only [run] at h
  split at h
  · cases h
  · case _ σ₁ rs₁ hb =>
      cases h
      exact ⟨_, _, _, hb, .inl ⟨rfl, rfl, rfl, rfl⟩⟩
  · case _ o₁ σ₁ rs₁ hne hb =>
      exact ⟨_, _, _, hb, .inr ⟨hne, before_eq_some h⟩⟩

omit [DecidableEq ι] in
theorem Round.flow {next : Store ι W → Option (End ι W)} {r : Option (End ι W)}
    (h : Round next r o σ' rs)
    (hnext : ∀ {σ₁ rs₂}, next σ₁ = some (o, σ', rs₂) → o = .normal) : o = .normal := by
  obtain ⟨o₁, σ₁, rs₁, -, ⟨-, ho, -⟩ | ⟨-, rs₂, h, -⟩⟩ := h
  · exact ho
  · exact hnext h

/-- A `while` is left at its end. -/
theorem run_while_flow (h : run I fuel (.while cond body) σ = some (o, σ', rs)) : o = .normal := by
  induction fuel generalizing σ rs with
  | zero => cases h
  | succ fuel ih =>
      rcases run_while h with ⟨-, ho, -⟩ | ⟨-, hround⟩
      · exact ho
      · exact hround.flow ih

theorem run_loop_flow (h : run I fuel (.loop body) σ = some (o, σ', rs)) : o = .normal := by
  induction fuel generalizing σ rs with
  | zero => cases h
  | succ fuel ih => exact (run_loop h).flow ih

theorem run_for {x : ι} {type : IntType} {start fin : Expr ι F} {inclusive : Bool}
    (h : run I (fuel + 1) (.for x type start fin inclusive body) σ = some (o, σ', rs)) :
    ∃ a b done rs', (start.eval I σ).1 = ⟨type.width, a⟩ ∧
      (fin.eval I (start.eval I σ).2).1 = ⟨type.width, b⟩ ∧
      visits (run I fuel body) x (Range.words ⟨type, a, b, inclusive⟩)
        (fin.eval I (start.eval I σ).2).2 = some (done, σ', rs') ∧
      o = .normal ∧ rs = if done then ⟨type, a, b, inclusive⟩ :: rs' else rs' := by
  simp only [run] at h
  split at h
  · case _ hw =>
      obtain ⟨⟨done, σ₃, rs'⟩, hv, h⟩ := Option.map_eq_some_iff.mp h
      cases h
      generalize (start.eval I σ).1 = v at hw hv
      generalize (fin.eval I (start.eval I σ).2).1 = v' at hw hv
      obtain ⟨w, a⟩ := v
      obtain ⟨w', b⟩ := v'
      obtain ⟨rfl, h'⟩ := hw
      dsimp only at h'
      subst h'
      simp only [BitVec.setWidth_eq] at hv
      exact ⟨a, b, done, rs', rfl, rfl, hv, rfl, by simp only [BitVec.setWidth_eq]⟩
  · cases h

theorem visits_cons {f : Store ι W → Option (End ι W)} {x : ι} {v : Word} {vs : List Word}
    {done : Bool} (h : visits f x (v :: vs) σ = some (done, σ', rs)) :
    ∃ o₁ σ₁ rs₁, f (σ.bind x v) = some (o₁, σ₁, rs₁) ∧
      (o₁ = .break ∧ done = false ∧ σ' = σ₁.bind x (σ.vars x) ∧ rs = rs₁ ∨
        o₁ ≠ .break ∧ ∃ rs₂, visits f x vs (σ₁.bind x (σ.vars x)) = some (done, σ', rs₂) ∧
          rs = rs₁ ++ rs₂) := by
  simp only [visits] at h
  split at h
  · cases h
  · case _ σ₁ rs₁ hb =>
      cases h
      exact ⟨_, _, _, hb, .inl ⟨rfl, rfl, rfl, rfl⟩⟩
  · case _ o₁ σ₁ rs₁ hne hb =>
      obtain ⟨⟨done₂, σ₂, rs₂⟩, hv, h⟩ := Option.map_eq_some_iff.mp h
      cases h
      exact ⟨_, _, _, hb, .inr ⟨hne, rs₂, hv, rfl⟩⟩

end

end CaLang.Loops

import CaLang.Pointers.Walk

/-! # When pointers are dereferenced as often as the source says

`Expr.form` tells from the expression and its types how the operand is kept.

* **Of a variable, a call, a field, an item and an array cast to a pointer the address is kept**,
  and so it is of what is dereferenced from them.
* A literal, a cast and pointer `+` and `-` give the value itself, and so does `&` of a kept
  address.
* What is dereferenced from a value is right if it is no pointer.  **If it is one, the value is
  tagged as an address** and is loaded once more when it is used; a further `*` makes up for it.
* `&` of anything but a kept address is wrong for good.

`Fits` says what the operand of each form is, a step lemma for each walker keeps it, and the
induction on the expression gives the operand of every expression.
-/

namespace CaLang.Pointers

open CaLang.Types (Name Prim LLVMType llvmtypeFromToken)

/-- How the operand of an expression is kept. -/
inductive Form
  /-- By the address. -/
  | place
  /-- By the value. -/
  | value
  /-- By the value, tagged as an address. -/
  | pending
  /-- By something else. -/
  | bad
  deriving DecidableEq

/-- The operand is loaded as often as it must be. -/
def Form.exact : Form → Bool
  | .place | .value => true
  | .pending | .bad => false

/-- `*` of an operand, with the type that is pointed to. -/
def Form.deref : Form → CADataType → Form
  | .place, _ => .place
  | .bad, _ => .bad
  | _, .pointer _ => .pending
  | _, _ => .value

/-- `&` of an operand. -/
def Form.address : Form → Form
  | .place => .value
  | _ => .bad

/-- A cast from a type to another. -/
def Form.as (F : Form) : Option CADataType → CADataType → Form
  | some (.array _ _), .pointer _ => if F = .place then .place else .bad
  | _, _ => if F.exact then .value else .bad

theorem Form.as_bad (t : Option CADataType) (t' : CADataType) : Form.bad.as t t' = .bad := by
  unfold Form.as
  split <;> rfl

/-- A field of the operand of `expr.` or `expr->`. -/
def Form.base (direct : Bool) (F : Form) : Bool := if direct then F = .place else F.exact

/-- A call that returns this type. -/
def Form.call (ret : CADataType) : Form := if ret = .prim .void then .value else .place

/-- An operand of this type can be used: what is copied needs its address. -/
def Form.sound (t : CADataType) : Form → Bool
  | .place => true
  | .value => !t.isComplex
  | .pending | .bad => false

mutual

def Expr.form (env : Env) : Expr → Form
  | .id _ => .place
  | .literal _ _ => .value
  | .address e => (e.form env).address
  | .deref e =>
      match e.type env with
      | some (.pointer t) => (e.form env).deref t
      | _ => .bad
  | .op2 _ e k => if (e.form env).exact && (k.form env).exact then .value else .bad
  | .as e t => (e.form env).as (e.type env) t
  | .call f args =>
      match env.fn f with
      | some F => if args.exact env then .call F.ret else .bad
      | none => .bad
  | .methodCall direct e f args =>
      match ((e.type env).bind (structOf direct)).bind (env.method · f) with
      | some F => if (e.form env).base direct && args.exact env then .call F.ret else .bad
      | none => .bad
  | .arrayitem e k => if e.form env = .place && (k.form env).exact then .place else .bad
  | .structitem direct e _ => if (e.form env).base direct then .place else .bad

/-- All arguments are loaded as often as they must be. -/
def Args.exact (env : Env) : Args → Bool
  | .nil => true
  | .cons e rest => (e.form env).exact && rest.exact env

end

/-! ### Paths that are off -/

/-- A path is not the other one, and stays so under further reads of both. -/
def Path.Off (p q : Path) : Prop := p.kernel ≠ q.kernel ∨ q.depth < p.depth

namespace Path.Off

variable {p q : Path}

theorem ne (h : p.Off q) : p ≠ q := by
  rintro rfl
  exact h.elim (fun h => h rfl) (lt_irrefl _)

theorem read (h : p.Off q) : p.read.Off q.read := by
  simpa only [Off, kernel_read, depth_read, add_lt_add_iff_right] using h

theorem read_left (h : p.Off q) : p.read.Off q := by
  refine h.imp (fun h => by rwa [kernel_read]) ?_
  intro h
  rw [depth_read]
  exact h.trans (lt_add_one _)

theorem read_self (q : Path) : q.read.Off q := .inr (by rw [depth_read]; exact lt_add_one _)

theorem toPlace {m : Meaning} (h : p.Off m.toValue) : p.Off m.toPlace := by
  refine h.imp (fun h => by rwa [Meaning.kernel_toPlace]) ?_
  intro h
  rw [← m.depth_toPlace] at h
  exact (lt_add_one _).trans h

theorem toValue_toPlace (m : Meaning) : m.toValue.Off m.toPlace := by
  rw [← m.read_toPlace]
  exact read_self _

end Path.Off

/-! ### The operand of each form -/

/-- An operand is as its form says, for an expression of this meaning and type. -/
def CalcOperand.Fits (m : Meaning) (t : CADataType) : Form → CalcOperand → Prop
  | .place, o => o = ⟨.alloc, ⟨m.toPlace, .pointer (llvmtypeFromCatype t)⟩, t⟩
  | .value, o => ∃ tag ≠ .alloc, o = ⟨tag, ⟨m.toValue, llvmtypeFromCatype t⟩, t⟩
  | .pending, o => o = ⟨.alloc, ⟨m.toValue, llvmtypeFromCatype t⟩, t⟩ ∧ ∃ u, t = .pointer u
  | .bad, o => o.catype = t ∧ o.operand.path.Off m.toValue

/-- The same of a walk, which yields an operand unless the form is bad. -/
def Fits (m : Meaning) (t : CADataType) (F : Form) : Option CalcOperand → Prop
  | some o => o.Fits m t F
  | none => F = .bad

/-- What is popped is `v` at this type if `b`, and otherwise something else at the type. -/
def Pops (b : Bool) (v : Value) (t : CADataType) (r : Option (Value × CADataType)) : Prop :=
  if b then r = some (v, t) else ∀ s ∈ r, s.2 = t ∧ s.1.path.Off v.path

theorem Value.createLoad_eq_some {v w : Value} (h : v.createLoad = some w) :
    ∃ T, v.type = .pointer T ∧ w = ⟨v.path.read, T⟩ := by
  unfold Value.createLoad at h
  split at h
  · next T hT => exact ⟨T, hT, (Option.some.inj h).symm⟩
  · cases h

variable {m : Meaning} {t : CADataType} {F : Form} {o : CalcOperand}

/-- Loaded, the operand is the value if the form is exact. -/
theorem CalcOperand.Fits.taken (h : o.Fits m t F) :
    Pops F.exact ⟨m.toValue, llvmtypeFromCatype t⟩ t (popRightValue true o) := by
  cases F with
  | place =>
      subst h
      simp [Pops, Form.exact, popRightValue, Value.createLoad]
  | value =>
      obtain ⟨tag, htag, rfl⟩ := h
      simp [Pops, Form.exact, popRightValue, htag]
  | pending =>
      obtain ⟨rfl, u, rfl⟩ := h
      intro s hs
      obtain rfl : (⟨m.toValue.read, llvmtypeFromCatype u⟩, _) = s := Option.some.inj hs
      exact ⟨rfl, .read_self _⟩
  | bad =>
      obtain ⟨rfl, hoff⟩ := h
      intro s hs
      unfold popRightValue at hs
      split at hs
      · obtain ⟨v, hv, rfl⟩ := Option.map_eq_some_iff.mp hs
        obtain ⟨T, -, rfl⟩ := Value.createLoad_eq_some hv
        exact ⟨rfl, hoff.read_left⟩
      · obtain rfl := Option.some.inj hs
        exact ⟨rfl, hoff⟩

/-- Without the load, the operand is the address if that is kept. -/
theorem CalcOperand.Fits.addressed (h : o.Fits m t F) :
    Pops (F = .place) ⟨m.toPlace, .pointer (llvmtypeFromCatype t)⟩ t (popRightValue false o) := by
  cases F with
  | place =>
      subst h
      rfl
  | value =>
      obtain ⟨tag, -, rfl⟩ := h
      intro s hs
      obtain rfl := Option.some.inj hs
      exact ⟨rfl, .toValue_toPlace m⟩
  | pending =>
      obtain ⟨rfl, -⟩ := h
      intro s hs
      obtain rfl := Option.some.inj hs
      exact ⟨rfl, .toValue_toPlace m⟩
  | bad =>
      obtain ⟨rfl, hoff⟩ := h
      intro s hs
      obtain rfl := Option.some.inj hs
      exact ⟨rfl, hoff.toPlace⟩

/-! ### The walkers -/

/-- A walk whose operands are all exact, or which is bad. -/
theorem fits_of_pops {b : Bool} {w : Option CalcOperand} (hF : b = true → Fits m t F w)
    (hbad : b = false → ∀ o ∈ w, o.catype = t ∧ o.operand.path.Off m.toValue) :
    Fits m t (if b then F else .bad) w := by
  cases b with
  | true => exact hF rfl
  | false =>
      cases w with
      | none => rfl
      | some o => exact hbad rfl o rfl

theorem CalcOperand.Fits.address (h : o.Fits m t F) :
    CaLang.Pointers.Fits (.value m.toPlace) (.pointer t) F.address (walkExprAddress o) := by
  cases F with
  | place =>
      subst h
      exact ⟨.calc, nofun, rfl⟩
  | value =>
      obtain ⟨tag, -, rfl⟩ := h
      exact ⟨rfl, .toValue_toPlace m⟩
  | pending =>
      obtain ⟨rfl, -⟩ := h
      exact ⟨rfl, .toValue_toPlace m⟩
  | bad =>
      obtain ⟨rfl, hoff⟩ := h
      exact ⟨rfl, hoff.toPlace⟩

/-- What a value points to is loaded, and is a value again, tagged by its type. -/
theorem fits_deref_value (m : Meaning) (t : CADataType) (tag : OperandType)
    (hF : F = .value ∨ F = .pending) :
    Fits (.place m.toValue) t (F.deref t)
      (walkExprDeref ⟨tag, ⟨m.toValue, llvmtypeFromCatype (.pointer t)⟩, .pointer t⟩) := by
  have hF : F.deref t = Form.value.deref t := by
    rcases hF with rfl | rfl
    · rfl
    · cases t <;> rfl
  rw [hF]
  cases t with
  | pointer u => exact ⟨rfl, u, rfl⟩
  | array u n => exact ⟨.calc, nofun, rfl⟩
  | struct s => exact ⟨.calc, nofun, rfl⟩
  | prim p => cases p <;> exact ⟨.calc, nofun, rfl⟩

theorem CalcOperand.Fits.deref (h : o.Fits m (.pointer t) F) :
    CaLang.Pointers.Fits (.place m.toValue) t (F.deref t) (walkExprDeref o) := by
  cases F with
  | place =>
      subst h
      change CalcOperand.Fits _ _ .place ⟨.alloc, ⟨m.toPlace.read, _⟩, t⟩
      rw [m.read_toPlace]
      rfl
  | value =>
      obtain ⟨tag, -, rfl⟩ := h
      exact fits_deref_value m t tag (.inl rfl)
  | pending =>
      obtain ⟨rfl, -⟩ := h
      exact fits_deref_value m t .alloc (.inr rfl)
  | bad =>
      obtain ⟨hcat, hoff⟩ := h
      unfold walkExprDeref popRightValue
      simp only [Bool.false_and, Bool.false_eq_true, if_false, hcat, Option.bind_eq_bind,
        Option.bind_some]
      cases hv : o.operand.createLoad with
      | none => rfl
      | some v =>
          obtain ⟨T, -, rfl⟩ := Value.createLoad_eq_some hv
          exact ⟨rfl, hoff.read⟩

/-! ### The walkers that pop their operands -/

/-- What is popped is there, right or off, or the walker stops. -/
theorem Pops.cases {b : Bool} {v : Value} {r : Option (Value × CADataType)} (h : Pops b v t r) :
    r = none ∧ b = false ∨
      ∃ w, r = some (w, t) ∧ (b = true → w = v) ∧ (b = false → w.path.Off v.path) := by
  cases b with
  | true => exact .inr ⟨v, h, fun _ => rfl, nofun⟩
  | false =>
      cases r with
      | none => exact .inl ⟨rfl, rfl⟩
      | some s =>
          obtain ⟨w, t'⟩ := s
          obtain ⟨rfl, hoff⟩ := h _ rfl
          exact .inr ⟨w, rfl, nofun, fun _ => hoff⟩

theorem Path.Off.of_ne {p q : Path} (hp : p.kernel = p) (hq : q.kernel = q) (h : p ≠ q) :
    p.Off q := .inl (by rwa [hp, hq])

theorem Path.kernel_op2 (minus : Bool) (t : Option CADataType) (p k : Path) :
    (Path.op2 minus t p k).kernel = Path.op2 minus t p k := by
  unfold Path.op2
  split
  · rfl
  · split <;> rfl

theorem Path.op2_inj {minus : Bool} {t : Option CADataType} {p k p' k' : Path}
    (h : Path.op2 minus t p k = Path.op2 minus t p' k') : p = p' ∧ k = k' := by
  unfold Path.op2 at h
  split at h
  all_goals
    cases minus
    all_goals
      cases h
      exact ⟨rfl, rfl⟩

variable {m' : Meaning} {t' : CADataType} {F' : Form} {o' : CalcOperand}

/-- A sum or a difference of what was popped, where the walk goes on. -/
theorem walkExprOp2_eq {minus : Bool} {v v' : Value} (hv : popRightValue true o = some (v, t))
    (hv' : popRightValue true o' = some (v', t')) {c : CalcOperand}
    (h : walkExprOp2 minus o o' = some c) :
    c = ⟨.calc, ⟨.op2 minus (some t) v.path v'.path, v.type⟩, t⟩ := by
  unfold walkExprOp2 at h
  simp only [hv, hv', Option.bind_eq_bind, Option.bind_some] at h
  cases t with
  | pointer u =>
      simp only [handlePointerOp, Value.createGEP, Option.bind_eq_bind] at h
      split at h
      · split at h
        · obtain rfl := Option.some.inj h
          cases minus <;> rfl
        · cases h
      · cases h
  | _ =>
      simp only at h
      split at h
      · obtain rfl := Option.some.inj h
        rfl
      · cases h

/-- Of two values of types that go together there is the sum and the difference. -/
theorem walkExprOp2_values {minus : Bool} {p p' : Path}
    (hv : popRightValue true o = some (⟨p, llvmtypeFromCatype t⟩, t))
    (hv' : popRightValue true o' = some (⟨p', llvmtypeFromCatype t'⟩, t'))
    (ht : (∃ u, t = .pointer u) ∧ t'.isInteger ∨ t.isInteger ∧ t = t') :
    walkExprOp2 minus o o' =
      some ⟨.calc, ⟨.op2 minus (some t) p p', llvmtypeFromCatype t⟩, t⟩ := by
  unfold walkExprOp2
  simp only [hv, hv', Option.bind_eq_bind, Option.bind_some]
  rcases ht with ⟨⟨u, rfl⟩, hint⟩ | ⟨hint, rfl⟩
  · simp only [hint, if_true, handlePointerOp, Value.createGEP, llvmtypeFromCatype,
      Option.bind_eq_bind, Option.bind_some]
    cases minus <;> rfl
  · cases t with
    | prim q =>
        simp only [if_true]
        rfl
    | _ => cases hint

theorem CalcOperand.Fits.op2 {minus : Bool} (h : o.Fits m t F) (h' : o'.Fits m' t' F')
    (ht : (∃ u, t = .pointer u) ∧ t'.isInteger ∨ t.isInteger ∧ t = t') :
    CaLang.Pointers.Fits (.value (.op2 minus (some t) m.toValue m'.toValue)) t
      (if F.exact && F'.exact then .value else .bad) (walkExprOp2 minus o o') := by
  rcases h.taken.cases with ⟨hv, hF⟩ | ⟨v, hv, hgood, hoff⟩
  · have hw : walkExprOp2 minus o o' = none := by
      unfold walkExprOp2
      rw [hv]
      rfl
    rw [hF, hw]
    rfl
  rcases h'.taken.cases with ⟨hv', hF'⟩ | ⟨v', hv', hgood', hoff'⟩
  · have hw : walkExprOp2 minus o o' = none := by
      unfold walkExprOp2
      simp only [hv, hv', Option.bind_eq_bind, Option.bind_some, Option.bind_none]
    rw [hF', Bool.and_false, hw]
    rfl
  refine fits_of_pops ?_ ?_
  · intro hb
    obtain ⟨hb, hb'⟩ := Bool.and_eq_true_iff.mp hb
    obtain rfl := hgood hb
    obtain rfl := hgood' hb'
    rw [walkExprOp2_values hv hv' ht]
    exact ⟨.calc, nofun, rfl⟩
  · intro hb c hc
    obtain rfl := walkExprOp2_eq hv hv' hc
    refine ⟨rfl, .of_ne (Path.kernel_op2 ..) (Path.kernel_op2 ..) ?_⟩
    intro he
    obtain ⟨hp, hp'⟩ := Path.op2_inj he
    rcases Bool.and_eq_false_iff.mp hb with hb | hb
    · exact (hoff hb).ne hp
    · exact (hoff' hb).ne hp'

/-- The operand that is popped with its load is no address. -/
theorem popRightOperand_load {c : CalcOperand} (h : popRightOperand true o = some c) :
    c.type ≠ .alloc ∧ popRightValue true o = some (c.operand, c.catype) := by
  unfold popRightOperand at h
  unfold popRightValue
  split at h
  · next hl =>
      obtain ⟨v, hv, rfl⟩ := Option.map_eq_some_iff.mp h
      rw [if_pos hl, hv]
      exact ⟨nofun, rfl⟩
  · next hl =>
      obtain rfl := Option.some.inj h
      rw [if_neg hl]
      exact ⟨fun ht => hl (by rw [ht]; rfl), rfl⟩

theorem popRightOperand_eq_none (h : popRightOperand true o = none) :
    popRightValue true o = none := by
  unfold popRightOperand at h
  unfold popRightValue
  split at h
  · next hl =>
      rw [if_pos hl, Option.map_eq_none_iff.mp h]
      rfl
  · cases h

/-- A cast that is not from an array: an instruction stands for it unless the types are the
same. -/
theorem fits_as_value {c : Bool} (h : o.Fits m t F) (hc : c = false ↔ t = t')
    {p : Path} (hp : p = if t = t' then m.toValue else .as m.toValue t') :
    Fits (.value p) t' (if F.exact then .value else .bad)
      ((popRightOperand true o).bind fun calco =>
        some ⟨calco.type, if c then calco.operand.genCastValue t' else calco.operand, t'⟩) := by
  cases hpop : popRightOperand true o with
  | none =>
      rcases h.taken.cases with ⟨-, hF⟩ | ⟨v, hv, -⟩
      · rw [hF]
        rfl
      · rw [popRightOperand_eq_none hpop] at hv
        cases hv
  | some a =>
      obtain ⟨htag, hval⟩ := popRightOperand_load hpop
      rcases h.taken.cases with ⟨hv, -⟩ | ⟨v, hv, hgood, hoff⟩
      · rw [hval] at hv
        cases hv
      obtain ⟨rfl, -⟩ := Prod.mk.inj (Option.some.inj (hval.symm.trans hv))
      refine fits_of_pops ?_ ?_
      · intro hb
        refine ⟨a.type, htag, ?_⟩
        cases c with
        | false =>
            obtain rfl := hc.mp rfl
            change CalcOperand.mk _ a.operand _ = _
            rw [hp, if_pos rfl, hgood hb]
            rfl
        | true =>
            change CalcOperand.mk _ (a.operand.genCastValue t') _ = _
            rw [hp, if_neg fun he => Bool.noConfusion (hc.mpr he), hgood hb]
            rfl
      · intro hb b hbs
        obtain rfl := Option.some.inj hbs
        refine ⟨rfl, ?_⟩
        cases c with
        | false =>
            obtain rfl := hc.mp rfl
            rw [hp, if_pos rfl]
            exact hoff hb
        | true =>
            rw [hp, if_neg fun he => Bool.noConfusion (hc.mpr he)]
            exact .of_ne rfl rfl fun he => (hoff hb).ne (Path.as.inj he).1

/-- The address of an array, cast to a pointer and put in a variable. -/
theorem CalcOperand.Fits.as_array (h : o.Fits m t F) (t' : CADataType) :
    CaLang.Pointers.Fits (.value (.as m.toPlace t')) t' (if F = .place then .place else .bad)
      (some ⟨.alloc, (o.operand.genCastValue t').genEntryBlockVar, t'⟩) := by
  by_cases hF : F = .place
  · subst hF
    obtain rfl := h
    rfl
  · have hpop := h.addressed
    rw [decide_eq_false hF] at hpop
    obtain ⟨-, hoff⟩ := hpop _ rfl
    rw [if_neg hF]
    exact ⟨rfl, .inl fun he => hoff.ne (Path.as.inj he).1⟩

/-- The result of a call, on the path that the code calls with. -/
theorem fits_call {b : Bool} {p q : Path} (ret : CADataType) (hp : p.kernel = p)
    (hq : q.kernel = q) (hgood : b = true → p = q) (hbad : b = false → p ≠ q) :
    Fits (.value q) ret (if b then .call ret else .bad) (some (walkExprCall p ret)) := by
  refine fits_of_pops ?_ ?_
  · intro hb
    obtain rfl := hgood hb
    unfold walkExprCall Form.call
    split
    · exact ⟨.callInst, nofun, rfl⟩
    · rfl
  · intro hb c hc
    obtain rfl := Option.some.inj hc
    unfold walkExprCall
    split
    · exact ⟨rfl, .of_ne hp hq (hbad hb)⟩
    · exact ⟨rfl, .inl fun he => hbad hb (hp.symm.trans (he.trans hq))⟩

/-- What `expr.` or `expr->` pops is the address of the struct if the form allows it. -/
theorem CalcOperand.Fits.based {direct : Bool} {s : Name} (h : o.Fits m t F)
    (hs : structOf direct t = some s) :
    Pops (F.base direct) ⟨m.base direct, .pointer (.struct s)⟩ t (popRightValue (!direct) o) := by
  cases direct with
  | true =>
      obtain rfl : t = .struct s := by
        unfold structOf at hs
        split at hs
        · obtain rfl := Option.some.inj hs
          rfl
        · cases hs
        · cases hs
      exact h.addressed
  | false =>
      obtain rfl : t = .pointer (.struct s) := by
        unfold structOf at hs
        split at hs
        · cases hs
        · obtain rfl := Option.some.inj hs
          rfl
        · cases hs
      exact h.taken

theorem CalcOperand.Fits.structitem {env : Env} {direct : Bool} {f : Name} {i : Nat}
    (h : o.Fits m t F) (hf : env.fieldOf direct f t = some (i, t')) :
    CaLang.Pointers.Fits (.place (.field (m.base direct) i)) t'
      (if F.base direct then .place else .bad) (walkExprStructitemop env direct f o) := by
  obtain ⟨s, hs, hf⟩ := Option.bind_eq_some_iff.mp hf
  unfold walkExprStructitemop
  rcases (h.based hs).cases with ⟨hv, hF⟩ | ⟨v, hv, hgood, hoff⟩
  · rw [hF, hv]
    rfl
  simp only [hv, hs, hf, Option.bind_eq_bind, Option.bind_some]
  refine fits_of_pops ?_ ?_
  · intro hb
    obtain rfl := hgood hb
    simp only [Value.createFieldGEP, if_true, Option.bind_some]
    rfl
  · intro hb c hc
    obtain ⟨p, hp, hc⟩ := Option.bind_eq_some_iff.mp hc
    obtain rfl := Option.some.inj hc
    unfold Value.createFieldGEP at hp
    split at hp
    · obtain rfl := Option.some.inj hp
      refine ⟨rfl, .inl fun he => (hoff hb).ne ?_⟩
      exact (Path.field.inj he).1
    · cases hp

theorem CalcOperand.Fits.arrayitem {n : Nat} (h : o.Fits m (.array t n) F)
    (h' : o'.Fits m' t' F') (hint : t'.isInteger) :
    CaLang.Pointers.Fits (.place (.item m.toPlace m'.toValue)) t
      (if F = .place && F'.exact then .place else .bad) (walkExprArrayitem o o') := by
  unfold walkExprArrayitem
  rcases h.addressed.cases with ⟨hv, hF⟩ | ⟨v, hv, hgood, hoff⟩
  · rw [hF, hv]
    rfl
  rcases h'.taken.cases with ⟨hv', hF'⟩ | ⟨v', hv', hgood', hoff'⟩
  · simp only [hv, hv', hF', Bool.and_false, Option.bind_eq_bind, Option.bind_some,
      Option.bind_none]
    rfl
  simp only [hv, hv', hint, if_true, Option.bind_eq_bind, Option.bind_some]
  refine fits_of_pops ?_ ?_
  · intro hb
    obtain ⟨hb, hb'⟩ := Bool.and_eq_true_iff.mp hb
    obtain rfl := hgood hb
    obtain rfl := hgood' hb'
    rfl
  · intro hb c hc
    obtain ⟨p, hp, hc⟩ := Option.bind_eq_some_iff.mp hc
    obtain rfl := Option.some.inj hc
    unfold Value.createItemGEP at hp
    split at hp
    · obtain rfl := Option.some.inj hp
      refine ⟨rfl, .inl ?_⟩
      intro he
      obtain ⟨he, he'⟩ := Path.item.inj he
      rcases Bool.and_eq_false_iff.mp hb with hb | hb
      · exact (hoff hb).ne he
      · exact (hoff' hb).ne he'
    · cases hp

/-- There is an instruction for a cast unless the types are the same, or an array is cast to a
pointer. -/
theorem genCastOps_eq_some {c : Bool} (h : genCastOps t t' = some c) :
    (∃ u n v, t = .array u n ∧ t' = .pointer v) ∨ (c = false ↔ t = t') := by
  unfold genCastOps at h
  split at h
  · next heq => exact .inr (iff_of_true (Option.some.inj h).symm heq)
  next hne =>
  split at h
  · exact .inr (iff_of_false (Option.some.inj h ▸ nofun) hne)
  · obtain ⟨-, h⟩ := Option.ite_none_right_eq_some.mp h
    exact .inr (iff_of_false (Option.some.inj h ▸ nofun) hne)
  · obtain ⟨-, h⟩ := Option.ite_none_right_eq_some.mp h
    exact .inr (iff_of_false (Option.some.inj h ▸ nofun) hne)
  · exact .inl ⟨_, _, _, rfl, rfl⟩
  · cases h

/-- A cast whose entry is not `-1`. -/
theorem CalcOperand.Fits.as {c : Bool} (h : o.Fits m t F) (hc : genCastOps t t' = some c) :
    CaLang.Pointers.Fits (.value (m.as (some t) t')) t'
      (F.as (some t) t') (walkExprAs t t' o) := by
  by_cases harr : ∃ u n v, t = .array u n ∧ t' = .pointer v
  · -- the array is popped without the load
    obtain ⟨u, n, v, rfl, rfl⟩ := harr
    have hw : walkExprAs (.array u n) (.pointer v) o =
        some ⟨.alloc, (o.operand.genCastValue (.pointer v)).genEntryBlockVar, .pointer v⟩ := by
      unfold walkExprAs
      rw [hc]
      rfl
    rw [hw]
    exact h.as_array _
  · have hF : F.as (some t) t' = if F.exact then .value else .bad := by
      unfold Form.as
      split
      · next u n v hu => exact absurd ⟨u, n, v, Option.some.inj hu, rfl⟩ harr
      · rfl
    have hm : m.as (some t) t' = if t = t' then m.toValue else .as m.toValue t' := by
      unfold Meaning.as
      split
      · next u n v hu => exact absurd ⟨u, n, v, Option.some.inj hu, rfl⟩ harr
      · simp only [Option.some.injEq]
    have hw : walkExprAs t t' o = (popRightOperand true o).bind fun calco =>
        some ⟨calco.type, if c then calco.operand.genCastValue t' else calco.operand, t'⟩ := by
      unfold walkExprAs
      rw [hc, Option.bind_eq_bind, Option.bind_some]
      split
      · next u n v => exact absurd ⟨u, n, v, rfl, rfl⟩ harr
      · rfl
    rw [hF, hw]
    exact fits_as_value h ((genCastOps_eq_some hc).resolve_left harr) hm

/-! ### Expressions -/

/-- The arguments that the code passes are the values that are denoted iff the operands of all are
exact. -/
def ArgsFit (b : Bool) (values : List Path) (r : Option (List Path)) : Prop :=
  if b then r = some values else ∀ argv ∈ r, argv ≠ values

theorem argsFit_cons {b : Bool} {values : List Path} {r : Option (List Path)}
    (h : o.Fits m t F) (hr : ArgsFit b values r) :
    ArgsFit (F.exact && b) (m.toValue :: values)
      ((popRightValue true o).bind fun s => r.bind fun argv => some (s.1.path :: argv)) := by
  rcases h.taken.cases with ⟨hv, hF⟩ | ⟨v, hv, hgood, hoff⟩
  · rw [hv, hF]
    exact nofun
  rw [hv, Option.bind_some]
  cases hF : F.exact with
  | true =>
      obtain rfl := hgood hF
      cases b with
      | true =>
          obtain rfl := hr
          rfl
      | false =>
          intro argv hargv he
          obtain ⟨l, hl, hargv⟩ := Option.bind_eq_some_iff.mp hargv
          obtain rfl := Option.some.inj hargv
          exact hr l hl (List.cons.inj he).2
  | false =>
      intro argv hargv he
      obtain ⟨l, hl, hargv⟩ := Option.bind_eq_some_iff.mp hargv
      obtain rfl := Option.some.inj hargv
      exact (hoff hF).ne (List.cons.inj he).1

/-- A call on the arguments that the code passes. -/
theorem fits_call_of_args {b : Bool} {values : List Path} {r : Option (List Path)}
    {g : List Path → Path} (ret : CADataType) (hg : ∀ l, (g l).kernel = g l)
    (hr : ArgsFit b values r) (hinj : ∀ l l', g l = g l' → l = l') :
    Fits (.value (g values)) ret (if b then .call ret else .bad)
      (r.bind fun argv => some (walkExprCall (g argv) ret)) := by
  cases r with
  | none =>
      cases b with
      | true => cases hr
      | false => rfl
  | some argv =>
      refine fits_call ret (hg _) (hg _) ?_ ?_
      · intro hb
        subst hb
        rw [Option.some.inj hr]
      · intro hb he
        subst hb
        exact hr argv rfl (hinj _ _ he)

theorem CalcOperand.Fits.methodCall {env : Env} {direct b : Bool} {s f : Name} {G : FnType}
    {values : List Path} {r : Option (List Path)} (h : o.Fits m t F)
    (hs : structOf direct t = some s) (hG : env.method s f = some G) (hr : ArgsFit b values r) :
    CaLang.Pointers.Fits (.value (.methodCall f (m.base direct) values)) G.ret
      (if F.base direct && b then .call G.ret else .bad)
      ((popRightValue (!direct) o).bind fun v => (structOf direct v.2).bind fun s =>
        (env.method s f).bind fun G => r.bind fun argv =>
          some (walkExprCall (.methodCall f v.1.path argv) G.ret)) := by
  rcases (h.based hs).cases with ⟨hv, hF⟩ | ⟨v, hv, hgood, hoff⟩
  · rw [hF, hv]
    rfl
  simp only [hv, hs, hG, Option.bind_some]
  cases r with
  | none =>
      cases b with
      | true => cases hr
      | false =>
          rw [Bool.and_false]
          rfl
  | some argv =>
      refine fits_call G.ret rfl rfl ?_ ?_
      · intro hb
        obtain ⟨hb, hb'⟩ := Bool.and_eq_true_iff.mp hb
        obtain rfl := hgood hb
        subst hb'
        rw [Option.some.inj hr]
      · intro hb he
        obtain ⟨-, hself, hargs⟩ := Path.methodCall.inj he
        rcases Bool.and_eq_false_iff.mp hb with hb | hb
        · exact (hoff hb).ne hself
        · subst hb
          exact hr argv rfl hargs

mutual

/-- **The operand of a well-typed expression is kept as its form says**. -/
theorem Expr.fits (env : Env) : ∀ (e : Expr) {t : CADataType}, e.type env = some t →
    Fits (e.meaning env) t (e.form env) (e.walk env)
  | .id x, t, ht => by
      have hw : (Expr.id x).walk env =
          some ⟨.alloc, ⟨.var x, .pointer (llvmtypeFromCatype t)⟩, t⟩ := by
        simp only [Expr.walk, walkId, show env.var x = some t from ht, Option.bind_eq_bind,
          Option.bind_some]
      rw [hw]
      rfl
  | .literal q n, t, ht => by
      obtain rfl := Option.some.inj ht
      exact ⟨.const, nofun, rfl⟩
  | .address e, t, ht => by
      obtain ⟨u, hu, rfl⟩ := Option.map_eq_some_iff.mp ht
      have ih := e.fits env hu
      simp only [Expr.meaning, Expr.form, Expr.walk]
      cases hw : e.walk env with
      | none =>
          rw [hw] at ih
          rw [show e.form env = .bad from ih]
          rfl
      | some o =>
          rw [hw] at ih
          exact ih.address
  | .deref e, t, ht => by
      have hu := Expr.type_deref ht
      have ih := e.fits env hu
      simp only [Expr.meaning, Expr.form, Expr.walk, hu]
      cases hw : e.walk env with
      | none =>
          rw [hw] at ih
          rw [show e.form env = .bad from ih]
          rfl
      | some o =>
          rw [hw] at ih
          exact ih.deref
  | .op2 minus e k, t, ht => by
      obtain ⟨t', hu, hu', htypes⟩ := Expr.type_op2 ht
      have ih := e.fits env hu
      have ihk := k.fits env hu'
      simp only [Expr.meaning, Expr.form, Expr.walk, hu]
      cases hw : e.walk env with
      | none =>
          rw [hw] at ih
          rw [show e.form env = .bad from ih]
          rfl
      | some o =>
          cases hwk : k.walk env with
          | none =>
              rw [hwk] at ihk
              rw [show k.form env = .bad from ihk, show Form.bad.exact = false from rfl,
                Bool.and_false]
              rfl
          | some o' =>
              rw [hw] at ih
              rw [hwk] at ihk
              exact ih.op2 ihk htypes
  | .as e t', t, ht => by
      obtain ⟨rfl, u, c, hu, hc⟩ := Expr.type_as ht
      have ih := e.fits env hu
      simp only [Expr.meaning, Expr.form, Expr.walk, hu]
      cases hw : e.walk env with
      | none =>
          rw [hw] at ih
          rw [show e.form env = .bad from ih, Form.as_bad]
          rfl
      | some o =>
          rw [hw] at ih
          exact ih.as hc
  | .call f args, t, ht => by
      obtain ⟨G, hG, hts, rfl⟩ := Expr.type_call ht
      have ih := args.fits env hts
      simp only [Expr.meaning, Expr.form, Expr.walk, hG]
      exact fits_call_of_args G.ret (fun _ => rfl) ih fun _ _ h => (Path.call.inj h).2
  | .methodCall direct e f args, t, ht => by
      obtain ⟨u, s, G, hu, hs, hG, hts, rfl⟩ := Expr.type_methodCall ht
      have ih := e.fits env hu
      have iha := args.fits env hts
      simp only [Expr.meaning, Expr.form, Expr.walk, hu, Option.bind_some, hs, hG]
      cases hw : e.walk env with
      | none =>
          rw [hw] at ih
          rw [show e.form env = .bad from ih]
          cases direct <;> rfl
      | some o =>
          rw [hw] at ih
          exact ih.methodCall hs hG iha
  | .arrayitem e k, t, ht => by
      obtain ⟨n, t', hu, hu', hint⟩ := Expr.type_arrayitem ht
      have ih := e.fits env hu
      have ihk := k.fits env hu'
      simp only [Expr.meaning, Expr.form, Expr.walk]
      cases hw : e.walk env with
      | none =>
          rw [hw] at ih
          rw [show e.form env = .bad from ih]
          rfl
      | some o =>
          cases hwk : k.walk env with
          | none =>
              rw [hwk] at ihk
              rw [show k.form env = .bad from ihk, show Form.bad.exact = false from rfl,
                Bool.and_false]
              rfl
          | some o' =>
              rw [hw] at ih
              rw [hwk] at ihk
              exact ih.arrayitem ihk hint
  | .structitem direct e f, t, ht => by
      obtain ⟨u, i, hu, hf⟩ := Expr.type_structitem ht
      have ih := e.fits env hu
      simp only [Expr.meaning, Expr.form, Expr.walk, hu, Option.bind_some, hf, Option.map_some,
        Option.getD_some]
      cases hw : e.walk env with
      | none =>
          rw [hw] at ih
          rw [show e.form env = .bad from ih]
          cases direct <;> rfl
      | some o =>
          rw [hw] at ih
          exact ih.structitem hf

theorem Args.fits (env : Env) : ∀ (args : Args) {ts : List CADataType}, args.types env = some ts →
    ArgsFit (args.exact env) (args.values env) (args.walk env)
  | .nil, _, _ => rfl
  | .cons e rest, ts, hts => by
      obtain ⟨t, ht, hts⟩ := Option.bind_eq_some_iff.mp hts
      obtain ⟨ts', hrest, -⟩ := Option.bind_eq_some_iff.mp hts
      have ih := e.fits env ht
      have ihr := rest.fits env hrest
      simp only [Args.walk, Args.exact, Args.values]
      cases hw : e.walk env with
      | none =>
          rw [hw] at ih
          rw [show e.form env = .bad from ih]
          exact nofun
      | some o =>
          rw [hw] at ih
          exact argsFit_cons ih ihr

end

/-! ### The uses -/

theorem CalcOperand.Fits.catype_eq (h : o.Fits m t F) : o.catype = t := by
  cases F with
  | place => exact congrArg CalcOperand.catype h
  | value =>
      obtain ⟨tag, -, rfl⟩ := h
      rfl
  | pending => exact congrArg CalcOperand.catype h.1
  | bad => exact h.1

/-- Loaded, an operand is the value that is denoted iff its form is exact. -/
theorem CalcOperand.Fits.taken_iff (h : o.Fits m t F) :
    Use.taken.read o = some m.toValue ↔ F.exact = true := by
  change (popRightValue true o).map (·.1.path) = some m.toValue ↔ _
  rcases h.taken.cases with ⟨hv, hF⟩ | ⟨v, hv, hgood, hoff⟩
  · rw [hv, hF]
    exact iff_of_false nofun Bool.false_ne_true
  · rw [hv]
    cases hF : F.exact with
    | true => exact iff_of_true (by rw [hgood hF]; rfl) rfl
    | false =>
        exact iff_of_false (fun he => (hoff hF).ne (Option.some.inj he)) Bool.false_ne_true

/-- What is not copied is stored as it is taken. -/
theorem stored_read_of_not_complex (hc : o.catype.isComplex = false) :
    Use.stored.read o = Use.taken.read o := by
  change ((popRightValue (!o.catype.isComplex) o).bind fun s =>
    if o.catype.isComplex = true then s.1.createLoad.map (·.path) else some s.1.path) =
      (popRightValue true o).map (·.1.path)
  rw [hc, Bool.not_false]
  cases popRightValue true o <;> rfl

/-- A copy reads at the operand itself. -/
theorem stored_read_of_complex (hc : o.catype.isComplex = true) :
    Use.stored.read o = o.operand.createLoad.map (·.path) := by
  change ((popRightValue (!o.catype.isComplex) o).bind fun s =>
    if o.catype.isComplex = true then s.1.createLoad.map (·.path) else some s.1.path) = _
  rw [hc]
  rfl

/-- A complex value is no pointer, and cannot be loaded. -/
theorem createLoad_of_isComplex (p : Path) (ht : t.isComplex = true) :
    Value.createLoad ⟨p, llvmtypeFromCatype t⟩ = none := by
  cases t with
  | array u n => rfl
  | struct s => rfl
  | _ => cases ht

theorem CalcOperand.Fits.stored_iff (h : o.Fits m t F) :
    Use.stored.read o = some m.toValue ↔ F.sound t = true := by
  cases hc : t.isComplex with
  | false =>
      rw [stored_read_of_not_complex (h.catype_eq ▸ hc), h.taken_iff]
      cases F with
      | value =>
          change true = true ↔ (!t.isComplex) = true
          rw [hc]
          rfl
      | _ => rfl
  | true =>
      rw [stored_read_of_complex (h.catype_eq ▸ hc)]
      cases F with
      | place =>
          subst h
          exact iff_of_true (congrArg some m.read_toPlace) rfl
      | value =>
          obtain ⟨tag, -, rfl⟩ := h
          rw [createLoad_of_isComplex m.toValue hc]
          change _ ↔ (!t.isComplex) = true
          rw [hc]
          exact iff_of_false nofun Bool.false_ne_true
      | pending =>
          obtain ⟨-, u, rfl⟩ := h
          cases hc
      | bad =>
          refine iff_of_false ?_ Bool.false_ne_true
          intro he
          obtain ⟨v, hv, hpath⟩ := Option.map_eq_some_iff.mp he
          obtain ⟨T, -, rfl⟩ := Value.createLoad_eq_some hv
          exact h.2.read_left.ne hpath

/-- **The uses of an operand are right iff its form is sound**. -/
theorem fits_uses {w : Option CalcOperand} (h : Fits m t F w) :
    (∀ use : Use, w.bind use.read = some m.toValue) ↔ F.sound t = true := by
  cases w with
  | none =>
      obtain rfl : F = .bad := h
      exact iff_of_false (fun hu => nomatch hu .taken) Bool.false_ne_true
  | some o =>
      have h : o.Fits m t F := h
      refine ⟨fun hu => h.stored_iff.mp (hu .stored), ?_⟩
      intro hs use
      cases use with
      | stored => exact h.stored_iff.mpr hs
      | taken =>
          refine h.taken_iff.mpr ?_
          cases F with
          | place | value => rfl
          | pending | bad => exact hs

/-- **The code reads along the path that a well-typed expression denotes iff the form of its
operand is sound**. -/
theorem Expr.readsExactly_iff (env : Env) (e : Expr) {t : CADataType}
    (ht : e.type env = some t) : e.ReadsExactly env ↔ (e.form env).sound t = true :=
  fits_uses (e.fits env ht)

/-! ### Pointers to pointers -/

/-- `let pp: **i32;` -/
def ptrptrEnv : Env where
  var _ := some (.pointer (.pointer (.prim .i32)))
  fn _ := none
  method _ _ := none
  field _ _ := none

/-- `**(pp + 1)` is read exactly: the second `*` makes up for the tag. -/
theorem deref_twice_readsExactly :
    (Expr.deref (.deref (.op2 false (.id ['p', 'p']) (.literal .i32 1)))).ReadsExactly
      ptrptrEnv :=
  (Expr.readsExactly_iff ptrptrEnv _ (t := .prim .i32) rfl).mpr rfl

/-- `*(pp + 1)` is loaded twice. -/
theorem kthPointer_not_readsExactly :
    ¬ (Expr.deref (.op2 false (.id ['p', 'p']) (.literal .i32 1))).ReadsExactly ptrptrEnv := by
  intro h
  have hread := Option.some.inj (h .taken)
  exact nomatch hread

end CaLang.Pointers

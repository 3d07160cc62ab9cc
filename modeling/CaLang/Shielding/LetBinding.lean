import CaLang.Shielding.Events

/-! # One let binding

While a let on the names `N` is visited, the entries of `N` stand one turn ahead, and every look
at the initialiser happens between a turn back and a turn forward: it sees each name's previous
binding (`inferAround_step`), however far the types of the pattern have got.  Storage is made for
names whose type has been found, and the compiler stops at any other (`bindVariableValue_bound`);
so after the let every name of the pattern has been visited once more (`walkLetbind_outcome`).
-/

namespace CaLang.Shielding

variable {τ : Type} {typeOf : Site → τ} {F : ScopeId → Name → List Site}
  {Q : Nat → CAVariable τ → Prop} {c : Count} {s : ScopeId} {N B : Finset Name}

/-- In a let on `N`: the entries of `N` are one turn ahead. -/
structure MidLet (typeOf : Site → τ) (F : ScopeId → Name → List Site) (s : ScopeId)
    (N : Finset Name) (c : Count) (w : Walk τ) : Prop where
  tracks : Tracks typeOf F (up s N c) c c w.tables
  visited : visited w.log = c

/-- What holds throughout a let: its names exist, and its initialiser may be read. -/
structure LetCtx (typeOf : Site → τ) (F : ScopeId → Name → List Site)
    (Q : Nat → CAVariable τ → Prop) (s : ScopeId) (top : CAPattern τ) (c : Count)
    (ids : List (Nat × STEntry)) : Prop where
  nodup : top.names.Nodup
  fits : Fits F s top.names.toFinset c
  le : ∀ s x, c s x ≤ (F s x).length
  readable : ∀ n ∈ ids, Readable typeOf F Q c n

theorem LetCtx.mono {top : CAPattern τ} {ids ids' : List (Nat × STEntry)}
    (h : LetCtx typeOf F Q s top c ids) (hs : ∀ n ∈ ids', n ∈ ids) :
    LetCtx typeOf F Q s top c ids' :=
  ⟨h.nodup, h.fits, h.le, fun n hn => h.readable n (hs n hn)⟩

variable {top : CAPattern τ}

/-- **A look at the initialiser sees the bindings before the let.** -/
theorem inferAround_step {e : Expr STEntry} {w : Walk τ}
    (ctx : LetCtx typeOf F Q s top c e.ids) (h : MidLet typeOf F s top.names.toFinset c w) :
    MidLet typeOf F s top.names.toFinset c (inferAround top s e w) ∧
      LogStep typeOf F Q (e.ids.map Prod.fst) w.log (inferAround top s e w).log := by
  have hback := h.tracks.rotate_back ctx.nodup
  have hstep := walkExpr_step e hback (fun _ _ => le_rfl) ctx.le ctx.readable
  refine ⟨⟨?_, ?_⟩, ?_⟩
  · apply Tracks.rotate_forward ctx.nodup
    rw [walkExpr_tables]
    exact hback
  · simp [inferAround, h.visited]
  · simpa [inferAround] using hstep

/-- Types are found for names of the pattern. -/
theorem MidLet.registers {xs : List Name} {w : Walk τ} (hx : ∀ x ∈ xs, x ∈ N)
    (hfit : Fits F s N c) (h : MidLet typeOf F s N c w) :
    MidLet typeOf F s N c (xs.foldl (registerVariableCatype typeOf s) w) := by
  have hstart : Tracks typeOf F (up s N c) (up s ∅ c) c w.tables := by
    rw [up_empty]
    exact h.tracks
  exact ⟨(hstart.registers xs hx hfit).fewer (le_up s _ c), by simp [h.visited]⟩

theorem argIds_drop (args : List (Expr STEntry)) (m : Nat) :
    ∀ n ∈ argIds (args.drop m), n ∈ argIds args := by
  induction args generalizing m with
  | nil => simp
  | cons a args ih =>
      cases m with
      | zero => simp
      | succ m =>
          intro n hn
          exact List.mem_append_right _ (ih m n hn)

/-! ### Types

A run of the inference may stop anywhere; if it ends, the let goes on. -/

/-- The run ends in the let with the uses `ns` read, or stops after sound reads. -/
def Inferred (typeOf : Site → τ) (F : ScopeId → Name → List Site)
    (Q : Nat → CAVariable τ → Prop) (s : ScopeId) (top : CAPattern τ) (c : Count)
    (ns : List Nat) (w : Walk τ) (r : Run τ (Walk τ)) : Prop :=
  Outcome r
    (fun w' => MidLet typeOf F s top.names.toFinset c w' ∧ LogStep typeOf F Q ns w.log w'.log)
    (fun w' => LogSound typeOf F Q w.log → LogSound typeOf F Q w'.log)

namespace Inferred

variable {ns ms : List Nat} {w w₁ : Walk τ} {r : Run τ (Walk τ)} {f : Walk τ → Run τ (Walk τ)}

theorem stop : Inferred typeOf F Q s top c ns w (throw w) := id

theorem mono (h : Inferred typeOf F Q s top c ns w r) (hs : ∀ n ∈ ms, n ∈ ns) :
    Inferred typeOf F Q s top c ms w r :=
  Outcome.imp h fun _ hw => ⟨hw.1, hw.2.mono hs⟩

/-- What came before is part of the run. -/
theorem after (h : Inferred typeOf F Q s top c ms w₁ r)
    (hlog : LogStep typeOf F Q ns w.log w₁.log) :
    Inferred typeOf F Q s top c (ns ++ ms) w r := by
  cases r with
  | ok w₂ => exact ⟨h.1, hlog.trans h.2⟩
  | error w₂ => exact fun hs => h (hlog.sound hs)

theorem bind (h : Inferred typeOf F Q s top c ns w r)
    (hf : ∀ w', MidLet typeOf F s top.names.toFinset c w' →
      Inferred typeOf F Q s top c ms w' (f w')) :
    Inferred typeOf F Q s top c (ns ++ ms) w (r >>= f) := by
  cases r with
  | ok w₂ => exact (hf w₂ h.1).after h.2
  | error w₂ => exact h

/-- What follows may read nothing. -/
theorem followed (h : Inferred typeOf F Q s top c ns w r)
    (hf : ∀ w', MidLet typeOf F s top.names.toFinset c w' →
      Inferred typeOf F Q s top c [] w' (f w')) :
    Inferred typeOf F Q s top c ns w (r >>= f) :=
  (h.bind hf).mono fun _ hn => List.mem_append_left _ hn

theorem preceded (h : Inferred typeOf F Q s top c [] w₁ r)
    (hlog : LogStep typeOf F Q ns w.log w₁.log) : Inferred typeOf F Q s top c ns w r :=
  (h.after hlog).mono fun _ hn => List.mem_append_left _ hn

end Inferred

/-- Registering types tells nothing. -/
theorem registers_inferred {xs : List Name} {w : Walk τ} (hx : ∀ x ∈ xs, x ∈ top.names.toFinset)
    (hfit : Fits F s top.names.toFinset c) (h : MidLet typeOf F s top.names.toFinset c w) :
    Inferred typeOf F Q s top c [] w
      (pure (xs.foldl (registerVariableCatype typeOf s) w)) := by
  refine ⟨h.registers hx hfit, ?_⟩
  rw [registers_log]
  exact .refl _

mutual
/-- **Types found from the type of the initialiser** leave the let where it is. -/
theorem determineLetbindType_inferred (hfit : Fits F s top.names.toFinset c)
    (p : CAPattern τ) {w : Walk τ}
    (hp : ∀ x ∈ p.names, x ∈ top.names.toFinset)
    (h : MidLet typeOf F s top.names.toFinset c w) :
    Inferred typeOf F Q s top c [] w (determineLetbindType typeOf s p w) := by
  cases p with
  | var name morebind =>
      simp only [determineLetbindType]
      exact registers_inferred hp hfit h
  | array morebind items =>
      simp only [determineLetbindType]
      exact determineLetbindTypeRange_inferred hfit items
        (fun x hx => hp x (List.mem_append_right _ hx)) h
  | genTuple morebind items =>
      have hmore : ∀ x ∈ morebind, x ∈ top.names.toFinset :=
        fun x hx => hp x (List.mem_append_left _ hx)
      obtain ⟨hmid, hlog⟩ := registers_inferred (Q := Q) hmore hfit h
      simp only [determineLetbindType]
      exact (determineLetbindAround_inferred hfit items
        (fun x hx => hp x (List.mem_append_right _ hx)) hmid).preceded hlog
  | named type morebind items =>
      have hmore : ∀ x ∈ morebind, x ∈ top.names.toFinset :=
        fun x hx => hp x (List.mem_append_left _ hx)
      obtain ⟨hmid, hlog⟩ := registers_inferred (Q := Q) hmore hfit h
      simp only [determineLetbindType]
      exact (determineLetbindAround_inferred hfit items
        (fun x hx => hp x (List.mem_append_right _ hx)) hmid).preceded hlog
  | ignoreOne morebind =>
      simp only [determineLetbindType]
      exact ⟨h, .refl _⟩
  | ignoreRange =>
      simp only [determineLetbindType]
      exact Inferred.stop
theorem determineLetbindTypeRange_inferred (hfit : Fits F s top.names.toFinset c)
    (ps : List (CAPattern τ)) {w : Walk τ}
    (hp : ∀ x ∈ itemNames ps, x ∈ top.names.toFinset)
    (h : MidLet typeOf F s top.names.toFinset c w) :
    Inferred typeOf F Q s top c [] w (determineLetbindTypeRange typeOf s ps w) := by
  cases ps with
  | nil =>
      simp only [determineLetbindTypeRange]
      exact ⟨h, .refl _⟩
  | cons p ps =>
      have hfirst := determineLetbindType_inferred hfit p
        (fun x hx => hp x (List.mem_append_left _ hx)) h
      simp only [determineLetbindTypeRange]
      exact hfirst.bind fun w' hw' => determineLetbindTypeRange_inferred hfit ps
        (fun x hx => hp x (List.mem_append_right _ hx)) hw'
theorem determineLetbindAround_inferred (hfit : Fits F s top.names.toFinset c)
    (ps : List (CAPattern τ)) {w : Walk τ}
    (hp : ∀ x ∈ itemNames ps, x ∈ top.names.toFinset)
    (h : MidLet typeOf F s top.names.toFinset c w) :
    Inferred typeOf F Q s top c [] w (determineLetbindAround typeOf s ps w) := by
  cases ps with
  | nil =>
      simp only [determineLetbindAround]
      exact ⟨h, .refl _⟩
  | cons p ps =>
      have htail : ∀ x ∈ itemNames ps, x ∈ top.names.toFinset :=
        fun x hx => hp x (List.mem_append_right _ hx)
      by_cases hr : p = .ignoreRange
      · subst hr
        simp only [determineLetbindAround]
        exact determineLetbindTypeRange_inferred hfit ps htail h
      · have hfirst := determineLetbindType_inferred hfit p
          (fun x hx => hp x (List.mem_append_left _ hx)) h
        simp only [determineLetbindAround]
        exact hfirst.bind fun w' hw' => determineLetbindAround_inferred hfit ps htail hw'
end

mutual
theorem inferenceLetbindTypeBothSide_inferred (p : CAPattern τ) {e : Expr STEntry} {w : Walk τ}
    (ctx : LetCtx typeOf F Q s top c e.ids) (hp : ∀ x ∈ p.names, x ∈ top.names.toFinset)
    (h : MidLet typeOf F s top.names.toFinset c w) :
    Inferred typeOf F Q s top c (e.ids.map Prod.fst) w
      (inferenceLetbindTypeBothSide typeOf top s p e w) := by
  have hlook := inferAround_step ctx h
  cases p with
  | ignoreOne morebind =>
      simp only [inferenceLetbindTypeBothSide]
      exact hlook
  | ignoreRange =>
      simp only [inferenceLetbindTypeBothSide]
      exact hlook
  | var name morebind =>
      simp only [inferenceLetbindTypeBothSide]
      exact (registers_inferred hp ctx.fits hlook.1).preceded hlook.2
  | named type morebind items =>
      simp only [inferenceLetbindTypeBothSide]
      exact Inferred.stop
  | array morebind items =>
      have hmore : ∀ x ∈ morebind, x ∈ top.names.toFinset :=
        fun x hx => hp x (List.mem_append_left _ hx)
      have hdet := (determineLetbindAround_inferred ctx.fits items
        (fun x hx => hp x (List.mem_append_right _ hx)) hlook.1).preceded hlook.2
      have hall := hdet.followed fun w' hw' => registers_inferred hmore ctx.fits hw'
      cases e with
      | id node ref => simpa only [inferenceLetbindTypeBothSide] using hall
      | array args => simpa only [inferenceLetbindTypeBothSide] using hall
      | tuple args =>
          simp only [inferenceLetbindTypeBothSide]
          exact Inferred.stop
      | op args =>
          simp only [inferenceLetbindTypeBothSide]
          exact Inferred.stop
  | genTuple morebind items =>
      have hmore : ∀ x ∈ morebind, x ∈ top.names.toFinset :=
        fun x hx => hp x (List.mem_append_left _ hx)
      cases e with
      | id node ref =>
          have hdet := (determineLetbindType_inferred ctx.fits (.genTuple morebind items) hp
            hlook.1).preceded hlook.2
          have hall := hdet.followed fun w' hw' => registers_inferred hmore ctx.fits hw'
          simpa only [inferenceLetbindTypeBothSide] using hall
      | array args =>
          simp only [inferenceLetbindTypeBothSide]
          exact Inferred.stop
      | op args =>
          simp only [inferenceLetbindTypeBothSide]
          exact Inferred.stop
      | tuple args =>
          have hitems := inferenceLetbindAround_inferred items args (ctx.mono fun n hn => hn)
            (fun x hx => hp x (List.mem_append_right _ hx)) h
          simp only [inferenceLetbindTypeBothSide]
          split
          · exact Inferred.stop
          · apply hitems.bind
            intro w₁ hmid
            split
            · exact Inferred.stop
            · obtain ⟨hreg, hlog⟩ := registers_inferred (Q := Q) hmore ctx.fits hmid
              have hagain := inferAround_step ctx hreg
              exact ⟨hagain.1, (hlog.trans hagain.2).mono fun n hn => List.mem_append_right _ hn⟩
theorem inferenceLetbindPatternRange_inferred (ps : List (CAPattern τ))
    (args : List (Expr STEntry)) {w : Walk τ} (ctx : LetCtx typeOf F Q s top c (argIds args))
    (hp : ∀ x ∈ itemNames ps, x ∈ top.names.toFinset)
    (h : MidLet typeOf F s top.names.toFinset c w) :
    Inferred typeOf F Q s top c [] w
      (inferenceLetbindPatternRange typeOf top s ps args w) := by
  match ps, args with
  | [], _ =>
      simp only [inferenceLetbindPatternRange]
      exact ⟨h, .refl _⟩
  | p :: ps, [] =>
      simp only [inferenceLetbindPatternRange]
      exact Inferred.stop
  | p :: ps, a :: args =>
      have hfirst := inferenceLetbindTypeBothSide_inferred p
        (ctx.mono fun n hn => List.mem_append_left _ hn)
        (fun x hx => hp x (List.mem_append_left _ hx)) h
      simp only [inferenceLetbindPatternRange]
      refine (hfirst.followed ?_).mono (by simp)
      intro w₁ hmid
      exact inferenceLetbindPatternRange_inferred ps args
        (ctx.mono fun n hn => List.mem_append_right _ hn)
        (fun x hx => hp x (List.mem_append_right _ hx)) hmid
theorem inferenceLetbindAround_inferred (ps : List (CAPattern τ))
    (args : List (Expr STEntry)) {w : Walk τ} (ctx : LetCtx typeOf F Q s top c (argIds args))
    (hp : ∀ x ∈ itemNames ps, x ∈ top.names.toFinset)
    (h : MidLet typeOf F s top.names.toFinset c w) :
    Inferred typeOf F Q s top c [] w (inferenceLetbindAround typeOf top s ps args w) := by
  match ps with
  | [] =>
      simp only [inferenceLetbindAround]
      exact ⟨h, .refl _⟩
  | p :: ps =>
      have htail : ∀ x ∈ itemNames ps, x ∈ top.names.toFinset :=
        fun x hx => hp x (List.mem_append_right _ hx)
      by_cases hr : p = .ignoreRange
      · subst hr
        simp only [inferenceLetbindAround]
        exact inferenceLetbindPatternRange_inferred ps _ (ctx.mono (argIds_drop args _)) htail h
      · cases args with
        | nil =>
            simp only [inferenceLetbindAround]
            exact Inferred.stop
        | cons a args =>
            have hfirst := inferenceLetbindTypeBothSide_inferred p
              (ctx.mono fun n hn => List.mem_append_left _ hn)
              (fun x hx => hp x (List.mem_append_left _ hx)) h
            simp only [inferenceLetbindAround]
            refine (hfirst.followed ?_).mono (by simp)
            intro w₁ hmid
            exact inferenceLetbindAround_inferred ps args
              (ctx.mono fun n hn => List.mem_append_right _ hn) htail hmid
end

theorem inferenceLetbindType_inferred (datatype : Option τ) {e : Expr STEntry} {w : Walk τ}
    (ctx : LetCtx typeOf F Q s top c e.ids) (h : MidLet typeOf F s top.names.toFinset c w) :
    Inferred typeOf F Q s top c (e.ids.map Prod.fst) w
      (inferenceLetbindType typeOf top datatype s e w) := by
  have hall : ∀ x ∈ top.names, x ∈ top.names.toFinset := fun x hx => List.mem_toFinset.mpr hx
  unfold inferenceLetbindType
  split
  · exact (determineLetbindType_inferred ctx.fits top hall h).bind
      fun w' hw' => inferAround_step ctx hw'
  · exact inferenceLetbindTypeBothSide_inferred top ctx hall h

/-! ### Storage -/

/-- While storage is made in a let on `N`: the names `B` have theirs, and their types. -/
structure MidBind (typeOf : Site → τ) (F : ScopeId → Name → List Site) (s : ScopeId)
    (N : Finset Name) (c : Count) (B : Finset Name) (w : Walk τ) : Prop where
  tracks : Tracks typeOf F (up s N c) (up s B c) (up s B c) w.tables
  visited : visited w.log = up s B c

/-- The run makes the storage of the names `xs`, or stops after sound reads. -/
def Bound (typeOf : Site → τ) (F : ScopeId → Name → List Site) (Q : Nat → CAVariable τ → Prop)
    (s : ScopeId) (N : Finset Name) (c : Count) (B : Finset Name) (xs : List Name) (w : Walk τ)
    (r : Run τ (Walk τ)) : Prop :=
  Outcome r
    (fun w' => MidBind typeOf F s N c (B ∪ xs.toFinset) w' ∧
      LogStep typeOf F Q [] w.log w'.log)
    (fun w' => LogSound typeOf F Q w.log → LogSound typeOf F Q w'.log)

theorem Bound.nil {w : Walk τ} (h : MidBind typeOf F s N c B w) :
    Bound typeOf F Q s N c B [] w (.ok w) := by
  refine ⟨?_, .refl _⟩
  rw [List.toFinset_nil, Finset.union_empty]
  exact h

theorem Bound.bind {xs ys : List Name} {w : Walk τ} {r : Run τ (Walk τ)}
    {f : Walk τ → Run τ (Walk τ)} (h : Bound typeOf F Q s N c B xs w r)
    (hf : ∀ w', MidBind typeOf F s N c (B ∪ xs.toFinset) w' →
      Bound typeOf F Q s N c (B ∪ xs.toFinset) ys w' (f w')) :
    Bound typeOf F Q s N c B (xs ++ ys) w (r >>= f) := by
  unfold Bound at hf ⊢
  rw [List.toFinset_append, ← Finset.union_assoc]
  apply Outcome.bind h
  rintro w₁ ⟨hmid, hlog⟩
  have hrest := hf w₁ hmid
  revert hrest
  cases f w₁ with
  | ok w₂ => exact fun hrest => ⟨hrest.1, hlog.trans hrest.2⟩
  | error w₂ => exact fun hrest hs => hrest (hlog.sound hs)

variable (typeOf F Q) in
theorem makeStorage_step (s : ScopeId) (w : Walk τ) (x : Name) :
    LogStep typeOf F Q [] w.log (makeStorage s w x).log := by
  have hlog : (makeStorage s w x).log = .bind s x :: w.log := by simp [makeStorage]
  rw [hlog]
  exact ⟨id, fun n ⟨v, hv⟩ => ⟨v, List.mem_cons_of_mem _ hv⟩, by simp⟩

theorem visited_makeStorage (s : ScopeId) (w : Walk τ) (x : Name) :
    visited (makeStorage s w x).log = up s {x} (visited w.log) := by
  funext s' x'
  simp [makeStorage, visited, up]

/-- **Storage is made for a variable that has its type.** -/
theorem bindVariableValue_bound {x : Name} {w : Walk τ} (hx : x ∈ N) (hxB : x ∉ B)
    (hfit : Fits F s N c) (h : MidBind typeOf F s N c B w) :
    Bound typeOf F Q s N c B [x] w (bindVariableValue s w x) := by
  unfold bindVariableValue
  split
  · rename_i htype
    cases hr : w.tables s x with
    | none =>
        rw [hr] at htype
        cases htype
    | some r =>
        rw [hr] at htype
        have hstored := (h.tracks.typed hx hxB hfit hr htype).store hx hxB hfit
        have hset : B ∪ [x].toFinset = insert x B := by
          ext y
          simp
        refine ⟨?_, makeStorage_step typeOf F Q s w x⟩
        rw [hset]
        exact ⟨hstored, by rw [visited_makeStorage, h.visited, up_insert s hxB]⟩
  · exact id

/-- Names not bound yet are not bound by others. -/
theorem unbound_after {xs ys : List Name} (hnd : (xs ++ ys).Nodup)
    (hN : ∀ x ∈ xs ++ ys, x ∈ N ∧ x ∉ B) : ∀ y ∈ ys, y ∈ N ∧ y ∉ B ∪ xs.toFinset := by
  intro y hy
  obtain ⟨hyN, hyB⟩ := hN y (List.mem_append_right _ hy)
  refine ⟨hyN, ?_⟩
  rw [Finset.mem_union, List.mem_toFinset, not_or]
  exact ⟨hyB, fun hyx => (List.disjoint_of_nodup_append hnd) hyx hy⟩

theorem binds_bound (hfit : Fits F s N c) (xs : List Name) {B : Finset Name} {w : Walk τ}
    (hnd : xs.Nodup) (hN : ∀ x ∈ xs, x ∈ N ∧ x ∉ B) (h : MidBind typeOf F s N c B w) :
    Bound typeOf F Q s N c B xs w (xs.foldlM (bindVariableValue s) w) := by
  induction xs generalizing B w with
  | nil => exact .nil h
  | cons x xs ih =>
      obtain ⟨hxN, hxB⟩ := hN x (List.mem_cons_self ..)
      have hfirst := bindVariableValue_bound (Q := Q) hxN hxB hfit h
      rw [List.foldlM_cons]
      have hrest := unbound_after (show ([x] ++ xs).Nodup from hnd) hN
      exact hfirst.bind fun w' hw' => ih hnd.of_cons hrest hw'

mutual
/-- **Storage for a pattern**: each of its names once. -/
theorem capatternBindValue_bound (hfit : Fits F s N c) (p : CAPattern τ) {B : Finset Name}
    {w : Walk τ} (hnd : p.names.Nodup)
    (hN : ∀ x ∈ p.names, x ∈ N ∧ x ∉ B)
    (h : MidBind typeOf F s N c B w) :
    Bound typeOf F Q s N c B p.names w (capatternBindValue s p w) := by
  cases p with
  | var name morebind =>
      simp only [capatternBindValue]
      exact binds_bound hfit (name :: morebind) hnd hN h
  | array morebind items =>
      simp only [capatternBindValue]
      exact capatternBindMore_bound hfit morebind items hnd hN h
  | genTuple morebind items =>
      simp only [capatternBindValue]
      exact capatternBindMore_bound hfit morebind items hnd hN h
  | named type morebind items =>
      simp only [capatternBindValue]
      exact capatternBindMore_bound hfit morebind items hnd hN h
  | ignoreOne morebind =>
      simp only [capatternBindValue]
      exact .nil h
  | ignoreRange =>
      simp only [capatternBindValue]
      exact id
/-- The names in front of a pattern, then its items. -/
theorem capatternBindMore_bound (hfit : Fits F s N c) (morebind : List Name)
    (items : List (CAPattern τ)) {B : Finset Name} {w : Walk τ}
    (hnd : (morebind ++ itemNames items).Nodup)
    (hN : ∀ x ∈ morebind ++ itemNames items, x ∈ N ∧ x ∉ B)
    (h : MidBind typeOf F s N c B w) :
    Bound typeOf F Q s N c B (morebind ++ itemNames items) w
      (morebind.foldlM (bindVariableValue s) w >>= capatternBindAround s items) := by
  have hmore := binds_bound (Q := Q) hfit morebind hnd.of_append_left
    (fun x hx => hN x (List.mem_append_left _ hx)) h
  exact hmore.bind fun w' hw' => capatternBindAround_bound hfit items hnd.of_append_right
    (unbound_after hnd hN) hw'
theorem capatternBindPatternRange_bound (hfit : Fits F s N c) (ps : List (CAPattern τ))
    {B : Finset Name} {w : Walk τ} (hnd : (itemNames ps).Nodup)
    (hN : ∀ x ∈ itemNames ps, x ∈ N ∧ x ∉ B)
    (h : MidBind typeOf F s N c B w) :
    Bound typeOf F Q s N c B (itemNames ps) w (capatternBindPatternRange s ps w) := by
  cases ps with
  | nil =>
      simp only [capatternBindPatternRange]
      exact .nil h
  | cons p ps =>
      have hfirst := capatternBindValue_bound hfit p (List.Nodup.of_append_left hnd)
        (fun x hx => hN x (List.mem_append_left _ hx)) h
      simp only [capatternBindPatternRange]
      exact hfirst.bind fun w' hw' => capatternBindPatternRange_bound hfit ps
        (List.Nodup.of_append_right hnd) (unbound_after hnd hN) hw'
theorem capatternBindAround_bound (hfit : Fits F s N c) (ps : List (CAPattern τ))
    {B : Finset Name} {w : Walk τ} (hnd : (itemNames ps).Nodup)
    (hN : ∀ x ∈ itemNames ps, x ∈ N ∧ x ∉ B)
    (h : MidBind typeOf F s N c B w) :
    Bound typeOf F Q s N c B (itemNames ps) w (capatternBindAround s ps w) := by
  cases ps with
  | nil =>
      simp only [capatternBindAround]
      exact .nil h
  | cons p ps =>
      by_cases hr : p = .ignoreRange
      · subst hr
        simp only [capatternBindAround, itemNames, CAPattern.names, List.nil_append] at hnd hN ⊢
        exact capatternBindPatternRange_bound hfit ps hnd hN h
      · have hfirst := capatternBindValue_bound hfit p (List.Nodup.of_append_left hnd)
          (fun x hx => hN x (List.mem_append_left _ hx)) h
        simp only [capatternBindAround]
        exact hfirst.bind fun w' hw' => capatternBindAround_bound hfit ps
          (List.Nodup.of_append_right hnd) (unbound_after hnd hN) hw'
end

/-! ### The whole let -/

/-- After a let every name of its pattern has been visited once more. -/
structure LetDone (typeOf : Site → τ) (F : ScopeId → Name → List Site)
    (Q : Nat → CAVariable τ → Prop) (s : ScopeId) (cap : CAPattern τ) (ns : List Nat)
    (w w' : Walk τ) : Prop where
  rest : AtRest typeOf F w'.log w'.tables
  step : LogStep typeOf F Q ns w.log w'.log
  visited : visited w'.log = up s cap.names.toFinset (visited w.log)

theorem capatternBindValue_done {ns : List Nat} {w₀ w : Walk τ} (hcap : top.names.Nodup)
    (hfit : Fits F s top.names.toFinset (visited w₀.log))
    (h : MidLet typeOf F s top.names.toFinset (visited w₀.log) w)
    (hlog : LogStep typeOf F Q ns w₀.log w.log) :
    Outcome (capatternBindValue s top w) (LetDone typeOf F Q s top ns w₀)
      (fun w' => LogSound typeOf F Q w₀.log → LogSound typeOf F Q w'.log) := by
  have hstart : MidBind typeOf F s top.names.toFinset (visited w₀.log) ∅ w :=
    ⟨by simpa using h.tracks, by simpa using h.visited⟩
  have hall := capatternBindValue_bound (Q := Q) hfit top hcap
    (fun x hx => ⟨List.mem_toFinset.mpr hx, by simp⟩) hstart
  unfold Bound at hall
  rw [Finset.empty_union] at hall
  revert hall
  cases capatternBindValue s top w with
  | error w' => exact fun hall hs => hall (hlog.sound hs)
  | ok w' =>
      rintro ⟨hmid, hlog'⟩
      refine ⟨?_, (hlog.trans hlog').mono fun n hn => List.mem_append_left _ hn, hmid.visited⟩
      unfold AtRest
      rw [hmid.visited]
      exact hmid.tracks

/-- **A let**: its initialiser sees the bindings before it, and it visits each of its names
once. -/
theorem walkLetbind_outcome (datatype : Option τ) {init : Option (Expr STEntry)} {w : Walk τ}
    (hcap : top.names.Nodup) (hrest : AtRest typeOf F w.log w.tables)
    (hfit : Fits F s top.names.toFinset (visited w.log))
    (hc : ∀ s x, visited w.log s x ≤ (F s x).length)
    (hread : ∀ e, init = some e → ∀ n ∈ e.ids, Readable typeOf F Q (visited w.log) n) :
    Outcome (walkLetbind typeOf top datatype s init w)
      (LetDone typeOf F Q s top (init.elim [] fun e => e.ids.map Prod.fst) w)
      (fun w' => LogSound typeOf F Q w.log → LogSound typeOf F Q w'.log) := by
  have hstart : MidLet typeOf F s top.names.toFinset (visited w.log)
      (varshieldingRotateCapattern top s false w) :=
    ⟨by simpa using Tracks.rotate_forward hcap hrest, by simp⟩
  have hall : ∀ x ∈ top.names, x ∈ top.names.toFinset := fun x hx => List.mem_toFinset.mpr hx
  unfold walkLetbind
  cases init with
  | none =>
      dsimp only
      split
      · have hdet := determineLetbindType_inferred (Q := Q) hfit top hall hstart
        unfold Inferred at hdet
        rw [rotate_log] at hdet
        apply hdet.bind
        rintro w₁ ⟨hmid, hlog⟩
        exact capatternBindValue_done hcap hfit hmid hlog
      · simp only [Outcome, bind, Except.bind, throw, throwThe, MonadExceptOf.throw, rotate_log]
        exact id
  | some e =>
      have ctx : LetCtx typeOf F Q s top (visited w.log) e.ids :=
        ⟨hcap, hfit, hc, hread e rfl⟩
      have hinf := inferenceLetbindType_inferred datatype ctx hstart
      unfold Inferred at hinf
      rw [rotate_log] at hinf
      simp only [pure_bind]
      apply hinf.bind
      rintro w₁ ⟨hmid, hlog⟩
      -- the code of the initialiser is another look at it
      obtain ⟨hmid₂, hlog₂⟩ := inferAround_step ctx hmid
      exact capatternBindValue_done hcap hfit hmid₂
        ((hlog.trans hlog₂).mono fun n hn => List.mem_append_left _ hn)

end CaLang.Shielding

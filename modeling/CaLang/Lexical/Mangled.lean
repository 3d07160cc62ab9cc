import CaLang.Lexical.Walks
import CaLang.Lib.Sized

/-! # Mangled names are read back

A mangled name lists **the kinds of its parts before their names**, so that `_CA$L2FF1f1g` is the
function `g` of the function `f` of the second block.  Behind the kinds there is a digit, and every
name has its size before it: the parts can be read back, and two functions get the same name iff
their parts are the same.
-/

namespace CaLang.Lexical

/-- What a name in a mangled name is of. -/
inductive NameKind
  | function | trait | struct
  deriving DecidableEq

/-- What a mangled name tells of a scope, a trait, a type or a function. -/
inductive Part
  | block (lexicalId : Nat)
  | named (kind : NameKind) (name : String)
  deriving DecidableEq

def LexicalScope.part : LexicalScope → Part
  | block id => .block id
  | function _ name => .named .function name

/-- The parts of a function that is declared in the scopes. -/
def FnName.parts (scopes : List LexicalScope) (fn : FnName) : List Part :=
  match fn.impl with
  | none => scopes.map LexicalScope.part ++ [.named .function fn.name]
  | some impl =>
      (scopes.take impl.pos).map LexicalScope.part ++
        (impl.traitName.map (Part.named .trait)).toList ++
          [.named .struct impl.structName, .named .function impl.localName]

def NameKind.letter : NameKind → Char
  | function => 'F'
  | trait => 'T'
  | struct => 'S'

theorem NameKind.isDigit_letter (k : NameKind) : k.letter.isDigit = false := by
  cases k <;> decide

theorem NameKind.letter_inj {k k' : NameKind} (h : k.letter = k'.letter) : k = k' := by
  revert h
  cases k <;> cases k' <;> decide

theorem NameKind.letter_ne (k : NameKind) : k.letter ≠ 'L' := by cases k <;> decide

namespace Part

/-- A part without its name. -/
def kind : Part → Nat ⊕ NameKind
  | block id => .inl id
  | named kind _ => .inr kind

def name? : Part → Option String
  | block _ => none
  | named _ name => some name

def kindText : Part → List Char
  | block id => 'L' :: Nat.toDigits 10 id
  | named kind _ => [kind.letter]

def nameText (p : Part) : List Char := (p.name?.map sizedText).getD []

/-- A kind starts with a letter. -/
theorem kindText_eq_cons (p : Part) : ∃ c cs, p.kindText = c :: cs ∧ c.isDigit = false := by
  cases p with
  | block id => exact ⟨_, _, rfl, by decide⟩
  | named kind name => exact ⟨_, _, rfl, kind.isDigit_letter⟩

theorem name?_isSome {p q : Part} (h : p.kind = q.kind) : p.name?.isSome = q.name?.isSome := by
  cases p <;> cases q <;> first | rfl | cases h

theorem eq_of_kind_name {p q : Part} (hk : p.kind = q.kind) (hn : p.name? = q.name?) : p = q := by
  cases p <;> cases q <;> cases hk
  · rfl
  · exact congrArg (named _) (Option.some.inj hn)

end Part

/-- The texts of the kinds, and behind them the names. -/
def partsText (ps : List Part) : List Char := ps.flatMap Part.kindText ++ ps.flatMap Part.nameText

/-- The last part is the function. -/
def EndsInFunction (ps : List Part) : Prop := ∃ qs name, ps = qs ++ [Part.named .function name]

/-! ### The parts in the text -/

theorem toList_kind (scope : LexicalScope) : scope.kind.toList = scope.part.kindText := by
  cases scope with
  | block id =>
      rw [LexicalScope.kind, String.toList_append, Nat.toString_eq_ofList_toDigits,
        String.toList_ofList]
      simp [LexicalScope.part, Part.kindText]
  | function id name =>
      simp [LexicalScope.kind, LexicalScope.part, Part.kindText, NameKind.letter]

theorem toList_sized (name : String) : (sized name).toList = sizedText name := by
  rw [sized, String.toList_append, Nat.toString_eq_ofList_toDigits, String.toList_ofList]
  rfl

theorem toList_name (scope : LexicalScope) : scope.name.toList = scope.part.nameText := by
  cases scope with
  | block id => rfl
  | function id name => exact toList_sized name

theorem toList_manglingFunctionNameNottype {scopes : List LexicalScope} {kind name : String}
    (ps : List Part) (hkind : kind.toList = ps.flatMap Part.kindText)
    (hname : name.toList = ps.flatMap Part.nameText) :
    (manglingFunctionNameNottype scopes kind name).toList =
      "_CA$".toList ++ partsText (scopes.map LexicalScope.part ++ ps) := by
  have hkinds : (String.join (scopes.map LexicalScope.kind)).toList =
      (scopes.map LexicalScope.part).flatMap Part.kindText := by
    rw [String.toList_join, List.flatMap_map, List.flatMap_map]
    exact List.flatMap_congr fun scope _ => toList_kind scope
  have hnames : (String.join (scopes.map LexicalScope.name)).toList =
      (scopes.map LexicalScope.part).flatMap Part.nameText := by
    rw [String.toList_join, List.flatMap_map, List.flatMap_map]
    exact List.flatMap_congr fun scope _ => toList_name scope
  simp only [manglingFunctionNameNottype, String.toList_append, hkinds, hnames, hkind, hname,
    partsText, List.flatMap_append, List.append_assoc]

/-- **A mangled name is the text of the parts**, and only a function without scopes keeps its
name. -/
theorem toList_manglingFunctionName (scopes : List LexicalScope) (fn : FnName) :
    (manglingFunctionName scopes fn).toList =
      if scopes = [] ∧ fn.impl = none then fn.name.toList
      else "_CA$".toList ++ partsText (fn.parts scopes) := by
  obtain ⟨name, impl⟩ := fn
  cases impl with
  | none =>
      cases scopes with
      | nil => rfl
      | cons scope scopes =>
          rw [if_neg (by simp)]
          refine toList_manglingFunctionNameNottype [.named .function name] ?_ ?_
          · simp [Part.kindText, NameKind.letter]
          · simp [Part.nameText, Part.name?, toList_sized]
  | some impl =>
      rw [if_neg (by simp)]
      obtain ⟨pos, traitName, structName, localName⟩ := impl
      cases traitName with
      | none =>
          refine (toList_manglingFunctionNameNottype
            [.named .struct structName, .named .function localName] ?_ ?_).trans ?_
          · simp [Part.kindText, NameKind.letter]
          · simp [Part.nameText, Part.name?, toList_sized]
          · simp [FnName.parts]
      | some traitName =>
          refine (toList_manglingFunctionNameNottype [.named .trait traitName,
            .named .struct structName, .named .function localName] ?_ ?_).trans ?_
          · simp [Part.kindText, NameKind.letter]
          · simp [Part.nameText, Part.name?, toList_sized]
          · simp [FnName.parts]

/-! ### Reading back -/

theorem endsInFunction_parts (scopes : List LexicalScope) (fn : FnName) :
    EndsInFunction (fn.parts scopes) := by
  obtain ⟨name, impl⟩ := fn
  cases impl with
  | none => exact ⟨_, name, rfl⟩
  | some impl =>
      refine ⟨(scopes.take impl.pos).map LexicalScope.part ++
        (impl.traitName.map (Part.named .trait)).toList ++ [.named .struct impl.structName],
        impl.localName, ?_⟩
      simp [FnName.parts]

theorem EndsInFunction.tail {p : Part} {ps : List Part} (h : EndsInFunction (p :: ps))
    (hne : ps ≠ []) : EndsInFunction ps := by
  obtain ⟨qs, name, h⟩ := h
  cases qs with
  | nil => exact absurd (List.cons.inj h).2 hne
  | cons q qs => exact ⟨qs, name, (List.cons.inj h).2⟩

/-- A number is followed by a letter, as the last part is the function. -/
theorem EndsInFunction.stopsAt {n : Nat} {ps : List Part} (h : EndsInFunction (.block n :: ps))
    (r : List Char) : StopsAt Char.isDigit (ps.flatMap Part.kindText ++ r) := by
  cases ps with
  | nil =>
      obtain ⟨qs, name, h⟩ := h
      cases qs with
      | nil => cases (List.cons.inj h).1
      | cons q qs => exact absurd (List.cons.inj h).2.symm (by simp)
  | cons p ps =>
      obtain ⟨c, cs, hp, hc⟩ := p.kindText_eq_cons
      rw [List.flatMap_cons, hp]
      exact stopsAt_cons _ hc

theorem nil_not_endsInFunction : ¬EndsInFunction [] := by
  rintro ⟨qs, name, h⟩
  exact absurd h.symm (by simp)

/-- The names start with a digit. -/
def StartsDigit (r : List Char) : Prop := ∃ c cs, r = c :: cs ∧ c.isDigit = true

/-- The kinds are read up to the digit that the names start with. -/
theorem kinds_inj {ps qs : List Part} (hps : EndsInFunction ps) (hqs : EndsInFunction qs)
    {r r' : List Char} (hr : StartsDigit r) (hr' : StartsDigit r')
    (h : ps.flatMap Part.kindText ++ r = qs.flatMap Part.kindText ++ r') :
    ps.map Part.kind = qs.map Part.kind ∧ r = r' := by
  -- a letter is no digit
  have stop : ∀ {p : Part} {ps : List Part} {r r' : List Char}, StartsDigit r →
      r ≠ (p :: ps).flatMap Part.kindText ++ r' := by
    rintro p ps r r' ⟨c, cs, rfl, hc⟩ h
    obtain ⟨d, ds, hp, hd⟩ := p.kindText_eq_cons
    rw [List.flatMap_cons, hp] at h
    rw [(List.cons.inj h).1, hd] at hc
    cases hc
  induction ps generalizing qs with
  | nil => exact absurd hps nil_not_endsInFunction
  | cons p ps ih =>
      cases qs with
      | nil => exact absurd hqs nil_not_endsInFunction
      | cons q qs =>
          rw [List.flatMap_cons, List.flatMap_cons, List.append_assoc, List.append_assoc] at h
          obtain ⟨hkind, hrest⟩ : p.kind = q.kind ∧
              ps.flatMap Part.kindText ++ r = qs.flatMap Part.kindText ++ r' := by
            cases p with
            | block n =>
                cases q with
                | block m =>
                    obtain ⟨rfl, hrest⟩ := toDigits_append_inj (hps.stopsAt r) (hqs.stopsAt r')
                      (List.cons.inj h).2
                    exact ⟨rfl, hrest⟩
                | named kind name => exact absurd (List.cons.inj h).1.symm kind.letter_ne
            | named kind name =>
                cases q with
                | block m => exact absurd (List.cons.inj h).1 kind.letter_ne
                | named kind' name' =>
                    rw [Part.kind, Part.kind, NameKind.letter_inj (List.cons.inj h).1]
                    exact ⟨rfl, (List.cons.inj h).2⟩
          by_cases hnil : ps = []
          · subst hnil
            cases qs with
            | nil => exact ⟨by rw [List.map_cons, List.map_cons, hkind], hrest⟩
            | cons q' qs => exact absurd hrest (stop hr)
          · by_cases hnil' : qs = []
            · subst hnil'
              obtain ⟨p', ps, rfl⟩ := List.exists_cons_of_ne_nil hnil
              exact absurd hrest.symm (stop hr')
            · obtain ⟨hkinds, hr⟩ := ih (hps.tail hnil) (hqs.tail hnil') hrest
              exact ⟨by rw [List.map_cons, List.map_cons, hkind, hkinds], hr⟩

/-- The names of the parts are words. -/
def NamedParts (ps : List Part) : Prop := ∀ p ∈ ps, ∀ n ∈ p.name?, StartsWord n

theorem flatMap_nameText (ps : List Part) :
    ps.flatMap Part.nameText = (ps.filterMap Part.name?).flatMap sizedText := by
  induction ps with
  | nil => rfl
  | cons p ps ih =>
      rw [List.flatMap_cons, ih, List.filterMap_cons]
      cases hp : p.name? with
      | none => simp [Part.nameText, hp]
      | some n => simp [Part.nameText, hp]

/-- Kinds and names make up the parts. -/
theorem parts_ext {ps qs : List Part} (hkinds : ps.map Part.kind = qs.map Part.kind)
    (hnames : ps.filterMap Part.name? = qs.filterMap Part.name?) : ps = qs := by
  induction ps generalizing qs with
  | nil =>
      rw [List.map_nil] at hkinds
      exact (List.map_eq_nil_iff.mp hkinds.symm).symm
  | cons p ps ih =>
      cases qs with
      | nil => cases hkinds
      | cons q qs =>
          obtain ⟨hkind, hkinds⟩ := List.cons.inj hkinds
          have hsome := Part.name?_isSome hkind
          cases hp : p.name? with
          | none =>
              cases hq : q.name? with
              | none =>
                  rw [List.filterMap_cons_none hp, List.filterMap_cons_none hq] at hnames
                  rw [Part.eq_of_kind_name hkind (hp.trans hq.symm), ih hkinds hnames]
              | some m => rw [hp, hq] at hsome; cases hsome
          | some n =>
              cases hq : q.name? with
              | none => rw [hp, hq] at hsome; cases hsome
              | some m =>
                  rw [List.filterMap_cons_some hp, List.filterMap_cons_some hq] at hnames
                  obtain ⟨hn, hnames⟩ := List.cons.inj hnames
                  rw [Part.eq_of_kind_name hkind (by rw [hp, hq, hn]), ih hkinds hnames]

theorem length_names {ps qs : List Part} (h : ps.map Part.kind = qs.map Part.kind) :
    (ps.filterMap Part.name?).length = (qs.filterMap Part.name?).length := by
  induction ps generalizing qs with
  | nil =>
      rw [List.map_nil] at h
      rw [List.map_eq_nil_iff.mp h.symm]
  | cons p ps ih =>
      cases qs with
      | nil => cases h
      | cons q qs =>
          obtain ⟨hkind, h⟩ := List.cons.inj h
          have hsome := Part.name?_isSome hkind
          have hlen := ih h
          cases hp : p.name? <;> cases hq : q.name? <;> rw [hp, hq] at hsome <;>
            simp_all

theorem EndsInFunction.startsDigit {ps : List Part} (h : EndsInFunction ps) :
    StartsDigit (ps.flatMap Part.nameText) := by
  rw [flatMap_nameText]
  cases hnames : ps.filterMap Part.name? with
  | nil =>
      obtain ⟨qs, name, rfl⟩ := h
      simp [Part.name?] at hnames
  | cons n ns =>
      obtain ⟨c, ds, hds, hc⟩ := toDigits_eq_cons n.utf8ByteSize
      exact ⟨c, ds ++ n.toList ++ ns.flatMap sizedText,
        by rw [List.flatMap_cons, sizedText, hds]; rfl, hc⟩

/-- **The text of the parts determines them.** -/
theorem partsText_inj {ps qs : List Part} (hps : EndsInFunction ps) (hqs : EndsInFunction qs)
    (hp : NamedParts ps) (hq : NamedParts qs) (h : partsText ps = partsText qs) : ps = qs := by
  obtain ⟨hkinds, hnames⟩ := kinds_inj hps hqs hps.startsDigit hqs.startsDigit h
  have words : ∀ {ps : List Part}, NamedParts ps → ∀ n ∈ ps.filterMap Part.name?, StartsWord n := by
    intro ps h n hn
    obtain ⟨p, hp, hname⟩ := List.mem_filterMap.mp hn
    exact h p hp n hname
  rw [flatMap_nameText, flatMap_nameText] at hnames
  exact parts_ext hkinds (sizedTexts_inj (length_names hkinds) (words hp) (words hq) hnames)

/-! ### Mangled names -/

/-- A word of the lexer, or the name of a method: it is not empty, does not start with a digit, and
there is no `$` in it. -/
structure IsName (s : String) : Prop where
  starts : StartsWord s
  dollar : '$' ∉ s.toList

/-- The names that a function is mangled with. -/
structure NamedFn (scopes : List LexicalScope) (fn : FnName) : Prop where
  name : IsName fn.name
  scopes : ∀ id f, .function id f ∈ scopes → IsName f
  impl : ∀ impl ∈ fn.impl, IsName impl.structName ∧ IsName impl.localName ∧
    ∀ t ∈ impl.traitName, IsName t

theorem NamedFn.parts {scopes : List LexicalScope} {fn : FnName} (h : NamedFn scopes fn) :
    NamedParts (fn.parts scopes) := by
  have hscope : ∀ scope ∈ scopes, ∀ n ∈ scope.part.name?, StartsWord n := by
    intro scope hs n hn
    cases scope with
    | block id => cases hn
    | function id f =>
        obtain rfl : f = n := Option.some.inj hn
        exact (h.scopes id f hs).starts
  obtain ⟨name, impl⟩ := fn
  intro p hp n hn
  cases impl with
  | none =>
      simp only [FnName.parts, List.mem_append, List.mem_map, List.mem_singleton] at hp
      rcases hp with ⟨scope, hs, rfl⟩ | rfl
      · exact hscope scope hs n hn
      · cases hn
        exact h.name.starts
  | some impl =>
      obtain ⟨hstruct, hlocal, htrait⟩ := h.impl impl rfl
      simp only [FnName.parts, List.mem_append, List.mem_map, List.mem_cons, Option.mem_toList,
        Option.map_eq_some_iff, List.not_mem_nil, or_false] at hp
      rcases hp with (⟨scope, hs, rfl⟩ | ⟨t, ht, rfl⟩) | rfl | rfl
      · exact hscope scope (List.mem_of_mem_take hs) n hn
      · obtain rfl : t = n := Option.some.inj hn
        exact (htrait t ht).starts
      · cases hn
        exact hstruct.starts
      · cases hn
        exact hlocal.starts

/-- The parts of a function without scopes are its name. -/
theorem parts_eq_singleton {scopes : List LexicalScope} {fn : FnName} {name : String}
    (h : fn.parts scopes = [.named .function name]) :
    scopes = [] ∧ fn.impl = none ∧ fn.name = name := by
  obtain ⟨fname, impl⟩ := fn
  cases impl with
  | none =>
      cases scopes with
      | nil =>
          cases h
          exact ⟨rfl, rfl, rfl⟩
      | cons scope scopes => exact absurd (List.cons.inj h).2 (by simp)
  | some impl =>
      have hlen := congrArg List.length h
      simp only [FnName.parts, List.length_append, List.length_cons, List.length_nil] at hlen
      omega

theorem parts_nil {fn : FnName} (h : fn.impl = none) :
    fn.parts [] = [.named .function fn.name] := by
  rw [FnName.parts, h]
  rfl

/-- The name of a function tells its parts. -/
theorem parts_eq_of_manglingFunctionName {scopes scopes' : List LexicalScope} {fn fn' : FnName}
    (h : NamedFn scopes fn) (h' : NamedFn scopes' fn')
    (heq : manglingFunctionName scopes fn = manglingFunctionName scopes' fn') :
    fn.parts scopes = fn'.parts scopes' := by
  -- a name without scopes is no mangled name
  have plain : ∀ {fn : FnName} {t : List Char}, IsName fn.name →
      fn.name.toList ≠ "_CA$".toList ++ t := by
    intro fn t hn heq
    exact hn.dollar (by rw [heq]; simp)
  rw [← String.toList_inj, toList_manglingFunctionName, toList_manglingFunctionName] at heq
  by_cases hg : scopes = [] ∧ fn.impl = none
  · rw [if_pos hg] at heq
    by_cases hg' : scopes' = [] ∧ fn'.impl = none
    · rw [if_pos hg', String.toList_inj] at heq
      obtain ⟨rfl, hi⟩ := hg
      obtain ⟨rfl, hi'⟩ := hg'
      rw [parts_nil hi, parts_nil hi', heq]
    · rw [if_neg hg'] at heq
      exact absurd heq (plain h.name)
  · rw [if_neg hg] at heq
    by_cases hg' : scopes' = [] ∧ fn'.impl = none
    · rw [if_pos hg'] at heq
      exact absurd heq.symm (plain h'.name)
    · rw [if_neg hg', List.append_right_inj] at heq
      exact partsText_inj (endsInFunction_parts _ _) (endsInFunction_parts _ _) h.parts h'.parts heq

/-- **Two functions get the same name iff their parts are the same**: the blocks and functions
around them, and their own name, or the trait, the type and the name of the method. -/
theorem manglingFunctionName_eq_iff {scopes scopes' : List LexicalScope} {fn fn' : FnName}
    (h : NamedFn scopes fn) (h' : NamedFn scopes' fn') :
    manglingFunctionName scopes fn = manglingFunctionName scopes' fn' ↔
      fn.parts scopes = fn'.parts scopes' := by
  refine ⟨parts_eq_of_manglingFunctionName h h', ?_⟩
  intro heq
  have hglobal : scopes = [] ∧ fn.impl = none ↔ scopes' = [] ∧ fn'.impl = none := by
    constructor
    · rintro ⟨rfl, hi⟩
      obtain ⟨hs, hi', -⟩ := parts_eq_singleton (heq.symm.trans (parts_nil hi))
      exact ⟨hs, hi'⟩
    · rintro ⟨rfl, hi⟩
      obtain ⟨hs, hi', -⟩ := parts_eq_singleton (heq.trans (parts_nil hi))
      exact ⟨hs, hi'⟩
  rw [← String.toList_inj, toList_manglingFunctionName, toList_manglingFunctionName, heq]
  by_cases hg : scopes = [] ∧ fn.impl = none
  · have hg' := hglobal.mp hg
    rw [if_pos hg, if_pos hg', String.toList_inj]
    obtain ⟨rfl, hi⟩ := hg
    exact (parts_eq_singleton (heq.symm.trans (parts_nil hi))).2.2.symm
  · rw [if_neg hg, if_neg fun hg' => hg (hglobal.mpr hg')]

theorem isName_of_toList {s : String} {c : Char} {l : List Char} (h : s.toList = c :: l)
    (hc : c.isDigit = false) (hs : '$' ∉ c :: l) : IsName s := ⟨⟨c, l, h, hc⟩, by rwa [h]⟩

/-- The function `g` in a function `f` of a block, and the method `g` of a type `f`. -/
theorem mangled_nested_ne_method :
    manglingFunctionName [.block 2, .function 3 "f"] ⟨"g", none⟩ =
        manglingFunctionName [.block 2] ⟨"g", some ⟨1, none, "f", "g"⟩⟩ ↔
      (⟨"g", none⟩ : FnName).parts [.block 2, .function 3 "f"] =
        (⟨"g", some ⟨1, none, "f", "g"⟩⟩ : FnName).parts [.block 2] := by
  have hf : IsName "f" := isName_of_toList (c := 'f') (l := []) (by simp) (by decide) (by decide)
  have hg : IsName "g" := isName_of_toList (c := 'g') (l := []) (by simp) (by decide) (by decide)
  refine manglingFunctionName_eq_iff ⟨hg, ?_, nofun⟩ ⟨hg, by simp, ?_⟩
  · intro id f h
    simp only [List.mem_cons, reduceCtorEq, LexicalScope.function.injEq, List.not_mem_nil,
      or_false, false_or] at h
    rw [h.2]
    exact hf
  · rintro impl ⟨⟩
    exact ⟨hf, hg, nofun⟩

end CaLang.Lexical

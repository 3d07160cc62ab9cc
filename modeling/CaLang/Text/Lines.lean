import CaLang.Lib.Flex
import CaLang.Text.StringLiterals

/-! # Counting lines

The rules of the scanner, with what each does to the line counter.  **A rule counts a line for what
it matches as a whole**: a newline of its own, a backslash with a newline, and in a raw string a
newline or a carriage return.  A string that is matched as a whole, or in pieces up to the next
backslash, can hold newlines that no rule counts.  The counter is an `int`.

- `rules`, `Lexer.step`: the scanner with its start conditions and locations;
- `CountsLines`: at every token boundary `glineno` is one more than the newlines before it;
- `countsLines_iff`: it is so if and only if the tokens are straight and an `int` has room for the
  lines.
-/

namespace CaLang.Text

open Flex

/-- `'\n'` -/
def newline : Byte := ch '\n'

/-- `'\r'` -/
def carriageReturn : Byte := ch '\r'

/-! ### The rules -/

inductive Start
  | initial
  | string
  | rawString
  deriving DecidableEq

/-- What a rule does: to the start condition, to the line counter, and for which texts it stops with
an error. -/
structure Action where
  begins : Option Start
  line : Bool
  stops : List Byte → Bool

abbrev LexRule := Rule Start Byte Action

/-- A word. -/
def lit (w : List Char) : Regex Byte := .word (w.map ch)

/-- One of these characters. -/
def oneOf (cs : List Char) : Regex Byte := .set fun b => b ∈ cs.map ch

/-- All but these characters. -/
def noneOf (cs : List Char) : Regex Byte := .set fun b => b ∉ cs.map ch

/-- `.` -/
def dot : Regex Byte := .set (· ≠ newline)

def digit : Regex Byte := .set isDigit

def isLetter (b : Byte) : Bool := ch 'a' ≤ b && b ≤ ch 'z' || ch 'A' ≤ b && b ≤ ch 'Z'

def isHexDigit (b : Byte) : Bool :=
  isDigit b || ch 'a' ≤ b && b ≤ ch 'f' || ch 'A' ≤ b && b ≤ ch 'F'

/-- `[0-9]{1,3}` -/
def digits3 : Regex Byte := .seq digit (.seq (.opt digit) (.opt digit))

/-- A rule that returns a token, or goes on. -/
def token (c : Start) (r : Regex Byte) : LexRule := ⟨c, r, none, ⟨none, false, fun _ => false⟩⟩

/-- A rule with `++glineno`. -/
def nextLine (c : Start) (r : Regex Byte) : LexRule := ⟨c, r, none, ⟨none, true, fun _ => false⟩⟩

/-- A rule with `BEGIN`. -/
def enter (c : Start) (r : Regex Byte) (c' : Start) : LexRule :=
  ⟨c, r, none, ⟨some c', false, fun _ => false⟩⟩

/-- A rule with `yyerror`, for some texts. -/
def error (c : Start) (r : Regex Byte) (stops : List Byte → Bool) : LexRule :=
  ⟨c, r, none, ⟨none, false, stops⟩⟩

/-- Numbers, characters and booleans. -/
def literalRules : List LexRule :=
  [token .initial (.seq (lit ['0', 'x']) (.plus (.set isHexDigit))),
   token .initial (.seq (lit ['0', 'o']) (.plus (.set fun b => ch '0' ≤ b && b ≤ ch '7'))),
   token .initial (.seq (lit ['0', 'b']) (.plus (oneOf ['0', '1']))),
   token .initial (.plus digit),
   token .initial (.seq (lit ['0', '.']) (.plus digit)),
   token .initial (.seq (.plus digit) (.seq (lit ['.']) (.plus digit))),
   token .initial (.seq (lit ['\'', '\\']) (.seq digits3 (lit ['\'']))),
   token .initial (.seq (lit ['\'', '\\']) (.seq dot (lit ['\'']))),
   token .initial (.seq (lit ['\'']) (.seq dot (lit ['\'']))),
   token .initial (lit ['t', 'r', 'u', 'e']),
   token .initial (lit ['f', 'a', 'l', 's', 'e'])]

/-- `r#"` and what follows. -/
def rawStringRules : List LexRule :=
  [enter .initial (lit ['r', '#', '"']) .rawString,
   nextLine .rawString (lit ['\n']),
   nextLine .rawString (lit ['\r']),
   enter .rawString (lit ['"', '#']) .initial,
   token .rawString dot]

/-- Strings that are matched as a whole, and the beginning of one with a backslash. -/
def wholeStringRules : List LexRule :=
  [token .initial (.seq (lit ['r', '"']) (.seq (.star (noneOf ['"'])) (lit ['"']))),
   token .initial (.seq (lit ['"']) (.seq (.star (noneOf ['"', '\\'])) (lit ['"']))),
   enter .initial (.seq (lit ['"']) (.star (noneOf ['"', '\\']))) .string]

/-- The pieces of a string with backslashes. -/
def stringRules : List LexRule :=
  [token .string (.plus (noneOf ['"', '\\'])),
   error .string (.seq (lit ['\\', 'x']) digits3) fun t => 255 < decimal (t.drop 2),
   token .string (lit ['\\', 'n']),
   token .string (lit ['\\', 'r']),
   token .string (lit ['\\', 't']),
   token .string (lit ['\\', 'v']),
   token .string (lit ['\\', 'a']),
   token .string (lit ['\\', 'b']),
   token .string (lit ['\\', 'f']),
   token .string (lit ['\\', '\\']),
   token .string (lit ['\\', '"']),
   token .string (.seq (lit ['\\']) dot),
   nextLine .string (lit ['\\', '\n']),
   enter .string (lit ['"']) .initial,
   error .string (lit ['\\']) fun _ => true]

/-- Comments, operators and names. -/
def symbolRules : List LexRule :=
  [⟨.initial, .seq (lit ['/', '/']) (.star dot), some (· = newline), ⟨none, false, fun _ => false⟩⟩,
   token .initial (oneOf ['-', '(', ')', '<', '>', '=', '+', '*', '/', ';', '{', '}', '.', ':', ',',
     '%', '!', '|', '^', '@']),
   token .initial (oneOf ['#', '[', ']']),
   token .initial (lit [':', ':']),
   token .initial (lit ['&', '&']),
   token .initial (lit ['|', '|']),
   token .initial (lit ['>', '=']),
   token .initial (lit ['<', '=']),
   token .initial (lit ['=', '=']),
   token .initial (lit ['!', '=']),
   token .initial (lit ['.', '.', '.']),
   token .initial (lit ['.', '.', '=']),
   token .initial (lit ['.', '.']),
   token .initial (lit ['-', '>']),
   token .initial (lit ['=', '>']),
   token .initial (lit ['&']),
   token .initial (lit ['+', '=']),
   token .initial (lit ['-', '=']),
   token .initial (lit ['*', '=']),
   token .initial (lit ['/', '=']),
   token .initial (lit ['%', '=']),
   token .initial (lit ['<', '<', '=']),
   token .initial (lit ['>', '>', '=']),
   token .initial (lit ['&', '=']),
   token .initial (lit ['|', '=']),
   token .initial (lit ['^', '=']),
   token .initial (lit ['<', '<']),
   token .initial (lit ['>', '>']),
   token .initial (lit ['_']),
   token .initial (.seq (.plus (.set fun b => isLetter b || b == ch '_'))
     (.star (.set fun b => isLetter b || isDigit b || b == ch '_')))]

def blankRules : List LexRule :=
  [nextLine .initial (lit ['\n']),
   token .initial (.plus (oneOf [' ', '\t'])),
   error .initial dot fun _ => true]

/-- All rules, in the order of the file. -/
def rules : List LexRule :=
  literalRules ++ (rawStringRules ++ (wholeStringRules ++ (stringRules ++
    (symbolRules ++ blankRules))))

/-! ### The scanner -/

/-- `glineno`, `gcolno`, `glineno_prev` and `gcolno_prev`, each an `int`. -/
structure Loc where
  glineno : BitVec 32
  gcolno : BitVec 32
  glinenoPrev : BitVec 32
  gcolnoPrev : BitVec 32

/-- `ULL`. -/
def Loc.ULL (l : Loc) (yyleng : Nat) : Loc :=
  { l with
    glinenoPrev := l.glineno
    gcolnoPrev := l.gcolno
    gcolno := l.gcolno + BitVec.ofNat 32 yyleng }

structure Lexer where
  start : Start
  rest : List Byte
  loc : Loc

namespace Lexer

def init (src : List Byte) : Lexer := ⟨.initial, src, ⟨1, 0, 1, 0⟩⟩

/-- The text of the next token, and the state behind it.  `yyleng` is an `int`, and the scanner ends
at a token that is longer. -/
def step (L : Lexer) : Option (List Byte × Lexer) :=
  match scan rules L.start L.rest with
  | none => none
  | some (yytext, R, rest) =>
      if R.action.stops yytext || 2 ^ 31 ≤ yytext.length then none
      else
        let loc := L.loc.ULL yytext.length
        some (yytext, ⟨R.action.begins.getD L.start, rest,
          if R.action.line then { loc with glineno := loc.glineno + 1, gcolno := 0 } else loc⟩)

end Lexer

/-- The states at the token boundaries, with the text that is consumed. -/
inductive Reached (src : List Byte) : List Byte → Lexer → Prop
  | init : Reached src [] (.init src)
  | step {t t' : List Byte} {L L' : Lexer} (h : Reached src t L) (h' : L.step = some (t', L')) :
      Reached src (t ++ t') L'

/-- At every token boundary the line is one more than the newlines that have been consumed. -/
def CountsLines (src : List Byte) : Prop :=
  ∀ t L, Reached src t L → L.loc.glineno.toInt = 1 + t.count newline

/-- A newline stands for itself, or behind a backslash in a string, and a raw string has no carriage
return. -/
def straight : Start → List Byte → Bool
  | .initial, t => t = [newline] || newline ∉ t
  | .string, t => t = [ch '\\', newline] || newline ∉ t
  | .rawString, t => t ≠ [carriageReturn]

/-- All tokens of the text are straight. -/
def Straight (src : List Byte) : Prop :=
  ∀ t L t' L', Reached src t L → L.step = some (t', L') → straight L.start t' = true

/-- An `int` has room for the lines up to each token boundary. -/
def FewLines (src : List Byte) : Prop :=
  ∀ t L, Reached src t L → t.count newline + 1 < 2 ^ 31

/-! ### The rules that count a line, and the others -/

theorem lineRules : rules.filter (·.action.line) =
    [nextLine .rawString (lit ['\n']), nextLine .rawString (lit ['\r']),
      nextLine .string (lit ['\\', '\n']), nextLine .initial (lit ['\n'])] := rfl

/-- The text that the rule for a line matches, in each start condition. -/
def lineText : Start → List Byte
  | .initial => [newline]
  | .string => [ch '\\', newline]
  | .rawString => [carriageReturn]

/-- A rule that counts no line, does not match the text for which one is counted, and in a raw
string no newline. -/
def keepsLine (R : LexRule) : Bool :=
  !R.action.line && !(R.pattern.derivs (lineText R.start)).nullable &&
    (R.start != .rawString || R.pattern.avoids newline)

theorem otherRules : rules.filter (fun R => !R.action.line && !keepsLine R) =
    [token .rawString dot] := rfl

/-- The rules up to that for a carriage return in a raw string. -/
def rulesBefore : List LexRule :=
  literalRules ++ [enter .initial (lit ['r', '#', '"']) .rawString,
    nextLine .rawString (lit ['\n'])]

theorem carriageReturnRules :
    (rulesBefore ++ [nextLine .rawString (lit ['\r'])]).filter (fun R =>
      R.start = .rawString && (R.pattern.derivs [carriageReturn]).nullable) =
      [nextLine .rawString (lit ['\r'])] := rfl

theorem rawStringRules_ahead :
    rules.all (fun R => R.start != .rawString || R.ahead.isNone) = true := rfl

/-- Of the two rules that match a carriage return in a raw string, the first one counts a line. -/
theorem line_of_carriageReturn {s rest : List Byte} {R : LexRule}
    (h : scan rules .rawString s = some ([carriageReturn], R, rest)) : R.action.line = true := by
  obtain ⟨hmem, hstart, hmatch, hs⟩ := scan_eq_some h
  have hahead : R.ahead = none := by
    have := List.all_eq_true.mp rawStringRules_ahead R hmem
    simpa [hstart] using this
  obtain ⟨⟨R', n⟩, hbest, he⟩ := Option.map_eq_some_iff.mp h
  obtain ⟨htake, rfl, -⟩ : s.take (R'.textLength n) = [carriageReturn] ∧ R' = R ∧ _ := by
    simpa only [Prod.mk.injEq] using he
  rw [Rule.textLength, hahead] at htake
  have hn : n ≤ s.length := (Regex.matches_of_longest (best_eq_some hbest).2.2).1
  have hn1 : n = 1 := by
    have := congrArg List.length htake
    rwa [List.length_take, Nat.min_eq_left hn] at this
  subst hn1
  have hlit : (nextLine .rawString (lit ['\r'])).whole.Matches (s.take 1) := by
    rw [htake]
    exact Regex.matches_word_iff.mpr rfl
  obtain ⟨m, hm, hle⟩ := hlit.le_longest hn
  have hmem' : R' ∈ rulesBefore ++ [nextLine .rawString (lit ['\r'])] :=
    mem_of_best (c := .rawString) (s := s) hbest rfl hm hle
  have hfilter : R' ∈ [nextLine .rawString (lit ['\r'])] := by
    rw [← carriageReturnRules, List.mem_filter]
    refine ⟨hmem', ?_⟩
    rw [hmatch.nullable_derivs, hstart]
    rfl
  rw [List.mem_singleton.mp hfilter]
  rfl

/-- A rule counts a line for each newline of its text if and only if the text is straight. -/
theorem count_newline_iff {c : Start} {s t rest : List Byte} {R : LexRule}
    (h : scan rules c s = some (t, R, rest)) :
    t.count newline = (if R.action.line then 1 else 0) ↔ straight c t = true := by
  obtain ⟨hmem, rfl, hmatch, -⟩ := scan_eq_some h
  cases hline : R.action.line with
  | true =>
      have hR : R ∈ rules.filter (·.action.line) := List.mem_filter.mpr ⟨hmem, hline⟩
      rw [lineRules] at hR
      simp only [List.mem_cons, List.not_mem_nil, or_false] at hR
      rcases hR with rfl | rfl | rfl | rfl <;> rw [Regex.matches_word_iff.mp hmatch] <;> decide
  | false =>
      have hzero : t.count newline = 0 ↔ newline ∉ t := List.count_eq_zero
      simp only [Bool.false_eq_true, if_false, hzero]
      cases hkeeps : keepsLine R with
      | true =>
          obtain ⟨⟨-, hnull⟩, havoids⟩ :
              (_ ∧ (R.pattern.derivs (lineText R.start)).nullable = false) ∧
              (R.start = .rawString → R.pattern.avoids newline = true) := by
            simpa [keepsLine, imp_iff_not_or] using hkeeps
          have hne : t ≠ lineText R.start := by
            rintro rfl
            rw [hmatch.nullable_derivs] at hnull
            cases hnull
          cases hstart : R.start with
          | initial => simp_all [straight, lineText]
          | string => simp_all [straight, lineText]
          | rawString =>
              have := hmatch.notMem_of_avoids (havoids hstart)
              simp_all [straight, lineText]
      | false =>
          have hR : R ∈ rules.filter fun R => !R.action.line && !keepsLine R :=
            List.mem_filter.mpr ⟨hmem, by rw [hline, hkeeps]; rfl⟩
          rw [otherRules, List.mem_singleton] at hR
          subst hR
          have hne : t ≠ [carriageReturn] := by
            rintro rfl
            cases line_of_carriageReturn h
          have hmem : newline ∉ t := hmatch.notMem_of_avoids rfl
          refine iff_of_true hmem ?_
          show decide (t ≠ [carriageReturn]) = true
          exact decide_eq_true hne

/-! ### Whole runs -/

theorem Lexer.step_eq_some {L L' : Lexer} {t : List Byte} (h : L.step = some (t, L')) :
    ∃ R rest, scan rules L.start L.rest = some (t, R, rest) ∧ L'.rest = rest ∧
      L'.loc.glineno = L.loc.glineno + if R.action.line then 1 else 0 := by
  unfold Lexer.step at h
  split at h
  case h_1 => cases h
  case h_2 yytext R rest hscan =>
    split at h
    · cases h
    · obtain ⟨rfl, rfl⟩ := Prod.mk.inj (Option.some.inj h)
      refine ⟨R, rest, hscan, rfl, ?_⟩
      cases R.action.line with
      | true => rfl
      | false => exact (BitVec.add_zero _).symm

/-- What is consumed and what is left make up the text. -/
theorem Reached.eq_append {src t : List Byte} {L : Lexer} (h : Reached src t L) :
    src = t ++ L.rest := by
  induction h with
  | init => rfl
  | step _ h' ih =>
      obtain ⟨R, rest, hscan, hrest, -⟩ := Lexer.step_eq_some h'
      rw [ih, (scan_eq_some hscan).2.2.2, hrest, List.append_assoc]

/-- A counter that goes up by one is right behind it as long as it does not wrap. -/
theorem toInt_add_line {x : BitVec 32} {n : Nat} (hx : x.toInt = 1 + n) (line : Bool) :
    (x + if line then 1 else 0).toInt = (1 + n + (if line then 1 else 0 : Nat) : Int).bmod (2 ^ 32)
    := by
  rw [BitVec.toInt_add, hx]
  cases line <;> rfl

/-- The lines are counted right if and only if all tokens are straight and an `int` has room. -/
theorem countsLines_iff (src : List Byte) : CountsLines src ↔ Straight src ∧ FewLines src := by
  constructor
  · intro h
    have hfew : FewLines src := by
      intro t L hL
      have hlt : L.loc.glineno.toInt < 2 ^ 31 := L.loc.glineno.toInt_lt
      rw [h t L hL] at hlt
      omega
    refine ⟨?_, hfew⟩
    intro t L t' L' hL hstep
    obtain ⟨R, rest, hscan, -, hline⟩ := Lexer.step_eq_some hstep
    have hbehind := h (t ++ t') L' (.step hL hstep)
    have hroom := hfew t L hL
    have hroom' := hfew (t ++ t') L' (.step hL hstep)
    rw [hline, toInt_add_line (h t L hL), List.count_append] at hbehind
    rw [List.count_append] at hroom'
    refine (count_newline_iff hscan).mp ?_
    cases hR : R.action.line
    all_goals
      simp only [hR, Bool.false_eq_true, if_false, if_true] at hbehind ⊢
      simp only [Int.bmod] at hbehind
      omega
  · rintro ⟨hstraight, hfew⟩ t L hL
    induction hL with
    | init => rfl
    | @step t t' L L' hL hstep ih =>
        obtain ⟨R, rest, hscan, -, hline⟩ := Lexer.step_eq_some hstep
        have hcount := (count_newline_iff hscan).mpr (hstraight _ _ _ _ hL hstep)
        have hroom := hfew (t ++ t') L' (.step hL hstep)
        rw [List.count_append, hcount] at hroom
        rw [hline, toInt_add_line ih, List.count_append, hcount]
        rw [Int.bmod_eq_of_le (by omega) (by omega)]
        push_cast
        omega

/-- A string over two lines: `"`, a newline and `"`. -/
theorem twoLines_not_countsLines : ¬ CountsLines [ch '"', newline, ch '"'] := by
  intro h
  have hstep : (Lexer.init [ch '"', newline, ch '"']).step =
      some ([ch '"', newline, ch '"'], ⟨.initial, [], ⟨1, 3, 1, 0⟩⟩) := rfl
  have := h _ _ (.step .init hstep)
  revert this
  decide

end CaLang.Text

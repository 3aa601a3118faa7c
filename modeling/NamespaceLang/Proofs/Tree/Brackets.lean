import NamespaceLang.Proofs.Tree.Refinement

/-!
# The brackets of a text

A scan of the characters finds the brackets outside strings, and the quotes
that begin and end strings, each with the number of spaces its line begins
with. The lexemes that open and close blocks are these and no others.
-/

set_option autoImplicit false

namespace NamespaceLang

structure Bracket where
  opens : Bool
  delimiter : Delimiter
  indent : Nat
  deriving DecidableEq, Repr

namespace Bracket

def ofChar? (indent : Nat) : Char → Option Bracket
  | '(' => some ⟨true, .round, indent⟩
  | ')' => some ⟨false, .round, indent⟩
  | '[' => some ⟨true, .square, indent⟩
  | ']' => some ⟨false, .square, indent⟩
  | '\x7b' => some ⟨true, .curly, indent⟩
  | '\x7d' => some ⟨false, .curly, indent⟩
  | '\"' => some ⟨true, .quote, indent⟩
  | _ => none

/-- Every opener is closed by the closer of its own kind on a line of the same indentation, and what
is between the two is properly nested itself. -/
inductive ProperlyNested : List Bracket → Prop
  | nil : ProperlyNested []
  | cons (d : Delimiter) (indent : Nat) {inner rest : List Bracket} (inside : ProperlyNested inner)
      (after : ProperlyNested rest) : ProperlyNested (⟨true, d, indent⟩ :: inner ++ ⟨false, d, indent⟩ :: rest)

/-- Whether brackets close those that are open, the innermost first, and all that they open. -/
def Settles : List (Delimiter × Int) → List Bracket → Prop
  | opened, [] => opened = []
  | opened, ⟨true, d, indent⟩ :: rest => Settles ((d, indent) :: opened) rest
  | [], ⟨false, _, _⟩ :: _ => False
  | own :: opened, ⟨false, d, indent⟩ :: rest => own = (d, (indent : Int)) ∧ Settles opened rest

theorem ProperlyNested.settles {brackets : List Bracket} (h : ProperlyNested brackets) :
    ∀ opened rest, Settles opened (brackets ++ rest) ↔ Settles opened rest := by
  induction h with
  | nil => exact fun _ _ => Iff.rfl
  | cons d indent _ _ inside after =>
    intro opened rest
    rw [List.append_assoc, List.cons_append, Settles, inside, List.cons_append, Settles, after]
    exact ⟨And.right, fun settles => ⟨rfl, settles⟩⟩

def Completes : List (Delimiter × Int) → List Bracket → Prop
  | [], brackets => ProperlyNested brackets
  | own :: opened, brackets => ∃ (d : Delimiter) (indent : Nat) (inner rest : List Bracket),
      own = (d, (indent : Int)) ∧ brackets = inner ++ ⟨false, d, indent⟩ :: rest ∧ ProperlyNested inner ∧ Completes opened rest

theorem completes_of_settles (opened : List (Delimiter × Int)) (brackets : List Bracket)
    (h : Settles opened brackets) : Completes opened brackets := by
  induction brackets generalizing opened with
  | nil =>
    rw [Settles] at h
    rw [h]
    exact .nil
  | cons first rest ih =>
    obtain ⟨opens, d, indent⟩ := first
    cases opens with
    | false =>
      cases opened with
      | nil => cases h
      | cons own opened => exact ⟨d, indent, [], rest, h.1, rfl, .nil, ih _ h.2⟩
    | true =>
      obtain ⟨d', indent', inner, later, same, rfl, inside, after⟩ := ih _ h
      obtain ⟨rfl, level⟩ := Prod.mk.inj same
      obtain rfl := Int.ofNat_inj.1 level
      cases opened with
      | nil => exact .cons d indent inside after
      | cons own opened =>
        obtain ⟨d', indent', inner', rest, rfl, rfl, inside', after⟩ := after
        exact ⟨d', indent', ⟨true, d, indent⟩ :: inner ++ ⟨false, d, indent⟩ :: inner', rest, rfl,
          by simp, .cons d indent inside inside', after⟩

theorem settles_iff_nested (brackets : List Bracket) : Settles [] brackets ↔ ProperlyNested brackets := by
  refine ⟨completes_of_settles [] brackets, fun h => ?_⟩
  have settles := (h.settles [] []).2 rfl
  rwa [List.append_nil] at settles

end Bracket

/-- Where a scan is: outside strings, in a string, or behind a backslash in a string. -/
inductive ScanState where
  | code
  | string
  | escape
  deriving DecidableEq, Repr

/-- The indentation of the line that the character behind `c` stands on. -/
def indentAfter (indent : Nat) (c : Char) (rest : List Char) : Nat :=
  if c = '\n' then leadingSpaces rest else indent

def scan : ScanState → Nat → List Char → List Bracket
  | _, _, [] => []
  | .code, indent, c :: rest =>
    match Bracket.ofChar? indent c with
    | some bracket => bracket :: scan (if bracket.delimiter = .quote then .string else .code) indent rest
    | none => scan .code (indentAfter indent c rest) rest
  | .string, indent, c :: rest =>
    if c = '\"' then ⟨false, .quote, indent⟩ :: scan .code indent rest
    else scan (if c = '\\' then .escape else .string) (indentAfter indent c rest) rest
  | .escape, indent, c :: rest => scan .string (indentAfter indent c rest) rest

def bracketsOf (text : List Char) : List Bracket := scan .code (leadingSpaces text) text

def Mode.scanState : Mode → ScanState
  | .regular => .code
  | .inString => .string

def Token.bracket? (t : Token) : Option Bracket :=
  match t.lexeme with
  | .mark (.opener d) => some ⟨true, d, t.after.indent⟩
  | .mark (.closer d) => some ⟨false, d, t.after.indent⟩
  | _ => none

theorem Token.filterMap_bracket?_cons (t : Token) (rest : List Token) :
    (t :: rest).filterMap bracket? = t.bracket?.toList ++ rest.filterMap bracket? := by
  rw [List.filterMap_cons]
  cases t.bracket? <;> rfl

namespace Cursor

def scan (c : Cursor) (state : ScanState) : List Bracket := NamespaceLang.scan state c.indent c.rest

theorem past_indent (c : Cursor) (ch : Char) (rest : List Char) :
    (c.past ch rest).indent = indentAfter c.indent ch rest := by
  unfold past indentAfter
  split <;> rfl

theorem scan_past (c : Cursor) (ch : Char) (rest : List Char) (state : ScanState) :
    (c.past ch rest).scan state = NamespaceLang.scan state (indentAfter c.indent ch rest) rest := by
  rw [scan, past_rest, past_indent]

theorem scan_end {c : Cursor} (h : c.take? = none) (state : ScanState) : c.scan state = [] := by
  unfold take? at h
  split at h
  · next ended => rw [scan, ended, NamespaceLang.scan]
  · cases h

theorem scan_takeWhile {state : ScanState} {p : Char → Bool}
    (passes : ∀ indent ch rest, p ch = true →
      NamespaceLang.scan state indent (ch :: rest) =
        NamespaceLang.scan state (indentAfter indent ch rest) rest) (c : Cursor) :
    (c.takeWhile p).2.scan state = c.scan state := by
  unfold takeWhile
  generalize hr : c.rest = text
  induction text generalizing c with
  | nil => rfl
  | cons ch rest ih =>
    rw [takeRun]
    split
    · next hp =>
      have later := ih (c.past ch rest) (past_rest c ch rest)
      dsimp only
      rw [later, scan_past, scan, hr, passes _ _ _ hp]
    · rfl

end Cursor

namespace Bracket

theorem ofChar?_eq_none {p : Char → Bool} (apart : ∀ ch ∈ Letters.singles, p ch = false)
    (indent : Nat) {ch : Char} (h : p ch = true) : ofChar? indent ch = none := by
  have other : ch ∉ Letters.singles := fun hm => by
    rw [apart ch hm] at h
    cases h
  unfold ofChar?
  split <;> first | rfl | exact absurd (by decide) other

theorem scan_code {p : Char → Bool} (apart : ∀ ch ∈ Letters.singles, p ch = false) (indent : Nat)
    (ch : Char) (rest : List Char) (h : p ch = true) :
    scan .code indent (ch :: rest) = scan .code (indentAfter indent ch rest) rest := by
  rw [scan, ofChar?_eq_none apart indent h]

theorem blank_apart (ch : Char) (h : ch ∈ Letters.singles) : Text.isBlank ch = false := by
  have apart : Letters.singles.all (fun c => !Text.isBlank c) = true := by decide
  simpa using List.all_eq_true.1 apart ch h

end Bracket

namespace Lexeme

open NamespaceLang.Bracket

theorem nextRegular_single {first : Char} (single : first ∈ Letters.singles)
    (sign : first ≠ Letters.accessSign) (after : Cursor) :
    nextRegular first after = (ofSpelling [first], after) := by
  have apart := Letters.singles_apart first single
  have plain : first ≠ Letters.builtinSign := by
    rintro rfl
    exact absurd single (by decide)
  have unnamed : name? first after = none := by
    simp [name?, apart.2, sigil?, plain, sign]
  simp [nextRegular, unnamed, blank_apart first single, runsOn, apart.1, sign]

theorem nextRegular_bracket {indent : Nat} {first : Char} {bracket : Bracket}
    (h : ofChar? indent first = some bracket) (after : Cursor) :
    nextRegular first after =
      (.mark (if bracket.opens then .opener bracket.delimiter else .closer bracket.delimiter), after) ∧
      bracket.indent = indent ∧ first ≠ '\n' ∧
      (bracket.opens = false → bracket.delimiter ≠ .quote) := by
  unfold ofChar? at h
  split at h <;> cases h <;>
  · rw [nextRegular_single (by decide) (by decide)]
    exact ⟨rfl, rfl, by decide, by simp⟩

theorem spelling_of_ofSpelling {chars : List Char} {p : Punctuator}
    (h : ofSpelling chars = .mark p) : p.spelling = String.ofList chars := by
  unfold ofSpelling at h
  dsimp only at h
  split at h
  · next own found =>
    cases h
    exact Punctuator.spelling_of_ofSpelling? found
  · split at h <;> cases h

theorem bracket?_ofSpelling {first : Char} {run : List Char} {indent : Nat}
    (h : ofChar? indent first = none)
    (occurs : (ofSpelling (first :: run)).occursIn .regular = true) (start : Position)
    (after : Cursor) : Token.bracket? ⟨ofSpelling (first :: run), start, after⟩ = none := by
  unfold Token.bracket?
  split
  · next d opens =>
    have spelled := congrArg String.toList (spelling_of_ofSpelling opens)
    rw [String.toList_ofList] at spelled
    cases d <;> cases spelled <;> cases h
  · next d closes =>
    have spelled := congrArg String.toList (spelling_of_ofSpelling closes)
    rw [String.toList_ofList] at spelled
    cases d with
    | quote =>
      have closes : ofSpelling (first :: run) = .mark (.closer .quote) := closes
      rw [closes] at occurs
      cases occurs
    | round | square | curly => cases spelled; cases h
  · rfl

theorem bracket?_ofBlanks (chars : List Char) (start : Position) (after : Cursor) :
    Token.bracket? ⟨ofBlanks chars, start, after⟩ = none := by
  unfold ofBlanks
  split <;> rfl

theorem nextRegular_passes {indent : Nat} {first : Char} (h : ofChar? indent first = none)
    (after : Cursor) (start : Position) :
    Token.bracket? ⟨(nextRegular first after).1, start, (nextRegular first after).2⟩ = none ∧
      ((nextRegular first after).2 = after ∨ ∃ p : Char → Bool,
        (∀ ch ∈ Letters.singles, p ch = false) ∧
          (nextRegular first after).2 = (after.takeWhile p).2) := by
  have occurs := regular_occurs first after
  unfold nextRegular at occurs ⊢
  split
  · next named hn =>
    obtain ⟨⟨content, leaf⟩, run⟩ := name?_run hn
    refine ⟨by rw [leaf]; rfl, Or.inr ⟨_, fun ch hm => (Letters.singles_apart ch hm).2, run⟩⟩
  · next hn =>
    rw [hn] at occurs
    dsimp only at occurs
    split
    · exact ⟨bracket?_ofBlanks _ _ _, Or.inr ⟨_, blank_apart, rfl⟩⟩
    · next blank =>
      rw [if_neg blank] at occurs
      split
      · next runs =>
        rw [if_pos runs] at occurs
        exact ⟨bracket?_ofSpelling h occurs _ _,
          Or.inr ⟨_, fun ch hm => (Letters.singles_apart ch hm).1, rfl⟩⟩
      · next single =>
        rw [if_neg single] at occurs
        exact ⟨bracket?_ofSpelling h occurs _ _, Or.inl rfl⟩

theorem modeAfter_of_bracket? {t : Token} (h : t.bracket? = none) (mode : Mode) :
    t.lexeme.modeAfter mode = mode := by
  obtain ⟨l, start, after⟩ := t
  rcases l with _ | _ | (d | d | w | j) | _ | _ <;> first | rfl | cases h

theorem nextRegular_scan {c after : Cursor} {first : Char} (h : c.take? = some (first, after)) :
    c.scan .code = (Token.bracket? ⟨(nextRegular first after).1, c.position,
        (nextRegular first after).2⟩).toList ++
      (nextRegular first after).2.scan
        ((nextRegular first after).1.modeAfter .regular).scanState := by
  obtain ⟨rest, rfl, hr⟩ := c.rest_of_take? h
  cases hb : ofChar? c.indent first with
  | some bracket =>
    obtain ⟨lexed, level, line, opens⟩ := nextRegular_bracket hb (c.past first rest)
    have indent : (c.past first rest).indent = c.indent := by
      rw [Cursor.past_indent, indentAfter, if_neg line]
    rw [lexed, Cursor.scan, Cursor.scan, hr, scan, hb, Cursor.past_rest, indent]
    obtain ⟨opening, d, own⟩ := bracket
    obtain rfl : own = c.indent := level
    cases opening <;> cases d <;> simp [Token.bracket?, indent, modeAfter, Punctuator.mode?,
      Delimiter.openingMode?, Delimiter.closingMode?, Mode.scanState] at opens ⊢
  | none =>
    have passed : c.scan .code = (c.past first rest).scan .code := by
      rw [Cursor.scan_past, Cursor.scan, hr, scan, hb]
    obtain ⟨none_, later⟩ := nextRegular_passes hb (c.past first rest) c.position
    rw [passed, none_, modeAfter_of_bracket? none_]
    rcases later with later | ⟨p, apart, later⟩
    · rw [later]
      rfl
    · rw [later]
      exact (Cursor.scan_takeWhile (scan_code apart) _).symm

theorem scan_literal (indent : Nat) (ch : Char) (rest : List Char) (h : isLiteral ch = true) :
    scan .string indent (ch :: rest) = scan .string (indentAfter indent ch rest) rest := by
  simp only [isLiteral, Bool.and_eq_true, bne_iff_ne] at h
  rw [scan, if_neg h.1, if_neg h.2]

theorem nextEscape_scan (c : Cursor) (start : Position) :
    Token.bracket? ⟨(nextEscape c).1, start, (nextEscape c).2⟩ = none ∧
      (nextEscape c).2.scan .string = c.scan .escape := by
  unfold nextEscape
  split
  · next ht => exact ⟨rfl, by rw [c.scan_end ht, c.scan_end ht]⟩
  · next ch later ht =>
    obtain ⟨rest, rfl, hr⟩ := c.rest_of_take? ht
    have passed : (c.past ch rest).scan .string = c.scan .escape := by
      rw [Cursor.scan_past, Cursor.scan, hr, scan]
    split
    · exact ⟨rfl, passed⟩
    · split
      · exact ⟨rfl, passed⟩
      · split
        · exact ⟨rfl, passed⟩
        · split <;> exact ⟨rfl, passed⟩

theorem nextInString_scan {c after : Cursor} {first : Char} (h : c.take? = some (first, after)) :
    c.scan .string = (Token.bracket? ⟨(nextInString first after).1, c.position,
        (nextInString first after).2⟩).toList ++
      (nextInString first after).2.scan
        ((nextInString first after).1.modeAfter .inString).scanState := by
  obtain ⟨rest, rfl, hr⟩ := c.rest_of_take? h
  have here : c.scan .string = scan .string c.indent (first :: rest) := by rw [Cursor.scan, hr]
  by_cases quote : first = '\"'
  · have line : (c.past first rest).indent = c.indent := by
      rw [Cursor.past_indent, indentAfter, if_neg (by rw [quote]; decide)]
    rw [here, scan, if_pos quote, nextInString, if_pos quote, Cursor.scan, line, Cursor.past_rest,
      Token.bracket?]
    simp [line, modeAfter, Punctuator.mode?, Delimiter.closingMode?, Mode.scanState]
  · rw [here, scan, if_neg quote, nextInString, if_neg quote]
    by_cases backslash : first = '\\'
    · obtain ⟨none_, passed⟩ := nextEscape_scan (c.past first rest) c.position
      rw [if_pos backslash, if_pos backslash, none_, modeAfter_of_bracket? none_]
      rw [Mode.scanState, passed, Cursor.scan_past]
      rfl
    · rw [if_neg backslash, if_neg backslash]
      rw [← Cursor.scan_past, ← Cursor.scan_takeWhile scan_literal (c.past first rest)]
      rfl

theorem next_scan (mode : Mode) {c after : Cursor} {first : Char}
    (h : c.take? = some (first, after)) :
    c.scan mode.scanState = (Token.bracket? ⟨(next mode first after).1, c.position,
        (next mode first after).2⟩).toList ++
      (next mode first after).2.scan ((next mode first after).1.modeAfter mode).scanState := by
  cases mode with
  | regular => exact nextRegular_scan h
  | inString => exact nextInString_scan h

end Lexeme

/-- The brackets among the tokens are those that a scan finds. -/
theorem filterMap_bracket? (mode : Mode) (c : Cursor) :
    (tokensFrom mode c).filterMap Token.bracket? = c.scan mode.scanState := by
  fun_induction tokensFrom mode c with
  | case1 mode c ht => rw [c.scan_end ht, List.filterMap_nil]
  | case2 mode c first after ht lexed ih =>
    rw [Lexeme.next_scan mode ht, ← ih, Token.filterMap_bracket?_cons]

end NamespaceLang

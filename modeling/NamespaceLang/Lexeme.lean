import NamespaceLang.Cursor
import NamespaceLang.Text.Blank
import NamespaceLang.Tree
import NamespaceLang.Vocabulary.Letters
import NamespaceLang.Vocabulary.Punctuator

/-!
# Lexemes

What the characters at the cursor say next. In a string everything up to a
quote or a backslash is literal; elsewhere the first character decides how far
the lexeme goes. Each lexeme takes at least the character it begins with.
-/

set_option autoImplicit false

namespace NamespaceLang

inductive Lexeme where
  | leaf (content : Leaf)
  /-- A run of blanks in which a line ends. -/
  | lineBreak
  | mark (p : Punctuator)
  | badEscape (found : Option Char)
  | badToken (spelling : String)
  deriving DecidableEq, Repr, Inhabited

namespace Lexeme

def ofSpelling (chars : List Char) : Lexeme :=
  let spelling := String.ofList chars
  match Punctuator.ofSpelling? spelling with
  | some p => .mark p
  | none =>
    match BareTag.ofSpelling? spelling with
    | some tag => .leaf (.bare tag spelling)
    | none => .badToken spelling

def ofBlanks (chars : List Char) : Lexeme :=
  if chars.contains '\n' then .lineBreak else .leaf (.whitespace false)

theorem ofBlanks_of_not_mem {chars : List Char} (inside : '\n' ∉ chars) :
    ofBlanks chars = .leaf (.whitespace false) :=
  if_neg (mt List.contains_iff_mem.1 inside)

theorem ofBlanks_eq_lineBreak_iff (chars : List Char) : ofBlanks chars = .lineBreak ↔ '\n' ∈ chars := by
  by_cases ends : '\n' ∈ chars
  · exact iff_of_true (if_pos (List.contains_iff_mem.2 ends)) ends
  · rw [ofBlanks_of_not_mem ends]
    exact iff_of_false (fun h => by cases h) ends

def sigil? (first : Char) : Option Sigil :=
  if first = Letters.builtinSign then some .builtin
  else if first = Letters.accessSign then some .access
  else none

def name? (first : Char) (after : Cursor) : Option (Lexeme × Cursor) :=
  if Letters.isIdentifier first then
    let (run, later) := after.takeWhile Letters.isIdentifier
    some (.leaf (.identifier .plain (String.ofList (first :: run))), later)
  else
    match sigil? first with
    | none => none
    | some sigil =>
      let (run, later) := after.takeWhile Letters.isIdentifier
      if run.isEmpty then none
      else some (.leaf (.identifier sigil (String.ofList run)), later)

/-- Whether the lexeme that begins with `first` goes on over operator characters. -/
def runsOn (first : Char) (after : Cursor) : Bool :=
  Letters.isOperator first || first == Letters.accessSign && after.peek?.any Letters.isOperator

def nextRegular (first : Char) (after : Cursor) : Lexeme × Cursor :=
  match name? first after with
  | some named => named
  | none =>
    if Text.isBlank first then
      let (run, later) := after.takeWhile Text.isBlank
      (ofBlanks (first :: run), later)
    else if runsOn first after then
      let (run, later) := after.takeWhile Letters.isOperator
      (ofSpelling (first :: run), later)
    else (ofSpelling [first], after)

def nextEscape (after : Cursor) : Lexeme × Cursor :=
  match after.take? with
  | none => (.badEscape none, after)
  | some (c, later) =>
    if c = '\\' then (.leaf (.text "\\"), later)
    else if c = '\"' then (.leaf (.text "\""), later)
    else if c = 'n' then (.leaf (.text "\n"), later)
    else if c = 't' then (.leaf (.text "\t"), later)
    else (.badEscape (some c), later)

def isLiteral (c : Char) : Bool := c != '\"' && c != '\\'

def nextInString (first : Char) (after : Cursor) : Lexeme × Cursor :=
  if first = '\"' then (.mark (.closer .quote), after)
  else if first = '\\' then nextEscape after
  else
    let (run, later) := after.takeWhile isLiteral
    (.leaf (.text (String.ofList (first :: run))), later)

def next : Mode → Char → Cursor → Lexeme × Cursor
  | .regular => nextRegular
  | .inString => nextInString

theorem name?_shorter (first : Char) (after : Cursor) (named : Lexeme × Cursor)
    (h : name? first after = some named) : named.2.rest.length ≤ after.rest.length := by
  have shorter := after.takeWhile_shorter Letters.isIdentifier
  unfold name? at h
  split at h
  · cases h
    exact shorter
  · split at h
    · cases h
    · dsimp only at h
      split at h <;> cases h
      exact shorter

theorem nextEscape_shorter (after : Cursor) :
    (nextEscape after).2.rest.length ≤ after.rest.length := by
  unfold nextEscape
  split
  · exact Nat.le_refl _
  · next c later h =>
    have shorter := Nat.le_of_lt (after.take?_shorter later c h)
    split <;> (try split) <;> (try split) <;> (try split) <;> exact shorter

theorem next_shorter (mode : Mode) (first : Char) (after : Cursor) :
    (next mode first after).2.rest.length ≤ after.rest.length := by
  cases mode
  · show (nextRegular first after).2.rest.length ≤ _
    unfold nextRegular
    split
    · next named h => exact name?_shorter first after named h
    · split
      · exact after.takeWhile_shorter _
      · split
        · exact after.takeWhile_shorter _
        · exact Nat.le_refl _
  · show (nextInString first after).2.rest.length ≤ _
    unfold nextInString
    split
    · exact Nat.le_refl _
    · split
      · exact nextEscape_shorter after
      · exact after.takeWhile_shorter _

end Lexeme

end NamespaceLang

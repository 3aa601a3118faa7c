import NamespaceLang.Position

/-!
# Cursors

A cursor stands between two characters of a text and knows its position and
the indentation of its line: the number of spaces the line begins with.
-/

set_option autoImplicit false

namespace NamespaceLang

def leadingSpaces (text : List Char) : Nat := (text.takeWhile (· == ' ')).length

def byteLength : List Char → Nat
  | [] => 0
  | c :: rest => c.utf8Size + byteLength rest

@[simp] theorem byteLength_append (left right : List Char) :
    byteLength (left ++ right) = byteLength left + byteLength right := by
  induction left with
  | nil => simp [byteLength]
  | cons c left ih => simp [byteLength, ih, Nat.add_assoc]

def dropBytes : Nat → List Char → List Char
  | _, [] => []
  | 0, text => text
  | bytes, c :: rest => dropBytes (bytes - c.utf8Size) rest

/-- The characters that end within the first `bytes` bytes of a text. -/
def takeBytes : Nat → List Char → List Char
  | _, [] => []
  | 0, _ => []
  | bytes, c :: rest => c :: takeBytes (bytes - c.utf8Size) rest

/-- The last line of a text: all that follows its last line feed. -/
def lastLine (text : List Char) : List Char := (text.reverse.takeWhile (· != '\n')).reverse

structure Cursor where
  file : String
  text : List Char
  rest : List Char
  offset : Nat
  line : Nat
  col : Nat
  indent : Nat
  deriving DecidableEq, Repr

namespace Cursor

def start (file : String) (text : List Char) : Cursor :=
  ⟨file, text, text, 0, 1, 1, leadingSpaces text⟩

def position (c : Cursor) : Position := ⟨c.file, c.offset, c.line, c.col⟩

def peek? (c : Cursor) : Option Char := c.rest.head?

def atEnd (c : Cursor) : Bool := c.rest.isEmpty

def past (c : Cursor) (ch : Char) (rest : List Char) : Cursor :=
  if ch = '\n' then
    { c with rest, offset := c.offset + ch.utf8Size, line := c.line + 1, col := 1,
             indent := leadingSpaces rest }
  else { c with rest, offset := c.offset + ch.utf8Size, col := c.col + 1 }

def take? (c : Cursor) : Option (Char × Cursor) :=
  match c.rest with
  | [] => none
  | ch :: rest => some (ch, c.past ch rest)

def takeRun (p : Char → Bool) : List Char → Cursor → List Char × Cursor
  | [], c => ([], c)
  | ch :: rest, c =>
    if p ch then
      let (run, after) := takeRun p rest (c.past ch rest)
      (ch :: run, after)
    else ([], c)

def takeWhile (p : Char → Bool) (c : Cursor) : List Char × Cursor := takeRun p c.rest c

/-- Back, or on, to a position that a cursor on this text has had. -/
def moveTo (c : Cursor) (p : Position) : Cursor :=
  let before := takeBytes p.offset c.text
  { c with rest := dropBytes p.offset c.text, offset := p.offset, line := p.line, col := p.col,
           indent := leadingSpaces (lastLine before ++ dropBytes p.offset c.text) }

def since (c : Cursor) (p : Position) : List Char :=
  dropBytes p.offset (takeBytes c.offset c.text)

@[simp] theorem past_rest (c : Cursor) (ch : Char) (rest : List Char) :
    (c.past ch rest).rest = rest := by
  unfold past
  split <;> rfl

theorem takeRun_rest (p : Char → Bool) (text : List Char) (c : Cursor) (h : c.rest = text) :
    (takeRun p text c).1 = text.takeWhile p ∧ (takeRun p text c).2.rest = text.dropWhile p := by
  induction text generalizing c with
  | nil => simp [takeRun, h]
  | cons ch rest ih =>
    by_cases hp : p ch
    · have := ih (c.past ch rest) (past_rest c ch rest)
      simp [takeRun, hp, this]
    · simp [takeRun, hp, h]

theorem takeWhile_run (p : Char → Bool) (c : Cursor) :
    (c.takeWhile p).1 = c.rest.takeWhile p := (takeRun_rest p c.rest c rfl).1

theorem takeWhile_rest (p : Char → Bool) (c : Cursor) :
    (c.takeWhile p).2.rest = c.rest.dropWhile p := (takeRun_rest p c.rest c rfl).2

theorem takeWhile_shorter (p : Char → Bool) (c : Cursor) :
    (c.takeWhile p).2.rest.length ≤ c.rest.length := by
  rw [takeWhile_rest]
  exact (List.dropWhile_sublist p).length_le

theorem take?_shorter (c after : Cursor) (ch : Char) (h : c.take? = some (ch, after)) :
    after.rest.length < c.rest.length := by
  unfold take? at h
  split at h
  · simp at h
  · next c' rest hr =>
    simp only [Option.some.injEq, Prod.mk.injEq] at h
    obtain ⟨rfl, rfl⟩ := h
    simp [hr]

end Cursor

end NamespaceLang

import NamespaceLang.Tree.Tokenize

/-!
# A reference parser

The text is cut into tokens first. The body of a bracket, or of the file, is
read by recursion into pieces: items, and the operators between them. Pieces
are then grouped from the loosest tier down. There is no recovery here: a
bracket without its partner, or a wrapper, has no reading.
-/

set_option autoImplicit false

namespace NamespaceLang

structure Token where
  lexeme : Lexeme
  start : Position
  after : Cursor

def Token.wraps (t : Token) : Bool :=
  match t.lexeme with
  | .mark (.wrapper _) => true
  | _ => false

def Lexeme.modeAfter (mode : Mode) : Lexeme → Mode
  | .mark p => p.mode?.getD mode
  | _ => mode

def tokensFrom (mode : Mode) (c : Cursor) : List Token :=
  match _h : c.take? with
  | none => []
  | some (first, after) =>
    let lexed := Lexeme.next mode first after
    ⟨lexed.1, c.position, lexed.2⟩ :: tokensFrom (lexed.1.modeAfter mode) lexed.2
termination_by c.rest.length
decreasing_by
  exact Nat.lt_of_le_of_lt (Lexeme.next_shorter mode first after) (c.take?_shorter after first _h)

def tokens (file : String) (text : List Char) : List Token :=
  tokensFrom .regular (.start file text)

structure Operator where
  joiner : Joiner
  start : Position
  next : Position

inductive Piece where
  | item (node : Tree)
  | operator (op : Operator)

namespace Piece

def node? : Piece → Option Tree
  | .item node => some node
  | .operator _ => none

/-- Whether nothing but blanks stands after the last operator once the piece is read. -/
def fresh (before : Bool) : Piece → Bool
  | .item node => before && node.isBlank
  | .operator _ => true

end Piece

def endsBody : Option Char → Bool
  | none => true
  | some c => c == ')' || c == ']' || c == '\x7d'

def Token.piece? (t : Token) (fresh : Bool) : Option Piece :=
  match t.lexeme with
  | .leaf content => some (.item (.leaf t.start content))
  | .badEscape _ | .badToken _ => some (.item (.leaf t.start .error))
  | .lineBreak =>
    if fresh || endsBody t.after.peek? then some (.item (.leaf t.start (.whitespace true)))
    else some (.operator ⟨.lineBreak, t.start, t.after.position⟩)
  | .mark (.joiner j) => some (.operator ⟨j, t.start, t.after.position⟩)
  | .mark _ => none

def prepend (p : Piece) :
    List (List Piece × Operator) × List Piece → List (List Piece × Operator) × List Piece
  | ([], last) => ([], p :: last)
  | ((operand, op) :: more, last) => ((p :: operand, op) :: more, last)

/-- Splits pieces at the operators of a tier: the operands that one of them follows, and the last
operand. -/
def splitTier (tier : Nat) : List Piece → List (List Piece × Operator) × List Piece
  | [] => ([], [])
  | .item node :: rest => prepend (.item node) (splitTier tier rest)
  | .operator op :: rest =>
    if op.joiner.tier = tier then (([], op) :: (splitTier tier rest).1, (splitTier tier rest).2)
    else prepend (.operator op) (splitTier tier rest)

def operandParts (inner : List Piece → List Tree) :
    Option Position → List (List Piece × Operator) → List Tree
  | _, [] => []
  | begin?, (operand, op) :: more =>
    segment (inner operand) (begin?.getD op.start) ::
      .leaf op.start (.operator op.joiner.spelling) :: operandParts inner (some op.next) more

def nextOperand (first : Operator) : List (List Piece × Operator) → Position
  | [] => first.next
  | (_, op) :: more => nextOperand op more

/-- Groups pieces: the loosest tier with an operator among them makes the chain, with the tag of its
first operator, and each operand is grouped by the tighter tiers. -/
def group : List Nat → List Piece → List Tree
  | [], pieces => pieces.filterMap Piece.node?
  | tier :: tighter, pieces =>
    match splitTier tier pieces with
    | ([], _) => group tighter pieces
    | ((operand, op) :: more, last) =>
      [.group (segment (group tighter operand) op.start).pos (.chain op.joiner.tag tier)
        (operandParts (group tighter) none ((operand, op) :: more) ++
          [segment (group tighter last) (nextOperand op more)])]

def joinTiers : List Nat := [TokenGroup.sep.tier, TokenGroup.bind.tier, TokenGroup.equals.tier]

/-- Reads the body of a bracket up to its closer, which stands at the opener's indentation, or the
file up to its end. The tokens after it are left. -/
def readBody (closing? : Option (Delimiter × Int)) (fresh : Bool) (tokens : List Token) :
    Option (List Piece × { rest : List Token // rest.length ≤ tokens.length }) :=
  match tokens with
  | [] => if closing?.isNone then some ([], ⟨[], Nat.le_refl _⟩) else none
  | t :: rest =>
    match t.piece? fresh with
    | some p =>
      match readBody closing? (p.fresh fresh) rest with
      | none => none
      | some (pieces, later) => some (p :: pieces, ⟨later, Nat.le_succ_of_le later.2⟩)
    | none =>
      match t.lexeme with
      | .mark (.opener d) =>
        match readBody (some (d, t.after.indent)) true rest with
        | none => none
        | some (body, after) =>
          match readBody closing? false after with
          | none => none
          | some (pieces, later) =>
            some (.item (.group t.start (.block d.blockTag d.opening d.closing) (group joinTiers body)) ::
              pieces, ⟨later, Nat.le_succ_of_le (Nat.le_trans later.2 after.2)⟩)
      | .mark (.closer d) =>
        if closing? = some (d, (t.after.indent : Int)) then some ([], ⟨rest, Nat.le_succ _⟩) else none
      | _ => none
termination_by tokens.length
decreasing_by
  · exact Nat.lt_succ_self _
  · exact Nat.lt_succ_self _
  · exact Nat.lt_succ_of_le after.2

def reference? (file : String) (text : List Char) : Option (List Tree) :=
  (readBody none true (tokens file text)).map fun read => group joinTiers read.1

end NamespaceLang

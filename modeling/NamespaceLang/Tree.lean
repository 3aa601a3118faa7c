import NamespaceLang.Position
import NamespaceLang.Vocabulary.Tags

/-!
# Trees

A text without a grammar still has structure: which items stand inside which
bracket, and which stand between which operators. A tree records that and no
more. Every node knows where it begins; blanks are kept.
-/

set_option autoImplicit false

namespace NamespaceLang

inductive Leaf where
  | identifier (sigil : Sigil) (name : String)
  /-- A run of blanks, and whether a line ends in it. -/
  | whitespace (newline : Bool)
  | operator (spelling : String)
  | text (content : String)
  | bare (tag : BareTag) (spelling : String)
  | error
  deriving DecidableEq, Repr, Inhabited

inductive Form where
  | segment
  /-- Both spellings are as a reader sees them; a wrapped operand has no opening one. -/
  | block (tag : BlockTag) (opening closing : String)
  | chain (tag : ChainTag) (tier : Nat)
  deriving DecidableEq, Repr, Inhabited

inductive Tree where
  | leaf (pos : Position) (content : Leaf)
  | group (pos : Position) (form : Form) (items : List Tree)
  deriving Repr, Inhabited

namespace Leaf

def isBlank : Leaf → Bool
  | .whitespace _ => true
  | _ => false

def kind : Leaf → String
  | .identifier .. => "identifier"
  | .whitespace _ => "whitespace"
  | .operator _ => "operator"
  | .text _ => "string segment"
  | .bare .. => "raw token"
  | .error => "error"

end Leaf

def Form.kind : Form → String
  | .segment => "operator segment"
  | .block .. => "block"
  | .chain .. => "binary"

namespace Tree

def pos : Tree → Position
  | .leaf pos _ | .group pos _ _ => pos

def kind : Tree → String
  | .leaf _ content => content.kind
  | .group _ form _ => form.kind

def isBlank : Tree → Bool
  | .leaf _ content => content.isBlank
  | .group .. => false

def items : Tree → List Tree
  | .leaf .. => []
  | .group _ _ items => items

def isOperator : Tree → Bool
  | .leaf _ (.operator _) => true
  | _ => false

mutual

def preorder : Tree → List Tree
  | .leaf pos content => [.leaf pos content]
  | .group pos form items => .group pos form items :: preorderAll items

def preorderAll : List Tree → List Tree
  | [] => []
  | node :: rest => node.preorder ++ preorderAll rest

end

mutual

def weight : Tree → Nat
  | .leaf .. => 1
  | .group _ _ items => weightAll items + 1

def weightAll : List Tree → Nat
  | [] => 0
  | node :: rest => node.weight + weightAll rest

end

def trimStart (items : List Tree) : List Tree := items.dropWhile isBlank

def trim (items : List Tree) : List Tree := (trimStart (trimStart items).reverse).reverse

/-- The operands of a chain's items, where operators take every second place. -/
def operands : List Tree → List Tree
  | [] => []
  | [operand] => [operand]
  | operand :: _ :: rest => operand :: operands rest

@[simp] theorem preorderAll_append (left right : List Tree) :
    preorderAll (left ++ right) = preorderAll left ++ preorderAll right := by
  induction left with
  | nil => rfl
  | cons node left ih => simp [preorderAll, ih]

@[simp] theorem weightAll_append (left right : List Tree) :
    weightAll (left ++ right) = weightAll left + weightAll right := by
  induction left with
  | nil => simp [weightAll]
  | cons node left ih => simp [weightAll, ih, Nat.add_assoc]

theorem weight_pos (node : Tree) : 0 < node.weight := by
  cases node <;> simp [weight]

end Tree

end NamespaceLang

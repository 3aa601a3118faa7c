import NamespaceLang.Body.Line

/-!
# Patterns

What stands to the left of a definition: a name, or a list of patterns between
brackets. Every name of a pattern is bound to an element of the value, and the
path of the element leads to the name.
-/

set_option autoImplicit false

namespace NamespaceLang

inductive Pattern where
  | bind (name : String) (pos : Position)
  | list (parts : List Pattern)
  deriving Repr, Inhabited

/-- A name in a pattern, with the path of element numbers that leads to it. -/
structure BoundName where
  name : String
  pos : Position
  path : List Nat
  deriving DecidableEq, Repr

namespace Pattern

mutual

def namesAt (path : List Nat) : Pattern → List BoundName
  | .bind name pos => [⟨name, pos, path⟩]
  | .list parts => namesFrom path 0 parts

def namesFrom (path : List Nat) (index : Nat) : List Pattern → List BoundName
  | [] => []
  | part :: rest => namesAt (path ++ [index]) part ++ namesFrom path (index + 1) rest

end

def names (p : Pattern) : List BoundName := p.namesAt []

/-- The brackets that a list pattern may stand in. -/
def opensList : BlockTag → Bool
  | .list | .code => true
  | _ => false

mutual

def read (pos : Position) (nodes : List Tree) : Except Diagnostic Pattern :=
  match _h : Tree.trim nodes with
  | [] => .error (.error pos .emptyPattern)
  | _ :: extra :: _ => .error (.error extra.pos .trailingInPattern)
  | [.leaf at_ (.identifier .plain name)] => .ok (.bind name at_)
  | [.group at_ (.block tag _ _) items] =>
    if tag = .map then .error (.error at_ .mapPattern)
    else if opensList tag then
      match _hl : bodyLines at_ items with
      | .error d => .error d
      | .ok lines => (readLines lines).map .list
    else .error (.error at_ (.notPattern "block"))
  | [other] => .error (.error other.pos (.notPattern other.kind))
termination_by 3 * Tree.weightAll nodes + 1
decreasing_by
  have inner := bodyLines_weight at_ items lines _hl
  have outer := Tree.weightAll_trim nodes
  rw [_h] at outer
  simp only [Tree.weightAll, Tree.weight] at outer
  omega

def readLines (lines : List Line) : Except Diagnostic (List Pattern) :=
  match lines with
  | [] => .ok []
  | line :: rest =>
    if line.isBlank then readLines rest
    else
      match twoSided? (· == .definition) line.pos line.items with
      | .error d => .error d
      | .ok (some _) => .error (.error line.pos .mapPattern)
      | .ok none =>
        match read line.pos line.items with
        | .error d => .error d
        | .ok part => (readLines rest).map (part :: ·)
termination_by lineWeight lines
decreasing_by all_goals simp only [lineWeight]; omega

end

end Pattern

end NamespaceLang

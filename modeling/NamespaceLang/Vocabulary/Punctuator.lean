import NamespaceLang.Vocabulary.Tags

/-!
# Punctuators

The tokens that give a text its structure. Each stands in one group, and the
place of a group in the list of groups is its tier: later groups bind tighter.
An opener starts a block, a closer ends one, a wrapper makes a block of the
operand before it, and a joiner forms a chain with the joiners of its tier.
-/

set_option autoImplicit false

namespace NamespaceLang

inductive Mode where
  | regular
  | inString
  deriving DecidableEq, Repr, Inhabited

inductive Delimiter where
  | round
  | square
  | curly
  | quote
  deriving DecidableEq, Repr, Inhabited

inductive Wrapper where
  | colon
  | arrow
  deriving DecidableEq, Repr, Inhabited

inductive Joiner where
  | comma
  | semicolon
  | lineBreak
  | definition
  | publicBinding
  | variableBinding
  | assignment
  deriving DecidableEq, Repr, Inhabited

inductive Punctuator where
  | opener (d : Delimiter)
  | closer (d : Delimiter)
  | wrapper (w : Wrapper)
  | joiner (j : Joiner)
  deriving DecidableEq, Repr, Inhabited

inductive TokenGroup where
  | paren
  | sep
  | bind
  | rightAssociative
  | equals
  | string
  deriving DecidableEq, Repr, Inhabited

def Mode.name : Mode → String
  | .regular => "Regular"
  | .inString => "InString"

namespace TokenGroup

def all : List TokenGroup := [.paren, .sep, .bind, .rightAssociative, .equals, .string]

def tier (g : TokenGroup) : Nat := all.idxOf g

def name : TokenGroup → String
  | .paren => "paren"
  | .sep => "sep"
  | .bind => "bind"
  | .rightAssociative => "right_associative"
  | .equals => "equals"
  | .string => "string"

def ofName? (text : String) : Option TokenGroup := all.find? (·.name == text)

end TokenGroup

/-- Marks the quote that closes a string apart from the quote that opens one. -/
def inStringMark : String := "<in_string>"

namespace Delimiter

def opening : Delimiter → String
  | .round => "("
  | .square => "["
  | .curly => "\x7b"
  | .quote => "\""

def closing : Delimiter → String
  | .round => ")"
  | .square => "]"
  | .curly => "\x7d"
  | .quote => "\""

def closingSpelling : Delimiter → String
  | .quote => inStringMark ++ "\""
  | d => d.closing

def group : Delimiter → TokenGroup
  | .quote => .string
  | _ => .paren

def tier (d : Delimiter) : Nat := d.group.tier

def blockTag : Delimiter → BlockTag
  | .round => .code
  | .square => .list
  | .curly => .map
  | .quote => .string

def openingMode? : Delimiter → Option Mode
  | .quote => some .inString
  | _ => none

def closingMode? : Delimiter → Option Mode
  | .quote => some .regular
  | _ => none

end Delimiter

namespace Wrapper

def spelling : Wrapper → String
  | .colon => ":"
  | .arrow => "=>"

def blockTag : Wrapper → BlockTag
  | .colon => .colonCall
  | .arrow => .arrowFunction

def tier (_ : Wrapper) : Nat := TokenGroup.rightAssociative.tier

end Wrapper

namespace Joiner

def spelling : Joiner → String
  | .comma => ","
  | .semicolon => ";"
  | .lineBreak => "\n"
  | .definition => "::"
  | .publicBinding => ".="
  | .variableBinding => ":="
  | .assignment => "="

def tag : Joiner → ChainTag
  | .comma | .lineBreak => .separator
  | .semicolon => .sequence
  | .definition => .definition
  | .publicBinding => .publicBinding
  | .variableBinding => .variableBinding
  | .assignment => .assignment

def group : Joiner → TokenGroup
  | .comma | .semicolon | .lineBreak => .sep
  | .definition | .publicBinding | .variableBinding => .bind
  | .assignment => .equals

def tier (j : Joiner) : Nat := j.group.tier

end Joiner

namespace Punctuator

def all : List Punctuator :=
  [.opener .round, .opener .square, .opener .curly,
    .closer .round, .closer .square, .closer .curly,
    .joiner .comma, .joiner .semicolon, .joiner .lineBreak,
    .joiner .definition, .joiner .publicBinding, .joiner .variableBinding,
    .wrapper .colon, .wrapper .arrow, .joiner .assignment,
    .opener .quote, .closer .quote]

def spelling : Punctuator → String
  | .opener d => d.opening
  | .closer d => d.closingSpelling
  | .wrapper w => w.spelling
  | .joiner j => j.spelling

def group : Punctuator → TokenGroup
  | .opener d | .closer d => d.group
  | .wrapper _ => .rightAssociative
  | .joiner j => j.group

def tier (p : Punctuator) : Nat := p.group.tier

/-- The mode the text goes on in once the token took effect, if it changes. -/
def mode? : Punctuator → Option Mode
  | .opener d => d.openingMode?
  | .closer d => d.closingMode?
  | _ => none

def ofSpelling? (text : String) : Option Punctuator := all.find? (·.spelling == text)

def shown (text : String) : String :=
  match inStringMark.toList.isPrefixOf? text.toList with
  | some rest => String.ofList rest
  | none => text

theorem ofSpelling?_spelling (p : Punctuator) : ofSpelling? p.spelling = some p := by
  cases p <;> rename_i x <;> cases x <;> decide

end Punctuator

end NamespaceLang

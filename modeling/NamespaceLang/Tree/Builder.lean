import NamespaceLang.Diagnostic.Basic
import NamespaceLang.Lexeme

/-!
# Building a tree

A builder holds the items of the innermost open scope and, innermost first, the
scopes that are open around them: brackets and chains of operators. An opener
opens a scope; a closer folds scopes up to the one it closes; a joiner folds
the chains that bind tighter, then goes on with the chain of its tier or makes
all items of the scope the first operand of a new one. A closer fits an opener
only at the same indentation.
-/

set_option autoImplicit false

namespace NamespaceLang

structure OpenChain where
  tag : ChainTag
  tier : Nat
  done : Array Tree
  operandStart : Position
  firstOperator : Position
  deriving Repr

inductive ScopeKind where
  | block (d : Delimiter)
  | chain (c : OpenChain)
  deriving Repr

structure OpenScope where
  pos : Position
  indent : Int
  kind : ScopeKind
  /-- The items that stand before this scope in the scope around it. -/
  before : Array Tree
  deriving Repr

def segment (items : List Tree) (fallback : Position) : Tree :=
  .group ((items.head?.map Tree.pos).getD fallback) .segment items

def OpenChain.extend (c : OpenChain) (items : List Tree) (j : Joiner) (start next : Position) :
    OpenChain :=
  { c with
    done := (c.done.push (segment items c.operandStart)).push (.leaf start (.operator j.spelling)),
    operandStart := next }

namespace OpenScope

def tier (s : OpenScope) : Nat :=
  match s.kind with
  | .block d => d.tier
  | .chain c => c.tier

def isBlock (s : OpenScope) : Bool :=
  match s.kind with
  | .block _ => true
  | .chain _ => false

def closing (s : OpenScope) : String :=
  match s.kind with
  | .block d => d.closing
  | .chain _ => ""

def closedBy (s : OpenScope) (d : Delimiter) (indent : Int) : Bool :=
  match s.kind with
  | .block own => own == d && s.indent == indent
  | .chain _ => false

/-- Whether a closer of this indentation and tier has to leave the scope open. -/
def holds (s : OpenScope) (indent : Int) (tier : Nat) : Bool :=
  s.indent < indent || s.tier < tier

def tree (s : OpenScope) (items : List Tree) : Tree :=
  match s.kind with
  | .block d => .group s.pos (.block d.blockTag d.opening d.closing) items
  | .chain c =>
    let parts := (c.done.push (segment items c.operandStart)).toList
    .group ((parts.head?.map Tree.pos).getD s.pos) (.chain c.tag c.tier) parts

end OpenScope

structure Builder where
  items : Array Tree
  scopes : List OpenScope
  mode : Mode
  diagnostics : List Diagnostic
  /-- Set when the rest of the text is not to be read. -/
  stopped : Bool
  deriving Repr

namespace Builder

def empty : Builder := ⟨#[], [], .regular, [], false⟩

def add (b : Builder) (node : Tree) : Builder := { b with items := b.items.push node }

def report (b : Builder) (d : Diagnostic) : Builder := { b with diagnostics := b.diagnostics ++ [d] }

def stop (b : Builder) (d : Diagnostic) : Builder := { b.report d with stopped := true }

def enter (b : Builder) (mode? : Option Mode) : Builder := { b with mode := mode?.getD b.mode }

def indent (b : Builder) : Int := (b.scopes.head?.map (·.indent)).getD (-1)

def fold (b : Builder) (s : OpenScope) (outer : List OpenScope) : Builder :=
  { b with items := s.before.push (s.tree b.items.toList), scopes := outer }

/-- Folds scopes until `stays` holds of the innermost one. A block that is folded so was not
closed: `complaint` says where it went wrong. -/
def foldUntil (stays : OpenScope → Bool) (complaint : OpenScope → Diagnostic) :
    List OpenScope → Builder → Builder
  | [], b => { b with scopes := [] }
  | s :: outer, b =>
    if stays s then { b with scopes := s :: outer }
    else foldUntil stays complaint outer
      ((if s.isBlock then b.report (complaint s) else b).fold s outer)

def unwind (stays : OpenScope → Bool) (complaint : OpenScope → Diagnostic) (b : Builder) :
    Builder := foldUntil stays complaint b.scopes b

def openBlock (b : Builder) (d : Delimiter) (start : Position) (indent : Int) : Builder :=
  if nestingLimit ≤ b.scopes.length then b.stop (.error start .nestingTooDeep)
  else { b with items := #[], scopes := ⟨start, indent, .block d, b.items⟩ :: b.scopes }.enter
    d.openingMode?

def unclosedAt (start : Position) (found : String) (indent : Int) (s : OpenScope) : Diagnostic :=
  (Diagnostic.error s.pos .unclosedBracket).withNote start
    (.expectedCloser s.closing s.indent found indent)

def close (b : Builder) (d : Delimiter) (start : Position) (indent : Int) : Builder :=
  let b := b.unwind (fun s => s.closedBy d indent || s.holds indent d.tier)
    (unclosedAt start d.closing indent)
  match b.scopes with
  | s :: outer =>
    if s.closedBy d indent then (b.fold s outer).enter d.closingMode?
    else b.report (.error start .extraCloser)
  | [] => b.report (.error start .extraCloser)

/-- Makes a block of the items, blanks before them apart. -/
def wrapItems (b : Builder) (w : Wrapper) (start : Position) : Builder :=
  let wrapped := Tree.trimStart b.items.toList
  let pos := (wrapped.head?.map Tree.pos).getD start
  let blanks := b.items.toList.takeWhile Tree.isBlank
  { b with items := blanks.toArray.push (.group pos (.block w.blockTag "" w.spelling) wrapped) }

def wrap (b : Builder) (w : Wrapper) (start : Position) (indent : Int) : Builder :=
  (b.unwind (·.holds indent w.tier) (unclosedAt start w.spelling indent)).wrapItems w start

def startChain (b : Builder) (j : Joiner) (start next : Position) : Builder :=
  let chain : OpenChain := ⟨j.tag, j.tier, #[], start, start⟩
  let chain := chain.extend b.items.toList j start next
  { b with items := #[], scopes := ⟨start, b.indent, .chain chain, #[]⟩ :: b.scopes }

def extendChain (b : Builder) (s : OpenScope) (c : OpenChain) (outer : List OpenScope)
    (j : Joiner) (start next : Position) : Builder :=
  let b := if c.tag = j.tag then b
    else b.report ((Diagnostic.error start .mixedOperators).withNote c.firstOperator
      .previousOperator)
  let chain := c.extend b.items.toList j start next
  { b with items := #[], scopes := { s with kind := .chain chain } :: outer }

def join (b : Builder) (j : Joiner) (start next : Position) : Builder :=
  let b := b.unwind (·.tier ≤ j.tier)
    (fun s => (Diagnostic.error s.pos .neverClosed).withNote start .closedHere)
  match b.scopes with
  | [] => b.startChain j start next
  | s :: outer =>
    if s.tier < j.tier then b.startChain j start next
    else
      match s.kind with
      | .chain c => b.extendChain s c outer j start next
      | .block _ => b.stop (.unreachable start .sharedTier)

/-- A line break is soft where no line is complete: at the start of a scope, before a closing
bracket and at the end of the text. -/
def isSoft (b : Builder) (next? : Option Char) : Bool :=
  b.items.toList.all Tree.isBlank ||
    match next? with
    | none => true
    | some c =>
      match Punctuator.ofSpelling? (String.singleton c) with
      | some (.closer _) => true
      | _ => false

def place (b : Builder) (l : Lexeme) (start : Position) (after : Cursor) : Builder :=
  match l with
  | .leaf content => b.add (.leaf start content)
  | .badEscape found => (b.report (.error start (.badEscape found))).add (.leaf start .error)
  | .badToken spelling => (b.report (.error start (.badToken spelling))).add (.leaf start .error)
  | .lineBreak =>
    if b.isSoft after.peek? then b.add (.leaf start (.whitespace true))
    else b.join .lineBreak start after.position
  | .mark (.opener d) => b.openBlock d start after.indent
  | .mark (.closer d) => b.close d start after.indent
  | .mark (.wrapper w) => b.wrap w start after.indent
  | .mark (.joiner j) => b.join j start after.position

/-- A run of blanks with a line feed is an operator between operands, or else a leaf that says so; one
without is a leaf that says that there is none. -/
theorem place_ofBlanks (b : Builder) (chars : List Char) (start : Position) (after : Cursor) :
    b.place (.ofBlanks chars) start after =
      if '\n' ∈ chars ∧ b.isSoft after.peek? = false then b.join .lineBreak start after.position
      else b.add (.leaf start (.whitespace (chars.contains '\n'))) := by
  by_cases ends : '\n' ∈ chars
  · rw [(Lexeme.ofBlanks_eq_lineBreak_iff chars).2 ends, List.contains_iff_mem.2 ends, place]
    cases b.isSoft after.peek? <;> simp [ends]
  · rw [Lexeme.ofBlanks_of_not_mem ends, if_neg fun both => ends both.1, place,
      Bool.eq_false_iff.2 (mt List.contains_iff_mem.1 ends)]

def finish (b : Builder) (stop : Position) : Builder :=
  b.unwind (fun _ => false)
    (fun s => (Diagnostic.error s.pos .unclosedBracket).withNote stop .endOfInput)

end Builder

end NamespaceLang

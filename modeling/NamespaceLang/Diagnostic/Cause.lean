import NamespaceLang.InstrRef
import NamespaceLang.Shape
import NamespaceLang.Text.Quoted

/-!
# Causes

All that a text can be told about itself, and the wording of each.
-/

set_option autoImplicit false

namespace NamespaceLang

/-- At most so many scopes are open at once. -/
def nestingLimit : Nat := 1024

inductive Cause where
  -- Tokens and brackets.
  | badToken (spelling : String)
  | badEscape (found : Option Char)
  | nestingTooDeep
  | unclosedBracket
  | expectedCloser (expected : String) (indent : Int) (found : String) (foundIndent : Int)
  | endOfInput
  | extraCloser
  | mixedOperators
  | previousOperator
  | neverClosed
  | closedHere
  | sharedTier
  -- Lines, chains and patterns.
  | trailingAfterLines
  | strayInChain (kind : String)
  | notTwoSided
  | emptyPattern
  | trailingInPattern
  | mapPattern
  | notPattern (kind : String)
  | duplicateName (name : String)
  | previousName
  -- Blocks of instructions.
  | foreignOperand (operand : InstrRef)
  | lateOperand (operand user : InstrRef)
  | emptyOperand (operand : InstrRef)
  | appendTarget
  | appendKey
  | appendValue
  | appendToLocked
  | alreadyDeclared (key : FieldKey)
  | previousField
  | notEvaluable (instruction : String)
  | noResult (ref : InstrRef)
  | notAggregate (ref : InstrRef) (found : String)
  | outsideBlock (ref : InstrRef)
  | notMaterial (kind : String)
  -- Expressions and namespaces.
  | emptyExpression
  | unknownBuiltin (name : String)
  | noBuiltinField (name : String)
  | nameNotKey (name shape : String)
  | unknownName (name : String)
  | scopeGone
  | destructuredDefinition (name : String)
  | dependencyCycle (labels : List String)
  | fieldVanished (key : FieldKey)
  | openNamespace (field : String)
  | noField (field : String)
  | declaredHere
  | unnarrowedKey
  | notKey (shape : String)
  | arrowFunction
  | erroneousBinding
  | notExpression (kind : String)
  | strayBare (spelling : String)
  | strayAfterExpression (kind : String)
  | accessOnAnyNamespace
  | accessOn (field shape : String)
  | notCallable (kind : String)
  | noEntryPoint
  | said (message : String)
  deriving DecidableEq, Repr, Inhabited

namespace Cause

def message : Cause → String
  | .badToken spelling => "bad token " ++ Text.quoted spelling
  | .badEscape (some c) => "bad escape \\" ++ Text.quotedChar c
  | .badEscape none => "bad escape \\end of input"
  | .nestingTooDeep => "nesting too deep: more than " ++ toString nestingLimit ++ " open scopes"
  | .unclosedBracket => "open bracket missing close bracket"
  | .expectedCloser expected indent found foundIndent =>
    "expected " ++ Text.quoted expected ++ " indent '" ++ toString indent ++ "', got "
      ++ Text.quoted found ++ " indent '" ++ toString foundIndent ++ "'"
  | .endOfInput => "reached end of input"
  | .extraCloser => "extra close bracket"
  | .mixedOperators => "mixing operators disallowed"
  | .previousOperator => "previous operator here"
  | .neverClosed => "item is never closed."
  | .closedHere => "automatically closed here."
  | .sharedTier => "operator shares a tier with a bracket scope"
  | .trailingAfterLines => "Found extra trailing items after separated lines"
  | .strayInChain kind => "unexpected " ++ kind ++ " in operator chain"
  | .notTwoSided => "Expected LHS op RHS, found not that"
  | .emptyPattern => "Expected ident for bind"
  | .trailingInPattern => "Unexpected trailing item in bind lhs"
  | .mapPattern => "TODO: map pattern destructuring is not supported"
  | .notPattern kind => "Expected ident for bind lhs, found " ++ kind
  | .duplicateName name => "Duplicate binding name " ++ name
  | .previousName => "Previous definition here"
  | .foreignOperand operand => "operand " ++ operand.shown ++ " belongs to another block"
  | .lateOperand operand user => "operand " ++ operand.shown ++ " is not before " ++ user.shown
  | .emptyOperand operand => "operand " ++ operand.shown ++ " has no result"
  | .appendTarget => "ns-append target is not a namespace aggregate"
  | .appendKey => "ns-append key is not a key"
  | .appendValue => "ns-append value is not a captured ast"
  | .appendToLocked => "attempted to append to a locked namespace"
  | .alreadyDeclared key => key.shown ++ " is already declared"
  | .previousField => "previous definition here"
  | .notEvaluable instruction => "not implemented: evaluating " ++ instruction ++ " instructions"
  | .noResult ref => "no result for " ++ ref.shown ++ " in this block"
  | .notAggregate ref found =>
    "expected a namespace aggregate at " ++ ref.shown ++ ", found " ++ found
  | .outsideBlock ref => ref.shown ++ " used outside its block"
  | .notMaterial kind => "cannot materialize a " ++ kind ++ " value as an instruction"
  | .emptyExpression => "failed to analyze empty expression"
  | .unknownBuiltin name => "unexpected builtin: #" ++ name
  | .noBuiltinField name => "builtin does not have field: " ++ name
  | .nameNotKey name shape =>
    "cannot resolve ." ++ name ++ " as " ++ shape ++ "; field names are only valid as keys"
  | .unknownName name => "unknown name " ++ name
  | .scopeGone => "scope outlived its namespace"
  | .destructuredDefinition name => "not implemented: destructured definition " ++ name
  | .dependencyCycle labels => "dependency cycle: " ++ String.intercalate " -> " labels
  | .fieldVanished key => "field " ++ key.shown ++ " vanished from a locked namespace"
  | .openNamespace field => "cannot read ." ++ field ++ " while its namespace is being declared"
  | .noField field => "string field '" ++ field ++ "' is not defined on namespace"
  | .declaredHere => "namespace declared here"
  | .unnarrowedKey => "Expected narrowed key, got un-narrowed key"
  | .notKey shape => "Expected narrowed key, got " ++ shape
  | .arrowFunction => "not implemented: arrow functions"
  | .erroneousBinding => "cannot use erroneous binding"
  | .notExpression kind => "cannot analyze " ++ kind ++ " here"
  | .strayBare spelling => "unexpected raw: " ++ Text.quoted spelling
  | .strayAfterExpression kind => "unexpected " ++ kind ++ " after expression"
  | .accessOnAnyNamespace => "cannot access on non-narrowed namespace"
  | .accessOn field shape => "cannot access ." ++ field ++ " on " ++ shape
  | .notCallable kind => "not supported call type: " ++ kind
  | .noEntryPoint => "expected main fn"
  | .said message => message

end Cause

end NamespaceLang

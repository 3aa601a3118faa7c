import NamespaceLang.Analysis.Lookup

/-!
# Expressions and namespaces

An expression is a base with accesses and calls after it. Where source is asked
for, it is kept as it stands and nothing is read. A literal declares a
namespace: the definitions of its body are noted, each binding declares a field
whose source is kept, and any other line is an expression of its own. A line
that fails does not stop the others.
-/

set_option autoImplicit false

namespace NamespaceLang

def capture (scope : Scope) (pos : Position) (nodes : List Tree) : Run Analysis :=
  Run.deferred (.captureAst ⟨nodes, pos, scope⟩) pos .ast

def analyzeLeafWith (force : Forcing) (scope : Scope) (slot : Shape) (pos : Position)
    (leaf : Leaf) : Run Analysis :=
  match leaf with
  | .identifier .builtin name =>
    if name = Builtin.namespaceName then do
      let _ ← Run.push .comptimeOnly pos
      return .ofNamespace .builtin
    else Run.fail (.error pos (.unknownBuiltin name))
  | .identifier .access name =>
    if slot.isKey then Run.deferred (.makeKey (.string name)) pos (.stringKey name)
    else Run.fail (.error pos (.nameNotKey name slot.shown))
  | .identifier .plain name => resolveWith force pos name slot scope
  | .error => Run.fail (.error pos .erroneousBinding)
  | other => Run.fail (.error pos (.notExpression other.kind))

mutual

/-- Works out the expression that the nodes at `pos` are, under what is asked for in its place. -/
def analyzeWith (force : Forcing) (scope : Scope) (slot : Shape) (pos : Position)
    (nodes : List Tree) : Run Analysis :=
  match slot with
  | .ast => capture scope pos nodes
  | slot =>
    match _h : nodes.filter (!·.isBlank) with
    | [] => Run.fail (.error pos .emptyExpression)
    | .leaf start (.identifier .plain "ns") :: .group bodyPos (.block .list _ _) body :: rest => do
      let id ← declareWith force scope bodyPos body
      let _ ← Run.push .comptimeOnly start
      analyzeSuffixesWith force scope (.ofNamespace (.declared id)) rest
    | first :: rest => do
      let base ← analyzeBaseWith force scope (if rest.isEmpty then slot else .unknown) first
      analyzeSuffixesWith force scope base rest
termination_by 3 * Tree.weightAll nodes + 1
decreasing_by
  all_goals
    have whole := Tree.weightAll_filter (!·.isBlank) nodes
    rw [_h] at whole
    simp only [Tree.weightAll, Tree.weight] at whole
    omega

def analyzeBaseWith (force : Forcing) (scope : Scope) (slot : Shape) (node : Tree) :
    Run Analysis :=
  match node with
  | .leaf pos leaf => analyzeLeafWith force scope slot pos leaf
  | .group pos (.block .code _ _) items => analyzeWith force scope slot pos items
  | .group pos (.block .arrowFunction _ _) items => do
    let _ ← Run.ofExcept (Pattern.read pos items)
    Run.fail (.error pos .arrowFunction)
  | .group pos form _ => Run.fail (.error pos (.notExpression form.kind))
termination_by 3 * node.weight
decreasing_by simp only [Tree.weight]; omega

def analyzeSuffixesWith (force : Forcing) (scope : Scope) (left : Analysis) (nodes : List Tree) :
    Run Analysis :=
  match nodes with
  | [] => return left
  | node :: rest => do
    let next ← match node with
      | .leaf _ (.bare .access _) => pure left
      | .leaf pos (.bare _ spelling) => Run.fail (.error pos (.strayBare spelling))
      | .leaf pos (.identifier .plain name) | .leaf pos (.identifier .access name) =>
        accessWith force left pos name
      | .group pos (.block .code _ _) items =>
        call pos left fun slot =>
          match slot, Tree.trim items with
          | .void, [] => Run.deferred .void pos .void
          | slot, _ => analyzeWith force scope slot pos items
      | other => Run.fail (.error other.pos (.strayAfterExpression other.kind))
    analyzeSuffixesWith force scope next rest
termination_by 3 * Tree.weightAll nodes
decreasing_by
  · have := node.weight_pos
    simp only [Tree.weightAll]
    omega
  · simp only [Tree.weightAll, Tree.weight]
    omega

def declareWith (force : Forcing) (outer : Scope) (pos : Position) (nodes : List Tree) :
    Run NamespaceId :=
  match _h : Body.read pos nodes with
  | .error d => Run.fail d
  | .ok (body, found) => do
    Run.record found
    let id ← Run.begin pos outer body.definitions
    let registry ← Run.holding [id] <| Run.inNewBlock do
      let list ← Run.push .nsInit pos
      declareLinesWith force (id :: outer) list body.lines
      let results ← Run.evaluate
      Run.ofExcept (results.aggregate pos list)
    Run.modifyStore (·.finish id registry)
    return id
termination_by 3 * Tree.weightAll nodes + 4
decreasing_by
  have := Body.read_weight pos nodes body found _h
  omega

def declareLinesWith (force : Forcing) (scope : Scope) (list : InstrRef) (lines : List Line) :
    Run Unit :=
  match lines with
  | [] => return
  | line :: rest => do
    Run.attempt (declareLineWith force scope list line)
    declareLinesWith force scope list rest
termination_by lineWeight lines
decreasing_by all_goals simp only [lineWeight]; omega

/-- Reads one line: the declaration of a field in `list`, or an expression. -/
def declareLineWith (force : Forcing) (scope : Scope) (list : InstrRef) (line : Line) : Run Unit :=
  match _h : twoSided? ChainTag.bindsField line.pos line.items with
  | .error d => Run.fail d
  | .ok none => do
    let _ ← analyzeWith force scope .void line.pos line.items
  | .ok (some sides) => do
    let key ← analyzeWith force scope .key sides.left.pos sides.leftItems
    match key.shape with
    | .stringKey _ | .symbolKey .. =>
      let keyRef ← Run.materialize key.value sides.mark.pos
      let body ← capture scope sides.right.pos sides.rightItems
      let bodyRef ← Run.materialize body.value sides.mark.pos
      let _ ← Run.push (.nsAppend list keyRef bodyRef) sides.mark.pos
    | .key => Run.fail (.error sides.left.pos .unnarrowedKey)
    | other => Run.fail (.error sides.left.pos (.notKey other.shown))
termination_by 3 * Tree.weightAll line.items + 2
decreasing_by
  · omega
  · have := twoSided?_weight _ _ _ _ _h
    omega

end

/-- Looks into bindings, at most so many of them inside one another. -/
def forceWithin : Nat → Forcing
  | 0 => fun _ _ _ _ => Run.exhausted
  | depth + 1 => forceBy (analyzeWith (forceWithin depth))

end NamespaceLang

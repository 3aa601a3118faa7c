import NamespaceLang.Instr.Block

/-!
# Running a block

One pass over the instructions, each with one result. Only what builds a
namespace can be run; a call or a break stops the pass. A field declared twice
is told about and the pass goes on.
-/

set_option autoImplicit false

namespace NamespaceLang

structure Results where
  block : BlockId
  values : Array Value
  deriving Repr, Inhabited

namespace Results

def get? (r : Results) (ref : InstrRef) : Option Value :=
  if ref.block = r.block then r.values[ref.index]? else none

def resolve (r : Results) (pos : Position) : Operand → Except Diagnostic Value
  | .known value => .ok value
  | .deferred ref =>
    match r.get? ref with
    | some value => .ok value
    | none => .error (.unreachable pos (.noResult ref))

def aggregate (r : Results) (pos : Position) (ref : InstrRef) : Except Diagnostic Registry :=
  match r.get? ref with
  | some (.aggregate registry) => .ok registry
  | found => .error (.unreachable pos (.notAggregate ref ((found.map Value.kind).getD "nothing")))

def lock (r : Results) (ref : InstrRef) : Results :=
  match r.get? ref with
  | some (.aggregate registry) =>
    { r with values := r.values.setIfInBounds ref.index (.aggregate registry.lock) }
  | _ => r

/-- The result of an operand of the instruction that comes next, which stands at `pos`. -/
def operand (r : Results) (pos : Position) (ref : InstrRef) : Except Diagnostic Value :=
  let user : InstrRef := ⟨r.block, r.values.size⟩
  if ref.block ≠ user.block then .error (.unreachable pos (.foreignOperand ref))
  else if user.index ≤ ref.index then .error (.unreachable pos (.lateOperand ref user))
  else
    match r.values[ref.index]? with
    | some value => .ok value
    | none => .error (.unreachable pos (.emptyOperand ref))

def push (r : Results) (value : Value) : Results := { r with values := r.values.push value }

/-- Declares a field in the aggregate that is the result of `list`. -/
def append (r : Results) (pos : Position) (list key value : InstrRef) :
    Except Diagnostic (Results × List Diagnostic) := do
  let .aggregate registry ← r.operand pos list | throw (.unreachable pos .appendTarget)
  let .key key ← r.operand pos key | throw (.unreachable pos .appendKey)
  let .ast thunk ← r.operand pos value | throw (.unreachable pos .appendValue)
  if registry.locked then throw (.unreachable pos .appendToLocked)
  match registry.insert ⟨key, thunk, pos⟩ with
  | .ok registry =>
    return ({ r with values := r.values.setIfInBounds list.index (.aggregate registry) }, [])
  | .error taken =>
    return (r, [(Diagnostic.error pos (.alreadyDeclared key.field)).withNote taken.pos
      .previousField])

def step (r : Results) (instr : Instr) : Except Diagnostic (Results × List Diagnostic) :=
  match instr.op with
  | .void | .comptimeOnly => .ok (r.push .void, [])
  | .captureAst thunk => .ok (r.push (.ast thunk), [])
  | .makeKey key => .ok (r.push (.key key), [])
  | .nsInit => .ok (r.push (.aggregate .empty), [])
  | .nsAppend list key value =>
    (r.append instr.pos list key value).map fun (r, found) => (r.push .void, found)
  | .call .. | .leave _ => .error (.unreachable instr.pos (.notEvaluable instr.op.name))

def run (r : Results) : List Instr → List Diagnostic × Except Diagnostic Results
  | [] => ([], .ok r)
  | instr :: rest =>
    match r.step instr with
    | .error d => ([], .error d)
    | .ok (r, found) =>
      let (more, outcome) := r.run rest
      (found ++ more, outcome)

end Results

def Block.evaluate (b : Block) : List Diagnostic × Except Diagnostic Results :=
  Results.run ⟨b.id, #[]⟩ b.instrs.toList

end NamespaceLang

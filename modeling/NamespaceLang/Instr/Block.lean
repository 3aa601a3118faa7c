import NamespaceLang.Diagnostic.Basic
import NamespaceLang.Value

/-!
# Blocks of instructions

A block is a straight line of instructions that only grows. A reference says
which block it belongs to and denotes nothing in any other one.
-/

set_option autoImplicit false

namespace NamespaceLang

inductive Op where
  | void
  /-- Keeps a place in the block for what gives no result of its own. -/
  | comptimeOnly
  | captureAst (thunk : Thunk)
  | makeKey (key : Key)
  | nsInit
  | nsAppend (list key value : InstrRef)
  | call (method arg : InstrRef)
  | leave (value : InstrRef)
  deriving Repr, Inhabited

def Op.name : Op → String
  | .void => "void"
  | .comptimeOnly => "comptime-only"
  | .captureAst _ => "capture-ast"
  | .makeKey _ => "make-key"
  | .nsInit => "ns-init"
  | .nsAppend .. => "ns-append"
  | .call .. => "call"
  | .leave _ => "break"

structure Instr where
  op : Op
  pos : Position
  deriving Repr, Inhabited

structure Block where
  id : BlockId
  instrs : Array Instr
  deriving Repr, Inhabited

namespace Block

def new (id : BlockId) : Block := ⟨id, #[]⟩

def size (b : Block) : Nat := b.instrs.size

def next (b : Block) : InstrRef := ⟨b.id, b.size⟩

def push (b : Block) (op : Op) (pos : Position) : InstrRef × Block :=
  (b.next, { b with instrs := b.instrs.push ⟨op, pos⟩ })

def get? (b : Block) (ref : InstrRef) : Option Instr :=
  if ref.block = b.id then b.instrs[ref.index]? else none

def refs (b : Block) : List InstrRef := (List.range b.size).map (⟨b.id, ·⟩)

/-- An instruction of this block whose result is the operand. -/
def materialize (b : Block) (operand : Operand) (pos : Position) :
    Except Diagnostic (InstrRef × Block) :=
  match operand with
  | .deferred ref =>
    if ref.block = b.id then .ok (ref, b) else .error (.unreachable pos (.outsideBlock ref))
  | .known .void => .ok (b.push .void pos)
  | .known (.key key) => .ok (b.push (.makeKey key) pos)
  | .known (.ast thunk) => .ok (b.push (.captureAst thunk) pos)
  | .known value => .error (.unreachable pos (.notMaterial value.kind))

@[simp] theorem id_push (b : Block) (op : Op) (pos : Position) : (b.push op pos).2.id = b.id := rfl

@[simp] theorem size_push (b : Block) (op : Op) (pos : Position) :
    (b.push op pos).2.size = b.size + 1 := by
  simp [push, size]

theorem get?_push (b : Block) (op : Op) (pos : Position) (ref : InstrRef) :
    (b.push op pos).2.get? ref = if ref = b.next then some ⟨op, pos⟩ else b.get? ref := by
  obtain ⟨block, index⟩ := ref
  by_cases hb : block = b.id <;> by_cases hi : index = b.instrs.size <;>
    simp [push, get?, next, size, Array.getElem?_push, hb, hi]

theorem get?_next (b : Block) : b.get? b.next = none := by
  simp [get?, next, size]

end Block

end NamespaceLang

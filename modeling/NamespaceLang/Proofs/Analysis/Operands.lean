import NamespaceLang.Analysis.Lookup
import NamespaceLang.Proofs.Analysis.Works

/-!
# Operands that are what their shapes say

A value that is known to be a key is one, and so is the result of an operand
that waits for its block; that it has a result at all is because it names an
instruction of the block that is being filled. No expression is a function.
-/

set_option autoImplicit false

namespace NamespaceLang

/-- The instructions that an operand of the shape may name. -/
def Shape.admits (shape : Shape) (op : Op) : Bool := !shape.isKnownKey || op.makesKey

def Operand.Sound (b : Block) (shape : Shape) : Operand → Prop
  | .known value => shape.isKnownKey = true → value.isKey = true
  | .deferred ref => Names b.id b.instrs.toList ref shape.admits

structure Analysis.Sound (b : Block) (a : Analysis) : Prop where
  noFunction : a.shape.isFunction = false
  value : a.value.Sound b a.shape

theorem Forced.Sound.analysis {f : Forced} (h : f.Sound) (b : Block) : f.analysis.Sound b :=
  ⟨h.noFunction, h.key⟩

theorem Analysis.sound_ofNamespace (target : NamespaceRef) (b : Block) :
    (Analysis.ofNamespace target).Sound b :=
  ⟨rfl, fun h => by cases h⟩

namespace Works

variable {ctx : Context} {s : State}

theorem push (hs : s.Sound) (op : Op)
    (ho : op.SoundAfter s.store.size s.block.id s.block.instrs.toList) (pos : Position) :
    Works (fun ref after => ∀ kind : Op → Bool, kind op = true →
      Names after.block.id after.block.instrs.toList ref kind) (Run.push op pos) ctx s := by
  have named : ∀ ref, (Run.push op pos ctx s).1 = .done ref → ∀ kind : Op → Bool, kind op = true →
      Names s.block.id (s.block.push op pos).2.instrs.toList ref kind := by
    intro ref h kind hk
    cases h
    exact ⟨rfl, ⟨op, pos⟩, by simp [Block.push, Block.next, Block.size], hk⟩
  exact plain (fun _ => rfl) ⟨hs.store, hs.block.push ho pos⟩
    ⟨rfl, by simp [Run.push, Block.push], Nat.le_refl _⟩ rfl named (fun _ h => by cases h)

theorem deferred (hs : s.Sound) (op : Op) {shape : Shape}
    (ho : op.SoundAfter s.store.size s.block.id s.block.instrs.toList) (pos : Position)
    (hf : shape.isFunction = false) (hk : shape.admits op = true) :
    Works (fun a after => a.Sound after.block) (Run.deferred op pos shape) ctx s :=
  bind (push hs op ho pos) fun _ _ sound _ named => pure sound ⟨hf, named shape.admits hk⟩

theorem materialize (hs : s.Sound) {operand : Operand} {kind : Op → Bool} (pos : Position)
    (known : ∀ value, operand = .known value → ∃ key, value = .key key ∧ kind (.makeKey key) = true)
    (named : ∀ ref, operand = .deferred ref → Names s.block.id s.block.instrs.toList ref kind) :
    Works (fun ref after => Names after.block.id after.block.instrs.toList ref kind)
      (Run.materialize operand pos) ctx s := by
  cases operand with
  | known value =>
    obtain ⟨key, rfl, hk⟩ := known value rfl
    exact (push hs (.makeKey key) trivial pos).mono fun _ _ h => h kind hk
  | deferred ref =>
    have here := named ref rfl
    have same : ∀ ctx', Run.materialize (.deferred ref) pos ctx' s = (.done ref, s) := by
      intro ctx'
      simp [Run.materialize, Block.materialize, here.1]
    refine plain (fun ctx' => by rw [same, same]) ?_ ?_ ?_ ?_ ?_
    all_goals rw [same]
    · exact hs
    · exact .refl s
    · intro ref' h
      cases h
      exact here
    · exact fun _ h => by cases h

theorem evaluate (hs : s.Sound) :
    Works (fun results after => after.block = s.block ∧ after.store.size = s.store.size ∧
      results.Fits s.store.size s.block.id s.block.instrs.toList) Run.evaluate ctx s := by
  obtain ⟨results, found, he, fits, usual⟩ := Block.evaluate_fits hs.block
  have whole : Works (fun results after => after.block = s.block ∧ after.store.size = s.store.size ∧
      results.Fits s.store.size s.block.id s.block.instrs.toList)
      (Run.record found >>= fun _ => Run.ofExcept (.ok results)) ctx s := by
    refine bind (record hs usual) fun _ _ sound _ kept => ?_
    exact pure sound ⟨kept.1, kept.2, fits⟩
  have same : ∀ ctx', Run.evaluate ctx' s =
      (Run.record found >>= fun _ => Run.ofExcept (.ok results)) ctx' s := by
    intro ctx'
    unfold Run.evaluate
    rw [he]
  exact whole.congr fun ids => same _

end Works

end NamespaceLang

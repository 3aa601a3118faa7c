import NamespaceLang.Proofs.Analysis.Keeps

/-!
# States that work comes to

Work begins in a store in which nothing was begun. A state comes up when a call is
made in one that has come up before: it is the one that the call ends in, however
it ends, or one in which a call that comes from it begins. In between, anything
may be told, and work may be taken up in another block.
-/

set_option autoImplicit false

namespace NamespaceLang

/-- The states that come up where calls that `may` be made are made, in any number and order. -/
inductive Visited (may : Moment → Prop) : State → Prop
  | start (ds : List Diagnostic) (b : Block) : Visited may ⟨.ofDiagnostics ds, b⟩
  | ended (m : Moment) (h : Visited may m.state) (allowed : may m) : Visited may m.run.2
  | entered {m next : Moment} (h : Visited may m.state) (allowed : may m) (reaches : m.Reaches next) :
    Visited may next.state
  | told {s : State} (h : Visited may s) (ds : List Diagnostic) :
    Visited may { s with store := s.store.record ds }
  | elsewhere {s : State} (h : Visited may s) (b : Block) : Visited may { s with block := b }
  | newBlock {s : State} (h : Visited may s) : Visited may s.inNewBlock

theorem Visited.invariant {may : Moment → Prop} {P : Store → Prop}
    (start : ∀ ds, P (.ofDiagnostics ds)) (ended : ∀ m, may m → P m.state.store → P m.run.2.store)
    (entered : ∀ m next, may m → P m.state.store → m.Reaches next → P next.state.store)
    (told : ∀ s ds, P s → P (s.record ds)) (newBlock : ∀ s, P s → P s.newBlock.2) {s : State}
    (h : Visited may s) : P s.store := by
  induction h with
  | start ds b => exact start ds
  | ended m _ allowed ih => exact ended m allowed ih
  | entered _ allowed reaches ih => exact entered _ _ allowed ih reaches
  | told _ ds ih => exact told _ ds ih
  | elsewhere _ b ih => exact ih
  | newBlock _ ih => exact newBlock _ ih

end NamespaceLang

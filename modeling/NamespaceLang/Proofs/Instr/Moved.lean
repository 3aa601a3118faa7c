import NamespaceLang.Instr.Evaluate

/-!
# Blocks under other numbers

Which number a block has makes no difference to what is in it. A block under a
number that is greater by `k`, its own references moved along, gives the same
results, or fails as well; what it tells on the way may show the numbers.
-/

set_option autoImplicit false

namespace NamespaceLang

section

variable (k : Nat)

def InstrRef.moved (r : InstrRef) : InstrRef := ⟨r.block + k, r.index⟩

def Op.moved : Op → Op
  | .nsAppend list key value => .nsAppend (list.moved k) (key.moved k) (value.moved k)
  | .call method arg => .call (method.moved k) (arg.moved k)
  | .leave value => .leave (value.moved k)
  | op => op

def Instr.moved (i : Instr) : Instr := ⟨i.op.moved k, i.pos⟩

def Block.moved (b : Block) : Block := ⟨b.id + k, b.instrs.map (·.moved k)⟩

def Results.moved (r : Results) : Results := ⟨r.block + k, r.values⟩

def Operand.moved : Operand → Operand
  | .known value => .known value
  | .deferred ref => .deferred (ref.moved k)

def Analysis.moved (a : Analysis) : Analysis := ⟨a.value.moved k, a.shape⟩

end

@[simp] theorem Analysis.namespaces_moved (k : Nat) (a : Analysis) :
    (a.moved k).namespaces = a.namespaces := by
  obtain ⟨operand, shape⟩ := a
  cases operand <;> rfl

/-- Both end well, the second in what the first gives under `f`, or both fail. -/
def EndAlike {α β : Type} (f : α → β) : Except Diagnostic α → Except Diagnostic β → Prop
  | .ok a, .ok b => b = f a
  | .error _, .error _ => True
  | _, _ => False

namespace EndAlike

variable {α β γ δ : Type} {f : α → β} {g : γ → δ} {x : Except Diagnostic α}
  {y : Except Diagnostic β}

theorem cases (h : EndAlike f x y) :
    (∃ a, x = .ok a ∧ y = .ok (f a)) ∨ ((∃ d, x = .error d) ∧ ∃ d, y = .error d) := by
  cases x with
  | ok a =>
    cases y with
    | ok b => exact Or.inl ⟨a, rfl, congrArg _ h⟩
    | error d => cases h
  | error d =>
    cases y with
    | ok b => cases h
    | error d' => exact Or.inr ⟨⟨d, rfl⟩, d', rfl⟩

theorem refl (x : Except Diagnostic α) : EndAlike id x x := by
  cases x with
  | ok a => exact (rfl : a = id a)
  | error d => trivial

theorem bind (h : EndAlike f x y) {next : α → Except Diagnostic γ} {next' : β → Except Diagnostic δ}
    (hn : ∀ a, EndAlike g (next a) (next' (f a))) : EndAlike g (x >>= next) (y >>= next') := by
  rcases h.cases with ⟨a, rfl, rfl⟩ | ⟨⟨d, rfl⟩, d', rfl⟩
  · exact hn a
  · trivial

end EndAlike

variable (k : Nat)

theorem InstrRef.moved_block_eq_iff (r : InstrRef) (id : BlockId) :
    (r.moved k).block = id + k ↔ r.block = id := Nat.add_right_cancel_iff

namespace Block

theorem next_moved (b : Block) : (b.moved k).next = b.next.moved k := by
  simp [moved, next, size, InstrRef.moved]

theorem push_moved (b : Block) (op : Op) (pos : Position) :
    (b.moved k).push (op.moved k) pos = ((b.push op pos).1.moved k, (b.push op pos).2.moved k) := by
  rw [push, next_moved, push]
  simp [moved, Instr.moved]

theorem materialize_moved (b : Block) (operand : Operand) (pos : Position) :
    EndAlike (fun p => (p.1.moved k, p.2.moved k)) (b.materialize operand pos)
      ((b.moved k).materialize (operand.moved k) pos) := by
  cases operand with
  | deferred ref =>
    have same := InstrRef.moved_block_eq_iff k ref b.id
    unfold materialize
    dsimp only [Operand.moved]
    by_cases own : ref.block = b.id
    · rw [if_pos own, if_pos (show (ref.moved k).block = (b.moved k).id from same.2 own)]
      rfl
    · rw [if_neg own, if_neg (show ¬ (ref.moved k).block = (b.moved k).id from mt same.1 own)]
      trivial
  | known value =>
    cases value with
    | void => exact push_moved k b .void pos
    | key key => exact push_moved k b (.makeKey key) pos
    | ast thunk => exact push_moved k b (.captureAst thunk) pos
    | _ => trivial

end Block

namespace Results

theorem get?_moved (r : Results) (ref : InstrRef) : (r.moved k).get? (ref.moved k) = r.get? ref := by
  simp [get?, moved, InstrRef.moved]

theorem resolve_moved (r : Results) (pos : Position) (operand : Operand) :
    EndAlike id (r.resolve pos operand) ((r.moved k).resolve pos (operand.moved k)) := by
  cases operand with
  | known value => rfl
  | deferred ref =>
    unfold resolve
    dsimp only [Operand.moved]
    rw [get?_moved]
    cases r.get? ref with
    | some value => rfl
    | none => trivial

theorem aggregate_moved (r : Results) (pos : Position) (ref : InstrRef) :
    EndAlike id (r.aggregate pos ref) ((r.moved k).aggregate pos (ref.moved k)) := by
  unfold aggregate
  rw [get?_moved]
  cases r.get? ref with
  | none => trivial
  | some value =>
    cases value with
    | aggregate registry => rfl
    | _ => trivial

theorem operand_moved (r : Results) (pos : Position) (ref : InstrRef) :
    EndAlike id (r.operand pos ref) ((r.moved k).operand pos (ref.moved k)) := by
  have same := InstrRef.moved_block_eq_iff k ref r.block
  unfold operand
  dsimp only
  by_cases own : ref.block = r.block
  · rw [if_neg fun other => other own,
      if_neg fun other : (ref.moved k).block ≠ (r.moved k).block => other (same.2 own)]
    show EndAlike id _ (if r.values.size ≤ ref.index then _ else _)
    by_cases late : r.values.size ≤ ref.index
    · rw [if_pos late, if_pos late]
      trivial
    · rw [if_neg late, if_neg late]
      rw [show (r.moved k).values[(ref.moved k).index]? = r.values[ref.index]? from rfl]
      cases r.values[ref.index]? with
      | some value => rfl
      | none => trivial
  · rw [if_pos own, if_pos (show (ref.moved k).block ≠ (r.moved k).block from mt same.1 own)]
    trivial

theorem append_moved (r : Results) (pos : Position) (list key value : InstrRef) :
    EndAlike (fun p => (p.1.moved k, p.2)) (r.append pos list key value)
      ((r.moved k).append pos (list.moved k) (key.moved k) (value.moved k)) := by
  refine (operand_moved k r pos list).bind fun target => ?_
  cases target with
  | aggregate registry =>
    refine (operand_moved k r pos key).bind fun own => ?_
    cases own with
    | key own =>
      refine (operand_moved k r pos value).bind fun source => ?_
      cases source with
      | ast thunk =>
        show EndAlike _ (if registry.locked then _ else _) (if registry.locked then _ else _)
        by_cases locked : registry.locked = true
        · rw [if_pos locked, if_pos locked]
          trivial
        · rw [if_neg locked, if_neg locked]
          dsimp only [pure_bind]
          cases registry.insert ⟨own, thunk, pos⟩ with
          | ok more => rfl
          | error taken => rfl
      | _ => trivial
    | _ => trivial
  | _ => trivial

theorem step_moved (r : Results) (instr : Instr) :
    EndAlike (fun p => (p.1.moved k, p.2)) (r.step instr) ((r.moved k).step (instr.moved k)) := by
  obtain ⟨op, pos⟩ := instr
  cases op with
  | nsAppend list key value =>
    show EndAlike _ ((r.append pos list key value).map _)
      (((r.moved k).append pos (list.moved k) (key.moved k) (value.moved k)).map _)
    rcases (append_moved k r pos list key value).cases with ⟨a, h, h'⟩ | ⟨⟨d, h⟩, d', h'⟩
    · rw [h, h']
      rfl
    · rw [h, h']
      trivial
  | call | leave => trivial
  | _ => rfl

theorem run_moved (r : Results) (instrs : List Instr) :
    EndAlike (·.moved k) (r.run instrs).2 ((r.moved k).run (instrs.map (·.moved k))).2 := by
  induction instrs generalizing r with
  | nil => rfl
  | cons instr rest ih =>
    rw [List.map_cons]
    unfold run
    rcases (step_moved k r instr).cases with ⟨a, h, h'⟩ | ⟨⟨d, h⟩, d', h'⟩
    · rw [h, h']
      exact ih a.1
    · rw [h, h']
      trivial

end Results

theorem Block.evaluate_moved (b : Block) :
    EndAlike (·.moved k) b.evaluate.2 (b.moved k).evaluate.2 := by
  have same := Results.run_moved k ⟨b.id, #[]⟩ b.instrs.toList
  unfold evaluate
  rw [Block.moved, Array.toList_map]
  exact same

end NamespaceLang

import NamespaceLang.Instr.Evaluate

/-!
# Blocks without sources

Running a block looks into no source that it keeps. Without them the block gives the
same results, and the same fields of namespaces, without their sources; it fails in
the same way, and the same is told on the way.
-/

set_option autoImplicit false

namespace NamespaceLang

/-- The thunk without its source. -/
def Thunk.bare (t : Thunk) : Thunk := { t with nodes := [] }

def FieldEntry.bare (entry : FieldEntry) : FieldEntry := { entry with thunk := entry.thunk.bare }

def Registry.bare (r : Registry) : Registry := { r with entries := r.entries.map (·.bare) }

def Value.bare : Value → Value
  | .ast thunk => .ast thunk.bare
  | .aggregate registry => .aggregate registry.bare
  | value => value

def Op.bare : Op → Op
  | .captureAst thunk => .captureAst thunk.bare
  | op => op

def Instr.bare (i : Instr) : Instr := ⟨i.op.bare, i.pos⟩

def Block.bare (b : Block) : Block := ⟨b.id, b.instrs.map (·.bare)⟩

def Results.bare (r : Results) : Results := ⟨r.block, r.values.map (·.bare)⟩

namespace Registry

theorem get?_bare (r : Registry) (key : FieldKey) : r.bare.get? key = (r.get? key).map (·.bare) :=
  List.find?_map

theorem insert_bare (r : Registry) (entry : FieldEntry) :
    r.bare.insert entry.bare =
      match r.insert entry with
      | .ok next => .ok next.bare
      | .error taken => .error taken.bare := by
  unfold insert
  rw [show entry.bare.key = entry.key from rfl, get?_bare]
  cases r.get? entry.key.field with
  | some taken => rfl
  | none => simp [bare]

end Registry

namespace Block

theorem bare_push (b : Block) (op : Op) (pos : Position) :
    (b.push op pos).2.bare = (b.bare.push op.bare pos).2 := by
  simp [bare, push, Instr.bare]

theorem bare_append {b c : Block} (h : c.bare = b.bare) (more : Array Instr) :
    (⟨c.id, c.instrs ++ more⟩ : Block).bare = (⟨b.id, b.instrs ++ more⟩ : Block).bare := by
  obtain ⟨id, instrs⟩ : c.id = b.id ∧ c.instrs.map (·.bare) = b.instrs.map (·.bare) := by
    simpa [bare] using h
  simp [bare, id, instrs]

end Block

namespace Results

variable (r : Results)

theorem get?_bare (ref : InstrRef) : r.bare.get? ref = (r.get? ref).map (·.bare) := by
  unfold get? bare
  split <;> simp

theorem operand_bare (pos : Position) (ref : InstrRef) :
    r.bare.operand pos ref = (r.operand pos ref).map (·.bare) := by
  unfold operand
  rw [show r.bare.block = r.block from rfl, show r.bare.values.size = r.values.size by simp [bare],
    show r.bare.values[ref.index]? = r.values[ref.index]?.map (·.bare) by simp [bare]]
  dsimp only
  split
  · rfl
  · split
    · rfl
    · cases r.values[ref.index]? <;> rfl

theorem push_bare (value : Value) : (r.push value).bare = r.bare.push value.bare := by
  simp [push, bare]

theorem append_bare (pos : Position) (list key value : InstrRef) :
    r.bare.append pos list key value = (r.append pos list key value).map (Prod.map (·.bare) id) := by
  unfold append
  simp only [bind, Except.bind, throw, throwThe, MonadExceptOf.throw, operand_bare]
  rcases r.operand pos list with d | target
  · rfl
  · cases target with
    | aggregate registry =>
      rcases r.operand pos key with d | named
      · rfl
      · cases named with
        | key known =>
          rcases r.operand pos value with d | kept
          · rfl
          · cases kept with
            | ast thunk =>
              simp only [Except.map, Value.bare]
              rw [show registry.bare.locked = registry.locked from rfl,
                show (⟨known, thunk.bare, pos⟩ : FieldEntry) = FieldEntry.bare ⟨known, thunk, pos⟩
                  from rfl, Registry.insert_bare]
              split
              · rfl
              · cases registry.insert ⟨known, thunk, pos⟩ with
                | error taken => rfl
                | ok next => simp [pure, Except.pure, bare, Value.bare]
            | _ => rfl
        | _ => rfl
    | _ => rfl

theorem step_bare (instr : Instr) :
    r.bare.step instr.bare = (r.step instr).map (Prod.map (·.bare) id) := by
  obtain ⟨op, pos⟩ := instr
  cases op with
  | nsAppend list key value =>
    show (r.bare.append pos list key value).map _ = ((r.append pos list key value).map _).map _
    rw [append_bare]
    cases r.append pos list key value with
    | error d => rfl
    | ok next => exact congrArg (fun after => Except.ok (after, next.2)) (next.1.push_bare .void).symm
  | call | leave => rfl
  | captureAst thunk =>
    exact congrArg (fun after => Except.ok (after, [])) (r.push_bare (.ast thunk)).symm
  | makeKey key => exact congrArg (fun after => Except.ok (after, [])) (r.push_bare (.key key)).symm
  | nsInit =>
    exact congrArg (fun after => Except.ok (after, [])) (r.push_bare (.aggregate .empty)).symm
  | void | comptimeOnly =>
    exact congrArg (fun after => Except.ok (after, [])) (r.push_bare .void).symm

/-- Without their sources instructions give their results without sources, and tell the same. -/
theorem run_bare (instrs : List Instr) :
    r.bare.run (instrs.map (·.bare)) = ((r.run instrs).1, (r.run instrs).2.map (·.bare)) := by
  induction instrs generalizing r with
  | nil => rfl
  | cons instr rest ih =>
    rw [List.map_cons, run, run, step_bare]
    cases r.step instr with
    | error d => rfl
    | ok next =>
      obtain ⟨after, found⟩ := next
      dsimp only [Except.map, Prod.map]
      rw [ih after]
      rfl

theorem aggregate_bare (pos : Position) (ref : InstrRef) :
    r.bare.aggregate pos ref = (r.aggregate pos ref).map (·.bare) := by
  unfold aggregate
  rw [get?_bare]
  rcases r.get? ref with _ | value
  · rfl
  · cases value <;> rfl

end Results

theorem Except.map_eq_map {α β : Type} {f : α → β} {x y : Except Diagnostic α}
    (h : y.map f = x.map f) :
    (∃ a b, x = .ok a ∧ y = .ok b ∧ f b = f a) ∨ ∃ d, x = .error d ∧ y = .error d := by
  rcases x with d | a <;> rcases y with d' | b <;> simp [Except.map] at h
  · exact Or.inr ⟨d, rfl, by rw [h]⟩
  · exact Or.inl ⟨a, b, rfl, rfl, h⟩

theorem Block.evaluate_bare (b : Block) :
    b.bare.evaluate = (b.evaluate.1, b.evaluate.2.map (·.bare)) := by
  unfold evaluate
  rw [show b.bare.instrs.toList = b.instrs.toList.map (·.bare) from Array.toList_map]
  have ran := Results.run_bare ⟨b.id, #[]⟩ b.instrs.toList
  rwa [show (⟨b.id, #[]⟩ : Results).bare = ⟨b.bare.id, #[]⟩ by simp [Results.bare, bare]] at ran

end NamespaceLang

import NamespaceLang.Instr.Evaluate
import NamespaceLang.Proofs.Body.Located

/-!
# Instructions with located source

An instruction stands where a node stands, and the source that it keeps has places of its
own. Running a block invents none: what a result holds, and what is told on the way, has
the places of the block.
-/

set_option autoImplicit false

namespace NamespaceLang

variable {P : Position → Prop}

structure Thunk.Located (P : Position → Prop) (t : Thunk) : Prop where
  nodes : Tree.Located P t.nodes
  pos : P t.pos

structure FieldEntry.Located (P : Position → Prop) (entry : FieldEntry) : Prop where
  thunk : entry.thunk.Located P
  pos : P entry.pos

def Registry.Located (P : Position → Prop) (r : Registry) : Prop :=
  ∀ entry ∈ r.entries, entry.Located P

def Value.Located (P : Position → Prop) : Value → Prop
  | .ast thunk => thunk.Located P
  | .aggregate registry => registry.Located P
  | _ => True

def Operand.Located (P : Position → Prop) : Operand → Prop
  | .known value => value.Located P
  | .deferred _ => True

def Op.Located (P : Position → Prop) : Op → Prop
  | .captureAst thunk => thunk.Located P
  | _ => True

structure Instr.Located (P : Position → Prop) (instr : Instr) : Prop where
  op : instr.op.Located P
  pos : P instr.pos

def Block.Located (P : Position → Prop) (b : Block) : Prop :=
  ∀ instr ∈ b.instrs.toList, instr.Located P

def Results.Located (P : Position → Prop) (r : Results) : Prop :=
  ∀ value ∈ r.values.toList, value.Located P

theorem Registry.Located.get {r : Registry} (h : r.Located P) {key : FieldKey} {entry : FieldEntry}
    (he : r.get? key = some entry) : entry.Located P := h entry (List.mem_of_find?_eq_some he)

namespace Block

theorem new_located (id : BlockId) : (Block.new id).Located P := fun _ hi => by
  simp [Block.new] at hi

variable {b : Block} {pos : Position}

theorem Located.push (h : b.Located P) {op : Op} (ho : op.Located P) (hp : P pos) :
    (b.push op pos).2.Located P := by
  simp only [Block.Located, Block.push, Array.toList_push]
  exact List.forall_mem_append.2 ⟨h, by simpa using ⟨ho, hp⟩⟩

theorem Located.materialize (h : b.Located P) {operand : Operand} (ho : operand.Located P)
    (hp : P pos) : Tells P (fun made => made.2.Located P) (b.materialize operand pos) := by
  unfold Block.materialize
  split
  · split
    · exact h
    · exact Diagnostic.located_unreachable hp _
  · exact h.push (by trivial) hp
  · exact h.push (by trivial) hp
  · exact h.push ho hp
  · exact Diagnostic.located_unreachable hp _

end Block

namespace Results

variable {r : Results} {pos : Position}

theorem Located.get (h : r.Located P) {ref : InstrRef} {value : Value} (hv : r.get? ref = some value) :
    value.Located P := by
  unfold Results.get? at hv
  split at hv
  · rw [← Array.getElem?_toList] at hv
    exact h value (List.mem_of_getElem? hv)
  · cases hv

theorem Located.resolve (h : r.Located P) {operand : Operand} (ho : operand.Located P) (hp : P pos) :
    Tells P (Value.Located P) (r.resolve pos operand) := by
  cases operand with
  | known value => exact ho
  | deferred ref =>
    unfold Results.resolve
    dsimp only
    split
    · next value hv => exact h.get hv
    · exact Diagnostic.located_unreachable hp _

theorem Located.aggregate (h : r.Located P) (ref : InstrRef) (hp : P pos) :
    Tells P (Registry.Located P) (r.aggregate pos ref) := by
  unfold Results.aggregate
  split
  · next registry hv => exact h.get hv
  · exact Diagnostic.located_unreachable hp _

theorem Located.operand (h : r.Located P) (ref : InstrRef) (hp : P pos) :
    Tells P (Value.Located P) (r.operand pos ref) := by
  unfold Results.operand
  dsimp only
  split
  · exact Diagnostic.located_unreachable hp _
  · split
    · exact Diagnostic.located_unreachable hp _
    · split
      · next value hv =>
        rw [← Array.getElem?_toList] at hv
        exact h value (List.mem_of_getElem? hv)
      · exact Diagnostic.located_unreachable hp _

theorem Located.push (h : r.Located P) {value : Value} (hv : value.Located P) :
    (r.push value).Located P := by
  simp only [Results.Located, Results.push, Array.toList_push]
  exact List.forall_mem_append.2 ⟨h, by simpa using hv⟩

theorem Located.set (h : r.Located P) (i : Nat) {value : Value} (hv : value.Located P) :
    ({ r with values := r.values.setIfInBounds i value } : Results).Located P := by
  intro other ho
  rw [Array.toList_setIfInBounds] at ho
  rcases List.mem_or_eq_of_mem_set ho with ho | rfl
  · exact h other ho
  · exact hv

/-- What is read of a step: the results after it, and what was told on the way. -/
def LocatedAfter (P : Position → Prop) (after : Results × List Diagnostic) : Prop :=
  after.1.Located P ∧ ∀ d ∈ after.2, d.Located P

theorem Located.append (h : r.Located P) (list key value : InstrRef) (hp : P pos) :
    Tells P (LocatedAfter P) (r.append pos list key value) := by
  unfold Results.append
  refine (h.operand list hp).bind fun aggregate ha => ?_
  cases aggregate with
  | aggregate registry =>
    refine (h.operand key hp).bind fun given _ => ?_
    cases given with
    | key known =>
      refine (h.operand value hp).bind fun source hs => ?_
      cases source with
      | ast thunk =>
        dsimp only
        split
        · exact Diagnostic.located_unreachable hp _
        · cases hi : registry.insert ⟨known, thunk, pos⟩ with
          | ok more =>
            obtain ⟨-, rfl⟩ := (registry.insert_eq_ok_iff more ⟨known, thunk, pos⟩).1 hi
            have longer : Registry.Located P
                { registry with entries := registry.entries ++ [⟨known, thunk, pos⟩] } :=
              List.forall_mem_append.2 ⟨ha, by simpa using ⟨hs, hp⟩⟩
            exact ⟨h.set list.index longer, by simp⟩
          | error taken =>
            have taken_located := Registry.Located.get ha ((registry.insert_eq_error_iff _ _).1 hi)
            refine ⟨h, ?_⟩
            simpa using (Diagnostic.located_error hp _).withNote taken_located.pos _
      | _ => exact Diagnostic.located_unreachable hp _
    | _ => exact Diagnostic.located_unreachable hp _
  | _ => exact Diagnostic.located_unreachable hp _

theorem Located.step (h : r.Located P) {instr : Instr} (hi : instr.Located P) :
    Tells P (LocatedAfter P) (r.step instr) := by
  obtain ⟨op, pos⟩ := instr
  have quiet : ∀ value : Value, value.Located P → LocatedAfter P (r.push value, []) :=
    fun value hv => ⟨h.push hv, by simp⟩
  cases op with
  | void => exact quiet .void trivial
  | comptimeOnly => exact quiet .void trivial
  | captureAst thunk => exact quiet (.ast thunk) hi.op
  | makeKey key => exact quiet (.key key) trivial
  | nsInit => exact quiet (.aggregate .empty) fun _ he => by cases he
  | nsAppend list key value =>
    exact (h.append list key value hi.pos).map fun after ha => ⟨ha.1.push trivial, ha.2⟩
  | call method arg => exact Diagnostic.located_unreachable hi.pos _
  | leave value => exact Diagnostic.located_unreachable hi.pos _

theorem Located.run (instrs : List Instr) {r : Results} (h : r.Located P)
    (hi : ∀ instr ∈ instrs, instr.Located P) :
    (∀ d ∈ (r.run instrs).1, d.Located P) ∧ Tells P (Results.Located P) (r.run instrs).2 := by
  induction instrs generalizing r with
  | nil => exact ⟨by simp [Results.run], h⟩
  | cons instr rest ih =>
    obtain ⟨here, others⟩ := List.forall_mem_cons.1 hi
    have first := h.step here
    rw [Results.run]
    split
    · next d he => exact ⟨by simp, first.error he⟩
    · next after found he =>
      obtain ⟨located, told⟩ := first.ok he
      obtain ⟨more, outcome⟩ := ih located others
      exact ⟨List.forall_mem_append.2 ⟨told, more⟩, outcome⟩

end Results

theorem Block.Located.evaluate {b : Block} (h : b.Located P) :
    (∀ d ∈ b.evaluate.1, d.Located P) ∧ Tells P (Results.Located P) b.evaluate.2 :=
  Results.Located.run b.instrs.toList (r := ⟨b.id, #[]⟩) (fun _ hv => by simp at hv) h

end NamespaceLang

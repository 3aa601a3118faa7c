import NamespaceLang.Proofs.Analysis.Cycles
import NamespaceLang.Proofs.Analysis.Later
import NamespaceLang.Proofs.Store.Memory

/-!
# Finished namespaces

When the body of a namespace has been read to its end, the namespace has its
definitions and its fields, which are locked. Whatever goes on afterwards comes
to changes that are allowed, and none of these gives it other definitions, lets
it name another cell, or writes to the cell that it names.
-/

set_option autoImplicit false

namespace NamespaceLang

inductive Goes : State → State → Prop
  | passes {s later : State} (h : Passes s later) : Goes s later
  | turned (s : State) (told : List Diagnostic) (nextBlock : BlockId) :
    Goes s { s with store := s.store.change (.turnTo told nextBlock) }

/-- One state comes after another one, by way of any others, in whatever environments. -/
abbrev State.LaterAnywhere : State → State → Prop := Relation.ReflTransGen Goes

theorem Passes.develops {s later : State} (h : Passes s later) : s.store.Develops later.store := by
  cases h with
  | call m => exact m.develops
  | begins leads => exact leads.develops_before
  | ends leads => exact leads.develops
  | told _ ds => exact .record _ ds
  | elsewhere _ b => exact .refl _
  | newBlock _ => exact .newBlock _

theorem State.LaterAnywhere.develops {s later : State} (h : s.LaterAnywhere later) :
    s.store.Develops later.store := by
  induction h with
  | refl => exact .refl _
  | tail _ goes ih =>
    refine ih.trans ?_
    cases goes with
    | passes h => exact h.develops
    | turned told nextBlock => exact .one (.turnTo told nextBlock) trivial

theorem declareWith_locked {depth : Nat} {outer : Scope} {pos : Position} {nodes : List Tree}
    {ctx : Context} {s mid : State} {id : NamespaceId}
    (finished : declareWith (forceWithin depth) outer pos nodes ctx s = (.done id, mid)) :
    ∃ registry, (mid.store.get id).fields? = some registry ∧ registry.locked = true := by
  rw [declareWith_apply] at finished
  cases read : Body.read pos nodes with
  | error d =>
    rw [read] at finished
    cases finished
  | ok found =>
    obtain ⟨body, found⟩ := found
    rw [read] at finished
    dsimp only at finished
    let lines : Moment := ⟨depth, .lines (s.store.namespaces.size :: outer) s.fieldList body.lines,
      ctx.holding [s.store.namespaces.size], s.declaring ctx outer pos body found⟩
    have begun : s.store.size < ((do
        declareLinesWith (forceWithin depth) (s.store.namespaces.size :: outer) s.fieldList body.lines
        fieldsOf pos s.fieldList : Run Registry) lines.ctx lines.state).2.store.size := by
      have grown := (lines.minds.thenFields pos s.fieldList).learns.size
      rw [s.declaring_size] at grown
      exact grown
    generalize (do
      declareLinesWith (forceWithin depth) (s.store.namespaces.size :: outer) s.fieldList body.lines
      fieldsOf pos s.fieldList : Run Registry) _ _ = r at finished begun
    rcases r with ⟨registry | d | _, after⟩ <;> cases finished
    refine ⟨registry.lock, ?_, rfl⟩
    show ((after.store.finish s.store.size registry).get s.store.size).fields? = _
    rw [Store.finish, Store.get_modify, if_pos ⟨rfl, begun⟩]

/-- Once the body of a namespace has been read to its end, the namespace has its definitions and its
fields for good, and the fields are locked. Whatever is done later, in whatever block or environment,
with success or not, and whoever is asked for what, they are the same. In every memory that the store
stands in, the fields have a cell of their own; it is the same cell after any number of changes that
are allowed, among them running whatever blocks again, with the same fields in it, and all that is
done later comes to such changes. Running instructions writes to no locked cell at all, whatever
their operands name, and a block to no cell that was there before. -/
theorem finished_for_good {depth : Nat} {outer : Scope} {pos : Position} {nodes : List Tree}
    {ctx : Context} {s mid : State} {id : NamespaceId}
    (finished : declareWith (forceWithin depth) outer pos nodes ctx s = (.done id, mid)) :
    ∃ registry, (mid.store.get id).fields? = some registry ∧ registry.locked = true ∧
      (∀ later, mid.LaterAnywhere later →
        (later.store.get id).definitions = (mid.store.get id).definitions ∧
        (later.store.get id).fields? = some registry) ∧
      (∃ m : Memory, m.Sound ∧ m.read = mid.store) ∧
      (∀ m : Memory, m.Sound → m.read = mid.store → ∃ place,
        m.Finished id (mid.store.get id).definitions place registry ∧
        (∀ cs, mid.store.AllowsAll cs →
          (m.changes cs).Finished id (mid.store.get id).definitions place registry) ∧
        ∀ later, mid.LaterAnywhere later →
          ∃ cs, mid.store.AllowsAll cs ∧ (m.changes cs).read = later.store) ∧
      (∀ (cells : Cells) r instrs place, (cells.registry place).locked = true →
        (SharedResults.leaves cells r instrs).registry place = cells.registry place) ∧
      ∀ (b : Block) (cells : Cells) place, place < cells.size →
        (b.leaves cells).registry place = cells.registry place := by
  obtain ⟨registry, fields, locked⟩ := declareWith_locked finished
  have inMemory : ∀ m : Memory, m.Sound → m.read = mid.store → ∃ place,
      m.Finished id (mid.store.get id).definitions place registry ∧
      (∀ cs, mid.store.AllowsAll cs →
        (m.changes cs).Finished id (mid.store.get id).definitions place registry) ∧
      ∀ later, mid.LaterAnywhere later →
        ∃ cs, mid.store.AllowsAll cs ∧ (m.changes cs).read = later.store := by
    intro m sound same
    rw [← same] at fields ⊢
    obtain ⟨place, there⟩ := sound.finished fields
    refine ⟨place, there, fun cs allowed => there.changes sound allowed, fun later since => ?_⟩
    obtain ⟨cs, allowed, ends⟩ := since.develops
    rw [← same] at allowed ends
    exact ⟨cs, allowed, (sound.changes cs).2.trans ends⟩
  have sound := Memory.sound_ofStore mid.store
  have same := Memory.read_ofStore mid.store
  refine ⟨registry, fields, locked, fun later since => ?_, ⟨_, sound, same⟩, inMemory,
    SharedResults.leaves_locked, fun b cells => (b.leaves_old cells).2⟩
  obtain ⟨place, -, kept, reached⟩ := inMemory _ sound same
  obtain ⟨cs, allowed, ends⟩ := reached later since
  have still := (kept cs allowed).read_fields
  rwa [ends] at still

theorem finished_for_good_field :
    let read := tokenize "t.cvl" ".a := ns [.b := .k]".toList
    ∃ mid later registry,
      declareWith (forceWithin 9) [] (.start "t.cvl") read.nodes .start (.opening read.diagnostics) =
        (.done 0, mid) ∧
      mid.LaterAnywhere later ∧ mid.store.size < later.store.size ∧
      (mid.store.get 0).fields? = some registry ∧ registry.keys = [.string "a"] ∧
      (later.store.get 0).fields? = some registry := by
  intro read
  let declared := declareWith (forceWithin 9) [] (.start "t.cvl") read.nodes .start
    (.opening read.diagnostics)
  let asked := (Moment.run ⟨9, .resolve [0] .unknown (.start "t.cvl") "a", ⟨[], [0], []⟩, declared.2⟩).2
  let later : State := { asked with store := asked.store.change (.turnTo [] 0) }
  have done : Outcome.passes (fun id _ => id == 0) declared = true := by decide +kernel
  have grown : declared.2.store.size < later.store.size := by decide +kernel
  have keys : (declared.2.store.get 0).fields?.map Registry.keys = some [.string "a"] := by
    decide +kernel
  have since : declared.2.LaterAnywhere later :=
    (Relation.ReflTransGen.single (.passes (.call ⟨9, .resolve [0] .unknown (.start "t.cvl") "a",
      ⟨[], [0], []⟩, declared.2⟩))).tail (.turned asked [] 0)
  have finished : declared = (.done 0, declared.2) := by
    generalize declared = r at done
    rcases r with ⟨id | _ | _, mid⟩
    · rw [eq_of_beq (show (id == 0) = true from done)]
    · cases done
    · cases done
  obtain ⟨registry, fields, -, kept, -⟩ := finished_for_good finished
  rw [fields] at keys
  exact ⟨_, later, registry, finished, since, grown, fields, Option.some.inj keys, (kept later since).2⟩

end NamespaceLang

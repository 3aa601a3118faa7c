import NamespaceLang.Proofs.Instr.Cells
import NamespaceLang.Proofs.Store.Changes

/-!
# The store in memory

In memory the fields of a namespace stand in a cell, and the namespace only names
it, as the results of the block did that has built the fields. Whoever writes to a
cell changes the fields of every namespace that names it. Running a block takes
new cells and writes to these alone, whichever block it is and however that ends.
A namespace is given the cell that its own block has taken, locked; so nothing is
ever written to the cell of a namespace that has its fields.
-/

set_option autoImplicit false

namespace NamespaceLang

namespace SharedResults

variable {cells after : Cells} {r r' : SharedResults}

def leaves (cells : Cells) (r : SharedResults) : List Instr → Cells
  | [] => cells
  | instr :: rest =>
    match step cells r instr with
    | .error _ => cells
    | .ok (cells, r, _) => leaves cells r rest

theorem leaves_of_run {rest : List Instr} (h : (run cells r rest).2 = .ok (after, r')) :
    leaves cells r rest = after := by
  induction rest generalizing cells r with
  | nil =>
    cases h
    rfl
  | cons instr rest ih =>
    rw [run] at h
    rw [leaves]
    cases stepped : step cells r instr with
    | error d =>
      rw [stepped] at h
      cases h
    | ok found =>
      rw [stepped] at h
      exact ih h

theorem leaves_old {base : Nat} (h : r.Apart base cells) (some_there : base ≤ cells.size)
    (rest : List Instr) : cells.size ≤ (leaves cells r rest).size ∧
      ∀ place < base, (leaves cells r rest).registry place = cells.registry place := by
  induction rest generalizing cells r with
  | nil => exact ⟨Nat.le_refl _, fun _ _ => rfl⟩
  | cons instr rest ih =>
    have one := step_follows h some_there instr
    rw [leaves]
    cases stepped : step cells r instr with
    | error d => exact ⟨Nat.le_refl _, fun _ _ => rfl⟩
    | ok found =>
      obtain ⟨mid, r', told⟩ := found
      rw [stepped] at one
      obtain ⟨plain, -, follows⟩ := one
      obtain ⟨size, old⟩ := ih follows.apart (Nat.le_trans some_there follows.size)
      exact ⟨Nat.le_trans follows.size size, fun place before =>
        (old place before).trans (follows.old place before)⟩

theorem append_locked {pos : Position} {list key value : InstrRef} {found : List Diagnostic}
    (ha : append cells r pos list key value = .ok (after, found)) {place : Nat}
    (locked : (cells.registry place).locked = true) :
    after.registry place = cells.registry place := by
  obtain ⟨own, -, unlocked, rfl | ⟨written, rfl⟩⟩ := append_ok ha
  · rfl
  · have other : own ≠ place := by
      rintro rfl
      rw [unlocked] at locked
      cases locked
    simp [Cells.registry, other]

theorem step_locked {instr : Instr} {found : List Diagnostic}
    (stepped : step cells r instr = .ok (after, r', found)) {place : Nat}
    (locked : (cells.registry place).locked = true) :
    after.registry place = cells.registry place := by
  obtain ⟨op, pos⟩ := instr
  cases op with
  | void | comptimeOnly | captureAst | makeKey =>
    cases stepped
    rfl
  | nsInit =>
    cases stepped
    rw [Cells.registry_push, if_neg]
    rintro rfl
    rw [Cells.registry, Array.getElem?_eq_none (Nat.le_refl _)] at locked
    cases locked
  | nsAppend list key value =>
    unfold step at stepped
    dsimp only at stepped
    cases ha : append cells r pos list key value with
    | error d =>
      rw [ha] at stepped
      cases stepped
    | ok appended =>
      rw [ha] at stepped
      cases stepped
      exact append_locked ha locked
  | call | leave => cases stepped

theorem leaves_locked (cells : Cells) (r : SharedResults) (rest : List Instr) {place : Nat}
    (locked : (cells.registry place).locked = true) :
    (leaves cells r rest).registry place = cells.registry place := by
  induction rest generalizing cells r with
  | nil => rfl
  | cons instr rest ih =>
    rw [leaves]
    cases stepped : step cells r instr with
    | error d => rfl
    | ok found =>
      have same := step_locked stepped locked
      exact (ih found.1 found.2.1 (same ▸ locked)).trans same

end SharedResults

namespace Block

def leaves (b : Block) (cells : Cells) : Cells := SharedResults.leaves cells ⟨b.id, #[]⟩ b.instrs.toList

def cell? (b : Block) (cells : Cells) (list : InstrRef) : Option Nat :=
  match (b.evaluateIn cells).2 with
  | .ok (_, r) =>
    match r.get? list with
    | some (.cell place) => some place
    | _ => none
  | .error _ => none

theorem leaves_old (b : Block) (cells : Cells) : cells.size ≤ (b.leaves cells).size ∧
    ∀ place < cells.size, (b.leaves cells).registry place = cells.registry place :=
  SharedResults.leaves_old ⟨fun i place named => (by simp at named), fun i j place named => (by simp at named)⟩
    (Nat.le_refl _) _

theorem cell?_fields (b : Block) (cells : Cells) (list : InstrRef) :
    (b.cell? cells list).map (b.leaves cells).registry = b.fields? list ∧
      ∀ place, b.cell? cells list = some place → cells.size ≤ place ∧ place < (b.leaves cells).size := by
  have follows := (b.evaluateIn_follows cells).2
  unfold cell? fields?
  cases ended : (b.evaluateIn cells).2 with
  | error d =>
    rw [ended] at follows
    rw [follows]
    exact ⟨rfl, fun _ h => by cases h⟩
  | ok found =>
    obtain ⟨after, r⟩ := found
    rw [ended] at follows
    obtain ⟨plain, hp, follows⟩ := follows
    have left : b.leaves cells = after := SharedResults.leaves_of_run ended
    rw [hp, left, ← follows.read]
    dsimp only
    rw [SharedResults.read_get?]
    cases named : r.get? list with
    | none => exact ⟨rfl, fun _ h => by cases h⟩
    | some value =>
      cases value with
      | cell place =>
        refine ⟨rfl, fun own h => ?_⟩
        cases h
        exact follows.apart.taken _ _ (SharedResults.get?_some named)
      | _ => exact ⟨rfl, fun _ h => by cases h⟩

end Block

/-- A namespace that names the cell of its fields, if it has any. -/
structure Declared where
  pos : Position
  outer : Scope
  definitions : Definitions
  cell? : Option Nat
  findings : Table Binding Forced

structure Memory where
  diagnostics : List Diagnostic
  nextBlock : BlockId
  namespaces : Array Declared
  cells : Cells

def Declared.read (cells : Cells) (n : Declared) : Namespace :=
  ⟨n.pos, n.outer, n.definitions, n.cell?.map cells.registry, n.findings⟩

namespace Memory

def read (m : Memory) : Store := ⟨m.diagnostics, m.nextBlock, m.namespaces.map (·.read m.cells)⟩

def Sound (m : Memory) : Prop :=
  ∀ n ∈ m.namespaces, ∀ place, n.cell? = some place → place < m.cells.size

def change (m : Memory) : Change → Memory
  | .tell found => { m with diagnostics := m.diagnostics ++ found }
  | .takeBlock => { m with nextBlock := m.nextBlock + 1 }
  | .turnTo told nextBlock => { m with diagnostics := told, nextBlock }
  | .begin pos outer definitions =>
    { m with namespaces := m.namespaces.push ⟨pos, outer, definitions, none, .empty⟩ }
  | .evaluate b => { m with cells := b.leaves m.cells }
  | .finish b list id =>
    let cells := b.leaves m.cells
    match b.cell? m.cells list with
    | some place =>
      { m with
        cells := cells.setIfInBounds place (cells.registry place).lock
        namespaces := m.namespaces.modify id fun n => { n with cell? := some place } }
    | none => { m with cells }
  | .keep id binding found =>
    { m with
      namespaces := m.namespaces.modify id fun n =>
        { n with findings := n.findings.put binding found } }

def changes (m : Memory) (cs : List Change) : Memory := cs.foldl change m

/-- A memory for a store: each namespace names a cell of its own. -/
def ofStore (s : Store) : Memory where
  diagnostics := s.diagnostics
  nextBlock := s.nextBlock
  namespaces := s.namespaces.mapIdx fun id n =>
    ⟨n.pos, n.outer, n.definitions, n.fields?.map fun _ => id, n.findings⟩
  cells := s.namespaces.map fun n => n.fields?.getD .empty

theorem sound_ofStore (s : Store) : (ofStore s).Sound := by
  intro n hn place named
  obtain ⟨id, inside, rfl⟩ := Array.mem_mapIdx.1 hn
  obtain ⟨registry, -, rfl⟩ := Option.map_eq_some_iff.1 named
  simpa [ofStore] using inside

theorem read_ofStore (s : Store) : (ofStore s).read = s := by
  suffices (ofStore s).read.namespaces = s.namespaces from
    congrArg (Store.mk s.diagnostics s.nextBlock) this
  refine Array.ext_getElem? fun id => ?_
  simp only [read, ofStore, Array.getElem?_map, Array.getElem?_mapIdx]
  cases there : s.namespaces[id]? with
  | none => rfl
  | some n =>
    obtain ⟨pos, outer, definitions, fields?, findings⟩ := n
    cases fields? with
    | none => rfl
    | some registry => simp [Declared.read, Cells.registry, there]

section

variable {m : Memory}

theorem read_congr {cells : Cells} (same : ∀ n ∈ m.namespaces, ∀ place, n.cell? = some place →
    cells.registry place = m.cells.registry place) : { m with cells }.read = m.read := by
  suffices m.namespaces.map (·.read cells) = m.namespaces.map (·.read m.cells) from
    congrArg (Store.mk m.diagnostics m.nextBlock) this
  refine Array.map_congr_left fun n hn => ?_
  obtain ⟨pos, outer, definitions, cell?, findings⟩ := n
  cases cell? with
  | none => rfl
  | some place => simp only [Declared.read, Option.map_some, same _ hn place rfl]

theorem read_modify (id : NamespaceId) {f : Declared → Declared} {g : Namespace → Namespace}
    (same : ∀ n, (f n).read m.cells = g (n.read m.cells)) :
    { m with namespaces := m.namespaces.modify id f }.read = m.read.modify id g := by
  suffices (m.namespaces.modify id f).map (·.read m.cells) =
      (m.namespaces.map (·.read m.cells)).modify id g from
    congrArg (Store.mk m.diagnostics m.nextBlock) this
  refine Array.ext_getElem? fun other => ?_
  simp only [Array.getElem?_map, Array.getElem?_modify]
  split
  · cases m.namespaces[other]? with
    | none => rfl
    | some n => exact congrArg some (same n)
  · rfl

theorem Sound.modify (h : m.Sound) (id : NamespaceId) {f : Declared → Declared}
    (named : ∀ n place, (f n).cell? = some place → n.cell? = some place ∨ place < m.cells.size) :
    { m with namespaces := m.namespaces.modify id f }.Sound := by
  intro n hn place own
  obtain ⟨other, there⟩ := Array.mem_iff_getElem?.1 hn
  rw [Array.getElem?_modify] at there
  split at there
  · obtain ⟨before, hb, rfl⟩ := Option.map_eq_some_iff.1 there
    exact (named before place own).elim (h before (Array.mem_of_getElem? hb) place) fun inside => inside
  · exact h n (Array.mem_of_getElem? there) place own

theorem Sound.resize (h : m.Sound) {cells : Cells} (size : m.cells.size ≤ cells.size) :
    { m with cells }.Sound := fun n hn place named => Nat.lt_of_lt_of_le (h n hn place named) size

theorem Sound.change (h : m.Sound) (c : Change) :
    (m.change c).Sound ∧ (m.change c).read = m.read.change c := by
  have rerun : ∀ b : Block, { m with cells := b.leaves m.cells }.Sound ∧
      { m with cells := b.leaves m.cells }.read = m.read := fun b =>
    ⟨h.resize (b.leaves_old m.cells).1, read_congr fun n hn place named =>
      (b.leaves_old m.cells).2 place (h n hn place named)⟩
  cases c with
  | tell found => exact ⟨h, rfl⟩
  | takeBlock => exact ⟨h, rfl⟩
  | turnTo told nextBlock => exact ⟨h, rfl⟩
  | begin pos outer definitions =>
    refine ⟨fun n hn place named => ?_, ?_⟩
    · rcases Array.mem_push.1 hn with hn | rfl
      · exact h n hn place named
      · cases named
    · simp [Memory.change, Store.change, Store.begin, read, Declared.read]
  | evaluate b => exact rerun b
  | finish b list id =>
    obtain ⟨fields, taken⟩ := b.cell?_fields m.cells list
    obtain ⟨sound, same⟩ := rerun b
    rw [Memory.change, Store.change, ← fields]
    cases cell : b.cell? m.cells list with
    | none => exact ⟨sound, same⟩
    | some place =>
      obtain ⟨new, inside⟩ := taken place cell
      let locked := (b.leaves m.cells).setIfInBounds place ((b.leaves m.cells).registry place).lock
      have sound' : { m with cells := locked }.Sound := sound.resize (by simp [locked])
      have same' : { m with cells := locked }.read = m.read := by
        refine (read_congr (m := { m with cells := b.leaves m.cells }) fun n hn other named => ?_).trans same
        have old := h n hn other named
        rw [Cells.registry_set _ inside, if_neg (by omega)]
      refine ⟨sound'.modify id fun n own named => Or.inr ?_, ?_⟩
      · cases named
        simpa [locked] using inside
      · refine (read_modify (m := { m with cells := locked }) id fun n => ?_).trans
          (congrArg (Store.modify · id _) same')
        simp [Declared.read, locked, Cells.registry_set _ inside]
  | keep id binding found =>
    exact ⟨h.modify id fun n place named => Or.inl named, read_modify id fun n => rfl⟩

theorem Sound.changes (h : m.Sound) (cs : List Change) :
    (m.changes cs).Sound ∧ (m.changes cs).read = m.read.changes cs := by
  induction cs generalizing m with
  | nil => exact ⟨h, rfl⟩
  | cons c rest ih =>
    obtain ⟨sound, same⟩ := h.change c
    have later := ih sound
    rw [same] at later
    exact later

end

/-- The namespace has these definitions, and these are its fields, in this cell. -/
structure Finished (m : Memory) (id : NamespaceId) (definitions : Definitions) (place : Nat)
    (registry : Registry) : Prop where
  named : ∃ n, m.namespaces[id]? = some n ∧ n.definitions = definitions ∧ n.cell? = some place
  there : place < m.cells.size
  fields : m.cells.registry place = registry

theorem get_read {m : Memory} {id : NamespaceId} {n : Declared} (h : m.namespaces[id]? = some n) :
    m.read.get id = n.read m.cells := by
  simp [Store.get, read, h]

theorem Sound.finished {m : Memory} (h : m.Sound) {id : NamespaceId} {registry : Registry}
    (fields : (m.read.get id).fields? = some registry) :
    ∃ place, m.Finished id (m.read.get id).definitions place registry := by
  cases there : m.namespaces[id]? with
  | none =>
    have unbegun : m.read.get id = default := by simp [Store.get, read, there]
    rw [unbegun] at fields
    cases fields
  | some n =>
    rw [get_read there] at fields ⊢
    obtain ⟨place, cell, own⟩ := Option.map_eq_some_iff.1 fields
    exact ⟨place, ⟨n, there, rfl, cell⟩, h n (Array.mem_of_getElem? there) place cell, own⟩

namespace Finished

variable {m : Memory} {id : NamespaceId} {definitions : Definitions} {place : Nat}
  {registry : Registry}

theorem read_fields (h : m.Finished id definitions place registry) :
    (m.read.get id).definitions = definitions ∧ (m.read.get id).fields? = some registry := by
  obtain ⟨n, there, rfl, cell⟩ := h.named
  rw [get_read there]
  exact ⟨rfl, by rw [Declared.read, cell, Option.map_some, h.fields]⟩

theorem resize (h : m.Finished id definitions place registry) {cells : Cells}
    (size : m.cells.size ≤ cells.size) (same : cells.registry place = m.cells.registry place) :
    { m with cells }.Finished id definitions place registry :=
  ⟨h.named, Nat.lt_of_lt_of_le h.there size, same.trans h.fields⟩

theorem modify (h : m.Finished id definitions place registry) (other : NamespaceId)
    {f : Declared → Declared}
    (same : other = id → ∀ n, (f n).definitions = n.definitions ∧ (f n).cell? = n.cell?) :
    { m with namespaces := m.namespaces.modify other f }.Finished id definitions place registry := by
  obtain ⟨n, there, own, cell⟩ := h.named
  refine ⟨?_, h.there, h.fields⟩
  by_cases here : other = id
  · obtain ⟨definitions, named⟩ := same here n
    refine ⟨f n, ?_, definitions.trans own, named.trans cell⟩
    rw [Array.getElem?_modify, if_pos here, there, Option.map_some]
  · refine ⟨n, ?_, own, cell⟩
    rw [Array.getElem?_modify, if_neg here, there]

/-- No change that is allowed writes to the cell, or lets the namespace name another one. -/
theorem change (h : m.Finished id definitions place registry) {c : Change}
    (allowed : m.read.Allows c) : (m.change c).Finished id definitions place registry := by
  have rerun : ∀ b : Block,
      { m with cells := b.leaves m.cells }.Finished id definitions place registry := fun b =>
    h.resize (b.leaves_old m.cells).1 ((b.leaves_old m.cells).2 place h.there)
  cases c with
  | tell found => exact ⟨h.named, h.there, h.fields⟩
  | takeBlock => exact ⟨h.named, h.there, h.fields⟩
  | turnTo told nextBlock => exact ⟨h.named, h.there, h.fields⟩
  | begin pos outer begun =>
    obtain ⟨n, there, own⟩ := h.named
    have inside := (Array.getElem?_eq_some_iff.1 there).1
    refine ⟨⟨n, ?_, own⟩, h.there, h.fields⟩
    rw [Memory.change, Array.getElem?_push_lt inside]
    exact (Array.getElem?_eq_getElem inside).symm.trans there
  | evaluate b => exact rerun b
  | finish b list other =>
    have apart : other ≠ id := by
      rintro rfl
      have none_yet : (m.read.get other).fields? = none := allowed
      rw [h.read_fields.2] at none_yet
      cases none_yet
    rw [Memory.change]
    cases cell : b.cell? m.cells list with
    | none => exact rerun b
    | some new =>
      obtain ⟨since, inside⟩ := (b.cell?_fields m.cells list).2 new cell
      let locked := (b.leaves m.cells).setIfInBounds new ((b.leaves m.cells).registry new).lock
      have written : { m with cells := locked }.Finished id definitions place registry := by
        have old := h.there
        refine (rerun b).resize (by simp [locked]) ?_
        rw [Cells.registry_set _ inside, if_neg (by omega)]
      exact written.modify other fun same => absurd same apart
  | keep other binding found => exact h.modify other fun _ _ => ⟨rfl, rfl⟩

theorem changes (h : m.Finished id definitions place registry) (sound : m.Sound) {cs : List Change}
    (allowed : m.read.AllowsAll cs) : (m.changes cs).Finished id definitions place registry := by
  induction cs generalizing m with
  | nil => exact h
  | cons c rest ih =>
    obtain ⟨next, same⟩ := sound.change c
    exact ih (h.change allowed.1) next (same ▸ allowed.2)

end Finished

end Memory

end NamespaceLang

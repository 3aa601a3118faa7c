import NamespaceLang.Instr.Evaluate

/-!
# Fields in cells

The fields of a namespace that is being built may be thought of as standing in a
cell of their own, which the result of the instruction that begins the namespace
only names. An instruction that appends a field writes to the cell, and so does
locking it. Since each of these results names another cell, what is done to one
of them is not seen through any other: reading all cells gives the results that
carry their fields with them.
-/

set_option autoImplicit false

namespace NamespaceLang

abbrev Cells := Array Registry

/-- A result that names the cell of its fields, if it is a namespace that is being built. -/
inductive Shared where
  | void
  | key (key : Key)
  | ast (thunk : Thunk)
  | cell (place : Nat)

namespace Cells

def registry (cells : Cells) (place : Nat) : Registry := cells[place]?.getD .empty

theorem registry_push (cells : Cells) (own : Registry) (place : Nat) :
    registry (cells.push own) place = if place = cells.size then own else registry cells place := by
  by_cases last : place = cells.size <;> simp [registry, Array.getElem?_push, last]

theorem registry_set (cells : Cells) {written : Nat} (there : written < cells.size)
    (own : Registry) (place : Nat) :
    registry (cells.setIfInBounds written own) place =
      if written = place then own else registry cells place := by
  by_cases same : written = place
  · subst same
    simp [registry, there]
  · simp [registry, same]

end Cells

def Shared.read (cells : Cells) : Shared → Value
  | .void => .void
  | .key known => .key known
  | .ast thunk => .ast thunk
  | .cell place => .aggregate (cells.registry place)

structure SharedResults where
  block : BlockId
  values : Array Shared

namespace SharedResults

def read (cells : Cells) (r : SharedResults) : Results := ⟨r.block, r.values.map (Shared.read cells)⟩

def get? (r : SharedResults) (ref : InstrRef) : Option Shared :=
  if ref.block = r.block then r.values[ref.index]? else none

def lock (cells : Cells) (r : SharedResults) (ref : InstrRef) : Cells :=
  match r.get? ref with
  | some (.cell place) => cells.setIfInBounds place (cells.registry place).lock
  | _ => cells

def operand (r : SharedResults) (pos : Position) (ref : InstrRef) : Except Diagnostic Shared :=
  let user : InstrRef := ⟨r.block, r.values.size⟩
  if ref.block ≠ user.block then .error (.unreachable pos (.foreignOperand ref))
  else if user.index ≤ ref.index then .error (.unreachable pos (.lateOperand ref user))
  else
    match r.values[ref.index]? with
    | some value => .ok value
    | none => .error (.unreachable pos (.emptyOperand ref))

def push (r : SharedResults) (value : Shared) : SharedResults :=
  { r with values := r.values.push value }

def append (cells : Cells) (r : SharedResults) (pos : Position) (list key value : InstrRef) :
    Except Diagnostic (Cells × List Diagnostic) := do
  let .cell place ← r.operand pos list | throw (.unreachable pos .appendTarget)
  let .key key ← r.operand pos key | throw (.unreachable pos .appendKey)
  let .ast thunk ← r.operand pos value | throw (.unreachable pos .appendValue)
  if (cells.registry place).locked then throw (.unreachable pos .appendToLocked)
  match (cells.registry place).insert ⟨key, thunk, pos⟩ with
  | .ok registry => return (cells.setIfInBounds place registry, [])
  | .error taken =>
    return (cells, [(Diagnostic.error pos (.alreadyDeclared key.field)).withNote taken.pos
      .previousField])

def step (cells : Cells) (r : SharedResults) (instr : Instr) :
    Except Diagnostic (Cells × SharedResults × List Diagnostic) :=
  match instr.op with
  | .void | .comptimeOnly => .ok (cells, r.push .void, [])
  | .captureAst thunk => .ok (cells, r.push (.ast thunk), [])
  | .makeKey key => .ok (cells, r.push (.key key), [])
  | .nsInit => .ok (cells.push .empty, r.push (.cell cells.size), [])
  | .nsAppend list key value =>
    (append cells r instr.pos list key value).map fun (cells, found) => (cells, r.push .void, found)
  | .call .. | .leave _ => .error (.unreachable instr.pos (.notEvaluable instr.op.name))

def run (cells : Cells) (r : SharedResults) :
    List Instr → List Diagnostic × Except Diagnostic (Cells × SharedResults)
  | [] => ([], .ok (cells, r))
  | instr :: rest =>
    match step cells r instr with
    | .error d => ([], .error d)
    | .ok (cells, r, found) =>
      let (more, outcome) := run cells r rest
      (found ++ more, outcome)

end SharedResults

/-- Runs a block where other blocks have been run. -/
def Block.evaluateIn (cells : Cells) (b : Block) :
    List Diagnostic × Except Diagnostic (Cells × SharedResults) :=
  SharedResults.run cells ⟨b.id, #[]⟩ b.instrs.toList

namespace SharedResults

structure Apart (base : Nat) (cells : Cells) (r : SharedResults) : Prop where
  taken : ∀ (i place : Nat), r.values[i]? = some (.cell place) → base ≤ place ∧ place < cells.size
  once : ∀ (i j place : Nat), r.values[i]? = some (.cell place) →
    r.values[j]? = some (.cell place) → i = j

variable {base : Nat} {cells : Cells} {r : SharedResults}

theorem read_push (cells : Cells) (r : SharedResults) (value : Shared) :
    (r.push value).read cells = (r.read cells).push (value.read cells) := by
  simp [read, push, Results.push]

theorem read_congr {more : Cells} (same : ∀ (i place : Nat), r.values[i]? = some (.cell place) →
    more.registry place = cells.registry place) : r.read more = r.read cells := by
  suffices r.values.map (Shared.read more) = r.values.map (Shared.read cells) by rw [read, read, this]
  refine Array.map_congr_left fun value there => ?_
  obtain ⟨i, hi⟩ := Array.mem_iff_getElem?.1 there
  cases value with
  | cell place => exact congrArg Value.aggregate (same i place hi)
  | _ => rfl

/-- A cell is read through the one result that names it. -/
theorem read_set (h : r.Apart base cells) {i place : Nat} (named : r.values[i]? = some (.cell place))
    (own : Registry) :
    r.read (cells.setIfInBounds place own) =
      { r.read cells with values := (r.read cells).values.setIfInBounds i (.aggregate own) } := by
  have there := (h.taken i place named).2
  have inside : i < r.values.size := (Array.getElem?_eq_some_iff.1 named).1
  suffices r.values.map (Shared.read (cells.setIfInBounds place own)) =
      (r.values.map (Shared.read cells)).setIfInBounds i (.aggregate own) by simp only [read, this]
  refine Array.ext_getElem? fun j => ?_
  rw [Array.getElem?_setIfInBounds, Array.getElem?_map, Array.getElem?_map]
  by_cases same : i = j
  · subst same
    rw [if_pos rfl, named]
    simp [inside, Shared.read, Cells.registry_set cells there]
  · rw [if_neg same]
    cases value : r.values[j]? with
    | none => rfl
    | some other =>
      cases other with
      | cell elsewhere =>
        have away : place ≠ elsewhere := fun e => same (h.once i j place named (e ▸ value))
        simp [Shared.read, Cells.registry_set cells there, away]
      | _ => rfl

theorem read_get? (cells : Cells) (r : SharedResults) (ref : InstrRef) :
    (r.read cells).get? ref = (r.get? ref).map (Shared.read cells) := by
  by_cases own : ref.block = r.block <;> simp [get?, Results.get?, read, own]

theorem get?_some {ref : InstrRef} {value : Shared} (h : r.get? ref = some value) :
    r.values[ref.index]? = some value := by
  unfold get? at h
  split at h
  · exact h
  · cases h

theorem read_lock (h : r.Apart base cells) (ref : InstrRef) :
    r.read (lock cells r ref) = (r.read cells).lock ref := by
  rw [lock, Results.lock, read_get?]
  cases named : r.get? ref with
  | none => rfl
  | some value =>
    cases value with
    | cell place => exact read_set h (get?_some named) _
    | _ => rfl

theorem operand_get {pos : Position} {ref : InstrRef} {value : Shared}
    (h : r.operand pos ref = .ok value) : r.values[ref.index]? = some value := by
  unfold operand at h
  dsimp only at h
  split at h
  · cases h
  · split at h
    · cases h
    · split at h
      · next there => cases h; exact there
      · cases h

theorem read_operand (cells : Cells) (r : SharedResults) (pos : Position) (ref : InstrRef) :
    (r.read cells).operand pos ref = (r.operand pos ref).map (Shared.read cells) := by
  have block : (r.read cells).block = r.block := rfl
  have size : (r.read cells).values.size = r.values.size := by simp [read]
  have values : (r.read cells).values[ref.index]? = r.values[ref.index]?.map (Shared.read cells) := by
    simp [read]
  unfold operand Results.operand
  simp only [block, size, values]
  by_cases own : ref.block = r.block
  · by_cases late : r.values.size ≤ ref.index
    · simp [own, late, Except.map]
    · simp only [own, ne_eq, not_true, if_false, if_neg late]
      cases r.values[ref.index]? <;> rfl
  · simp [own, Except.map]

theorem read_append (h : r.Apart base cells) (pos : Position) (list key value : InstrRef) :
    (r.read cells).append pos list key value =
      (append cells r pos list key value).map fun (cells, found) => (r.read cells, found) := by
  unfold append Results.append
  simp only [read_operand, bind, Except.bind, throw, throwThe, MonadExceptOf.throw, pure, Except.pure]
  cases target : r.operand pos list with
  | error d => rfl
  | ok own =>
    cases own with
    | cell place =>
      have named := operand_get target
      cases r.operand pos key with
      | error d => rfl
      | ok found =>
        cases found with
        | key known =>
          cases r.operand pos value with
          | error d => rfl
          | ok kept =>
            cases kept with
            | ast thunk =>
              simp only [Except.map, Shared.read]
              split
              · rfl
              · cases (cells.registry place).insert ⟨known, thunk, pos⟩ with
                | ok registry => simp only [read_set h named]
                | error taken => rfl
            | _ => rfl
        | _ => rfl
    | _ => rfl

theorem Apart.push (h : r.Apart base cells) {value : Shared}
    (plain : ∀ place, value ≠ .cell place) : (r.push value).Apart base cells where
  taken i place named := by
    simp only [SharedResults.push, Array.getElem?_push] at named
    split at named
    · exact absurd (Option.some.inj named) (plain place)
    · exact h.taken i place named
  once i j place first second := by
    simp only [SharedResults.push, Array.getElem?_push] at first second
    split at first
    · exact absurd (Option.some.inj first) (plain place)
    · split at second
      · exact absurd (Option.some.inj second) (plain place)
      · exact h.once i j place first second

theorem Apart.begin (h : r.Apart base cells) (some_there : base ≤ cells.size) (own : Registry) :
    (r.push (.cell cells.size)).Apart base (cells.push own) where
  taken i place named := by
    simp only [SharedResults.push, Array.getElem?_push] at named
    rw [Array.size_push]
    split at named
    · cases named
      exact ⟨some_there, Nat.lt_succ_self _⟩
    · exact (h.taken i place named).imp id Nat.lt_succ_of_lt
  once i j place first second := by
    simp only [SharedResults.push, Array.getElem?_push] at first second
    split at first
    · next last =>
      cases first
      split at second
      · next last' => exact last.trans last'.symm
      · exact absurd (h.taken j _ second).2 (Nat.lt_irrefl _)
    · split at second
      · cases second
        exact absurd (h.taken i _ first).2 (Nat.lt_irrefl _)
      · exact h.once i j place first second

theorem Apart.resize {more : Cells} (h : r.Apart base cells) (size : cells.size ≤ more.size) :
    r.Apart base more :=
  ⟨fun i place named => (h.taken i place named).imp id (Nat.lt_of_lt_of_le · size), h.once⟩

/-- What a step or a run in cells does, beside what it does to results that carry their fields:
the cells of before are left as they are. -/
structure Follows (base : Nat) (cells : Cells) (plain : Results) (after : Cells)
    (r : SharedResults) : Prop where
  read : r.read after = plain
  apart : r.Apart base after
  size : cells.size ≤ after.size
  old : ∀ place < base, after.registry place = cells.registry place

theorem append_ok {pos : Position} {list key value : InstrRef} {after : Cells}
    {found : List Diagnostic} (ha : append cells r pos list key value = .ok (after, found)) :
    ∃ place, r.operand pos list = .ok (.cell place) ∧ (cells.registry place).locked = false ∧
      (after = cells ∨ ∃ own, after = cells.setIfInBounds place own) := by
  simp only [append, bind, Except.bind, throw, throwThe, MonadExceptOf.throw, pure, Except.pure] at ha
  split at ha
  · cases ha
  · next target =>
    split at ha
    · next place =>
      split at ha
      · cases ha
      · split at ha
        · split at ha
          · cases ha
          · split at ha
            · split at ha
              · cases ha
              · next unlocked =>
                refine ⟨place, target, Bool.not_eq_true _ ▸ unlocked, ?_⟩
                split at ha
                · next own _ =>
                  cases ha
                  exact Or.inr ⟨own, rfl⟩
                · cases ha
                  exact Or.inl rfl
            · cases ha
        · cases ha
    · cases ha

theorem append_follows (h : r.Apart base cells) {pos : Position} {list key value : InstrRef}
    {after : Cells} {found : List Diagnostic}
    (ha : append cells r pos list key value = .ok (after, found)) :
    (r.read cells).append pos list key value = .ok (r.read after, found) ∧
      cells.size = after.size ∧ ∀ place < base, after.registry place = cells.registry place := by
  refine ⟨by rw [read_append h, ha]; rfl, ?_⟩
  obtain ⟨place, target, -, written⟩ := append_ok ha
  have named := h.taken _ _ (operand_get target)
  obtain rfl | ⟨own, rfl⟩ := written
  · exact ⟨rfl, fun _ _ => rfl⟩
  · refine ⟨by simp, fun other old => ?_⟩
    rw [Cells.registry_set cells named.2, if_neg (by omega)]

theorem step_follows (h : r.Apart base cells) (some_there : base ≤ cells.size) (instr : Instr) :
    match step cells r instr with
    | .error d => (r.read cells).step instr = .error d
    | .ok (after, r', found) => ∃ plain, (r.read cells).step instr = .ok (plain, found) ∧
        Follows base cells plain after r' := by
  obtain ⟨op, pos⟩ := instr
  have pushed : ∀ value : Shared, (∀ place, value ≠ .cell place) →
      Follows base cells ((r.read cells).push (value.read cells)) cells (r.push value) := fun value plain =>
    ⟨read_push cells r value, h.push plain, Nat.le_refl _, fun _ _ => rfl⟩
  cases op with
  | void | comptimeOnly => exact ⟨_, rfl, pushed .void fun _ e => by cases e⟩
  | captureAst thunk => exact ⟨_, rfl, pushed (.ast thunk) fun _ e => by cases e⟩
  | makeKey key => exact ⟨_, rfl, pushed (.key key) fun _ e => by cases e⟩
  | nsInit =>
    have same : r.read (cells.push .empty) = r.read cells := by
      refine read_congr fun i place named => ?_
      rw [Cells.registry_push, if_neg (Nat.ne_of_lt (h.taken i place named).2)]
    refine ⟨_, rfl, ?_, h.begin some_there _, by simp, fun place old => ?_⟩
    · rw [read_push, same, Shared.read, Cells.registry_push, if_pos rfl]
    · rw [Cells.registry_push, if_neg (by omega)]
  | nsAppend list key value =>
    simp only [step, Results.step]
    cases ha : append cells r pos list key value with
    | error d => simp [read_append h, ha, Except.map]
    | ok appended =>
      obtain ⟨after, found⟩ := appended
      obtain ⟨plain, size, old⟩ := append_follows h ha
      refine ⟨_, by rw [plain]; rfl, read_push _ _ _, ?_, Nat.le_of_eq size, old⟩
      exact (h.resize (Nat.le_of_eq size)).push fun _ e => by cases e
  | call | leave => exact rfl

theorem run_follows (rest : List Instr) (h : r.Apart base cells) (some_there : base ≤ cells.size) :
    (run cells r rest).1 = ((r.read cells).run rest).1 ∧
      match (run cells r rest).2 with
      | .error d => ((r.read cells).run rest).2 = .error d
      | .ok (after, r') => ∃ plain, ((r.read cells).run rest).2 = .ok plain ∧
          Follows base cells plain after r' := by
  induction rest generalizing cells r with
  | nil => exact ⟨rfl, _, rfl, rfl, h, Nat.le_refl _, fun _ _ => rfl⟩
  | cons instr rest ih =>
    have one := step_follows h some_there instr
    rw [run, Results.run]
    cases stepped : step cells r instr with
    | error d =>
      rw [stepped] at one
      rw [one]
      exact ⟨rfl, rfl⟩
    | ok found =>
      obtain ⟨mid, r', told⟩ := found
      rw [stepped] at one
      obtain ⟨plain, hp, follows⟩ := one
      rw [hp]
      obtain ⟨same, more⟩ := ih follows.apart (Nat.le_trans some_there follows.size)
      rw [follows.read] at same more
      dsimp only
      refine ⟨congrArg (told ++ ·) same, ?_⟩
      cases ended : (run mid r' rest).2 with
      | error d =>
        rw [ended] at more
        exact more
      | ok last =>
        rw [ended] at more
        obtain ⟨last, hl, later⟩ := more
        exact ⟨last, hl, later.read, later.apart, Nat.le_trans follows.size later.size,
          fun place old => (later.old place old).trans (follows.old place old)⟩

end SharedResults

theorem Block.evaluateIn_follows (cells : Cells) (b : Block) :
    (b.evaluateIn cells).1 = b.evaluate.1 ∧
      match (b.evaluateIn cells).2 with
      | .error d => b.evaluate.2 = .error d
      | .ok (after, r) => ∃ plain, b.evaluate.2 = .ok plain ∧
          SharedResults.Follows cells.size cells plain after r := by
  have nothing : (⟨b.id, #[]⟩ : SharedResults).Apart cells.size cells :=
    ⟨fun i place named => (by simp at named), fun i j place named => (by simp at named)⟩
  have follows := SharedResults.run_follows b.instrs.toList nothing (Nat.le_refl _)
  have start : SharedResults.read cells ⟨b.id, #[]⟩ = ⟨b.id, #[]⟩ := by simp [SharedResults.read]
  rw [start] at follows
  exact follows

/-- What may be done with blocks and their results. -/
inductive Deed where
  | evaluate (b : Block)
  | lock (which : Nat) (ref : InstrRef)

def Deed.done (all : List Results) : Deed → List Results
  | .evaluate b =>
    match b.evaluate.2 with
    | .ok r => all ++ [r]
    | .error _ => all
  | .lock which ref => all.modify which (·.lock ref)

/-- The evaluations that came to their end, with the cells that they share. -/
structure Evaluations where
  cells : Cells
  results : List SharedResults

namespace Evaluations

def none_yet : Evaluations := ⟨#[], []⟩

def read (e : Evaluations) : List Results := e.results.map (SharedResults.read e.cells)

def after (e : Evaluations) : Deed → Evaluations
  | .evaluate b =>
    match (b.evaluateIn e.cells).2 with
    | .ok (cells, r) => ⟨cells, e.results ++ [r]⟩
    | .error _ => e
  | .lock which ref =>
    match e.results[which]? with
    | some r => { e with cells := r.lock e.cells ref }
    | none => e

structure Apart (e : Evaluations) : Prop where
  each : ∀ r ∈ e.results, r.Apart 0 e.cells
  others : ∀ (k l i j place : Nat) (r r' : SharedResults), e.results[k]? = some r →
    e.results[l]? = some r' → r.values[i]? = some (.cell place) → r'.values[j]? = some (.cell place) →
    k = l

theorem Apart.evaluated {e : Evaluations} (h : e.Apart) {plain : Results} {cells : Cells}
    {r : SharedResults} (follows : SharedResults.Follows e.cells.size e.cells plain cells r) :
    (⟨cells, e.results ++ [r]⟩ : Evaluations).Apart ∧
      (⟨cells, e.results ++ [r]⟩ : Evaluations).read = e.read ++ [plain] := by
  have named : ∀ (k i place : Nat) (own : SharedResults), e.results[k]? = some own →
      own.values[i]? = some (.cell place) → place < e.cells.size := fun k i place own hk hi =>
    ((h.each own (List.mem_of_getElem? hk)).taken i place hi).2
  refine ⟨⟨fun own there => ?_, fun k l i j place own own' hk hl hi hj => ?_⟩, ?_⟩
  · rcases List.mem_append.1 there with there | there
    · exact (h.each own there).resize follows.size
    · rw [List.mem_singleton.1 there]
      exact ⟨fun i place hi => ⟨Nat.zero_le _, (follows.apart.taken i place hi).2⟩, follows.apart.once⟩
  · have split : ∀ (k i : Nat) (own : SharedResults), (e.results ++ [r])[k]? = some own →
        own.values[i]? = some (.cell place) →
        (e.results[k]? = some own ∧ place < e.cells.size) ∨
          (k = e.results.length ∧ e.cells.size ≤ place) := by
      intro k i own hk hi
      by_cases old : k < e.results.length
      · rw [List.getElem?_append_left old] at hk
        exact Or.inl ⟨hk, named k i place own hk hi⟩
      · rw [List.getElem?_append_right (Nat.le_of_not_lt old)] at hk
        obtain ⟨last, same⟩ := List.getElem?_eq_some_iff.1 hk
        rw [List.length_singleton] at last
        rw [List.getElem_singleton] at same
        exact Or.inr ⟨by omega, (follows.apart.taken i place (same ▸ hi)).1⟩
    rcases split k i own hk hi with ⟨hk', lt⟩ | ⟨hk', le⟩ <;>
      rcases split l j own' hl hj with ⟨hl', lt'⟩ | ⟨hl', le'⟩
    · exact h.others k l i j place own own' hk' hl' hi hj
    · omega
    · omega
    · omega
  · rw [read, read, List.map_append, List.map_singleton, follows.read]
    refine congrArg (· ++ [plain]) (List.map_congr_left fun own there => ?_)
    exact SharedResults.read_congr fun i place hi =>
      follows.old place ((h.each own there).taken i place hi).2

theorem Apart.locked {e : Evaluations} (h : e.Apart) {which : Nat} {r : SharedResults}
    (chosen : e.results[which]? = some r) (ref : InstrRef) :
    (⟨r.lock e.cells ref, e.results⟩ : Evaluations).Apart ∧
      (⟨r.lock e.cells ref, e.results⟩ : Evaluations).read = e.read.modify which (·.lock ref) := by
  have size : (r.lock e.cells ref).size = e.cells.size := by
    unfold SharedResults.lock
    split <;> simp
  refine ⟨⟨fun own there => (h.each own there).resize (Nat.le_of_eq size.symm), h.others⟩, ?_⟩
  refine List.ext_getElem? fun k => ?_
  rw [List.getElem?_modify, read, read, List.getElem?_map, List.getElem?_map]
  cases own : e.results[k]? with
  | none => rfl
  | some other =>
    by_cases same : which = k
    · subst same
      obtain rfl : r = other := Option.some.inj (chosen.symm.trans own)
      simp [SharedResults.read_lock (h.each r (List.mem_of_getElem? chosen))]
    · simp only [Option.map_some, if_neg same]
      refine congrArg some (SharedResults.read_congr fun i place named => ?_)
      unfold SharedResults.lock
      split
      · next locked there =>
        have named' := SharedResults.get?_some there
        have away : locked ≠ place := fun eq =>
          same (h.others which k ref.index i locked r other chosen own named' (eq ▸ named))
        rw [Cells.registry_set e.cells ((h.each r (List.mem_of_getElem? chosen)).taken _ _ named').2,
          if_neg away]
      · rfl

theorem Apart.after {e : Evaluations} (h : e.Apart) (deed : Deed) :
    (e.after deed).Apart ∧ (e.after deed).read = deed.done e.read := by
  cases deed with
  | evaluate b =>
    have follows := (b.evaluateIn_follows e.cells).2
    unfold Evaluations.after Deed.done
    dsimp only
    cases ended : (b.evaluateIn e.cells).2 with
    | error d =>
      rw [ended] at follows
      rw [follows]
      exact ⟨h, rfl⟩
    | ok found =>
      rw [ended] at follows
      obtain ⟨plain, hp, follows⟩ := follows
      rw [hp]
      exact h.evaluated follows
  | lock which ref =>
    unfold Evaluations.after Deed.done
    dsimp only
    cases chosen : e.results[which]? with
    | none =>
      refine ⟨h, (List.modify_eq_self ?_).symm⟩
      simpa [read] using chosen
    | some r => exact h.locked chosen ref

/-- Whatever is done, the results in cells are read as those that carry their fields with them. -/
theorem read_deeds (deeds : List Deed) :
    (deeds.foldl Evaluations.after none_yet).read = deeds.foldl Deed.done [] := by
  suffices ∀ e : Evaluations, e.Apart →
      (deeds.foldl Evaluations.after e).read = deeds.foldl Deed.done e.read by
    refine this none_yet ⟨fun r hr => (by cases hr), fun k l i j place r r' hk => ?_⟩
    simp [none_yet] at hk
  induction deeds with
  | nil => exact fun e _ => rfl
  | cons deed rest ih =>
    intro e h
    rw [List.foldl_cons, List.foldl_cons, ih _ (h.after deed).1, (h.after deed).2]

theorem read_after (deeds : List Deed) (more : Deed) :
    ((deeds.foldl Evaluations.after none_yet).after more).read =
      more.done (deeds.foldl Evaluations.after none_yet).read := by
  have both := read_deeds (deeds ++ [more])
  rw [List.foldl_append, List.foldl_append, ← read_deeds] at both
  exact both

end Evaluations

end NamespaceLang

import NamespaceLang.Proofs.Analysis.Apart
import NamespaceLang.Proofs.Analysis.Enough
import NamespaceLang.Proofs.Body.Occurrences

/-!
# The fields that a body comes to have

The lines of a body are read one after another into one block. A line whose left
side stands for a key that is known appends its field there, with its right side
kept as it stands; any other line appends nothing, whether it comes to its end or
fails half-way, and what it fails with is told. So the block can always be run, and
the namespace has the first field of each key, in the order of the lines. A line
that fails leaves nothing to the others but the namespaces, and what it has found
out about them; this stays found, and may decide which keys the others have.
-/

set_option autoImplicit false

namespace NamespaceLang

open NamespaceLang.Tree

theorem Op.Accepted.of_alone {op : Op} (h : op.alone = true) (id : BlockId) (before : List Instr) :
    op.Accepted id before := by
  cases op with
  | nsAppend | call | leave => cases h
  | _ => trivial

theorem Accepted.more {id : BlockId} {before more : List Instr} (h : Accepted id before)
    (alone : ∀ instr ∈ more, instr.op.alone = true) : Accepted id (before ++ more) := by
  induction more using List.reverseRecOn with
  | nil => rwa [List.append_nil]
  | append_singleton init last ih =>
    rw [← List.append_assoc]
    exact accepted_concat.2 ⟨ih fun instr hm => alone instr (List.mem_append_left _ hm),
      .of_alone (alone last (by simp)) id _⟩

theorem appendedAfter_eq_nil {more : List Instr} (alone : ∀ instr ∈ more, instr.op.alone = true)
    (before : List Instr) : appendedAfter before more = [] := by
  induction more generalizing before with
  | nil => rfl
  | cons instr rest ih =>
    have own : appended? before instr = none := by
      have ho := alone instr List.mem_cons_self
      unfold appended?
      split
      · next op =>
        rw [op] at ho
        cases ho
      · rfl
    rw [appendedAfter, own, ih fun other hm => alone other (List.mem_cons_of_mem _ hm)]
    rfl

def Block.entries (b : Block) (list : InstrRef) : List FieldEntry :=
  appendedTo list.index (appendedAfter [] b.instrs.toList)

/-- The block can be run, and `list` begins a namespace there. -/
structure Filling (list : InstrRef) (b : Block) : Prop where
  accepted : Accepted b.id b.instrs.toList
  target : Names b.id b.instrs.toList list Op.beginsNamespace

namespace Filling

variable {list : InstrRef} {b : Block}

theorem more (h : Filling list b) {instrs : Array Instr}
    (alone : ∀ instr ∈ instrs, instr.op.alone = true) :
    Filling list ⟨b.id, b.instrs ++ instrs⟩ ∧
      Block.entries ⟨b.id, b.instrs ++ instrs⟩ list = b.entries list := by
  have all : ∀ instr ∈ instrs.toList, instr.op.alone = true := fun instr hm =>
    alone instr (Array.mem_toList_iff.1 hm)
  refine ⟨⟨?_, ?_⟩, ?_⟩
  · rw [Array.toList_append]
    exact h.accepted.more all
  · rw [Array.toList_append]
    exact h.target.more (List.prefix_append _ _)
  · rw [Block.entries, Array.toList_append, appendedAfter_append, appendedAfter_eq_nil all,
      List.append_nil]
    rfl

theorem push (h : Filling list b) {op : Op} (alone : op.alone = true) (pos : Position) :
    Filling list (b.push op pos).2 ∧ (b.push op pos).2.entries list = b.entries list := by
  have one : ∀ instr ∈ (#[⟨op, pos⟩] : Array Instr), instr.op.alone = true := by simpa using alone
  have pushed := h.more one
  rwa [show (⟨b.id, b.instrs ++ #[⟨op, pos⟩]⟩ : Block) = (b.push op pos).2 by simp [Block.push]]
    at pushed

theorem append (h : Filling list b) {keyRef bodyRef : InstrRef} {key : Key} {thunk : Thunk}
    {keyPos bodyPos : Position} (keyHere : keyRef.block = b.id)
    (made : b.instrs.toList[keyRef.index]? = some ⟨.makeKey key, keyPos⟩)
    (bodyHere : bodyRef.block = b.id)
    (kept : b.instrs.toList[bodyRef.index]? = some ⟨.captureAst thunk, bodyPos⟩) (pos : Position) :
    Filling list (b.push (.nsAppend list keyRef bodyRef) pos).2 ∧
      (b.push (.nsAppend list keyRef bodyRef) pos).2.entries list =
        b.entries list ++ [⟨key, thunk, pos⟩] := by
  have instrs : (b.push (.nsAppend list keyRef bodyRef) pos).2.instrs.toList =
      b.instrs.toList ++ [⟨.nsAppend list keyRef bodyRef, pos⟩] := Array.toList_push
  have own : appended? b.instrs.toList ⟨.nsAppend list keyRef bodyRef, pos⟩ =
      some ⟨list.index, ⟨key, thunk, pos⟩⟩ := by
    simp [appended?, made, kept]
  refine ⟨⟨?_, ?_⟩, ?_⟩
  · rw [instrs]
    exact accepted_concat.2 ⟨h.accepted, h.target, names_key.2 ⟨keyHere, key, keyPos, made⟩,
      names_source.2 ⟨bodyHere, thunk, bodyPos, kept⟩⟩
  · rw [instrs]
    exact h.target.more (List.prefix_append _ _)
  · rw [Block.entries, instrs, appendedAfter_concat, own, Option.toList_some, appendedTo_concat,
      if_pos rfl]
    rfl

theorem fieldsOf {s : State} (h : Filling list s.block) (pos : Position) (ctx : Context) :
    NamespaceLang.fieldsOf pos list ctx s = (.done ⟨false, firstOfEach (s.block.entries list)⟩,
      s.told ctx (takenAfter [] (appendedAfter [] s.block.instrs.toList))) := by
  have ran : s.block.evaluate = (takenAfter [] (appendedAfter [] s.block.instrs.toList),
    .ok (resultsOf s.block.id s.block.instrs.toList)) := Results.run_accepted h.accepted
  obtain ⟨own, instr, there, begins⟩ := h.target
  have result : (resultsOf s.block.id s.block.instrs.toList).get? list =
      some (.aggregate ⟨false, firstOfEach (s.block.entries list)⟩) := by
    rw [Results.get?, if_pos (show list.block = (resultsOf _ _).block from own),
      Results.resultsOf_get, there]
    obtain ⟨op, at_⟩ := instr
    cases op with
    | nsInit => rfl
    | _ => cases begins
  unfold NamespaceLang.fieldsOf
  rw [Run.bind_apply, Run.evaluate_ok ran]
  dsimp only
  rw [Results.aggregate, result]
  rfl

end Filling

/-- A key that is written out: a field's name, or a field of the builtin namespace. -/
def writtenKey? : List Tree → Option Key
  | [.leaf _ (.identifier .access name)] => some (.string name)
  | [.leaf _ (.identifier .builtin own), .leaf _ (.identifier .access name)] =>
    if own = Builtin.namespaceName then (Builtin.ofName? name).map Builtin.key else none
  | _ => none

theorem analyzeHeadWith_name (force : Forcing) (scope : Scope) (pos at_ : Position)
    (name : String) :
    analyzeHeadWith force scope .key pos [.leaf at_ (.identifier .access name)] =
      Run.deferred (.makeKey (.string name)) at_ (.stringKey name) := by
  show (analyzeBaseWith force scope .key _ >>= fun base =>
    analyzeSuffixesWith force scope base []) = _
  rw [analyzeBaseWith.eq_def]
  funext ctx s
  rw [Run.bind_apply]
  dsimp only [analyzeLeafWith]
  rw [if_pos (show Shape.isKey .key = true from rfl)]
  show analyzeSuffixesWith _ _ _ [] ctx _ = _
  rw [analyzeSuffixesWith.eq_def]
  rfl

theorem analyzeHeadWith_builtin (force : Forcing) (scope : Scope) {pos at_ next : Position}
    {name : String} {builtin : Builtin} (named : Builtin.ofName? name = some builtin) :
    analyzeHeadWith force scope .key pos [.leaf at_ (.identifier .builtin Builtin.namespaceName),
      .leaf next (.identifier .access name)] = (do
        let _ ← Run.push .comptimeOnly at_
        Run.deferred (.makeKey builtin.key) next (.ofKey builtin.key)) := by
  show (analyzeBaseWith force scope .unknown _ >>= fun base =>
    analyzeSuffixesWith force scope base [.leaf next (.identifier .access name)]) = _
  rw [analyzeBaseWith.eq_def]
  funext ctx s
  rw [Run.bind_apply]
  dsimp only [analyzeLeafWith]
  rw [if_pos rfl]
  show analyzeSuffixesWith _ _ _ [_] ctx _ = _
  have read : analyzeSuffixWith force scope (.ofNamespace .builtin)
      (.leaf next (.identifier .access name)) =
        Run.deferred (.makeKey builtin.key) next (.ofKey builtin.key) := by
    show Run.holding _ (readStringWith force .builtin next name) = _
    unfold readStringWith
    rw [named]
    rfl
  rw [analyzeSuffixesWith_cons, read]
  show analyzeSuffixesWith _ _ _ [] ctx _ = _
  rw [analyzeSuffixesWith.eq_def]
  rfl

/-- If the line declares a field, its key is written out. -/
def Line.WritesKey (line : Line) : Prop :=
  ∀ sides, twoSided? ChainTag.bindsField line.pos line.items = .ok (some sides) →
    (writtenKey? (solid sides.leftItems)).isSome = true

/-- What the lines of a body are read with: how far they may look, the scope that they stand in, and
the instruction that their fields are appended to. -/
structure BodyReading where
  depth : Nat
  scope : Scope
  list : InstrRef
  ctx : Context

namespace BodyReading

variable (r : BodyReading)

def key (sides : TwoSided) (s : State) : Outcome Analysis × State :=
  analyzeWith (forceWithin r.depth) r.scope .key sides.left.pos sides.leftItems r.ctx s

/-- The field that a line declares where it is read, if what stands before its mark is a key that is
known. -/
def entry? (s : State) (line : Line) : Option FieldEntry :=
  match twoSided? ChainTag.bindsField line.pos line.items with
  | .ok (some sides) =>
    match (r.key sides s).1 with
    | .done a => a.shape.key?.map fun key => ⟨key, sides.thunk r.scope, sides.mark.pos⟩
    | _ => none
  | _ => none

def line (s : State) (own : Line) : Outcome Unit × State :=
  declareLineWith (forceWithin r.depth) r.scope r.list own r.ctx s

def next (s : State) (own : Line) : State :=
  (Run.attempt (declareLineWith (forceWithin r.depth) r.scope r.list own) r.ctx s).2

def after (s : State) (lines : List Line) : State := lines.foldl r.next s

def entries : State → List Line → List FieldEntry
  | _, [] => []
  | s, own :: rest => (r.entry? s own).toList ++ entries (r.next s own) rest

theorem entries_append (s : State) (before rest : List Line) :
    r.entries s (before ++ rest) = r.entries s before ++ r.entries (r.after s before) rest := by
  induction before generalizing s with
  | nil => rfl
  | cons own before ih => simp [entries, ih, after, List.append_assoc]

variable {r} {s : State}

theorem next_of_failed {own : Line} {d : Diagnostic} (h : (r.line s own).1 = .failed d) :
    r.next s own = { (r.line s own).2 with store := (r.line s own).2.store.record [d] } := by
  unfold next
  rw [Run.attempt_eq_tell]
  rw [line] at h ⊢
  generalize declareLineWith (forceWithin r.depth) r.scope r.list own r.ctx s = ended at h ⊢
  obtain ⟨o, mid⟩ := ended
  cases h
  rfl

theorem next_block (own : Line) : (r.next s own).block = (r.line s own).2.block := by
  unfold next
  rw [Run.attempt_eq_tell, line]
  rcases declareLineWith (forceWithin r.depth) r.scope r.list own r.ctx s with
    ⟨_ | _ | _, mid⟩ <;> rfl

theorem next_shaped (shaped : s.store.Shaped) (own : Line) : (r.next s own).store.Shaped :=
  .attempt (Moment.shaped ⟨r.depth, .line r.scope r.list own, r.ctx, s⟩ shaped).store

theorem expression_filling (shaped : s.store.Shaped) (filling : Filling r.list s.block)
    (slot : Shape) (pos : Position) (nodes : List Tree) :
    let ended := analyzeWith (forceWithin r.depth) r.scope slot pos nodes r.ctx s
    Filling r.list ended.2.block ∧ ended.2.block.entries r.list = s.block.entries r.list := by
  intro ended
  have shapely : Shapely True Op.alone Analysis.Shaped s ended :=
    Moment.shaped ⟨r.depth, .expression r.scope slot pos nodes, r.ctx, s⟩ shaped
  obtain ⟨more, block, alone⟩ := shapely.block trivial
  rw [block]
  exact filling.more alone

theorem declareUnder_appends {mid : State} {sides : TwoSided} {a : Analysis} {key : Key}
    (filling : Filling r.list mid.block) (good : a.Shaped mid.block)
    (narrow : a.shape.key? = some key) :
    ∃ last, declareUnder r.scope r.list sides a r.ctx mid = (.done (), last) ∧
      last.store = mid.store ∧ Filling r.list last.block ∧
      last.block.entries r.list =
        mid.block.entries r.list ++ [⟨key, sides.thunk r.scope, sides.mark.pos⟩] := by
  obtain ⟨keyRef, withKey, -, store, ⟨more, block, ops⟩, here, ⟨at_, made⟩, declared⟩ :=
    good.declareField narrow r.scope r.list sides r.ctx
  have alone : ∀ instr ∈ more, instr.op.alone = true := fun instr hm => by rw [ops instr hm]; rfl
  obtain ⟨keyed, same⟩ := filling.more alone
  rw [← block] at keyed same
  have lone : (Op.captureAst (sides.thunk r.scope)).alone = true := rfl
  obtain ⟨kept, unchanged⟩ := keyed.push lone sides.right.pos
  have own : keyRef.block = withKey.block.id := by rw [block, here]
  have early := (Array.getElem?_eq_some_iff.1 made).1
  have still : (withKey.block.push (.captureAst (sides.thunk r.scope))
      sides.right.pos).2.instrs.toList[keyRef.index]? = some ⟨.makeKey key, at_⟩ := by
    rw [Array.getElem?_toList]
    exact (Array.getElem?_push_lt early).trans (Array.getElem?_eq_getElem early ▸ made)
  have source : (withKey.block.push (.captureAst (sides.thunk r.scope))
      sides.right.pos).2.instrs.toList[withKey.block.next.index]? =
        some ⟨.captureAst (sides.thunk r.scope), sides.right.pos⟩ := by
    rw [Array.getElem?_toList]
    exact Array.getElem?_push_size
  obtain ⟨filled, entries⟩ := kept.append own still rfl source sides.mark.pos
  have ended := congrFun (congrFun (declareUnder_of_key r.scope r.list sides narrow) r.ctx) mid
  exact ⟨_, ended.trans declared, store, filled, entries.trans (by rw [unchanged, same])⟩

theorem declareUnder_fails {sides : TwoSided} {a : Analysis} (wide : a.shape.key? = none)
    (mid : State) :
    ∃ d, declareUnder r.scope r.list sides a r.ctx mid = (.failed d, mid) := by
  unfold declareUnder
  cases shape : a.shape with
  | stringKey | symbolKey =>
    rw [shape] at wide
    cases wide
  | _ => exact ⟨_, rfl⟩

/-- A line that declares no field appends none, whatever it comes to; one that declares a field
appends it, and has done nothing else since it has worked out the key. -/
theorem line_appends (shaped : s.store.Shaped) (filling : Filling r.list s.block) (own : Line) :
    Filling r.list (r.line s own).2.block ∧
      (r.line s own).2.block.entries r.list = s.block.entries r.list ++ (r.entry? s own).toList ∧
      ((r.entry? s own).isSome = true → ∃ sides,
        twoSided? ChainTag.bindsField own.pos own.items = .ok (some sides) ∧
        (r.line s own).1 = .done () ∧ (r.line s own).2.store = (r.key sides s).2.store) := by
  unfold line entry?
  rw [declareLineWith_apply]
  cases read : twoSided? ChainTag.bindsField own.pos own.items with
  | error d => exact ⟨filling, (List.append_nil _).symm, fun h => by cases h⟩
  | ok sides? =>
    cases sides? with
    | none =>
      obtain ⟨filled, same⟩ := expression_filling shaped filling .void own.pos own.items
      dsimp only
      rw [Run.bind_apply]
      generalize analyzeWith (forceWithin r.depth) r.scope .void own.pos own.items r.ctx s = ended
        at filled same
      rcases ended with ⟨_ | _ | _, mid⟩ <;>
        exact ⟨filled, same.trans (List.append_nil _).symm, fun h => by cases h⟩
    | some sides =>
      obtain ⟨filled, same⟩ := expression_filling shaped filling .key sides.left.pos sides.leftItems
      have good : ∀ a, (r.key sides s).1 = .done a → a.Shaped (r.key sides s).2.block :=
        (Moment.shaped ⟨r.depth, .expression r.scope .key sides.left.pos sides.leftItems, r.ctx, s⟩
          shaped).good trivial
      change Filling r.list (r.key sides s).2.block at filled
      change (r.key sides s).2.block.entries r.list = s.block.entries r.list at same
      dsimp only
      rw [Run.bind_apply]
      change _ ∧ _ ∧ (_ → ∃ sides', _ ∧ _ ∧ _ = (r.key sides' s).2.store)
      rw [show analyzeWith (forceWithin r.depth) r.scope .key sides.left.pos sides.leftItems
        r.ctx s = r.key sides s from rfl]
      rcases keyed : r.key sides s with ⟨a | d | _, mid⟩ <;> rw [keyed] at filled same good
      · dsimp only at filled same good ⊢
        cases narrow : a.shape.key? with
        | none =>
          obtain ⟨d, failed⟩ := @declareUnder_fails r sides a narrow mid
          rw [failed]
          exact ⟨filled, same.trans (List.append_nil _).symm, fun h => by cases h⟩
        | some key =>
          obtain ⟨last, declared, store, filled, entries⟩ :=
            declareUnder_appends filled (good a rfl) narrow
          rw [declared]
          exact ⟨filled, by rw [entries, same]; rfl,
            fun _ => ⟨sides, rfl, rfl, by rw [store, keyed]⟩⟩
      · exact ⟨filled, same.trans (List.append_nil _).symm, fun h => by cases h⟩
      · exact ⟨filled, same.trans (List.append_nil _).symm, fun h => by cases h⟩

theorem key_of_written {sides : TwoSided} {key : Key}
    (written : writtenKey? (solid sides.leftItems) = some key) (s : State) :
    ∃ mid at_, (mid = s ∨ ∃ start, mid = s.pushed .comptimeOnly start) ∧
      r.key sides s =
        (.done (.deferred mid.block.next (.ofKey key)), mid.pushed (.makeKey key) at_) := by
  unfold BodyReading.key
  rw [analyzeWith_of_ne_ast _ _ (by simp)]
  unfold writtenKey? at written
  split at written
  · next pos name left =>
    cases written
    exact ⟨s, pos, Or.inl rfl, by rw [left, analyzeHeadWith_name]; rfl⟩
  · next pos own at_ name left =>
    split at written
    · next builtin =>
      obtain ⟨found, named, rfl⟩ := Option.map_eq_some_iff.1 written
      exact ⟨s.pushed .comptimeOnly pos, at_, Or.inr ⟨pos, rfl⟩,
        by rw [left, builtin, analyzeHeadWith_builtin _ _ named]; rfl⟩
    · cases written
  · cases written

theorem entry?_of_written {own : Line} {sides : TwoSided} {key : Key}
    (read : twoSided? ChainTag.bindsField own.pos own.items = .ok (some sides))
    (written : writtenKey? (solid sides.leftItems) = some key) (s : State) :
    r.entry? s own = some ⟨key, sides.thunk r.scope, sides.mark.pos⟩ := by
  obtain ⟨mid, at_, -, done⟩ := key_of_written (r := r) written s
  unfold entry?
  rw [read]
  dsimp only
  rw [done]
  dsimp only [Analysis.deferred]
  rw [Shape.key?_ofKey]
  rfl

/-- Lines whose keys are written out declare the same fields wherever they are read. -/
theorem entries_of_written {lines : List Line} (written : ∀ own ∈ lines, own.WritesKey)
    (s t : State) : r.entries t lines = r.entries s lines := by
  induction lines generalizing s t with
  | nil => rfl
  | cons own rest ih =>
    have same : r.entry? t own = r.entry? s own := by
      cases read : twoSided? ChainTag.bindsField own.pos own.items with
      | error d =>
        unfold entry?
        rw [read]
      | ok sides? =>
        cases sides? with
        | none =>
          unfold entry?
          rw [read]
        | some sides =>
          obtain ⟨key, known⟩ := Option.isSome_iff_exists.1 (written own List.mem_cons_self sides read)
          rw [entry?_of_written read known t, entry?_of_written read known s]
    rw [entries, entries, same,
      ih (fun other inside => written other (List.mem_cons_of_mem _ inside))
        (r.next s own) (r.next t own)]

theorem entry?_of_failed (shaped : s.store.Shaped) (filling : Filling r.list s.block) {own : Line}
    {d : Diagnostic} (h : (r.line s own).1 = .failed d) : r.entry? s own = none := by
  cases entry : r.entry? s own with
  | none => rfl
  | some found =>
    obtain ⟨sides, -, done, -⟩ := (line_appends shaped filling own).2.2 (by rw [entry]; rfl)
    rw [h] at done
    cases done

theorem after_appends (shaped : s.store.Shaped) (filling : Filling r.list s.block)
    (lines : List Line) :
    (r.after s lines).store.Shaped ∧ Filling r.list (r.after s lines).block ∧
      (r.after s lines).block.entries r.list = s.block.entries r.list ++ r.entries s lines := by
  induction lines generalizing s with
  | nil => exact ⟨shaped, filling, (List.append_nil _).symm⟩
  | cons own rest ih =>
    obtain ⟨filled, entries, -⟩ := line_appends shaped filling own
    rw [← next_block] at filled entries
    obtain ⟨later, last, all⟩ := ih (next_shaped shaped own) filled
    refine ⟨later, last, all.trans ?_⟩
    rw [entries, List.append_assoc]
    rfl

theorem lines_apply (s : State) (lines : List Line)
    (ends : (declareLinesWith (forceWithin r.depth) r.scope r.list lines r.ctx s).1 ≠ .exhausted) :
    declareLinesWith (forceWithin r.depth) r.scope r.list lines r.ctx s =
      (.done (), r.after s lines) := by
  induction lines generalizing s with
  | nil =>
    rw [declareLinesWith.eq_def]
    rfl
  | cons own rest ih =>
    have state : r.next s own =
      (Run.attempt (declareLineWith (forceWithin r.depth) r.scope r.list own) r.ctx s).2 := rfl
    rw [declareLinesWith.eq_def] at ends ⊢
    dsimp only at ends ⊢
    rw [Run.bind_apply] at ends ⊢
    rw [show r.after s (own :: rest) = r.after (r.next s own) rest from rfl, state]
    rw [Run.attempt_eq_tell] at ends ⊢
    generalize declareLineWith (forceWithin r.depth) r.scope r.list own r.ctx s = ended at ends ⊢
    rcases ended with ⟨_ | d | _, mid⟩
    · exact ih _ ends
    · exact ih _ ends
    · exact (ends rfl).elim

/-- What lines declare depends on the namespaces that there are, and on nothing else. -/
theorem entries_apart {t : State} (h : s.Apart t) (lines : List Line) :
    r.entries t lines = r.entries s lines := by
  induction lines generalizing s t with
  | nil => rfl
  | cons own rest ih =>
    have nexts : (r.next s own).Apart (r.next t own) :=
      (RunsApart.attempt trivial (declareLineWith_apart h own)).state
    have same : r.entry? t own = r.entry? s own := by
      unfold entry?
      cases twoSided? ChainTag.bindsField own.pos own.items with
      | error d => rfl
      | ok sides? =>
        cases sides? with
        | none => rfl
        | some sides =>
          have keys : RunsApart Analysis.Apart (r.key sides s) (r.key sides t) :=
            Moment.aloof
              ⟨r.depth, .expression r.scope .key sides.left.pos sides.leftItems, r.ctx, s⟩ t h
          dsimp only
          rcases keys.outcome.cases with ⟨a, b, ha, hb, alike⟩ | ⟨⟨d, ha⟩, d', hb⟩ | ⟨ha, hb⟩ <;>
            rw [ha, hb]
          dsimp only
          rw [alike.shape]
    rw [entries, entries, same, ih nexts]

theorem next_told (shaped : s.store.Shaped) (own : Line) :
    s.store.diagnostics <+: (r.next s own).store.diagnostics := by
  have spent : Spends r.ctx.forcing (Task.line r.scope r.list own).among (weightAll own.items)
      (Whole own.items) (fun _ => []) s (r.line s own) :=
    Moment.spends ⟨r.depth, .line r.scope r.list own, r.ctx, s⟩ shaped trivial r.ctx.forcing
      (List.Subset.refl _)
  exact spent.attempt.told

theorem after_told (shaped : s.store.Shaped) (lines : List Line) :
    s.store.diagnostics <+: (r.after s lines).store.diagnostics := by
  induction lines generalizing s with
  | nil => exact List.prefix_refl _
  | cons own rest ih => exact (next_told shaped own).trans (ih (next_shaped shaped own))

theorem entries_congr {t : State} (same : t.store.namespaces = s.store.namespaces)
    (block : t.block.id = s.block.id) (lines : List Line) :
    r.entries t lines = r.entries s lines := by
  rcases Nat.le_total s.store.nextBlock t.store.nextBlock with fewer | more
  · obtain ⟨k, next⟩ := Nat.exists_eq_add_of_le fewer
    exact entries_apart ⟨⟨k, same, next⟩, block⟩ lines
  · obtain ⟨k, next⟩ := Nat.exists_eq_add_of_le more
    exact (entries_apart ⟨⟨k, same.symm, next⟩, block.symm⟩ lines).symm

/-- What a line fails with is told, and the fields are those of the lines before it and after it; it
leaves these nothing but the namespaces as they are then. -/
theorem failed_line (shaped : s.store.Shaped) (filling : Filling r.list s.block)
    (before : List Line) (own : Line) (rest : List Line) {d : Diagnostic}
    (failed : (r.line (r.after s before) own).1 = .failed d) :
    let here := r.after s before
    let next := r.next here own
    next.store.diagnostics = (r.line here own).2.store.diagnostics ++ [d] ∧
      next.store.diagnostics <+: (r.after s (before ++ own :: rest)).store.diagnostics ∧
      r.entries s (before ++ own :: rest) = r.entries s before ++ r.entries next rest ∧
      ∀ t, t.store.namespaces = next.store.namespaces → t.block.id = here.block.id →
        r.entries t rest = r.entries next rest := by
  intro here next
  obtain ⟨shaped, filling, -⟩ := after_appends shaped filling before
  obtain ⟨filled, -, -⟩ := line_appends shaped filling own
  have number : next.block.id = here.block.id := by
    rw [show next.block = _ from next_block own]
    exact filled.target.1.symm.trans filling.target.1
  have lasts : r.after s (before ++ own :: rest) = r.after next rest := List.foldl_append
  refine ⟨?_, ?_, ?_, fun t same block => entries_congr same (block.trans number.symm) rest⟩
  · rw [show next = _ from next_of_failed failed]
    rfl
  · rw [lasts]
    exact after_told (next_shaped shaped own) rest
  · rw [entries_append, entries, entry?_of_failed shaped filling failed]
    rfl

end BodyReading

def State.reading (s : State) (depth : Nat) (ctx : Context) (outer : Scope) : BodyReading :=
  ⟨depth, s.store.size :: outer, s.fieldList, ctx.holding [s.store.size]⟩

theorem State.declaring_filling (s : State) (ctx : Context) (outer : Scope) (pos : Position)
    (body : Body) (found : List Diagnostic) :
    Filling s.fieldList (s.declaring ctx outer pos body found).block ∧
      (s.declaring ctx outer pos body found).block.entries s.fieldList = [] := by
  have nothing : Accepted s.store.nextBlock [] := fun before instr rest split => by
    cases before <;> cases split
  have accepted : Accepted s.store.nextBlock ([] ++ [⟨.nsInit, pos⟩]) :=
    nothing.more (by simp [Op.alone, Op.operands])
  exact ⟨⟨accepted, rfl, ⟨.nsInit, pos⟩, rfl, rfl⟩, rfl⟩

theorem declareWith_done {depth : Nat} {outer : Scope} {pos : Position} {nodes : List Tree}
    {ctx : Context} {s : State} {body : Body} {found : List Diagnostic}
    (read : Body.read pos nodes = .ok (body, found))
    (shaped : (s.declaring ctx outer pos body found).store.Shaped)
    (ends : (declareLinesWith (forceWithin depth) (s.store.size :: outer) s.fieldList body.lines
      (ctx.holding [s.store.size]) (s.declaring ctx outer pos body found)).1 ≠ .exhausted) :
    let r := s.reading depth ctx outer
    let start := s.declaring ctx outer pos body found
    let last := r.after start body.lines
    ∃ told, declareWith (forceWithin depth) outer pos nodes ctx s = (.done s.store.size,
      ⟨(last.told r.ctx told).store.finish s.store.size
        ⟨false, firstOfEach (r.entries start body.lines)⟩, s.block⟩) := by
  intro r start last
  obtain ⟨filling, none_yet⟩ : Filling r.list start.block ∧ start.block.entries r.list = [] :=
    s.declaring_filling ctx outer pos body found
  obtain ⟨-, filled, entries⟩ := BodyReading.after_appends shaped filling body.lines
  rw [none_yet, List.nil_append] at entries
  have all : declareLinesWith (forceWithin depth) r.scope r.list body.lines r.ctx start =
      (.done (), last) := BodyReading.lines_apply (r := r) start body.lines ends
  obtain ⟨told, ran⟩ : ∃ told, fieldsOf pos r.list r.ctx last =
      (.done ⟨false, firstOfEach (last.block.entries r.list)⟩, last.told r.ctx told) :=
    ⟨_, filled.fieldsOf pos r.ctx⟩
  have declared : (do
      declareLinesWith (forceWithin depth) r.scope r.list body.lines
      fieldsOf pos r.list : Run Registry) r.ctx start =
        (.done ⟨false, firstOfEach (r.entries start body.lines)⟩, last.told r.ctx told) := by
    rw [Run.bind_apply, all]
    dsimp only
    rw [ran, entries]
  refine ⟨told, ?_⟩
  rw [declareWith_apply, read]
  dsimp only
  rw [show (do
    declareLinesWith (forceWithin depth) (s.store.namespaces.size :: outer) s.fieldList body.lines
    fieldsOf pos s.fieldList : Run Registry) (ctx.holding [s.store.namespaces.size])
      (s.declaring ctx outer pos body found) = _ from declared]
  rfl

theorem Moment.Covered.declares {depth : Nat} {outer : Scope} {pos : Position} {nodes : List Tree}
    {ctx : Context} {s : State} (covered : Moment.Covered ⟨depth, .body outer pos nodes, ctx, s⟩) :
    ∃ after, declareWith (forceWithin depth) outer pos nodes ctx s =
      (.done s.store.size, after) := by
  obtain ⟨body, found, read⟩ := covered.reads
  have inner := Leads.covered (.lines read) covered
  obtain ⟨told, ended⟩ := declareWith_done read inner.shaped inner.ends
  exact ⟨_, ended⟩

/-- Whatever was asked for before, of however many texts, and in whatever scope that came of it:
reading a body comes to its end, with a namespace that has the first field of each key that its
lines declare, in their order, and gets no others. A line declares a field if what stands before its
mark is a key that is known where the line is read, as one that is written out always is; then what
stands after the mark is kept as it stands, and nothing more is done. What any line fails with is
told, and stays told. The fields are then those of the lines before it and of the lines after it,
and of all that it has done before it failed these depend on the namespaces that it leaves, and what
was found out about them, and on nothing else. If it leaves the namespaces as they were, or if the
lines after it write their keys out, then the fields are those of the body without it. -/
theorem declareWith_registry {depth : Nat} {outer : Scope} {pos : Position} {nodes : List Tree}
    {ctx : Context} {s : State} (made : Made ⟨depth, .body outer pos nodes, ctx, s⟩) :
    ∃ lines body found after,
      bodyLines pos nodes = .ok lines ∧ Body.read pos nodes = .ok (body, found) ∧
      body.lines = lines.filter Line.isOther ∧
      declareWith (forceWithin depth) outer pos nodes ctx s = (.done s.store.size, after) ∧
      let r := s.reading depth ctx outer
      let start := s.declaring ctx outer pos body found
      let n := after.store.get s.store.size
      n.pos = pos ∧ n.outer = outer ∧ n.definitions = body.definitions ∧
      n.fields? = some ⟨true, firstOfEach (r.entries start body.lines)⟩ ∧
      (∀ own sides key, twoSided? ChainTag.bindsField own.pos own.items = .ok (some sides) →
        writtenKey? (solid sides.leftItems) = some key →
        ∀ t, r.entry? t own = some ⟨key, sides.thunk r.scope, sides.mark.pos⟩) ∧
      ∀ before own rest, body.lines = before ++ own :: rest →
        let here := r.after start before
        let next := r.next here own
        ((r.entry? here own).isSome = true → ∃ sides,
          twoSided? ChainTag.bindsField own.pos own.items = .ok (some sides) ∧
          (r.line here own).1 = .done () ∧ (r.line here own).2.store = (r.key sides here).2.store) ∧
        ∀ d, (r.line here own).1 = .failed d →
          next.store.diagnostics = (r.line here own).2.store.diagnostics ++ [d] ∧
          next.store.diagnostics <+: after.store.diagnostics ∧
          r.entries start body.lines = r.entries start before ++ r.entries next rest ∧
          (∀ t, t.store.namespaces = next.store.namespaces → t.block.id = here.block.id →
            r.entries t rest = r.entries next rest) ∧
          (next.store.namespaces = here.store.namespaces ∨ (∀ line ∈ rest, line.WritesKey) →
            r.entries start body.lines = r.entries start (before ++ rest)) := by
  have covered := made.covered
  obtain ⟨body, found, read⟩ := covered.reads
  obtain ⟨lines, split, kept⟩ := Body.read_lines read
  let r := s.reading depth ctx outer
  let start := s.declaring ctx outer pos body found
  have inner : Moment.Covered ⟨depth, .lines r.scope r.list body.lines, r.ctx, start⟩ :=
    Leads.covered (.lines read) covered
  have shaped : start.store.Shaped := inner.shaped
  have filling : Filling r.list start.block := (s.declaring_filling ctx outer pos body found).1
  obtain ⟨told, ended⟩ := declareWith_done read shaped inner.ends
  have last : declareLinesWith (forceWithin depth) r.scope r.list body.lines r.ctx start =
      (.done (), r.after start body.lines) :=
    BodyReading.lines_apply (r := r) start body.lines inner.ends
  have learns : start.store.Learns (r.after start body.lines).store := by
    have lines := Moment.learns ⟨depth, .lines r.scope r.list body.lines, r.ctx, start⟩
    rwa [show Moment.run ⟨depth, .lines r.scope r.list body.lines, r.ctx, start⟩ = _ from last]
      at lines
  have begun : s.store.size < start.store.size := by
    rw [show start.store.size = s.store.size + 1 from Store.size_begin _ _ _ _]
    exact Nat.lt_succ_self _
  have own := learns.each s.store.size begun
  rw [show start.store.get s.store.size = _ from s.declaring_get ctx outer pos body found] at own
  refine ⟨lines, body, found, _, split, read, kept, ended, ?_⟩
  have finished : ((((r.after start body.lines).told r.ctx told).store.finish s.store.size
      ⟨false, firstOfEach (r.entries start body.lines)⟩).get s.store.size) =
        { (r.after start body.lines).store.get s.store.size with
          fields? := some ⟨true, firstOfEach (r.entries start body.lines)⟩ } := by
    rw [Store.finish, Store.get_modify, if_pos ⟨rfl, Nat.lt_of_lt_of_le begun learns.size⟩]
    rfl
  dsimp only
  rw [show s.reading depth ctx outer = r from rfl,
    show s.declaring ctx outer pos body found = start from rfl, finished]
  refine ⟨own.pos, own.outer, own.definitions, rfl,
    fun _ _ _ sides written => BodyReading.entry?_of_written sides written,
    fun before line rest parts => ?_⟩
  obtain ⟨shaped', filling', -⟩ := BodyReading.after_appends shaped filling before
  refine ⟨(BodyReading.line_appends shaped' filling' line).2.2, fun d failed => ?_⟩
  obtain ⟨tells, stays, fields, alike⟩ :=
    BodyReading.failed_line shaped filling before line rest failed
  rw [← parts] at stays fields
  refine ⟨tells, stays.trans (List.prefix_append _ _), fields, alike, fun apart => ?_⟩
  rw [fields, BodyReading.entries_append]
  rcases apart with unchanged | written
  · rw [← alike _ unchanged.symm rfl]
  · rw [BodyReading.entries_of_written written]

/-- Between two fields of one key stands a line that fails; the first of the two is kept. -/
theorem declareWith_registry_failing :
    let nodes := (tokenize "t.cvl" ".a := 1\n.b c := 2\n.a := 3".toList).nodes
    ∃ after entries,
      declare [] (.start "t.cvl") nodes .start (.opening []) = (.done 0, after) ∧
      (after.store.get 0).fields? = some ⟨true, entries⟩ ∧
      entries.map (·.key.field) = [.string "a"] ∧ after.store.diagnostics.length = 2 := by
  intro nodes
  have made : Made ⟨_, .body [] (.start "t.cvl") nodes, .start, .opening []⟩ :=
    ⟨_, .start [] _, .declare ⟨"t.cvl", _, Or.inl rfl⟩ (fun _ h => by cases h), .refl⟩
  obtain ⟨_, _, _, after, -, -, -, done, -, -, -, fields, -⟩ := declareWith_registry made
  have ended : declare [] (.start "t.cvl") nodes .start (.opening []) = (.done 0, after) := done
  have found : let last := (declare [] (.start "t.cvl") nodes .start (.opening [])).2.store
      (last.get 0).fields?.map Registry.keys = some [.string "a"] ∧
        last.diagnostics.length = 2 := by
    decide +kernel
  rw [ended] at found
  refine ⟨after, _, ended, fields, ?_, found.2⟩
  have keys := found.1
  rw [show (after.store.get 0).fields? = _ from fields] at keys
  exact Option.some.inj keys

def BodyReading.fails (r : BodyReading) (s : State) (own : Line) : Bool :=
  match (r.line s own).1 with
  | .failed _ => true
  | _ => false

theorem BodyReading.failed_of_fails {r : BodyReading} {s : State} {own : Line}
    (h : r.fails s own = true) : ∃ d, (r.line s own).1 = .failed d := by
  unfold fails at h
  split at h
  · next d failed => exact ⟨d, failed⟩
  · cases h

/-- What a line has found out stays found when it fails, and so another line can lose its field.
Here the first line fails after it has found that `x` stands for the key `.a`. With that, the inner
namespace of the last line has a field of this key before the one that gives `#builtin.main`. -/
theorem failed_line_decides :
    let nodes := (tokenize "t.cvl"
      "x :: .a\nns [x := 1].q\nns [ns [.k := x].k := .z\n.a := #builtin.main].a := 1".toList).nodes
    let s := State.opening []
    let r := s.reading (s.store.bindingBound + weightAll nodes + 1) .start []
    ∃ body found own other d,
      Body.read (.start "t.cvl") nodes = .ok (body, found) ∧ body.lines = [own, other] ∧
      let start := s.declaring .start [] (.start "t.cvl") body found
      (r.line start own).1 = .failed d ∧
      (r.entries start [other]).map (·.key.field) = [.symbol .main] ∧
      r.entries start [own, other] = [] ∧
      ((declare [] (.start "t.cvl") nodes .start s).2.store.get 0).fields?.map Registry.keys =
        some [] := by
  intro nodes s r
  have closed : ((declare [] (.start "t.cvl") nodes .start s).2.store.get 0).fields?.map
      Registry.keys = some [] := by decide +kernel
  have tried : (Body.read (.start "t.cvl") nodes).toOption.any (fun split =>
      let start := s.declaring .start [] (.start "t.cvl") split.1 split.2
      split.1.lines.length == 2 && split.1.lines.head?.any (r.fails start) &&
        (r.entries start split.1.lines.tail).map (·.key.field) == [.symbol .main] &&
        (r.entries start split.1.lines).isEmpty) = true := by decide +kernel
  cases read : Body.read (.start "t.cvl") nodes with
  | error d =>
    rw [read] at tried
    cases tried
  | ok both =>
    obtain ⟨body, found⟩ := both
    rw [read] at tried
    simp only [Except.toOption, Option.any_some, Bool.and_eq_true, beq_iff_eq,
      List.isEmpty_iff] at tried
    obtain ⟨⟨⟨two, fails⟩, alone⟩, together⟩ := tried
    obtain ⟨own, other, lines⟩ := List.length_eq_two.1 two
    rw [lines] at fails alone together
    obtain ⟨d, failed⟩ := BodyReading.failed_of_fails fails
    exact ⟨body, found, own, other, d, rfl, lines, failed, alone, together, closed⟩

end NamespaceLang

import NamespaceLang.Proofs.Instr.Cells
import NamespaceLang.Proofs.Instr.Declared
import NamespaceLang.Proofs.Instr.Evaluation
import NamespaceLang.Analysis.Run
import Mathlib.Data.List.Induction

/-!
# What running a block comes to

A block can be run if and only if it has no call and no break, and every
instruction that appends a field names three earlier ones of the same block of
the right kinds. What its instructions give can then be read off the block at
once: a namespace that is begun ends up with the first field appended to it under
each key, in the order of the instructions, and each later one under a key that
is taken is told about. Where the pass stops, all that was told is about the
instructions before.
-/

set_option autoImplicit false

namespace NamespaceLang

/-- The entries that have no earlier one of the same key. -/
def firstOfEach : List FieldEntry → List FieldEntry
  | [] => []
  | entry :: rest =>
    entry :: (firstOfEach rest).filter fun later => later.key.field ≠ entry.key.field

theorem find?_firstOfEach (key : FieldKey) (entries : List FieldEntry) :
    (firstOfEach entries).find? (·.key.field = key) = entries.find? (·.key.field = key) := by
  induction entries with
  | nil => rfl
  | cons entry rest ih =>
    rw [firstOfEach, List.find?_cons, List.find?_cons]
    by_cases own : entry.key.field = key
    · simp [own]
    · simp only [own, decide_false]
      rw [← ih, List.find?_filter]
      congr 1
      funext later
      by_cases same : later.key.field = key
      · simp [same, Ne.symm own]
      · simp [same]

theorem firstOfEach_concat (entries : List FieldEntry) (last : FieldEntry) :
    firstOfEach (entries ++ [last]) =
      match entries.find? (·.key.field = last.key.field) with
      | some _ => firstOfEach entries
      | none => firstOfEach entries ++ [last] := by
  induction entries with
  | nil => rfl
  | cons entry rest ih =>
    rw [List.cons_append, firstOfEach, ih, List.find?_cons, firstOfEach]
    by_cases own : entry.key.field = last.key.field
    · simp only [own, decide_true]
      cases rest.find? (·.key.field = last.key.field) <;> simp
    · simp only [own, decide_false]
      cases rest.find? (·.key.field = last.key.field) with
      | some _ => rfl
      | none => simp [List.filter_append, Ne.symm own]

/-- What an instruction needs of those before it, to be run. -/
def Op.Accepted (id : BlockId) (before : List Instr) : Op → Prop
  | .nsAppend list key value =>
    Names id before list Op.beginsNamespace ∧ Names id before key Op.makesKey ∧
      Names id before value Op.keepsSource
  | .call .. | .leave _ => False
  | _ => True

def Accepted (id : BlockId) (instrs : List Instr) : Prop :=
  ∀ before instr rest, instrs = before ++ instr :: rest → instr.op.Accepted id before

theorem Accepted.left {id : BlockId} {left right : List Instr} (h : Accepted id (left ++ right)) :
    Accepted id left := by
  intro before instr rest split
  exact h before instr (rest ++ right) (by rw [split]; simp)

theorem accepted_concat {id : BlockId} {before : List Instr} {instr : Instr} :
    Accepted id (before ++ [instr]) ↔ Accepted id before ∧ instr.op.Accepted id before := by
  refine ⟨fun h => ⟨h.left, h before instr [] rfl⟩, fun ⟨each, last⟩ first other rest split => ?_⟩
  rcases List.eq_nil_or_concat rest with rfl | ⟨init, end_, rfl⟩
  · obtain ⟨rfl, same⟩ := List.append_inj' split rfl
    exact List.singleton_inj.1 same ▸ last
  · rw [List.concat_eq_append, ← List.cons_append, ← List.append_assoc] at split
    exact each first other init (List.append_inj' split rfl).1

/-- A field that is appended: the place of the namespace that it goes to, and its entry. -/
structure Appended where
  list : Nat
  entry : FieldEntry

def appended? (before : List Instr) (instr : Instr) : Option Appended :=
  match instr.op with
  | .nsAppend list key value =>
    match before[key.index]?, before[value.index]? with
    | some ⟨.makeKey key, _⟩, some ⟨.captureAst thunk, _⟩ =>
      some ⟨list.index, ⟨key, thunk, instr.pos⟩⟩
    | _, _ => none
  | _ => none

def appendedAfter (before : List Instr) : List Instr → List Appended
  | [] => []
  | instr :: rest => (appended? before instr).toList ++ appendedAfter (before ++ [instr]) rest

theorem appendedAfter_append (before left right : List Instr) :
    appendedAfter before (left ++ right) =
      appendedAfter before left ++ appendedAfter (before ++ left) right := by
  induction left generalizing before with
  | nil => simp [appendedAfter]
  | cons instr left ih => simp [appendedAfter, ih, List.append_assoc]

def appendedTo (place : Nat) (all : List Appended) : List FieldEntry :=
  (all.filter (·.list = place)).map (·.entry)

/-- The result of the instruction at a place, by all the fields that are appended. -/
def Op.result (all : List Appended) (place : Nat) : Op → Value
  | .captureAst thunk => .ast thunk
  | .makeKey key => .key key
  | .nsInit => .aggregate ⟨false, firstOfEach (appendedTo place all)⟩
  | _ => .void

def resultsOf (id : BlockId) (instrs : List Instr) : Results :=
  ⟨id, (instrs.mapIdx fun place instr => instr.op.result (appendedAfter [] instrs) place).toArray⟩

def taken? (earlier : List Appended) (own : Appended) : Option Diagnostic :=
  (earlier.find? fun first => first.list = own.list ∧ first.entry.key.field = own.entry.key.field).map
    fun first => (Diagnostic.error own.entry.pos (.alreadyDeclared own.entry.key.field)).withNote
      first.entry.pos .previousField

/-- What is told about fields that come after earlier ones. -/
def takenAfter (earlier : List Appended) : List Appended → List Diagnostic
  | [] => []
  | own :: rest => (taken? earlier own).toList ++ takenAfter (earlier ++ [own]) rest

theorem takenAfter_append (earlier left right : List Appended) :
    takenAfter earlier (left ++ right) =
      takenAfter earlier left ++ takenAfter (earlier ++ left) right := by
  induction left generalizing earlier with
  | nil => simp [takenAfter]
  | cons own left ih => simp [takenAfter, ih, List.append_assoc]

namespace Results

variable {id : BlockId} {before : List Instr} {instr : Instr}

theorem resultsOf_get (id : BlockId) (instrs : List Instr) (place : Nat) :
    (resultsOf id instrs).values[place]? =
      instrs[place]?.map fun instr => instr.op.result (appendedAfter [] instrs) place := by
  simp [resultsOf]

theorem operand_eq_ok_iff {r : Results} {pos : Position} {ref : InstrRef} {value : Value} :
    r.operand pos ref = .ok value ↔ ref.block = r.block ∧ r.values[ref.index]? = some value := by
  unfold operand
  dsimp only
  by_cases own : ref.block = r.block
  · by_cases late : r.values.size ≤ ref.index
    · simp [own, late]
    · simp only [own, ne_eq, not_true, if_false, if_neg late, true_and]
      cases r.values[ref.index]? <;> simp
  · simp [own]

theorem step_error {r : Results} {d : Diagnostic} (h : r.step instr = .error d) :
    ∃ cause, d = .unreachable instr.pos cause := by
  have operands : ∀ {pos ref d}, r.operand pos ref = .error d → ∃ cause, d = .unreachable pos cause := by
    intro pos ref d h
    unfold operand at h
    dsimp only at h
    split at h
    · exact ⟨_, (Except.error.inj h).symm⟩
    · split at h
      · exact ⟨_, (Except.error.inj h).symm⟩
      · split at h
        · cases h
        · exact ⟨_, (Except.error.inj h).symm⟩
  obtain ⟨op, pos⟩ := instr
  cases op with
  | nsAppend list key value =>
    cases ha : r.append pos list key value with
    | ok after => simp [step, ha, Except.map] at h
    | error d' =>
      obtain rfl : d' = d := by simpa [step, ha, Except.map] using h
      simp only [append, bind, Except.bind, throw, throwThe, MonadExceptOf.throw, pure,
        Except.pure] at ha
      split at ha
      · next failed => exact operands (Except.error.inj ha ▸ failed)
      · split at ha
        · split at ha
          · next failed => exact operands (Except.error.inj ha ▸ failed)
          · split at ha
            · split at ha
              · next failed => exact operands (Except.error.inj ha ▸ failed)
              · split at ha
                · split at ha
                  · exact ⟨_, (Except.error.inj ha).symm⟩
                  · split at ha <;> cases ha
                · exact ⟨_, (Except.error.inj ha).symm⟩
            · exact ⟨_, (Except.error.inj ha).symm⟩
        · exact ⟨_, (Except.error.inj ha).symm⟩
  | call => exact ⟨_, (Except.error.inj h).symm⟩
  | leave => exact ⟨_, (Except.error.inj h).symm⟩
  | _ => cases h

theorem append_operands {r after : Results} {pos : Position} {list key value : InstrRef}
    {found : List Diagnostic} (h : r.append pos list key value = .ok (after, found)) :
    ∃ registry own thunk, r.operand pos list = .ok (.aggregate registry) ∧
      r.operand pos key = .ok (.key own) ∧ r.operand pos value = .ok (.ast thunk) := by
  simp only [append, bind, Except.bind, throw, throwThe, MonadExceptOf.throw, pure, Except.pure] at h
  split at h
  · cases h
  · next target =>
    split at h
    · split at h
      · cases h
      · next named =>
        split at h
        · split at h
          · cases h
          · next kept =>
            split at h
            · exact ⟨_, _, _, target, named, kept⟩
            · cases h
        · cases h
    · cases h

theorem append_of_operands {r : Results} {pos : Position} {list key value : InstrRef}
    {registry : Registry} {own : Key} {thunk : Thunk} (unlocked : registry.locked = false)
    (target : r.operand pos list = .ok (.aggregate registry))
    (named : r.operand pos key = .ok (.key own)) (kept : r.operand pos value = .ok (.ast thunk)) :
    r.append pos list key value =
      match registry.insert ⟨own, thunk, pos⟩ with
      | .ok registry =>
        .ok ({ r with values := r.values.setIfInBounds list.index (.aggregate registry) }, [])
      | .error first =>
        .ok (r, [(Diagnostic.error pos (.alreadyDeclared own.field)).withNote first.pos
          .previousField]) := by
  simp only [append, target, named, kept, unlocked, bind, Except.bind, pure, Except.pure]
  rfl

theorem operand_namespace {pos : Position} {ref : InstrRef} {registry : Registry} :
    (resultsOf id before).operand pos ref = .ok (.aggregate registry) ↔
      Names id before ref Op.beginsNamespace ∧
        registry = ⟨false, firstOfEach (appendedTo ref.index (appendedAfter [] before))⟩ := by
  rw [operand_eq_ok_iff, resultsOf_get, Names]
  cases before[ref.index]? with
  | none => simp
  | some instr =>
    obtain ⟨op, at_⟩ := instr
    cases op <;> simp [Op.result, Op.beginsNamespace, resultsOf]
    exact fun _ => eq_comm

theorem operand_key {pos : Position} {ref : InstrRef} {key : Key} :
    (resultsOf id before).operand pos ref = .ok (.key key) ↔
      ref.block = id ∧ ∃ at_, before[ref.index]? = some ⟨.makeKey key, at_⟩ := by
  rw [operand_eq_ok_iff, resultsOf_get]
  cases before[ref.index]? with
  | none => simp
  | some instr =>
    obtain ⟨op, at_⟩ := instr
    cases op <;> simp [Op.result, resultsOf]

theorem operand_source {pos : Position} {ref : InstrRef} {thunk : Thunk} :
    (resultsOf id before).operand pos ref = .ok (.ast thunk) ↔
      ref.block = id ∧ ∃ at_, before[ref.index]? = some ⟨.captureAst thunk, at_⟩ := by
  rw [operand_eq_ok_iff, resultsOf_get]
  cases before[ref.index]? with
  | none => simp
  | some instr =>
    obtain ⟨op, at_⟩ := instr
    cases op <;> simp [Op.result, resultsOf]

end Results

theorem names_key {id : BlockId} {before : List Instr} {ref : InstrRef} :
    Names id before ref Op.makesKey ↔
      ref.block = id ∧ ∃ key at_, before[ref.index]? = some ⟨.makeKey key, at_⟩ := by
  refine and_congr Iff.rfl ⟨fun ⟨⟨op, at_⟩, there, made⟩ => ?_, fun ⟨key, at_, there⟩ => ⟨_, there, rfl⟩⟩
  cases op with
  | makeKey key => exact ⟨key, at_, there⟩
  | _ => cases made

theorem names_source {id : BlockId} {before : List Instr} {ref : InstrRef} :
    Names id before ref Op.keepsSource ↔
      ref.block = id ∧ ∃ thunk at_, before[ref.index]? = some ⟨.captureAst thunk, at_⟩ := by
  refine and_congr Iff.rfl ⟨fun ⟨⟨op, at_⟩, there, kept⟩ => ?_, fun ⟨key, at_, there⟩ => ⟨_, there, rfl⟩⟩
  cases op with
  | captureAst thunk => exact ⟨thunk, at_, there⟩
  | _ => cases kept

theorem Results.step_needs {id : BlockId} {before : List Instr} {instr : Instr} {r : Results}
    {found : List Diagnostic} (h : (resultsOf id before).step instr = .ok (r, found)) :
    instr.op.Accepted id before := by
  obtain ⟨op, pos⟩ := instr
  cases op with
  | nsAppend list key value =>
    cases ha : (resultsOf id before).append pos list key value with
    | error d => simp [step, ha, Except.map] at h
    | ok after =>
      obtain ⟨registry, own, thunk, target, named, kept⟩ := append_operands ha
      obtain ⟨here, at_, made⟩ := operand_key.1 named
      obtain ⟨here', at_', source⟩ := operand_source.1 kept
      exact ⟨(operand_namespace.1 target).1, names_key.2 ⟨here, own, at_, made⟩,
        names_source.2 ⟨here', thunk, at_', source⟩⟩
  | call => cases h
  | leave => cases h
  | _ => trivial

theorem appendedTo_concat (place : Nat) (all : List Appended) (own : Appended) :
    appendedTo place (all ++ [own]) =
      if own.list = place then appendedTo place all ++ [own.entry] else appendedTo place all := by
  by_cases here : own.list = place <;> simp [appendedTo, List.filter_append, here]

theorem appendedAfter_concat (before : List Instr) (instr : Instr) :
    appendedAfter [] (before ++ [instr]) =
      appendedAfter [] before ++ (appended? before instr).toList := by
  simp [appendedAfter_append, appendedAfter]

theorem appended?_list {before : List Instr} {instr : Instr} {own : Appended}
    (h : appended? before instr = some own) :
    ∃ list key value, instr.op = .nsAppend list key value ∧ own.list = list.index := by
  unfold appended? at h
  split at h
  · next list key value op =>
    split at h
    · cases h
      exact ⟨list, key, value, op, rfl⟩
    · cases h
  · cases h

theorem Accepted.appended {id : BlockId} {before : List Instr} (h : Accepted id before) :
    ∀ own ∈ appendedAfter [] before, own.list < before.length := by
  induction before using List.reverseRecOn with
  | nil => intro own hm; cases hm
  | append_singleton before instr ih =>
    obtain ⟨each, last⟩ := accepted_concat.1 h
    intro own hm
    rw [List.length_append, List.length_singleton]
    rw [appendedAfter_concat] at hm
    rcases List.mem_append.1 hm with hm | hm
    · exact Nat.lt_succ_of_lt (ih each own hm)
    · obtain ⟨list, key, value, op, same⟩ := appended?_list (Option.mem_toList.1 hm)
      rw [op] at last
      obtain ⟨⟨-, first, there, -⟩, -, -⟩ := last
      rw [same]
      exact Nat.lt_succ_of_lt (List.getElem?_eq_some_iff.1 there).1

theorem Accepted.appendedTo_late {id : BlockId} {before : List Instr} (h : Accepted id before) :
    appendedTo before.length (appendedAfter [] before) = [] := by
  rw [appendedTo, List.map_eq_nil_iff, List.filter_eq_nil_iff]
  intro own hm late
  exact absurd (of_decide_eq_true late) (Nat.ne_of_lt (h.appended own hm))

theorem resultsOf_plain {id : BlockId} {before : List Instr} (h : Accepted id before) {instr : Instr}
    (none_appended : appended? before instr = none) :
    resultsOf id (before ++ [instr]) = (resultsOf id before).push (instr.op.result [] 0) := by
  have same : appendedAfter [] (before ++ [instr]) = appendedAfter [] before := by
    rw [appendedAfter_concat, none_appended]
    simp
  have last : instr.op.result (appendedAfter [] before) before.length = instr.op.result [] 0 := by
    obtain ⟨op, pos⟩ := instr
    cases op with
    | nsInit =>
      show Value.aggregate _ = Value.aggregate _
      rw [h.appendedTo_late]
      rfl
    | _ => rfl
  simp only [resultsOf, Results.push, same, List.mapIdx_append, List.mapIdx_cons, List.mapIdx_nil,
    Nat.zero_add, last]
  simp

theorem Op.result_concat (all : List Appended) (own : Appended) (place : Nat) (op : Op) :
    op.result (all ++ [own]) place =
      if own.list = place ∧ op.beginsNamespace = true then
        .aggregate ⟨false, firstOfEach (appendedTo place all ++ [own.entry])⟩
      else op.result all place := by
  by_cases here : own.list = place <;>
    cases op <;> simp [Op.result, Op.beginsNamespace, appendedTo_concat, here]

theorem resultsOf_appended (id : BlockId) {before : List Instr} {instr : Instr} {own : Appended}
    (appended : appended? before instr = some own)
    (target : ∃ first, before[own.list]? = some first ∧ first.op.beginsNamespace = true) :
    resultsOf id (before ++ [instr]) =
      ({ resultsOf id before with
        values := (resultsOf id before).values.setIfInBounds own.list (.aggregate
          ⟨false, firstOfEach (appendedTo own.list (appendedAfter [] before) ++ [own.entry])⟩) } :
        Results).push .void := by
  obtain ⟨first, there, begins⟩ := target
  obtain ⟨list, key, value, op, -⟩ := appended?_list appended
  have all : appendedAfter [] (before ++ [instr]) = appendedAfter [] before ++ [own] := by
    rw [appendedAfter_concat, appended]
    rfl
  have early := (List.getElem?_eq_some_iff.1 there).1
  suffices (resultsOf id (before ++ [instr])).values = _ by
    exact congrArg (Results.mk id) this
  refine Array.ext_getElem? fun place => ?_
  have size : (resultsOf id before).values.size = before.length := by simp [resultsOf]
  rw [Results.resultsOf_get, all]
  simp only [Array.getElem?_push, Array.size_setIfInBounds, size, Array.getElem?_setIfInBounds,
    Results.resultsOf_get, Op.result_concat]
  by_cases last : place = before.length
  · subst last
    simp [op, Op.result, Op.beginsNamespace]
  · rw [if_neg last]
    by_cases inside : place < before.length
    · rw [List.getElem?_append_left inside]
      by_cases here : own.list = place
      · subst here
        rw [if_pos rfl, if_pos inside, there]
        simp [begins]
      · simp [here]
    · have beyond : (before ++ [instr])[place]? = none := by
        rw [List.getElem?_eq_none_iff, List.length_append, List.length_singleton]
        omega
      have away : own.list ≠ place := by omega
      rw [beyond, List.getElem?_eq_none (Nat.le_of_not_lt inside), if_neg away]
      rfl

namespace Results

variable {id : BlockId} {before : List Instr} {instr : Instr}

theorem taken?_eq (all : List Appended) (own : Appended) :
    taken? all own =
      ((appendedTo own.list all).find? (·.key.field = own.entry.key.field)).map fun first =>
        (Diagnostic.error own.entry.pos (.alreadyDeclared own.entry.key.field)).withNote first.pos
          .previousField := by
  rw [taken?, appendedTo, List.find?_map, List.find?_filter, Option.map_map]
  simp [Function.comp_def]

theorem append_accepted {pos : Position} {list key value : InstrRef} {own : Key} {thunk : Thunk}
    (target : Names id before list Op.beginsNamespace)
    (named : (resultsOf id before).operand pos key = .ok (.key own))
    (kept : (resultsOf id before).operand pos value = .ok (.ast thunk)) :
    (resultsOf id before).append pos list key value =
      .ok ({ resultsOf id before with
        values := (resultsOf id before).values.setIfInBounds list.index (.aggregate
          ⟨false, firstOfEach (appendedTo list.index (appendedAfter [] before) ++
            [⟨own, thunk, pos⟩])⟩) },
        (taken? (appendedAfter [] before) ⟨list.index, own, thunk, pos⟩).toList) := by
  have there : (resultsOf id before).operand pos list = .ok (.aggregate
      ⟨false, firstOfEach (appendedTo list.index (appendedAfter [] before))⟩) :=
    operand_namespace.2 ⟨target, rfl⟩
  rw [append_of_operands rfl there named kept, taken?_eq, firstOfEach_concat,
    Registry.insert, Registry.get?, find?_firstOfEach]
  cases (appendedTo list.index (appendedAfter [] before)).find? (·.key.field = own.field) with
  | none => rfl
  | some first =>
    have same := (operand_eq_ok_iff.1 there).2
    have unchanged : (resultsOf id before).values.setIfInBounds list.index (.aggregate
        ⟨false, firstOfEach (appendedTo list.index (appendedAfter [] before))⟩) =
          (resultsOf id before).values := by
      refine Array.ext_getElem? fun place => ?_
      rw [Array.getElem?_setIfInBounds]
      split
      · next here =>
        subst here
        rw [same, if_pos (Array.getElem?_eq_some_iff.1 same).1]
      · rfl
    simp only [Option.map_some, Option.toList_some, unchanged]

/-- An instruction that has what it needs gives what it should, and tells what it should. -/
theorem step_accepted (h : Accepted id before) (needs : instr.op.Accepted id before) :
    (resultsOf id before).step instr = .ok (resultsOf id (before ++ [instr]),
      takenAfter (appendedAfter [] before) (appended? before instr).toList) := by
  obtain ⟨op, pos⟩ := instr
  cases op with
  | nsAppend list key value =>
    obtain ⟨target, named, kept⟩ := needs
    obtain ⟨here, own, at_, made⟩ := names_key.1 named
    obtain ⟨here', thunk, at_', source⟩ := names_source.1 kept
    have appended : appended? before ⟨.nsAppend list key value, pos⟩ =
        some ⟨list.index, ⟨own, thunk, pos⟩⟩ := by
      simp [appended?, made, source]
    have grown := resultsOf_appended id appended target.2
    have ran : (resultsOf id before).append pos list key value = _ :=
      append_accepted target (operand_key.2 ⟨here, at_, made⟩) (operand_source.2 ⟨here', at_', source⟩)
    simp only [step, ran, grown, appended, Except.map, Option.toList_some, takenAfter,
      List.append_nil]
  | call => exact needs.elim
  | leave => exact needs.elim
  | _ => rw [resultsOf_plain h rfl]; rfl

theorem run_append {r mid : Results} {told : List Diagnostic} {left : List Instr}
    (h : r.run left = (told, .ok mid)) (right : List Instr) :
    r.run (left ++ right) = (told ++ (mid.run right).1, (mid.run right).2) := by
  induction left generalizing r told with
  | nil => cases h; rfl
  | cons instr left ih =>
    rw [run] at h
    rw [List.cons_append, run]
    cases stepped : r.step instr with
    | error d => rw [stepped] at h; cases h
    | ok found =>
      obtain ⟨next, found⟩ := found
      rw [stepped] at h
      dsimp only at h ⊢
      obtain ⟨rfl, ended⟩ := Prod.mk.inj h
      rw [ih (Prod.ext rfl ended)]
      simp

theorem run_accepted {instrs : List Instr} (h : Accepted id instrs) :
    run ⟨id, #[]⟩ instrs =
      (takenAfter [] (appendedAfter [] instrs), .ok (resultsOf id instrs)) := by
  induction instrs using List.reverseRecOn with
  | nil => rfl
  | append_singleton before instr ih =>
    obtain ⟨each, last⟩ := accepted_concat.1 h
    rw [run_append (ih each), run, step_accepted each last, appendedAfter_concat, takenAfter_append]
    simp [run]

theorem run_stops (h : Accepted id before) (lacks : ¬ instr.op.Accepted id before)
    (rest : List Instr) :
    ∃ cause, run ⟨id, #[]⟩ (before ++ instr :: rest) =
      (takenAfter [] (appendedAfter [] before), .error (.unreachable instr.pos cause)) := by
  rw [run_append (run_accepted h), run]
  cases stepped : (resultsOf id before).step instr with
  | ok found => exact absurd (step_needs stepped) lacks
  | error d =>
    obtain ⟨cause, rfl⟩ := step_error stepped
    exact ⟨cause, by simp⟩

end Results

theorem exists_first_lacking {id : BlockId} {instrs : List Instr} (h : ¬ Accepted id instrs) :
    ∃ before instr rest, instrs = before ++ instr :: rest ∧ Accepted id before ∧
      ¬ instr.op.Accepted id before := by
  induction instrs using List.reverseRecOn with
  | nil => exact absurd (fun before instr rest split => by simp at split) h
  | append_singleton init last ih =>
    by_cases each : Accepted id init
    · exact ⟨init, last, [], rfl, each, fun needs => h (accepted_concat.2 ⟨each, needs⟩)⟩
    · obtain ⟨before, instr, rest, split, found⟩ := ih each
      exact ⟨before, instr, rest ++ [last], by rw [split]; simp, found⟩

def State.told (s : State) (ctx : Context) (ds : List Diagnostic) : State :=
  { s with store := s.store.record (ds.map (·.under ctx.trace)) }

theorem Run.evaluate_ok {ctx : Context} {s : State} {found : List Diagnostic} {results : Results}
    (h : s.block.evaluate = (found, .ok results)) :
    Run.evaluate ctx s = (.done results, s.told ctx found) := by
  rw [Run.evaluate, h]
  rfl

theorem Run.evaluate_error {ctx : Context} {s : State} {found : List Diagnostic} {d : Diagnostic}
    (h : s.block.evaluate = (found, .error d)) :
    Run.evaluate ctx s = (.failed (d.under ctx.trace), s.told ctx found) := by
  rw [Run.evaluate, h]
  rfl

theorem Results.run_results {id : BlockId} {instrs : List Instr} {found : List Diagnostic} {r : Results}
    (h : run ⟨id, #[]⟩ instrs = (found, .ok r)) :
    Accepted id instrs ∧ r = resultsOf id instrs ∧ found = takenAfter [] (appendedAfter [] instrs) := by
  by_cases each : Accepted id instrs
  · rw [run_accepted each] at h
    cases h
    exact ⟨each, rfl, rfl⟩
  · obtain ⟨before, instr, rest, rfl, each, lacks⟩ := exists_first_lacking each
    obtain ⟨cause, stopped⟩ := run_stops each lacks rest
    rw [stopped] at h
    cases h

theorem Block.evaluate_stops {b : Block} (lacking : ¬ Accepted b.id b.instrs.toList) :
    ∃ before instr rest cause, b.instrs.toList = before ++ instr :: rest ∧ Accepted b.id before ∧
      ¬ instr.op.Accepted b.id before ∧
      b.evaluate = (takenAfter [] (appendedAfter [] before), .error (.unreachable instr.pos cause)) := by
  obtain ⟨before, instr, rest, split, each, lacks⟩ := exists_first_lacking lacking
  obtain ⟨cause, stopped⟩ := Results.run_stops each lacks rest
  exact ⟨before, instr, rest, cause, split, each, lacks, by rw [Block.evaluate, split, stopped]⟩

theorem Run.evaluate_leaves (ctx : Context) (s : State) :
    (Run.evaluate ctx s).2 = s.told ctx s.block.evaluate.1 := by
  rw [Run.evaluate]
  rcases s.block.evaluate with ⟨found, d | results⟩ <;> rfl

theorem Run.evaluate_results {ctx : Context} {s after : State} {results : Results}
    (h : Run.evaluate ctx s = (.done results, after)) :
    Accepted s.block.id s.block.instrs.toList ∧
      results = resultsOf s.block.id s.block.instrs.toList ∧
      after = s.told ctx (takenAfter [] (appendedAfter [] s.block.instrs.toList)) := by
  rcases ended : s.block.evaluate with ⟨found, d | own⟩
  · rw [Run.evaluate_error ended] at h
    cases h
  · rw [Run.evaluate_ok ended] at h
    cases h
    obtain ⟨each, rfl, rfl⟩ := Results.run_results ended
    exact ⟨each, rfl, rfl⟩

/-- A block is run to its end if and only if each instruction has what it needs before it. Then
there is one result for each, with the first field of each key in each namespace, and each later
one is told about; otherwise all that is told is about the instructions before the first one that
lacks something. Evaluations of a block do not share the fields that they give: whatever has been
locked, it gives the same, and locking what one of them gave is not seen in another. -/
theorem Run.evaluate_specified (ctx : Context) (s : State) :
    ((∃ results after, Run.evaluate ctx s = (.done results, after)) ↔
      Accepted s.block.id s.block.instrs.toList) ∧
    (Accepted s.block.id s.block.instrs.toList →
      Run.evaluate ctx s = (.done (resultsOf s.block.id s.block.instrs.toList),
        s.told ctx (takenAfter [] (appendedAfter [] s.block.instrs.toList)))) ∧
    (¬ Accepted s.block.id s.block.instrs.toList →
      ∃ before instr rest d, s.block.instrs.toList = before ++ instr :: rest ∧
        Accepted s.block.id before ∧ ¬ instr.op.Accepted s.block.id before ∧
        Run.evaluate ctx s = (.failed d, s.told ctx (takenAfter [] (appendedAfter [] before))) ∧
        d.severity = .unreachable ∧ d.pos? = some instr.pos) ∧
    ∀ deeds : List Deed,
      let sofar := deeds.foldl Evaluations.after .none_yet
      (Accepted s.block.id s.block.instrs.toList →
        (sofar.after (.evaluate s.block)).read =
          sofar.read ++ [resultsOf s.block.id s.block.instrs.toList]) ∧
      ∀ which ref other, other ≠ which →
        (sofar.after (.lock which ref)).read[other]? = sofar.read[other]? := by
  have runs : Accepted s.block.id s.block.instrs.toList →
      s.block.evaluate = (takenAfter [] (appendedAfter [] s.block.instrs.toList),
        .ok (resultsOf s.block.id s.block.instrs.toList)) := Results.run_accepted
  refine ⟨⟨fun ⟨_, _, done⟩ => (Run.evaluate_results done).1,
    fun h => ⟨_, _, Run.evaluate_ok (runs h)⟩⟩, fun h => Run.evaluate_ok (runs h), fun lacking => ?_,
    fun deeds => ?_⟩
  · obtain ⟨before, instr, rest, cause, split, each, lacks, ended⟩ := Block.evaluate_stops lacking
    exact ⟨before, instr, rest, _, split, each, lacks, Run.evaluate_error ended, rfl, rfl⟩
  · refine ⟨fun h => ?_, fun which ref other away => ?_⟩
    · rw [Evaluations.read_after, Deed.done, runs h]
    · rw [Evaluations.read_after, Deed.done, List.getElem?_modify]
      simp [Ne.symm away]

end NamespaceLang

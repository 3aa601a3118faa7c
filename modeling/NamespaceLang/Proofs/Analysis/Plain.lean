import NamespaceLang.Proofs.Analysis.Registry
import Mathlib.Data.List.TakeWhile

/-!
# Plain bodies

Each line of a plain body defines a name, or declares a field under a key that is
written out, and no name and no key comes twice. Such a body is read without
anybody being looked into and without anything being told: its namespace has the
definitions and the fields of its lines, in their order.
-/

set_option autoImplicit false

namespace NamespaceLang

open NamespaceLang.Tree

namespace Line

def definition? (line : Line) : Option (String × Definition) :=
  match twoSided? (· == .definition) line.pos line.items with
  | .ok (some sides) =>
    match Tree.trim sides.leftItems with
    | [.leaf _ (.identifier .plain name)] => some (name, ⟨sides.mark.pos, sides.rightItems, []⟩)
    | _ => none
  | _ => none

/-- The field, in a scope, of a line whose key is written out. -/
def written? (scope : Scope) (line : Line) : Option FieldEntry :=
  match twoSided? ChainTag.bindsField line.pos line.items with
  | .ok (some sides) =>
    (writtenKey? (solid sides.leftItems)).map fun key => ⟨key, sides.thunk scope, sides.mark.pos⟩
  | _ => none

def name? (line : Line) : Option String := line.definition?.map (·.1)

/-- The key that is written out, which is the same in every scope. -/
def key? (line : Line) : Option Key := (line.written? []).map (·.key)

def isPlain (line : Line) : Bool := line.isBlank || line.name?.isSome || line.key?.isSome

variable {line : Line}

theorem definition?_eq_some {name : String} {d : Definition}
    (h : line.definition? = some (name, d)) :
    ∃ sides at_, twoSided? (· == .definition) line.pos line.items = .ok (some sides) ∧
      trim sides.leftItems = [.leaf at_ (.identifier .plain name)] ∧
      d = ⟨sides.mark.pos, sides.rightItems, []⟩ := by
  unfold definition? at h
  split at h
  · next sides read =>
    split at h
    · next at_ own left =>
      cases h
      exact ⟨sides, at_, read, left, rfl⟩
    · cases h
  · cases h

theorem written?_eq_some {scope : Scope} {entry : FieldEntry}
    (h : line.written? scope = some entry) :
    ∃ sides key, twoSided? ChainTag.bindsField line.pos line.items = .ok (some sides) ∧
      writtenKey? (solid sides.leftItems) = some key ∧
      entry = ⟨key, sides.thunk scope, sides.mark.pos⟩ := by
  unfold written? at h
  split at h
  · next sides read =>
    obtain ⟨key, written, rfl⟩ := Option.map_eq_some_iff.1 h
    exact ⟨sides, key, read, written, rfl⟩
  · cases h

theorem key?_eq (line : Line) (scope : Scope) : line.key? = (line.written? scope).map (·.key) := by
  unfold key? written?
  split
  · rw [Option.map_map, Option.map_map]
    rfl
  · rfl

theorem twoSided?_definition_of_binds {pos : Position} {nodes : List Tree} {sides : TwoSided}
    (h : twoSided? ChainTag.bindsField pos nodes = .ok (some sides)) :
    twoSided? (· == .definition) pos nodes = .ok none := by
  unfold twoSided? at h ⊢
  generalize trim nodes = items at h ⊢
  rcases items with _ | ⟨⟨at_, content⟩ | ⟨at_, form, parts⟩, more⟩
  · cases h
  · cases h
  · cases form with
    | chain tag tier =>
      cases tag with
      | publicBinding | variableBinding => rfl
      | _ => cases h
    | _ => cases h

theorem twoSided?_of_isBlank (want : ChainTag → Bool) (h : line.isBlank = true) :
    twoSided? want line.pos line.items = .ok none := by
  have start : trimStart line.items = [] :=
    List.dropWhile_eq_nil_iff.2 (List.all_eq_true.1 h)
  unfold twoSided? trim
  rw [start]
  rfl

theorem definition?_of_isBlank (h : line.isBlank = true) : line.definition? = none := by
  rw [definition?, twoSided?_of_isBlank _ h]

theorem written?_of_isBlank (scope : Scope) (h : line.isBlank = true) :
    line.written? scope = none := by
  rw [written?, twoSided?_of_isBlank _ h]

theorem isOther_of_definition? {own : String × Definition} (h : line.definition? = some own) :
    line.isOther = false := by
  obtain ⟨sides, at_, read, -, -⟩ := @definition?_eq_some line own.1 own.2 h
  simp [isOther, read]

theorem isOther_of_written? {scope : Scope} {entry : FieldEntry}
    (h : line.written? scope = some entry) : line.isOther = true := by
  obtain ⟨sides, key, read, -, -⟩ := written?_eq_some h
  have solid : line.isBlank = false := by
    by_contra blank
    rw [written?_of_isBlank scope (Bool.not_eq_false _ ▸ blank)] at h
    cases h
  simp [isOther, solid, twoSided?_definition_of_binds read]

theorem definition?_of_written? {scope : Scope} {entry : FieldEntry}
    (h : line.written? scope = some entry) : line.definition? = none := by
  obtain ⟨sides, key, read, -, -⟩ := written?_eq_some h
  rw [definition?, twoSided?_definition_of_binds read]

theorem isPlain_cases (h : line.isPlain = true) : line.isBlank = true ∨
    (∃ name d, line.definition? = some (name, d)) ∨
      ∀ scope, ∃ entry, line.written? scope = some entry := by
  unfold isPlain at h
  rcases Bool.or_eq_true_iff.1 h with h | key
  · rcases Bool.or_eq_true_iff.1 h with blank | name
    · exact Or.inl blank
    · rw [name?, Option.isSome_map] at name
      obtain ⟨⟨name, d⟩, own⟩ := Option.isSome_iff_exists.1 name
      exact Or.inr (Or.inl ⟨name, d, own⟩)
  · refine Or.inr (Or.inr fun scope => ?_)
    rw [key?_eq line scope, Option.isSome_map] at key
    exact Option.isSome_iff_exists.1 key

end Line

/-- The lines of a plain body. -/
structure PlainLines (lines : List Line) : Prop where
  each : ∀ line ∈ lines, line.isPlain = true
  names : (lines.filterMap Line.name?).Nodup
  keys : ((lines.filterMap Line.key?).map Key.field).Nodup

namespace PlainLines

variable {lines : List Line}

instance : Decidable (PlainLines lines) :=
  decidable_of_iff ((∀ line ∈ lines, line.isPlain = true) ∧ (lines.filterMap Line.name?).Nodup ∧
      ((lines.filterMap Line.key?).map Key.field).Nodup)
    ⟨fun ⟨each, names, keys⟩ => ⟨each, names, keys⟩, fun h => ⟨h.each, h.names, h.keys⟩⟩

theorem tail {line : Line} (h : PlainLines (line :: lines)) : PlainLines lines where
  each own hm := h.each own (List.mem_cons_of_mem _ hm)
  names := h.names.sublist ((List.sublist_cons_self _ _).filterMap _)
  keys := h.keys.sublist (((List.sublist_cons_self _ _).filterMap _).map _)

theorem of_perm {other : List Line} (h : PlainLines lines) (perm : lines.Perm other) :
    PlainLines other where
  each own hm := h.each own (perm.mem_iff.2 hm)
  names := (perm.filterMap _).nodup h.names
  keys := ((perm.filterMap _).map _).nodup h.keys

theorem fields (h : PlainLines lines) (scope : Scope) :
    ((lines.filterMap (Line.written? scope)).map (·.key.field)).Nodup := by
  have keys : lines.filterMap Line.key? = (lines.filterMap (Line.written? scope)).map (·.key) := by
    rw [List.map_filterMap]
    exact List.filterMap_congr fun line _ => line.key?_eq scope
  have distinct := h.keys
  rwa [keys, List.map_map] at distinct

theorem definitions (h : PlainLines lines) :
    ((lines.filterMap Line.definition?).map (·.1)).Nodup := by
  have names : lines.filterMap Line.name? = (lines.filterMap Line.definition?).map (·.1) := by
    rw [List.map_filterMap]
    rfl
  exact names ▸ h.names

theorem written (h : PlainLines lines) (scope : Scope) :
    ∀ own ∈ lines.filter Line.isOther, ∃ entry, own.written? scope = some entry := by
  intro own hm
  obtain ⟨there, other⟩ := List.mem_filter.1 hm
  rcases Line.isPlain_cases (h.each own there) with blank | ⟨name, d, defined⟩ | written
  · simp [Line.isOther, blank] at other
  · rw [Line.isOther_of_definition? defined] at other
    cases other
  · exact written scope

end PlainLines

theorem Line.filterMap_written? (lines : List Line) (scope : Scope) :
    (lines.filter Line.isOther).filterMap (Line.written? scope) =
      lines.filterMap (Line.written? scope) := by
  rw [List.filterMap_filter]
  refine List.filterMap_congr fun line _ => ?_
  cases own : line.written? scope with
  | none => exact ite_self none
  | some entry => exact if_pos (Line.isOther_of_written? own)

theorem Table.put_of_fresh {κ α : Type} [DecidableEq κ] {t : Table κ α} {k : κ}
    (fresh : t.get? k = none) (a : α) : t.put k a = ⟨t.entries ++ [(k, a)]⟩ := by
  obtain ⟨entries⟩ := t
  simp only [Table.get?, Table.put, Table.mk.injEq] at fresh ⊢
  induction entries with
  | nil => rfl
  | cons entry rest ih =>
    obtain ⟨own, b⟩ := entry
    rw [Table.find] at fresh
    split at fresh
    · cases fresh
    · next other => rw [Table.replace, if_neg other, ih fresh, List.cons_append]

theorem Pattern.read_name {pos at_ : Position} {nodes : List Tree} {name : String}
    (alone : trim nodes = [.leaf at_ (.identifier .plain name)]) :
    Pattern.read pos nodes = .ok (.bind name at_) := by
  rw [Pattern.read.eq_def]
  split
  · next h => rw [alone] at h; cases h
  · next h => rw [alone] at h; cases h
  · next h => rw [alone] at h; cases h; rfl
  · next h => rw [alone] at h; cases h
  · next other notName _ h =>
    rw [alone] at h
    cases h
    exact (notName at_ name rfl).elim

namespace Body

theorem readLine_of_definition? {body : Body} {line : Line} {name : String} {d : Definition}
    (own : line.definition? = some (name, d)) (fresh : body.definitions.get? name = none) :
    readLine body line =
      .ok ({ body with definitions := body.definitions.put name d }, []) := by
  obtain ⟨sides, at_, read, left, rfl⟩ := Line.definition?_eq_some own
  unfold readLine
  simp only [read, Pattern.read_name left, bind, Except.bind, pure, Except.pure, Pattern.names,
    Pattern.namesAt, List.foldl_cons, List.foldl_nil, define, fresh]

theorem readLine_of_written? {body : Body} {line : Line} {scope : Scope} {entry : FieldEntry}
    (own : line.written? scope = some entry) :
    readLine body line = .ok ({ body with lines := body.lines ++ [line] }, []) := by
  obtain ⟨sides, key, read, -, -⟩ := Line.written?_eq_some own
  unfold readLine
  simp only [Line.twoSided?_definition_of_binds read, bind, Except.bind, pure, Except.pure]

/-- Plain lines are read without anything being told: the definitions are those of the lines, in
their order, and the other lines are kept. -/
theorem readLines_plain {lines : List Line} (plain : PlainLines lines) (body : Body)
    (found : List Diagnostic)
    (fresh : ∀ name ∈ lines.filterMap Line.name?, body.definitions.get? name = none) :
    readLines lines (body, found) =
      (⟨⟨body.definitions.entries ++ lines.filterMap Line.definition?⟩,
        body.lines ++ lines.filter Line.isOther⟩, found) := by
  induction lines generalizing body with
  | nil => simp [readLines]
  | cons line rest ih =>
    have later : ∀ name ∈ rest.filterMap Line.name?, body.definitions.get? name = none :=
      fun name hm => fresh name (((List.sublist_cons_self _ _).filterMap _).subset hm)
    rw [readLines]
    rcases Line.isPlain_cases (plain.each line List.mem_cons_self) with
      blank | ⟨name, d, own⟩ | written
    · rw [if_pos blank, ih plain.tail body later,
        List.filterMap_cons_none (Line.definition?_of_isBlank blank),
        List.filter_cons_of_neg (by simp [Line.isOther, blank])]
    · have solid : ¬line.isBlank = true := fun blank => by
        rw [Line.definition?_of_isBlank blank] at own
        cases own
      -- the name is neither among those before, by `fresh`, nor among those that come
      have named : line.name? = some name := by rw [Line.name?, own]; rfl
      have distinct := plain.names
      rw [List.filterMap_cons_some named] at distinct fresh
      have new : body.definitions.get? name = none := fresh name List.mem_cons_self
      have still : ∀ other ∈ rest.filterMap Line.name?,
          (body.definitions.put name d).get? other = none := by
        intro other hm
        have apart : name ≠ other := fun same => (List.nodup_cons.1 distinct).1 (same ▸ hm)
        rw [Table.get?_put, if_neg apart]
        exact later other hm
      rw [if_neg solid, readLine_of_definition? own new]
      dsimp only
      rw [List.append_nil, ih plain.tail _ still, Table.put_of_fresh new,
        List.filterMap_cons_some own,
        List.filter_cons_of_neg (by simp [Line.isOther_of_definition? own]), List.append_assoc]
      rfl
    · obtain ⟨entry, own⟩ := written []
      have solid : ¬line.isBlank = true := fun blank => by
        rw [Line.written?_of_isBlank [] blank] at own
        cases own
      rw [if_neg solid, readLine_of_written? own]
      dsimp only
      rw [List.append_nil, ih plain.tail { body with lines := body.lines ++ [line] } later,
        List.filterMap_cons_none (Line.definition?_of_written? own),
        List.filter_cons_of_pos (Line.isOther_of_written? own), List.append_assoc]
      rfl

theorem read_plain {pos : Position} {nodes : List Tree} {lines : List Line}
    (split : bodyLines pos nodes = .ok lines) (plain : PlainLines lines) :
    read pos nodes =
      .ok (⟨⟨lines.filterMap Line.definition?⟩, lines.filter Line.isOther⟩, []) := by
  rw [read, split, Except.map, readLines_plain plain empty [] fun _ _ => rfl]
  rfl

end Body

theorem firstOfEach_of_nodup {fields : List FieldEntry}
    (distinct : (fields.map (·.key.field)).Nodup) : firstOfEach fields = fields := by
  induction fields with
  | nil => rfl
  | cons entry rest ih =>
    rw [List.map_cons, List.nodup_cons] at distinct
    rw [firstOfEach, ih distinct.2, List.filter_eq_self.2]
    intro later hm
    have apart : later.key.field ≠ entry.key.field := fun same =>
      distinct.1 (List.mem_map.2 ⟨later, hm, same⟩)
    simpa using apart

theorem takenAfter_of_nodup (list : Nat) {earlier fields : List FieldEntry}
    (distinct : ((earlier ++ fields).map (·.key.field)).Nodup) :
    takenAfter (earlier.map (Appended.mk list)) (fields.map (Appended.mk list)) = [] := by
  induction fields generalizing earlier with
  | nil => rfl
  | cons own rest ih =>
    have free : taken? (earlier.map (Appended.mk list)) ⟨list, own⟩ = none := by
      rw [taken?, Option.map_eq_none_iff, List.find?_eq_none]
      intro first hm
      obtain ⟨entry, he, rfl⟩ := List.mem_map.1 hm
      rw [List.map_append, List.nodup_append] at distinct
      have apart := distinct.2.2 entry.key.field (List.mem_map_of_mem he) own.key.field (by simp)
      simp [apart]
    have later := @ih (earlier ++ [own]) (by simpa using distinct)
    rw [List.map_append] at later
    rw [List.map_cons, takenAfter, free]
    exact later

/-- The block declares these fields in the namespace that an instruction begins, and no others. -/
structure Filled (list : InstrRef) (fields : List FieldEntry) (b : Block) : Prop where
  filling : Filling list b
  appended : appendedAfter [] b.instrs.toList = fields.map (Appended.mk list.index)

namespace Filled

variable {list : InstrRef} {fields : List FieldEntry} {b : Block}

theorem push (h : Filled list fields b) {op : Op} (alone : op.alone = true) (pos : Position) :
    Filled list fields (b.push op pos).2 where
  filling := (h.filling.push alone pos).1
  appended := by
    have only : ∀ instr ∈ [(⟨op, pos⟩ : Instr)], instr.op.alone = true := by simpa using alone
    show appendedAfter [] (b.instrs.push ⟨op, pos⟩).toList = _
    rw [Array.toList_push, appendedAfter_append, appendedAfter_eq_nil only, List.append_nil,
      h.appended]

theorem field (h : Filled list fields b) (key : Key) (thunk : Thunk) (at_ right mark : Position) :
    let keyed := (b.push (.makeKey key) at_).2
    let kept := (keyed.push (.captureAst thunk) right).2
    Filled list (fields ++ [⟨key, thunk, mark⟩])
      (kept.push (.nsAppend list b.next keyed.next) mark).2 := by
  intro keyed kept
  have before : Filled list fields kept := (h.push rfl at_).push rfl right
  have made : kept.instrs.toList[b.next.index]? = some ⟨.makeKey key, at_⟩ := by
    simp [kept, keyed, Block.push, Block.next, Block.size]
  have source : kept.instrs.toList[keyed.next.index]? = some ⟨.captureAst thunk, right⟩ := by
    simp [kept, keyed, Block.push, Block.next, Block.size]
  refine ⟨(before.filling.append rfl made rfl source mark).1, ?_⟩
  show appendedAfter [] (kept.instrs.push ⟨.nsAppend list b.next keyed.next, mark⟩).toList = _
  rw [Array.toList_push, appendedAfter_concat, before.appended, List.map_append]
  simp [appended?, made, source]

theorem entries (h : Filled list fields b) : b.entries list = fields := by
  rw [Block.entries, h.appended, appendedTo, List.filter_map, List.map_map]
  simp [Function.comp_def]

theorem fieldsOf {s : State} (h : Filled list fields s.block)
    (distinct : (fields.map (·.key.field)).Nodup) (pos : Position) (ctx : Context) :
    NamespaceLang.fieldsOf pos list ctx s = (.done ⟨false, fields⟩, s) := by
  have quiet : takenAfter [] (fields.map (Appended.mk list.index)) = [] :=
    @takenAfter_of_nodup list.index [] fields distinct
  rw [h.filling.fieldsOf, h.entries, firstOfEach_of_nodup distinct, h.appended, quiet]
  simp [State.told, Store.record]

end Filled

namespace BodyReading

variable {r : BodyReading} {s : State} {fields : List FieldEntry}

theorem line_written {own : Line} {entry : FieldEntry} (written : own.written? r.scope = some entry)
    (h : Filled r.list fields s.block) :
    ∃ block, r.line s own = (.done (), ⟨s.store, block⟩) ∧
      Filled r.list (fields ++ [entry]) block := by
  obtain ⟨sides, key, read, known, rfl⟩ := Line.written?_eq_some written
  obtain ⟨mid, at_, start, keyed⟩ := key_of_written (r := r) known s
  -- the builtin namespace takes an instruction before the key does
  have still : mid.store = s.store ∧ Filled r.list fields mid.block := by
    rcases start with rfl | ⟨start, rfl⟩
    · exact ⟨rfl, h⟩
    · exact ⟨rfl, h.push rfl start⟩
  have own : Run.materialize (.deferred mid.block.next) sides.mark.pos r.ctx
      (mid.pushed (.makeKey key) at_) = (.done mid.block.next, mid.pushed (.makeKey key) at_) :=
    Run.materialize_own rfl _ _
  refine ⟨_, ?_, still.2.field key (sides.thunk r.scope) at_ sides.right.pos sides.mark.pos⟩
  rw [line, declareLineWith_apply, read]
  dsimp only
  rw [Run.bind_apply, show analyzeWith (forceWithin r.depth) r.scope .key sides.left.pos
    sides.leftItems r.ctx s = r.key sides s from rfl, keyed]
  dsimp only
  rw [declareUnder_of_key r.scope r.list sides (Shape.key?_ofKey key), declareField_eq,
    Run.bind_apply]
  dsimp only [Analysis.deferred]
  rw [own]
  dsimp only
  rw [Run.bind_apply, captured_apply, ← still.1]
  rfl

theorem lines_written {lines : List Line}
    (written : ∀ own ∈ lines, ∃ entry, own.written? r.scope = some entry)
    (h : Filled r.list fields s.block) :
    ∃ block, declareLinesWith (forceWithin r.depth) r.scope r.list lines r.ctx s =
        (.done (), ⟨s.store, block⟩) ∧
      Filled r.list (fields ++ lines.filterMap (Line.written? r.scope)) block := by
  induction lines generalizing s fields with
  | nil =>
    refine ⟨s.block, ?_, by simpa using h⟩
    rw [declareLinesWith.eq_def]
    rfl
  | cons own rest ih =>
    obtain ⟨entry, here⟩ := written own List.mem_cons_self
    obtain ⟨mid, ran, filled⟩ := line_written here h
    obtain ⟨block, others, all⟩ :=
      @ih ⟨s.store, mid⟩ _ (fun own hm => written own (List.mem_cons_of_mem _ hm)) filled
    refine ⟨block, ?_, by simpa [List.filterMap_cons_some here] using all⟩
    rw [declareLinesWith.eq_def]
    dsimp only
    rw [Run.bind_apply, Run.attempt_eq_tell,
      show declareLineWith (forceWithin r.depth) r.scope r.list own r.ctx s = r.line s own from rfl,
      ran]
    exact others

end BodyReading

/-- A namespace has been declared that has the definitions and the fields of lines, in their order. -/
def State.declared (s : State) (outer : Scope) (pos : Position) (lines : List Line) : State :=
  let begun := (s.store.begin pos outer ⟨lines.filterMap Line.definition?⟩).2
  let fields := lines.filterMap (Line.written? (s.store.size :: outer))
  ⟨begun.newBlock.2.finish s.store.size ⟨false, fields⟩, s.block⟩

theorem declareWith_plain {pos : Position} {nodes : List Tree} {lines : List Line}
    (split : bodyLines pos nodes = .ok lines) (plain : PlainLines lines) (depth : Nat)
    (outer : Scope) (ctx : Context) (s : State) :
    declareWith (forceWithin depth) outer pos nodes ctx s =
      (.done s.store.size, s.declared outer pos lines) := by
  let body : Body := ⟨⟨lines.filterMap Line.definition?⟩, lines.filter Line.isOther⟩
  let r := s.reading depth ctx outer
  have read : Body.read pos nodes = .ok (body, []) := Body.read_plain split plain
  have none_yet : Filled r.list [] (s.declaring ctx outer pos body []).block :=
    ⟨(s.declaring_filling ctx outer pos body []).1, rfl⟩
  obtain ⟨block, ran, filled⟩ : ∃ block,
      declareLinesWith (forceWithin depth) r.scope r.list body.lines r.ctx
          (s.declaring ctx outer pos body []) =
        (.done (), ⟨(s.declaring ctx outer pos body []).store, block⟩) ∧
      Filled r.list ([] ++ body.lines.filterMap (Line.written? r.scope)) block :=
    BodyReading.lines_written (r := r) (plain.written r.scope) none_yet
  rw [List.nil_append, Line.filterMap_written?] at filled
  have ended := filled.fieldsOf (s := ⟨(s.declaring ctx outer pos body []).store, block⟩)
    (plain.fields r.scope) pos r.ctx
  have declared : (do
      declareLinesWith (forceWithin depth) r.scope r.list body.lines
      fieldsOf pos r.list : Run Registry) r.ctx (s.declaring ctx outer pos body []) =
        (.done ⟨false, lines.filterMap (Line.written? r.scope)⟩,
          ⟨(s.declaring ctx outer pos body []).store, block⟩) := by
    rw [Run.bind_apply, ran]
    exact ended
  have quiet : s.store.record [] = s.store := by simp [Store.record]
  rw [declareWith_apply, read]
  dsimp only
  rw [show (do
    declareLinesWith (forceWithin depth) (s.store.namespaces.size :: outer) s.fieldList body.lines
    fieldsOf pos s.fieldList : Run Registry) (ctx.holding [s.store.namespaces.size])
      (s.declaring ctx outer pos body []) = _ from declared]
  simp only [State.leaving, State.declaring, State.declared, List.map_nil, quiet]
  rfl

end NamespaceLang

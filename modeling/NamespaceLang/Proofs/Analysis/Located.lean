import NamespaceLang.Proofs.Analysis.Moments
import NamespaceLang.Proofs.Instr.Located

/-!
# Located work

Work that is begun where all places have a property ends so: the store and the block keep
source and tell of problems at no other places, and what the work gives or fails with is
located. This holds of each piece of work and of what it is put together from.
-/

set_option autoImplicit false

namespace NamespaceLang

variable {P : Position → Prop} {α β : Type}

def Forced.Located (P : Position → Prop) (f : Forced) : Prop := f.value.Located P

def Analysis.Located (P : Position → Prop) (a : Analysis) : Prop := a.value.Located P

theorem Forced.Located.analysis {f : Forced} (h : f.Located P) : f.analysis.Located P := h

structure Namespace.Located (P : Position → Prop) (n : Namespace) : Prop where
  pos : P n.pos
  definitions : ∀ d ∈ n.definitions.values, d.Located P
  fields : ∀ registry, n.fields? = some registry → registry.Located P
  findings : ∀ f ∈ n.findings.values, f.Located P

structure Store.Located (P : Position → Prop) (s : Store) : Prop where
  diagnostics : ∀ d ∈ s.diagnostics, d.Located P
  namespaces : ∀ n ∈ s.namespaces.toList, n.Located P

namespace Store

variable {s : Store}

theorem Located.get (h : s.Located P) (id : NamespaceId) :
    (s.get id).Located P ∨ s.get id = default := by
  unfold Store.get
  cases hid : s.namespaces[id]? with
  | none => exact Or.inr rfl
  | some own =>
    rw [← Array.getElem?_toList] at hid
    exact Or.inl (h.namespaces own (List.mem_of_getElem? hid))

theorem Located.definition (h : s.Located P) {id : NamespaceId} {name : String} {found : Definition}
    (hd : (s.get id).definitions.get? name = some found) : found.Located P := by
  rcases h.get id with own | none_there
  · exact own.definitions found (Table.mem_values_of_get? hd)
  · rw [none_there] at hd
    cases hd

theorem Located.field (h : s.Located P) {id : NamespaceId} {key : FieldKey} {entry : FieldEntry}
    (hf : (s.get id).field? key = some entry) : entry.Located P := by
  obtain ⟨registry, hr, he⟩ := Option.bind_eq_some_iff.1 hf
  rcases h.get id with own | none_there
  · exact (own.fields registry hr).get he
  · rw [none_there] at hr
    cases hr

theorem Located.finding (h : s.Located P) {id : NamespaceId} {binding : Binding} {found : Forced}
    (hf : (s.get id).findings.get? binding = some found) : found.Located P := by
  rcases h.get id with own | none_there
  · exact own.findings found (Table.mem_values_of_get? hf)
  · rw [none_there] at hf
    cases hf

theorem Located.finished (h : s.Located P) {id : NamespaceId}
    (hf : (s.get id).fields?.isSome = true) : P (s.get id).pos := by
  rcases h.get id with own | none_there
  · exact own.pos
  · rw [none_there] at hf
    cases hf

theorem Located.record (h : s.Located P) {ds : List Diagnostic} (hd : ∀ d ∈ ds, d.Located P) :
    (s.record ds).Located P :=
  ⟨List.forall_mem_append.2 ⟨h.diagnostics, hd⟩, h.namespaces⟩

theorem Located.begin (h : s.Located P) {pos : Position} (hp : P pos) (outer : Scope)
    {definitions : Definitions} (hd : ∀ d ∈ definitions.values, d.Located P) :
    (s.begin pos outer definitions).2.Located P where
  diagnostics := h.diagnostics
  namespaces := by
    simp only [Store.begin, Array.toList_push]
    refine List.forall_mem_append.2 ⟨h.namespaces, ?_⟩
    simpa using (⟨hp, hd, fun _ hr => (by cases hr), fun _ hf => (by cases hf)⟩ :
      Namespace.Located P ⟨pos, outer, definitions, none, .empty⟩)

theorem Located.modify (h : s.Located P) (id : NamespaceId) {f : Namespace → Namespace}
    (hf : ∀ n, n.Located P → (f n).Located P) : (s.modify id f).Located P where
  diagnostics := h.diagnostics
  namespaces := by
    intro own hm
    obtain ⟨i, hi⟩ := List.mem_iff_getElem?.1 hm
    rw [Array.getElem?_toList, Store.modify, Array.getElem?_modify] at hi
    split at hi
    · obtain ⟨before, hb, rfl⟩ := Option.map_eq_some_iff.1 hi
      rw [← Array.getElem?_toList] at hb
      exact hf before (h.namespaces before (List.mem_of_getElem? hb))
    · rw [← Array.getElem?_toList] at hi
      exact h.namespaces own (List.mem_of_getElem? hi)

theorem Located.finish (h : s.Located P) (id : NamespaceId) {registry : Registry}
    (hr : registry.Located P) : (s.finish id registry).Located P := by
  refine h.modify id fun n hn => ⟨hn.pos, hn.definitions, ?_, hn.findings⟩
  intro own he
  cases he
  exact hr

theorem Located.keep (h : s.Located P) (id : NamespaceId) (binding : Binding) {found : Forced}
    (hf : found.Located P) : (s.keep id binding found).Located P := by
  refine h.modify id fun n hn => ⟨hn.pos, hn.definitions, hn.fields, fun f hm => ?_⟩
  rcases Table.mem_values_put _ _ _ f hm with rfl | hm
  · exact hf
  · exact hn.findings f hm

end Store

structure State.Located (P : Position → Prop) (s : State) : Prop where
  store : s.store.Located P
  block : s.block.Located P

def Context.Located (P : Position → Prop) (ctx : Context) : Prop := ∀ step ∈ ctx.trace, P step.pos

/-- Where work has ended, and what it gives or fails with. -/
structure Ended (P : Position → Prop) (Q : α → Prop) (r : Outcome α × State) : Prop where
  state : r.2.Located P
  done : ∀ a, r.1 = .done a → Q a
  failed : ∀ d, r.1 = .failed d → d.Located P

/-- The work, begun at places with `P`, ends so, and what it gives has `Q`. -/
def Run.Located (P : Position → Prop) (Q : α → Prop) (act : Run α) : Prop :=
  ∀ ctx s, ctx.Located P → s.Located P → Ended P Q (act ctx s)

def Unconstrained (_ : α) : Prop := True

theorem forall_some {Q : α → Prop} {a : α} (h : Q a) : ∀ b ∈ some a, Q b := fun _ hb => by
  cases hb
  exact h

/-- An analysis of located nodes is located work. -/
def Locates (P : Position → Prop) (analyze : Scope → Shape → Position → List Tree → Run Analysis) :
    Prop :=
  ∀ scope slot pos nodes, P pos → Tree.Located P nodes →
    (analyze scope slot pos nodes).Located P (Analysis.Located P)

def Forcing.Located (P : Position → Prop) (force : Forcing) : Prop :=
  ∀ id binding (thunk : Thunk) slot, thunk.Located P →
    (force id binding thunk slot).Located P (Forced.Located P)

theorem Tree.Located.solid {nodes : List Tree} (h : Tree.Located P nodes) :
    Tree.Located P (Tree.solid nodes) := h.part (List.filter_sublist).subset

namespace Run.Located

variable {Q : α → Prop} {R : β → Prop}

theorem done {a : α} (h : Q a) : (pure a : Run α).Located P Q := fun _ _ _ hs =>
  ⟨hs, fun _ he => (by cases he; exact h), fun _ he => by cases he⟩

theorem exhausted : (Run.exhausted : Run α).Located P Q := fun _ _ _ hs =>
  ⟨hs, fun _ he => (by cases he), fun _ he => by cases he⟩

theorem fail {d : Diagnostic} (h : d.Located P) : (Run.fail d : Run α).Located P Q :=
  fun _ _ hc hs => ⟨hs, fun _ he => (by cases he), fun _ he => by cases he; exact h.under hc⟩

theorem error {pos : Position} (h : P pos) (cause : Cause) :
    (Run.fail (.error pos cause) : Run α).Located P Q := fail (Diagnostic.located_error h cause)

theorem unreachable {pos : Position} (h : P pos) (cause : Cause) :
    (Run.fail (.unreachable pos cause) : Run α).Located P Q :=
  fail (Diagnostic.located_unreachable h cause)

theorem ofExcept {e : Except Diagnostic α} (h : Tells P Q e) : (Run.ofExcept e).Located P Q := by
  cases e with
  | ok a => exact done h
  | error d => exact fail h

theorem bind {act : Run α} {next : α → Run β} (h : act.Located P Q)
    (hn : ∀ a, Q a → (next a).Located P R) : (act >>= next).Located P R := by
  intro ctx s hc hs
  have first := h ctx s hc hs
  rw [Run.bind_eq_goOn]
  generalize act ctx s = ended at first
  obtain ⟨outcome, mid⟩ := ended
  cases outcome with
  | done a => exact hn a (first.done a rfl) ctx mid hc first.state
  | failed d =>
    exact ⟨first.state, fun _ he => (by cases he), fun _ he => by cases he; exact first.failed d rfl⟩
  | exhausted => exact ⟨first.state, fun _ he => (by cases he), fun _ he => (by cases he)⟩

theorem pointwise {act : Run α} (other : State → Run α)
    (same : ∀ ctx s, act ctx s = other s ctx s)
    (h : ∀ s, s.Located P → (other s).Located P Q) : act.Located P Q := fun ctx s hc hs =>
  same ctx s ▸ h s hs ctx s hc hs

theorem store : Run.store.Located P (Store.Located P) := fun _ _ _ hs =>
  ⟨hs, fun _ he => (by cases he; exact hs.store), fun _ he => by cases he⟩

theorem context : Run.context.Located P (Context.Located P) := fun _ _ hc hs =>
  ⟨hs, fun _ he => (by cases he; exact hc), fun _ he => by cases he⟩

theorem modifyStore {f : Store → Store} (h : ∀ s, s.Located P → (f s).Located P) :
    (Run.modifyStore f).Located P Unconstrained := fun _ _ _ hs =>
  ⟨⟨h _ hs.store, hs.block⟩, fun _ _ => trivial, fun _ he => by cases he⟩

theorem record {ds : List Diagnostic} (h : ∀ d ∈ ds, d.Located P) :
    (Run.record ds).Located P Unconstrained := by
  intro ctx s hc hs
  refine ⟨⟨hs.store.record ?_, hs.block⟩, fun _ _ => trivial, fun _ he => by cases he⟩
  intro d hd
  obtain ⟨own, ho, rfl⟩ := List.mem_map.1 hd
  exact (h own ho).under hc

theorem begin {pos : Position} (hp : P pos) (outer : Scope) {definitions : Definitions}
    (hd : ∀ d ∈ definitions.values, d.Located P) :
    (Run.begin pos outer definitions).Located P Unconstrained := fun _ _ _ hs =>
  ⟨⟨hs.store.begin hp outer hd, hs.block⟩, fun _ _ => trivial, fun _ he => by cases he⟩

theorem attempt {act : Run Unit} (h : act.Located P Unconstrained) :
    (Run.attempt act).Located P Unconstrained := by
  intro ctx s hc hs
  have first := h ctx s hc hs
  rw [Run.attempt_eq_tell]
  generalize act ctx s = ended at first
  obtain ⟨outcome, mid⟩ := ended
  cases outcome with
  | done a => exact first
  | failed d =>
    have told : (mid.store.record [d]).Located P :=
      first.state.store.record (by simpa using first.failed d rfl)
    exact ⟨⟨told, first.state.block⟩, fun _ _ => trivial, fun _ he => by cases he⟩
  | exhausted => exact first

theorem within {act : Run α} (h : act.Located P Q) (label : String) {pos : Position} (hp : P pos) :
    (Run.within label pos act).Located P Q := fun _ s hc hs =>
  h _ s (List.forall_mem_append.2 ⟨hc, by simpa using hp⟩) hs

theorem holding {act : Run α} (h : act.Located P Q) (ids : List NamespaceId) :
    (Run.holding ids act).Located P Q := fun _ s hc hs => h _ s hc hs

theorem entering {act : Run α} (h : act.Located P Q) (id : NamespaceId) (binding : Binding) :
    (Run.entering id binding act).Located P Q := fun _ s hc hs => h _ s hc hs

theorem inNewBlock {act : Run α} (h : act.Located P Q) : (Run.inNewBlock act).Located P Q := by
  intro ctx s hc hs
  have begun : State.Located P ⟨s.store.newBlock.2, s.store.newBlock.1⟩ :=
    ⟨⟨hs.store.diagnostics, hs.store.namespaces⟩, Block.new_located _⟩
  have ended := h ctx _ hc begun
  exact ⟨⟨ended.state.store, hs.block⟩, ended.done, ended.failed⟩

theorem push {op : Op} (ho : op.Located P) {pos : Position} (hp : P pos) :
    (Run.push op pos).Located P Unconstrained := fun _ _ _ hs =>
  ⟨⟨hs.store, hs.block.push ho hp⟩, fun _ _ => trivial, fun _ he => by cases he⟩

theorem deferred {op : Op} (ho : op.Located P) {pos : Position} (hp : P pos) {shape : Shape} :
    (Run.deferred op pos shape).Located P (Analysis.Located P) :=
  bind (push ho hp) fun _ _ => done trivial

theorem materialize {operand : Operand} (ho : operand.Located P) {pos : Position} (hp : P pos) :
    (Run.materialize operand pos).Located P Unconstrained := by
  intro ctx s hc hs
  have made := hs.block.materialize ho hp
  unfold Run.materialize
  split
  · next ref block he => exact ⟨⟨hs.store, made.ok he⟩, fun _ _ => trivial, fun _ he => by cases he⟩
  · next d he =>
    exact ⟨hs, fun _ he => (by cases he), fun _ he' => by cases he'; exact (made.error he).under hc⟩

theorem evaluate : Run.evaluate.Located P (Results.Located P) :=
  pointwise (fun s => do Run.record s.block.evaluate.1; Run.ofExcept s.block.evaluate.2)
    (fun _ _ => rfl) fun _ hs => bind (record hs.block.evaluate.1) fun _ _ =>
      ofExcept hs.block.evaluate.2

theorem capture (scope : Scope) {pos : Position} (hp : P pos) {nodes : List Tree}
    (h : Tree.Located P nodes) : (NamespaceLang.capture scope pos nodes).Located P (Analysis.Located P) :=
  deferred (by exact ⟨h, hp⟩) hp

theorem workOut_located {analyze : Scope → Shape → Position → List Tree → Run Analysis}
    (h : Locates P analyze) {thunk : Thunk} (ht : thunk.Located P) (slot : Shape) :
    (workOut analyze thunk slot).Located P (Forced.Located P) :=
  inNewBlock <| bind (h _ _ _ _ ht.pos ht.nodes) fun _ ha => bind evaluate fun _ hr =>
    bind (ofExcept (hr.resolve ha ht.pos)) fun _ hv => done hv

theorem forceBy_located {analyze : Scope → Shape → Position → List Tree → Run Analysis}
    (h : Locates P analyze) : (forceBy analyze).Located P := by
  intro id binding thunk slot ht
  refine holding (bind store fun s hs => ?_) _
  split
  · next found hf => exact done (hs.finding hf)
  · refine bind context fun ctx _ => ?_
    split
    · exact error ht.pos _
    · have worked := workOut_located h ht slot
      exact bind (within (entering worked id binding) _ ht.pos) fun found hf =>
        bind (modifyStore fun s hs => hs.keep id binding hf) fun _ _ => done hf

section

variable {force : Forcing} (h : force.Located P)

include h

theorem readField_located (id : NamespaceId) (key : FieldKey) (slot : Shape) :
    (readFieldWith? force id key slot).Located P (fun found? => ∀ a ∈ found?, a.Located P) := by
  intro ctx s hc hs
  rw [readFieldWith?_apply]
  split
  · next entry he =>
    have forced := h id (.field key) entry.thunk slot (hs.store.field he).thunk
    exact bind forced (fun _ hf => done (forall_some hf.analysis)) ctx s hc hs
  · exact done (by simp) ctx s hc hs

theorem resolveIn_located (id : NamespaceId) {pos : Position} (hp : P pos) (name : String)
    (slot : Shape) :
    (resolveInWith force id pos name slot).Located P (fun found? => ∀ a ∈ found?, a.Located P) := by
  refine bind store fun s hs => ?_
  dsimp only
  split
  · next found hd =>
    have here := hs.definition hd
    split
    · exact bind (h _ _ _ _ ⟨here.value, here.pos⟩) fun _ hf => done (forall_some hf.analysis)
    · exact error hp _
  · exact readField_located h id _ slot

theorem resolve_located {pos : Position} (hp : P pos) (name : String) (slot : Shape) (scope : Scope) :
    (resolveWith force pos name slot scope).Located P (Analysis.Located P) := by
  induction scope with
  | nil => exact error hp _
  | cons id outer ih =>
    refine bind store fun s _ => bind context fun ctx _ => ?_
    split
    · refine bind (resolveIn_located h id hp name slot) fun found? hf => ?_
      cases found? with
      | none => exact ih
      | some found => exact done (hf found rfl)
    · exact unreachable hp _

theorem readString_located (target : NamespaceRef) {pos : Position} (hp : P pos) (name : String) :
    (readStringWith force target pos name).Located P (Analysis.Located P) := by
  cases target with
  | builtin =>
    unfold readStringWith
    dsimp only
    split
    · exact deferred (by trivial) hp
    · exact error hp _
  | declared id =>
    refine bind store fun s hs => ?_
    dsimp only
    split
    · next finished =>
      refine bind (readField_located h id _ _) fun found? hf => ?_
      cases found? with
      | none => exact fail ((Diagnostic.located_error hp _).withNote (hs.finished finished) _)
      | some found => exact done (hf found rfl)
    · exact error hp _

theorem readSymbol_located (target : NamespaceRef) (builtin : Builtin) (slot : Shape) :
    (readSymbolWith force target builtin slot).Located P (fun found? => ∀ a ∈ found?, a.Located P) := by
  cases target with
  | builtin => exact done (by simp)
  | declared id => exact readField_located h id _ slot

theorem access_located (left : Analysis) {pos : Position} (hp : P pos) (name : String) :
    (accessWith force left pos name).Located P (Analysis.Located P) := by
  unfold accessWith
  split
  · exact holding (readString_located h _ hp name) _
  · exact error hp _
  · exact error hp _

theorem leaf_located (scope : Scope) (slot : Shape) {pos : Position} (hp : P pos) (leaf : Leaf) :
    (analyzeLeafWith force scope slot pos leaf).Located P (Analysis.Located P) := by
  unfold analyzeLeafWith
  split
  · split
    · exact bind (push (by trivial) hp) fun _ _ => done trivial
    · exact error hp _
  · split
    · exact deferred (by trivial) hp
    · exact error hp _
  · exact resolve_located h hp _ slot scope
  · exact error hp _
  · exact error hp _

end

theorem call_located {pos : Position} (hp : P pos) {method : Analysis} (hm : method.Located P)
    {argument : Shape → Run Analysis} (ha : ∀ slot, (argument slot).Located P (Analysis.Located P)) :
    (call pos method argument).Located P (Analysis.Located P) := by
  unfold call
  split
  · exact bind (holding (ha _) _) fun given hg => bind (materialize hm hp) fun _ _ =>
      bind (materialize hg hp) fun _ _ => deferred (by trivial) hp
  · exact error hp _

theorem declareField_located (scope : Scope) (list : InstrRef) {sides : TwoSided}
    (hs : sides.Located P) {key : Analysis} (hk : key.Located P) :
    (declareField scope list sides key).Located P Unconstrained :=
  bind (materialize hk hs.mark) fun _ _ =>
    bind (capture scope (hs.right.head List.mem_cons_self) hs.right.side) fun _ hb =>
      bind (materialize hb hs.mark) fun _ _ => bind (push (by trivial) hs.mark) fun _ _ => done trivial

section

variable {force : Forcing}

mutual

theorem expression_located (h : force.Located P) (scope : Scope) (slot : Shape) {pos : Position}
    (hp : P pos) {nodes : List Tree} (hn : Tree.Located P nodes) :
    (analyzeWith force scope slot pos nodes).Located P (Analysis.Located P) := by
  by_cases kept : slot = .ast
  · subst kept
    rw [analyzeWith.eq_def]
    exact capture scope hp hn
  · have solid := hn.solid
    rw [analyzeWith.eq_def]
    split
    · exact absurd rfl kept
    · split
      · exact error hp _
      · next start bodyPos opening closing body rest items =>
        have light := Tree.weightAll_of_solid items
        rw [show Tree.solid nodes = _ from items] at solid
        obtain ⟨here, inner⟩ := (Tree.located_group _ _ _).1 solid.rest.first
        exact bind (declare_located h scope here inner) fun id _ =>
          bind (push (by trivial) (solid.head List.mem_cons_self)) fun _ _ =>
            suffixes_located h scope (by trivial) solid.rest.rest
      · next first rest notLiteral items =>
        have light := Tree.weightAll_of_solid items
        rw [show Tree.solid nodes = _ from items] at solid
        exact bind (base_located h scope _ solid.first) fun left hl =>
          suffixes_located h scope hl solid.rest
termination_by 3 * Tree.weightAll nodes + 1
decreasing_by
  all_goals
    simp only [Tree.weightAll, Tree.weight] at light
    omega

theorem base_located (h : force.Located P) (scope : Scope) (slot : Shape) {node : Tree}
    (hn : Tree.Located P [node]) :
    (analyzeBaseWith force scope slot node).Located P (Analysis.Located P) := by
  rw [analyzeBaseWith.eq_def]
  match node with
  | .leaf pos content => exact leaf_located h scope slot ((Tree.located_leaf _ _).1 hn) content
  | .group pos form items =>
    obtain ⟨here, inner⟩ := (Tree.located_group _ _ _).1 hn
    cases form with
    | block tag opening closing =>
      cases tag with
      | code => exact expression_located h scope slot here inner
      | arrowFunction =>
        exact bind (ofExcept (Pattern.read_located here inner)) fun _ _ => error here _
      | _ => exact error here _
    | _ => exact error here _
termination_by 3 * node.weight
decreasing_by simp only [Tree.weight]; omega

theorem suffixes_located (h : force.Located P) (scope : Scope) {left : Analysis}
    (hl : left.Located P) {nodes : List Tree} (hn : Tree.Located P nodes) :
    (analyzeSuffixesWith force scope left nodes).Located P (Analysis.Located P) := by
  match nodes with
  | [] =>
    rw [analyzeSuffixesWith.eq_def]
    exact done hl
  | node :: rest =>
    have light := node.weight_pos
    have after : ∀ next : Analysis, next.Located P →
        (analyzeSuffixesWith force scope next rest).Located P (Analysis.Located P) :=
      fun next hnext => suffixes_located h scope hnext hn.rest
    have here : P node.pos := hn.head List.mem_cons_self
    rw [analyzeSuffixesWith.eq_def]
    match node with
    | .leaf pos content =>
      cases content with
      | identifier sigil name =>
        cases sigil with
        | builtin => exact bind (error here _) after
        | plain | access => exact bind (access_located h left here name) after
      | bare tag spelling =>
        cases tag with
        | access => exact bind (done hl) after
        | _ => exact bind (error here _) after
      | _ => exact bind (error here _) after
    | .group pos form items =>
      obtain ⟨-, inner⟩ := (Tree.located_group _ _ _).1 hn.first
      cases form with
      | block tag opening closing =>
        cases tag with
        | code =>
          refine bind (call_located here hl fun slot => ?_) after
          have given := expression_located h scope slot here inner
          split
          · exact deferred (by trivial) here
          · exact given
        | _ => exact bind (error here _) after
      | _ => exact bind (error here _) after
termination_by 3 * Tree.weightAll nodes
decreasing_by
  all_goals
    simp only [Tree.weightAll, Tree.weight] at *
    omega

theorem declare_located (h : force.Located P) (outer : Scope) {pos : Position} (hp : P pos)
    {nodes : List Tree} (hn : Tree.Located P nodes) :
    (declareWith force outer pos nodes).Located P Unconstrained := by
  have told := Body.read_located hp hn
  rw [declareWith.eq_def]
  split
  · next d read => exact fail (told.error read)
  · next body found read =>
    have light := Body.read_weight pos nodes body found read
    obtain ⟨located, problems⟩ := told.ok read
    refine bind (record problems) fun _ _ => bind (begin hp outer located.definitions) fun id _ => ?_
    refine bind (holding (inNewBlock ?_) _) fun registry hr =>
      bind (modifyStore fun s hs => hs.finish id hr) fun _ _ => done trivial
    exact bind (push (by trivial) hp) fun list _ =>
      bind (lines_located h (id :: outer) list located.lines) fun _ _ =>
        bind evaluate fun results hr => ofExcept (hr.aggregate list hp)
termination_by 3 * Tree.weightAll nodes + 4
decreasing_by omega

theorem lines_located (h : force.Located P) (scope : Scope) (list : InstrRef) {rest : List Line}
    (hr : ∀ line ∈ rest, line.Located P) :
    (declareLinesWith force scope list rest).Located P Unconstrained := by
  match rest with
  | [] =>
    rw [declareLinesWith.eq_def]
    exact done trivial
  | own :: rest =>
    obtain ⟨here, others⟩ := List.forall_mem_cons.1 hr
    rw [declareLinesWith.eq_def]
    exact bind (attempt (line_located h scope list here)) fun _ _ =>
      lines_located h scope list others
termination_by lineWeight rest
decreasing_by all_goals simp only [lineWeight]; omega

theorem line_located (h : force.Located P) (scope : Scope) (list : InstrRef) {own : Line}
    (hl : own.Located P) : (declareLineWith force scope list own).Located P Unconstrained := by
  have told := twoSided?_located ChainTag.bindsField hl.pos hl.items
  rw [declareLineWith.eq_def]
  split
  · next d read => exact fail (told.error read)
  · exact bind (expression_located h scope .void hl.pos hl.items) fun _ _ => done trivial
  · next sides read =>
    have light := twoSided?_weight _ _ _ _ read
    have parts := told.ok read sides rfl
    have left : P sides.left.pos := parts.left.head List.mem_cons_self
    refine bind (expression_located h scope .key left parts.left.side) fun key hk => ?_
    split
    · exact declareField_located scope list parts hk
    · exact declareField_located scope list parts hk
    · exact error left _
    · exact error left _
termination_by 3 * Tree.weightAll own.items + 2
decreasing_by all_goals omega

end

end

theorem forceWithin_located : ∀ depth, (forceWithin depth).Located P
  | 0 => fun _ _ _ _ _ => exhausted
  | depth + 1 => forceBy_located fun scope slot _ _ hp hn =>
      expression_located (forceWithin_located depth) scope slot hp hn

theorem withForcing_located {nodes : List Tree} {act : Forcing → Run α} {Q : α → Prop}
    (h : ∀ force : Forcing, force.Located P → (act force).Located P Q) :
    (withForcing nodes act).Located P Q :=
  bind store fun _ _ => h _ (forceWithin_located _)

theorem runEntry_located {pos : Position} (hp : P pos) {nodes : List Tree}
    (hn : Tree.Located P nodes) : (runEntry pos nodes).Located P Unconstrained := by
  have declared : (declare [] pos nodes).Located P Unconstrained :=
    withForcing_located fun _ h => declare_located h [] hp hn
  have entry : ∀ root, (readSymbol (.declared root) .main .mainEntry).Located P
      (fun found? => ∀ a ∈ found?, a.Located P) := fun root =>
    withForcing_located fun _ h => readSymbol_located h _ _ _
  refine bind declared fun root _ => holding (inNewBlock ?_) _
  refine bind (within (entry root) _ hp) fun found? hf => ?_
  cases found? with
  | none => exact error hp _
  | some main =>
    refine bind (attempt ?_) fun _ _ => done trivial
    exact bind (call_located hp (hf main rfl) fun _ => deferred (by trivial) hp) fun _ _ =>
      bind evaluate fun _ _ => done trivial

end Run.Located

end NamespaceLang

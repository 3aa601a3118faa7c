import NamespaceLang.Proofs.Analysis.Sessions

/-!
# What work puts back

Whatever a piece of work comes to, it leaves the trace and the marks of a session
as they were, and does the same to the state as it does where both are only read.
Every mark that it wrote itself it has taken away: what was found is kept, and of
a binding that was looked into in vain nothing is left. So nothing that has failed
is ever taken for a cycle later.
-/

set_option autoImplicit false

namespace NamespaceLang

def lastOf (p : Place) (ended : List (Place × Bool)) : Option Bool :=
  ((ended.filter (·.1 = p)).getLast?).map (·.2)

theorem lastOf_append (p : Place) (earlier later : List (Place × Bool)) :
    lastOf p (earlier ++ later) = (lastOf p later).or (lastOf p earlier) := by
  simp only [lastOf, List.filter_append, List.getLast?_append]
  cases (later.filter (·.1 = p)).getLast? <;> rfl

theorem mem_of_lastOf {p : Place} {ended : List (Place × Bool)} {found : Bool}
    (h : lastOf p ended = some found) : (p, found) ∈ ended := by
  simp only [lastOf, Option.map_eq_some_iff] at h
  obtain ⟨⟨q, last⟩, here, rfl⟩ := h
  have own := List.mem_of_getLast? here
  simp only [List.mem_filter, decide_eq_true_eq] at own
  exact own.2 ▸ own.1

theorem lastOf_single (p q : Place) (found : Bool) :
    lastOf p [(q, found)] = if q = p then some found else none := by
  by_cases same : q = p <;> simp [lastOf, same]

theorem Session.memo_eq_inProgress_iff {s : Session} {p : Place} :
    s.memo p = some .inProgress ↔ s.finding? p = none ∧ p ∈ s.marks := by
  unfold memo
  cases s.finding? p with
  | some found => simp
  | none => by_cases entered : p ∈ s.marks <;> simp [entered]

theorem Session.memo_eq_done_iff {s : Session} {p : Place} {found : Forced} :
    s.memo p = some (.done found) ↔ s.finding? p = some found := by
  unfold memo
  cases s.finding? p with
  | some known => simp
  | none => by_cases entered : p ∈ s.marks <;> simp [entered]

/-- The later session is as the earlier one was, but for the bindings that were looked into. -/
structure Session.Restores (s later : Session) : Prop where
  trace : later.trace = s.trace
  marks : later.marks = s.marks
  kept : ∀ p found, s.finding? p = some found → later.finding? p = some found
  marked : ∀ p ∈ s.marks, later.finding? p = s.finding? p
  settled : ∃ more, later.ended = s.ended ++ more ∧ ∀ p, s.memo p ≠ some .inProgress →
    (lastOf p more = none → later.finding? p = s.finding? p) ∧
      (lastOf p more = some false → later.finding? p = none)

namespace Session.Restores

variable {s mid later : Session}

theorem ofSame (trace : later.trace = s.trace) (marks : later.marks = s.marks)
    (ended : later.ended = s.ended) (same : ∀ p, later.finding? p = s.finding? p) :
    s.Restores later where
  trace := trace
  marks := marks
  kept p found h := (same p).trans h
  marked p _ := same p
  settled := by
    refine ⟨[], by rw [ended, List.append_nil], fun p _ => ⟨fun _ => same p, fun last => ?_⟩⟩
    cases last

theorem refl (s : Session) : s.Restores s := ofSame rfl rfl rfl fun _ => rfl

theorem trans (h : s.Restores mid) (h' : mid.Restores later) : s.Restores later where
  trace := h'.trace.trans h.trace
  marks := h'.marks.trans h.marks
  kept p found known := h'.kept p found (h.kept p found known)
  marked p hp := (h'.marked p (h.marks ▸ hp)).trans (h.marked p hp)
  settled := by
    obtain ⟨first, before, earlier⟩ := h.settled
    obtain ⟨second, after, since⟩ := h'.settled
    refine ⟨first ++ second, by rw [after, before, List.append_assoc], fun p hp => ?_⟩
    have still : mid.memo p ≠ some .inProgress := by
      rw [Ne, memo_eq_inProgress_iff, h.marks] at *
      rintro ⟨nothing, entered⟩
      refine hp ⟨?_, entered⟩
      rw [← h.marked p entered, nothing]
    obtain ⟨idle, failed⟩ := earlier p hp
    obtain ⟨idle', failed'⟩ := since p still
    rw [lastOf_append]
    cases last : lastOf p second with
    | none => exact ⟨fun h => (idle' last).trans (idle h), fun h => (idle' last).trans (failed h)⟩
    | some found =>
      refine ⟨fun h => ?_, fun h => failed' (last.trans h)⟩
      cases h

theorem note (s : Session) (p : Place) (found : Bool)
    (nothing : found = false → s.finding? p = none) : s.Restores (s.note p found) where
  trace := rfl
  marks := rfl
  kept _ _ known := known
  marked _ _ := rfl
  settled := by
    refine ⟨[(p, found)], rfl, fun q _ => ⟨fun _ => rfl, fun last => ?_⟩⟩
    rw [lastOf_single] at last
    split at last
    · next same => exact same ▸ nothing (Option.some.inj last)
    · cases last

theorem inside {p : Place} {crumb : Breadcrumb} {found : Bool} (entered : p ∉ s.marks)
    (h : { s with trace := s.trace ++ [crumb], marks := p :: s.marks }.Restores mid)
    (trace : later.trace = mid.trace.dropLast) (marks : later.marks = mid.marks.filter (· ≠ p))
    (ended : later.ended = mid.ended ++ [(p, found)])
    (others : ∀ q, q ≠ p → later.finding? q = mid.finding? q)
    (first : s.finding? p = none) (nothing : found = false → later.finding? p = none) :
    s.Restores later where
  trace := by rw [trace, h.trace, List.dropLast_concat]
  marks := by
    rw [marks, h.marks, List.filter_cons_of_neg (by simp)]
    refine List.filter_eq_self.2 fun q hq => decide_eq_true ?_
    rintro rfl
    exact entered hq
  kept q known hq := by
    have other : q ≠ p := by
      rintro rfl
      rw [first] at hq
      cases hq
    exact (others q other).trans (h.kept q known hq)
  marked q hq := by
    have other : q ≠ p := by
      rintro rfl
      exact entered hq
    exact (others q other).trans (h.marked q (List.mem_cons_of_mem p hq))
  settled := by
    obtain ⟨more, noted, since⟩ := h.settled
    refine ⟨more ++ [(p, found)], by rw [ended, noted, List.append_assoc], fun q hq => ?_⟩
    rw [lastOf_append, lastOf_single]
    by_cases same : p = q
    · subst same
      rw [if_pos rfl, Option.some_or]
      refine ⟨fun last => ?_, fun last => nothing (Option.some.inj last)⟩
      cases last
    · have other : q ≠ p := Ne.symm same
      rw [if_neg same, Option.none_or, others q other]
      refine since q fun marked => hq ?_
      rw [memo_eq_inProgress_iff] at marked ⊢
      exact ⟨marked.1, (List.mem_cons.1 marked.2).resolve_left other⟩

end Session.Restores

namespace Session

variable {s : Session} {p : Place}

theorem memo_done {found : Forced} (h : s.finding? p = some found) :
    s.memo p = some (.done found) := by
  rw [memo, h]

theorem memo_inProgress (first : s.finding? p = none) (entered : p ∈ s.marks) :
    s.memo p = some .inProgress := by
  rw [memo, first]
  exact if_pos (List.contains_iff_mem.2 entered)

theorem memo_none (first : s.finding? p = none) (entered : p ∉ s.marks) : s.memo p = none := by
  rw [memo, first]
  exact if_neg (mt List.contains_iff_mem.1 entered)

theorem write_mark (entered : p ∉ s.marks) (first : s.finding? p = none) :
    s.write p (some .inProgress) = { s with marks := p :: s.marks } := by
  have others : s.marks.filter (· ≠ p) = s.marks := by
    refine List.filter_eq_self.2 fun q hq => decide_eq_true ?_
    rintro rfl
    exact entered hq
  unfold write
  rw [Store.forget_absent first, others]

theorem write_none (nothing : s.finding? p = none) :
    s.write p none = { s with marks := s.marks.filter (· ≠ p) } := by
  unfold write
  rw [Store.forget_absent nothing]

theorem write_done (nothing : s.finding? p = none) (found : Forced) :
    s.write p (some (.done found)) =
      { s with marks := s.marks.filter (· ≠ p),
               state := { s.state with store := s.state.store.keep p.1 p.2 found } } := by
  unfold write
  rw [Store.forget_absent nothing]

end Session

/-- The work leaves nothing found out about any binding. -/
def Run.FindsNothing {α : Type} (act : Run α) : Prop :=
  ∀ ctx s p, (act ctx s).2.store.finding? p = s.store.finding? p

namespace Run.FindsNothing

variable {α β : Type}

theorem ofStore {act : Run α} (h : ∀ ctx s, (act ctx s).2.store = s.store) : act.FindsNothing :=
  fun ctx s p => by rw [h]

theorem bind {act : Run α} {next : α → Run β} (first : act.FindsNothing)
    (last : ∀ a, (next a).FindsNothing) : (act >>= next).FindsNothing := by
  intro ctx s p
  have same := first ctx s p
  rw [Run.bind_eq_goOn]
  generalize act ctx s = ended at same
  obtain ⟨_ | _ | _, mid⟩ := ended
  · exact (last _ ctx mid p).trans same
  · exact same
  · exact same

theorem fail (d : Diagnostic) : (Run.fail d : Run α).FindsNothing := ofStore fun _ _ => rfl

theorem exhausted : (Run.exhausted : Run α).FindsNothing := ofStore fun _ _ => rfl

theorem ofExcept (e : Except Diagnostic α) : (Run.ofExcept e).FindsNothing :=
  ofStore fun _ _ => by cases e <;> rfl

theorem context : Run.context.FindsNothing := ofStore fun _ _ => rfl

theorem store : Run.store.FindsNothing := ofStore fun _ _ => rfl

theorem record (ds : List Diagnostic) : (Run.record ds).FindsNothing := fun _ _ _ => rfl

theorem push (op : Op) (pos : Position) : (Run.push op pos).FindsNothing := ofStore fun _ _ => rfl

theorem deferred (op : Op) (pos : Position) (shape : Shape) :
    (Run.deferred op pos shape).FindsNothing := ofStore fun _ _ => rfl

theorem capture (scope : Scope) (pos : Position) (nodes : List Tree) :
    (capture scope pos nodes).FindsNothing := deferred _ _ _

theorem materialize (operand : Operand) (pos : Position) :
    (Run.materialize operand pos).FindsNothing := by
  refine ofStore fun _ s => ?_
  unfold Run.materialize
  split <;> rfl

theorem evaluate : Run.evaluate.FindsNothing := fun ctx s =>
  bind (record s.block.evaluate.1) (fun _ => ofExcept s.block.evaluate.2) ctx s

theorem begin (pos : Position) (outer : Scope) (definitions : Definitions) :
    (Run.begin pos outer definitions).FindsNothing := fun _ s p =>
  congrArg (·.get? p.2) (s.store.findings_begin pos outer definitions p.1)

theorem finish (id : NamespaceId) (registry : Registry) :
    (Run.modifyStore (·.finish id registry)).FindsNothing := fun _ _ p =>
  Store.finding?_finish p

end Run.FindsNothing

namespace Work

variable {α β : Type}

/-- What came of work on a session is what came of a run, and the session is restored. -/
structure Mirrors (s : Session) (ended : Outcome α × Session) (model : Outcome α × State) : Prop where
  outcome : ended.1 = model.1
  state : ended.2.state = model.2
  restores : s.Restores ended.2

def Follows (act : Work α) (run : Run α) : Prop :=
  ∀ held s, Mirrors s (act held s) (run (s.context held) s.state)

def Forcing.Follows (force : Forcing) (force' : NamespaceLang.Forcing) : Prop :=
  ∀ id binding thunk slot, Work.Follows (force id binding thunk slot) (force' id binding thunk slot)

namespace Follows

theorem plain {run : Run α} (quiet : run.FindsNothing) : Follows (plain run) run :=
  fun held s => ⟨rfl, rfl, .ofSame rfl rfl rfl fun p => quiet (s.context held) s.state p⟩

theorem done (a : α) : Follows (pure a) (pure a) := fun _ s => ⟨rfl, rfl, .refl s⟩

theorem bind {act : Work α} {run : Run α} {next : α → Work β} {next' : α → Run β}
    (first : Follows act run) (last : ∀ a, Follows (next a) (next' a)) :
    Follows (act >>= next) (run >>= next') := by
  intro held s
  obtain ⟨outcome, state, restores⟩ := first held s
  rw [Run.bind_eq_goOn]
  show Mirrors s (Work.goOn next held (act held s)) _
  generalize act held s = ended, run (s.context held) s.state = model at outcome state restores
  obtain ⟨came, mid⟩ := ended
  obtain ⟨came', after⟩ := model
  obtain rfl : came = came' := outcome
  obtain rfl : mid.state = after := state
  cases came with
  | failed d => exact ⟨rfl, rfl, restores⟩
  | exhausted => exact ⟨rfl, rfl, restores⟩
  | done a =>
    have same : mid.context held = s.context held := by
      rw [Session.context, restores.trace, restores.marks]
      rfl
    obtain ⟨outcome', state', restores'⟩ := last a held mid
    rw [same] at outcome' state'
    exact ⟨outcome', state', restores.trans restores'⟩

theorem holding (ids : List NamespaceId) {act : Work α} {run : Run α} (h : Follows act run) :
    Follows (holding ids act) (Run.holding ids run) :=
  fun held s => h (ids ++ held) s

theorem inNewBlock {act : Work α} {run : Run α} (h : Follows act run) :
    Follows (inNewBlock act) (Run.inNewBlock run) := by
  intro held s
  obtain ⟨outcome, state, restores⟩ := h held
    { s with state := ⟨s.state.store.newBlock.2, s.state.store.newBlock.1⟩ }
  refine ⟨outcome, ?_, ?_⟩
  · exact congrArg (fun after : State => { after with block := s.state.block }) state
  · exact ⟨restores.trace, restores.marks, restores.kept, restores.marked, restores.settled⟩

theorem attempt {act : Work Unit} {run : Run Unit} (h : Follows act run) :
    Follows (attempt act) (Run.attempt run) := by
  intro held s
  obtain ⟨outcome, state, restores⟩ := h held s
  unfold Work.attempt Run.attempt
  generalize act held s = ended, run (s.context held) s.state = model at outcome state restores
  obtain ⟨came, after⟩ := ended
  obtain ⟨came', last⟩ := model
  obtain rfl : came = came' := outcome
  obtain rfl : after.state = last := state
  cases came with
  | done _ => exact ⟨rfl, rfl, restores⟩
  | exhausted => exact ⟨rfl, rfl, restores⟩
  | failed d => exact ⟨rfl, rfl, restores.trans (.ofSame rfl rfl rfl fun _ => rfl)⟩

theorem workOut {analyze : Scope → Shape → Position → List Tree → Work Analysis}
    {analyze' : Scope → Shape → Position → List Tree → Run Analysis} (thunk : Thunk) (slot : Shape)
    (h : Follows (analyze thunk.scope slot thunk.pos thunk.nodes)
      (analyze' thunk.scope slot thunk.pos thunk.nodes)) :
    Follows (workOut analyze thunk slot) (NamespaceLang.workOut analyze' thunk slot) :=
  inNewBlock <| h.bind fun _ => (plain .evaluate).bind fun _ =>
    (plain (.ofExcept _)).bind fun _ => done _

theorem forceBy {analyze : Scope → Shape → Position → List Tree → Work Analysis}
    {analyze' : Scope → Shape → Position → List Tree → Run Analysis}
    (h : ∀ scope slot pos nodes, Follows (analyze scope slot pos nodes) (analyze' scope slot pos nodes))
    (id : NamespaceId) (binding : Binding) (thunk : Thunk) (slot : Shape) :
    Follows (Work.forceBy analyze id binding thunk slot)
      (NamespaceLang.forceBy analyze' id binding thunk slot) := by
  intro held s
  rw [forceBy_apply]
  unfold Work.forceBy
  dsimp only
  cases first : s.finding? (id, binding) with
  | some found =>
    have known : (s.state.store.get id).findings.get? binding = some found := first
    rw [Session.memo_done first, known]
    refine ⟨rfl, rfl, .note s _ true fun h => ?_⟩
    cases h
  | none =>
    have unknown : (s.state.store.get id).findings.get? binding = none := first
    rw [unknown]
    by_cases entered : (id, binding) ∈ s.marks
    · rw [Session.memo_inProgress first entered]
      have again : (id, binding) ∈ (s.context held).forcing := entered
      dsimp only
      rw [if_pos again]
      exact ⟨rfl, rfl, .note s _ false fun _ => first⟩
    · rw [Session.memo_none first entered, Session.write_mark entered first]
      have new : (id, binding) ∉ (s.context held).forcing := entered
      dsimp only
      rw [if_neg new]
      generalize inside : ({ s with
        trace := s.trace ++ [⟨forceMark ++ binding.label, thunk.pos⟩]
        marks := (id, binding) :: s.marks } : Session) = begun
      have inner : Mirrors begun (Work.workOut analyze thunk slot (id :: held) begun)
          (NamespaceLang.workOut analyze' thunk slot
            ((s.context held).inside id binding thunk.pos) s.state) := by
        have worked := workOut thunk slot (h _ _ _ _) (id :: held) begun
        subst inside
        exact worked
      unfold Work.within
      dsimp only
      rw [inside, Run.bind_apply]
      generalize Work.workOut analyze thunk slot (id :: held) begun = ended,
        NamespaceLang.workOut analyze' thunk slot _ s.state = model at inner
      obtain ⟨came, after⟩ := ended
      obtain ⟨came', last⟩ := model
      obtain ⟨rfl, rfl, restores⟩ := inner
      subst inside
      have nothing : ({ after with trace := after.trace.dropLast } : Session).finding?
          (id, binding) = none := (restores.marked _ List.mem_cons_self).trans first
      cases came with
      | done found =>
        dsimp only
        rw [Session.write_done nothing]
        refine ⟨rfl, rfl, restores.inside entered rfl rfl rfl (fun q other => ?_) first fun h => ?_⟩
        · exact Store.finding?_keep_of_ne other found
        · cases h
      | failed d =>
        dsimp only
        rw [Session.write_none nothing]
        exact ⟨rfl, rfl, restores.inside entered rfl rfl rfl (fun _ _ => rfl) first fun _ => nothing⟩
      | exhausted =>
        dsimp only
        rw [Session.write_none nothing]
        exact ⟨rfl, rfl, restores.inside entered rfl rfl rfl (fun _ _ => rfl) first fun _ => nothing⟩

section

variable {force : Forcing} {force' : NamespaceLang.Forcing} (h : force.Follows force')

include h

theorem forceField (id : NamespaceId) (key : FieldKey) (slot : Shape) :
    Follows (Work.forceFieldWith force id key slot) (NamespaceLang.forceFieldWith force' id key slot) := by
  refine bind (plain .store) fun store => ?_
  dsimp only
  cases (store.get id).field? key with
  | none => exact plain (.fail _)
  | some entry => exact bind (h _ _ _ _) fun _ => done _

theorem readField (id : NamespaceId) (key : FieldKey) (slot : Shape) :
    Follows (Work.readFieldWith? force id key slot)
      (NamespaceLang.readFieldWith? force' id key slot) := by
  refine bind (plain .store) fun store => ?_
  split
  · exact bind (forceField h id key slot) fun _ => done _
  · exact done _

theorem resolveIn (id : NamespaceId) (pos : Position) (name : String) (slot : Shape) :
    Follows (Work.resolveInWith force id pos name slot)
      (NamespaceLang.resolveInWith force' id pos name slot) := by
  refine bind (plain .store) fun store => ?_
  cases (store.get id).definitions.get? name with
  | none => exact readField h id _ slot
  | some found =>
    dsimp only
    split
    · exact bind (h _ _ _ _) fun _ => done _
    · exact plain (.fail _)

theorem resolve (pos : Position) (name : String) (slot : Shape) (scope : Scope) :
    Follows (Work.resolveWith force pos name slot scope)
      (NamespaceLang.resolveWith force' pos name slot scope) := by
  induction scope with
  | nil => exact plain (.fail _)
  | cons id outer ih =>
    refine bind (plain .store) fun store => bind (plain .context) fun ctx => ?_
    split
    · refine bind (resolveIn h id pos name slot) fun found? => ?_
      cases found? with
      | none => exact ih
      | some found => exact done found
    · exact plain (.fail _)

theorem readString (target : NamespaceRef) (pos : Position) (name : String) :
    Follows (Work.readStringWith force target pos name)
      (NamespaceLang.readStringWith force' target pos name) := by
  cases target with
  | builtin =>
    unfold Work.readStringWith NamespaceLang.readStringWith
    cases Builtin.ofName? name with
    | none => exact plain (.fail _)
    | some builtin => exact plain (.deferred _ _ _)
  | declared id =>
    refine bind (plain .store) fun store => ?_
    dsimp only
    split
    · refine bind (readField h id _ _) fun found? => ?_
      cases found? with
      | none => exact plain (.fail _)
      | some found => exact done found
    · exact plain (.fail _)

theorem readSymbol (target : NamespaceRef) (builtin : Builtin) (slot : Shape) :
    Follows (Work.readSymbolWith force target builtin slot)
      (NamespaceLang.readSymbolWith force' target builtin slot) := by
  cases target with
  | builtin => exact done none
  | declared id => exact readField h id _ slot

theorem access (left : Analysis) (pos : Position) (name : String) :
    Follows (Work.accessWith force left pos name) (NamespaceLang.accessWith force' left pos name) := by
  unfold Work.accessWith NamespaceLang.accessWith
  cases left.shape with
  | namespaceOf target => exact holding _ (readString h target pos name)
  | _ => exact plain (.fail _)

theorem leaf (scope : Scope) (slot : Shape) (pos : Position) (leaf : Leaf) :
    Follows (Work.analyzeLeafWith force scope slot pos leaf)
      (NamespaceLang.analyzeLeafWith force' scope slot pos leaf) := by
  cases leaf with
  | identifier sigil name =>
    cases sigil with
    | plain => exact resolve h pos name slot scope
    | builtin =>
      unfold Work.analyzeLeafWith NamespaceLang.analyzeLeafWith
      dsimp only
      split
      · exact bind (plain (.push _ _)) fun _ => done _
      · exact plain (.fail _)
    | access =>
      unfold Work.analyzeLeafWith NamespaceLang.analyzeLeafWith
      dsimp only
      split
      · exact plain (.deferred _ _ _)
      · exact plain (.fail _)
  | _ => exact plain (.fail _)

omit h in
theorem call (pos : Position) (method : Analysis) {argument : Shape → Work Analysis}
    {argument' : Shape → Run Analysis} (given : ∀ slot, Follows (argument slot) (argument' slot)) :
    Follows (Work.call pos method argument) (NamespaceLang.call pos method argument') := by
  unfold Work.call NamespaceLang.call
  cases method.shape with
  | function slot ret =>
    exact bind (holding _ (given slot)) fun _ => bind (plain (.materialize _ _)) fun _ =>
      bind (plain (.materialize _ _)) fun _ => plain (.deferred _ _ _)
  | _ => exact plain (.fail _)

end

theorem literal?_eq_none {first : Tree} {rest : List Tree}
    (h : ∀ start bodyPos opening closing body more,
      first = .leaf start (.identifier .plain "ns") →
      rest = .group bodyPos (.block .list opening closing) body :: more → False) :
    literal? (first :: rest) = none := by
  unfold literal?
  split
  · next he =>
    cases he
    exact (h _ _ _ _ _ _ rfl rfl).elim
  · rfl

section

variable {force : Forcing} {force' : NamespaceLang.Forcing}

mutual

theorem expression (h : force.Follows force') (scope : Scope) (slot : Shape) (pos : Position) (nodes : List Tree) :
    Follows (Work.analyzeWith force scope slot pos nodes)
      (NamespaceLang.analyzeWith force' scope slot pos nodes) := by
  by_cases kept : slot = .ast
  · subst kept
    rw [Work.analyzeWith.eq_def, NamespaceLang.analyzeWith.eq_def]
    exact plain (.capture _ _ _)
  · rw [Work.analyzeWith.eq_def, analyzeWith_of_ne_ast force' scope kept]
    split
    · exact absurd rfl kept
    · split
      · next items =>
        rw [show Tree.solid nodes = [] from items]
        exact plain (.fail _)
      · next start bodyPos opening closing body rest items =>
        have light := Tree.weightAll_of_solid items
        rw [show Tree.solid nodes = _ from items]
        exact bind (declare h scope bodyPos body) fun id => bind (plain (.push _ _)) fun _ =>
          suffixes h scope _ rest
      · next first rest notLiteral items =>
        have light := Tree.weightAll_of_solid items
        rw [show Tree.solid nodes = _ from items]
        rw [analyzeHeadWith, literal?_eq_none notLiteral]
        exact bind (base h scope _ first) fun left => suffixes h scope left rest
termination_by 3 * Tree.weightAll nodes + 1
decreasing_by
  all_goals
    simp only [Tree.weightAll, Tree.weight] at light
    omega

theorem base (h : force.Follows force') (scope : Scope) (slot : Shape) (node : Tree) :
    Follows (Work.analyzeBaseWith force scope slot node)
      (NamespaceLang.analyzeBaseWith force' scope slot node) := by
  rw [Work.analyzeBaseWith.eq_def, NamespaceLang.analyzeBaseWith.eq_def]
  cases node with
  | leaf pos content => exact leaf h scope slot pos content
  | group pos form items =>
    cases form with
    | block tag opening closing =>
      cases tag with
      | code => exact expression h scope slot pos items
      | arrowFunction => exact bind (plain (.ofExcept _)) fun _ => plain (.fail _)
      | _ => exact plain (.fail _)
    | _ => exact plain (.fail _)
termination_by 3 * node.weight
decreasing_by simp only [Tree.weight]; omega

theorem suffixes (h : force.Follows force') (scope : Scope) (left : Analysis) (nodes : List Tree) :
    Follows (Work.analyzeSuffixesWith force scope left nodes)
      (NamespaceLang.analyzeSuffixesWith force' scope left nodes) := by
  cases nodes with
  | nil =>
    rw [Work.analyzeSuffixesWith.eq_def, NamespaceLang.analyzeSuffixesWith.eq_def]
    exact done left
  | cons node rest =>
    rw [Work.analyzeSuffixesWith.eq_def, NamespaceLang.analyzeSuffixesWith.eq_def]
    have light := node.weight_pos
    have after := fun next => suffixes h scope next rest
    cases node with
    | leaf pos content =>
      cases content with
      | identifier sigil name =>
        cases sigil with
        | builtin => exact bind (plain (.fail _)) after
        | plain | access => exact bind (access h left pos name) after
      | bare tag spelling =>
        cases tag with
        | access => exact bind (done left) after
        | _ => exact bind (plain (.fail _)) after
      | _ => exact bind (plain (.fail _)) after
    | group pos form items =>
      cases form with
      | block tag opening closing =>
        cases tag with
        | code =>
          refine bind (call pos left fun slot => ?_) after
          have given := expression h scope slot pos items
          cases slot with
          | void =>
            cases Tree.trim items with
            | nil => exact plain (.deferred _ _ _)
            | cons _ _ => exact given
          | _ => exact given
        | _ => exact bind (plain (.fail _)) after
      | _ => exact bind (plain (.fail _)) after
termination_by 3 * Tree.weightAll nodes
decreasing_by
  all_goals
    simp only [Tree.weightAll, Tree.weight] at *
    omega

theorem declare (h : force.Follows force') (outer : Scope) (pos : Position) (nodes : List Tree) :
    Follows (Work.declareWith force outer pos nodes)
      (NamespaceLang.declareWith force' outer pos nodes) := by
  rw [Work.declareWith.eq_def, NamespaceLang.declareWith.eq_def]
  cases read : Body.read pos nodes with
  | error d => exact plain (.fail d)
  | ok parts =>
    obtain ⟨body, found⟩ := parts
    have light := Body.read_weight pos nodes body found read
    refine bind (plain (.record found)) fun _ => bind (plain (.begin _ _ _)) fun id => ?_
    refine bind (holding _ (inNewBlock ?_)) fun registry => bind (plain (.finish id registry))
      fun _ => done id
    exact bind (plain (.push _ _)) fun list => bind (lines h (id :: outer) list body.lines) fun _ =>
      bind (plain .evaluate) fun _ => plain (.ofExcept _)
termination_by 3 * Tree.weightAll nodes + 4
decreasing_by omega

theorem lines (h : force.Follows force') (scope : Scope) (list : InstrRef) (rest : List Line) :
    Follows (Work.declareLinesWith force scope list rest)
      (NamespaceLang.declareLinesWith force' scope list rest) := by
  cases rest with
  | nil =>
    rw [Work.declareLinesWith.eq_def, NamespaceLang.declareLinesWith.eq_def]
    exact done ()
  | cons own rest =>
    rw [Work.declareLinesWith.eq_def, NamespaceLang.declareLinesWith.eq_def]
    exact bind (attempt (line h scope list own)) fun _ => lines h scope list rest
termination_by lineWeight rest
decreasing_by all_goals simp only [lineWeight]; omega

theorem line (h : force.Follows force') (scope : Scope) (list : InstrRef) (own : Line) :
    Follows (Work.declareLineWith force scope list own)
      (NamespaceLang.declareLineWith force' scope list own) := by
  rw [Work.declareLineWith.eq_def, NamespaceLang.declareLineWith.eq_def]
  cases read : twoSided? ChainTag.bindsField own.pos own.items with
  | error d => exact plain (.fail d)
  | ok sides? =>
    cases sides? with
    | none => exact bind (expression h scope .void own.pos own.items) fun _ => done ()
    | some sides =>
      have light := twoSided?_weight _ _ _ _ read
      refine bind (expression h scope .key sides.left.pos sides.leftItems) fun key => ?_
      cases key.shape with
      | stringKey _ | symbolKey _ _ =>
        exact bind (plain (.materialize _ _)) fun _ => bind (plain (.capture _ _ _)) fun _ =>
          bind (plain (.materialize _ _)) fun _ => bind (plain (.push _ _)) fun _ => done ()
      | _ => exact plain (.fail _)
termination_by 3 * Tree.weightAll own.items + 2
decreasing_by all_goals omega

end

theorem argument (h : force.Follows force') (scope : Scope) (pos : Position) (items : List Tree)
    (slot : Shape) :
    Follows (Work.argumentWith force scope pos items slot)
      (NamespaceLang.argumentWith force' scope pos items slot) := by
  have given := expression h scope slot pos items
  unfold Work.argumentWith NamespaceLang.argumentWith
  cases slot with
  | void =>
    cases Tree.trim items with
    | nil => exact plain (.deferred _ _ _)
    | cons _ _ => exact given
  | _ => exact given

end

theorem forceWithin : ∀ depth, (Work.forceWithin depth).Follows (NamespaceLang.forceWithin depth)
  | 0 => fun _ _ _ _ => plain .exhausted
  | depth + 1 => forceBy fun scope slot pos nodes => expression (forceWithin depth) scope slot pos nodes

theorem withForcing {act : Forcing → Work α} {act' : NamespaceLang.Forcing → Run α}
    (nodes : List Tree)
    (h : ∀ force force', Forcing.Follows force force' → Follows (act force) (act' force')) :
    Follows (Work.withForcing nodes act) (NamespaceLang.withForcing nodes act') :=
  bind (plain .store) fun _ => h _ _ (forceWithin _)

theorem operation (o : Operation) : Follows o.work o.run := by
  cases o with
  | resolve scope pos name slot =>
    exact withForcing [] fun _ _ h => resolve h pos name slot scope
  | readString target pos name => exact withForcing [] fun _ _ h => readString h target pos name
  | readSymbol target builtin slot =>
    exact withForcing [] fun _ _ h => readSymbol h target builtin slot
  | analyze scope slot pos nodes =>
    exact withForcing nodes fun _ _ h => expression h scope slot pos nodes
  | call scope pos method items =>
    exact withForcing items fun _ _ h => call pos method (argument h scope pos items)
  | enter pos method => exact call pos method fun _ => plain (.deferred _ _ _)
  | declare outer pos nodes => exact withForcing nodes fun _ _ h => declare h outer pos nodes
  | evaluate => exact plain .evaluate

end Follows

end Work

/-- Whatever is asked for, and whether it is found or fails at whatever depth, it comes to what it
comes to where trace and marks are only read. Afterwards the trace is the same, the same bindings
are marked as being looked into, and what had been found is kept. Nothing is left of a binding that
was looked into in vain, if nothing was found at a later time. -/
theorem operation_restores (o : Operation) (held : List NamespaceId) (s : Session) :
    let ended := o.work held s
    (ended.1, ended.2.state) = o.run (s.context held) s.state ∧
      ended.2.trace = s.trace ∧
      (∀ p, ended.2.memo p = some .inProgress ↔ s.memo p = some .inProgress) ∧
      (∀ p found, s.memo p = some (.done found) → ended.2.memo p = some (.done found)) ∧
      ∀ p earlier later, ended.2.ended = s.ended ++ (earlier ++ (p, false) :: later) →
        (p, true) ∉ later → s.memo p ≠ some .inProgress → ended.2.memo p = none := by
  obtain ⟨outcome, state, restores⟩ := Work.Follows.operation o held s
  refine ⟨Prod.ext outcome state, restores.trace, fun p => ?_, fun p found known => ?_,
    fun p earlier later log vain idle => ?_⟩
  · simp only [Session.memo_eq_inProgress_iff, restores.marks]
    exact and_congr_left fun entered => by rw [restores.marked p entered]
  · rw [Session.memo_eq_done_iff] at known ⊢
    exact restores.kept p found known
  · obtain ⟨more, noted, settled⟩ := restores.settled
    obtain rfl : earlier ++ (p, false) :: later = more :=
      List.append_cancel_left (log.symm.trans noted)
    have last : lastOf p (earlier ++ (p, false) :: later) = some false := by
      rw [lastOf_append, ← List.singleton_append, lastOf_append, lastOf_single, if_pos rfl]
      cases since : lastOf p later with
      | none => rfl
      | some found =>
        have noted := mem_of_lastOf since
        cases found with
        | true => exact absurd noted vain
        | false => rfl
    have nothing := (settled p idle).2 last
    refine Session.memo_none nothing fun marked => idle ?_
    rw [restores.marks] at marked
    exact Session.memo_eq_inProgress_iff.2 ⟨(restores.marked p marked).symm.trans nothing, marked⟩

example :
    let nodes := (tokenize "t.cvl" "x :: x".toList).nodes
    let p : Place := (0, .definition "x")
    let declared := (Operation.declare [] (.start "t.cvl") nodes).work [] ⟨[], [], .opening [], []⟩
    let asked := (Operation.resolve [0] (.start "t.cvl") "x" .unknown).work [0] declared.2
    asked.2.ended = [(p, false), (p, false)] ∧ (asked.2.memo p).isNone = true := by
  decide +kernel

end NamespaceLang

import NamespaceLang.Proofs.Analysis.Moments
import NamespaceLang.Proofs.Store.Reordered

/-!
# Work that sees no order

Bindings are looked for by name. So work that is begun in stores which differ in the order of
definitions and of fields comes to the same end in both, tells of the same problems, and leaves
stores that differ in nothing else again. This holds of each piece of work and of what it is put
together from.
-/

set_option autoImplicit false

namespace NamespaceLang

variable {α β : Type}

namespace Store.Reordered

variable {s t : Store}

theorem definition? (h : s.Reordered t) (id : NamespaceId) (name : String) :
    (t.get id).definitions.get? name = (s.get id).definitions.get? name :=
  (h.each id).definitions.get? name

theorem binds? (h : s.Reordered t) (name : String) (id : NamespaceId) :
    t.binds? name id = s.binds? name id := by
  rw [Store.binds?, Store.binds?, h.definition?, (h.each id).field?]

theorem source? (h : s.Reordered t) (id : NamespaceId) (binding : Binding) :
    t.source? id binding = s.source? id binding := by
  cases binding with
  | definition name => rw [Store.source?, Store.source?, h.definition?, h.scopeOf]
  | field key => rw [Store.source?, Store.source?, (h.each id).field?]

theorem reach (h : s.Reordered t) (held : List NamespaceId) (name : String) (scope : Scope) :
    t.reach held name scope = s.reach held name scope := by
  induction scope with
  | nil => rfl
  | cons id outer ih => rw [Store.reach, Store.reach, h.isAlive, h.binds?, ih]

end Store.Reordered

/-- The stores differ in an order, the blocks in nothing. -/
structure State.Reordered (s t : State) : Prop where
  store : s.store.Reordered t.store
  block : t.block = s.block

/-- What work comes to does not depend on the order of definitions and of fields. -/
def Run.Blind (act : Run α) : Prop :=
  ∀ ctx s t, s.Reordered t →
    (act ctx t).1 = (act ctx s).1 ∧ (act ctx s).2.Reordered (act ctx t).2

def Forcing.Blind (force : Forcing) : Prop :=
  ∀ id binding thunk slot, (force id binding thunk slot).Blind

namespace Run.Blind

theorem done (a : α) : (pure a : Run α).Blind := fun _ _ _ h => ⟨rfl, h⟩

theorem exhausted : (Run.exhausted : Run α).Blind := fun _ _ _ h => ⟨rfl, h⟩

theorem fail (d : Diagnostic) : (Run.fail d : Run α).Blind := fun _ _ _ h => ⟨rfl, h⟩

theorem ofExcept (e : Except Diagnostic α) : (Run.ofExcept e).Blind := by
  cases e with
  | ok a => exact done a
  | error d => exact fail d

theorem bind {act : Run α} {next : α → Run β} (h : act.Blind) (hn : ∀ a, (next a).Blind) :
    (act >>= next).Blind := by
  intro ctx s t hs
  obtain ⟨same, state⟩ := h ctx s t hs
  rw [Run.bind_eq_goOn, Run.bind_eq_goOn]
  generalize act ctx s = ended, act ctx t = ended' at same state
  obtain ⟨outcome, mid⟩ := ended
  obtain ⟨outcome', mid'⟩ := ended'
  -- one outcome for both, so that both go on in the same way
  cases same
  cases outcome with
  | done a => exact hn a ctx mid mid' state
  | failed d => exact ⟨rfl, state⟩
  | exhausted => exact ⟨rfl, state⟩

/-- Work that reads from the state nothing that an order decides. -/
theorem pointwise {act : Run α} (other : Context → State → Run α)
    (same : ∀ ctx s, act ctx s = other ctx s ctx s)
    (alike : ∀ ctx s t, s.Reordered t → other ctx t = other ctx s)
    (h : ∀ ctx s, (other ctx s).Blind) : act.Blind := by
  intro ctx s t hs
  rw [same, same, alike ctx s t hs]
  exact h ctx s ctx s t hs

theorem store {next : Store → Run α} (alike : ∀ u v, u.Reordered v → next v = next u)
    (h : ∀ u, (next u).Blind) : (Run.store >>= next).Blind :=
  pointwise (fun _ s => next s.store) (fun _ _ => rfl) (fun _ _ _ hs => alike _ _ hs.store)
    fun _ s => h s.store

theorem context {next : Context → Run α} (h : ∀ ctx, (next ctx).Blind) :
    (Run.context >>= next).Blind := fun ctx s t hs => h ctx ctx s t hs

theorem modifyStore {f : Store → Store} (h : ∀ u v, u.Reordered v → (f u).Reordered (f v)) :
    (Run.modifyStore f).Blind := fun _ _ _ hs => ⟨rfl, h _ _ hs.store, hs.block⟩

theorem record (ds : List Diagnostic) : (Run.record ds).Blind := fun _ _ _ hs =>
  ⟨rfl, hs.store.record _, hs.block⟩

theorem begin (pos : Position) (outer : Scope) (definitions : Definitions) :
    (Run.begin pos outer definitions).Blind := fun _ _ _ hs =>
  ⟨congrArg Outcome.done hs.store.size, hs.store.begin pos outer (.refl definitions), hs.block⟩

theorem attempt {act : Run Unit} (h : act.Blind) : (Run.attempt act).Blind := by
  intro ctx s t hs
  obtain ⟨same, state⟩ := h ctx s t hs
  rw [Run.attempt_eq_tell, Run.attempt_eq_tell]
  generalize act ctx s = ended, act ctx t = ended' at same state
  obtain ⟨outcome, mid⟩ := ended
  obtain ⟨outcome', mid'⟩ := ended'
  cases same
  cases outcome with
  | done a => exact ⟨rfl, state⟩
  | failed d => exact ⟨rfl, state.store.record [d], state.block⟩
  | exhausted => exact ⟨rfl, state⟩

theorem within {act : Run α} (h : act.Blind) (label : String) (pos : Position) :
    (Run.within label pos act).Blind := fun _ s t hs => h _ s t hs

theorem holding {act : Run α} (h : act.Blind) (ids : List NamespaceId) :
    (Run.holding ids act).Blind := fun _ s t hs => h _ s t hs

theorem entering {act : Run α} (h : act.Blind) (id : NamespaceId) (binding : Binding) :
    (Run.entering id binding act).Blind := fun _ s t hs => h _ s t hs

theorem inNewBlock {act : Run α} (h : act.Blind) : (Run.inNewBlock act).Blind := by
  intro ctx s t hs
  have begun : State.Reordered ⟨s.store.newBlock.2, s.store.newBlock.1⟩
      ⟨t.store.newBlock.2, t.store.newBlock.1⟩ :=
    ⟨hs.store.newBlock, congrArg Block.new hs.store.nextBlock⟩
  obtain ⟨same, state⟩ := h ctx _ _ begun
  exact ⟨same, state.store, hs.block⟩

theorem push (op : Op) (pos : Position) : (Run.push op pos).Blind := by
  intro _ s t hs
  unfold Run.push
  rw [hs.block]
  exact ⟨rfl, hs.store, rfl⟩

theorem deferred (op : Op) (pos : Position) (shape : Shape) : (Run.deferred op pos shape).Blind :=
  bind (push op pos) fun _ => done _

theorem materialize (operand : Operand) (pos : Position) : (Run.materialize operand pos).Blind := by
  intro _ s t hs
  unfold Run.materialize
  rw [hs.block]
  split
  · exact ⟨rfl, hs.store, rfl⟩
  · exact ⟨rfl, hs⟩

theorem evaluate : Run.evaluate.Blind :=
  pointwise (fun _ s => do Run.record s.block.evaluate.1; Run.ofExcept s.block.evaluate.2)
    (fun _ _ => rfl) (fun _ s t hs => by rw [hs.block]) fun _ s =>
      bind (record _) fun _ => ofExcept _

theorem capture (scope : Scope) (pos : Position) (nodes : List Tree) :
    (NamespaceLang.capture scope pos nodes).Blind := deferred _ _ _

theorem workOut_blind {analyze : Scope → Shape → Position → List Tree → Run Analysis}
    (h : ∀ scope slot pos nodes, (analyze scope slot pos nodes).Blind) (thunk : Thunk) (slot : Shape) :
    (workOut analyze thunk slot).Blind :=
  inNewBlock <| bind (h _ _ _ _) fun _ => bind evaluate fun _ => bind (ofExcept _) fun _ => done _

theorem forceBy_blind {analyze : Scope → Shape → Position → List Tree → Run Analysis}
    (h : ∀ scope slot pos nodes, (analyze scope slot pos nodes).Blind) : (forceBy analyze).Blind := by
  intro id binding thunk slot
  refine holding (store (fun u v huv => ?_) fun u => ?_) _
  · rw [(huv.each id).findings]
  · split
    · exact done _
    · refine context fun ctx => ?_
      split
      · exact fail _
      · exact bind (within (entering (workOut_blind h thunk slot) id binding) _ _) fun found =>
          bind (modifyStore fun _ _ huv => huv.keep id binding found) fun _ => done _

section

variable {force : Forcing} (h : force.Blind)

include h

theorem readField_blind (id : NamespaceId) (key : FieldKey) (slot : Shape) :
    (readFieldWith? force id key slot).Blind := by
  refine pointwise (fun _ s => ((s.store.get id).field? key).elim (pure none) fun entry => do
    return some (← force id (.field key) entry.thunk slot).analysis) (fun ctx s => ?_)
    (fun _ s t hs => by rw [(hs.store.each id).field?]) fun _ s => ?_
  · rw [readFieldWith?_apply]
    cases (s.store.get id).field? key <;> rfl
  · cases (s.store.get id).field? key with
    | some entry => exact bind (h _ _ _ _) fun _ => done _
    | none => exact done none

theorem resolve_blind (pos : Position) (name : String) (slot : Shape) (scope : Scope) :
    (resolveWith force pos name slot scope).Blind := by
  refine pointwise
    (fun ctx s => useReached force pos name slot s.store (s.store.reach ctx.held name scope))
    (fun ctx s => resolveWith_apply force pos name slot scope ctx s) (fun ctx s t hs => ?_)
    fun ctx s => ?_
  · rw [hs.store.reach]
    unfold useReached
    split
    · rw [hs.store.source?]
    · rfl
    · rfl
  · unfold useReached
    split
    · split
      · exact bind (h _ _ _ _) fun _ => done _
      · exact fail _
    · exact fail _
    · exact fail _

theorem readString_blind (target : NamespaceRef) (pos : Position) (name : String) :
    (readStringWith force target pos name).Blind := by
  cases target with
  | builtin =>
    unfold readStringWith
    dsimp only
    split
    · exact deferred _ _ _
    · exact fail _
  | declared id =>
    refine store (fun u v huv => ?_) fun u => ?_
    · dsimp only
      rw [(huv.each id).finished, (huv.each id).pos]
    · dsimp only
      split
      · refine bind (readField_blind h id _ _) fun found? => ?_
        cases found? with
        | none => exact fail _
        | some found => exact done found
      · exact fail _

theorem readSymbol_blind (target : NamespaceRef) (builtin : Builtin) (slot : Shape) :
    (readSymbolWith force target builtin slot).Blind := by
  cases target with
  | builtin => exact done none
  | declared id => exact readField_blind h id _ slot

theorem access_blind (left : Analysis) (pos : Position) (name : String) :
    (accessWith force left pos name).Blind := by
  unfold accessWith
  split
  · exact holding (readString_blind h _ pos name) _
  · exact fail _
  · exact fail _

theorem leaf_blind (scope : Scope) (slot : Shape) (pos : Position) (leaf : Leaf) :
    (analyzeLeafWith force scope slot pos leaf).Blind := by
  unfold analyzeLeafWith
  split
  · split
    · exact bind (push _ _) fun _ => done _
    · exact fail _
  · split
    · exact deferred _ _ _
    · exact fail _
  · exact resolve_blind h pos _ slot scope
  · exact fail _
  · exact fail _

end

theorem call_blind (pos : Position) (method : Analysis) {argument : Shape → Run Analysis}
    (h : ∀ slot, (argument slot).Blind) : (call pos method argument).Blind := by
  unfold call
  split
  · exact bind (holding (h _) _) fun _ => bind (materialize _ _) fun _ =>
      bind (materialize _ _) fun _ => deferred _ _ _
  · exact fail _

theorem declareField_blind (scope : Scope) (list : InstrRef) (sides : TwoSided) (key : Analysis) :
    (declareField scope list sides key).Blind :=
  bind (materialize _ _) fun _ => bind (capture _ _ _) fun _ => bind (materialize _ _) fun _ =>
    bind (push _ _) fun _ => done _

section

variable {force : Forcing}

mutual

theorem expression_blind (h : force.Blind) (scope : Scope) (slot : Shape) (pos : Position)
    (nodes : List Tree) : (analyzeWith force scope slot pos nodes).Blind := by
  by_cases kept : slot = .ast
  · subst kept
    rw [analyzeWith.eq_def]
    exact capture scope pos nodes
  · rw [analyzeWith.eq_def]
    split
    · exact absurd rfl kept
    · split
      · exact fail _
      · next start bodyPos opening closing body rest items =>
        have light := Tree.weightAll_of_solid items
        exact bind (declare_blind h scope bodyPos body) fun id =>
          bind (push _ _) fun _ => suffixes_blind h scope _ rest
      · next first rest notLiteral items =>
        have light := Tree.weightAll_of_solid items
        exact bind (base_blind h scope _ first) fun left => suffixes_blind h scope left rest
termination_by 3 * Tree.weightAll nodes + 1
decreasing_by
  all_goals
    simp only [Tree.weightAll, Tree.weight] at light
    omega

theorem base_blind (h : force.Blind) (scope : Scope) (slot : Shape) (node : Tree) :
    (analyzeBaseWith force scope slot node).Blind := by
  rw [analyzeBaseWith.eq_def]
  match node with
  | .leaf pos content => exact leaf_blind h scope slot pos content
  | .group pos form items =>
    cases form with
    | block tag opening closing =>
      cases tag with
      | code => exact expression_blind h scope slot pos items
      | arrowFunction => exact bind (ofExcept _) fun _ => fail _
      | _ => exact fail _
    | _ => exact fail _
termination_by 3 * node.weight
decreasing_by simp only [Tree.weight]; omega

theorem suffixes_blind (h : force.Blind) (scope : Scope) (left : Analysis) (nodes : List Tree) :
    (analyzeSuffixesWith force scope left nodes).Blind := by
  match nodes with
  | [] =>
    rw [analyzeSuffixesWith.eq_def]
    exact done left
  | node :: rest =>
    have light := node.weight_pos
    have after : ∀ next, (analyzeSuffixesWith force scope next rest).Blind :=
      fun next => suffixes_blind h scope next rest
    rw [analyzeSuffixesWith.eq_def]
    match node with
    | .leaf pos content =>
      cases content with
      | identifier sigil name =>
        cases sigil with
        | builtin => exact bind (fail _) after
        | plain | access => exact bind (access_blind h left pos name) after
      | bare tag spelling =>
        cases tag with
        | access => exact bind (done left) after
        | _ => exact bind (fail _) after
      | _ => exact bind (fail _) after
    | .group pos form items =>
      cases form with
      | block tag opening closing =>
        cases tag with
        | code =>
          refine bind (call_blind pos left fun slot => ?_) after
          have given := expression_blind h scope slot pos items
          split
          · exact deferred _ _ _
          · exact given
        | _ => exact bind (fail _) after
      | _ => exact bind (fail _) after
termination_by 3 * Tree.weightAll nodes
decreasing_by
  all_goals
    simp only [Tree.weightAll, Tree.weight] at *
    omega

theorem declare_blind (h : force.Blind) (outer : Scope) (pos : Position) (nodes : List Tree) :
    (declareWith force outer pos nodes).Blind := by
  rw [declareWith.eq_def]
  split
  · exact fail _
  · next body found read =>
    have light := Body.read_weight pos nodes body found read
    refine bind (record found) fun _ => bind (begin pos outer body.definitions) fun id => ?_
    refine bind (holding (inNewBlock ?_) _) fun registry =>
      bind (modifyStore fun _ _ huv => huv.finish id (.refl registry)) fun _ => done id
    exact bind (push _ _) fun list => bind (lines_blind h (id :: outer) list body.lines) fun _ =>
      bind evaluate fun _ => ofExcept _
termination_by 3 * Tree.weightAll nodes + 4
decreasing_by omega

theorem lines_blind (h : force.Blind) (scope : Scope) (list : InstrRef) (rest : List Line) :
    (declareLinesWith force scope list rest).Blind := by
  match rest with
  | [] =>
    rw [declareLinesWith.eq_def]
    exact done ()
  | own :: rest =>
    rw [declareLinesWith.eq_def]
    exact bind (attempt (line_blind h scope list own)) fun _ => lines_blind h scope list rest
termination_by lineWeight rest
decreasing_by all_goals simp only [lineWeight]; omega

theorem line_blind (h : force.Blind) (scope : Scope) (list : InstrRef) (own : Line) :
    (declareLineWith force scope list own).Blind := by
  rw [declareLineWith.eq_def]
  split
  · exact fail _
  · exact bind (expression_blind h scope .void own.pos own.items) fun _ => done ()
  · next sides read =>
    have light := twoSided?_weight _ _ _ _ read
    refine bind (expression_blind h scope .key sides.left.pos sides.leftItems) fun key => ?_
    split
    · exact declareField_blind scope list sides key
    · exact declareField_blind scope list sides key
    · exact fail _
    · exact fail _
termination_by 3 * Tree.weightAll own.items + 2
decreasing_by all_goals omega

end

end

theorem forceWithin_blind : ∀ depth, (forceWithin depth).Blind
  | 0 => fun _ _ _ _ => exhausted
  | depth + 1 => forceBy_blind fun scope slot pos nodes =>
      expression_blind (forceWithin_blind depth) scope slot pos nodes

theorem withForcing_blind {nodes : List Tree} {act : Forcing → Run α}
    (h : ∀ force : Forcing, force.Blind → (act force).Blind) : (withForcing nodes act).Blind :=
  store (fun _ _ huv => by rw [huv.bindingBound]) fun _ => h _ (forceWithin_blind _)

end Run.Blind

end NamespaceLang

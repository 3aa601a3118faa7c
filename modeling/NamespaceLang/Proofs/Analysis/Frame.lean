import NamespaceLang.Proofs.Analysis.Blind

/-!
# Work that does not read its block

An expression adds instructions to the block at hand and reads none of them. Only
their number matters: in two blocks of one number and one length it comes to the
same end, with the same store, and adds the same. Nor does it matter how far it may
look, if it comes to an end at all. Both are shown at once: whoever may look farther
follows whoever may look less far, as long as that one does not use up its depth.
-/

set_option autoImplicit false

namespace NamespaceLang

variable {α β : Type}

/-- One store, and blocks of one number and one length. -/
structure State.Beside (s t : State) : Prop where
  store : t.store = s.store
  id : t.block.id = s.block.id
  size : t.block.instrs.size = s.block.instrs.size

theorem State.Beside.refl (s : State) : s.Beside s := ⟨rfl, rfl, rfl⟩

structure RunsBeside (s t : State) (r r' : Outcome α × State) : Prop where
  outcome : r'.1 = r.1
  store : r'.2.store = r.2.store
  block : ∃ more, r.2.block = ⟨s.block.id, s.block.instrs ++ more⟩ ∧
    r'.2.block = ⟨t.block.id, t.block.instrs ++ more⟩

namespace RunsBeside

variable {s t : State} {r r' : Outcome α × State}

theorem beside (h : RunsBeside s t r r') (hs : s.Beside t) : r.2.Beside r'.2 := by
  obtain ⟨more, first, second⟩ := h.block
  refine ⟨h.store, ?_, ?_⟩
  · rw [first, second]
    exact hs.id
  · rw [first, second, Array.size_append, Array.size_append, hs.size]

theorem still {o o' : Outcome α} {after after' : State} (outcome : o' = o)
    (store : after'.store = after.store) (own : after.block = s.block) (other : after'.block = t.block) :
    RunsBeside s t (o, after) (o', after') :=
  ⟨outcome, store, #[], by simp [own], by simp [other]⟩

theorem after {mid mid' : State} (h : RunsBeside mid mid' r r')
    (before : ∃ more, mid.block = ⟨s.block.id, s.block.instrs ++ more⟩ ∧
      mid'.block = ⟨t.block.id, t.block.instrs ++ more⟩) : RunsBeside s t r r' := by
  obtain ⟨more, own, other⟩ := before
  obtain ⟨last, own', other'⟩ := h.block
  refine ⟨h.outcome, h.store, more ++ last, ?_, ?_⟩
  · rw [own', own, Array.append_assoc]
  · rw [other', other, Array.append_assoc]

end RunsBeside

/-- What the first work comes to, the second comes to beside it; unless the first uses up its depth
and `may` not. -/
def Run.Follows (may : Prop) (act act' : Run α) : Prop :=
  ∀ ctx s t, s.Beside t → ((act ctx s).1 = .exhausted → may) →
    RunsBeside s t (act ctx s) (act' ctx t)

def Run.Repeats (may : Prop) (act act' : Run α) : Prop :=
  ∀ ctx s, ((act ctx s).1 = .exhausted → may) → act' ctx s = act ctx s

def Forcing.Follows (may : Prop) (force force' : Forcing) : Prop :=
  ∀ id binding thunk slot, (force id binding thunk slot).Follows may (force' id binding thunk slot)

namespace Run

variable {may : Prop}

theorem goOn_exhausted {next : β → Run α} {ctx : Context} {r : Outcome β × State}
    (h : r.1 = .exhausted) : (goOn next ctx r).1 = .exhausted := by
  obtain ⟨o, s⟩ := r
  cases h
  rfl

theorem tell_exhausted {r : Outcome Unit × State} (h : r.1 = .exhausted) :
    (tell r).1 = .exhausted := by
  obtain ⟨o, s⟩ := r
  cases h
  rfl

theorem Follows.repeats {act act' : Run α} (h : Follows may act act') : Repeats may act act' := by
  intro ctx s ends
  obtain ⟨outcome, store, more, own, other⟩ := h ctx s s (.refl s) ends
  exact Prod.ext outcome (congrArg₂ State.mk store (other.trans own.symm))

namespace Repeats

theorem refl (act : Run α) : Repeats may act act := fun _ _ _ => rfl

theorem bind {act act' : Run β} {next next' : β → Run α} (h : Repeats may act act')
    (hn : ∀ b, Repeats may (next b) (next' b)) : Repeats may (act >>= next) (act' >>= next') := by
  intro ctx s ends
  rw [bind_eq_goOn] at ends ⊢
  rw [bind_eq_goOn, h ctx s fun used => ends (goOn_exhausted used)]
  generalize act ctx s = r at ends
  obtain ⟨o, mid⟩ := r
  cases o with
  | done b => exact hn b ctx mid ends
  | failed d => rfl
  | exhausted => rfl

end Repeats

namespace Follows

theorem done (a : α) : Follows may (pure a : Run α) (pure a) := fun _ _ _ h _ =>
  .still rfl h.store rfl rfl

theorem fail (d : Diagnostic) : Follows may (Run.fail d : Run α) (Run.fail d) := fun _ _ _ h _ =>
  .still rfl h.store rfl rfl

theorem ofExcept (e : Except Diagnostic α) : Follows may (Run.ofExcept e) (Run.ofExcept e) := by
  cases e with
  | ok a => exact done a
  | error d => exact fail d

theorem bind {act act' : Run β} {next next' : β → Run α} (h : Follows may act act')
    (hn : ∀ b, Follows may (next b) (next' b)) : Follows may (act >>= next) (act' >>= next') := by
  intro ctx s t hs ends
  rw [bind_eq_goOn] at ends ⊢
  rw [bind_eq_goOn]
  have first := h ctx s t hs fun used => ends (goOn_exhausted used)
  have beside := first.beside hs
  generalize act ctx s = r, act' ctx t = r' at ends first beside
  obtain ⟨o, mid⟩ := r
  obtain ⟨o', mid'⟩ := r'
  obtain ⟨rfl, store, block⟩ := first
  cases o' with
  | done b => exact (hn b ctx mid mid' beside ends).after block
  | failed d => exact ⟨rfl, store, block⟩
  | exhausted => exact ⟨rfl, store, block⟩

theorem store {next next' : Store → Run α} (h : ∀ u, Follows may (next u) (next' u)) :
    Follows may (Run.store >>= next) (Run.store >>= next') := fun ctx s t hs ends => by
  show RunsBeside s t (next s.store ctx s) (next' t.store ctx t)
  rw [hs.store]
  exact h s.store ctx s t hs ends

theorem context {next next' : Context → Run α} (h : ∀ ctx, Follows may (next ctx) (next' ctx)) :
    Follows may (Run.context >>= next) (Run.context >>= next') := fun ctx s t hs ends =>
  h ctx ctx s t hs ends

theorem modifyStore (f : Store → Store) : Follows may (Run.modifyStore f) (Run.modifyStore f) :=
  fun _ _ _ hs _ => .still rfl (congrArg f hs.store) rfl rfl

theorem record (ds : List Diagnostic) : Follows may (Run.record ds) (Run.record ds) :=
  fun ctx _ _ hs _ =>
    .still rfl (congrArg (Store.record · (ds.map (·.under ctx.trace))) hs.store) rfl rfl

theorem begin (pos : Position) (outer : Scope) (definitions : Definitions) :
    Follows may (Run.begin pos outer definitions) (Run.begin pos outer definitions) :=
  fun _ _ _ hs _ =>
    .still (congrArg (fun u => Outcome.done (u.begin pos outer definitions).1) hs.store)
      (congrArg (fun u => (u.begin pos outer definitions).2) hs.store) rfl rfl

theorem attempt {act act' : Run Unit} (h : Follows may act act') :
    Follows may (Run.attempt act) (Run.attempt act') := by
  intro ctx s t hs ends
  rw [attempt_eq_tell] at ends ⊢
  rw [attempt_eq_tell]
  have first := h ctx s t hs fun used => ends (tell_exhausted used)
  generalize act ctx s = r, act' ctx t = r' at first
  obtain ⟨o, mid⟩ := r
  obtain ⟨o', mid'⟩ := r'
  obtain ⟨rfl, store, block⟩ := first
  cases o' with
  | failed d => exact ⟨rfl, congrArg (Store.record · [d]) store, block⟩
  | _ => exact ⟨rfl, store, block⟩

theorem within {act act' : Run α} (h : Follows may act act') (label : String) (pos : Position) :
    Follows may (Run.within label pos act) (Run.within label pos act') := fun _ s t hs ends =>
  h _ s t hs ends

theorem holding {act act' : Run α} (h : Follows may act act') (ids : List NamespaceId) :
    Follows may (Run.holding ids act) (Run.holding ids act') := fun _ s t hs ends => h _ s t hs ends

theorem entering {act act' : Run α} (h : Follows may act act') (id : NamespaceId)
    (binding : Binding) : Follows may (Run.entering id binding act) (Run.entering id binding act') :=
  fun _ s t hs ends => h _ s t hs ends

theorem inNewBlock {act act' : Run α} (h : Repeats may act act') :
    Follows may (Run.inNewBlock act) (Run.inNewBlock act') := by
  intro ctx s t hs ends
  have same : t.inNewBlock = s.inNewBlock := by rw [State.inNewBlock, State.inNewBlock, hs.store]
  have again := h ctx s.inNewBlock ends
  show RunsBeside s t (s.leaving (act ctx s.inNewBlock)) (t.leaving (act' ctx t.inNewBlock))
  rw [same, again]
  exact .still rfl rfl rfl rfl

theorem push (op : Op) (pos : Position) : Follows may (Run.push op pos) (Run.push op pos) := by
  intro _ s t hs _
  have next : t.block.next = s.block.next := by
    rw [Block.next, Block.next, Block.size, Block.size, hs.id, hs.size]
  exact ⟨congrArg Outcome.done next, hs.store, #[⟨op, pos⟩], by simp [Run.push, Block.push],
    by simp [Run.push, Block.push]⟩

theorem deferred (op : Op) (pos : Position) (shape : Shape) :
    Follows may (Run.deferred op pos shape) (Run.deferred op pos shape) :=
  bind (push op pos) fun _ => done _

theorem materialize (operand : Operand) (pos : Position) :
    Follows may (Run.materialize operand pos) (Run.materialize operand pos) := by
  intro ctx s t hs ends
  cases operand with
  | deferred ref =>
    by_cases own : ref.block = s.block.id
    · rw [Run.materialize_own own, Run.materialize_own (own.trans hs.id.symm)]
      exact .still rfl hs.store rfl rfl
    · have other : ref.block ≠ t.block.id := fun there => own (there.trans hs.id)
      have fails : ∀ u : State, ref.block ≠ u.block.id →
          Run.materialize (.deferred ref) pos ctx u =
            Run.fail (.unreachable pos (.outsideBlock ref)) ctx u := fun u hu => by
        simp [Run.materialize, Block.materialize, hu, Run.fail]
      rw [fails s own, fails t other]
      exact .still rfl hs.store rfl rfl
  | known value =>
    cases value with
    | void => exact push .void pos ctx s t hs ends
    | key known => exact push (.makeKey known) pos ctx s t hs ends
    | ast thunk => exact push (.captureAst thunk) pos ctx s t hs ends
    | _ => exact fail _ ctx s t hs ends

theorem capture (scope : Scope) (pos : Position) (nodes : List Tree) :
    Follows may (NamespaceLang.capture scope pos nodes) (NamespaceLang.capture scope pos nodes) :=
  deferred _ _ _

theorem workOut_follows {analyze analyze' : Scope → Shape → Position → List Tree → Run Analysis}
    (h : ∀ scope slot pos nodes,
      Follows may (analyze scope slot pos nodes) (analyze' scope slot pos nodes))
    (thunk : Thunk) (slot : Shape) :
    Follows may (workOut analyze thunk slot) (workOut analyze' thunk slot) :=
  inNewBlock <| .bind (h _ _ _ _).repeats fun _ => .refl _

theorem forceBy_follows {analyze analyze' : Scope → Shape → Position → List Tree → Run Analysis}
    (h : ∀ scope slot pos nodes,
      Follows may (analyze scope slot pos nodes) (analyze' scope slot pos nodes)) :
    Forcing.Follows may (forceBy analyze) (forceBy analyze') := by
  intro id binding thunk slot
  refine holding (store fun u => ?_) _
  split
  · exact done _
  · refine context fun ctx => ?_
    split
    · exact fail _
    · exact bind (within (entering (workOut_follows h thunk slot) id binding) _ _) fun _ =>
        bind (modifyStore _) fun _ => done _

section

variable {force force' : Forcing} (h : Forcing.Follows may force force')

include h

theorem readField_follows (id : NamespaceId) (key : FieldKey) (slot : Shape) :
    Follows may (readFieldWith? force id key slot) (readFieldWith? force' id key slot) := by
  refine store fun u => ?_
  split
  · refine bind (store fun v => ?_) fun _ => done _
    dsimp only
    split
    · exact bind (h _ _ _ _) fun _ => done _
    · exact fail _
  · exact done _

theorem resolveIn_follows (id : NamespaceId) (pos : Position) (name : String) (slot : Shape) :
    Follows may (resolveInWith force id pos name slot) (resolveInWith force' id pos name slot) := by
  refine store fun u => ?_
  split
  · split
    · exact bind (h _ _ _ _) fun _ => done _
    · exact fail _
  · exact readField_follows h id _ slot

theorem resolve_follows (pos : Position) (name : String) (slot : Shape) (scope : Scope) :
    Follows may (resolveWith force pos name slot scope) (resolveWith force' pos name slot scope) := by
  induction scope with
  | nil => exact fail _
  | cons id outer ih =>
    refine store fun u => context fun ctx => ?_
    split
    · refine bind (resolveIn_follows h id pos name slot) fun found? => ?_
      cases found? with
      | some found => exact done found
      | none => exact ih
    · exact fail _

theorem readString_follows (target : NamespaceRef) (pos : Position) (name : String) :
    Follows may (readStringWith force target pos name) (readStringWith force' target pos name) := by
  cases target with
  | builtin =>
    unfold readStringWith
    dsimp only
    split
    · exact deferred _ _ _
    · exact fail _
  | declared id =>
    refine store fun u => ?_
    dsimp only
    split
    · refine bind (readField_follows h id _ _) fun found? => ?_
      cases found? with
      | none => exact fail _
      | some found => exact done found
    · exact fail _

theorem access_follows (left : Analysis) (pos : Position) (name : String) :
    Follows may (accessWith force left pos name) (accessWith force' left pos name) := by
  unfold accessWith
  split
  · exact holding (readString_follows h _ pos name) _
  · exact fail _
  · exact fail _

theorem leaf_follows (scope : Scope) (slot : Shape) (pos : Position) (leaf : Leaf) :
    Follows may (analyzeLeafWith force scope slot pos leaf)
      (analyzeLeafWith force' scope slot pos leaf) := by
  unfold analyzeLeafWith
  split
  · split
    · exact bind (push _ _) fun _ => done _
    · exact fail _
  · split
    · exact deferred _ _ _
    · exact fail _
  · exact resolve_follows h pos _ slot scope
  · exact fail _
  · exact fail _

end

theorem call_follows (pos : Position) (method : Analysis) {argument argument' : Shape → Run Analysis}
    (h : ∀ slot, Follows may (argument slot) (argument' slot)) :
    Follows may (call pos method argument) (call pos method argument') := by
  unfold call
  split
  · exact bind (holding (h _) _) fun _ => bind (materialize _ _) fun _ =>
      bind (materialize _ _) fun _ => deferred _ _ _
  · exact fail _

theorem declareField_follows (scope : Scope) (list : InstrRef) (sides : TwoSided) (key : Analysis) :
    Follows may (declareField scope list sides key) (declareField scope list sides key) :=
  bind (materialize _ _) fun _ => bind (capture _ _ _) fun _ => bind (materialize _ _) fun _ =>
    bind (push _ _) fun _ => done _

section

variable {force force' : Forcing}

mutual

theorem expression_follows (h : Forcing.Follows may force force') (scope : Scope) (slot : Shape)
    (pos : Position) (nodes : List Tree) :
    Follows may (analyzeWith force scope slot pos nodes) (analyzeWith force' scope slot pos nodes) := by
  by_cases kept : slot = .ast
  · subst kept
    rw [analyzeWith.eq_def, analyzeWith.eq_def]
    exact capture scope pos nodes
  · rw [analyzeWith_of_ne_ast _ _ kept, analyzeWith_of_ne_ast _ _ kept]
    unfold analyzeHeadWith
    cases head : literal? (Tree.solid nodes) with
    | some l =>
      obtain ⟨opening, closing, items⟩ := literal?_eq_some head
      have light := Tree.weightAll_of_solid items
      exact bind (declare_follows h scope l.pos l.body) fun id =>
        bind (push _ _) fun _ => suffixes_follows h scope _ l.rest
    | none =>
      dsimp only
      cases items : Tree.solid nodes with
      | nil => exact fail _
      | cons first rest =>
        have light := Tree.weightAll_of_solid items
        exact bind (base_follows h scope _ first) fun left => suffixes_follows h scope left rest
termination_by 3 * Tree.weightAll nodes + 1
decreasing_by
  all_goals
    simp only [Tree.weightAll, Tree.weight] at light
    omega

theorem base_follows (h : Forcing.Follows may force force') (scope : Scope) (slot : Shape)
    (node : Tree) :
    Follows may (analyzeBaseWith force scope slot node) (analyzeBaseWith force' scope slot node) := by
  rw [analyzeBaseWith.eq_def, analyzeBaseWith.eq_def force']
  match node with
  | .leaf pos content => exact leaf_follows h scope slot pos content
  | .group pos form items =>
    cases form with
    | block tag opening closing =>
      cases tag with
      | code => exact expression_follows h scope slot pos items
      | arrowFunction => exact bind (ofExcept _) fun _ => fail _
      | _ => exact fail _
    | _ => exact fail _
termination_by 3 * node.weight
decreasing_by simp only [Tree.weight]; omega

theorem suffixes_follows (h : Forcing.Follows may force force') (scope : Scope) (left : Analysis)
    (nodes : List Tree) :
    Follows may (analyzeSuffixesWith force scope left nodes)
      (analyzeSuffixesWith force' scope left nodes) := by
  match nodes with
  | [] =>
    rw [analyzeSuffixesWith.eq_def, analyzeSuffixesWith.eq_def]
    exact done left
  | node :: rest =>
    have light := node.weight_pos
    have after : ∀ next, Follows may (analyzeSuffixesWith force scope next rest)
        (analyzeSuffixesWith force' scope next rest) := fun next => suffixes_follows h scope next rest
    rw [analyzeSuffixesWith_cons, analyzeSuffixesWith_cons]
    refine bind ?_ after
    match node with
    | .leaf pos content =>
      cases content with
      | identifier sigil name =>
        cases sigil with
        | builtin => exact fail _
        | plain | access => exact access_follows h left pos name
      | bare tag spelling =>
        cases tag with
        | access => exact done left
        | _ => exact fail _
      | _ => exact fail _
    | .group pos form items =>
      cases form with
      | block tag opening closing =>
        cases tag with
        | code =>
          refine call_follows pos left fun slot => ?_
          have given := expression_follows h scope slot pos items
          unfold argumentWith
          split
          · exact deferred _ _ _
          · exact given
        | _ => exact fail _
      | _ => exact fail _
termination_by 3 * Tree.weightAll nodes
decreasing_by
  all_goals
    simp only [Tree.weightAll, Tree.weight] at *
    omega

theorem declare_follows (h : Forcing.Follows may force force') (outer : Scope) (pos : Position)
    (nodes : List Tree) :
    Follows may (declareWith force outer pos nodes) (declareWith force' outer pos nodes) := by
  rw [declareWith.eq_def, declareWith.eq_def]
  split
  · exact fail _
  · next body found read =>
    have light := Body.read_weight pos nodes body found read
    refine bind (record found) fun _ => bind (begin pos outer body.definitions) fun id => ?_
    refine bind (holding (inNewBlock ?_) _) fun registry => bind (modifyStore _) fun _ => done id
    exact .bind (push _ _).repeats fun list =>
      .bind (lines_follows h (id :: outer) list body.lines).repeats fun _ => .refl _
termination_by 3 * Tree.weightAll nodes + 4
decreasing_by omega

theorem lines_follows (h : Forcing.Follows may force force') (scope : Scope) (list : InstrRef)
    (rest : List Line) :
    Follows may (declareLinesWith force scope list rest) (declareLinesWith force' scope list rest) := by
  match rest with
  | [] =>
    rw [declareLinesWith.eq_def, declareLinesWith.eq_def]
    exact done ()
  | own :: rest =>
    rw [declareLinesWith.eq_def, declareLinesWith.eq_def]
    exact bind (attempt (line_follows h scope list own)) fun _ => lines_follows h scope list rest
termination_by lineWeight rest
decreasing_by all_goals simp only [lineWeight]; omega

theorem line_follows (h : Forcing.Follows may force force') (scope : Scope) (list : InstrRef)
    (own : Line) :
    Follows may (declareLineWith force scope list own) (declareLineWith force' scope list own) := by
  rw [declareLineWith.eq_def, declareLineWith.eq_def]
  split
  · exact fail _
  · exact bind (expression_follows h scope .void own.pos own.items) fun _ => done ()
  · next sides read =>
    have light := twoSided?_weight _ _ _ _ read
    refine bind (expression_follows h scope .key sides.left.pos sides.leftItems) fun key => ?_
    split
    · exact declareField_follows scope list sides key
    · exact declareField_follows scope list sides key
    · exact fail _
    · exact fail _
termination_by 3 * Tree.weightAll own.items + 2
decreasing_by all_goals omega

end

end

/-- Whoever may look farther follows; and who may look as far, even where the depth is used up. -/
theorem forceWithin_follows {depth depth' : Nat} (far : depth ≤ depth') (as : may → depth = depth') :
    Forcing.Follows may (forceWithin depth) (forceWithin depth') := by
  induction depth generalizing depth' with
  | zero =>
    intro id binding thunk slot ctx s t hs ends
    obtain rfl := as (ends rfl)
    exact .still rfl hs.store rfl rfl
  | succ depth ih =>
    cases depth' with
    | zero => cases far
    | succ depth' =>
      have inner := ih (Nat.le_of_succ_le_succ far) fun m => Nat.succ.inj (as m)
      exact forceBy_follows fun scope slot pos nodes => expression_follows inner scope slot pos nodes

end Follows

end Run

end NamespaceLang

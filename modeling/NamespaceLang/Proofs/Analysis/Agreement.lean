import NamespaceLang.Proofs.Analysis.Moments
import NamespaceLang.Proofs.Instr.Moved

/-!
# What a call depends on

Calls that begin with the same namespaces, about which the same has been found,
come to the same end, with the same namespaces again. What has been told till
then makes no difference, nor where somebody has come from, nor how many blocks
there have been: the blocks of the one call are those of the other under other
numbers.
-/

set_option autoImplicit false

namespace NamespaceLang

/-- The same namespaces, and `k` more blocks. -/
structure Store.Alike (k : Nat) (s t : Store) : Prop where
  namespaces : t.namespaces = s.namespaces
  nextBlock : t.nextBlock = s.nextBlock + k

structure State.Alike (k : Nat) (s t : State) : Prop where
  store : s.store.Alike k t.store
  block : t.block = s.block.moved k

structure Context.Alike (c d : Context) : Prop where
  held : d.held = c.held
  forcing : d.forcing = c.forcing

def Outcome.Alike {α β : Type} (f : α → β) : Outcome α → Outcome β → Prop
  | .done a, .done b => b = f a
  | .failed _, .failed _ => True
  | .exhausted, .exhausted => True
  | _, _ => False

theorem Outcome.Alike.cases {α β : Type} {f : α → β} {x : Outcome α} {y : Outcome β}
    (h : x.Alike f y) : (∃ a, x = .done a ∧ y = .done (f a)) ∨
      ((∃ d, x = .failed d) ∧ ∃ d, y = .failed d) ∨ (x = .exhausted ∧ y = .exhausted) := by
  cases x with
  | done a =>
    cases y with
    | done b => exact Or.inl ⟨a, rfl, congrArg _ h⟩
    | _ => cases h
  | failed d =>
    cases y with
    | failed d' => exact Or.inr (Or.inl ⟨⟨d, rfl⟩, d', rfl⟩)
    | _ => cases h
  | exhausted =>
    cases y with
    | exhausted => exact Or.inr (Or.inr ⟨rfl, rfl⟩)
    | _ => cases h

/-- Two runs come to the same end, what they give apart from the numbers of blocks. -/
structure RunsAlike {α β : Type} (k : Nat) (f : α → β) (r : Outcome α × State)
    (r' : Outcome β × State) : Prop where
  outcome : r.1.Alike f r'.1
  state : r.2.Alike k r'.2

variable {k : Nat} {s t : State} {ctx ctx' : Context}

namespace Store.Alike

variable {u v : Store}

theorem get (h : u.Alike k v) : v.get = u.get := by
  funext id
  rw [Store.get, Store.get, h.namespaces]

theorem scopeOf (h : u.Alike k v) : v.scopeOf = u.scopeOf := by
  funext id
  rw [Store.scopeOf, Store.scopeOf, h.get]

theorem source? (h : u.Alike k v) : v.source? = u.source? := by
  funext id binding
  cases binding with
  | definition name => rw [Store.source?, Store.source?, h.get, h.scopeOf]
  | field key => rw [Store.source?, Store.source?, h.get]

theorem binds? (h : u.Alike k v) : v.binds? = u.binds? := by
  funext name id
  rw [Store.binds?, Store.binds?, h.get]

theorem isAlive (h : u.Alike k v) : v.isAlive = u.isAlive := by
  have supported : v.supported = u.supported := by
    funext held ids
    rw [Store.supported, Store.supported, h.get]
  have left : ∀ held rounds ids, v.supportedFrom held rounds ids = u.supportedFrom held rounds ids := by
    intro held rounds
    induction rounds with
    | zero => exact fun _ => rfl
    | succ rounds ih =>
      intro ids
      rw [Store.supportedFrom, Store.supportedFrom, supported, ih]
  funext held id
  rw [Store.isAlive, Store.isAlive, Store.alive, Store.alive, h.namespaces, left]

theorem reach (h : u.Alike k v) (held : List NamespaceId) (name : String) (scope : Scope) :
    v.reach held name scope = u.reach held name scope := by
  induction scope with
  | nil => rfl
  | cons id outer ih => rw [Store.reach, Store.reach, h.isAlive, h.binds?, ih]

theorem modify (h : u.Alike k v) (id : NamespaceId) (f : Namespace → Namespace) :
    (u.modify id f).Alike k (v.modify id f) :=
  ⟨by rw [Store.modify, Store.modify, h.namespaces], h.nextBlock⟩

end Store.Alike

theorem Context.Alike.holding (h : ctx.Alike ctx') (ids : List NamespaceId) :
    (ctx.holding ids).Alike (ctx'.holding ids) :=
  ⟨by rw [Context.holding, Context.holding, h.held], h.forcing⟩

theorem Context.Alike.inside (h : ctx.Alike ctx') (id : NamespaceId) (binding : Binding)
    (pos : Position) : (ctx.inside id binding pos).Alike (ctx'.inside id binding pos) where
  held := by rw [Context.inside, Context.inside, h.held]
  forcing := by rw [Context.inside, Context.inside, h.forcing]

theorem State.Alike.inNewBlock (h : s.store.Alike k t.store) : s.inNewBlock.Alike k t.inNewBlock where
  store := ⟨h.namespaces, by
    show t.store.nextBlock + 1 = s.store.nextBlock + 1 + k
    rw [h.nextBlock, Nat.add_right_comm]⟩
  block := by
    show (⟨t.store.nextBlock, #[]⟩ : Block) = ⟨s.store.nextBlock + k, #[].map (Instr.moved k)⟩
    rw [h.nextBlock, Array.map_empty]

theorem State.Alike.pushed (h : s.Alike k t) (op : Op) (pos : Position) :
    (s.pushed op pos).Alike k (t.pushed (op.moved k) pos) where
  store := h.store
  block := by
    have same := Block.push_moved k s.block op pos
    rw [← h.block] at same
    exact congrArg Prod.snd same

theorem State.Alike.declaring (h : s.store.Alike k t.store) (outer : Scope) (pos : Position)
    (body : Body) (found told : List Diagnostic) :
    (s.declaring ctx outer pos body found).Alike k (t.declaring ctx' outer pos body told) := by
  have begun : ∀ ds ds', ((s.store.record ds).begin pos outer body.definitions).2.Alike k
      ((t.store.record ds').begin pos outer body.definitions).2 := by
    intro ds ds'
    refine ⟨?_, h.nextBlock⟩
    show t.store.namespaces.push _ = s.store.namespaces.push _
    rw [h.namespaces]
  have blank : (State.inNewBlock ⟨_, s.block⟩).Alike k (State.inNewBlock ⟨_, t.block⟩) :=
    State.Alike.inNewBlock (begun (found.map (·.under ctx.trace)) (told.map (·.under ctx'.trace)))
  exact blank.pushed .nsInit pos

namespace RunsAlike

variable {α β γ δ : Type} {f : α → β} {g : γ → δ}

theorem done (h : s.Alike k t) (a : α) : RunsAlike k f (.done a, s) (.done (f a), t) := ⟨rfl, h⟩

theorem fail (h : s.Alike k t) (d d' : Diagnostic) :
    RunsAlike k f (Run.fail d ctx s) (Run.fail d' ctx' t) := ⟨trivial, h⟩

theorem ofExcept (h : s.Alike k t) {x : Except Diagnostic α} {y : Except Diagnostic β}
    (ends : EndAlike f x y) : RunsAlike k f (Run.ofExcept x ctx s) (Run.ofExcept y ctx' t) := by
  rcases ends.cases with ⟨a, rfl, rfl⟩ | ⟨⟨d, rfl⟩, d', rfl⟩
  · exact done h a
  · exact fail h d d'

theorem bind {act : Run γ} {act' : Run δ} {next : γ → Run α} {next' : δ → Run β}
    (h : RunsAlike k g (act ctx s) (act' ctx' t))
    (hn : ∀ c mid mid', act ctx s = (.done c, mid) → mid.Alike k mid' →
      RunsAlike k f (next c ctx mid) (next' (g c) ctx' mid')) :
    RunsAlike k f ((act >>= next) ctx s) ((act' >>= next') ctx' t) := by
  rw [Run.bind_apply, Run.bind_apply]
  obtain ⟨outcome, state⟩ := h
  generalize hr : act ctx s = r at outcome state
  generalize act' ctx' t = r' at outcome state
  obtain ⟨x, mid⟩ := r
  obtain ⟨y, mid'⟩ := r'
  dsimp only at outcome state
  rcases outcome.cases with ⟨c, rfl, rfl⟩ | ⟨⟨d, rfl⟩, d', rfl⟩ | ⟨rfl, rfl⟩
  · exact hn c mid mid' hr state
  · exact ⟨trivial, state⟩
  · exact ⟨trivial, state⟩

theorem push (h : s.Alike k t) (op : Op) (pos : Position) :
    RunsAlike k (InstrRef.moved k) (Run.push op pos ctx s) (Run.push (op.moved k) pos ctx' t) := by
  have same := Block.push_moved k s.block op pos
  rw [← h.block] at same
  exact ⟨congrArg Prod.fst same, h.pushed op pos⟩

theorem deferred (h : s.Alike k t) (op : Op) (pos : Position) (shape : Shape) :
    RunsAlike k (Analysis.moved k) (Run.deferred op pos shape ctx s)
      (Run.deferred (op.moved k) pos shape ctx' t) :=
  bind (push h op pos) fun ref _ _ _ h => done h (Analysis.deferred ref shape)

theorem materialize (h : s.Alike k t) (operand : Operand) (pos : Position) :
    RunsAlike k (InstrRef.moved k) (Run.materialize operand pos ctx s)
      (Run.materialize (operand.moved k) pos ctx' t) := by
  have same := Block.materialize_moved k s.block operand pos
  rw [← h.block] at same
  unfold Run.materialize
  rcases same.cases with ⟨p, hp, hp'⟩ | ⟨⟨d, hd⟩, d', hd'⟩
  · rw [hp, hp']
    exact ⟨rfl, h.store, rfl⟩
  · rw [hd, hd']
    exact ⟨trivial, h⟩

theorem evaluate (h : s.Alike k t) :
    RunsAlike k (Results.moved k) (Run.evaluate ctx s) (Run.evaluate ctx' t) := by
  have same := Block.evaluate_moved k s.block
  rw [← h.block] at same
  have told : ∀ ds ds', RunsAlike k id (Run.record ds ctx s) (Run.record ds' ctx' t) :=
    fun ds ds' => ⟨rfl, ⟨h.store.namespaces, h.store.nextBlock⟩, h.block⟩
  exact bind (told _ _) fun _ _ _ _ h => ofExcept h same

theorem attempt {act act' : Run Unit} (h : RunsAlike k id (act ctx s) (act' ctx' t)) :
    RunsAlike k id (Run.attempt act ctx s) (Run.attempt act' ctx' t) := by
  rw [Run.attempt_eq_tell, Run.attempt_eq_tell]
  obtain ⟨outcome, state⟩ := h
  generalize act ctx s = r at outcome state
  generalize act' ctx' t = r' at outcome state
  obtain ⟨x, mid⟩ := r
  obtain ⟨y, mid'⟩ := r'
  dsimp only at outcome state
  rcases outcome.cases with ⟨c, rfl, rfl⟩ | ⟨⟨d, rfl⟩, d', rfl⟩ | ⟨rfl, rfl⟩
  · exact ⟨rfl, state⟩
  · exact ⟨rfl, ⟨state.store.namespaces, state.store.nextBlock⟩, state.block⟩
  · exact ⟨trivial, state⟩

theorem readField {force : Forcing} {id : NamespaceId} {key : FieldKey} {slot : Shape}
    (h : s.Alike k t) (forced : ∀ entry, (s.store.get id).field? key = some entry →
      RunsAlike k (fun found => found) (force id (.field key) entry.thunk slot ctx s)
        (force id (.field key) entry.thunk slot ctx' t)) :
    RunsAlike k (Option.map (Analysis.moved k)) (readFieldWith? force id key slot ctx s)
      (readFieldWith? force id key slot ctx' t) := by
  rw [readFieldWith?_apply, readFieldWith?_apply, h.store.get]
  cases there : (s.store.get id).field? key with
  | none => exact done h none
  | some entry =>
    exact bind (forced entry there) fun found _ _ _ h => done h (some found.analysis)

theorem declareUnder (h : s.Alike k t) (scope : Scope) (list : InstrRef) (sides : TwoSided)
    (key : Analysis) : RunsAlike k id (NamespaceLang.declareUnder scope list sides key ctx s)
      (NamespaceLang.declareUnder scope (list.moved k) sides (key.moved k) ctx' t) := by
  have declares : RunsAlike k id (declareField scope list sides key ctx s)
      (declareField scope (list.moved k) sides (key.moved k) ctx' t) := by
    refine .bind (.materialize h key.value _) fun keyRef _ _ _ h => ?_
    refine .bind (.deferred h (.captureAst _) _ .ast) fun body _ _ _ h => ?_
    refine .bind (.materialize h body.value _) fun bodyRef _ _ _ h => ?_
    exact .bind (.push h (.nsAppend list keyRef bodyRef) _) fun _ _ _ _ h => .done h ()
  unfold NamespaceLang.declareUnder
  rw [show (key.moved k).shape = key.shape from rfl]
  cases key.shape with
  | stringKey name => exact declares
  | symbolKey builtin child => exact declares
  | _ => exact .fail h _ _

theorem leaving {r : Outcome α × State} {r' : Outcome β × State} (h : RunsAlike k f r r')
    (block : t.block = s.block.moved k) : RunsAlike k f (s.leaving r) (t.leaving r') :=
  ⟨h.outcome, h.state.store, block⟩

theorem workOut {analyze : Scope → Shape → Position → List Tree → Run Analysis} {thunk : Thunk}
    {slot : Shape} (h : s.Alike k t)
    (found : RunsAlike k (Analysis.moved k)
      (analyze thunk.scope slot thunk.pos thunk.nodes ctx s.inNewBlock)
      (analyze thunk.scope slot thunk.pos thunk.nodes ctx' t.inNewBlock)) :
    RunsAlike k (fun found => found) (NamespaceLang.workOut analyze thunk slot ctx s)
      (NamespaceLang.workOut analyze thunk slot ctx' t) := by
  rw [workOut_apply, workOut_apply]
  refine .leaving (.bind found fun a _ _ _ h => ?_) h.block
  refine .bind (.evaluate h) fun results _ _ _ h => ?_
  exact .bind (.ofExcept h (results.resolve_moved k thunk.pos a.value)) fun value _ _ _ h =>
    .done h (⟨value, a.shape⟩ : Forced)

end RunsAlike

namespace Task

def moved (k : Nat) : Task → Task
  | .suffixes scope left nodes => .suffixes scope (left.moved k) nodes
  | .suffix scope left node => .suffix scope (left.moved k) node
  | .lines scope list rest => .lines scope (list.moved k) rest
  | .line scope list own => .line scope (list.moved k) own
  | t => t

def giving (k : Nat) : (t : Task) → t.Result → (t.moved k).Result
  | .body .., id => id
  | .lines .., done | .line .., done => done
  | .force .., found => found
  | .expression .., found | .base .., found | .suffixes .., found | .suffix .., found
  | .resolve .., found => found.moved k

end Task

/-- The call comes to the same end wherever the namespaces are the same. -/
def Moment.Steady (m : Moment) : Prop :=
  ∀ k ctx' t, m.ctx.Alike ctx' → m.state.Alike k t →
    RunsAlike k (m.task.giving k) m.run (Moment.run ⟨m.depth, m.task.moved k, ctx', t⟩)

namespace Steady

variable {depth : Nat}

theorem expression {scope : Scope} {slot : Shape} {pos : Position} {nodes : List Tree}
    (ih : ∀ next, Leads ⟨depth, .expression scope slot pos nodes, ctx, s⟩ next → next.Steady) :
    Moment.Steady ⟨depth, .expression scope slot pos nodes, ctx, s⟩ := by
  intro k ctx' t hc h
  show RunsAlike k (Analysis.moved k) (analyzeWith (forceWithin depth) scope slot pos nodes ctx s)
    (analyzeWith (forceWithin depth) scope slot pos nodes ctx' t)
  by_cases kept : slot = .ast
  · subst kept
    rw [analyzeWith.eq_def]
    exact .deferred h (.captureAst ⟨nodes, pos, scope⟩) pos .ast
  · rw [analyzeWith_of_ne_ast _ _ kept]
    unfold analyzeHeadWith
    cases head : literal? (Tree.solid nodes) with
    | some l =>
      dsimp only
      refine .bind (ih _ (.literal kept head) k ctx' t hc h) fun id mid mid' before h => ?_
      refine .bind (.push h .comptimeOnly l.start) fun ref pushed pushed' hp h => ?_
      cases hp
      exact ih _ (.afterLiteral kept head before) k ctx' pushed' hc h
    | none =>
      dsimp only
      cases items : Tree.solid nodes with
      | nil => exact .fail h _ _
      | cons first rest =>
        dsimp only
        refine .bind (ih _ (.base kept head items) k ctx' t hc h) fun base mid mid' before h => ?_
        exact ih _ (.afterBase kept head items before) k ctx' mid' hc h

theorem base {scope : Scope} {slot : Shape} {node : Tree}
    (ih : ∀ next, Leads ⟨depth, .base scope slot node, ctx, s⟩ next → next.Steady) :
    Moment.Steady ⟨depth, .base scope slot node, ctx, s⟩ := by
  intro k ctx' t hc h
  show RunsAlike k (Analysis.moved k) (analyzeBaseWith (forceWithin depth) scope slot node ctx s)
    (analyzeBaseWith (forceWithin depth) scope slot node ctx' t)
  rw [analyzeBaseWith.eq_def]
  split
  · next pos leaf =>
    unfold analyzeLeafWith
    split
    · split
      · exact .bind (.push h .comptimeOnly pos) fun _ _ _ _ h => .done h (Analysis.ofNamespace .builtin)
      · exact .fail h _ _
    · next _ name =>
      split
      · exact .deferred h (.makeKey (.string name)) pos (.stringKey name)
      · exact .fail h _ _
    · exact ih _ .name k ctx' t hc h
    · exact .fail h _ _
    · exact .fail h _ _
  · exact ih _ .code k ctx' t hc h
  · exact .bind (.ofExcept h (.refl _)) fun _ _ _ _ h => .fail h _ _
  · exact .fail h _ _

theorem suffixes {scope : Scope} {left : Analysis} {nodes : List Tree}
    (ih : ∀ next, Leads ⟨depth, .suffixes scope left nodes, ctx, s⟩ next → next.Steady) :
    Moment.Steady ⟨depth, .suffixes scope left nodes, ctx, s⟩ := by
  intro k ctx' t hc h
  show RunsAlike k (Analysis.moved k) (analyzeSuffixesWith (forceWithin depth) scope left nodes ctx s)
    (analyzeSuffixesWith (forceWithin depth) scope (left.moved k) nodes ctx' t)
  cases nodes with
  | nil =>
    rw [analyzeSuffixesWith.eq_def, analyzeSuffixesWith.eq_def]
    exact .done h left
  | cons node rest =>
    rw [analyzeSuffixesWith_cons, analyzeSuffixesWith_cons]
    refine .bind (ih _ .suffix k ctx' t hc h) fun next mid mid' before h => ?_
    exact ih _ (.afterSuffix before) k ctx' mid' hc h

theorem resolve {scope : Scope} {slot : Shape} {pos : Position} {name : String}
    (ih : ∀ next, Leads ⟨depth, .resolve scope slot pos name, ctx, s⟩ next → next.Steady) :
    Moment.Steady ⟨depth, .resolve scope slot pos name, ctx, s⟩ := by
  intro k ctx' t hc h
  show RunsAlike k (Analysis.moved k) (resolveWith (forceWithin depth) pos name slot scope ctx s)
    (resolveWith (forceWithin depth) pos name slot scope ctx' t)
  rw [resolveWith_apply, resolveWith_apply, h.store.reach, hc.held]
  cases way : s.store.reach ctx.held name scope with
  | binding id binding =>
    unfold useReached
    dsimp only
    rw [h.store.source?]
    cases source : s.store.source? id binding with
    | some thunk =>
      exact .bind (ih _ (.reached way source) k ctx' t hc h) fun found _ _ _ h => .done h found.analysis
    | none => exact .fail h _ _
  | _ => exact .fail h _ _

theorem access {scope : Scope} {left : Analysis} {pos : Position} {sigil : Sigil} {name : String}
    (named : sigil = .plain ∨ sigil = .access)
    (ih : ∀ next, Leads ⟨depth, .suffix scope left (.leaf pos (.identifier sigil name)), ctx, s⟩
      next → next.Steady) :
    Moment.Steady ⟨depth, .suffix scope left (.leaf pos (.identifier sigil name)), ctx, s⟩ := by
  intro k ctx' t hc h
  have reads : ∀ left, (Task.suffix scope left (.leaf pos (.identifier sigil name))).run
      (forceWithin depth) = accessWith (forceWithin depth) left pos name := by
    intro left
    obtain rfl | rfl := named <;> rfl
  show RunsAlike k (Analysis.moved k)
    ((Task.suffix scope left (.leaf pos (.identifier sigil name))).run (forceWithin depth) ctx s)
    ((Task.suffix scope (left.moved k) (.leaf pos (.identifier sigil name))).run (forceWithin depth)
      ctx' t)
  rw [reads, reads]
  unfold accessWith
  rw [Analysis.namespaces_moved, show (left.moved k).shape = left.shape from rfl]
  cases shape : left.shape with
  | namespaceOf target =>
    show RunsAlike k (Analysis.moved k)
      (readStringWith (forceWithin depth) target pos name (ctx.holding left.namespaces) s)
      (readStringWith (forceWithin depth) target pos name (ctx'.holding left.namespaces) t)
    cases target with
    | builtin =>
      unfold readStringWith
      cases Builtin.ofName? name with
      | none => exact .fail h _ _
      | some builtin => exact .deferred h (.makeKey builtin.key) pos _
    | declared id =>
      show RunsAlike k _
        ((if (s.store.get id).fields?.isSome then _ else _ : Run Analysis) _ s)
        ((if (t.store.get id).fields?.isSome then _ else _ : Run Analysis) _ t)
      rw [h.store.get]
      by_cases closed : (s.store.get id).fields?.isSome
      · rw [if_pos closed]
        refine .bind (.readField h fun entry there => ?_) fun found? _ _ _ h => ?_
        · have leads : accessed? s.store left name = some (id, entry) := by
            simp [accessed?, shape, there]
          exact ih _ (.access named leads) k _ t (hc.holding left.namespaces) h
        · cases found? with
          | some found => exact .done h found
          | none => exact .fail h _ _
      · rw [if_neg closed]
        exact .fail h _ _
  | _ => exact .fail h _ _

theorem suffix {scope : Scope} {left : Analysis} {node : Tree}
    (ih : ∀ next, Leads ⟨depth, .suffix scope left node, ctx, s⟩ next → next.Steady) :
    Moment.Steady ⟨depth, .suffix scope left node, ctx, s⟩ := by
  cases node with
  | leaf pos content =>
    cases content with
    | identifier sigil name =>
      cases sigil with
      | plain => exact access (Or.inl rfl) ih
      | access => exact access (Or.inr rfl) ih
      | builtin => exact fun k ctx' t _ h => .fail h _ _
    | bare tag spelling =>
      cases tag with
      | access => exact fun k ctx' t _ h => .done h left
      | _ => exact fun k ctx' t _ h => .fail h _ _
    | _ => exact fun k ctx' t _ h => .fail h _ _
  | group pos form items =>
    cases form with
    | block tag opening closing =>
      cases tag with
      | code =>
        intro k ctx' t hc h
        show RunsAlike k (Analysis.moved k)
          (call pos left (argumentWith (forceWithin depth) scope pos items) ctx s)
          (call pos (left.moved k) (argumentWith (forceWithin depth) scope pos items) ctx' t)
        unfold call
        rw [Analysis.namespaces_moved, show (left.moved k).shape = left.shape from rfl]
        cases called : left.shape with
        | function slot ret =>
          have given : RunsAlike k (Analysis.moved k)
              (argumentWith (forceWithin depth) scope pos items slot (ctx.holding left.namespaces) s)
              (argumentWith (forceWithin depth) scope pos items slot (ctx'.holding left.namespaces) t) := by
            rcases given_or_nothing slot items with given | ⟨rfl, nothing⟩
            · rw [argumentWith_given _ _ pos given]
              exact ih _ (.argument called given) k _ t (hc.holding left.namespaces) h
            · rw [argumentWith_nothing _ _ pos nothing]
              exact .deferred h .void pos .void
          refine .bind given fun argument _ _ _ h => ?_
          refine .bind (.materialize h left.value pos) fun method _ _ _ h => ?_
          refine .bind (.materialize h argument.value pos) fun argument _ _ _ h => ?_
          exact .deferred h (.call method argument) pos ret
        | _ => exact .fail h _ _
      | _ => exact fun k ctx' t _ h => .fail h _ _
    | _ => exact fun k ctx' t _ h => .fail h _ _

theorem lines {scope : Scope} {list : InstrRef} {rest : List Line}
    (ih : ∀ next, Leads ⟨depth, .lines scope list rest, ctx, s⟩ next → next.Steady) :
    Moment.Steady ⟨depth, .lines scope list rest, ctx, s⟩ := by
  intro k ctx' t hc h
  show RunsAlike k id (declareLinesWith (forceWithin depth) scope list rest ctx s)
    (declareLinesWith (forceWithin depth) scope (list.moved k) rest ctx' t)
  rw [declareLinesWith.eq_def, declareLinesWith.eq_def]
  cases rest with
  | nil => exact .done h ()
  | cons line rest =>
    refine .bind (.attempt (ih _ .line k ctx' t hc h)) fun _ mid mid' before h => ?_
    exact ih _ (.afterLine before) k ctx' mid' hc h

theorem line {scope : Scope} {list : InstrRef} {line : Line}
    (ih : ∀ next, Leads ⟨depth, .line scope list line, ctx, s⟩ next → next.Steady) :
    Moment.Steady ⟨depth, .line scope list line, ctx, s⟩ := by
  intro k ctx' t hc h
  show RunsAlike k id (declareLineWith (forceWithin depth) scope list line ctx s)
    (declareLineWith (forceWithin depth) scope (list.moved k) line ctx' t)
  rw [declareLineWith_apply, declareLineWith_apply]
  cases read : twoSided? ChainTag.bindsField line.pos line.items with
  | error d => exact .fail h _ _
  | ok sides? =>
    cases sides? with
    | none =>
      exact .bind (ih _ (.whole read) k ctx' t hc h) fun _ _ _ _ h => .done h ()
    | some sides =>
      refine .bind (ih _ (.key read) k ctx' t hc h) fun key mid mid' _ h => ?_
      exact .declareUnder h scope list sides key

theorem force {id : NamespaceId} {binding : Binding} {thunk : Thunk} {slot : Shape}
    (ih : ∀ next, Leads ⟨depth, .force id binding thunk slot, ctx, s⟩ next → next.Steady) :
    Moment.Steady ⟨depth, .force id binding thunk slot, ctx, s⟩ := by
  intro k ctx' t hc h
  show RunsAlike k (fun found => found) (forceWithin depth id binding thunk slot ctx s)
    (forceWithin depth id binding thunk slot ctx' t)
  cases depth with
  | zero => exact ⟨trivial, h⟩
  | succ depth =>
    show RunsAlike k _ (forceBy (analyzeWith (forceWithin depth)) id binding thunk slot ctx s)
      (forceBy (analyzeWith (forceWithin depth)) id binding thunk slot ctx' t)
    rw [forceBy_apply, forceBy_apply, h.store.get, hc.forcing]
    cases first : (s.store.get id).findings.get? binding with
    | some found => exact .done h found
    | none =>
      dsimp only
      by_cases entered : (id, binding) ∈ ctx.forcing
      · rw [if_pos entered, if_pos entered]
        exact .fail h _ _
      · rw [if_neg entered, if_neg entered]
        have source := ih _ (.source first entered) k _ _ (hc.inside id binding thunk.pos)
          (State.Alike.inNewBlock h.store)
        exact .bind (.workOut h source) fun found _ _ _ h => ⟨rfl, h.store.modify id _, h.block⟩

theorem body {outer : Scope} {pos : Position} {nodes : List Tree}
    (ih : ∀ next, Leads ⟨depth, .body outer pos nodes, ctx, s⟩ next → next.Steady) :
    Moment.Steady ⟨depth, .body outer pos nodes, ctx, s⟩ := by
  intro k ctx' t hc h
  show RunsAlike k (fun id => id) (declareWith (forceWithin depth) outer pos nodes ctx s)
    (declareWith (forceWithin depth) outer pos nodes ctx' t)
  rw [declareWith_apply, declareWith_apply]
  cases read : Body.read pos nodes with
  | error d => exact .fail h _ _
  | ok found =>
    obtain ⟨body, found⟩ := found
    dsimp only
    rw [h.store.namespaces]
    have begun := @State.Alike.declaring k s t ctx ctx' h.store outer pos body found found
    have list : t.fieldList = s.fieldList.moved k := by
      rw [State.fieldList, (State.Alike.inNewBlock h.store).block, Block.next_moved, State.fieldList]
    have declared : RunsAlike k id ((do
        declareLinesWith (forceWithin depth) (s.store.namespaces.size :: outer) s.fieldList body.lines
        fieldsOf pos s.fieldList) (ctx.holding [s.store.namespaces.size])
          (s.declaring ctx outer pos body found)) ((do
        declareLinesWith (forceWithin depth) (s.store.namespaces.size :: outer) t.fieldList body.lines
        fieldsOf pos t.fieldList) (ctx'.holding [s.store.namespaces.size])
          (t.declaring ctx' outer pos body found)) := by
      rw [list]
      refine .bind (ih _ (.lines read) k _ _ (hc.holding _) begun) fun _ _ _ _ h => ?_
      refine .bind (.evaluate h) fun results _ _ _ h => ?_
      exact .ofExcept h (results.aggregate_moved k pos s.fieldList)
    obtain ⟨outcome, state⟩ := declared.leaving h.block
    generalize s.leaving ((do
      declareLinesWith (forceWithin depth) (s.store.namespaces.size :: outer) s.fieldList body.lines
      fieldsOf pos s.fieldList) (ctx.holding [s.store.namespaces.size])
        (s.declaring ctx outer pos body found)) = r at outcome state
    generalize t.leaving ((do
      declareLinesWith (forceWithin depth) (s.store.namespaces.size :: outer) t.fieldList body.lines
      fieldsOf pos t.fieldList) (ctx'.holding [s.store.namespaces.size])
        (t.declaring ctx' outer pos body found)) = r' at outcome state
    obtain ⟨x, after⟩ := r
    obtain ⟨y, after'⟩ := r'
    dsimp only at outcome state
    rcases outcome.cases with ⟨registry, rfl, rfl⟩ | ⟨⟨d, rfl⟩, d', rfl⟩ | ⟨rfl, rfl⟩
    · exact ⟨rfl, state.store.modify _ _, state.block⟩
    · exact ⟨trivial, state⟩
    · exact ⟨trivial, state⟩

end Steady

theorem Moment.steady (m : Moment) : m.Steady := by
  induction m using Moment.induction with
  | step m ih =>
    obtain ⟨depth, task, ctx, s⟩ := m
    cases task with
    | expression => exact Steady.expression ih
    | base => exact Steady.base ih
    | suffixes => exact Steady.suffixes ih
    | suffix => exact Steady.suffix ih
    | body => exact Steady.body ih
    | lines => exact Steady.lines ih
    | line => exact Steady.line ih
    | resolve => exact Steady.resolve ih
    | force => exact Steady.force ih

/-- Looking into a binding leaves the block at hand as it is, whatever is in it. -/
theorem force_block (depth : Nat) (id : NamespaceId) (binding : Binding) (thunk : Thunk)
    (slot : Shape) (ctx : Context) (s : State) (block : Block) :
    forceWithin depth id binding thunk slot ctx { s with block } =
      ((forceWithin depth id binding thunk slot ctx s).1,
        { (forceWithin depth id binding thunk slot ctx s).2 with block }) := by
  cases depth with
  | zero => rfl
  | succ depth =>
    show forceBy (analyzeWith (forceWithin depth)) id binding thunk slot ctx { s with block } =
      ((forceBy (analyzeWith (forceWithin depth)) id binding thunk slot ctx s).1,
        { (forceBy (analyzeWith (forceWithin depth)) id binding thunk slot ctx s).2 with block })
    rw [forceBy_apply, forceBy_apply]
    cases (s.store.get id).findings.get? binding with
    | some found => rfl
    | none =>
      dsimp only
      by_cases entered : (id, binding) ∈ ctx.forcing
      · rw [if_pos entered, if_pos entered]
        rfl
      · rw [if_neg entered, if_neg entered, Run.bind_apply, Run.bind_apply, workOut_apply,
          workOut_apply]
        rw [show ({ s with block } : State).inNewBlock = s.inNewBlock from rfl]
        rcases findOut (analyzeWith (forceWithin depth)) thunk slot (ctx.inside id binding thunk.pos)
          s.inNewBlock with ⟨found | d | _, after⟩ <;> rfl

variable {scope : Scope} {pos : Position} {name : String} {slot : Shape}

theorem resolve_alike (hc : ctx.Alike ctx') (h : s.store.Alike k t.store) :
    (resolve scope pos name slot ctx s).1.Alike (fun a => a)
      (resolve scope pos name slot ctx' t).1 := by
  have bound : t.store.bindingBound = s.store.bindingBound := by
    rw [Store.bindingBound, Store.bindingBound, h.namespaces]
  show (resolveWith (forceWithin (s.store.bindingBound + Tree.weightAll [] + 1)) pos name slot scope
    ctx s).1.Alike _ (resolveWith (forceWithin (t.store.bindingBound + Tree.weightAll [] + 1)) pos
      name slot scope ctx' t).1
  rw [bound, resolveWith_apply, resolveWith_apply, h.reach, hc.held]
  generalize s.store.bindingBound + Tree.weightAll [] + 1 = depth
  cases s.store.reach ctx.held name scope with
  | binding id binding =>
    unfold useReached
    dsimp only
    rw [h.source?]
    cases s.store.source? id binding with
    | none => trivial
    | some thunk =>
      have forced : RunsAlike k (fun found => found) (forceWithin depth id binding thunk slot ctx s)
          (forceWithin depth id binding thunk slot ctx' { t with block := s.block.moved k }) :=
        Moment.steady ⟨depth, .force id binding thunk slot, ctx, s⟩ k ctx' _ hc ⟨h, rfl⟩
      rw [force_block depth id binding thunk slot ctx' t] at forced
      have outcome := forced.outcome
      dsimp only at outcome ⊢
      rw [Run.bind_apply, Run.bind_apply]
      generalize forceWithin depth id binding thunk slot ctx s = r at outcome
      generalize forceWithin depth id binding thunk slot ctx' t = r' at outcome
      obtain ⟨x, after⟩ := r
      obtain ⟨y, after'⟩ := r'
      dsimp only at outcome
      rcases outcome.cases with ⟨found, rfl, rfl⟩ | ⟨⟨d, rfl⟩, d', rfl⟩ | ⟨rfl, rfl⟩
      · exact (rfl : found.analysis = found.analysis)
      · trivial
      · trivial
  | nothing => trivial
  | gone => trivial

theorem Outcome.Alike.done_iff {α : Type} {x y : Outcome α} (h : x.Alike (fun a => a) y) (a : α) :
    x = .done a ↔ y = .done a := by
  rcases h.cases with ⟨b, rfl, rfl⟩ | ⟨⟨d, rfl⟩, d', rfl⟩ | ⟨rfl, rfl⟩
  · exact Iff.rfl
  · exact ⟨fun h => (by cases h), fun h => by cases h⟩
  · exact ⟨fun h => (by cases h), fun h => by cases h⟩

/-- Where there are the same namespaces, a name is resolved to the same, or not at all. -/
theorem resolve_congr (hc : ctx.Alike ctx') (same : t.store.namespaces = s.store.namespaces)
    (a : Analysis) : (resolve scope pos name slot ctx s).1 = .done a ↔
      (resolve scope pos name slot ctx' t).1 = .done a := by
  rcases Nat.le_total s.store.nextBlock t.store.nextBlock with fewer | more
  · obtain ⟨k, next⟩ := Nat.exists_eq_add_of_le fewer
    have alike : s.store.Alike k t.store := ⟨same, next⟩
    exact (resolve_alike hc alike).done_iff a
  · obtain ⟨k, next⟩ := Nat.exists_eq_add_of_le more
    have alike : t.store.Alike k s.store := ⟨same.symm, next⟩
    exact ((resolve_alike ⟨hc.held.symm, hc.forcing.symm⟩ alike).done_iff a).symm

end NamespaceLang

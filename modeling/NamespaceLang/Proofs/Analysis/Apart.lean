import NamespaceLang.Proofs.Analysis.Agreement

/-!
# What else is in the block

An expression does not look at the block that it adds to. In blocks of one number,
whatever is in them, it comes to the same end, with the same namespaces, and what
it gives differs in nothing but the places of its instructions. So all that the
lines of a body leave for one another is the namespaces that were begun, and what
was found out about them.
-/

set_option autoImplicit false

namespace NamespaceLang

/-- The same namespaces, however many blocks there have been since, and blocks of one number with
anything in them. -/
structure State.Apart (s t : State) : Prop where
  store : ∃ k, s.store.Alike k t.store
  block : t.block.id = s.block.id

def Operand.Apart : Operand → Operand → Prop
  | .known value, .known other => other = value
  | .deferred ref, .deferred other => other.block = ref.block
  | _, _ => False

structure Analysis.Apart (a b : Analysis) : Prop where
  value : a.value.Apart b.value
  shape : b.shape = a.shape

def Outcome.Both {α : Type} (like : α → α → Prop) : Outcome α → Outcome α → Prop
  | .done a, .done b => like a b
  | .failed _, .failed _ => True
  | .exhausted, .exhausted => True
  | _, _ => False

theorem Outcome.Both.cases {α : Type} {like : α → α → Prop} {x y : Outcome α} (h : x.Both like y) :
    (∃ a b, x = .done a ∧ y = .done b ∧ like a b) ∨ ((∃ d, x = .failed d) ∧ ∃ d, y = .failed d) ∨
      (x = .exhausted ∧ y = .exhausted) := by
  cases x with
  | done a =>
    cases y with
    | done b => exact Or.inl ⟨a, b, rfl, rfl, h⟩
    | _ => cases h
  | failed d =>
    cases y with
    | failed d' => exact Or.inr (Or.inl ⟨⟨d, rfl⟩, d', rfl⟩)
    | _ => cases h
  | exhausted =>
    cases y with
    | exhausted => exact Or.inr (Or.inr ⟨rfl, rfl⟩)
    | _ => cases h

theorem Outcome.Alike.both {α : Type} {like : α → α → Prop} {x y : Outcome α}
    (h : x.Alike (fun a => a) y) (hl : ∀ a, like a a) : x.Both like y := by
  rcases h.cases with ⟨a, rfl, rfl⟩ | ⟨⟨d, rfl⟩, d', rfl⟩ | ⟨rfl, rfl⟩
  · exact hl a
  · trivial
  · trivial

structure RunsApart {α : Type} (like : α → α → Prop) (r r' : Outcome α × State) : Prop where
  outcome : r.1.Both like r'.1
  state : r.2.Apart r'.2

theorem Analysis.Apart.refl (a : Analysis) : a.Apart a := by
  obtain ⟨value, shape⟩ := a
  cases value <;> exact ⟨rfl, rfl⟩

theorem Analysis.Apart.namespaces {a b : Analysis} (h : a.Apart b) :
    b.namespaces = a.namespaces := by
  obtain ⟨value, shape⟩ := a
  obtain ⟨other, same⟩ := b
  obtain ⟨hv, hs⟩ := h
  dsimp only at hv hs
  subst hs
  cases value with
  | known value =>
    cases other with
    | known other => exact congrArg (fun v => Value.namespaces v ++ _) hv
    | deferred ref => exact hv.elim
  | deferred ref =>
    cases other with
    | known other => exact hv.elim
    | deferred other => rfl

def InstrRef.Apart (ref other : InstrRef) : Prop := other.block = ref.block

namespace RunsApart

variable {α β : Type} {like : α → α → Prop} {first : β → β → Prop} {ctx : Context} {s t : State}

theorem done (h : s.Apart t) {a b : α} (hl : like a b) : RunsApart like (.done a, s) (.done b, t) :=
  ⟨hl, h⟩

theorem fail (h : s.Apart t) (d d' : Diagnostic) :
    RunsApart like (Run.fail d ctx s) (Run.fail d' ctx t) := ⟨trivial, h⟩

theorem bind {act act' : Run β} {next next' : β → Run α}
    (h : RunsApart first (act ctx s) (act' ctx t))
    (hn : ∀ b b' mid mid', act ctx s = (.done b, mid) → first b b' → mid.Apart mid' →
      RunsApart like (next b ctx mid) (next' b' ctx mid')) :
    RunsApart like ((act >>= next) ctx s) ((act' >>= next') ctx t) := by
  rw [Run.bind_apply, Run.bind_apply]
  obtain ⟨outcome, state⟩ := h
  generalize hr : act ctx s = r at outcome state
  generalize act' ctx t = r' at outcome state
  obtain ⟨x, mid⟩ := r
  obtain ⟨y, mid'⟩ := r'
  dsimp only at outcome state
  rcases outcome.cases with ⟨b, b', rfl, rfl, hb⟩ | ⟨⟨d, rfl⟩, d', rfl⟩ | ⟨rfl, rfl⟩
  · exact hn b b' mid mid' hr hb state
  · exact ⟨trivial, state⟩
  · exact ⟨trivial, state⟩

theorem push (h : s.Apart t) (op op' : Op) (pos : Position) :
    RunsApart InstrRef.Apart (Run.push op pos ctx s) (Run.push op' pos ctx t) :=
  ⟨h.block, h.store, h.block⟩

theorem deferred (h : s.Apart t) (op op' : Op) (pos : Position) (shape : Shape) :
    RunsApart Analysis.Apart (Run.deferred op pos shape ctx s) (Run.deferred op' pos shape ctx t) :=
  bind (push h op op' pos) fun _ _ _ _ _ hr h => done h ⟨hr, rfl⟩

theorem materialize (h : s.Apart t) {operand other : Operand} (ho : operand.Apart other)
    (pos : Position) :
    RunsApart InstrRef.Apart (Run.materialize operand pos ctx s)
      (Run.materialize other pos ctx t) := by
  cases operand with
  | known value =>
    cases other with
    | known other =>
      obtain rfl : other = value := ho
      cases other with
      | void | key | ast => exact @push ctx s t h _ _ pos
      | _ => exact @fail _ _ ctx s t h _ _
    | deferred ref => exact ho.elim
  | deferred ref =>
    cases other with
    | known other => exact ho.elim
    | deferred other =>
      have same : other.block = ref.block := ho
      unfold Run.materialize Block.materialize
      dsimp only
      rw [h.block, same]
      by_cases own : ref.block = s.block.id
      · rw [if_pos own, if_pos own]
        exact done h same
      · rw [if_neg own, if_neg own]
        exact ⟨trivial, h⟩

theorem attempt {act act' : Run Unit} {like : Unit → Unit → Prop} (hl : like () ())
    (h : RunsApart like (act ctx s) (act' ctx t)) :
    RunsApart like (Run.attempt act ctx s) (Run.attempt act' ctx t) := by
  rw [Run.attempt_eq_tell, Run.attempt_eq_tell]
  obtain ⟨outcome, state⟩ := h
  generalize act ctx s = r at outcome state
  generalize act' ctx t = r' at outcome state
  obtain ⟨x, mid⟩ := r
  obtain ⟨y, mid'⟩ := r'
  dsimp only at outcome state
  rcases outcome.cases with ⟨b, b', rfl, rfl, hb⟩ | ⟨⟨d, rfl⟩, d', rfl⟩ | ⟨rfl, rfl⟩
  · exact ⟨hb, state⟩
  · obtain ⟨k, store⟩ := state.store
    exact ⟨hl, ⟨k, store.namespaces, store.nextBlock⟩, state.block⟩
  · exact ⟨trivial, state⟩

end RunsApart

section

variable {ctx : Context} {s t : State} {depth : Nat}

/-- Looking into a binding is work in another block. -/
theorem force_apart (h : s.Apart t) (id : NamespaceId) (binding : Binding) (thunk : Thunk)
    (slot : Shape) :
    RunsApart Eq (forceWithin depth id binding thunk slot ctx s)
      (forceWithin depth id binding thunk slot ctx t) := by
  obtain ⟨k, same⟩ := h.store
  have alike : RunsAlike k (fun found => found) (forceWithin depth id binding thunk slot ctx s)
      (forceWithin depth id binding thunk slot ctx { t with block := s.block.moved k }) :=
    Moment.steady ⟨depth, .force id binding thunk slot, ctx, s⟩ k ctx _ ⟨rfl, rfl⟩ ⟨same, rfl⟩
  rw [force_block depth id binding thunk slot ctx t] at alike
  have left (u : State) : (forceWithin depth id binding thunk slot ctx u).2.block = u.block :=
    congrArg (fun r => r.2.block) (force_block depth id binding thunk slot ctx u u.block)
  exact ⟨(alike.outcome.both fun _ => rfl), ⟨k, alike.state.store⟩, by rw [left, left, h.block]⟩

theorem declareWith_block (force : Forcing) (outer : Scope) (pos : Position) (nodes : List Tree)
    (ctx : Context) (s : State) (block : Block) :
    declareWith force outer pos nodes ctx { s with block } =
      ((declareWith force outer pos nodes ctx s).1,
        { (declareWith force outer pos nodes ctx s).2 with block }) := by
  rw [declareWith_apply, declareWith_apply]
  cases Body.read pos nodes with
  | error d => rfl
  | ok read =>
    obtain ⟨body, found⟩ := read
    dsimp only
    rw [show ({ s with block } : State).declaring ctx outer pos body found =
        s.declaring ctx outer pos body found from rfl,
      show ({ s with block } : State).fieldList = s.fieldList from rfl]
    generalize (do
      declareLinesWith force (s.store.namespaces.size :: outer) s.fieldList body.lines
      fieldsOf pos s.fieldList : Run Registry) (ctx.holding [s.store.namespaces.size])
        (s.declaring ctx outer pos body found) = r
    rcases r with ⟨registry | d | _, after⟩ <;> rfl

theorem declareWith_apart (h : s.Apart t) (outer : Scope) (pos : Position) (nodes : List Tree) :
    RunsApart Eq (declareWith (forceWithin depth) outer pos nodes ctx s)
      (declareWith (forceWithin depth) outer pos nodes ctx t) := by
  obtain ⟨k, same⟩ := h.store
  have alike : RunsAlike k (fun id => id) (declareWith (forceWithin depth) outer pos nodes ctx s)
      (declareWith (forceWithin depth) outer pos nodes ctx { t with block := s.block.moved k }) :=
    Moment.steady ⟨depth, .body outer pos nodes, ctx, s⟩ k ctx _ ⟨rfl, rfl⟩ ⟨same, rfl⟩
  rw [declareWith_block (forceWithin depth) outer pos nodes ctx t] at alike
  have left (u : State) :
      (declareWith (forceWithin depth) outer pos nodes ctx u).2.block = u.block :=
    congrArg (fun r => r.2.block)
      (declareWith_block (forceWithin depth) outer pos nodes ctx u u.block)
  exact ⟨(alike.outcome.both fun _ => rfl), ⟨k, alike.state.store⟩, by rw [left, left, h.block]⟩

theorem resolve_apart (h : s.Apart t) (scope : Scope) (slot : Shape) (pos : Position)
    (name : String) :
    RunsApart Analysis.Apart (resolveWith (forceWithin depth) pos name slot scope ctx s)
      (resolveWith (forceWithin depth) pos name slot scope ctx t) := by
  obtain ⟨k, same⟩ := h.store
  rw [resolveWith_apply, resolveWith_apply, same.reach]
  cases s.store.reach ctx.held name scope with
  | binding id binding =>
    unfold useReached
    dsimp only
    rw [same.source?]
    cases s.store.source? id binding with
    | some thunk =>
      refine .bind (force_apart h id binding thunk slot) fun found _ _ _ _ hf h => .done h ?_
      cases hf
      exact .refl _
    | none => exact .fail h _ _
  | _ => exact .fail h _ _

end

/-- An expression comes to the same end in other blocks of the same number. -/
def Moment.Aloof (m : Moment) : Prop := ∀ t, m.state.Apart t →
  match m.task with
  | .expression scope slot pos nodes => RunsApart Analysis.Apart
      (analyzeWith (forceWithin m.depth) scope slot pos nodes m.ctx m.state)
      (analyzeWith (forceWithin m.depth) scope slot pos nodes m.ctx t)
  | .base scope slot node => RunsApart Analysis.Apart
      (analyzeBaseWith (forceWithin m.depth) scope slot node m.ctx m.state)
      (analyzeBaseWith (forceWithin m.depth) scope slot node m.ctx t)
  | .suffixes scope left nodes => ∀ other, left.Apart other → RunsApart Analysis.Apart
      (analyzeSuffixesWith (forceWithin m.depth) scope left nodes m.ctx m.state)
      (analyzeSuffixesWith (forceWithin m.depth) scope other nodes m.ctx t)
  | .suffix scope left node => ∀ other, left.Apart other → RunsApart Analysis.Apart
      (analyzeSuffixWith (forceWithin m.depth) scope left node m.ctx m.state)
      (analyzeSuffixWith (forceWithin m.depth) scope other node m.ctx t)
  | _ => True

namespace Aloof

variable {depth : Nat} {ctx : Context} {s : State}

theorem expression {scope : Scope} {slot : Shape} {pos : Position} {nodes : List Tree}
    (ih : ∀ next, Leads ⟨depth, .expression scope slot pos nodes, ctx, s⟩ next → next.Aloof) :
    Moment.Aloof ⟨depth, .expression scope slot pos nodes, ctx, s⟩ := by
  intro t h
  show RunsApart Analysis.Apart (analyzeWith (forceWithin depth) scope slot pos nodes ctx s)
    (analyzeWith (forceWithin depth) scope slot pos nodes ctx t)
  by_cases kept : slot = .ast
  · subst kept
    rw [analyzeWith.eq_def]
    exact .deferred h (.captureAst ⟨nodes, pos, scope⟩) _ pos .ast
  · rw [analyzeWith_of_ne_ast _ _ kept]
    unfold analyzeHeadWith
    cases head : literal? (Tree.solid nodes) with
    | some l =>
      dsimp only
      refine .bind (declareWith_apart h scope l.pos l.body) fun id _ mid mid' before same h => ?_
      cases same
      refine .bind (.push h .comptimeOnly .comptimeOnly l.start) fun _ _ pushed _ hp _ h => ?_
      cases hp
      exact ih _ (.afterLiteral kept head before) _ h _ (.refl _)
    | none =>
      dsimp only
      cases items : Tree.solid nodes with
      | nil => exact .fail h _ _
      | cons first rest =>
        dsimp only
        refine .bind (ih _ (.base kept head items) t h) fun base other mid mid' before hb h => ?_
        exact ih _ (.afterBase kept head items before) mid' h other hb

theorem base {scope : Scope} {slot : Shape} {node : Tree}
    (ih : ∀ next, Leads ⟨depth, .base scope slot node, ctx, s⟩ next → next.Aloof) :
    Moment.Aloof ⟨depth, .base scope slot node, ctx, s⟩ := by
  intro t h
  show RunsApart Analysis.Apart (analyzeBaseWith (forceWithin depth) scope slot node ctx s)
    (analyzeBaseWith (forceWithin depth) scope slot node ctx t)
  rw [analyzeBaseWith.eq_def]
  split
  · next pos leaf =>
    unfold analyzeLeafWith
    split
    · split
      · exact .bind (.push h .comptimeOnly .comptimeOnly pos) fun _ _ _ _ _ _ h => .done h (.refl _)
      · exact .fail h _ _
    · next _ name =>
      split
      · exact .deferred h (.makeKey (.string name)) _ pos (.stringKey name)
      · exact .fail h _ _
    · exact resolve_apart h scope slot pos _
    · exact .fail h _ _
    · exact .fail h _ _
  · exact ih _ .code t h
  · next pos _ _ items =>
    have read : RunsApart (fun _ _ => True) (Run.ofExcept (Pattern.read pos items) ctx s)
        (Run.ofExcept (Pattern.read pos items) ctx t) := by
      cases Pattern.read pos items with
      | ok pattern => exact .done h trivial
      | error d => exact .fail h d d
    exact .bind read fun _ _ _ _ _ _ h => .fail h _ _
  · exact .fail h _ _

theorem suffixes {scope : Scope} {left : Analysis} {nodes : List Tree}
    (ih : ∀ next, Leads ⟨depth, .suffixes scope left nodes, ctx, s⟩ next → next.Aloof) :
    Moment.Aloof ⟨depth, .suffixes scope left nodes, ctx, s⟩ := by
  intro t h other hl
  show RunsApart Analysis.Apart (analyzeSuffixesWith (forceWithin depth) scope left nodes ctx s)
    (analyzeSuffixesWith (forceWithin depth) scope other nodes ctx t)
  cases nodes with
  | nil =>
    rw [analyzeSuffixesWith.eq_def, analyzeSuffixesWith.eq_def]
    exact .done h hl
  | cons node rest =>
    rw [analyzeSuffixesWith_cons, analyzeSuffixesWith_cons]
    refine .bind (ih _ .suffix t h other hl) fun next next' mid mid' before hn h => ?_
    exact ih _ (.afterSuffix before) mid' h next' hn

theorem access {left other : Analysis} {pos : Position} {name : String} {t : State} (h : s.Apart t)
    (hl : left.Apart other) :
    RunsApart Analysis.Apart (accessWith (forceWithin depth) left pos name ctx s)
      (accessWith (forceWithin depth) other pos name ctx t) := by
  unfold accessWith
  rw [hl.namespaces, hl.shape]
  cases left.shape with
  | namespaceOf target =>
    show RunsApart Analysis.Apart
      (readStringWith (forceWithin depth) target pos name (ctx.holding left.namespaces) s)
      (readStringWith (forceWithin depth) target pos name (ctx.holding left.namespaces) t)
    cases target with
    | builtin =>
      unfold readStringWith
      cases Builtin.ofName? name with
      | none => exact .fail h _ _
      | some builtin => exact .deferred h (.makeKey builtin.key) _ pos _
    | declared id =>
      show RunsApart _
        ((if (s.store.get id).fields?.isSome then _ else _ : Run Analysis) _ s)
        ((if (t.store.get id).fields?.isSome then _ else _ : Run Analysis) _ t)
      obtain ⟨k, alike⟩ := h.store
      rw [alike.get]
      by_cases closed : (s.store.get id).fields?.isSome
      · rw [if_pos closed]
        have read : RunsApart Eq
            (readFieldWith? (forceWithin depth) id (.string name) .unknown
              (ctx.holding left.namespaces) s)
            (readFieldWith? (forceWithin depth) id (.string name) .unknown
              (ctx.holding left.namespaces) t) := by
          rw [readFieldWith?_apply, readFieldWith?_apply, alike.get]
          cases (s.store.get id).field? (.string name) with
          | none => exact .done h rfl
          | some entry =>
            refine .bind (force_apart h id _ entry.thunk .unknown) fun _ _ _ _ _ same h =>
              .done h ?_
            rw [same]
        refine .bind read fun found? _ _ _ _ same h => ?_
        cases same
        cases found? with
        | some found => exact .done h (.refl found)
        | none => exact .fail h _ _
      · rw [if_neg closed]
        exact .fail h _ _
  | _ => exact .fail h _ _

theorem suffix {scope : Scope} {left : Analysis} {node : Tree}
    (ih : ∀ next, Leads ⟨depth, .suffix scope left node, ctx, s⟩ next → next.Aloof) :
    Moment.Aloof ⟨depth, .suffix scope left node, ctx, s⟩ := by
  cases node with
  | leaf pos content =>
    cases content with
    | identifier sigil name =>
      cases sigil with
      | plain | access => exact fun t h other hl => access h hl
      | builtin => exact fun t h other _ => .fail h _ _
    | bare tag spelling =>
      cases tag with
      | access => exact fun t h other hl => .done h hl
      | _ => exact fun t h other _ => .fail h _ _
    | _ => exact fun t h other _ => .fail h _ _
  | group pos form items =>
    cases form with
    | block tag opening closing =>
      cases tag with
      | code =>
        intro t h other hl
        show RunsApart Analysis.Apart
          (call pos left (argumentWith (forceWithin depth) scope pos items) ctx s)
          (call pos other (argumentWith (forceWithin depth) scope pos items) ctx t)
        unfold call
        rw [hl.namespaces, hl.shape]
        cases called : left.shape with
        | function slot ret =>
          have given : RunsApart Analysis.Apart
              (argumentWith (forceWithin depth) scope pos items slot
                (ctx.holding left.namespaces) s)
              (argumentWith (forceWithin depth) scope pos items slot
                (ctx.holding left.namespaces) t) := by
            rcases given_or_nothing slot items with given | ⟨rfl, nothing⟩
            · rw [argumentWith_given _ _ pos given]
              exact ih _ (.argument called given) t h
            · rw [argumentWith_nothing _ _ pos nothing]
              exact .deferred h .void _ pos .void
          refine .bind given fun argument argument' _ _ _ ha h => ?_
          refine .bind (.materialize h hl.value pos) fun method method' _ _ _ _ h => ?_
          refine .bind (.materialize h ha.value pos) fun argument argument' _ _ _ _ h => ?_
          exact .deferred h (.call method argument) _ pos ret
        | _ => exact .fail h _ _
      | _ => exact fun t h other _ => .fail h _ _
    | _ => exact fun t h other _ => .fail h _ _

end Aloof

theorem Moment.aloof (m : Moment) : m.Aloof := by
  induction m using Moment.induction with
  | step m ih =>
    obtain ⟨depth, task, ctx, s⟩ := m
    cases task with
    | expression => exact Aloof.expression ih
    | base => exact Aloof.base ih
    | suffixes => exact Aloof.suffixes ih
    | suffix => exact Aloof.suffix ih
    | _ => exact fun _ _ => trivial

section

variable {depth : Nat} {scope : Scope} {list : InstrRef} {ctx : Context} {s t : State}

theorem declareUnder_apart (h : s.Apart t) (sides : TwoSided) {key other : Analysis}
    (hk : key.Apart other) :
    RunsApart (fun _ _ => True) (declareUnder scope list sides key ctx s)
      (declareUnder scope list sides other ctx t) := by
  have declares : RunsApart (fun _ _ => True) (declareField scope list sides key ctx s)
      (declareField scope list sides other ctx t) := by
    refine .bind (.materialize h hk.value _) fun keyRef keyRef' _ _ _ _ h => ?_
    refine .bind (.deferred h (.captureAst _) (.captureAst _) _ .ast)
      fun body body' _ _ _ hb h => ?_
    refine .bind (.materialize h hb.value _) fun bodyRef bodyRef' _ _ _ _ h => ?_
    exact .bind (.push h (.nsAppend list keyRef bodyRef) _ _) fun _ _ _ _ _ _ h => .done h trivial
  unfold declareUnder
  rw [hk.shape]
  cases key.shape with
  | stringKey name => exact declares
  | symbolKey builtin child => exact declares
  | _ => exact .fail h _ _

theorem declareLineWith_apart (h : s.Apart t) (line : Line) :
    RunsApart (fun _ _ => True) (declareLineWith (forceWithin depth) scope list line ctx s)
      (declareLineWith (forceWithin depth) scope list line ctx t) := by
  rw [declareLineWith_apply, declareLineWith_apply]
  cases twoSided? ChainTag.bindsField line.pos line.items with
  | error d => exact .fail h _ _
  | ok sides? =>
    cases sides? with
    | none =>
      exact .bind (Moment.aloof ⟨depth, .expression scope .void line.pos line.items, ctx, s⟩ t h)
        fun _ _ _ _ _ _ h => .done h trivial
    | some sides =>
      exact .bind
        (Moment.aloof ⟨depth, .expression scope .key sides.left.pos sides.leftItems, ctx, s⟩ t h)
        fun key key' _ _ _ hk h => declareUnder_apart h sides hk

end

end NamespaceLang

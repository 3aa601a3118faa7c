import NamespaceLang.Proofs.Analysis.Moments
import NamespaceLang.Proofs.Instr.Declared
import NamespaceLang.Proofs.Store.Changes

/-!
# What every call keeps

A call learns about the namespaces that were there before it, and changes
nothing else about them; all that it does to the store comes to changes that are
allowed. It learns nothing about a binding that is being looked into already.
Only the lines of a body declare fields in the block at hand, and what a call
fails with is told under the trace it was made under. It uses up its depth only
where a binding is looked into with none left.
-/

set_option autoImplicit false

namespace NamespaceLang

/-- The store still has, or has not, what it has found out about the bindings being looked into. -/
def Context.Untouched (ctx : Context) (s later : Store) : Prop :=
  ∀ p ∈ ctx.forcing, (later.get p.1).findings.get? p.2 = (s.get p.1).findings.get? p.2

/-- What a call that begins in `s` may do: `ends` holds if it uses up its depth, and the
instructions that it adds are `allowed`. -/
structure Keeps {α : Type} (ends : Prop) (allowed : Op → Bool) (ctx : Context) (s : State)
    (r : Outcome α × State) : Prop where
  learns : s.store.Learns r.2.store
  develops : s.store.Develops r.2.store
  untouched : ctx.Untouched s.store r.2.store
  block : ∃ more, r.2.block = ⟨s.block.id, s.block.instrs ++ more⟩ ∧
    ∀ instr ∈ more, allowed instr.op = true
  failed : ∀ d, r.1 = .failed d → ctx.trace <+: d.trace
  exhausted : r.1 = .exhausted → ends

namespace Keeps

variable {α β : Type} {ends : Prop} {allowed : Op → Bool} {ctx : Context} {s : State}

theorem still {o : Outcome α} {after : State} (size : after.store.size = s.store.size)
    (get : after.store.get = s.store.get) (develops : s.store.Develops after.store)
    (block : after.block = s.block)
    (failed : ∀ d, o = .failed d → ctx.trace <+: d.trace) (exhausted : o ≠ .exhausted) :
    Keeps ends allowed ctx s (o, after) where
  learns := ⟨Nat.le_of_eq size.symm, fun id _ => by rw [get]; exact .refl _⟩
  develops := develops
  untouched p _ := by rw [get]
  block := ⟨#[], by rw [block, Array.append_empty], by simp⟩
  failed := failed
  exhausted h := absurd h exhausted

theorem done (a : α) : Keeps ends allowed ctx s (.done a, s) :=
  still rfl rfl (.refl _) rfl (fun _ h => by cases h) (fun h => by cases h)

theorem fail (d : Diagnostic) : Keeps ends allowed ctx s ((Run.fail d : Run α) ctx s) :=
  still rfl rfl (.refl _) rfl (fun _ h => by cases h; exact List.prefix_append _ _)
    (fun h => by cases h)

theorem ofExcept (found : Except Diagnostic α) :
    Keeps ends allowed ctx s (Run.ofExcept found ctx s) := by
  cases found with
  | ok a => exact done a
  | error d => exact fail d

theorem record (ds : List Diagnostic) : Keeps ends allowed ctx s (Run.record ds ctx s) :=
  still rfl rfl (.record _ _) rfl (fun _ h => by cases h) (fun h => by cases h)

theorem push {op : Op} (h : allowed op = true) (pos : Position) :
    Keeps ends allowed ctx s (Run.push op pos ctx s) where
  learns := .refl _
  develops := .refl _
  untouched _ _ := rfl
  block := ⟨#[⟨op, pos⟩], rfl, by simpa using h⟩
  failed _ h := by cases h
  exhausted h := by cases h

theorem bind {act : Run β} {next : β → Run α} (h : Keeps ends allowed ctx s (act ctx s))
    (hn : ∀ b mid, act ctx s = (.done b, mid) → Keeps ends allowed ctx mid (next b ctx mid)) :
    Keeps ends allowed ctx s ((act >>= next) ctx s) := by
  rw [Run.bind_apply]
  obtain ⟨learns, develops, untouched, ⟨more, block, ok⟩, failed, exhausted⟩ := h
  rcases hr : act ctx s with ⟨b | d | _, mid⟩
  · have later := hn b mid hr
    rw [hr] at learns develops untouched block
    constructor
    · exact learns.trans later.learns
    · exact develops.trans later.develops
    · intro p hp
      rw [later.untouched p hp, untouched p hp]
    · obtain ⟨more', block', ok'⟩ := later.block
      dsimp only at block
      rw [block] at block'
      refine ⟨more ++ more', by rw [block', Array.append_assoc], fun instr hm => ?_⟩
      exact (Array.mem_append.1 hm).elim (ok instr) (ok' instr)
    · exact later.failed
    · exact later.exhausted
  · rw [hr] at learns develops untouched block failed
    exact ⟨learns, develops, untouched, ⟨more, block, ok⟩,
      fun d' h => failed d' (by cases h; rfl), fun h => by cases h⟩
  · rw [hr] at learns develops untouched block exhausted
    exact ⟨learns, develops, untouched, ⟨more, block, ok⟩, fun _ h => (by cases h),
      fun _ => exhausted rfl⟩

theorem inContext {inner : Context} {r : Outcome α × State} (h : Keeps ends allowed inner s r)
    (trace : ctx.trace <+: inner.trace) (forcing : ctx.forcing ⊆ inner.forcing) :
    Keeps ends allowed ctx s r :=
  { h with
    untouched := fun p hp => h.untouched p (forcing hp)
    failed := fun d hd => trace.trans (h.failed d hd) }

theorem holding (ids : List NamespaceId) {r : Outcome α × State}
    (h : Keeps ends allowed (ctx.holding ids) s r) : Keeps ends allowed ctx s r :=
  h.inContext (List.prefix_refl _) (List.Subset.refl _)

theorem mono {others : Prop} {more : Op → Bool} {r : Outcome α × State}
    (h : Keeps ends allowed ctx s r) (he : ends → others)
    (ho : ∀ op, allowed op = true → more op = true) : Keeps others more ctx s r := by
  obtain ⟨added, block, ok⟩ := h.block
  exact { h with
    block := ⟨added, block, fun instr hm => ho _ (ok instr hm)⟩
    exhausted := fun hx => he (h.exhausted hx) }

theorem leaving {more : Op → Bool} {r : Outcome α × State} (h : Keeps ends more ctx s.inNewBlock r) :
    Keeps ends allowed ctx s (s.leaving r) where
  learns := (Store.Learns.newBlock s.store).trans h.learns
  develops := (Store.Develops.newBlock s.store).trans h.develops
  untouched := h.untouched
  block := ⟨#[], by simp [State.leaving], by simp⟩
  failed := h.failed
  exhausted := h.exhausted

theorem attempt {act : Run Unit} (h : Keeps ends allowed ctx s (act ctx s)) :
    Keeps ends allowed ctx s (Run.attempt act ctx s) := by
  rw [Run.attempt_eq_tell]
  generalize act ctx s = r at h
  obtain ⟨learns, develops, untouched, block, -, exhausted⟩ := h
  rcases r with ⟨_ | d | _, after⟩
  · exact ⟨learns, develops, untouched, block, fun _ h => (by cases h), fun h => by cases h⟩
  · exact ⟨learns.trans (.record _ _), develops.trans (.record _ _), untouched, block,
      fun _ h => (by cases h), fun h => by cases h⟩
  · exact ⟨learns, develops, untouched, block, fun _ h => (by cases h), fun _ => exhausted rfl⟩

theorem materialize (usual : ∀ op : Op, op.appends = false → allowed op = true) (operand : Operand)
    (pos : Position) : Keeps ends allowed ctx s (Run.materialize operand pos ctx s) := by
  cases operand with
  | deferred ref =>
    unfold Run.materialize Block.materialize
    dsimp only
    by_cases own : ref.block = s.block.id
    · rw [if_pos own]
      exact done ref
    · rw [if_neg own]
      exact fail _
  | known value =>
    cases value with
    | void => exact push (usual .void rfl) pos
    | key k => exact push (usual (.makeKey k) rfl) pos
    | ast t => exact push (usual (.captureAst t) rfl) pos
    | _ => exact fail _

theorem evaluate : Keeps ends allowed ctx s (Run.evaluate ctx s) := by
  have told : Keeps ends allowed ctx s (Run.evaluate ctx s) := by
    unfold Run.evaluate
    exact bind (record _) fun _ _ _ => ofExcept _
  exact { told with develops := (Store.Develops.evaluate s.store s.block).trans told.develops }

theorem thenFields {act : Run Unit} (h : Keeps ends allowed ctx s (act ctx s)) (pos : Position)
    (list : InstrRef) :
    Keeps ends allowed ctx s ((do act; fieldsOf pos list : Run Registry) ctx s) :=
  .bind h fun _ _ _ => .bind .evaluate fun _ _ _ => .ofExcept _

theorem readField {force : Forcing} {id : NamespaceId} {key : FieldKey} {slot : Shape}
    (forced : ∀ entry, (s.store.get id).field? key = some entry →
      Keeps ends allowed ctx s (force id (.field key) entry.thunk slot ctx s)) :
    Keeps ends allowed ctx s (readFieldWith? force id key slot ctx s) := by
  rw [readFieldWith?_apply]
  cases there : (s.store.get id).field? key with
  | none => exact .done none
  | some entry => exact .bind (forced entry there) fun _ _ _ => .done _

theorem readString {force : Forcing} {id : NamespaceId} {pos : Position} {name : String}
    (forced : ∀ entry, (s.store.get id).field? (.string name) = some entry →
      Keeps ends allowed ctx s (force id (.field (.string name)) entry.thunk .unknown ctx s)) :
    Keeps ends allowed ctx s (readStringWith force (.declared id) pos name ctx s) := by
  show Keeps ends allowed ctx s
    ((if (s.store.get id).fields?.isSome then _ else _ : Run Analysis) ctx s)
  by_cases closed : (s.store.get id).fields?.isSome
  · rw [if_pos closed]
    refine .bind (.readField forced) fun found? mid _ => ?_
    cases found? with
    | some found => exact .done _
    | none => exact .fail _
  · rw [if_neg closed]
    exact .fail _

theorem called (usual : ∀ op : Op, op.appends = false → allowed op = true) (pos : Position)
    (method argument : Operand) (ret : Shape) :
    Keeps ends allowed ctx s ((do
      let methodRef ← Run.materialize method pos
      let givenRef ← Run.materialize argument pos
      Run.deferred (.call methodRef givenRef) pos ret) ctx s) := by
  refine .bind (.materialize usual _ pos) fun _ _ _ => ?_
  refine .bind (.materialize usual _ pos) fun _ _ _ => ?_
  exact .bind (.push (usual _ rfl) pos) fun _ _ _ => .done _

theorem call (usual : ∀ op : Op, op.appends = false → allowed op = true) (pos : Position)
    {method : Analysis} {argument : Shape → Run Analysis}
    (given : ∀ slot ret, method.shape = .function slot ret →
      Keeps ends allowed (ctx.holding method.namespaces) s
        (argument slot (ctx.holding method.namespaces) s)) :
    Keeps ends allowed ctx s (NamespaceLang.call pos method argument ctx s) := by
  unfold NamespaceLang.call
  cases shape : method.shape with
  | function slot ret =>
    exact .bind (.holding method.namespaces (given slot ret shape)) fun _ _ _ =>
      .called usual pos _ _ ret
  | _ => exact .fail _

theorem declareUnder (anything : ∀ op, allowed op = true) (scope : Scope) (list : InstrRef)
    (sides : TwoSided) (key : Analysis) :
    Keeps ends allowed ctx s (NamespaceLang.declareUnder scope list sides key ctx s) := by
  have declares : Keeps ends allowed ctx s (declareField scope list sides key ctx s) := by
    refine .bind (.materialize (fun op _ => anything op) _ _) fun _ _ _ => ?_
    refine .bind (.bind (.push (anything _) _) fun _ _ _ => .done _) fun _ _ _ => ?_
    refine .bind (.materialize (fun op _ => anything op) _ _) fun _ _ _ => ?_
    exact .bind (.push (anything _) _) fun _ _ _ => .done _
  unfold NamespaceLang.declareUnder
  cases key.shape with
  | stringKey name => exact declares
  | symbolKey builtin child => exact declares
  | _ => exact .fail _

theorem workOut {more : Op → Bool} {analyze : Scope → Shape → Position → List Tree → Run Analysis}
    {thunk : Thunk} {slot : Shape} (h : Keeps ends more ctx s.inNewBlock
      (analyze thunk.scope slot thunk.pos thunk.nodes ctx s.inNewBlock)) :
    Keeps ends allowed ctx s (NamespaceLang.workOut analyze thunk slot ctx s) := by
  rw [workOut_apply]
  refine .leaving (.bind h fun _ _ _ => ?_)
  refine .bind .evaluate fun _ _ _ => ?_
  exact .bind (.ofExcept _) fun _ _ _ => .done _

end Keeps

theorem State.declaring_get (s : State) (ctx : Context) (outer : Scope) (pos : Position) (body : Body)
    (found : List Diagnostic) : (s.declaring ctx outer pos body found).store.get s.store.size =
      ⟨pos, outer, body.definitions, none, .empty⟩ := by
  let told := s.store.record (found.map (·.under ctx.trace))
  show (told.begin pos outer body.definitions).2.get told.size = _
  rw [Store.get_begin, if_pos rfl]

theorem State.declaring_size (s : State) (ctx : Context) (outer : Scope) (pos : Position) (body : Body)
    (found : List Diagnostic) :
    (s.declaring ctx outer pos body found).store.size = s.store.size + 1 :=
  Store.size_begin _ pos outer body.definitions

theorem State.declaring_open {s : State} {ctx : Context} {outer : Scope} {pos : Position} {body : Body}
    {found : List Diagnostic} {later : Store}
    (learns : (s.declaring ctx outer pos body found).store.Learns later) :
    (later.get s.store.size).fields? = none := by
  have begun : s.store.size < (s.declaring ctx outer pos body found).store.size :=
    Nat.lt_of_lt_of_eq (Nat.lt_succ_self _) (s.declaring_size ctx outer pos body found).symm
  rw [(learns.each _ begun).fields, s.declaring_get]

theorem fieldsOf_built {act : Run Unit} {pos : Position} {list : InstrRef} {registry : Registry}
    {ctx : Context} {s after : State}
    (h : (do act; fieldsOf pos list : Run Registry) ctx s = (.done registry, after)) :
    after.block.fields? list = some registry := by
  rw [Run.bind_apply] at h
  rcases worked : act ctx s with ⟨_ | d | _, mid⟩ <;> rw [worked] at h
  · rcases ran : mid.block.evaluate with ⟨found, outcome⟩
    have told : Run.evaluate ctx mid =
        (do Run.record found; Run.ofExcept outcome : Run Results) ctx mid := by
      unfold Run.evaluate
      rw [ran]
    dsimp only at h
    rw [fieldsOf, Run.bind_apply, told] at h
    cases outcome with
    | error d => cases h
    | ok results =>
      have aggregated : Run.ofExcept (results.aggregate pos list) ctx
        { mid with store := mid.store.record (found.map (·.under ctx.trace)) } =
          (.done registry, after) := h
      unfold Results.aggregate at aggregated
      split at aggregated
      · next own there =>
        cases aggregated
        rw [Block.fields?, ran]
        dsimp only
        rw [there]
      · cases aggregated
  · cases h
  · cases h

/-- The instructions that a call may add to the block at hand: the lines of a body alone declare
fields in it. -/
def Task.mayPush : Task → Op → Bool
  | .lines .., _ | .line .., _ => true
  | _, op => !op.appends

/-- The depth is used up somewhere in a call: a binding is looked into with none left. -/
def Moment.UsesUp (m : Moment) : Prop :=
  ∃ bottom, m.Reaches bottom ∧ bottom.depth = 0 ∧ bottom.task.looksInto = true

theorem Leads.usesUp {m next : Moment} (h : Leads m next) (used : next.UsesUp) : m.UsesUp := by
  obtain ⟨bottom, reaches, empty⟩ := used
  exact ⟨bottom, reaches.head h, empty⟩

def Moment.Minds (m : Moment) : Prop :=
  Keeps m.UsesUp m.task.mayPush m.ctx m.state m.run

theorem Leads.minds {m next : Moment} {allowed : Op → Bool} (h : Leads m next)
    (ih : ∀ next, Leads m next → next.Minds)
    (ops : ∀ op, next.task.mayPush op = true → allowed op = true) :
    Keeps m.UsesUp allowed next.ctx next.state next.run :=
  (ih next h).mono h.usesUp ops

namespace Minds

variable {depth : Nat} {ctx : Context} {s : State}

theorem expression {scope : Scope} {slot : Shape} {pos : Position} {nodes : List Tree}
    (ih : ∀ next, Leads ⟨depth, .expression scope slot pos nodes, ctx, s⟩ next → next.Minds) :
    Moment.Minds ⟨depth, .expression scope slot pos nodes, ctx, s⟩ := by
  show Keeps _ _ ctx s (analyzeWith (forceWithin depth) scope slot pos nodes ctx s)
  by_cases kept : slot = .ast
  · subst kept
    rw [analyzeWith.eq_def]
    exact .bind (.push rfl pos) fun _ _ _ => .done _
  · rw [analyzeWith_of_ne_ast _ _ kept]
    unfold analyzeHeadWith
    cases head : literal? (Tree.solid nodes) with
    | some l =>
      dsimp only
      refine .bind ((Leads.literal kept head).minds ih fun _ h => h) fun id mid before => ?_
      refine .bind (.push rfl l.start) fun _ pushed hp => ?_
      cases hp
      exact (Leads.afterLiteral kept head before).minds ih fun _ h => h
    | none =>
      dsimp only
      cases items : Tree.solid nodes with
      | nil => exact .fail _
      | cons first rest =>
        dsimp only
        refine .bind ((Leads.base kept head items).minds ih fun _ h => h) fun base mid before => ?_
        exact (Leads.afterBase kept head items before).minds ih fun _ h => h

theorem base {scope : Scope} {slot : Shape} {node : Tree}
    (ih : ∀ next, Leads ⟨depth, .base scope slot node, ctx, s⟩ next → next.Minds) :
    Moment.Minds ⟨depth, .base scope slot node, ctx, s⟩ := by
  show Keeps _ _ ctx s (analyzeBaseWith (forceWithin depth) scope slot node ctx s)
  rw [analyzeBaseWith.eq_def]
  split
  · next pos leaf =>
    unfold analyzeLeafWith
    split
    · split
      · exact .bind (.push rfl pos) fun _ _ _ => .done _
      · exact .fail _
    · split
      · exact .bind (.push rfl pos) fun _ _ _ => .done _
      · exact .fail _
    · exact Leads.name.minds ih fun _ h => h
    · exact .fail _
    · exact .fail _
  · exact Leads.code.minds ih fun _ h => h
  · exact .bind (.ofExcept _) fun _ _ _ => .fail _
  · exact .fail _

theorem suffixes {scope : Scope} {left : Analysis} {nodes : List Tree}
    (ih : ∀ next, Leads ⟨depth, .suffixes scope left nodes, ctx, s⟩ next → next.Minds) :
    Moment.Minds ⟨depth, .suffixes scope left nodes, ctx, s⟩ := by
  show Keeps _ _ ctx s (analyzeSuffixesWith (forceWithin depth) scope left nodes ctx s)
  cases nodes with
  | nil =>
    rw [analyzeSuffixesWith.eq_def]
    exact .done left
  | cons node rest =>
    rw [analyzeSuffixesWith_cons]
    refine .bind (Leads.suffix.minds ih fun _ h => h) fun next mid before => ?_
    exact (Leads.afterSuffix before).minds ih fun _ h => h

theorem access {scope : Scope} {left : Analysis} {pos : Position} {sigil : Sigil} {name : String}
    (named : sigil = .plain ∨ sigil = .access)
    (ih : ∀ next, Leads ⟨depth, .suffix scope left (.leaf pos (.identifier sigil name)), ctx, s⟩
      next → next.Minds) :
    Moment.Minds ⟨depth, .suffix scope left (.leaf pos (.identifier sigil name)), ctx, s⟩ := by
  have reads : (Task.suffix scope left (.leaf pos (.identifier sigil name))).run
      (forceWithin depth) = accessWith (forceWithin depth) left pos name := by
    obtain rfl | rfl := named <;> rfl
  rw [Moment.Minds, Moment.run, reads]
  unfold accessWith
  cases shape : left.shape with
  | namespaceOf target =>
    refine .holding left.namespaces ?_
    show Keeps _ _ _ s (readStringWith (forceWithin depth) target pos name
      (ctx.holding left.namespaces) s)
    cases target with
    | builtin =>
      unfold readStringWith
      cases Builtin.ofName? name with
      | none => exact .fail _
      | some builtin => exact .bind (.push rfl pos) fun _ _ _ => .done _
    | declared id =>
      refine .readString fun entry there => ?_
      have leads : accessed? s.store left name = some (id, entry) := by
        simp [accessed?, shape, there]
      exact (Leads.access named leads).minds ih fun _ h => h
  | _ => exact .fail _

theorem suffix {scope : Scope} {left : Analysis} {node : Tree}
    (ih : ∀ next, Leads ⟨depth, .suffix scope left node, ctx, s⟩ next → next.Minds) :
    Moment.Minds ⟨depth, .suffix scope left node, ctx, s⟩ := by
  cases node with
  | leaf pos content =>
    cases content with
    | identifier sigil name =>
      cases sigil with
      | plain => exact access (Or.inl rfl) ih
      | access => exact access (Or.inr rfl) ih
      | builtin => exact .fail _
    | bare tag spelling =>
      cases tag with
      | access => exact .done left
      | _ => exact .fail _
    | _ => exact .fail _
  | group pos form items =>
    cases form with
    | block tag opening closing =>
      cases tag with
      | code =>
        refine Keeps.call (fun op h => by simp [Task.mayPush, h]) pos fun slot ret called => ?_
        rcases given_or_nothing slot items with given | ⟨rfl, nothing⟩
        · show Keeps _ _ _ s (argumentWith (forceWithin depth) scope pos items slot _ s)
          rw [argumentWith_given _ _ pos given]
          exact (Leads.argument called given).minds ih fun _ h => h
        · show Keeps _ _ _ s (argumentWith (forceWithin depth) scope pos items .void _ s)
          rw [argumentWith_nothing _ _ pos nothing]
          exact .bind (.push rfl pos) fun _ _ _ => .done _
      | _ => exact .fail _
    | _ => exact .fail _

theorem lines {scope : Scope} {list : InstrRef} {lines : List Line}
    (ih : ∀ next, Leads ⟨depth, .lines scope list lines, ctx, s⟩ next → next.Minds) :
    Moment.Minds ⟨depth, .lines scope list lines, ctx, s⟩ := by
  show Keeps _ _ ctx s (declareLinesWith (forceWithin depth) scope list lines ctx s)
  rw [declareLinesWith.eq_def]
  cases lines with
  | nil => exact .done ()
  | cons line rest =>
    refine .bind (.attempt (Leads.line.minds ih fun _ h => h)) fun _ mid before => ?_
    exact (Leads.afterLine before).minds ih fun _ h => h

theorem line {scope : Scope} {list : InstrRef} {line : Line}
    (ih : ∀ next, Leads ⟨depth, .line scope list line, ctx, s⟩ next → next.Minds) :
    Moment.Minds ⟨depth, .line scope list line, ctx, s⟩ := by
  have anything : ∀ op, (Task.line scope list line).mayPush op = true := fun _ => rfl
  show Keeps _ _ ctx s (declareLineWith (forceWithin depth) scope list line ctx s)
  rw [declareLineWith_apply]
  cases read : twoSided? ChainTag.bindsField line.pos line.items with
  | error d => exact .fail d
  | ok sides? =>
    cases sides? with
    | none => exact .bind ((Leads.whole read).minds ih fun _ _ => rfl) fun _ _ _ => .done _
    | some sides =>
      exact .bind ((Leads.key read).minds ih fun _ _ => rfl) fun key _ _ =>
        .declareUnder anything scope list sides key

theorem resolve {scope : Scope} {slot : Shape} {pos : Position} {name : String}
    (ih : ∀ next, Leads ⟨depth, .resolve scope slot pos name, ctx, s⟩ next → next.Minds) :
    Moment.Minds ⟨depth, .resolve scope slot pos name, ctx, s⟩ := by
  show Keeps _ _ ctx s (resolveWith (forceWithin depth) pos name slot scope ctx s)
  rw [resolveWith_apply]
  cases way : s.store.reach ctx.held name scope with
  | binding id binding =>
    unfold useReached
    dsimp only
    cases source : s.store.source? id binding with
    | some thunk =>
      exact .bind ((Leads.reached way source).minds ih fun _ h => h) fun _ _ _ => .done _
    | none => exact .fail _
  | _ => exact .fail _

theorem finished {ends : Prop} {allowed more : Op → Bool} {outer : Scope} {pos : Position}
    {body : Body} {found : List Diagnostic} {ids : List NamespaceId} {list : InstrRef}
    {r : Outcome Registry × State}
    (h : Keeps ends more (ctx.holding ids) (s.declaring ctx outer pos body found) r)
    (built : ∀ registry after, r = (.done registry, after) → after.block.fields? list = some registry) :
    Keeps ends allowed ctx s
      (match s.leaving r with
      | (.done registry, after) =>
        (.done s.store.size,
          { after with store := after.store.finish s.store.size registry })
      | (.failed d, after) => (.failed d, after)
      | (.exhausted, after) => (.exhausted, after)) := by
  have started : s.store.Learns (s.declaring ctx outer pos body found).store :=
    ((Store.Learns.record _ _).trans (.begin _ _ _ _)).trans (.newBlock _)
  have develops : s.store.Develops r.2.store :=
    (((Store.Develops.record _ _).trans (.begin _ _ _ _)).trans (.newBlock _)).trans h.develops
  have same : ctx.Untouched s.store r.2.store := by
    intro p hp
    rw [h.untouched p hp]
    exact congrArg (·.get? p.2) (Store.findings_begin _ _ _ _ _)
  have blank : ∃ more : Array Instr, s.block = ⟨s.block.id, s.block.instrs ++ more⟩ ∧
      ∀ instr ∈ more, allowed instr.op = true := ⟨#[], by simp, by simp⟩
  have without_fields := State.declaring_open h.learns
  rcases r with ⟨registry | d | _, after⟩
  · refine ⟨(started.trans h.learns).finish (Nat.le_refl _) registry,
      develops.trans (.finish _ without_fields (built registry after rfl)), fun p hp => ?_, blank,
      fun _ h => (by cases h), fun h => by cases h⟩
    rw [← same p hp]
    exact congrArg (·.get? p.2) (Store.findings_finish _ _ _ _)
  · exact ⟨started.trans h.learns, develops, same, blank,
      fun d' hd => h.failed d' (by cases hd; rfl), fun h => by cases h⟩
  · exact ⟨started.trans h.learns, develops, same, blank, fun _ h => (by cases h),
      fun _ => h.exhausted rfl⟩

theorem kept {ends : Prop} {allowed : Op → Bool} {id : NamespaceId} {binding : Binding}
    {pos : Position} {act : Run Forced} (first : (s.store.get id).findings.get? binding = none)
    (entered : (id, binding) ∉ ctx.forcing)
    (h : Keeps ends allowed (ctx.inside id binding pos) s (act (ctx.inside id binding pos) s)) :
    Keeps ends allowed ctx s ((do
      let found ← act
      Run.modifyStore (·.keep id binding found)
      return found) (ctx.inside id binding pos) s) := by
  have outside : Keeps ends allowed ctx s (act (ctx.inside id binding pos) s) :=
    h.inContext (List.prefix_append _ _) (List.subset_cons_self _ _)
  have same := h.untouched (id, binding) List.mem_cons_self
  rw [Run.bind_apply]
  generalize act (ctx.inside id binding pos) s = r at h outside same
  rcases r with ⟨found | d | _, after⟩
  · refine ⟨outside.learns.trans (.keep _ (same.trans first) found),
      outside.develops.trans (.keep _ (same.trans first) found), fun p hp => ?_, outside.block,
      fun _ h => (by cases h), fun h => by cases h⟩
    have other : ¬ (p.1 = id ∧ p.1 < after.store.size ∧ binding = p.2) :=
      fun all => entered (by rwa [← all.1, all.2.2])
    exact (Store.get?_keep _ _ _ _ _ _).trans ((if_neg other).trans (outside.untouched p hp))
  · exact ⟨outside.learns, outside.develops, outside.untouched, outside.block, outside.failed,
      fun h => by cases h⟩
  · exact ⟨outside.learns, outside.develops, outside.untouched, outside.block,
      fun _ h => (by cases h), fun _ => outside.exhausted rfl⟩

theorem force {id : NamespaceId} {binding : Binding} {thunk : Thunk} {slot : Shape}
    (ih : ∀ next, Leads ⟨depth, .force id binding thunk slot, ctx, s⟩ next → next.Minds) :
    Moment.Minds ⟨depth, .force id binding thunk slot, ctx, s⟩ := by
  cases depth with
  | zero =>
    exact ⟨.refl _, .refl _, fun _ _ => rfl, ⟨#[], by simp [Moment.run, Task.run, forceWithin, Run.exhausted],
      by simp⟩, fun _ h => (by cases h), fun _ => ⟨_, .refl, rfl, rfl⟩⟩
  | succ depth =>
    show Keeps _ _ ctx s (forceBy (analyzeWith (forceWithin depth)) id binding thunk slot ctx s)
    rw [forceBy_apply]
    cases first : (s.store.get id).findings.get? binding with
    | some found => exact .done found
    | none =>
      dsimp only
      by_cases entered : (id, binding) ∈ ctx.forcing
      · rw [if_pos entered]
        exact .fail _
      · rw [if_neg entered]
        exact kept first entered (.workOut ((Leads.source first entered).minds ih fun _ h => h))

theorem body {outer : Scope} {pos : Position} {nodes : List Tree}
    (ih : ∀ next, Leads ⟨depth, .body outer pos nodes, ctx, s⟩ next → next.Minds) :
    Moment.Minds ⟨depth, .body outer pos nodes, ctx, s⟩ := by
  show Keeps _ _ ctx s (declareWith (forceWithin depth) outer pos nodes ctx s)
  rw [declareWith_apply]
  cases read : Body.read pos nodes with
  | error d => exact .fail d
  | ok found =>
    obtain ⟨body, found⟩ := found
    dsimp only
    have declared : Keeps (Moment.UsesUp ⟨depth, .body outer pos nodes, ctx, s⟩) (fun _ => true)
        (ctx.holding [s.store.namespaces.size]) (s.declaring ctx outer pos body found) ((do
          declareLinesWith (forceWithin depth) (s.store.namespaces.size :: outer) s.fieldList
            body.lines
          fieldsOf pos s.fieldList) (ctx.holding [s.store.namespaces.size])
            (s.declaring ctx outer pos body found)) :=
      .thenFields ((Leads.lines read).minds ih fun _ _ => rfl) _ _
    exact finished declared fun registry after done => fieldsOf_built done

end Minds

theorem Moment.minds (m : Moment) : m.Minds := by
  induction m using Moment.induction with
  | step m ih =>
    obtain ⟨depth, task, ctx, s⟩ := m
    cases task with
    | expression => exact Minds.expression ih
    | base => exact Minds.base ih
    | suffixes => exact Minds.suffixes ih
    | suffix => exact Minds.suffix ih
    | body => exact Minds.body ih
    | lines => exact Minds.lines ih
    | line => exact Minds.line ih
    | resolve => exact Minds.resolve ih
    | force => exact Minds.force ih

theorem Task.keeps (depth : Nat) (t : Task) {ctx : Context} {s after : State}
    {o : Outcome t.Result} (h : t.run (forceWithin depth) ctx s = (o, after)) :
    s.store.Learns after.store ∧ ctx.Untouched s.store after.store := by
  have kept := Moment.minds ⟨depth, t, ctx, s⟩
  have ended : (⟨depth, t, ctx, s⟩ : Moment).run.2 = after := congrArg Prod.snd h
  rw [← ended]
  exact ⟨kept.learns, kept.untouched⟩

/-- Until a call begins, the one that it comes from has learned, and nothing about the bindings
that were being looked into. -/
theorem Leads.keeps {m next : Moment} (h : Leads m next) :
    m.state.store.Learns next.state.store ∧ m.ctx.Untouched m.state.store next.state.store := by
  have still : ∀ s : Store, s.Learns s ∧ m.ctx.Untouched s s := fun s => ⟨.refl s, fun _ _ => rfl⟩
  cases h with
  | @afterLiteral depth scope _ _ _ _ _ l _ _ _ _ before =>
    have kept := Task.keeps depth (.body scope l.pos l.body) before
    exact kept
  | @afterBase depth scope _ _ _ _ _ first _ _ _ _ _ _ before =>
    exact Task.keeps depth (.base scope _ first) before
  | @afterSuffix depth scope left node _ _ _ _ _ before =>
    exact Task.keeps depth (.suffix scope left node) before
  | @afterLine depth scope list line _ ctx s mid before =>
    have kept := (Moment.minds ⟨depth, .line scope list line, ctx, s⟩).attempt
    have ended : (Run.attempt (declareLineWith (forceWithin depth) scope list line) ctx s).2 = mid :=
      congrArg Prod.snd before
    rw [← ended]
    exact ⟨kept.learns, kept.untouched⟩
  | lines read =>
    exact ⟨((Store.Learns.record _ _).trans (.begin _ _ _ _)).trans (.newBlock _), fun p _ =>
      congrArg (·.get? p.2) (Store.findings_begin _ _ _ _ _)⟩
  | source => exact ⟨.newBlock _, fun _ _ => rfl⟩
  | _ => exact still _

theorem Leads.context {m next : Moment} (h : Leads m next) :
    (∃ ids, next.ctx = m.ctx.holding ids) ∨
      ∃ id binding thunk slot, m.task = .force id binding thunk slot ∧
        next.task = .expression thunk.scope slot thunk.pos thunk.nodes ∧
        next.ctx = m.ctx.inside id binding thunk.pos ∧ next.state = m.state.inNewBlock ∧
        (id, binding) ∉ m.ctx.forcing ∧ (m.state.store.get id).findings.get? binding = none := by
  cases h with
  | source first entered => exact Or.inr ⟨_, _, _, _, rfl, rfl, rfl, rfl, entered, first⟩
  | access => exact Or.inl ⟨_, rfl⟩
  | argument => exact Or.inl ⟨_, rfl⟩
  | lines => exact Or.inl ⟨_, rfl⟩
  | _ => exact Or.inl ⟨[], rfl⟩

/-- What is left of the depth and what is being looked into come to the same. -/
theorem Leads.depth {m next : Moment} (h : Leads m next) :
    next.depth + next.ctx.forcing.length = m.depth + m.ctx.forcing.length := by
  cases h with
  | @source depth _ _ _ _ ctx =>
    show depth + (ctx.forcing.length + 1) = depth + 1 + ctx.forcing.length
    omega
  | _ => rfl

end NamespaceLang

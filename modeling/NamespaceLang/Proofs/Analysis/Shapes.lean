import NamespaceLang.Proofs.Analysis.Visited
import NamespaceLang.Proofs.Analysis.Fields
import NamespaceLang.Proofs.Instr.Specification

/-!
# Values and their shapes

A value of its own kind has one shape, and so has an instruction that makes a key
or keeps source, by what it makes or keeps. An expression gives nothing but values
and instructions of the shape that it finds for them. What was found out about a
binding came out of a block that was filled in this way and was run, so it has its
shape as well; and with what is kept in the store it comes into other blocks as a
value. No value is a function, so that no expression ever becomes a call.
-/

set_option autoImplicit false

namespace NamespaceLang

def Value.shape? : Value → Option Shape
  | .key known => some (.ofKey known)
  | .namespace target => some (.namespaceOf target)
  | .ast _ => some .ast
  | _ => none

/-- The shape of what an instruction gives that an expression may be. -/
def Op.shape? : Op → Option Shape
  | .captureAst _ => some .ast
  | .makeKey key => some (.ofKey key)
  | _ => none

def Op.operands : Op → List InstrRef
  | .nsAppend list key value => [list, key, value]
  | .call method arg => [method, arg]
  | .leave value => [value]
  | _ => []

def Operand.shape? (b : Block) : Operand → Option Shape
  | .known value => value.shape?
  | .deferred ref => (b.get? ref).bind (·.op.shape?)

def Analysis.Shaped (a : Analysis) (b : Block) : Prop := a.value.shape? b = some a.shape

def Forced.Shaped (f : Forced) : Prop := f.value.shape? = some f.shape

theorem Value.not_function {value : Value} {shape : Shape} (h : value.shape? = some shape) :
    shape.isFunction = false := by
  cases value with
  | key known => cases h; cases known <;> rfl
  | «namespace» target => cases h; rfl
  | ast thunk => cases h; rfl
  | _ => cases h

theorem Op.not_function {op : Op} {shape : Shape} (h : op.shape? = some shape) :
    shape.isFunction = false := by
  cases op with
  | captureAst thunk => cases h; rfl
  | makeKey key => cases h; cases key <;> rfl
  | _ => cases h

theorem Analysis.Shaped.not_function {a : Analysis} {b : Block} (h : a.Shaped b) :
    a.shape.isFunction = false := by
  obtain ⟨value, shape⟩ := a
  cases value with
  | known value => exact Value.not_function h
  | deferred ref =>
    obtain ⟨instr, -, hi⟩ := Option.bind_eq_some_iff.1 h
    exact Op.not_function hi

theorem Op.result_shape {op : Op} {shape : Shape} (h : op.shape? = some shape)
    (all : List Appended) (place : Nat) : (op.result all place).shape? = some shape := by
  cases op with
  | captureAst thunk => exact h
  | makeKey key => exact h
  | _ => cases h

namespace Store

def Shaped (s : Store) : Prop :=
  ∀ id binding found, (s.get id).findings.get? binding = some found → found.Shaped

theorem shaped_ofDiagnostics (ds : List Diagnostic) : (Store.ofDiagnostics ds).Shaped := by
  intro id binding found h
  rw [get_of_size_le (Nat.zero_le id)] at h
  cases h

variable {s : Store}

theorem Shaped.same {later : Store} (h : s.Shaped)
    (same : ∀ id, (later.get id).findings = (s.get id).findings) : later.Shaped :=
  fun id binding found hf => h id binding found (same id ▸ hf)

theorem Shaped.bind {α β : Type} {act : Run β} {next : β → Run α} {ctx : Context} {s : State}
    (h : (act ctx s).2.store.Shaped)
    (hn : ∀ b mid, act ctx s = (.done b, mid) → mid.store.Shaped → (next b ctx mid).2.store.Shaped) :
    ((act >>= next) ctx s).2.store.Shaped := by
  rw [Run.bind_apply]
  rcases hr : act ctx s with ⟨b | d | _, mid⟩
  all_goals rw [hr] at h
  · exact hn b mid hr h
  · exact h
  · exact h

theorem Shaped.attempt {act : Run Unit} {ctx : Context} {s : State} (h : (act ctx s).2.store.Shaped) :
    (Run.attempt act ctx s).2.store.Shaped := by
  rw [Run.attempt_eq_tell]
  rcases hr : act ctx s with ⟨_ | d | _, after⟩ <;> rw [hr] at h <;> exact h

theorem Shaped.materialize {s : State} (h : s.store.Shaped) (operand : Operand) (pos : Position)
    (ctx : Context) : (Run.materialize operand pos ctx s).2.store.Shaped := by
  unfold Run.materialize
  split <;> exact h

theorem Shaped.record (h : s.Shaped) (ds : List Diagnostic) : (s.record ds).Shaped := h

theorem Shaped.keep (h : s.Shaped) (id : NamespaceId) (binding : Binding) {found : Forced}
    (hf : found.Shaped) : (s.keep id binding found).Shaped := by
  intro other b own ho
  rw [get?_keep] at ho
  split at ho
  · cases ho
    exact hf
  · exact h other b own ho

end Store

/-- What work that begins in `s` comes to: what is found out has its shape; and if what is `given`
is as it should be, the instructions that are added are `allowed`, and the outcome is `good`. -/
structure Shapely {α : Type} (given : Prop) (allowed : Op → Bool) (good : α → Block → Prop)
    (s : State) (r : Outcome α × State) : Prop where
  store : r.2.store.Shaped
  block : given → ∃ more, r.2.block = ⟨s.block.id, s.block.instrs ++ more⟩ ∧
    ∀ instr ∈ more, allowed instr.op = true
  good : given → ∀ a, r.1 = .done a → good a r.2.block

namespace Shapely

variable {α β : Type} {given : Prop} {allowed : Op → Bool} {good : α → Block → Prop} {ctx : Context}
  {s : State}

theorem still {o : Outcome α} {after : State} (shaped : after.store.Shaped)
    (block : after.block = s.block) (hg : given → ∀ a, o = .done a → good a after.block) :
    Shapely given allowed good s (o, after) :=
  ⟨shaped, fun _ => ⟨#[], by simp [block], by simp⟩, hg⟩

theorem done (shaped : s.store.Shaped) {a : α} (hg : given → good a s.block) :
    Shapely given allowed good s (.done a, s) :=
  still shaped rfl fun h _ e => by cases e; exact hg h

theorem fail (shaped : s.store.Shaped) (d : Diagnostic) :
    Shapely given allowed good s ((Run.fail d : Run α) ctx s) :=
  still shaped rfl fun _ _ e => by cases e

theorem ofExcept (shaped : s.store.Shaped) {found : Except Diagnostic α}
    (hg : given → ∀ a, found = .ok a → good a s.block) :
    Shapely given allowed good s (Run.ofExcept found ctx s) := by
  cases found with
  | ok a => exact done shaped fun h => hg h a rfl
  | error d => exact fail shaped d

theorem push (shaped : s.store.Shaped) {op : Op} (h : allowed op = true) (pos : Position) :
    Shapely given allowed (fun ref b => b.get? ref = some ⟨op, pos⟩) s (Run.push op pos ctx s) where
  store := shaped
  block _ := ⟨#[⟨op, pos⟩], rfl, by simpa using h⟩
  good _ ref e := by
    cases e
    show (s.block.push op pos).2.get? s.block.next = _
    rw [Block.get?_push, if_pos rfl]

theorem mono {others : Prop} {better : α → Block → Prop} {r : Outcome α × State}
    (h : Shapely given allowed better s r) (ho : others → given)
    (hg : others → ∀ a, better a r.2.block → good a r.2.block) :
    Shapely others allowed good s r :=
  ⟨h.store, fun o => h.block (ho o), fun o a e => hg o a (h.good (ho o) a e)⟩

theorem bind {first : β → Block → Prop} {act : Run β} {next : β → Run α}
    (h : Shapely given allowed first s (act ctx s))
    (hn : ∀ b mid, act ctx s = (.done b, mid) → mid.store.Shaped → (given → first b mid.block) →
      Shapely given allowed good mid (next b ctx mid)) :
    Shapely given allowed good s ((act >>= next) ctx s) := by
  rw [Run.bind_apply]
  obtain ⟨store, block, hg⟩ := h
  rcases hr : act ctx s with ⟨b | d | _, mid⟩
  · rw [hr] at store block hg
    have later := hn b mid hr store fun g => hg g b rfl
    refine ⟨later.store, fun g => ?_, later.good⟩
    obtain ⟨more, same, ok⟩ := block g
    obtain ⟨more', same', ok'⟩ := later.block g
    dsimp only at same
    rw [same] at same'
    refine ⟨more ++ more', by rw [same', Array.append_assoc], fun instr hm => ?_⟩
    exact (Array.mem_append.1 hm).elim (ok instr) (ok' instr)
  · rw [hr] at store block
    exact ⟨store, block, fun _ _ e => by cases e⟩
  · rw [hr] at store block
    exact ⟨store, block, fun _ _ e => by cases e⟩

theorem deferred (shaped : s.store.Shaped) {op : Op} {shape : Shape} (h : allowed op = true)
    (hs : op.shape? = some shape) (pos : Position) :
    Shapely given allowed Analysis.Shaped s (Run.deferred op pos shape ctx s) := by
  refine .bind (.push shaped h pos) fun ref mid _ shaped there => .done shaped fun g => ?_
  exact Option.bind_eq_some_iff.2 ⟨⟨op, pos⟩, there g, hs⟩

theorem leaving {others : Prop} {more : Op → Bool} {inner : α → Block → Prop} {r : Outcome α × State}
    (h : Shapely others more inner s.inNewBlock r)
    (hg : given → ∀ a, r.1 = .done a → good a s.block) :
    Shapely given allowed good s (s.leaving r) :=
  ⟨h.store, fun _ => ⟨#[], by simp [State.leaving], by simp⟩, hg⟩

/-- Where nothing is given, it is the store alone that counts. -/
theorem of_store {r : Outcome α × State} (h : r.2.store.Shaped) (nothing : ¬ given) :
    Shapely given allowed good s r :=
  ⟨h, fun g => absurd g nothing, fun g => absurd g nothing⟩

theorem evaluate (shaped : s.store.Shaped) :
    Shapely given allowed (fun results b => b = s.block ∧ results = resultsOf b.id b.instrs.toList) s
      (Run.evaluate ctx s) := by
  have left := Run.evaluate_leaves ctx s
  rcases hr : Run.evaluate ctx s with ⟨o, after⟩
  rw [hr] at left
  dsimp only at left
  refine still (left ▸ shaped.record _) (left ▸ rfl) fun _ results e => ?_
  subst e
  obtain ⟨-, same, rfl⟩ := Run.evaluate_results hr
  exact ⟨rfl, same⟩

theorem readField {force : Forcing} {id : NamespaceId} {key : FieldKey} {slot : Shape}
    (shaped : s.store.Shaped) (forced : ∀ entry, (s.store.get id).field? key = some entry →
      Shapely given allowed (fun f _ => f.Shaped) s (force id (.field key) entry.thunk slot ctx s)) :
    Shapely given allowed (fun found b => ∀ a, found = some a → Analysis.Shaped a b) s
      (readFieldWith? force id key slot ctx s) := by
  rw [readFieldWith?_apply]
  cases there : (s.store.get id).field? key with
  | none => exact .done shaped fun _ _ e => by cases e
  | some entry =>
    exact .bind (forced entry there) fun f mid _ shaped hf => .done shaped fun g _ e => by
      cases e
      exact hf g

theorem readString {force : Forcing} {id : NamespaceId} {pos : Position} {name : String}
    (shaped : s.store.Shaped) (forced : ∀ entry, (s.store.get id).field? (.string name) = some entry →
      Shapely given allowed (fun f _ => f.Shaped) s
        (force id (.field (.string name)) entry.thunk .unknown ctx s)) :
    Shapely given allowed Analysis.Shaped s (readStringWith force (.declared id) pos name ctx s) := by
  show Shapely given allowed Analysis.Shaped s
    ((if (s.store.get id).fields?.isSome then _ else _ : Run Analysis) ctx s)
  by_cases closed : (s.store.get id).fields?.isSome
  · rw [if_pos closed]
    refine .bind (.readField shaped forced) fun found? mid _ shaped hf => ?_
    cases found? with
    | some found => exact .done shaped fun g => hf g found rfl
    | none => exact .fail shaped _
  · rw [if_neg closed]
    exact .fail shaped _

theorem workOut {analyze : Scope → Shape → Position → List Tree → Run Analysis} {thunk : Thunk}
    {slot : Shape} (h : Shapely True allowed Analysis.Shaped s.inNewBlock
      (analyze thunk.scope slot thunk.pos thunk.nodes ctx s.inNewBlock)) {more : Op → Bool} :
    Shapely given more (fun f _ => f.Shaped) s (NamespaceLang.workOut analyze thunk slot ctx s) := by
  rw [workOut_apply]
  have found : Shapely True allowed (fun f _ => f.Shaped) s.inNewBlock
      (findOut analyze thunk slot ctx s.inNewBlock) := by
    refine .bind h fun own mid _ shaped ho => ?_
    refine .bind (.evaluate shaped) fun results ran _ shaped hr => ?_
    obtain ⟨block, rfl⟩ := hr trivial
    have resolving : Shapely True allowed (fun value _ => Value.shape? value = some own.shape) ran
        (Run.ofExcept ((resultsOf ran.block.id ran.block.instrs.toList).resolve thunk.pos own.value)
          ctx ran) := ?_
    · exact .bind resolving fun value last _ shaped hv => .done shaped hv
    refine .ofExcept shaped fun _ value resolved => ?_
    have there := ho trivial
    rw [← block] at there
    obtain ⟨operand, shape⟩ := own
    cases operand with
    | known known =>
      cases resolved
      exact there
    | deferred ref =>
      obtain ⟨instr, hi, hs⟩ := Option.bind_eq_some_iff.1 there
      unfold Block.get? at hi
      split at hi
      · next own =>
        have result : (resultsOf ran.block.id ran.block.instrs.toList).get? ref =
            some (instr.op.result (appendedAfter [] ran.block.instrs.toList) ref.index) := by
          rw [Results.get?, if_pos (show ref.block = (resultsOf _ _).block from own),
            Results.resultsOf_get, Array.getElem?_toList, hi]
          rfl
        rw [Results.resolve, result] at resolved
        cases resolved
        exact Op.result_shape hs _ _
      · cases hi
  exact found.leaving fun _ f e => found.good trivial f e

end Shapely

namespace Task

/-- What the call is given has its shape. About the lines of a body nothing is said but what they
leave in the store. -/
def Given (b : Block) : Task → Prop
  | .suffixes _ left _ | .suffix _ left _ => left.Shaped b
  | .lines .. | .line .. => False
  | _ => True

def Gives : (t : Task) → t.Result → Block → Prop
  | .expression .., a, b | .base .., a, b | .suffixes .., a, b | .suffix .., a, b
  | .resolve .., a, b => Analysis.Shaped a b
  | .force .., f, _ => Forced.Shaped f
  | .body .., _, _ | .lines .., _, _ | .line .., _, _ => True

end Task

def Op.alone (op : Op) : Bool := op.operands.isEmpty

def Moment.Shaped (m : Moment) : Prop :=
  m.state.store.Shaped →
    Shapely (m.task.Given m.state.block) Op.alone m.task.Gives m.state m.run

namespace Shaped

variable {depth : Nat} {ctx : Context} {s : State}

theorem expression {scope : Scope} {slot : Shape} {pos : Position} {nodes : List Tree}
    (ih : ∀ next, Leads ⟨depth, .expression scope slot pos nodes, ctx, s⟩ next → next.Shaped) :
    Moment.Shaped ⟨depth, .expression scope slot pos nodes, ctx, s⟩ := by
  intro shaped
  show Shapely True Op.alone Analysis.Shaped s
    (analyzeWith (forceWithin depth) scope slot pos nodes ctx s)
  by_cases kept : slot = .ast
  · subst kept
    rw [analyzeWith.eq_def]
    exact .deferred shaped rfl rfl pos
  · rw [analyzeWith_of_ne_ast _ _ kept]
    unfold analyzeHeadWith
    cases head : literal? (Tree.solid nodes) with
    | some l =>
      dsimp only
      refine .bind (ih _ (.literal kept head) shaped) fun id mid before shaped _ => ?_
      refine .bind (.push shaped rfl l.start) fun _ pushed hp shaped _ => ?_
      cases hp
      exact (ih _ (.afterLiteral kept head before) shaped).mono (fun _ => rfl) fun _ _ h => h
    | none =>
      dsimp only
      cases items : Tree.solid nodes with
      | nil => exact .fail shaped _
      | cons first rest =>
        dsimp only
        refine .bind (ih _ (.base kept head items) shaped) fun base mid before shaped hb => ?_
        exact (ih _ (.afterBase kept head items before) shaped).mono hb fun _ _ h => h

theorem base {scope : Scope} {slot : Shape} {node : Tree}
    (ih : ∀ next, Leads ⟨depth, .base scope slot node, ctx, s⟩ next → next.Shaped) :
    Moment.Shaped ⟨depth, .base scope slot node, ctx, s⟩ := by
  intro shaped
  show Shapely True Op.alone Analysis.Shaped s
    (analyzeBaseWith (forceWithin depth) scope slot node ctx s)
  rw [analyzeBaseWith.eq_def]
  split
  · next pos leaf =>
    unfold analyzeLeafWith
    split
    · split
      · exact .bind (.push shaped rfl pos) fun _ _ _ shaped _ => .done shaped fun _ => rfl
      · exact .fail shaped _
    · split
      · exact .deferred shaped rfl rfl pos
      · exact .fail shaped _
    · exact ih _ .name shaped
    · exact .fail shaped _
    · exact .fail shaped _
  · exact ih _ .code shaped
  · next pos _ _ items =>
    have pattern : Shapely True Op.alone (fun _ _ => True) s
        (Run.ofExcept (Pattern.read pos items) ctx s) := .ofExcept shaped fun _ _ _ => trivial
    exact .bind pattern fun _ _ _ shaped _ => .fail shaped _
  · exact .fail shaped _

theorem suffixes {scope : Scope} {left : Analysis} {nodes : List Tree}
    (ih : ∀ next, Leads ⟨depth, .suffixes scope left nodes, ctx, s⟩ next → next.Shaped) :
    Moment.Shaped ⟨depth, .suffixes scope left nodes, ctx, s⟩ := by
  intro shaped
  show Shapely (left.Shaped s.block) Op.alone Analysis.Shaped s
    (analyzeSuffixesWith (forceWithin depth) scope left nodes ctx s)
  cases nodes with
  | nil =>
    rw [analyzeSuffixesWith.eq_def]
    exact .done shaped id
  | cons node rest =>
    rw [analyzeSuffixesWith_cons]
    refine .bind (ih _ .suffix shaped) fun next mid before shaped hn => ?_
    exact (ih _ (.afterSuffix before) shaped).mono hn fun _ _ h => h

theorem access {scope : Scope} {left : Analysis} {pos : Position} {sigil : Sigil} {name : String}
    (named : sigil = .plain ∨ sigil = .access)
    (ih : ∀ next, Leads ⟨depth, .suffix scope left (.leaf pos (.identifier sigil name)), ctx, s⟩
      next → next.Shaped) :
    Moment.Shaped ⟨depth, .suffix scope left (.leaf pos (.identifier sigil name)), ctx, s⟩ := by
  intro shaped
  have reads : (Task.suffix scope left (.leaf pos (.identifier sigil name))).run
      (forceWithin depth) = accessWith (forceWithin depth) left pos name := by
    obtain rfl | rfl := named <;> rfl
  rw [Moment.run, reads]
  show Shapely (left.Shaped s.block) Op.alone Analysis.Shaped s
    (accessWith (forceWithin depth) left pos name ctx s)
  unfold accessWith
  cases shape : left.shape with
  | namespaceOf target =>
    show Shapely _ _ _ s (readStringWith (forceWithin depth) target pos name
      (ctx.holding left.namespaces) s)
    cases target with
    | builtin =>
      unfold readStringWith
      cases Builtin.ofName? name with
      | none => exact .fail shaped _
      | some builtin => exact .deferred shaped rfl rfl pos
    | declared id =>
      refine .readString shaped fun entry there => ?_
      have leads : accessed? s.store left name = some (id, entry) := by
        simp [accessed?, shape, there]
      exact (ih _ (.access named leads) shaped).mono (fun _ => trivial) fun _ _ h => h
  | _ => exact .fail shaped _

theorem suffix {scope : Scope} {left : Analysis} {node : Tree}
    (ih : ∀ next, Leads ⟨depth, .suffix scope left node, ctx, s⟩ next → next.Shaped) :
    Moment.Shaped ⟨depth, .suffix scope left node, ctx, s⟩ := by
  cases node with
  | leaf pos content =>
    cases content with
    | identifier sigil name =>
      cases sigil with
      | plain => exact access (Or.inl rfl) ih
      | access => exact access (Or.inr rfl) ih
      | builtin => exact fun shaped => .fail shaped _
    | bare tag spelling =>
      cases tag with
      | access => exact fun shaped => .done shaped id
      | _ => exact fun shaped => .fail shaped _
    | _ => exact fun shaped => .fail shaped _
  | group pos form items =>
    cases form with
    | block tag opening closing =>
      cases tag with
      | code =>
        intro shaped
        show Shapely (left.Shaped s.block) Op.alone Analysis.Shaped s
          (NamespaceLang.call pos left (argumentWith (forceWithin depth) scope pos items) ctx s)
        unfold NamespaceLang.call
        cases called : left.shape with
        | function slot ret =>
          have never : ¬ left.Shaped s.block := by
            intro hl
            have := hl.not_function
            rw [called] at this
            cases this
          refine .of_store (.bind ?_ fun given mid _ shaped => ?_) never
          · show (argumentWith (forceWithin depth) scope pos items slot
              (ctx.holding left.namespaces) s).2.store.Shaped
            rcases given_or_nothing slot items with given | ⟨rfl, nothing⟩
            · rw [argumentWith_given _ _ pos given]
              exact (ih _ (.argument called given) shaped).store
            · rw [argumentWith_nothing _ _ pos nothing]
              exact shaped
          · refine .bind (shaped.materialize left.value pos ctx) fun _ _ _ shaped => ?_
            exact .bind (shaped.materialize given.value pos ctx) fun _ _ _ shaped => shaped
        | _ => exact .fail shaped _
      | _ => exact fun shaped => .fail shaped _
    | _ => exact fun shaped => .fail shaped _

theorem lines {scope : Scope} {list : InstrRef} {lines : List Line}
    (ih : ∀ next, Leads ⟨depth, .lines scope list lines, ctx, s⟩ next → next.Shaped) :
    Moment.Shaped ⟨depth, .lines scope list lines, ctx, s⟩ := by
  intro shaped
  show Shapely False _ _ s (declareLinesWith (forceWithin depth) scope list lines ctx s)
  rw [declareLinesWith.eq_def]
  cases lines with
  | nil => exact .done shaped fun h => h.elim
  | cons line rest =>
    refine .of_store (.bind (Store.Shaped.attempt (ih _ .line shaped).store) fun _ mid before shaped =>
      ?_) id
    exact (ih _ (.afterLine before) shaped).store

theorem line {scope : Scope} {list : InstrRef} {line : Line}
    (ih : ∀ next, Leads ⟨depth, .line scope list line, ctx, s⟩ next → next.Shaped) :
    Moment.Shaped ⟨depth, .line scope list line, ctx, s⟩ := by
  intro shaped
  show Shapely False _ _ s (declareLineWith (forceWithin depth) scope list line ctx s)
  rw [declareLineWith_apply]
  cases read : twoSided? ChainTag.bindsField line.pos line.items with
  | error d => exact .fail shaped d
  | ok sides? =>
    cases sides? with
    | none => exact .of_store (.bind (ih _ (.whole read) shaped).store fun _ _ _ shaped => shaped) id
    | some sides =>
      refine .of_store (.bind (ih _ (.key read) shaped).store fun key mid _ shaped => ?_) id
      have declares : (declareField scope list sides key ctx mid).2.store.Shaped := by
        refine .bind (shaped.materialize _ _ _) fun _ _ _ shaped => ?_
        refine .bind shaped fun _ _ captured shaped => ?_
        exact .bind (shaped.materialize _ _ _) fun _ _ _ shaped => shaped
      unfold declareUnder
      cases key.shape with
      | stringKey name => exact declares
      | symbolKey builtin child => exact declares
      | _ => exact shaped

theorem resolve {scope : Scope} {slot : Shape} {pos : Position} {name : String}
    (ih : ∀ next, Leads ⟨depth, .resolve scope slot pos name, ctx, s⟩ next → next.Shaped) :
    Moment.Shaped ⟨depth, .resolve scope slot pos name, ctx, s⟩ := by
  intro shaped
  show Shapely True Op.alone Analysis.Shaped s
    (resolveWith (forceWithin depth) pos name slot scope ctx s)
  rw [resolveWith_apply]
  cases way : s.store.reach ctx.held name scope with
  | binding id binding =>
    unfold useReached
    dsimp only
    cases source : s.store.source? id binding with
    | some thunk =>
      exact .bind (ih _ (.reached way source) shaped) fun f _ _ shaped hf => .done shaped hf
    | none => exact .fail shaped _
  | _ => exact .fail shaped _

theorem force {id : NamespaceId} {binding : Binding} {thunk : Thunk} {slot : Shape}
    (ih : ∀ next, Leads ⟨depth, .force id binding thunk slot, ctx, s⟩ next → next.Shaped) :
    Moment.Shaped ⟨depth, .force id binding thunk slot, ctx, s⟩ := by
  intro shaped
  cases depth with
  | zero => exact .still shaped rfl fun _ _ e => by cases e
  | succ depth =>
    show Shapely True Op.alone (fun f _ => Forced.Shaped f) s
      (forceBy (analyzeWith (forceWithin depth)) id binding thunk slot ctx s)
    rw [forceBy_apply]
    cases first : (s.store.get id).findings.get? binding with
    | some found => exact .done shaped fun _ => shaped id binding found first
    | none =>
      dsimp only
      by_cases entered : (id, binding) ∈ ctx.forcing
      · rw [if_pos entered]
        exact .fail shaped _
      · rw [if_neg entered]
        have worked : Shapely True Op.alone (fun f _ => Forced.Shaped f) s
            (workOut (analyzeWith (forceWithin depth)) thunk slot (ctx.inside id binding thunk.pos) s) :=
          .workOut (ih _ (.source first entered) shaped)
        refine .bind worked fun f mid _ shaped hf => ?_
        exact ⟨shaped.keep id binding (hf trivial), fun _ => ⟨#[], by simp [Run.modifyStore,
          Run.bind_apply], by simp⟩, fun _ _ e => by cases e; exact hf trivial⟩

theorem body {outer : Scope} {pos : Position} {nodes : List Tree}
    (ih : ∀ next, Leads ⟨depth, .body outer pos nodes, ctx, s⟩ next → next.Shaped) :
    Moment.Shaped ⟨depth, .body outer pos nodes, ctx, s⟩ := by
  intro shaped
  show Shapely True Op.alone (fun _ _ => True) s
    (declareWith (forceWithin depth) outer pos nodes ctx s)
  rw [declareWith_apply]
  cases read : Body.read pos nodes with
  | error d => exact .fail shaped d
  | ok found =>
    obtain ⟨body, found⟩ := found
    dsimp only
    have begun : (s.declaring ctx outer pos body found).store.Shaped :=
      shaped.same fun id => Store.findings_begin _ _ _ _ _
    have declared : ((do
        declareLinesWith (forceWithin depth) (s.store.namespaces.size :: outer) s.fieldList
          body.lines
        fieldsOf pos s.fieldList) (ctx.holding [s.store.namespaces.size])
          (s.declaring ctx outer pos body found)).2.store.Shaped := by
      refine .bind (ih _ (.lines read) begun).store fun _ mid _ shaped => ?_
      refine .bind (Run.evaluate_leaves _ mid ▸ shaped.record _) fun results ran _ shaped => ?_
      rcases results.aggregate pos s.fieldList <;> exact shaped
    generalize (do
      declareLinesWith (forceWithin depth) (s.store.namespaces.size :: outer) s.fieldList body.lines
      fieldsOf pos s.fieldList : Run Registry) (ctx.holding [s.store.namespaces.size])
        (s.declaring ctx outer pos body found) = r at declared
    rcases r with ⟨registry | d | _, after⟩
    · exact .still (declared.same fun id => Store.findings_finish _ _ _ _) rfl fun _ _ _ => trivial
    · exact .still declared rfl fun _ _ e => by cases e
    · exact .still declared rfl fun _ _ e => by cases e

end Shaped

theorem Moment.shaped (m : Moment) : m.Shaped := by
  induction m using Moment.induction with
  | step m ih =>
    obtain ⟨depth, task, ctx, s⟩ := m
    cases task with
    | expression => exact Shaped.expression ih
    | base => exact Shaped.base ih
    | suffixes => exact Shaped.suffixes ih
    | suffix => exact Shaped.suffix ih
    | body => exact Shaped.body ih
    | lines => exact Shaped.lines ih
    | line => exact Shaped.line ih
    | resolve => exact Shaped.resolve ih
    | force => exact Shaped.force ih

theorem Leads.shaped {m next : Moment} (h : Leads m next) (shaped : m.state.store.Shaped) :
    next.state.store.Shaped := by
  have ended : ∀ (depth : Nat) (t : Task) {ctx : Context} {s after : State} {o : Outcome t.Result},
      t.run (forceWithin depth) ctx s = (o, after) → s.store.Shaped → after.store.Shaped := by
    intro depth t ctx s after o run shaped
    have kept := (Moment.shaped ⟨depth, t, ctx, s⟩ shaped).store
    rw [Moment.run, run] at kept
    exact kept
  cases h with
  | @afterLiteral depth scope _ _ _ _ _ l _ _ _ _ before =>
    have kept := ended depth (.body scope l.pos l.body) before shaped
    exact kept
  | @afterBase depth scope _ _ _ _ _ first _ _ _ _ _ _ before =>
    exact ended depth (.base scope _ first) before shaped
  | @afterSuffix depth scope left node _ _ _ _ _ before =>
    exact ended depth (.suffix scope left node) before shaped
  | @afterLine depth scope list line _ ctx s mid before =>
    have kept := Store.Shaped.attempt (Moment.shaped ⟨depth, .line scope list line, ctx, s⟩ shaped).store
    exact (congrArg (fun r => r.2.store.Shaped) before).mp kept
  | lines read => exact shaped.same fun id => Store.findings_begin _ _ _ _ _
  | _ => exact shaped

theorem Visited.shaped {may : Moment → Prop} {s : State} (h : Visited may s) : s.store.Shaped := by
  refine h.invariant Store.shaped_ofDiagnostics (fun m _ shaped => (m.shaped shaped).store)
    (fun m next _ shaped reaches => ?_) (fun _ ds shaped => shaped.record ds) fun _ shaped => shaped
  induction reaches with
  | refl => exact shaped
  | tail _ leads ih => exact leads.shaped ih

theorem Shape.ofKey_inj {key other : Key} (h : Shape.ofKey key = Shape.ofKey other) : key = other := by
  have same := congrArg Shape.key? h
  rw [Shape.key?_ofKey, Shape.key?_ofKey] at same
  exact Option.some.inj same

theorem Value.eq_key {value : Value} {key : Key} (h : value.shape? = some (.ofKey key)) :
    value = .key key := by
  cases value with
  | key known => rw [Shape.ofKey_inj (Option.some.inj h)]
  | «namespace» target => cases key <;> cases h
  | ast thunk => cases key <;> cases h
  | _ => cases h

theorem Op.eq_makeKey {op : Op} {key : Key} (h : op.shape? = some (.ofKey key)) :
    op = .makeKey key := by
  cases op with
  | makeKey known => rw [Shape.ofKey_inj (Option.some.inj h)]
  | captureAst thunk => cases key <;> cases h
  | _ => cases h

theorem Analysis.Shaped.materialize {a : Analysis} {s : State} (h : a.Shaped s.block) {key : Key}
    (narrow : a.shape.key? = some key) (pos : Position) (ctx : Context) :
    ∃ ref more, Run.materialize a.value pos ctx s =
        (.done ref, { s with block := ⟨s.block.id, s.block.instrs ++ more⟩ }) ∧
      (∀ instr ∈ more, instr.op = .makeKey key) ∧ ref.block = s.block.id ∧
      ∃ at_, (s.block.instrs ++ more)[ref.index]? = some ⟨.makeKey key, at_⟩ := by
  obtain ⟨value, shape⟩ := a
  obtain rfl := Shape.ofKey_of_key? narrow
  cases value with
  | known value =>
    obtain rfl := Value.eq_key h
    refine ⟨s.block.next, #[⟨.makeKey key, pos⟩], rfl, by simp, rfl, pos, ?_⟩
    simp [Block.next, Block.size]
  | deferred ref =>
    obtain ⟨⟨op, at_⟩, there, hs⟩ := Option.bind_eq_some_iff.1 h
    obtain rfl : op = .makeKey key := Op.eq_makeKey hs
    unfold Block.get? at there
    split at there
    · next here =>
      refine ⟨ref, #[], ?_, by simp, here, at_, by simpa using there⟩
      rw [Run.materialize_own here, Array.append_empty]
    · cases there

def captured (scope : Scope) (sides : TwoSided) : Run InstrRef := do
  let body ← capture scope sides.right.pos sides.rightItems
  Run.materialize body.value sides.mark.pos

def TwoSided.thunk (scope : Scope) (sides : TwoSided) : Thunk :=
  ⟨sides.rightItems, sides.right.pos, scope⟩

theorem captured_apply (scope : Scope) (sides : TwoSided) (ctx : Context) (s : State) :
    captured scope sides ctx s =
      (.done s.block.next, s.pushed (.captureAst (sides.thunk scope)) sides.right.pos) :=
  Run.materialize_own (s := s.pushed (.captureAst (sides.thunk scope)) sides.right.pos) rfl _ _

theorem declareField_eq (scope : Scope) (list : InstrRef) (sides : TwoSided) (key : Analysis) :
    declareField scope list sides key = (do
      let keyRef ← Run.materialize key.value sides.mark.pos
      let bodyRef ← captured scope sides
      let _ ← Run.push (.nsAppend list keyRef bodyRef) sides.mark.pos) := by
  simp only [declareField, captured, bind_assoc]

theorem declareUnder_of_key (scope : Scope) (list : InstrRef) (sides : TwoSided) {a : Analysis}
    {key : Key} (narrow : a.shape.key? = some key) :
    declareUnder scope list sides a = declareField scope list sides a := by
  unfold declareUnder
  obtain ⟨value, shape⟩ := a
  obtain rfl := Shape.ofKey_of_key? narrow
  cases key <;> rfl

theorem Analysis.Shaped.declareField {a : Analysis} {s : State} (h : a.Shaped s.block) {key : Key}
    (narrow : a.shape.key? = some key) (scope : Scope) (list : InstrRef) (sides : TwoSided)
    (ctx : Context) :
    ∃ keyRef withKey, Run.materialize a.value sides.mark.pos ctx s = (.done keyRef, withKey) ∧
      withKey.store = s.store ∧
      (∃ more, withKey.block = ⟨s.block.id, s.block.instrs ++ more⟩ ∧
        ∀ instr ∈ more, instr.op = .makeKey key) ∧
      keyRef.block = s.block.id ∧
      (∃ at_, withKey.block.instrs[keyRef.index]? = some ⟨.makeKey key, at_⟩) ∧
      NamespaceLang.declareField scope list sides a ctx s =
        (.done (), (withKey.pushed (.captureAst (sides.thunk scope)) sides.right.pos).pushed
          (.nsAppend list keyRef withKey.block.next) sides.mark.pos) := by
  obtain ⟨keyRef, more, made, ops, here, there⟩ := h.materialize narrow sides.mark.pos ctx
  refine ⟨keyRef, _, made, rfl, ⟨more, rfl, ops⟩, here, there, ?_⟩
  rw [declareField_eq, Run.bind_apply, made]
  dsimp only
  rw [Run.bind_apply, captured_apply]
  rfl

def Value.Agrees : Value → Shape → Prop
  | .key known, shape => shape.key? = some known
  | .namespace target, shape => shape = .namespaceOf target
  | .ast _, shape => shape = .ast
  | _, _ => False

/-- An instruction whose result will be what the shape says, as far as it can be told. -/
def Op.Agrees : Op → Shape → Prop
  | .captureAst _, shape => shape = .ast
  | .makeKey key, shape => shape.key? = some key
  | .void, shape => shape = .void
  | .call .., _ => True
  | _, _ => False

/-- The value of an analysis is what its shape says: it is known to be, or it is an instruction of
the block. -/
def Analysis.Agrees (a : Analysis) (b : Block) : Prop :=
  match a.value with
  | .known value => value.Agrees a.shape
  | .deferred ref => ∃ instr, b.get? ref = some instr ∧ instr.op.Agrees a.shape

theorem Analysis.Shaped.agrees {a : Analysis} {b : Block} (h : a.Shaped b) : a.Agrees b := by
  obtain ⟨value, shape⟩ := a
  cases value with
  | known value =>
    cases value with
    | key known => cases h; exact Shape.key?_ofKey known
    | «namespace» target => cases h; exact rfl
    | ast thunk => cases h; exact rfl
    | _ => cases h
  | deferred ref =>
    obtain ⟨⟨op, at_⟩, there, hs⟩ := Option.bind_eq_some_iff.1 h
    refine ⟨_, there, ?_⟩
    cases op with
    | captureAst thunk => cases hs; exact rfl
    | makeKey key => cases hs; exact Shape.key?_ofKey key
    | _ => cases hs

def Outcome.given? {α : Type} : Outcome α → Option α
  | .done a => some a
  | _ => none

theorem Outcome.eq_done_of_given? {α : Type} {o : Outcome α} {a : α} (h : o.given? = some a) :
    o = .done a := by
  cases o with
  | done b => exact congrArg Outcome.done (Option.some.inj h)
  | _ => cases h

def Line.fieldKey? (line : Line) (force : Forcing) (scope : Scope) (ctx : Context) (s : State) :
    Option FieldKey :=
  (twoSided? ChainTag.bindsField line.pos line.items).toOption.join.bind fun sides =>
    (analyzeWith force scope .key sides.left.pos sides.leftItems ctx s).1.given?.bind fun key =>
      key.shape.key?.map (·.field)

theorem Line.fieldKey?_eq_some {line : Line} {force : Forcing} {scope : Scope} {ctx : Context}
    {s : State} {field : FieldKey} (h : line.fieldKey? force scope ctx s = some field) :
    ∃ sides key mid, twoSided? ChainTag.bindsField line.pos line.items = .ok (some sides) ∧
      analyzeWith force scope .key sides.left.pos sides.leftItems ctx s = (.done key, mid) ∧
      key.shape.key?.map (·.field) = some field := by
  obtain ⟨sides, two_sided, keyed⟩ := Option.bind_eq_some_iff.1 h
  obtain ⟨key, given, known⟩ := Option.bind_eq_some_iff.1 keyed
  refine ⟨sides, key, _, ?_, Prod.ext (Outcome.eq_done_of_given? given) rfl, known⟩
  cases read : twoSided? ChainTag.bindsField line.pos line.items with
  | error d =>
    rw [read] at two_sided
    cases two_sided
  | ok sides? =>
    rw [read] at two_sided
    exact congrArg Except.ok two_sided

/-- The operands of what declares a field are accepted, whatever the block gave before it. -/
theorem Results.step_nsAppend {id : BlockId} {before : List Instr} {list key value : InstrRef}
    (target : Names id before list Op.beginsNamespace) (named : Names id before key Op.makesKey)
    (kept : Names id before value Op.keepsSource) (pos : Position) {found : List Diagnostic}
    {results : Results} (ran : run ⟨id, #[]⟩ before = (found, .ok results)) :
    ∃ after told, results.step ⟨.nsAppend list key value, pos⟩ = .ok (after, told) := by
  obtain ⟨each, rfl, -⟩ := run_results ran
  have needs : (Instr.mk (.nsAppend list key value) pos).op.Accepted id before := ⟨target, named, kept⟩
  exact ⟨_, _, step_accepted each needs⟩

/-- In every state that comes up, whatever the nodes and the scope are, what is asked for and how
far it may look: an expression that gives something has added instructions to the block at hand that
refer to earlier ones of it alone, and what it gives is what its shape says. So the key of a line
that is found to be known becomes an operand, and so does the source after the mark; and what
declares the field is accepted when the block is run, if only `list` begins a namespace there. -/
theorem analyzeWith_agrees {may : Moment → Prop} {s : State} (visited : Visited may s) (depth : Nat)
    (ctx : Context) (scope : Scope) :
    (∀ slot pos nodes a after,
      analyzeWith (forceWithin depth) scope slot pos nodes ctx s = (.done a, after) →
      (∃ more, after.block = ⟨s.block.id, s.block.instrs ++ more⟩ ∧
        ∀ (i : Nat) (instr : Instr), more[i]? = some instr → ∀ ref ∈ instr.op.operands,
          ref.block = s.block.id ∧ ref.index < s.block.size + i) ∧
      a.Agrees after.block) ∧
    ∀ list line sides key mid,
      twoSided? ChainTag.bindsField line.pos line.items = .ok (some sides) →
      analyzeWith (forceWithin depth) scope .key sides.left.pos sides.leftItems ctx s =
        (.done key, mid) →
      key.shape.key?.isSome = true →
      ∃ keyRef withKey bodyRef withBody,
        Run.materialize key.value sides.mark.pos ctx mid = (.done keyRef, withKey) ∧
        captured scope sides ctx withKey = (.done bodyRef, withBody) ∧
        declareLineWith (forceWithin depth) scope list line ctx s =
          (.done (), withBody.pushed (.nsAppend list keyRef bodyRef) sides.mark.pos) ∧
        (Names withBody.block.id withBody.block.instrs.toList list Op.beginsNamespace →
          ∀ found results,
            Results.run ⟨withBody.block.id, #[]⟩ withBody.block.instrs.toList =
              (found, .ok results) →
            ∃ after told, results.step ⟨.nsAppend list keyRef bodyRef, sides.mark.pos⟩ =
              .ok (after, told)) := by
  have shaped (slot : Shape) (pos : Position) (nodes : List Tree) :
      Shapely True Op.alone Analysis.Shaped s
        (analyzeWith (forceWithin depth) scope slot pos nodes ctx s) :=
    Moment.shaped ⟨depth, .expression scope slot pos nodes, ctx, s⟩ visited.shaped
  refine ⟨fun slot pos nodes a after done => ?_, fun list line sides key mid read done narrow => ?_⟩
  · obtain ⟨-, block, good⟩ := shaped slot pos nodes
    rw [done] at block good
    obtain ⟨more, same, alone⟩ := block trivial
    refine ⟨⟨more, same, fun i instr there ref hr => ?_⟩, (good trivial a rfl).agrees⟩
    have none_there : instr.op.operands = [] :=
      List.isEmpty_iff.1 (alone instr (Array.mem_of_getElem? there))
    rw [none_there] at hr
    cases hr
  · obtain ⟨-, -, good⟩ := shaped .key sides.left.pos sides.leftItems
    rw [done] at good
    obtain ⟨known, narrow⟩ := Option.isSome_iff_exists.1 narrow
    obtain ⟨keyRef, withKey, made, -, ⟨more, block, -⟩, here, ⟨at_, there⟩, declared⟩ :=
      (good trivial key rfl).declareField narrow scope list sides ctx
    refine ⟨keyRef, withKey, _, _, made, captured_apply scope sides ctx withKey, ?_,
      fun target found results ran => ?_⟩
    · rw [declareLineWith_apply, read]
      dsimp only
      rw [Run.bind_apply, done]
      dsimp only
      rw [declareUnder_of_key scope list sides narrow, declared]
    · have own : withKey.block.id = mid.block.id := by rw [block]
      refine Results.step_nsAppend target ⟨here.trans own.symm, ⟨.makeKey known, at_⟩, ?_, rfl⟩
        ⟨rfl, ⟨.captureAst (sides.thunk scope), sides.right.pos⟩, ?_, rfl⟩ sides.mark.pos ran
      · have early := (Array.getElem?_eq_some_iff.1 there).1
        rw [Array.getElem?_toList]
        exact (Array.getElem?_push_lt early).trans (Array.getElem?_eq_getElem early ▸ there)
      · rw [Array.getElem?_toList]
        exact Array.getElem?_push_size

/-- A body that defines `x` as the key `.a` has been declared, and `x` has been looked into. So the
key of a line `x := 1` is this one, and the field is accepted. -/
theorem analyzeWith_agrees_access :
    let pos : Position := .start "t"
    let ctx : Context := ⟨[], [0], []⟩
    let declared := (declareWith (forceWithin 1) [] pos (tokenize "t" "x :: .a".toList).nodes .start
      ⟨.ofDiagnostics [], .new 0⟩).2
    let looked := (resolveWith (forceWithin 1) pos "x" .key [0] ctx declared).2
    let s : State := { looked with block := ⟨0, #[⟨.nsInit, pos⟩]⟩ }
    let line : Line := ⟨(tokenize "t" "x := 1".toList).nodes, pos⟩
    ((looked.store.get 0).findings.get? (.definition "x")).isSome ∧
      ∃ (sides : TwoSided) (key : Analysis) (mid : State) (keyRef bodyRef : InstrRef)
        (withBody : State),
        twoSided? ChainTag.bindsField line.pos line.items = .ok (some sides) ∧
        analyzeWith (forceWithin 1) [0] .key sides.left.pos sides.leftItems ctx s =
          (.done key, mid) ∧
        key.shape.key?.map (·.field) = some (.string "a") ∧ key.Agrees mid.block ∧
        declareLineWith (forceWithin 1) [0] ⟨0, 0⟩ line ctx s =
          (.done (), withBody.pushed (.nsAppend ⟨0, 0⟩ keyRef bodyRef) sides.mark.pos) ∧
        ∃ found results after told,
          Results.run ⟨withBody.block.id, #[]⟩ withBody.block.instrs.toList =
            (found, .ok results) ∧
          results.step ⟨.nsAppend ⟨0, 0⟩ keyRef bodyRef, sides.mark.pos⟩ = .ok (after, told) := by
  intro pos ctx declared looked s line
  have found_out : ((looked.store.get 0).findings.get? (.definition "x")).isSome := by
    decide +kernel
  have keyed : line.fieldKey? (forceWithin 1) [0] ctx s = some (.string "a") := by decide +kernel
  have block_run :
      let before := (declareLineWith (forceWithin 1) [0] ⟨0, 0⟩ line ctx s).2.block.instrs.toList.dropLast
      before.head?.any (·.op.beginsNamespace) = true ∧
        (Results.run ⟨0, #[]⟩ before).2.toOption.isSome = true := by
    decide +kernel
  have same_block : (declareLineWith (forceWithin 1) [0] ⟨0, 0⟩ line ctx s).2.block.id = 0 := by
    decide +kernel
  have visited : Visited (fun _ => True) s := by
    have body : Visited (fun _ => True) declared :=
      .ended ⟨1, .body [] pos (tokenize "t" "x :: .a".toList).nodes, .start, _⟩
        (.start [] (.new 0)) trivial
    exact .elsewhere (.ended ⟨1, .resolve [0] .key pos "x", ctx, declared⟩ body trivial) _
  obtain ⟨expressions, lines⟩ := analyzeWith_agrees visited 1 ctx [0]
  obtain ⟨sides, key, mid, two_sided, done, known⟩ := Line.fieldKey?_eq_some keyed
  have narrow : key.shape.key?.isSome = true := by
    rw [← Option.isSome_map, known]
    rfl
  obtain ⟨keyRef, withKey, bodyRef, withBody, -, -, declared_field, accepted⟩ :=
    lines ⟨0, 0⟩ line sides key mid two_sided done narrow
  refine ⟨found_out, sides, key, mid, keyRef, bodyRef, withBody, two_sided, done, known,
    (expressions .key _ _ key mid done).2, declared_field, ?_⟩
  have own : withBody.block.id = 0 := by
    rw [declared_field] at same_block
    exact same_block
  have before : (withBody.pushed (.nsAppend ⟨0, 0⟩ keyRef bodyRef)
      sides.mark.pos).block.instrs.toList.dropLast = withBody.block.instrs.toList := by
    simp [State.pushed, Block.push]
  rw [declared_field] at block_run
  dsimp only at block_run
  rw [before] at block_run
  obtain ⟨begins, ran⟩ := block_run
  obtain ⟨first, head, begins⟩ := (Option.any_eq_true ..).1 begins
  have target : Names withBody.block.id withBody.block.instrs.toList ⟨0, 0⟩ Op.beginsNamespace :=
    ⟨own.symm, first, List.head?_eq_getElem? ▸ head, begins⟩
  cases whole : Results.run ⟨0, #[]⟩ withBody.block.instrs.toList with
  | mk found outcome =>
    rw [whole] at ran
    cases outcome with
    | error d => cases ran
    | ok results =>
      rw [own] at accepted ⊢
      obtain ⟨after, told, taken⟩ := accepted (own ▸ target) found results whole
      exact ⟨found, results, after, told, whole, taken⟩

end NamespaceLang

import NamespaceLang.Proofs.Analysis.Frame
import NamespaceLang.Proofs.Analysis.Registry
import NamespaceLang.Proofs.Body.Refilled
import NamespaceLang.Proofs.Instr.Bare

/-!
# Sources that nobody looks into

While a body is read, the sources of its own fields are kept and not looked into,
whatever its other lines look into. So two bodies that are the same but for these
sources come to the same end: the same is told and found out, and the namespaces
have the same fields, in the same order and with the same positions.
-/

set_option autoImplicit false

namespace NamespaceLang

open NamespaceLang.Tree

variable {α β : Type}

structure State.ButSources (s t : State) : Prop where
  store : t.store = s.store
  block : t.block.bare = s.block.bare

theorem State.ButSources.beside {s t : State} (h : s.ButSources t) : s.Beside t := by
  have id := congrArg Block.id h.block
  refine ⟨h.store, id, ?_⟩
  simpa [Block.bare] using congrArg (·.instrs.size) h.block

structure RunsButSources (r r' : Outcome α × State) : Prop where
  outcome : r'.1 = r.1
  state : r.2.ButSources r'.2

/-- Where the first work keeps some sources, the second keeps others, and there is no other
difference. -/
def Run.Overlooks (act act' : Run α) : Prop :=
  ∀ ctx s t, s.ButSources t → RunsButSources (act ctx s) (act' ctx t)

namespace Run.Overlooks

theorem of_follows {act act' : Run α} (h : Run.Follows True act act') : Overlooks act act' := by
  intro ctx s t hs
  obtain ⟨outcome, store, more, own, other⟩ := h ctx s t hs.beside fun _ => trivial
  refine ⟨outcome, store, ?_⟩
  rw [own, other]
  exact Block.bare_append hs.block more

theorem bind {act act' : Run β} {next next' : β → Run α} (h : Overlooks act act')
    (hn : ∀ b, Overlooks (next b) (next' b)) : Overlooks (act >>= next) (act' >>= next') := by
  intro ctx s t hs
  obtain ⟨outcome, state⟩ := h ctx s t hs
  rw [Run.bind_eq_goOn, Run.bind_eq_goOn]
  generalize act ctx s = r, act' ctx t = r' at outcome state
  obtain ⟨o, mid⟩ := r
  obtain ⟨o', mid'⟩ := r'
  cases outcome
  cases o with
  | done b => exact hn b ctx mid mid' state
  | failed d => exact ⟨rfl, state⟩
  | exhausted => exact ⟨rfl, state⟩

theorem attempt {act act' : Run Unit} (h : Overlooks act act') :
    Overlooks (Run.attempt act) (Run.attempt act') := by
  intro ctx s t hs
  obtain ⟨outcome, state⟩ := h ctx s t hs
  rw [Run.attempt_eq_tell, Run.attempt_eq_tell]
  generalize act ctx s = r, act' ctx t = r' at outcome state
  obtain ⟨o, mid⟩ := r
  obtain ⟨o', mid'⟩ := r'
  cases outcome
  cases o with
  | failed d => exact ⟨rfl, congrArg (Store.record · [d]) state.store, state.block⟩
  | _ => exact ⟨rfl, state⟩

theorem capture (scope : Scope) (pos : Position) (nodes others : List Tree) :
    Overlooks (NamespaceLang.capture scope pos nodes) (NamespaceLang.capture scope pos others) := by
  intro ctx s t hs
  have next : t.block.next = s.block.next := by
    rw [Block.next, Block.next, Block.size, Block.size, hs.beside.id, hs.beside.size]
  refine ⟨?_, hs.store, ?_⟩
  · show Outcome.done (Analysis.deferred t.block.next .ast) = _
    rw [next]
    rfl
  · show (t.block.push _ pos).2.bare = (s.block.push _ pos).2.bare
    rw [Block.bare_push, Block.bare_push, hs.block]
    rfl

theorem field (f : List Tree → List Tree) (scope : Scope) (list : InstrRef) (sides : TwoSided)
    (key : Analysis) :
    Overlooks (declareField scope list sides key) (declareField scope list (sides.refill f) key) := by
  unfold declareField
  rw [show (sides.refill f).right.pos = sides.right.pos from pos_refill f sides.right]
  exact bind (of_follows (.materialize _ _)) fun _ => bind (capture _ _ _ _) fun _ =>
    bind (of_follows (.materialize _ _)) fun _ => of_follows (.bind (.push _ _) fun _ => .done _)

variable {force : Forcing} (h : Forcing.Follows True force force) (f : List Tree → List Tree)

include h

theorem expression (scope : Scope) (pos : Position) (nodes : List Tree) :
    Run.Follows True (analyzeWith force scope .void pos nodes)
      (analyzeWith force scope .void pos (onFirst (refillField f) nodes)) := by
  have whole := Run.Follows.expression_follows h scope .void pos nodes
  rw [analyzeWith_of_ne_ast _ _ (by simp), analyzeWith_of_ne_ast _ _ (by simp)] at *
  rw [show solid (onFirst (refillField f) nodes) = (solid nodes).modifyHead (refillField f) from
    filter_onFirst (isBlank_refillField f) nodes]
  generalize solid nodes = parts at whole ⊢
  rcases parts with _ | ⟨⟨at_, content⟩ | ⟨at_, form, items⟩, rest⟩
  · exact whole
  · exact whole
  · cases form with
    | chain tag tier =>
      obtain ⟨others, changed⟩ : ∃ others, refillField f (.group at_ (.chain tag tier) items) =
          .group at_ (.chain tag tier) others := by
        cases items <;> exact ⟨_, rfl⟩
      have fails (own : List Tree) (slot : Shape) :
          analyzeBaseWith force scope slot (.group at_ (.chain tag tier) own) =
            Run.fail (.error at_ (.notExpression "binary")) := by
        rw [analyzeBaseWith.eq_def]
        rfl
      rw [List.modifyHead_cons, changed]
      show Run.Follows True (analyzeBaseWith _ _ _ _ >>= _) (analyzeBaseWith _ _ _ _ >>= _)
      rw [fails, fails]
      exact .bind (.fail _) fun left => .suffixes_follows h scope left rest
    | _ => exact whole

theorem line (scope : Scope) (list : InstrRef) (own : Line) :
    Overlooks (declareLineWith force scope list own)
      (declareLineWith force scope list (own.refill f)) := by
  intro ctx s t hs
  have read := twoSided?_refill f own.pos own.items
  rw [declareLineWith_apply, declareLineWith_apply]
  rw [show twoSided? ChainTag.bindsField (own.refill f).pos (own.refill f).items = _ from read]
  cases twoSided? ChainTag.bindsField own.pos own.items with
  | error d => exact of_follows (.fail d) ctx s t hs
  | ok sides? =>
    cases sides? with
    | none =>
      exact bind (of_follows (expression h f scope own.pos own.items))
        (fun _ => of_follows (.done ())) ctx s t hs
    | some sides =>
      refine bind (of_follows (.expression_follows h scope .key sides.left.pos sides.leftItems))
        (fun key => ?_) ctx s t hs
      unfold declareUnder
      split
      · exact field f scope list sides key
      · exact field f scope list sides key
      · exact of_follows (.fail _)
      · exact of_follows (.fail _)

theorem lines (scope : Scope) (list : InstrRef) (rest : List Line) :
    Overlooks (declareLinesWith force scope list rest)
      (declareLinesWith force scope list (rest.map (·.refill f))) := by
  induction rest with
  | nil =>
    rw [List.map_nil, declareLinesWith.eq_def]
    exact of_follows (.done ())
  | cons own rest ih =>
    rw [List.map_cons, declareLinesWith.eq_def, declareLinesWith.eq_def]
    exact bind (attempt (line h f scope list own)) fun _ => ih

end Run.Overlooks

def Namespace.bare (n : Namespace) : Namespace := { n with fields? := n.fields?.map (·.bare) }

/-- The states are the same, but for the sources that the fields of one namespace have. -/
structure State.ButFields (own : NamespaceId) (s t : State) : Prop where
  diagnostics : t.store.diagnostics = s.store.diagnostics
  nextBlock : t.store.nextBlock = s.store.nextBlock
  size : t.store.size = s.store.size
  others : ∀ id ≠ own, t.store.get id = s.store.get id
  own : (t.store.get own).bare = (s.store.get own).bare
  block : t.block = s.block

namespace State.ButFields

variable {own : NamespaceId} {s t u : State}

theorem symm (h : s.ButFields own t) : t.ButFields own s :=
  ⟨h.diagnostics.symm, h.nextBlock.symm, h.size.symm, fun id hid => (h.others id hid).symm,
    h.own.symm, h.block.symm⟩

theorem trans (h : s.ButFields own t) (h' : t.ButFields own u) : s.ButFields own u :=
  ⟨h'.diagnostics.trans h.diagnostics, h'.nextBlock.trans h.nextBlock, h'.size.trans h.size,
    fun id hid => (h'.others id hid).trans (h.others id hid), h'.own.trans h.own,
    h'.block.trans h.block⟩

theorem same (store : t.store = s.store) (block : t.block = s.block) : s.ButFields own t := by
  rw [← show (⟨s.store, s.block⟩ : State) = t by rw [← store, ← block]]
  exact ⟨rfl, rfl, rfl, fun _ _ => rfl, rfl, rfl⟩

theorem finish (store : Store) (own : NamespaceId) (block : Block) {registry other : Registry}
    (h : other.bare = registry.bare) :
    ButFields own ⟨store.finish own registry, block⟩ ⟨store.finish own other, block⟩ where
  diagnostics := rfl
  nextBlock := rfl
  size := by
    rw [Store.finish, Store.finish, Store.size_modify, Store.size_modify]
  others id hid := by
    rw [Store.finish, Store.finish, Store.get_modify, Store.get_modify]
    rw [if_neg fun there => hid there.1, if_neg fun there => hid there.1]
  own := by
    rw [Store.finish, Store.finish, Store.get_modify, Store.get_modify]
    split
    · have entries := congrArg Registry.entries h
      simpa [Namespace.bare, Registry.bare, Registry.lock] using entries
    · rfl
  block := rfl

end State.ButFields

theorem fieldsOf_bare {s t : State} (h : s.ButSources t) (pos : Position) (list : InstrRef)
    (ctx : Context) :
    (fieldsOf pos list ctx t).2.store = (fieldsOf pos list ctx s).2.store ∧
      ((∃ registry other, (fieldsOf pos list ctx s).1 = .done registry ∧
          (fieldsOf pos list ctx t).1 = .done other ∧ other.bare = registry.bare) ∨
        ∃ d, (fieldsOf pos list ctx s).1 = .failed d ∧ (fieldsOf pos list ctx t).1 = .failed d) := by
  have ran : (t.block.evaluate.1, t.block.evaluate.2.map (·.bare)) =
      (s.block.evaluate.1, s.block.evaluate.2.map (·.bare)) := by
    rw [← Block.evaluate_bare, ← Block.evaluate_bare, h.block]
  obtain ⟨told, ends⟩ := Prod.mk.inj ran
  have store (found : List Diagnostic) : (t.told ctx found).store = (s.told ctx found).store := by
    rw [State.told, State.told, h.store]
  unfold fieldsOf
  rw [Run.bind_apply, Run.bind_apply]
  obtain ⟨own, other⟩ : s.block.evaluate = (s.block.evaluate.1, s.block.evaluate.2) ∧
      t.block.evaluate = (s.block.evaluate.1, t.block.evaluate.2) := ⟨rfl, by rw [← told]⟩
  rcases Except.map_eq_map ends with ⟨results, results', done, done', alike⟩ | ⟨d, failed, failed'⟩
  · rw [done] at own
    rw [done'] at other
    rw [Run.evaluate_ok own, Run.evaluate_ok other]
    dsimp only
    have fields : (results'.aggregate pos list).map (·.bare) =
        (results.aggregate pos list).map (·.bare) := by
      rw [← Results.aggregate_bare, ← Results.aggregate_bare, alike]
    rcases Except.map_eq_map fields with ⟨registry, registry', there, there', same⟩ |
      ⟨d, failed, failed'⟩
    · rw [there, there']
      exact ⟨store _, Or.inl ⟨registry, registry', rfl, rfl, same⟩⟩
    · rw [failed, failed']
      exact ⟨store _, Or.inr ⟨_, rfl, rfl⟩⟩
  · rw [failed] at own
    rw [failed'] at other
    rw [Run.evaluate_error own, Run.evaluate_error other]
    exact ⟨store _, Or.inr ⟨_, rfl, rfl⟩⟩

/-- A body in which all fields have other sources is declared as the body is. -/
theorem declareWith_refill {force : Forcing} (h : Forcing.Follows True force force)
    (f : List Tree → List Tree) (outer : Scope) (pos : Position) (nodes : List Tree) (ctx : Context)
    (s : State) :
    let ended := declareWith force outer pos nodes ctx s
    let other := declareWith force outer pos (refillBody f nodes) ctx s
    other.1 = ended.1 ∧ ended.2.ButFields s.store.size other.2 := by
  dsimp only
  rw [declareWith_apply, declareWith_apply, Body.read_refill]
  cases Body.read pos nodes with
  | error d => exact ⟨rfl, .same rfl rfl⟩
  | ok read =>
    obtain ⟨body, found⟩ := read
    have lines := Run.Overlooks.lines h f (s.store.namespaces.size :: outer) s.fieldList body.lines
      (ctx.holding [s.store.namespaces.size]) (s.declaring ctx outer pos body found)
      (s.declaring ctx outer pos body found) ⟨rfl, rfl⟩
    dsimp only [Except.map, Prod.map, id]
    rw [Run.bind_eq_goOn, Run.bind_eq_goOn]
    rw [show (body.refill f).lines = body.lines.map (·.refill f) from rfl,
      show s.declaring ctx outer pos (body.refill f) found = s.declaring ctx outer pos body found
        from rfl]
    generalize declareLinesWith force _ _ body.lines _ _ = r,
      declareLinesWith force _ _ (body.lines.map (·.refill f)) _ _ = r' at lines
    obtain ⟨o, mid⟩ := r
    obtain ⟨o', mid'⟩ := r'
    obtain ⟨outcome, state⟩ := lines
    cases outcome
    cases o with
    | failed d => exact ⟨rfl, .same state.store rfl⟩
    | exhausted => exact ⟨rfl, .same state.store rfl⟩
    | done _ =>
      obtain ⟨store, ends⟩ := fieldsOf_bare state pos s.fieldList
        (ctx.holding [s.store.namespaces.size])
      dsimp only [Run.goOn]
      generalize fieldsOf pos s.fieldList _ mid = r, fieldsOf pos s.fieldList _ mid' = r' at store ends
      obtain ⟨o, last⟩ := r
      obtain ⟨o', last'⟩ := r'
      dsimp only at store ends
      rcases ends with ⟨registry, registry', rfl, rfl, bare⟩ | ⟨d, rfl, rfl⟩
      · refine ⟨rfl, ?_⟩
        dsimp only [State.leaving]
        rw [store]
        exact .finish last.store s.store.size s.block bare
      · exact ⟨rfl, .same store rfl⟩

theorem declareWith_emptied (outer : Scope) (pos : Position) (nodes : List Tree) (ctx : Context)
    (s : State) (depth : Nat) :
    let ended := declareWith (forceWithin depth) outer pos nodes ctx s
    let other := declareWith (forceWithin depth) outer pos (emptiedBody nodes) ctx s
    other.1 = ended.1 ∧ ended.2.ButFields s.store.size other.2 :=
  declareWith_refill (Run.Follows.forceWithin_follows (Nat.le_refl depth) fun _ => rfl)
    (fun _ => []) outer pos nodes ctx s

theorem Visited.covers_emptied {s : State} (visited : Visited Asks s) {outer : Scope}
    (begun : Begun s.store.size outer) {nodes : List Tree} (list : FromText nodes) (pos : Position)
    (ctx : Context) :
    Moment.Covered ⟨s.store.bindingBound + weightAll (emptiedBody nodes) + 1,
      .body outer pos (emptiedBody nodes), ctx, s⟩ := by
  obtain ⟨shaped, tame⟩ := visited.tame
  obtain ⟨whole, form, arranged⟩ := list.arranged
  obtain ⟨-, still_whole, still_arranged⟩ := emptiedBody_lightens nodes
  have among : Begun s.store.size (Task.body outer pos (emptiedBody nodes)).among := by
    simpa [Task.among, Task.scope, Task.given] using begun
  exact ⟨shaped, tame, trivial, among, still_whole whole, ⟨form, still_arranged form arranged⟩,
    Or.inr (tame.deep ctx.forcing among (Nat.le_refl _))⟩

/-- Two bodies that are the same without the sources of their fields come to the same end, whatever
these sources are and whatever the other lines look into: when somebody may look as far in both, and
when each is read with as much depth as it can need, which is enough for a body of a text. The same
is told and found out, and all namespaces are the same, but for the sources that the fields of the
new one have: these have the same keys and positions, in the same order. -/
theorem field_sources_unread {nodes others : List Tree}
    (same : emptiedBody others = emptiedBody nodes) (outer : Scope) (pos : Position) (ctx : Context)
    (s : State) :
    (∀ depth,
      let ended := declareWith (forceWithin depth) outer pos nodes ctx s
      let other := declareWith (forceWithin depth) outer pos others ctx s
      other.1 = ended.1 ∧ ended.2.ButFields s.store.size other.2) ∧
    (Visited Asks s → Begun s.store.size outer → FromText nodes →
      ∃ after after', declare outer pos nodes ctx s = (.done s.store.size, after) ∧
        declare outer pos others ctx s = (.done s.store.size, after') ∧
        after.ButFields s.store.size after') := by
  refine ⟨fun depth => ?_, fun visited begun list => ?_⟩
  · obtain ⟨outcome, state⟩ := declareWith_emptied outer pos nodes ctx s depth
    obtain ⟨outcome', state'⟩ := declareWith_emptied outer pos others ctx s depth
    rw [same] at outcome' state'
    exact ⟨outcome'.symm.trans outcome, state.trans state'.symm⟩
  · obtain ⟨last, declared⟩ := (visited.covers_emptied begun list pos ctx).declares
    have full (own : List Tree) (alike : emptiedBody own = emptiedBody nodes) : ∃ after,
        declare outer pos own ctx s = (.done s.store.size, after) ∧
          after.ButFields s.store.size last := by
      have light := (emptiedBody_lightens own).1
      rw [alike] at light
      have far : s.store.bindingBound + weightAll (emptiedBody nodes) + 1 ≤
          s.store.bindingBound + weightAll own + 1 := by omega
      have again := (Run.Follows.declare_follows (Run.Follows.forceWithin_follows far False.elim)
        outer pos (emptiedBody nodes)).repeats ctx s fun used => by
          rw [declared] at used
          cases used
      obtain ⟨outcome, state⟩ := declareWith_emptied outer pos own ctx s
        (s.store.bindingBound + weightAll own + 1)
      rw [alike, again, declared] at outcome state
      exact ⟨(declare outer pos own ctx s).2, Prod.ext outcome.symm rfl, state⟩
    obtain ⟨after, done, state⟩ := full nodes rfl
    obtain ⟨after', done', state'⟩ := full others same
    exact ⟨after, after', done, done', state.trans state'.symm⟩

/-- The key of one field is looked up, and another line looks into a namespace of its own; the
sources of both fields are replaced by what could not be read. -/
theorem field_sources_unread_erroneous :
    let nodes := (tokenize "t.cvl" "x :: .b\n.a := q\nx := .a\nns [y := x].y".toList).nodes
    let others := refillBody (fun _ => [.leaf (.start "t.cvl") .error]) nodes
    emptiedBody others = emptiedBody nodes ∧ ∃ after after',
      declare [] (.start "t.cvl") nodes .start (.opening []) = (.done 0, after) ∧
      declare [] (.start "t.cvl") others .start (.opening []) = (.done 0, after') ∧
      after.ButFields 0 after' ∧
      (after.store.get 0).fields?.map Registry.keys = some [.string "a", .string "b"] ∧
      (after'.store.get 0).fields?.map (·.entries.map (·.thunk.nodes.map Tree.kind)) =
        some [["error"], ["error"]] := by
  intro nodes others
  have same : emptiedBody others = emptiedBody nodes := emptiedBody_refillBody _ nodes
  obtain ⟨after, after', done, done', state⟩ := (field_sources_unread same [] (.start "t.cvl") .start
    (.opening [])).2 (.start [] _) (fun _ none => by cases none) ⟨"t.cvl", _, Or.inl rfl⟩
  have keys : ((declare [] (.start "t.cvl") nodes .start (.opening [])).2.store.get 0).fields?.map
      Registry.keys = some [.string "a", .string "b"] := by decide +kernel
  have kinds : ((declare [] (.start "t.cvl") others .start (.opening [])).2.store.get 0).fields?.map
      (·.entries.map (·.thunk.nodes.map Tree.kind)) = some [["error"], ["error"]] := by
    decide +kernel
  rw [done] at keys
  rw [done'] at kinds
  exact ⟨same, after, after', done, done', state, keys, kinds⟩

end NamespaceLang

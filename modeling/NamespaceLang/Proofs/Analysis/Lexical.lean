import NamespaceLang.Proofs.Analysis.Cycles
import NamespaceLang.Proofs.Analysis.Ends

/-!
# Lexical scope

Which binding a name ought to stand for is seen when the whole text has been
compiled, and all bodies have the fields that they declare. While a body is being
read, its definitions are there, and its fields are not: a name that is resolved
there and then passes such a field by.
-/

set_option autoImplicit false

namespace NamespaceLang

namespace Store

/-- The namespaces of a scope that looking for a name leaves behind. -/
def passed (s : Store) (held : List NamespaceId) (name : String) : Scope → List NamespaceId
  | [] => []
  | id :: outer =>
    if s.isAlive held id ∧ s.binds? name id = none then id :: s.passed held name outer else []

theorem Becomes.reach_lexical_iff {s final : Store} (h : s.Becomes final)
    {held : List NamespaceId} {name : String} {scope : Scope} (begun : ∀ id ∈ scope, id < s.size)
    (there : s.reach held name scope ≠ .gone) :
    s.reach held name scope = .ofBinding? (final.lookUp name scope) ↔
      ∀ id ∈ s.passed held name scope,
        (s.get id).fields? = none → (final.get id).field? (.string name) = none := by
  induction scope with
  | nil => exact ⟨fun _ _ hm => (by cases hm), fun _ => rfl⟩
  | cons id outer ih =>
    have alive : s.isAlive held id = true := by
      by_contra gone
      rw [reach, if_neg gone] at there
      exact there rfl
    rw [reach, if_pos alive] at there ⊢
    cases bound : s.binds? name id with
    | some binding =>
      have none_passed : s.passed held name (id :: outer) = [] :=
        if_neg fun both => by rw [bound] at both; cases both.2
      rw [lookUp, h.binds? bound, none_passed]
      exact ⟨fun _ _ hm => (by cases hm), fun _ => rfl⟩
    | none =>
      rw [bound] at there
      have passes : s.passed held name (id :: outer) = id :: s.passed held name outer :=
        if_pos ⟨alive, bound⟩
      have kept := h.binds?_none (begun id List.mem_cons_self) bound
      rw [passes, List.forall_mem_cons, ← kept, lookUp]
      dsimp only at there ⊢
      cases later : final.binds? name id with
      | none =>
        rw [ih (fun o ho => begun o (List.mem_cons_of_mem id ho)) there]
        exact ⟨fun outside => ⟨rfl, outside⟩, And.right⟩
      | some binding =>
        -- the search goes on outside, and does not come back to this namespace
        refine ⟨fun same => ?_, fun both => by cases both.1⟩
        obtain ⟨-, -, -, -, own⟩ := split_of_reach same
        rw [bound] at own
        cases own

end Store

variable {label : String} {text : List Char}

theorem Moment.Reaches.becomes {m next : Moment} (h : m.Reaches next) :
    next.run.2.store.Becomes m.run.2.store := by
  induction h with
  | refl => exact .refl _
  | tail _ leads ih => exact leads.becomes.trans ih

theorem Compiled.becomes_ofRun (nodes : List Tree) (r : Outcome Shape × State) :
    r.2.store.Becomes (ofRun nodes r).store := by
  rcases r with ⟨_ | d | _, after⟩
  · exact .refl _
  · exact (Store.Learns.record _ _).becomes
  · exact .refl _

theorem Opens.becomes {m : Moment} (h : Opens label text m) :
    m.run.2.store.Becomes (compile label text).store := by
  rw [← compileHolding_nil]
  refine .trans ?_ (Compiled.becomes_ofRun _ _)
  show Store.Becomes _ (runEntry (.start label) (tokenize label text).nodes .start
    (.opening (tokenize label text).diagnostics)).2.store
  rw [runEntry_eq]
  cases h with
  | body => exact (Run.bind_develops fun root after before => (runFrom_keeps before).develops).becomes
  | @entry root after entry before there =>
    rw [Run.bind_apply, before]
    show Store.Becomes _ ((Run.within "entry point" (.start label)
      (readSymbol (.declared root) .main .mainEntry) >>= callEntry (.start label))
        (Context.start.holding [root]) after.inNewBlock).2.store
    refine .trans ?_ (Run.bind_develops fun main? mid _ => (callEntry_keeps _ main? _ mid).develops).becomes
    show Store.Becomes _ (readFieldWith? (forceWithin (after.inNewBlock.store.bindingBound + 1)) root
      (.symbol .main) .mainEntry _ after.inNewBlock).2.store
    rw [readFieldWith?_apply, show (after.inNewBlock.store.get root).field? _ = _ from there]
    exact (Run.bind_develops fun _ _ _ => .refl _).becomes

theorem Happens.becomes {m : Moment} (h : Happens label text m) :
    m.state.store.Becomes (compile label text).store := by
  obtain ⟨first, opens, reaches⟩ := h
  exact m.develops.becomes.trans (reaches.becomes.trans opens.becomes)

theorem Happens.begun {m : Moment} (h : Happens label text m) :
    ∀ id ∈ m.task.scope, id < m.state.store.size := by
  obtain ⟨K, chained⟩ := h.chained
  intro id hid
  exact chained.fits.stands.ready.census.begun (chained.fits.visible id hid).1

/-- A name is resolved by the definitions and fields that are there. That is lexical scope, unless
a namespace that is passed on the way is given a field of the name when its body has been read: a
binding further out is used then, or none is found. -/
theorem resolve_lexical_iff {depth : Nat} {scope : Scope} {slot : Shape} {pos : Position}
    {name : String} {ctx : Context} {s : State}
    (h : Happens label text ⟨depth, .resolve scope slot pos name, ctx, s⟩) :
    Moment.run ⟨depth, .resolve scope slot pos name, ctx, s⟩ =
      useReached (forceWithin depth) pos name slot s.store (s.store.reach ctx.held name scope) ctx s ∧
    (s.store.reach ctx.held name scope = .gone ∨
      (s.store.reach ctx.held name scope =
          .ofBinding? ((compile label text).store.lookUp name scope) ↔
        ∀ id ∈ s.store.passed ctx.held name scope, (s.store.get id).fields? = none →
          ((compile label text).store.get id).field? (.string name) = none)) := by
  refine ⟨resolveWith_apply _ _ _ _ _ _ _, ?_⟩
  by_cases gone : s.store.reach ctx.held name scope = .gone
  · exact Or.inl gone
  · exact Or.inr (h.becomes.reach_lexical_iff h.begun gone)

theorem resolve_lexical_of_entry :
    ∃ depth slot pos ctx s,
      Happens "t.cvl" selfNaming ⟨depth, .resolve [0] slot pos "a", ctx, s⟩ ∧
      s.store.reach ctx.held "a" [0] =
        .ofBinding? ((compile "t.cvl" selfNaming).store.lookUp "a" [0]) := by
  obtain ⟨after, entry, source, read, main, -, unknown, bound, ⟨alone, scope⟩, -, -⟩ :=
    selfNaming_read
  have first : (after.store.get 0).findings.get? (.field (.symbol .main)) = none := by
    rw [Table.get?, unknown]
    rfl
  have called : Happens "t.cvl" selfNaming _ := ⟨_, .entry read main, .refl⟩
  obtain ⟨_, named⟩ := called.named first List.not_mem_nil (by simp [Shape.mainEntry]) alone
  rw [scope] at named
  have bound : after.inNewBlock.inNewBlock.store.binds? "a" 0 = some (.definition "a") := bound
  have lexical := (resolve_lexical_iff named).2.resolve_left
    (by simp [Store.reach, Store.isAlive, Context.inside, bound])
  exact ⟨_, _, _, _, _, named, lexical.2 (by simp [Store.passed, bound])⟩

/-- The field of the name is there once the body has been read; while it is being read, nothing is
found. -/
theorem field_passed_by :
    (∃ d ∈ (compile "t.cvl" ".a := #builtin\na".toList).diagnostics,
      d.cause? = some (.unknownName "a")) ∧
    (compile "t.cvl" ".a := #builtin\na".toList).store.lookUp "a" [0] =
      some (0, .field (.string "a")) := by
  decide +kernel

end NamespaceLang

import NamespaceLang.Proofs.Analysis.Ends
import NamespaceLang.Proofs.Analysis.Histories
import NamespaceLang.Proofs.Instr.Specification

/-!
# What was found stays found

Once a binding has been looked into, its finding is in the store, and no later
step takes it out again or puts another one in its place: not the end of a call
that was under way, however it ends, nor any other call. So everybody who reaches
the binding later is given the finding, and nothing else happens.
-/

set_option autoImplicit false

namespace NamespaceLang

namespace Store

structure Retains (s later : Store) : Prop where
  source : ∀ id binding thunk, s.source? id binding = some thunk →
    later.source? id binding = some thunk
  finding : ∀ p found, s.finding? p = some found → later.finding? p = some found

namespace Retains

variable {s mid later : Store}

theorem refl (s : Store) : s.Retains s := ⟨fun _ _ _ h => h, fun _ _ h => h⟩

theorem trans (h : s.Retains mid) (h' : mid.Retains later) : s.Retains later :=
  ⟨fun id b t hs => h'.source id b t (h.source id b t hs),
    fun p f hf => h'.finding p f (h.finding p f hf)⟩

end Retains

theorem begun_of_source {s : Store} {id : NamespaceId} {binding : Binding} {thunk : Thunk}
    (h : s.source? id binding = some thunk) : id < s.size := by
  refine Nat.lt_of_not_le fun unbegun => ?_
  cases binding with
  | definition name =>
    rw [source?, get_of_size_le unbegun] at h
    cases h
  | field key =>
    rw [source?, get_of_size_le unbegun] at h
    cases h

theorem begun_of_finding {s : Store} {p : Place} {found : Forced} (h : s.finding? p = some found) :
    p.1 < s.size := by
  refine Nat.lt_of_not_le fun unbegun => ?_
  rw [finding?, get_of_size_le unbegun] at h
  cases h

theorem Learns.retains {s later : Store} (h : s.Learns later) : s.Retains later where
  source id binding thunk hs := by rw [(h.each id (begun_of_source hs)).source?, hs]
  finding p found hf := (h.each p.1 (begun_of_finding hf)).findings p.2 found hf

theorem Retains.finish (s : Store) {id : NamespaceId} (none_yet : (s.get id).fields? = none)
    (registry : Registry) : s.Retains (s.finish id registry) where
  source other binding thunk hs := by
    by_cases same : other = id
    · subst same
      have begun := begun_of_source hs
      cases binding with
      | definition name =>
        simpa [source?, scopeOf, Store.finish, get_modify, begun] using hs
      | field key => simp [source?, Namespace.field?, none_yet] at hs
    · have apart := get_modify_of_ne s same fun n => { n with fields? := some registry.lock }
      cases binding <;> simpa [source?, scopeOf, Store.finish, apart] using hs
  finding p found hf := by
    rw [finding?, findings_finish]
    exact hf

theorem Retains.change {s : Store} {c : Change} (allowed : s.Allows c) : s.Retains (s.change c) := by
  cases c with
  | tell found => exact (Learns.record s found).retains
  | takeBlock => exact (Learns.newBlock s).retains
  | turnTo told nextBlock => exact ⟨fun _ _ _ h => h, fun _ _ h => h⟩
  | begin pos outer definitions => exact (Learns.begin s pos outer definitions).retains
  | evaluate b => exact .refl s
  | finish b list id =>
    rw [Store.change]
    split
    · exact .finish s allowed _
    · exact .refl s
  | keep id binding found => exact (Learns.keep s allowed found).retains

theorem Develops.retains {s later : Store} (h : s.Develops later) : s.Retains later := by
  obtain ⟨cs, allowed, rfl⟩ := h
  exact changes_induction .refl (fun _ _ _ => .trans) (fun _ _ => .change) allowed

end Store

/-- One state comes after another one: calls begin and end, something is told, or work is taken up
in another block. A field that is read leaves what the call that looks into it leaves. -/
inductive Passes : State → State → Prop
  | call (m : Moment) : Passes m.state m.run.2
  | begins {m next : Moment} (leads : Leads m next) : Passes m.state next.state
  | ends {m next : Moment} (leads : Leads m next) : Passes next.run.2 m.run.2
  | told (s : State) (ds : List Diagnostic) : Passes s { s with store := s.store.record ds }
  | elsewhere (s : State) (b : Block) : Passes s { s with block := b }
  | newBlock (s : State) : Passes s s.inNewBlock

/-- One state comes after another one, by way of any others. -/
abbrev State.Later : State → State → Prop := Relation.ReflTransGen Passes

theorem Moment.learns (m : Moment) : m.state.store.Learns m.run.2.store := m.minds.learns

theorem Passes.retains {s later : State} (h : Passes s later) : s.store.Retains later.store := by
  cases h with
  | call m => exact m.learns.retains
  | begins leads => exact leads.keeps.1.retains
  | ends leads => exact leads.develops.retains
  | told _ ds => exact (Store.Learns.record _ ds).retains
  | elsewhere _ b => exact .refl _
  | newBlock _ => exact (Store.Learns.newBlock _).retains

theorem State.Later.retains {s later : State} (h : s.Later later) : s.store.Retains later.store := by
  induction h with
  | refl => exact .refl _
  | tail _ passes ih => exact ih.trans passes.retains

theorem forceWithin_of_finding {s : State} {id : NamespaceId} {binding : Binding} {found : Forced}
    (known : s.store.finding? (id, binding) = some found) (depth : Nat) (thunk : Thunk) (slot : Shape)
    (ctx : Context) : forceWithin (depth + 1) id binding thunk slot ctx s = (.done found, s) := by
  show forceBy (analyzeWith (forceWithin depth)) id binding thunk slot ctx s = _
  rw [forceBy_apply, show (s.store.get id).findings.get? binding = some found from known]

theorem Store.field_of_source {s : Store} {id : NamespaceId} {key : FieldKey} {thunk : Thunk}
    (h : s.source? id (.field key) = some thunk) : ∃ entry, (s.get id).field? key = some entry :=
  (Option.map_eq_some_iff.1 h).imp fun _ both => both.1

/-- Once a binding of a namespace has been looked into with success, whatever happens since, whoever
reaches it by a name, as a field that is read by a name or under a symbol, is given exactly what was
found, whatever is asked for and wherever; nothing is told, no instruction is added and no block is
begun. -/
theorem found_for_good {depth : Nat} {id : NamespaceId} {binding : Binding} {thunk : Thunk}
    {slot : Shape} {ctx : Context} {s mid later : State} {found : Forced}
    (source : s.store.source? id binding = some thunk)
    (forced : forceWithin depth id binding thunk slot ctx s = (.done found, mid))
    (since : mid.Later later) (deep : Nat) (asking : Context) (pos : Position) (wanted : Shape) :
    (∀ scope name, later.store.reach asking.held name scope = .binding id binding →
      resolveWith (forceWithin (deep + 1)) pos name wanted scope asking later =
        (.done found.analysis, later)) ∧
    (∀ name, binding = .field (.string name) →
      readStringWith (forceWithin (deep + 1)) (.declared id) pos name asking later =
        (.done found.analysis, later)) ∧
    ∀ builtin, binding = .field (.symbol builtin) →
      readSymbolWith (forceWithin (deep + 1)) (.declared id) builtin wanted asking later =
        (.done (some found.analysis), later) := by
  have retains : s.store.Retains later.store := by
    have learned := (force_keeps depth id binding thunk slot ctx s).learns
    rw [forced] at learned
    exact learned.retains.trans since.retains
  have there : later.store.source? id binding = some thunk := retains.source id binding thunk source
  have known : later.store.finding? (id, binding) = some found :=
    since.retains.finding _ _ (force_found (Store.begun_of_source source) forced)
  refine ⟨fun scope name way => ?_, fun name own => ?_, fun builtin own => ?_⟩
  · rw [resolveWith_apply, way, useReached, there]
    dsimp only
    rw [Run.bind_apply, forceWithin_of_finding known]
    rfl
  · subst own
    obtain ⟨entry, field⟩ := Store.field_of_source there
    have closed : (later.store.get id).fields?.isSome := by
      obtain ⟨registry, fields, -⟩ := Option.bind_eq_some_iff.1 field
      rw [fields]
      rfl
    show (if (later.store.get id).fields?.isSome then _ else _ : Run Analysis) asking later = _
    rw [if_pos closed, Run.bind_apply, readFieldWith?_apply, field]
    dsimp only
    rw [Run.bind_apply, forceWithin_of_finding known]
    rfl
  · subst own
    obtain ⟨entry, field⟩ := Store.field_of_source there
    show readFieldWith? _ id (.symbol builtin) wanted asking later = _
    rw [readFieldWith?_apply, field]
    dsimp only
    rw [Run.bind_apply, forceWithin_of_finding known]
    rfl

/-- A name is defined as a key; after it has been looked into, it is this key also where nothing is
asked for, in another block and with something told in between. -/
theorem found_for_good_key :
    let pos : Position := .start "t"
    let source : List Tree := [.leaf pos (.identifier .access "a")]
    let s : State := ⟨(Store.empty.begin pos [] ⟨[("x", ⟨pos, source, []⟩)]⟩).2, .new 7⟩
    let thunk : Thunk := ⟨source, pos, [0]⟩
    let found : Forced := ⟨.key (.string "a"), .stringKey "a"⟩
    let mid : State := ⟨(s.store.newBlock.2.record []).keep 0 (.definition "x") found, .new 7⟩
    let later : State := ({ mid with store := mid.store.record [.error pos .emptyExpression] } :
      State).inNewBlock
    forceWithin 1 0 (.definition "x") thunk .key .start s = (.done found, mid) ∧
      resolveWith (forceWithin 1) pos "x" .void [0] ⟨[], [0], []⟩ later =
        (.done found.analysis, later) := by
  intro pos source s thunk found mid later
  have forced : forceWithin 1 0 (.definition "x") thunk .key .start s = (.done found, mid) := by
    show forceBy (analyzeWith (forceWithin 0)) 0 (.definition "x") thunk .key .start s = _
    have analyzed : analyzeWith (forceWithin 0) thunk.scope .key thunk.pos thunk.nodes =
        Run.deferred (.makeKey (.string "a")) pos (.stringKey "a") := by
      rw [analyzeWith_of_ne_ast _ _ (by simp), show Tree.solid thunk.nodes = source from rfl]
      simp only [source, analyzeHeadWith, literal?, analyzeBaseWith, analyzeSuffixesWith]
      rfl
    rw [forceBy_apply, show (s.store.get 0).findings.get? (.definition "x") = none from rfl]
    dsimp only
    rw [if_neg (by simp [Context.start]), Run.bind_apply, workOut_apply, findOut, analyzed]
    rfl
  have since : mid.Later later := (Relation.ReflTransGen.single (.told mid _)).tail (.newBlock _)
  exact ⟨forced, (found_for_good rfl forced since 0 ⟨[], [0], []⟩ pos .void).1 [0] "x" rfl⟩

end NamespaceLang

import NamespaceLang.Proofs.Analysis.Fields

/-!
# From a call to the end of the run

What is known of a namespace when a call ends is known when the run ends. A
namespace whose body is being read has no fields while the call lasts; it may
have been given them by the end of the run.
-/

set_option autoImplicit false

namespace NamespaceLang

/-- The same definitions, and the same fields once there are any. -/
structure Namespace.Becomes (own later : Namespace) : Prop where
  definitions : later.definitions = own.definitions
  fields : ∀ registry, own.fields? = some registry → later.fields? = some registry

theorem Namespace.Learns.becomes {own later : Namespace} (h : own.Learns later) :
    own.Becomes later := ⟨h.definitions, fun _ hr => h.fields.trans hr⟩

namespace Store

structure Becomes (s later : Store) : Prop where
  size : s.size ≤ later.size
  each : ∀ id < s.size, (s.get id).Becomes (later.get id)

theorem Learns.becomes {s later : Store} (h : s.Learns later) : s.Becomes later :=
  ⟨h.size, fun id hid => (h.each id hid).becomes⟩

namespace Becomes

variable {s mid later : Store}

theorem refl (s : Store) : s.Becomes s := (Learns.refl s).becomes

theorem trans (h : s.Becomes mid) (h' : mid.Becomes later) : s.Becomes later where
  size := Nat.le_trans h.size h'.size
  each id hid := by
    have before := h.each id hid
    have after := h'.each id (Nat.lt_of_lt_of_le hid h.size)
    exact ⟨after.definitions.trans before.definitions, fun registry hr =>
      after.fields registry (before.fields registry hr)⟩

theorem finish (s : Store) {id : NamespaceId} (blank : (s.get id).fields? = none)
    (registry : Registry) : s.Becomes (s.finish id registry) where
  size := Nat.le_of_eq (s.size_modify id _).symm
  each other hid := by
    rw [Store.finish, get_modify]
    split
    · next same =>
      obtain ⟨rfl, -⟩ := same
      exact ⟨rfl, fun registry hr => by rw [blank] at hr; cases hr⟩
    · exact ⟨rfl, fun _ hr => hr⟩

theorem keep (s : Store) (id : NamespaceId) (binding : Binding) (found : Forced) :
    s.Becomes (s.keep id binding found) where
  size := Nat.le_of_eq (s.size_modify id _).symm
  each other hid := by
    rw [Store.keep, get_modify]
    split
    · exact ⟨rfl, fun _ hr => hr⟩
    · exact ⟨rfl, fun _ hr => hr⟩

theorem change {c : Change} (allowed : s.Allows c) : s.Becomes (s.change c) := by
  cases c with
  | tell found => exact (Learns.record s found).becomes
  | takeBlock => exact (Learns.newBlock s).becomes
  | turnTo told nextBlock => exact ⟨Nat.le_refl _, fun id _ => ⟨rfl, fun _ hr => hr⟩⟩
  | begin pos outer definitions => exact (Learns.begin s pos outer definitions).becomes
  | evaluate b => exact .refl s
  | finish b list id =>
    rw [Store.change]
    split
    · exact .finish s allowed _
    · exact .refl s
  | keep id binding found => exact .keep s id binding found

theorem binds? (h : s.Becomes later) {name : String} {id : NamespaceId} {binding : Binding}
    (bound : s.binds? name id = some binding) : later.binds? name id = some binding := by
  by_cases begun : id < s.size
  · obtain ⟨definitions, fields⟩ := h.each id begun
    unfold Store.binds? at bound ⊢
    rw [definitions]
    split at bound
    · next defined => rw [if_pos defined, bound]
    · next undefined =>
      rw [if_neg undefined]
      split at bound
      · next there =>
        obtain ⟨registry, hr, hf⟩ := Option.bind_eq_some_iff.1 (Option.some_get there).symm
        have kept : (later.get id).field? (.string name) = registry.get? (.string name) := by
          rw [Namespace.field?, fields registry hr, Option.bind_some]
        rw [kept, hf, ← bound]
        rfl
      · cases bound
  · rw [Store.binds?, get_of_size_le (Nat.not_lt.1 begun)] at bound
    cases bound

/-- A namespace that does not bind a name comes to bind it if and only if its body is being read and
has a field of the name. -/
theorem binds?_none (h : s.Becomes later) {name : String} {id : NamespaceId} (begun : id < s.size)
    (unbound : s.binds? name id = none) :
    later.binds? name id = none ↔
      ((s.get id).fields? = none → (later.get id).field? (.string name) = none) := by
  obtain ⟨definitions, fields⟩ := h.each id begun
  unfold Store.binds? at unbound ⊢
  rw [definitions]
  split at unbound
  · cases unbound
  · next undefined =>
    rw [if_neg undefined]
    split at unbound
    · cases unbound
    · next absent =>
      constructor
      · intro none_yet _
        split at none_yet
        · cases none_yet
        · next absent => exact Option.not_isSome_iff_eq_none.1 absent
      · intro later_none
        refine if_neg fun there => ?_
        cases hf : (s.get id).fields? with
        | none =>
          rw [later_none hf] at there
          cases there
        | some registry =>
          rw [Namespace.field?, fields registry hf, Option.bind_some] at there
          rw [Namespace.field?, hf, Option.bind_some] at absent
          exact absent there

end Becomes

theorem Develops.becomes {s later : Store} (h : s.Develops later) : s.Becomes later := by
  obtain ⟨cs, allowed, rfl⟩ := h
  exact changes_induction .refl (fun _ _ _ => .trans) (fun _ _ => .change) allowed

end Store

theorem Run.bind_develops {α β : Type} {act : Run β} {next : β → Run α} {ctx : Context} {s : State}
    (h : ∀ b mid, act ctx s = (.done b, mid) → mid.store.Develops (next b ctx mid).2.store) :
    (act ctx s).2.store.Develops ((act >>= next) ctx s).2.store := by
  rw [Run.bind_apply]
  rcases hr : act ctx s with ⟨b | d | _, mid⟩
  · exact h b mid hr
  · exact .refl _
  · exact .refl _

theorem Moment.develops (m : Moment) : m.state.store.Develops m.run.2.store :=
  (Moment.minds m).develops

theorem Task.develops (depth : Nat) (t : Task) {ctx : Context} {s after : State}
    {o : Outcome t.Result} (h : t.run (forceWithin depth) ctx s = (o, after)) :
    s.store.Develops after.store := by
  have ended : (⟨depth, t, ctx, s⟩ : Moment).run.2 = after := congrArg Prod.snd h
  exact ended ▸ Moment.develops ⟨depth, t, ctx, s⟩

namespace Leads

theorem access_develops {depth : Nat} {scope : Scope} {left : Analysis} {pos : Position}
    {sigil : Sigil} {name : String} {ctx : Context} {s : State} {id : NamespaceId}
    {entry : FieldEntry} (named : sigil = .plain ∨ sigil = .access)
    (there : accessed? s.store left name = some (id, entry)) :
    (forceWithin depth id (.field (.string name)) entry.thunk .unknown
      (ctx.holding left.namespaces) s).2.store.Develops
      (Moment.run ⟨depth, .suffix scope left (.leaf pos (.identifier sigil name)), ctx, s⟩).2.store := by
  have reads : (Task.suffix scope left (.leaf pos (.identifier sigil name))).run
      (forceWithin depth) = accessWith (forceWithin depth) left pos name := by
    obtain rfl | rfl := named <;> rfl
  rw [Moment.run, reads]
  unfold accessed? at there
  split at there
  · next declared shape =>
    obtain ⟨own, hf, same⟩ := Option.map_eq_some_iff.1 there
    cases same
    have closed : (s.store.get id).fields?.isSome := by
      obtain ⟨registry, hr, -⟩ := Option.bind_eq_some_iff.1 hf
      rw [hr]
      rfl
    unfold accessWith
    rw [shape]
    show Store.Develops _ ((if (s.store.get id).fields?.isSome then _ else _ : Run Analysis) _ s).2.store
    rw [if_pos closed]
    have read : (forceWithin depth id (.field (.string name)) entry.thunk .unknown
        (ctx.holding left.namespaces) s).2.store.Develops
        (readFieldWith? (forceWithin depth) id (.string name) .unknown
          (ctx.holding left.namespaces) s).2.store := by
      rw [readFieldWith?_apply, hf]
      exact Run.bind_develops fun _ _ _ => .refl _
    refine read.trans (Run.bind_develops fun found? mid _ => ?_)
    cases found? with
    | some found => exact .refl _
    | none => exact .refl _
  · cases there

theorem finished_develops {ends : Prop} {more : Op → Bool} {ctx inner : Context} {s : State}
    {outer : Scope} {pos : Position} {body : Body} {found : List Diagnostic} {list : InstrRef}
    {r : Outcome Registry × State} (h : Keeps ends more inner (s.declaring ctx outer pos body found) r)
    (built : ∀ registry after, r = (.done registry, after) → after.block.fields? list = some registry) :
    r.2.store.Develops (match s.leaving r with
      | (.done registry, after) =>
        (.done s.store.size, { after with store := after.store.finish s.store.size registry })
      | (.failed d, after) => (.failed d, after)
      | (.exhausted, after) => (.exhausted, after) : Outcome NamespaceId × State).2.store := by
  have blank := State.declaring_open h.learns
  rcases r with ⟨registry | d | _, after⟩
  · exact .finish _ blank (built registry after rfl)
  · exact .refl _
  · exact .refl _

theorem lines_develops {depth : Nat} {outer : Scope} {pos : Position} {nodes : List Tree}
    {ctx : Context} {s : State} {body : Body} {found : List Diagnostic}
    (read : Body.read pos nodes = .ok (body, found)) :
    (declareLinesWith (forceWithin depth) (s.store.size :: outer) s.fieldList body.lines
      (ctx.holding [s.store.size]) (s.declaring ctx outer pos body found)).2.store.Develops
      (declareWith (forceWithin depth) outer pos nodes ctx s).2.store := by
  rw [declareWith_apply, read]
  have fields : ∀ mid, Keeps False (fun _ => true) (ctx.holding [s.store.size]) mid
      (fieldsOf pos s.fieldList (ctx.holding [s.store.size]) mid) :=
    fun _ => .bind .evaluate fun _ _ _ => .ofExcept _
  have lines := Moment.minds ⟨depth, .lines (s.store.size :: outer) s.fieldList body.lines,
    ctx.holding [s.store.size], s.declaring ctx outer pos body found⟩
  refine .trans (Run.bind_develops fun _ mid _ => (fields mid).develops) ?_
  exact finished_develops (lines.thenFields pos s.fieldList) fun _ _ => fieldsOf_built

theorem argument_develops {depth : Nat} {scope : Scope} {left : Analysis} {pos : Position}
    {opening closing : String} {items : List Tree} {ctx : Context} {s : State} {slot ret : Shape}
    (called : left.shape = .function slot ret) (given : slot ≠ .void ∨ Tree.trim items ≠ []) :
    (analyzeWith (forceWithin depth) scope slot pos items (ctx.holding left.namespaces)
      s).2.store.Develops
      (Moment.run ⟨depth, .suffix scope left (.group pos (.block .code opening closing) items), ctx,
        s⟩).2.store := by
  show Store.Develops _
    (call pos left (argumentWith (forceWithin depth) scope pos items) ctx s).2.store
  unfold call
  rw [called]
  dsimp only
  rw [argumentWith_given _ _ pos given]
  show Store.Develops (Run.holding left.namespaces
    (analyzeWith (forceWithin depth) scope slot pos items) ctx s).2.store _
  refine Run.bind_develops fun given mid _ => ?_
  exact Keeps.develops (.called (fun _ _ => rfl) pos left.value given.value ret :
    Keeps False (fun _ => true) ctx mid _)

theorem line_develops {depth : Nat} {scope : Scope} {list : InstrRef} {line : Line}
    {rest : List Line} {ctx : Context} {s : State} :
    (declareLineWith (forceWithin depth) scope list line ctx s).2.store.Develops
      (declareLinesWith (forceWithin depth) scope list (line :: rest) ctx s).2.store := by
  rw [declareLinesWith.eq_def]
  dsimp only
  refine Store.Develops.trans ?_ (Run.bind_develops fun _ mid _ =>
    Moment.develops ⟨depth, .lines scope list rest, ctx, mid⟩)
  rw [Run.attempt_eq_tell]
  rcases declareLineWith (forceWithin depth) scope list line ctx s with ⟨_ | d | _, after⟩
  · exact .refl _
  · exact .record _ _
  · exact .refl _

theorem source_develops {depth : Nat} {id : NamespaceId} {binding : Binding} {thunk : Thunk}
    {slot : Shape} {ctx : Context} {s : State}
    (first : (s.store.get id).findings.get? binding = none) (entered : (id, binding) ∉ ctx.forcing) :
    (analyzeWith (forceWithin depth) thunk.scope slot thunk.pos thunk.nodes
      (ctx.inside id binding thunk.pos) s.inNewBlock).2.store.Develops
      (forceBy (analyzeWith (forceWithin depth)) id binding thunk slot ctx s).2.store := by
  rw [forceBy_apply, first]
  dsimp only
  rw [if_neg entered]
  refine Store.Develops.trans ?_ (Run.bind_develops fun found mid worked => ?_)
  · show Store.Develops _ ((analyzeWith (forceWithin depth) thunk.scope slot thunk.pos thunk.nodes >>=
      _ : Run Forced) (ctx.inside id binding thunk.pos) s.inNewBlock).2.store
    refine Run.bind_develops fun found mid _ => ?_
    have finds : Keeps False (fun _ => true) (ctx.inside id binding thunk.pos) mid ((do
        let results ← Run.evaluate
        let value ← Run.ofExcept (results.resolve thunk.pos found.value)
        return (⟨value, found.shape⟩ : Forced)) (ctx.inside id binding thunk.pos) mid) :=
      .bind .evaluate fun _ _ _ => .bind (.ofExcept _) fun _ _ _ => .done _
    exact finds.develops
  · -- Nothing has been kept about the binding while its own source was worked out.
    have inner : Keeps _ (fun _ => true) (ctx.inside id binding thunk.pos) s _ :=
      .workOut (Moment.minds ⟨depth, .expression thunk.scope slot thunk.pos thunk.nodes,
        ctx.inside id binding thunk.pos, s.inNewBlock⟩)
    have still := inner.untouched (id, binding) List.mem_cons_self
    rw [worked] at still
    exact .keep _ (still.trans first) found

/-- Where a call ends, the one that it comes from goes on to its own end. -/
theorem develops {m next : Moment} (h : Leads m next) : next.run.2.store.Develops m.run.2.store := by
  cases h with
  | @literal depth scope slot pos nodes ctx s l kept head =>
    show Store.Develops _ (analyzeWith _ _ _ _ _ ctx s).2.store
    rw [analyzeWith_of_ne_ast _ _ kept, analyzeHeadWith_literal _ _ _ _ head]
    exact Run.bind_develops fun id mid _ => Moment.develops ⟨depth,
      .suffixes scope (.ofNamespace (.declared id)) l.rest, ctx, mid.pushed .comptimeOnly l.start⟩
  | afterLiteral kept head before =>
    show Store.Develops _ (analyzeWith _ _ _ _ _ _ _).2.store
    rw [analyzeWith_of_ne_ast _ _ kept, analyzeHeadWith_literal _ _ _ _ head, Run.bind_apply, before]
    exact .refl _
  | @base depth scope _ _ _ ctx _ _ rest kept head items =>
    show Store.Develops _ (analyzeWith _ _ _ _ _ _ _).2.store
    rw [items] at head
    rw [analyzeWith_of_ne_ast _ _ kept, items, analyzeHeadWith_base _ _ _ _ head]
    exact Run.bind_develops fun base mid _ => Moment.develops ⟨depth, .suffixes scope base rest, ctx, mid⟩
  | afterBase kept head items before =>
    show Store.Develops _ (analyzeWith _ _ _ _ _ _ _).2.store
    rw [items] at head
    rw [analyzeWith_of_ne_ast _ _ kept, items, analyzeHeadWith_base _ _ _ _ head, Run.bind_apply, before]
    exact .refl _
  | code =>
    rw [Moment.run, Moment.run, Task.run, Task.run, analyzeBaseWith.eq_def]
    exact .refl _
  | name =>
    rw [Moment.run, Moment.run, Task.run, Task.run, analyzeBaseWith.eq_def]
    exact .refl _
  | @suffix depth scope left node rest ctx s =>
    show Store.Develops _ (analyzeSuffixesWith _ _ _ _ ctx s).2.store
    rw [analyzeSuffixesWith_cons]
    exact Run.bind_develops fun next mid _ => Moment.develops ⟨depth, .suffixes scope next rest, ctx, mid⟩
  | afterSuffix before =>
    show Store.Develops _ (analyzeSuffixesWith _ _ _ _ _ _).2.store
    rw [analyzeSuffixesWith_cons, Run.bind_apply, before]
    exact .refl _
  | access named there => exact access_develops named there
  | argument called given => exact argument_develops called given
  | lines read => exact lines_develops read
  | line => exact line_develops
  | afterLine before =>
    show Store.Develops _ (declareLinesWith _ _ _ _ _ _).2.store
    rw [declareLinesWith.eq_def]
    dsimp only
    rw [Run.bind_apply, before]
    exact .refl _
  | whole read =>
    show Store.Develops _ (declareLineWith _ _ _ _ _ _).2.store
    rw [declareLineWith_apply, read]
    exact Run.bind_develops fun _ _ _ => .refl _
  | key read =>
    show Store.Develops _ (declareLineWith _ _ _ _ _ _).2.store
    rw [declareLineWith_apply, read]
    refine Run.bind_develops fun key mid _ => ?_
    exact Keeps.develops (.declareUnder (fun _ => rfl) _ _ _ key :
      Keeps False (fun _ => true) _ mid _)
  | @reached depth scope slot pos name ctx s id binding thunk way source =>
    show Store.Develops _ (resolveWith _ _ _ _ _ _ _).2.store
    rw [resolveWith_apply, way, useReached, source]
    exact Run.bind_develops fun _ _ _ => .refl _
  | source first entered => exact source_develops first entered

theorem develops_before {m next : Moment} (h : Leads m next) :
    m.state.store.Develops next.state.store := by
  cases h with
  | @afterLiteral depth scope _ _ _ _ _ l _ _ _ _ before =>
    have developed := Task.develops depth (.body scope l.pos l.body) before
    exact developed
  | @afterBase depth scope _ _ _ _ _ first _ _ _ _ _ _ before =>
    exact Task.develops depth (.base scope _ first) before
  | @afterSuffix depth scope left node _ _ _ _ _ before =>
    exact Task.develops depth (.suffix scope left node) before
  | @afterLine depth scope list line _ ctx s mid before =>
    have kept := (Moment.minds ⟨depth, .line scope list line, ctx, s⟩).attempt
    have ended : (Run.attempt (declareLineWith (forceWithin depth) scope list line) ctx s).2 = mid :=
      congrArg Prod.snd before
    exact ended ▸ kept.develops
  | lines read => exact ((Store.Develops.record _ _).trans (.begin _ _ _ _)).trans (.newBlock _)
  | source => exact .newBlock _
  | _ => exact .refl _

theorem becomes {m next : Moment} (h : Leads m next) : next.run.2.store.Becomes m.run.2.store :=
  h.develops.becomes

end Leads

end NamespaceLang

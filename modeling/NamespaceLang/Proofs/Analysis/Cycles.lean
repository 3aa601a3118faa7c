import NamespaceLang.Proofs.Termination

/-!
# Dependency cycles

A binding that is reached while it is being looked into is told as a cycle. The
message is put together from the labels of the trace, where bindings of one
name in different namespaces look the same: it goes round from the innermost
binding of that label, which need not be the one that was reached again.
-/

set_option autoImplicit false

namespace NamespaceLang

theorem fromLast_eq_none {a : String} {labels : List String} (h : a ∉ labels) :
    fromLast a labels = none := by
  induction labels with
  | nil => rfl
  | cons b rest ih =>
    have other : b ≠ a := fun same => h (same ▸ List.mem_cons_self)
    rw [fromLast, ih fun later => h (List.mem_cons_of_mem b later)]
    exact if_neg other

theorem fromLast_append {a : String} {after : List String} (h : a ∉ after) (before : List String) :
    fromLast a (before ++ a :: after) = some (a :: after) := by
  induction before with
  | nil =>
    rw [List.nil_append, fromLast, fromLast_eq_none h]
    exact if_pos rfl
  | cons b rest ih => rw [List.cons_append, fromLast, ih]

theorem isPrefixOf?_append {α : Type} [BEq α] [LawfulBEq α] (mark rest : List α) :
    mark.isPrefixOf? (mark ++ rest) = some rest := by
  induction mark with
  | nil => rfl
  | cons a mark ih => simp [List.isPrefixOf?, ih]

def unmarked? (label : String) : Option String :=
  (forceMark.toList.isPrefixOf? label.toList).map String.ofList

theorem unmarked?_mark (label : String) : unmarked? (forceMark ++ label) = some label := by
  rw [unmarked?, String.toList_append, isPrefixOf?_append, Option.map_some, String.ofList_toList]

theorem filterMap_unmarked? (labels : List String) :
    (labels.map (forceMark ++ ·)).filterMap unmarked? = labels := by
  induction labels with
  | nil => rfl
  | cons label rest ih => rw [List.map_cons, List.filterMap_cons_some (unmarked?_mark label), ih]

theorem mark_injective {a b : String} (h : forceMark ++ a = forceMark ++ b) : a = b := by
  have both := congrArg unmarked? h
  rw [unmarked?_mark, unmarked?_mark] at both
  exact Option.some.inj both

theorem splits_at {α : Type} [DecidableEq α] {a : α} {list : List α} (h : a ∈ list) :
    ∃ outer, list = list.takeWhile (· ≠ a) ++ a :: outer := by
  induction list with
  | nil => cases h
  | cons b rest ih =>
    by_cases here : b = a
    · exact ⟨rest, by simp [here]⟩
    · obtain ⟨outer, there⟩ := ih ((List.mem_cons.1 h).resolve_left (Ne.symm here))
      refine ⟨outer, ?_⟩
      rw [List.takeWhile_cons_of_pos (by simpa using here), List.cons_append, ← there]

theorem exists_first {α β : Type} [DecidableEq α] [DecidableEq β] {f : α → β} {b : β}
    {list : List α} (h : ∃ a ∈ list, f a = b) :
    ∃ a ∈ list, f a = b ∧ ∀ c ∈ list.takeWhile (· ≠ a), f c ≠ b := by
  induction list with
  | nil =>
    obtain ⟨a, hm, -⟩ := h
    cases hm
  | cons c rest ih =>
    by_cases here : f c = b
    · exact ⟨c, List.mem_cons_self, here, by simp⟩
    · obtain ⟨a, hm, image⟩ := h
      have later : a ∈ rest := (List.mem_cons.1 hm).resolve_left fun same => here (same ▸ image)
      obtain ⟨a, hm, image, first⟩ := ih ⟨a, later, image⟩
      refine ⟨a, List.mem_cons_of_mem c hm, image, ?_⟩
      have other : c ≠ a := fun same => here (same ▸ image)
      rw [List.takeWhile_cons_of_pos (by simpa using other)]
      exact List.forall_mem_cons.2 ⟨here, first⟩

namespace Context

/-- The labels of the bindings that are being looked into, outermost first. -/
def forcedLabels (ctx : Context) : List String := (ctx.forcing.map (·.2.label)).reverse

def Traced (ctx : Context) : Prop :=
  ∃ before, ctx.trace.map (·.label) = before ++ ctx.forcedLabels.map (forceMark ++ ·)

/-- The labels from a binding that is being looked into to the innermost one, and that of the
binding again. -/
def round (ctx : Context) (id : NamespaceId) (binding : Binding) : List String :=
  let inner := ctx.forcing.takeWhile (· ≠ (id, binding))
  binding.label :: (inner.map (·.2.label)).reverse ++ [binding.label]

theorem cycleLabels_eq {ctx : Context} (traced : ctx.Traced) {label : String}
    {inner outer : List String} (labels : ctx.forcedLabels = outer ++ label :: inner)
    (last : label ∉ inner) : cycleLabels ctx.trace label = label :: inner ++ [label] := by
  obtain ⟨before, trace⟩ := traced
  have unlike : forceMark ++ label ∉ inner.map (forceMark ++ ·) := by
    intro there
    obtain ⟨other, hm, same⟩ := List.mem_map.1 there
    exact last (mark_injective same ▸ hm)
  have found := fromLast_append unlike (before ++ outer.map (forceMark ++ ·))
  have whole : ctx.trace.map (·.label) = before ++ outer.map (forceMark ++ ·) ++
      (forceMark ++ label) :: inner.map (forceMark ++ ·) := by
    rw [trace, labels, List.map_append, List.map_cons, List.append_assoc]
  rw [cycleLabels, whole, found, Option.getD_some]
  show ((label :: inner).map (forceMark ++ ·)).filterMap unmarked? ++ [label] = _
  rw [filterMap_unmarked?]

theorem cycleLabels_eq_round {ctx : Context} (traced : ctx.Traced) {p : NamespaceId × Binding}
    (entered : p ∈ ctx.forcing)
    (innermost : ∀ q ∈ ctx.forcing.takeWhile (· ≠ p), q.2.label ≠ p.2.label) :
    cycleLabels ctx.trace p.2.label = ctx.round p.1 p.2 := by
  obtain ⟨outer, forcing⟩ := splits_at entered
  have labels : ctx.forcedLabels = (outer.map (·.2.label)).reverse ++
      p.2.label :: ((ctx.forcing.takeWhile (· ≠ p)).map (·.2.label)).reverse := by
    rw [forcedLabels]
    conv_lhs => rw [forcing, List.map_append, List.reverse_append]
    simp
  refine cycleLabels_eq traced labels ?_
  rw [List.mem_reverse]
  intro there
  obtain ⟨q, hq, same⟩ := List.mem_map.1 there
  exact innermost q hq same

theorem exists_round {ctx : Context} (traced : ctx.Traced) {p : NamespaceId × Binding}
    (entered : p ∈ ctx.forcing) :
    ∃ q ∈ ctx.forcing, q.2.label = p.2.label ∧
      (∀ r ∈ ctx.forcing.takeWhile (· ≠ q), r.2.label ≠ p.2.label) ∧
      cycleLabels ctx.trace p.2.label = ctx.round q.1 q.2 := by
  obtain ⟨q, hq, same, first⟩ :=
    exists_first (f := fun q : NamespaceId × Binding => q.2.label) ⟨p, entered, rfl⟩
  refine ⟨q, hq, same, first, ?_⟩
  rw [← same]
  exact cycleLabels_eq_round traced hq (by rwa [same])

theorem length_round (ctx : Context) (p : NamespaceId × Binding) :
    (ctx.round p.1 p.2).length = (ctx.forcing.takeWhile (· ≠ p)).length + 2 := by
  simp [round]

/-- The message tells the round of the binding that was reached again unless a binding that was
come to later has its label: then what it tells is shorter. -/
theorem cycleLabels_eq_round_iff {ctx : Context} (traced : ctx.Traced)
    {p : NamespaceId × Binding} (entered : p ∈ ctx.forcing) :
    cycleLabels ctx.trace p.2.label = ctx.round p.1 p.2 ↔
      ∀ q ∈ ctx.forcing.takeWhile (· ≠ p), q.2.label ≠ p.2.label := by
  refine ⟨fun told => ?_, cycleLabels_eq_round traced entered⟩
  obtain ⟨q, hq, -, first, round⟩ := exists_round traced entered
  have lengths := congrArg List.length (round.symm.trans told)
  rw [length_round, length_round, Nat.add_right_cancel_iff] at lengths
  -- two ways in that are equally long are one way, to one binding
  obtain ⟨outer, way⟩ := splits_at hq
  obtain ⟨outer', way'⟩ := splits_at entered
  have same := (List.append_inj (way.symm.trans way') lengths).1
  rwa [← same]

theorem Traced.inside {ctx : Context} (h : ctx.Traced) (id : NamespaceId) (binding : Binding)
    (pos : Position) : (ctx.inside id binding pos).Traced := by
  obtain ⟨before, trace⟩ := h
  refine ⟨before, ?_⟩
  simp only [Context.inside, forcedLabels, List.map_append, List.map_cons, List.map_nil, trace,
    List.reverse_cons, List.append_assoc]

end Context

/-- The trace tells of the bindings that are being looked into, and nothing is known about them. -/
structure Moment.Entered (m : Moment) : Prop where
  traced : m.ctx.Traced
  unknown : ∀ p ∈ m.ctx.forcing, (m.state.store.get p.1).findings.get? p.2 = none

theorem Leads.entered {m next : Moment} (h : m.Entered) (leads : Leads m next) : next.Entered := by
  have same := leads.keeps.2
  rcases leads.context with ⟨ids, ctx⟩ | ⟨id, binding, thunk, _, -, -, ctx, state, -, first⟩
  · constructor
    · rw [ctx]
      exact h.traced
    · intro p hp
      rw [ctx] at hp
      rw [same p hp, h.unknown p hp]
  · constructor
    · rw [ctx]
      exact h.traced.inside id binding thunk.pos
    · intro p hp
      rw [ctx] at hp
      rcases List.mem_cons.1 hp with rfl | hp
      · rw [state]
        exact first
      · rw [same p hp, h.unknown p hp]

theorem Opens.entered {label : String} {text : List Char} {m : Moment} (h : Opens label text m) :
    m.Entered := by
  cases h with
  | body => exact ⟨⟨[], rfl⟩, fun p hp => by cases hp⟩
  | entry => exact ⟨⟨["entry point"], rfl⟩, fun p hp => by cases hp⟩

theorem Happens.entered {label : String} {text : List Char} {m : Moment}
    (h : Happens label text m) : m.Entered :=
  h.invariant (fun _ => Opens.entered) fun _ _ => Leads.entered

/-- The call fails with a cycle that has come up in itself, and not in a call that it has made. -/
def Moment.TellsCycle (m : Moment) (labels : List String) : Prop :=
  ∃ d, m.run.1 = .failed d ∧ d.cause? = some (.dependencyCycle labels) ∧ d.trace = m.ctx.trace

theorem workOut_failed {depth : Nat} {thunk : Thunk} {slot : Shape} {ctx : Context}
    {s after : State} {d : Diagnostic}
    (h : workOut (analyzeWith (forceWithin depth)) thunk slot ctx s = (.failed d, after)) :
    ctx.trace <+: d.trace := by
  have kept : Keeps _ (fun _ => true) ctx s (workOut (analyzeWith (forceWithin depth)) thunk slot
    ctx s) :=
    .workOut (Moment.minds ⟨depth, .expression thunk.scope slot thunk.pos thunk.nodes, ctx,
      s.inNewBlock⟩)
  exact kept.failed d (congrArg Prod.fst h)

/-- Looking into a binding tells a cycle itself if and only if it is being looked into already. -/
theorem force_tellsCycle {depth : Nat} {id : NamespaceId} {binding : Binding} {thunk : Thunk}
    {slot : Shape} {ctx : Context} {s : State}
    (entered : Moment.Entered ⟨depth + 1, .force id binding thunk slot, ctx, s⟩)
    (labels : List String) :
    Moment.TellsCycle ⟨depth + 1, .force id binding thunk slot, ctx, s⟩ labels ↔
      (id, binding) ∈ ctx.forcing ∧ labels = cycleLabels ctx.trace binding.label := by
  have run : Moment.run ⟨depth + 1, .force id binding thunk slot, ctx, s⟩ = _ :=
    forceBy_apply ctx s (analyzeWith (forceWithin depth)) id binding thunk slot
  by_cases there : (id, binding) ∈ ctx.forcing
  · have first := entered.unknown (id, binding) there
    dsimp only at first
    rw [first] at run
    dsimp only at run
    rw [if_pos there] at run
    constructor
    · rintro ⟨d, failed, cause, -⟩
      rw [run] at failed
      cases failed
      cases cause
      exact ⟨there, rfl⟩
    · rintro ⟨-, rfl⟩
      exact ⟨_, congrArg Prod.fst run, rfl, List.append_nil _⟩
  · constructor
    · rintro ⟨d, failed, -, trace⟩
      rw [run] at failed
      cases first : (s.store.get id).findings.get? binding with
      | some found =>
        rw [first] at failed
        cases failed
      | none =>
        rw [first] at failed
        dsimp only at failed
        rw [if_neg there, Run.bind_apply] at failed
        rcases worked : workOut (analyzeWith (forceWithin depth)) thunk slot
          (ctx.inside id binding thunk.pos) s with ⟨found | own | _, after⟩
        · rw [worked] at failed
          cases failed
        · rw [worked] at failed
          cases failed
          have longer := (workOut_failed worked).length_le
          rw [show d.trace = ctx.trace from trace, Context.inside, List.length_append,
            List.length_singleton] at longer
          omega
        · rw [worked] at failed
          cases failed
    · exact fun both => absurd both.1 there

def Tree.alone? (nodes : List Tree) : Option String :=
  match solid nodes with
  | [.leaf _ (.identifier .plain name)] => some name
  | _ => none

theorem Tree.alone?_eq_some {nodes : List Tree} {name : String} (h : alone? nodes = some name) :
    ∃ pos, solid nodes = [.leaf pos (.identifier .plain name)] := by
  unfold alone? at h
  split at h
  · cases h
    exact ⟨_, ‹_›⟩
  · cases h

theorem Happens.named {label : String} {text : List Char} {depth : Nat} {id : NamespaceId}
    {binding : Binding} {thunk : Thunk} {slot : Shape} {ctx : Context} {s : State} {name : String}
    (h : Happens label text ⟨depth, .force id binding thunk slot, ctx, s⟩)
    (first : (s.store.get id).findings.get? binding = none)
    (entered : (id, binding) ∉ ctx.forcing) (kept : slot ≠ .ast)
    (alone : Tree.alone? thunk.nodes = some name) :
    ∃ pos, Happens label text ⟨depth - 1, .resolve thunk.scope slot pos name,
      ctx.inside id binding thunk.pos, s.inNewBlock⟩ := by
  have pos := h.depth_pos
  dsimp only at pos
  obtain ⟨depth, rfl⟩ := Nat.exists_eq_succ_of_ne_zero (Nat.ne_of_gt pos)
  obtain ⟨pos, solid⟩ := Tree.alone?_eq_some alone
  have expression := h.next (.source first entered)
  have plain : literal? (Tree.solid thunk.nodes) = none := by rw [solid]; simp [literal?]
  have base := expression.next (.base kept plain solid)
  exact ⟨pos, base.next .name⟩

def selfNaming : List Char := "#builtin.main := a\na :: a".toList

def Outcome.passes {α : Type} (test : α → State → Bool) : Outcome α × State → Bool
  | (.done a, after) => test a after
  | _ => false

theorem selfNaming_read : ∃ after entry source,
    declare [] (.start "t.cvl") (tokenize "t.cvl" selfNaming).nodes .start
      (.opening (tokenize "t.cvl" selfNaming).diagnostics) = (.done 0, after) ∧
    (after.store.get 0).field? (.symbol .main) = some entry ∧
    after.store.source? 0 (.definition "a") = some source ∧
    (after.store.get 0).findings.entries = [] ∧ after.store.binds? "a" 0 = some (.definition "a") ∧
    (Tree.alone? entry.thunk.nodes = some "a" ∧ entry.thunk.scope = [0]) ∧
    Tree.alone? source.nodes = some "a" ∧ source.scope = [0] := by
  have facts : ∀ r, declare [] (.start "t.cvl") (tokenize "t.cvl" selfNaming).nodes .start
      (.opening (tokenize "t.cvl" selfNaming).diagnostics) = r →
      Outcome.passes (fun root after => decide (root = 0 ∧
        ((after.store.get 0).field? (.symbol .main)).map
          (fun e => (Tree.alone? e.thunk.nodes, e.thunk.scope)) = some (some "a", [0]) ∧
        (after.store.source? 0 (.definition "a")).map
          (fun t => (Tree.alone? t.nodes, t.scope)) = some (some "a", [0]) ∧
        (after.store.get 0).findings.entries.length = 0 ∧
        after.store.binds? "a" 0 = some (.definition "a"))) r = true := by
    rintro r rfl
    decide +kernel
  generalize declare [] (.start "t.cvl") (tokenize "t.cvl" selfNaming).nodes .start
    (.opening (tokenize "t.cvl" selfNaming).diagnostics) = r at facts
  specialize facts r rfl
  rcases r with ⟨root | _ | _, after⟩
  · obtain ⟨rfl, main, own, unknown, bound⟩ := of_decide_eq_true facts
    obtain ⟨entry, there, main⟩ := Option.map_eq_some_iff.1 main
    obtain ⟨source, its, own⟩ := Option.map_eq_some_iff.1 own
    exact ⟨after, entry, source, rfl, there, its, List.eq_nil_of_length_eq_zero unknown, bound,
      Prod.mk.inj main, Prod.mk.inj own⟩
  · cases facts
  · cases facts

/-- In every run, looking into a binding tells a cycle if and only if it is being looked into
already. What is told goes round from the innermost binding of its label, so that it is the round
of the binding if and only if no binding of the label has been come to since. -/
theorem cycle_told_iff_entered {label : String} {text : List Char} {depth : Nat} {id : NamespaceId}
    {binding : Binding} {thunk : Thunk} {slot : Shape} {ctx : Context} {s : State}
    (h : Happens label text ⟨depth, .force id binding thunk slot, ctx, s⟩) :
    ((∃ labels, Moment.TellsCycle ⟨depth, .force id binding thunk slot, ctx, s⟩ labels) ↔
      (id, binding) ∈ ctx.forcing) ∧
    (∀ labels, Moment.TellsCycle ⟨depth, .force id binding thunk slot, ctx, s⟩ labels →
      ∃ p ∈ ctx.forcing, p.2.label = binding.label ∧
        (∀ q ∈ ctx.forcing.takeWhile (· ≠ p), q.2.label ≠ binding.label) ∧
        labels = ctx.round p.1 p.2) ∧
    (Moment.TellsCycle ⟨depth, .force id binding thunk slot, ctx, s⟩ (ctx.round id binding) ↔
      (id, binding) ∈ ctx.forcing ∧
        ∀ q ∈ ctx.forcing.takeWhile (· ≠ (id, binding)), q.2.label ≠ binding.label) := by
  have pos := h.depth_pos
  have entered := h.entered
  dsimp only at pos
  obtain ⟨depth, rfl⟩ := Nat.exists_eq_succ_of_ne_zero (Nat.ne_of_gt pos)
  have tells := force_tellsCycle entered
  refine ⟨⟨?_, fun there => ⟨_, (tells _).2 ⟨there, rfl⟩⟩⟩, ?_, ?_⟩
  · rintro ⟨labels, told⟩
    exact ((tells labels).1 told).1
  · intro labels told
    obtain ⟨there, rfl⟩ := (tells labels).1 told
    obtain ⟨p, hp, same, first, round⟩ := Context.exists_round entered.traced there
    exact ⟨p, hp, same, first, round⟩
  · rw [tells]
    refine and_congr_right fun there => ?_
    rw [← Context.cycleLabels_eq_round_iff entered.traced there]
    exact eq_comm

/-- The cycle of a definition that stands for itself. -/
theorem cycle_told_of_self :
    ∃ depth thunk slot ctx s,
      Happens "t.cvl" selfNaming ⟨depth, .force 0 (.definition "a") thunk slot, ctx, s⟩ ∧
      Moment.TellsCycle ⟨depth, .force 0 (.definition "a") thunk slot, ctx, s⟩ ["a", "a"] := by
  obtain ⟨after, entry, source, read, main, own, unknown, bound, ⟨alone, scope⟩, alone', scope'⟩ :=
    selfNaming_read
  have way : ∀ held, after.store.reach (0 :: held) "a" [0] = .binding 0 (.definition "a") := by
    intro held
    simp [Store.reach, Store.isAlive, bound]
  have first : ∀ binding, (after.store.get 0).findings.get? binding = none := by
    intro binding
    rw [Table.get?, unknown]
    rfl
  have called : Happens "t.cvl" selfNaming _ := ⟨_, .entry read main, .refl⟩
  obtain ⟨_, named⟩ := called.named (first _) List.not_mem_nil (by simp [Shape.mainEntry]) alone
  rw [scope] at named
  have entered := named.next (.reached (way [0]) own)
  obtain ⟨_, named⟩ := entered.named (first _) (by simp [Context.inside])
    (by simp [Shape.mainEntry]) alone'
  rw [scope'] at named
  have again := named.next (.reached (way [0, 0]) own)
  exact ⟨_, _, _, _, _, again,
    (cycle_told_iff_entered again).2.2.2 ⟨List.mem_cons_self, by simp [Context.inside]⟩⟩

/-- The outer `a` is reached again, from the `x` that the inner `a` stands for; the round that is
told is that of the inner one. -/
theorem cycle_told_short :
    ∃ d ∈ (compile "t.cvl" "x :: a\na :: ns [a :: x\n.f := a].f\na".toList).diagnostics,
      d.cause? = some (.dependencyCycle ["a", "x", "a"]) ∧
      d.trace.map (·.label) = ["resolve a", "resolve .f", "resolve a", "resolve x"] ∧
      d.pos? = d.trace[0]?.map (·.pos) ∧ d.pos? ≠ d.trace[2]?.map (·.pos) := by
  decide +kernel

end NamespaceLang

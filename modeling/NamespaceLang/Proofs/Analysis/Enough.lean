import NamespaceLang.Proofs.Analysis.Spends

/-!
# There is always enough depth

A call that may look further than what is owed in the namespaces that it has to do
with, and than the nodes that it has before it are worth, does not come to its
limit; nor does any call that comes from it, as looking into a binding takes one
step of the depth and more than one of what is owed. So nothing ends early that is
asked for from outside, whatever was asked for before, and of how many texts.
-/

set_option autoImplicit false

namespace NamespaceLang

open NamespaceLang.Tree

def Task.Listed : Task → Prop
  | .body _ _ nodes => ∃ form, Arranged form nodes
  | _ => True

/-- What a call needs in order to come to its end. -/
structure Moment.Covered (m : Moment) : Prop where
  shaped : m.state.store.Shaped
  tame : m.state.store.Tame
  sourced : m.task.Sourced m.state.store
  begun : Begun m.state.store.size m.task.among
  whole : Whole m.task.nodes
  listed : m.task.Listed
  deep : m.task.Idle ∨ ∃ C, m.state.store.Encloses C ∧ (∀ id ∈ m.task.among, id ∈ C) ∧
    m.state.store.owed m.ctx.forcing C + m.task.charge < m.depth

theorem Task.spends (depth : Nat) (t : Task) {ctx : Context} {s mid : State} {o : Outcome t.Result}
    (before : t.run (forceWithin depth) ctx s = (o, mid)) (shaped : s.store.Shaped)
    (sourced : t.Sourced s.store) :
    Spends ctx.forcing t.among t.charge (Whole t.nodes) t.gives s (o, mid) :=
  before ▸ Moment.spends ⟨depth, t, ctx, s⟩ shaped sourced ctx.forcing (List.Subset.refl _)

namespace Moment.Covered

variable {depth : Nat} {task next : Task} {ctx inner : Context} {s mid after : State}

theorem into (h : Moment.Covered ⟨depth, task, ctx, s⟩) (forcing : inner.forcing = ctx.forcing)
    (idle : task.Idle → next.Idle) (sourced : next.Sourced s.store) (listed : next.Listed)
    (among : ∀ id ∈ next.among, id ∈ task.among) (charge : next.charge ≤ task.charge)
    (whole : Whole task.nodes → Whole next.nodes) : Moment.Covered ⟨depth, next, inner, s⟩ where
  shaped := h.shaped
  tame := h.tame
  sourced := sourced
  begun id hid := h.begun id (among id hid)
  whole := whole h.whole
  listed := listed
  deep := h.deep.imp idle fun ⟨C, encloses, inside, enough⟩ =>
    ⟨C, encloses, fun id hid => inside id (among id hid), by
      dsimp only at enough ⊢
      rw [forcing]
      omega⟩

theorem onward {α : Type} {among : List NamespaceId} {charge : Nat} {whole : Prop}
    {gives : α → List NamespaceId} {a : α} (h : Moment.Covered ⟨depth, task, ctx, s⟩)
    (idle : task.Idle → next.Idle)
    (spent : NamespaceLang.Spends ctx.forcing among charge whole gives s (.done a, mid))
    (store : after.store = mid.store) (shaped : after.store.Shaped)
    (sourced : next.Sourced after.store) (listed : next.Listed)
    (first : ∀ id ∈ among, id ∈ task.among)
    (then_ : ∀ id ∈ next.among, id ∈ task.among ∨ id ∈ gives a)
    (enough : charge + next.charge ≤ task.charge)
    (parts : Whole task.nodes → whole ∧ Whole next.nodes) :
    Moment.Covered ⟨depth, next, ctx, after⟩ := by
  obtain ⟨size, -, -, inside, tame⟩ := spent
  obtain ⟨tame, got⟩ := tame h.tame (parts h.whole).1 fun id hid => h.begun id (first id hid)
  constructor
  · exact shaped
  · exact store ▸ tame
  · exact sourced
  · intro id hid
    rw [store]
    exact (then_ id hid).elim (fun hid => Nat.lt_of_lt_of_le (h.begun id hid) size) (got a rfl id)
  · exact (parts h.whole).2
  · exact listed
  · refine h.deep.imp idle fun ⟨C, encloses, all, deep⟩ => ?_
    obtain ⟨D, spreads, cost, got⟩ := inside C encloses (fun id hid => all id (first id hid)) a rfl
    refine ⟨D, store ▸ spreads.encloses, fun id hid => ?_, ?_⟩
    · exact (then_ id hid).elim (fun hid => spreads.sub (all id hid)) (got id)
    · dsimp only at deep cost ⊢
      rw [store]
      omega

theorem access {scope : Scope} {left : Analysis} {node : Tree} {name : String} {id : NamespaceId}
    {entry : FieldEntry} (there : accessed? s.store left name = some (id, entry))
    (h : Moment.Covered ⟨depth, .suffix scope left node, ctx, s⟩) :
    Moment.Covered ⟨depth, .force id (.field (.string name)) entry.thunk .unknown,
      ctx.holding left.namespaces, s⟩ := by
  unfold accessed? at there
  split at there
  · next own shape =>
    obtain ⟨entry', field, same⟩ := Option.map_eq_some_iff.1 there
    cases same
    refine h.into rfl (fun idle => idle.elim) (Store.source?_field field) trivial (fun other ho => ?_)
      (Nat.zero_le _) fun _ => whole_nil
    obtain rfl := List.mem_singleton.1 ho
    exact List.mem_append_right _ (List.mem_append_right _ (by simp [shape, Shape.namespaces]))
  · cases there

theorem line {scope : Scope} {list : InstrRef} {line : Line} {rest : List Line}
    (h : Moment.Covered ⟨depth, .lines scope list (line :: rest), ctx, s⟩) :
    Moment.Covered ⟨depth, .line scope list line, ctx, s⟩ := by
  refine h.into rfl (fun idle => idle.elim) trivial trivial (fun _ => id) ?_ fun all =>
    ((whole_append line.items (linesItems rest)).1 all).1
  show weightAll line.items ≤ weightAll (linesItems (line :: rest))
  rw [linesItems_cons, weightAll_append]
  exact Nat.le_add_right _ _

theorem afterLine {scope : Scope} {list : InstrRef} {line : Line} {rest : List Line}
    (before : Run.attempt (declareLineWith (forceWithin depth) scope list line) ctx s =
      (.done (), mid))
    (shaped : mid.store.Shaped)
    (h : Moment.Covered ⟨depth, .lines scope list (line :: rest), ctx, s⟩) :
    Moment.Covered ⟨depth, .lines scope list rest, ctx, mid⟩ := by
  have spent : NamespaceLang.Spends ctx.forcing (Task.line scope list line).among
      (weightAll line.items) (Whole line.items) (fun _ => []) s
      (Run.attempt (declareLineWith (forceWithin depth) scope list line) ctx s) :=
    (Moment.spends ⟨depth, .line scope list line, ctx, s⟩ h.shaped trivial ctx.forcing
      (List.Subset.refl _)).attempt
  rw [before] at spent
  refine h.onward (fun idle => idle.elim) spent rfl shaped trivial trivial (fun _ => id)
    (fun _ => Or.inl) ?_ (whole_append line.items (linesItems rest)).1
  show weightAll line.items + weightAll (linesItems rest) ≤ weightAll (linesItems (line :: rest))
  rw [linesItems_cons, weightAll_append]

theorem lines {outer : Scope} {pos : Position} {nodes : List Tree} {body : Body}
    {found : List Diagnostic} (read : Body.read pos nodes = .ok (body, found))
    (h : Moment.Covered ⟨depth, .body outer pos nodes, ctx, s⟩) :
    Moment.Covered ⟨depth, .lines (s.store.size :: outer) s.fieldList body.lines,
      ctx.holding [s.store.size], s.declaring ctx outer pos body found⟩ := by
  have worth := Body.read_worth read
  obtain ⟨definitions, whole⟩ := worth.whole h.whole
  have inside : ∀ id ∈ outer, id ∈ (Task.body outer pos nodes).among := fun id hid =>
    List.mem_append_left _ hid
  have told : (s.store.record (found.map (·.under ctx.trace))).Tame := h.tame.congr rfl rfl
  have grown : (s.declaring ctx outer pos body found).store.size = s.store.size + 1 :=
    Store.size_begin _ _ _ _
  constructor
  · exact h.shaped.same fun id => Store.findings_begin _ _ _ _ _
  · exact (told.begin pos (fun id hid => h.begun id (inside id hid)) definitions).congr rfl rfl
  · exact trivial
  · intro id hid
    rw [grown]
    rcases List.mem_cons.1 hid with rfl | hid
    · exact Nat.lt_succ_self _
    · exact Nat.lt_succ_of_lt (h.begun id hid)
  · exact whole
  · exact trivial
  · obtain ⟨C, encloses, all, enough⟩ := h.deep.resolve_left id
    obtain ⟨spreads, cost⟩ : s.store.Spreads C (s.declaring ctx outer pos body found).store
          (insert s.store.size C) ∧
        (s.declaring ctx outer pos body found).store.owed ctx.forcing (insert s.store.size C) ≤
          s.store.owed ctx.forcing C + pricesOf body.definitions.entries :=
      Spends.declaring_among encloses outer pos body found fun id hid => all id (inside id hid)
    refine Or.inr ⟨insert s.store.size C, spreads.encloses, fun id hid => ?_, ?_⟩
    · rcases List.mem_cons.1 hid with rfl | hid
      · exact Finset.mem_insert_self _ _
      · exact Finset.mem_insert_of_mem (all id hid)
    · have light := worth.worth
      show (s.declaring ctx outer pos body found).store.owed ctx.forcing _ +
        weightAll (linesItems body.lines) < depth
      have enough : s.store.owed ctx.forcing C + weightAll nodes < depth := enough
      omega

theorem source {id : NamespaceId} {binding : Binding} {thunk : Thunk} {slot : Shape}
    (first : (s.store.get id).findings.get? binding = none) (entered : (id, binding) ∉ ctx.forcing)
    (h : Moment.Covered ⟨depth + 1, .force id binding thunk slot, ctx, s⟩) :
    Moment.Covered ⟨depth, .expression thunk.scope slot thunk.pos thunk.nodes,
      ctx.inside id binding thunk.pos, s.inNewBlock⟩ := by
  have source : s.store.source? id binding = some thunk := h.sourced
  have begun : id < s.store.size := Store.begun_of_source source
  have only : ∀ other ∈ (Task.expression thunk.scope slot thunk.pos thunk.nodes).among,
      other ∈ thunk.scope := fun other ho => by simpa [Task.among, Task.scope, Task.given] using ho
  constructor
  · exact h.shaped
  · exact h.tame.congr rfl rfl
  · exact trivial
  · exact fun other ho => Finset.mem_range.1 (h.tame.encloses.source id (Finset.mem_range.2 begun)
      binding thunk source other (only other ho))
  · exact h.tame.whole id binding thunk source
  · exact trivial
  · cases erroneous : isErroneous thunk.nodes with
    | true => exact Or.inl (isErroneous_iff.1 erroneous)
    | false =>
      obtain ⟨C, encloses, all, enough⟩ := h.deep.resolve_left fun idle => idle
      have own : id ∈ C := all id (List.mem_singleton_self id)
      have paid := Store.owed_enter own source first entered
      have less := worth_lt_price erroneous
      refine Or.inr ⟨C, encloses.congr rfl rfl, fun other ho =>
        encloses.source id own binding thunk source other (only other ho), ?_⟩
      show s.store.owed ((id, binding) :: ctx.forcing) C + worth thunk.nodes < depth
      have enough : s.store.owed ctx.forcing C + 0 < depth + 1 := enough
      omega

end Moment.Covered

theorem Leads.covered {m next : Moment} (leads : Leads m next) (h : m.Covered) : next.Covered := by
  have shaped := leads.shaped h.shaped
  have idle := leads.idle
  cases leads with
  | @literal depth scope slot pos nodes ctx s l kept head =>
    obtain ⟨less, parts⟩ := Spends.literal_worth head
    obtain ⟨_, _, group⟩ := Spends.literal_group head h.whole
    exact h.into rfl idle trivial ⟨_, ((whole_group _ _ _).1 group).1⟩ (fun _ => id)
      (Nat.le_trans (Nat.le_add_right _ _) less) fun all => (parts all).1
  | @afterLiteral depth scope slot pos nodes ctx s l own mid kept head before =>
    obtain ⟨less, parts⟩ := Spends.literal_worth head
    have spent := Task.spends depth (.body scope l.pos l.body) before h.shaped trivial
    refine h.onward idle spent rfl shaped trivial trivial (fun _ => id) (fun other ho =>
      (List.mem_append.1 ho).imp (List.mem_append_left _) fun there => ?_) less parts
    have there : other ∈ [own, own] := there
    simpa [Task.gives] using there
  | base kept head items =>
    obtain ⟨less, parts⟩ := Spends.items_worth items
    exact h.into rfl idle trivial trivial (fun _ => id) (Nat.le_trans (Nat.le_add_right _ _) less)
      fun all => (parts all).1
  | @afterBase depth scope slot pos nodes ctx s first rest base mid kept head items before =>
    obtain ⟨less, parts⟩ := Spends.items_worth items
    have spent := Task.spends depth (.base scope _ first) before h.shaped trivial
    exact h.onward idle spent rfl shaped trivial trivial (fun _ => id)
      (fun other ho => (List.mem_append.1 ho).imp (List.mem_append_left _) id) less parts
  | code => exact h.into rfl idle trivial trivial (fun _ => id) (worth_group _ _ _) Whole.items
  | name => exact h.into rfl idle trivial trivial (fun _ => id) (Nat.zero_le _) fun _ => whole_nil
  | @suffix depth scope left node rest =>
    exact h.into rfl idle trivial trivial (fun _ => id)
      (Nat.le_trans (Nat.le_add_right _ _) (worth_cons node rest))
      fun all => all.part (List.cons_subset_cons _ (List.nil_subset _))
  | @afterSuffix depth scope left node rest ctx s next mid before =>
    have spent := Task.spends depth (.suffix scope left node) before h.shaped trivial
    exact h.onward idle spent rfl shaped trivial trivial (fun _ => id)
      (fun other ho => (List.mem_append.1 ho).imp (List.mem_append_left _) id)
      (worth_cons node rest)
      fun all => ⟨all.part (List.cons_subset_cons _ (List.nil_subset _)),
        all.part (List.subset_cons_self _ _)⟩
  | access named there => exact h.access there
  | argument called given =>
    refine h.into rfl idle trivial trivial (fun other ho => List.mem_append_left _ ?_)
      (worth_group _ _ _) Whole.items
    simpa [Task.among, Task.scope, Task.given] using ho
  | lines read => exact h.lines read
  | line => exact h.line
  | afterLine before => exact h.afterLine before shaped
  | @whole depth scope list line =>
    exact h.into rfl idle trivial trivial (fun _ => id) (worth_le line.items) id
  | @key depth scope list line ctx s sides read =>
    have light := worth_le line.items
    have lighter := twoSided?_worth read
    refine h.into rfl idle trivial trivial (fun _ => id) ?_ fun all => (twoSided?_whole read all).1
    show worth sides.leftItems ≤ weightAll line.items
    omega
  | @reached depth scope slot pos name ctx s id binding thunk way source =>
    refine h.into rfl idle source trivial (fun other ho => ?_) (Nat.le_refl _)
      fun all => all
    obtain rfl := List.mem_singleton.1 ho
    exact List.mem_append_left _ (Store.mem_of_reach way)
  | source first entered => exact h.source first entered

theorem Moment.Reaches.covered {m next : Moment} (reaches : m.Reaches next) (h : m.Covered) :
    next.Covered := by
  induction reaches with
  | refl => exact h
  | tail _ leads ih => exact leads.covered ih

namespace Moment.Covered

theorem ends {m : Moment} (h : m.Covered) : m.run.1 ≠ .exhausted := by
  intro exhausted
  obtain ⟨bottom, reaches, empty, looks⟩ := (Moment.minds m).exhausted exhausted
  have deep := (Moment.Reaches.covered reaches h).deep
  rw [empty] at deep
  rcases deep with idle | ⟨C, -, -, below⟩
  · revert looks idle
    cases bottom.task <;> simp [Task.looksInto, Task.Idle]
  · exact Nat.not_lt_zero _ below

theorem reads {depth : Nat} {outer : Scope} {pos : Position} {nodes : List Tree} {ctx : Context}
    {s : State} (h : Moment.Covered ⟨depth, .body outer pos nodes, ctx, s⟩) :
    ∃ body found, Body.read pos nodes = .ok (body, found) := by
  obtain ⟨form, arranged⟩ := h.listed
  exact Body.read_of_arranged pos h.whole arranged

theorem after {m : Moment} (h : m.Covered) : m.run.2.store.Shaped ∧ m.run.2.store.Tame :=
  ⟨(m.shaped h.shaped).store, ((Moment.spends m h.shaped h.sourced m.ctx.forcing
    (List.Subset.refl _)).tame h.tame h.whole h.begun).1⟩

end Moment.Covered

/-- The nodes are the list of a file, or the items of one of its nodes. -/
def FromText (nodes : List Tree) : Prop :=
  ∃ label text, ListOf (tokenize label text).nodes nodes

theorem FromText.arranged {nodes : List Tree} (h : FromText nodes) :
    Whole nodes ∧ ∃ form, Arranged form nodes := by
  obtain ⟨label, text, list⟩ := h
  obtain ⟨arranged, whole, -⟩ := tokenize_arranged label text
  refine ⟨whole.below ?_, (whole.list arranged list).1⟩
  rcases list with rfl | ⟨node, there, rfl⟩
  · exact subset_preorderAll _
  · exact items_subset_preorderAll _ there

/-- A call that is made from outside: a list of some text is worked out, or read as a body, in a
scope of namespaces that were begun, a name is resolved there, or a field is read that is known to
be there; with as much depth as all of it can need. -/
inductive Asks : Moment → Prop
  | declare {outer pos nodes ctx s} (list : FromText nodes) (begun : Begun s.store.size outer) :
    Asks ⟨s.store.bindingBound + weightAll nodes + 1, .body outer pos nodes, ctx, s⟩
  | analyze {scope slot pos nodes ctx s} (list : FromText nodes)
    (begun : Begun s.store.size scope) :
    Asks ⟨s.store.bindingBound + weightAll nodes + 1, .expression scope slot pos nodes, ctx, s⟩
  | resolve {scope slot pos name ctx s} (begun : Begun s.store.size scope) :
    Asks ⟨s.store.bindingBound + weightAll [] + 1, .resolve scope slot pos name, ctx, s⟩
  | read {id key entry slot ctx s} (there : (s.store.get id).field? key = some entry) :
    Asks ⟨s.store.bindingBound + weightAll [] + 1, .force id (.field key) entry.thunk slot, ctx, s⟩

/-- All that was ever begun owes less than such a call may look. -/
theorem Store.Tame.deep {s : Store} (h : s.Tame) (forcing : List (NamespaceId × Binding))
    {among : List NamespaceId} (begun : Begun s.size among) {charge weight : Nat}
    (less : charge ≤ weight) :
    ∃ C, s.Encloses C ∧ (∀ id ∈ among, id ∈ C) ∧
      s.owed forcing C + charge < s.bindingBound + weight + 1 := by
  have owed := Store.owed_le_bindingBound s forcing
  exact ⟨Finset.range s.size, h.encloses, fun id hid => Finset.mem_range.2 (begun id hid), by omega⟩

theorem Asks.covered {m : Moment} (h : Asks m) (shaped : m.state.store.Shaped)
    (tame : m.state.store.Tame) : m.Covered := by
  cases h with
  | @declare outer pos nodes ctx s list begun =>
    have among : Begun s.store.size (Task.body outer pos nodes).among := by
      simpa [Task.among, Task.scope, Task.given] using begun
    exact ⟨shaped, tame, trivial, among, list.arranged.1, list.arranged.2,
      Or.inr (tame.deep ctx.forcing among (Nat.le_refl _))⟩
  | @analyze scope slot pos nodes ctx s list begun =>
    have among : Begun s.store.size (Task.expression scope slot pos nodes).among := by
      simpa [Task.among, Task.scope, Task.given] using begun
    exact ⟨shaped, tame, trivial, among, list.arranged.1, trivial,
      Or.inr (tame.deep ctx.forcing among (worth_le nodes))⟩
  | @resolve scope slot pos name ctx s begun =>
    have among : Begun s.store.size (Task.resolve scope slot pos name).among := by
      simpa [Task.among, Task.scope, Task.given] using begun
    exact ⟨shaped, tame, trivial, among, whole_nil, trivial,
      Or.inr (tame.deep ctx.forcing among (Nat.le_refl _))⟩
  | @read id key entry slot ctx s there =>
    have source : s.store.source? id (.field key) = some entry.thunk := Store.source?_field there
    have among : Begun s.store.size (Task.force id (.field key) entry.thunk slot).among := by
      intro other ho
      rw [List.mem_singleton.1 ho]
      exact Store.begun_of_source source
    exact ⟨shaped, tame, source, among, whole_nil, trivial,
      Or.inr (tame.deep ctx.forcing among (Nat.le_refl _))⟩

theorem Visited.tame {s : State} (h : Visited Asks s) : s.store.Shaped ∧ s.store.Tame :=
  h.invariant (P := fun store => store.Shaped ∧ store.Tame)
    (fun ds => ⟨Store.shaped_ofDiagnostics ds, Store.tame_ofDiagnostics ds⟩)
    (fun _ asks ⟨shaped, tame⟩ => (asks.covered shaped tame).after)
    (fun _ _ asks ⟨shaped, tame⟩ reaches =>
      have next := Moment.Reaches.covered reaches (asks.covered shaped tame)
      ⟨next.shaped, next.tame⟩)
    (fun _ ds ⟨shaped, tame⟩ => ⟨shaped.record ds, tame.congr rfl rfl⟩)
    fun _ ⟨shaped, tame⟩ => ⟨shaped, tame.congr rfl rfl⟩

/-- The calls that are made from outside in the states that come of such calls, and those that come
from them. -/
def Made (m : Moment) : Prop := ∃ first, Visited Asks first.state ∧ Asks first ∧ first.Reaches m

theorem Made.covered {m : Moment} (h : Made m) : m.Covered := by
  obtain ⟨first, visited, asks, reaches⟩ := h
  obtain ⟨shaped, tame⟩ := visited.tame
  exact Moment.Reaches.covered reaches (asks.covered shaped tame)

theorem Happens.made {label : String} {text : List Char} {m : Moment} (h : Happens label text m) :
    Made m := by
  obtain ⟨first, opens, reaches⟩ := h
  have start : Visited Asks (.opening (tokenize label text).diagnostics) := .start _ _
  have body : Asks ⟨(State.opening (tokenize label text).diagnostics).store.bindingBound +
      weightAll (tokenize label text).nodes + 1,
        .body [] (.start label) (tokenize label text).nodes, .start,
        .opening (tokenize label text).diagnostics⟩ :=
    .declare ⟨label, text, Or.inl rfl⟩ fun _ outer => by cases outer
  cases opens with
  | body => exact ⟨_, start, body, reaches⟩
  | @entry root after entry before there =>
    have ended : Visited Asks (declare [] (.start label) (tokenize label text).nodes .start
        (.opening (tokenize label text).diagnostics)).2 := .ended _ start body
    rw [before] at ended
    have field : (after.inNewBlock.store.get root).field? (.symbol .main) = some entry := there
    exact ⟨_, .newBlock ended, .read field, reaches⟩

end NamespaceLang

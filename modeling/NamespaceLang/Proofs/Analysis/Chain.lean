import Mathlib.Data.List.Perm.Subperm
import NamespaceLang.Proofs.Analysis.Leaves

/-!
# The chain of bindings

The bindings that are being looked into at one time come from different lines of
the source: of two with one line, the namespaces would stand at one site, and
there is one namespace at most at a site. What stands for a name that is defined
more than once has no line of its own, but nothing comes of looking into it. So
there are no more of them than there are lines.
-/

set_option autoImplicit false

namespace NamespaceLang

theorem Moment.Fits.ended {m : Moment} {K : Plans} (fits : m.Fits K) {a : m.task.Result} {mid : State}
    (before : m.run = (.done a, mid)) :
    ∃ later, Grows m.ctx.forcing m.task.here K m.state.store later mid.store ∧
      Stands later m.ctx.forcing mid ∧ later.Seen m.ctx.forcing mid.store (m.task.gives a) := by
  have ended := m.ends K fits
  unfold Moment.Ends at ended
  rw [before] at ended
  obtain ⟨later, g, stands, seen⟩ := ended
  exact ⟨later, g, stands, seen a rfl⟩

theorem Leads.fits {m next : Moment} (h : Leads m next) {K : Plans} (fits : m.Fits K) :
    ∃ later, Grows m.ctx.forcing m.task.here K m.state.store later next.state.store ∧
      next.Fits later := by
  have here : ∀ s : Store, Grows m.ctx.forcing m.task.here K s K s := fun s => .refl _ _ K s
  cases h with
  | literal kept head => exact ⟨K, here _, fits.literal head⟩
  | afterLiteral kept head before =>
    obtain ⟨later, g, stands, seen⟩ := (fits.literal head).ended before
    have sub := (Moment.Fits.literal_sites head fits.placed).subset
    exact ⟨later, g.mono (List.Subset.trans (List.subset_append_left _ _) sub),
      fits.afterLiteral head g stands seen⟩
  | base kept head items => exact ⟨K, here _, fits.base items⟩
  | afterBase kept head items before =>
    obtain ⟨later, g, stands, seen⟩ := (fits.base items).ended before
    have sub := (Moment.Fits.items_sites items).subset
    exact ⟨later, g.mono (List.Subset.trans (List.subset_append_left _ _) sub),
      fits.afterBase items g stands seen⟩
  | code => exact ⟨K, here _, fits.code⟩
  | name => exact ⟨K, here _, fits.name⟩
  | suffix => exact ⟨K, here _, fits.suffix⟩
  | @afterSuffix _ _ _ node rest _ _ _ _ before =>
    obtain ⟨later, g, stands, seen⟩ := fits.suffix.ended before
    have sub := (Moment.Fits.cons_sites node rest).subset
    exact ⟨later, g.mono (List.Subset.trans (List.subset_append_left _ _) sub), fits.afterSuffix g stands seen⟩
  | access named there => exact ⟨K, here _, fits.access there⟩
  | argument called given => exact ⟨K, here _, fits.argument⟩
  | lines read =>
    obtain ⟨parts, comes⟩ := Body.read_readFrom read
    exact ⟨_, fits.lines _ comes⟩
  | line => exact ⟨K, here _, fits.line⟩
  | @afterLine depth scope list line _ ctx s _ before =>
    have ended : Leaves (fun _ => []) line.part.read K ctx.forcing s
        (Run.attempt (declareLineWith (forceWithin depth) scope list line) ctx s) :=
      .attempt (Moment.ends _ K fits.line)
    rw [before] at ended
    obtain ⟨later, g, stands, -⟩ := ended
    exact ⟨later, g.mono (List.subset_append_left _ _), fits.afterLine g stands⟩
  | whole read => exact ⟨K, here _, fits.whole read⟩
  | key read => exact ⟨K, here _, fits.key read⟩
  | reached way source => exact ⟨K, here _, fits.reached way source⟩
  | @source _ _ _ _ _ _ s first entered =>
    exact ⟨K, ⟨.newBlock s.store, fun _ _ h => h, fun _ _ h => Or.inl h⟩, fits.source first entered⟩

theorem Leads.here {m next : Moment} (h : Leads m next) {K : Plans} (fits : m.Fits K) :
    next.task.here ⊆ m.task.here ∨
      ∃ p, K.Knows p.1 ∧ next.task.here ⊆ m.state.store.region p := by
  cases h with
  | literal kept head =>
    exact Or.inl (List.Subset.trans (List.subset_append_left _ _)
      (Moment.Fits.literal_sites head fits.placed).subset)
  | afterLiteral kept head =>
    exact Or.inl (List.Subset.trans (List.subset_append_right _ _)
      (Moment.Fits.literal_sites head fits.placed).subset)
  | base kept head items =>
    exact Or.inl (List.Subset.trans (List.subset_append_left _ _) (Moment.Fits.items_sites items).subset)
  | afterBase kept head items =>
    exact Or.inl (List.Subset.trans (List.subset_append_right _ _) (Moment.Fits.items_sites items).subset)
  | code => exact Or.inl (Moment.Fits.group_sites _ _ _).subset
  | argument => exact Or.inl (Moment.Fits.group_sites _ _ _).subset
  | @suffix _ _ _ node rest =>
    exact Or.inl (List.Subset.trans (List.subset_append_left _ _) (Moment.Fits.cons_sites node rest).subset)
  | @afterSuffix _ _ _ node rest =>
    exact Or.inl (List.Subset.trans (List.subset_append_right _ _) (Moment.Fits.cons_sites node rest).subset)
  | name => exact Or.inl (List.nil_subset _)
  | access => exact Or.inl (List.nil_subset _)
  | reached => exact Or.inl (List.nil_subset _)
  | lines read =>
    obtain ⟨parts, comes⟩ := Body.read_readFrom read
    exact Or.inl (comes.reads_subset _)
  | line => exact Or.inl (List.subset_append_left _ _)
  | afterLine => exact Or.inl (List.subset_append_right _ _)
  | @whole _ _ _ line _ _ read =>
    have same : Tree.sites line.items ⊆ line.part.read := by
      rw [Line.part, read]
      exact List.Subset.refl _
    exact Or.inl same
  | @key _ _ _ line _ _ sides read =>
    have same : Tree.sites sides.leftItems ⊆ line.part.read := by
      rw [Line.part, read]
      exact List.Subset.refl _
    exact Or.inl same
  | @source _ id binding =>
    refine Or.inr ⟨(id, binding), (fits.given id List.mem_cons_self).1, ?_⟩
    rw [Store.region_of_source (p := (id, binding)) fits.placed]
    exact List.Subset.refl _

structure Plans.Within (K : Plans) (ground : List Site) (s : Store) : Prop where
  region : ∀ p, K.Knows p.1 → s.region p ⊆ ground
  mark : ∀ p mark, K.Knows p.1 → (s.source? p.1 p.2).isSome → s.mark? p = some mark →
    .line mark ∈ ground

theorem Grows.within {forcing : List Place} {here ground : List Site} {K later : Plans}
    {s after : Store} (g : Grows forcing here K s later after) (ready : Ready K forcing s)
    (census : Census later after) (h : K.Within ground s) (sub : here ⊆ ground) :
    later.Within ground after := by
  have news : ∀ i own, later i = some own → K i = some own ∨ own.sites ⊆ ground := by
    intro i own hi
    rcases g.placed i own hi with old | new | ⟨p, known, -, -, inner⟩
    · exact Or.inl old
    · exact Or.inr (List.Subset.trans new sub)
    · exact Or.inr (List.Subset.trans inner (h.region p known))
  constructor
  · rintro p ⟨own, hp⟩
    rcases news p.1 own hp with old | new
    · rw [g.learns.region (ready.census.begun ⟨own, old⟩)]
      exact h.region p ⟨own, old⟩
    · exact List.Subset.trans (census.region_subset hp) new
  · rintro ⟨i, b⟩ mark ⟨own, hp⟩ there own_mark
    rcases news i own hp with old | new
    · have l := g.learns.each i (ready.census.begun ⟨own, old⟩)
      rw [l.source?] at there
      rw [l.mark?] at own_mark
      exact h.mark (i, b) mark ⟨own, old⟩ there own_mark
    · obtain ⟨t, ht⟩ := Option.isSome_iff_exists.1 there
      obtain ⟨-, part, hpart, ⟨mark', pm, same⟩, -⟩ := (census.fits i own hp).source b t ht
      obtain rfl := Option.some.inj (own_mark.symm.trans same)
      exact new (Plan.part_subset hpart (Part.line_mem pm))

theorem Census.mark_unique {K : Plans} {s : Store} (h : Census K s) {p q : Place} {t u : Thunk}
    (hp : K.Knows p.1) (hq : K.Knows q.1) (ht : s.source? p.1 p.2 = some t)
    (hu : s.source? q.1 q.2 = some u) (same : s.mark? p = s.mark? q) :
    p = q ∨ t.Erroneous ∧ u.Erroneous := by
  obtain ⟨own, hi⟩ := hp
  obtain ⟨other, hj⟩ := hq
  obtain ⟨i, b⟩ := p
  obtain ⟨j, c⟩ := q
  have fits := h.fits i own hi
  have fits' := h.fits j other hj
  obtain ⟨-, part, hpart, ⟨mark, pm, mine⟩, -⟩ := fits.source b t ht
  obtain ⟨-, part', hpart', ⟨mark', pm', yours⟩, -⟩ := fits'.source c u hu
  obtain rfl := Option.some.inj (mine.symm.trans (same.trans yours))
  by_cases one : i = j
  · subst one
    exact (fits.marks b c t u ht hu same).imp_left fun h => by rw [h]
  · have there := Plan.part_subset hpart (Part.line_mem pm)
    have there' := Plan.part_subset hpart' (Part.line_mem pm')
    rcases h.nested i j own other hi hj one with apart | ⟨room, hr, sub⟩ | ⟨room, hr, sub⟩
    · exact absurd there' (apart there)
    · exact absurd (sub there) (Plan.mark_not_mem fits'.apart hpart' pm' hr)
    · exact absurd (sub there') (Plan.mark_not_mem fits.apart hpart pm hr)

/-- A call from which nothing comes: it works out what stands for a name that is defined more than
once. -/
def Task.Idle : Task → Prop
  | .expression _ _ _ nodes => ∃ pos, nodes = [.leaf pos .error]
  | .base _ _ node => ∃ pos, node = .leaf pos .error
  | _ => False

theorem Leads.idle {m next : Moment} (h : Leads m next) (idle : m.task.Idle) : next.task.Idle := by
  have solid : ∀ pos : Position, Tree.solid [.leaf pos .error] = [.leaf pos .error] := fun _ => rfl
  cases h with
  | literal kept head =>
    obtain ⟨pos, rfl⟩ := idle
    cases head
  | afterLiteral kept head =>
    obtain ⟨pos, rfl⟩ := idle
    cases head
  | base kept head items =>
    obtain ⟨pos, rfl⟩ := idle
    rw [solid] at items
    cases items
    exact ⟨pos, rfl⟩
  | afterBase kept head items before =>
    obtain ⟨pos, rfl⟩ := idle
    rw [solid] at items
    cases items
    rw [analyzeBaseWith.eq_def] at before
    cases before
  | code =>
    obtain ⟨pos, node⟩ := idle
    cases node
  | name =>
    obtain ⟨pos, node⟩ := idle
    cases node
  | _ => exact idle.elim

/-- The bindings that are being looked into have lines of their own, all of them among some
sites. -/
structure Moment.Chained (ground : List Site) (K : Plans) (m : Moment) : Prop where
  fits : m.Fits K
  here : m.task.here ⊆ ground
  within : K.Within ground m.state.store
  apart : (m.ctx.forcing.map m.state.store.mark?).Nodup
  sourced : ∀ p ∈ m.ctx.forcing, ∃ t, m.state.store.source? p.1 p.2 = some t ∧
    (t.Erroneous → m.task.Idle)

theorem Leads.chained {m next : Moment} (h : Leads m next) {ground : List Site} {K : Plans}
    (chained : m.Chained ground K) : ∃ later, next.Chained ground later := by
  obtain ⟨fits, here, within, apart, sourced⟩ := chained
  obtain ⟨later, g, fits'⟩ := h.fits fits
  have ready := fits.stands.ready
  have begun : ∀ p ∈ m.ctx.forcing, p.1 < m.state.store.size := fun p hp =>
    ready.census.begun (ready.entered p hp)
  have marks : m.ctx.forcing.map next.state.store.mark? = m.ctx.forcing.map m.state.store.mark? :=
    List.map_congr_left fun p hp => (g.learns.each p.1 (begun p hp)).mark? p.2
  refine ⟨later, fits', ?_, g.within ready fits'.stands.ready.census within here, ?_, ?_⟩
  · rcases h.here fits with inner | ⟨p, known, inner⟩
    · exact List.Subset.trans inner here
    · exact List.Subset.trans inner (within.region p known)
  · rcases h.context with ⟨ids, ctx⟩ | ⟨id, binding, thunk, slot, task, -, ctx, state, entered, -⟩
    · rw [ctx, show (m.ctx.holding ids).forcing = m.ctx.forcing from rfl, marks]
      exact apart
    · have placed := fits.placed
      have given := fits.given
      rw [task] at placed given sourced
      rw [ctx, show (m.ctx.inside id binding thunk.pos).forcing = (id, binding) :: m.ctx.forcing from
        rfl, List.map_cons, marks, state]
      refine List.nodup_cons.2 ⟨fun there => ?_, apart⟩
      obtain ⟨q, hq, same⟩ := List.mem_map.1 there
      obtain ⟨u, hu, sound⟩ := sourced q hq
      rcases ready.census.mark_unique (p := q) (q := (id, binding)) (ready.entered q hq)
        (given id List.mem_cons_self).1 hu placed same with one | both
      · exact entered (one ▸ hq)
      · exact sound both.1
  · intro p hp
    rcases h.context with ⟨ids, ctx⟩ | ⟨id, binding, thunk, slot, task, task', ctx, state, -, -⟩
    · rw [ctx] at hp
      obtain ⟨t, ht, sound⟩ := sourced p hp
      exact ⟨t, ((g.learns.each p.1 (begun p hp)).source? p.2).trans ht, fun h' => h.idle (sound h')⟩
    · have placed := fits.placed
      rw [task] at placed sourced
      rw [ctx] at hp
      rcases List.mem_cons.1 hp with rfl | hp
      · rw [state, task']
        exact ⟨thunk, placed, fun erroneous => erroneous⟩
      · obtain ⟨t, ht, sound⟩ := sourced p hp
        exact ⟨t, ((g.learns.each p.1 (begun p hp)).source? p.2).trans ht, fun h' => (sound h').elim⟩

/-- There are no more bindings being looked into than there are lines. -/
theorem Moment.Chained.marks {ground : List Site} {K : Plans} {m : Moment}
    (h : m.Chained ground K) :
    ∃ marks : List Position, m.ctx.forcing.map m.state.store.mark? = marks.map some ∧
      marks.Nodup ∧ marks ⊆ ground.filterMap Site.mark? := by
  have ready := h.fits.stands.ready
  have own : ∀ p ∈ m.ctx.forcing, ∃ mark, m.state.store.mark? p = some mark ∧
      mark ∈ ground.filterMap Site.mark? := by
    intro p hp
    obtain ⟨t, ht, -⟩ := h.sourced p hp
    obtain ⟨plan, hi⟩ := ready.entered p hp
    obtain ⟨-, part, -, ⟨mark, -, own⟩, -⟩ := (ready.census.fits p.1 plan hi).source p.2 t ht
    have there := h.within.mark p mark ⟨plan, hi⟩ (by rw [ht]; rfl) own
    exact ⟨mark, own, List.mem_filterMap.2 ⟨_, there, rfl⟩⟩
  have all : ∀ forcing : List Place, (∀ p ∈ forcing, ∃ mark, m.state.store.mark? p = some mark ∧
      mark ∈ ground.filterMap Site.mark?) → ∃ marks : List Position,
        forcing.map m.state.store.mark? = marks.map some ∧ marks ⊆ ground.filterMap Site.mark? := by
    intro forcing
    induction forcing with
    | nil => exact fun _ => ⟨[], rfl, List.nil_subset _⟩
    | cons p rest ih =>
      intro each
      obtain ⟨⟨mark, own, there⟩, others⟩ := List.forall_mem_cons.1 each
      obtain ⟨marks, same, sub⟩ := ih others
      exact ⟨mark :: marks, by rw [List.map_cons, List.map_cons, own, same],
        List.cons_subset.2 ⟨there, sub⟩⟩
  obtain ⟨marks, same, sub⟩ := all m.ctx.forcing own
  have apart := h.apart
  rw [same] at apart
  exact ⟨marks, same, List.Nodup.of_map some apart, sub⟩

theorem Moment.Chained.length {ground : List Site} {K : Plans} {m : Moment}
    (h : m.Chained ground K) : m.ctx.forcing.length ≤ (ground.filterMap Site.mark?).length := by
  obtain ⟨marks, same, apart, sub⟩ := h.marks
  have lengths := congrArg List.length same
  rw [List.length_map, List.length_map] at lengths
  rw [lengths]
  exact (apart.subperm sub).length_le

end NamespaceLang

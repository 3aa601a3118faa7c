import NamespaceLang.Proofs.Store.Census

/-!
# How a census grows

While bindings are being looked into, work goes on within the source of the
innermost one. New namespaces are entered in the census: those that stand at the
sites the work has come to, and those in the sources of bindings that nobody had
begun to look into. Nobody of before stands in any of them, so that what held of
the namespaces of before goes on to hold.
-/

set_option autoImplicit false

namespace NamespaceLang

namespace Plans

variable (K : Plans) (forcing : List Place) (s : Store)

/-- The innermost of the bindings that are being looked into is this one, or stands in its
source. -/
def Around (p : Place) : Prop :=
  ∃ head, forcing.head? = some head ∧ (head = p ∨ K.Inside s head.1 p)

def Seen (ids : List NamespaceId) : Prop :=
  ∀ n ∈ ids, K.Knows n ∧ ∀ p, K.Inside s n p → s.finding? p ≠ none ∨ K.Around forcing s p

def Visible (scope : Scope) : Prop :=
  ∀ o ∈ scope, K.Knows o ∧ ∀ p, K.Inside s o p → K.Around forcing s p

structure Room (here : List Site) : Prop where
  nested : ∀ i own, K i = some own → here.Disjoint own.sites ∨ own.Holds here
  around : ∀ p, K.Knows p.1 → ∀ site ∈ here, site ∈ s.region p → K.Around forcing s p
  inner : ∀ p, K.Around forcing s p → here ⊆ s.region p

end Plans

/-- A census while bindings are being looked into. -/
structure Ready (K : Plans) (forcing : List Place) (s : Store) : Prop where
  census : Census K s
  entered : ∀ p ∈ forcing, K.Knows p.1
  /-- Where nobody has begun to look, and where looking has failed, nobody stands. -/
  clean : ∀ p, s.finding? p = none → p ∉ forcing → ∀ i, ¬ K.Inside s i p

/-- The census is grown by namespaces that stand here, or in a binding that nobody had begun to
look into. -/
structure Grows (forcing : List Place) (here : List Site) (K : Plans) (s : Store) (later : Plans)
    (after : Store) : Prop where
  learns : s.Learns after
  keeps : ∀ i own, K i = some own → later i = some own
  placed : ∀ i own, later i = some own → K i = some own ∨ own.sites ⊆ here ∨
    ∃ p, K.Knows p.1 ∧ s.finding? p = none ∧ p ∉ forcing ∧ own.sites ⊆ s.region p

namespace Plans

variable {K : Plans} {forcing : List Place} {s : Store} {here there : List Site}
  {ids others : List NamespaceId}

theorem Seen.nil : K.Seen forcing s [] := fun _ hn => by cases hn

theorem Seen.mono (h : K.Seen forcing s ids) (sub : others ⊆ ids) : K.Seen forcing s others :=
  fun n hn => h n (sub hn)

theorem Seen.append (h : K.Seen forcing s ids) (h' : K.Seen forcing s others) :
    K.Seen forcing s (ids ++ others) := fun n hn => (List.mem_append.1 hn).elim (h n) (h' n)

theorem Visible.seen {scope : Scope} (h : K.Visible forcing s scope) : K.Seen forcing s scope :=
  fun o ho => ⟨(h o ho).1, fun p hp => Or.inr ((h o ho).2 p hp)⟩

theorem Room.mono (h : K.Room forcing s here) (sub : there ⊆ here) : K.Room forcing s there where
  nested i own hi := (h.nested i own hi).imp (fun apart _ hs => apart (sub hs)) (·.mono sub)
  around p hp site hs := h.around p hp site (sub hs)
  inner p hp := List.Subset.trans sub (h.inner p hp)

theorem Room.free (h : K.Room forcing s here) (census : Census K s) : K.Free here := by
  intro i own hi home
  rcases h.nested i own hi with apart | holds
  · exact apart home List.mem_cons_self
  · exact holds.home_not_mem (census.fits i own hi).apart home

end Plans

namespace Ready

variable {K : Plans} {forcing : List Place} {s : Store}

theorem knows (h : Ready K forcing s) {p : Place} (around : K.Around forcing s p) :
    K.Knows p.1 := by
  obtain ⟨head, first, rfl | inside⟩ := around
  · exact h.entered head (List.mem_of_mem_head? first)
  · exact inside.1

theorem not_around (h : Ready K forcing s) {p : Place} (unknown : s.finding? p = none)
    (hp : p ∉ forcing) : ¬ K.Around forcing s p := by
  rintro ⟨head, first, rfl | inside⟩
  · exact hp (List.mem_of_mem_head? first)
  · exact h.clean p unknown hp head.1 inside

end Ready

namespace Grows

variable {K later : Plans} {forcing : List Place} {s after : Store} {here there : List Site}

theorem refl (forcing : List Place) (here : List Site) (K : Plans) (s : Store) :
    Grows forcing here K s K s := ⟨.refl s, fun _ _ h => h, fun _ _ h => Or.inl h⟩

theorem mono (g : Grows forcing here K s later after) (sub : here ⊆ there) :
    Grows forcing there K s later after :=
  { g with placed := fun i own hi =>
      (g.placed i own hi).imp_right (·.imp_left (List.Subset.trans · sub)) }

theorem knows (g : Grows forcing here K s later after) {i : NamespaceId} (hi : K.Knows i) :
    later.Knows i := by
  obtain ⟨own, hi⟩ := hi
  exact ⟨own, g.keeps i own hi⟩

section

variable (g : Grows forcing here K s later after) (ready : Ready K forcing s)

include g ready

theorem inside {i : NamespaceId} {p : Place} (h : K.Inside s i p) : later.Inside after i p := by
  obtain ⟨hp, own, hi, home⟩ := h
  refine ⟨g.knows hp, own, g.keeps i own hi, ?_⟩
  rwa [g.learns.region (ready.census.begun hp)]

theorem around {p : Place} (h : K.Around forcing s p) : later.Around forcing after p := by
  obtain ⟨head, first, same | inside⟩ := h
  · exact ⟨head, first, Or.inl same⟩
  · exact ⟨head, first, Or.inr (g.inside ready inside)⟩

variable (census : Census later after) (free : K.Free here)

include census free

theorem inside_before {i : NamespaceId} {p : Place} (hi : K.Knows i)
    (h : later.Inside after i p) : K.Inside s i p := by
  obtain ⟨own, hi⟩ := hi
  obtain ⟨⟨other, hp⟩, own', hi', home⟩ := h
  obtain rfl := Option.some.inj ((g.keeps i own hi).symm.trans hi')
  rcases g.placed p.1 other hp with old | new | ⟨q, hq, unknown, unentered, sub⟩
  · rw [g.learns.region (ready.census.begun ⟨other, old⟩)] at home
    exact ⟨⟨other, old⟩, own, hi, home⟩
  · exact absurd (new (census.region_subset hp home)) (free i own hi)
  · have inside : K.Inside s i q := ⟨hq, own, hi, sub (census.region_subset hp home)⟩
    exact absurd inside (ready.clean q unknown unentered i)

theorem around_before {p : Place} (h : later.Around forcing after p) : K.Around forcing s p := by
  obtain ⟨head, first, same | inside⟩ := h
  · exact ⟨head, first, Or.inl same⟩
  · have known := ready.entered head (List.mem_of_mem_head? first)
    exact ⟨head, first, Or.inr (g.inside_before ready census free known inside)⟩

theorem seen {ids : List NamespaceId} (h : K.Seen forcing s ids) : later.Seen forcing after ids := by
  intro n hn
  obtain ⟨known, sub⟩ := h n hn
  refine ⟨g.knows known, fun p hp => ?_⟩
  have before := g.inside_before ready census free known hp
  exact (sub p before).imp (g.learns.finding? (ready.census.begun before.1)) (g.around ready)

theorem visible {scope : Scope} (h : K.Visible forcing s scope) :
    later.Visible forcing after scope := by
  intro o ho
  obtain ⟨known, sub⟩ := h o ho
  refine ⟨g.knows known, fun p hp => g.around ready (sub p ?_)⟩
  exact g.inside_before ready census free known hp

theorem room (h : K.Room forcing s there) (apart : there.Disjoint here) :
    later.Room forcing after there := by
  have unoccupied : ∀ i own, later i = some own → K i = some own ∨ there.Disjoint own.sites := by
    intro i own hi
    rcases g.placed i own hi with old | new | ⟨q, hq, unknown, unentered, sub⟩
    · exact Or.inl old
    · exact Or.inr fun _ hs hs' => apart hs (new hs')
    · refine Or.inr fun site hs hs' => ?_
      exact ready.not_around unknown unentered (h.around q hq site hs (sub hs'))
  constructor
  · intro i own hi
    rcases unoccupied i own hi with old | away
    · exact h.nested i own old
    · exact Or.inl away
  · rintro p ⟨own, hp⟩ site hs hs'
    rcases unoccupied p.1 own hp with old | away
    · rw [g.learns.region (ready.census.begun ⟨own, old⟩)] at hs'
      exact g.around ready (h.around p ⟨own, old⟩ site hs hs')
    · exact absurd (census.region_subset hp hs') (away hs)
  · intro p hp
    have before := g.around_before ready census free hp
    rw [g.learns.region (ready.census.begun (ready.knows before))]
    exact h.inner p before

end

theorem trans {mid : Plans} {between : Store} (g : Grows forcing here K s mid between)
    (ready : Ready K forcing s) (census : Census mid between)
    (g' : Grows forcing here mid between later after) : Grows forcing here K s later after where
  learns := g.learns.trans g'.learns
  keeps i own hi := g'.keeps i own (g.keeps i own hi)
  placed i own hi := by
    rcases g'.placed i own hi with old | new | ⟨p, ⟨other, hp⟩, unknown, unentered, sub⟩
    · exact g.placed i own old
    · exact Or.inr (Or.inl new)
    · rcases g.placed p.1 other hp with old | new | ⟨q, hq, unknown', unentered', sub'⟩
      · have known : p.1 < s.size := ready.census.begun ⟨other, old⟩
        rw [g.learns.region known] at sub
        refine Or.inr (Or.inr ⟨p, ⟨other, old⟩, ?_, unentered, sub⟩)
        by_contra found
        exact g.learns.finding? known found unknown
      · have whole := List.Subset.trans sub (census.region_subset hp)
        exact Or.inr (Or.inl (List.Subset.trans whole new))
      · have whole := List.Subset.trans sub (census.region_subset hp)
        exact Or.inr (Or.inr ⟨q, hq, unknown', unentered', List.Subset.trans whole sub'⟩)

end Grows

theorem Ready.record {K : Plans} {forcing : List Place} {s : Store} (h : Ready K forcing s)
    (ds : List Diagnostic) : Ready K forcing (s.record ds) :=
  ⟨h.census.record ds, h.entered, h.clean⟩

theorem Ready.newBlock {K : Plans} {forcing : List Place} {s : Store} (h : Ready K forcing s) :
    Ready K forcing s.newBlock.2 := ⟨h.census.newBlock, h.entered, h.clean⟩

section

variable {K : Plans} {forcing : List Place} {s : Store} {here : List Site} {own : Plan}
  {pos : Position} {outer : Scope} {definitions : Definitions}

theorem Grows.begin (census : Census K s) (sub : own.sites ⊆ here) (pos : Position) (outer : Scope)
    (definitions : Definitions) :
    Grows forcing here K s (K.enter s.size own) (s.begin pos outer definitions).2 where
  learns := .begin s pos outer definitions
  keeps _ _ hi := census.enter_known hi
  placed i other hi := by
    rcases Plans.eq_some_of_enter hi with ⟨-, rfl⟩ | old
    · exact Or.inr (Or.inl sub)
    · exact Or.inl old

variable (ready : Ready K forcing s) (room : K.Room forcing s here)
  (fits : own.Fits (s.begin pos outer definitions).2 s.size) (sub : own.sites ⊆ here)

include ready room fits sub

theorem around_of_enter {p : Place}
    (h : (K.enter s.size own).Inside (s.begin pos outer definitions).2 s.size p) :
    K.Knows p.1 ∧ K.Around forcing s p := by
  obtain ⟨⟨other, hp⟩, own', hi, home⟩ := h
  obtain rfl := Option.some.inj ((K.enter_self s.size own).symm.trans hi)
  rcases Plans.eq_some_of_enter hp with ⟨new, -⟩ | old
  · obtain ⟨i, b⟩ := p
    dsimp only at new
    subst new
    exact absurd home (fits.home_not_mem b)
  · have known : K.Knows p.1 := ⟨other, old⟩
    rw [(Store.Learns.begin s pos outer definitions).region (ready.census.begun known)] at home
    exact ⟨known, room.around p known own.home (sub List.mem_cons_self) home⟩

theorem around_before_enter {p : Place}
    (h : (K.enter s.size own).Around forcing (s.begin pos outer definitions).2 p) :
    K.Around forcing s p := by
  obtain ⟨head, first, same | inside⟩ := h
  · exact ⟨head, first, Or.inl same⟩
  · have known := ready.entered head (List.mem_of_mem_head? first)
    refine ⟨head, first, Or.inr ?_⟩
    exact ready.census.inside_of_enter fits (room.mono sub).nested known inside

theorem Ready.begin (visible : K.Visible forcing s outer) :
    Ready (K.enter s.size own) forcing (s.begin pos outer definitions).2 := by
  have nested := (room.mono sub).nested
  have grown : Grows forcing here K s _ _ := .begin ready.census sub pos outer definitions
  constructor
  · refine ready.census.begin fits nested fun o ho => ?_
    obtain ⟨known, inner⟩ := visible o ho
    exact ⟨known, fun p hp => room.inner p (inner p hp) (sub List.mem_cons_self)⟩
  · exact fun p hp => grown.knows (ready.entered p hp)
  · intro p unknown hp i inside
    have before : s.finding? p = none := by
      rwa [Store.finding?, Store.findings_begin] at unknown
    obtain ⟨other, hi⟩ := inside.2
    rcases Plans.eq_some_of_enter hi.1 with ⟨rfl, -⟩ | old
    · exact ready.not_around before hp (around_of_enter ready room fits sub inside).2
    · exact ready.clean p before hp i (ready.census.inside_of_enter fits nested ⟨other, old⟩ inside)

theorem Plans.Visible.begin (visible : K.Visible forcing s outer) :
    (K.enter s.size own).Visible forcing (s.begin pos outer definitions).2 (s.size :: outer) := by
  have nested := (room.mono sub).nested
  have grown : Grows forcing here K s _ _ := .begin ready.census sub pos outer definitions
  intro o ho
  rcases List.mem_cons.1 ho with rfl | ho
  · refine ⟨⟨own, K.enter_self _ own⟩, fun p hp => ?_⟩
    exact grown.around ready (around_of_enter ready room fits sub hp).2
  · obtain ⟨known, inner⟩ := visible o ho
    refine ⟨grown.knows known, fun p hp => grown.around ready (inner p ?_)⟩
    exact ready.census.inside_of_enter fits nested known hp

theorem Plans.Room.begin {part : Part} (hp : part ∈ own.parts) :
    (K.enter s.size own).Room forcing (s.begin pos outer definitions).2 part.read := by
  have grown : Grows forcing here K s _ _ := .begin ready.census sub pos outer definitions
  have inner : part.read ⊆ here :=
      List.Subset.trans (List.Subset.trans part.read_subset (Plan.part_subset hp)) sub
  constructor
  · intro i other hi
    rcases Plans.eq_some_of_enter hi with ⟨-, rfl⟩ | old
    · exact Or.inr ⟨part.read, List.mem_flatMap.2 ⟨part, hp, List.mem_cons_self⟩,
        List.Subset.refl _⟩
    · exact (room.mono inner).nested i other old
  · rintro ⟨i, b⟩ ⟨other, hi⟩ site hs hs'
    rcases Plans.eq_some_of_enter hi with ⟨rfl, -⟩ | old
    · exact absurd hs' (fits.not_mem_of_read hp hs b)
    · have known : K.Knows i := ⟨other, old⟩
      rw [(Store.Learns.begin s pos outer definitions).region (ready.census.begun known)] at hs'
      exact grown.around ready (room.around (i, b) known site (inner hs) hs')
  · intro p hp'
    have before := around_before_enter ready room fits sub hp'
    rw [(Store.Learns.begin s pos outer definitions).region
      (ready.census.begun (ready.knows before))]
    exact List.Subset.trans inner (room.inner p before)

end

section

variable {K : Plans} {forcing : List Place} {s : Store} {id : NamespaceId} {own : Plan}
  {registry : Registry} (ready : Ready K forcing s) (hid : K id = some own)
  (unread : (s.get id).fields? = none)
  (quiet : ∀ entry ∈ registry.entries, K.Free (Tree.sites entry.thunk.nodes))

include ready hid unread quiet

theorem Ready.finish (fields : registry.Fits own s id) :
    Ready K forcing (s.finish id registry) where
  census := ready.census.finish hid unread quiet fields
  entered := ready.entered
  clean p unknown hp i := by
    rw [Store.finding?_finish] at unknown
    rw [ready.census.inside_finish_iff hid unread quiet]
    exact ready.clean p unknown hp i

theorem Plans.Seen.finish {ids : List NamespaceId} (h : K.Seen forcing s ids) :
    K.Seen forcing (s.finish id registry) ids := by
  intro n hn
  obtain ⟨known, sub⟩ := h n hn
  refine ⟨known, fun p hp => ?_⟩
  unfold Plans.Around
  simp only [Store.finding?_finish, ready.census.inside_finish_iff hid unread quiet] at hp ⊢
  exact sub p hp

end

section

variable {K : Plans} {forcing : List Place} {s : Store} {p : Place}

theorem Ready.enter (ready : Ready K forcing s) (known : K.Knows p.1) : Ready K (p :: forcing) s where
  census := ready.census
  entered := List.forall_mem_cons.2 ⟨known, ready.entered⟩
  clean q unknown hq := ready.clean q unknown fun there => hq (List.mem_cons_of_mem _ there)

theorem Ready.room (ready : Ready K forcing s) (known : K.Knows p.1) (first : s.finding? p = none)
    (unentered : p ∉ forcing) : K.Room (p :: forcing) s (s.region p) := by
  have census := ready.census
  have nobody := ready.clean p first unentered
  obtain ⟨own, hp⟩ := known
  have fits := census.fits p.1 own hp
  constructor
  · intro i other hi
    by_cases same : i = p.1
    · subst same
      obtain rfl := Option.some.inj (hp.symm.trans hi)
      rcases fits.region_room p.2 with empty | room
      · refine Or.inl fun site hs => ?_
        rw [show s.region p = [] from empty] at hs
        cases hs
      · exact Or.inr ⟨_, room, List.Subset.refl _⟩
    · by_cases meets : ∃ site ∈ s.region p, site ∈ other.sites
      · obtain ⟨site, hs, hs'⟩ := meets
        rcases census.inside_or_around hi hp same hs hs' with inside | holds
        · exact absurd ⟨⟨own, hp⟩, other, hi, inside List.mem_cons_self⟩ (nobody i)
        · exact Or.inr (holds.mono (census.region_subset hp))
      · exact Or.inl fun site hs hs' => meets ⟨site, hs, hs'⟩
  · intro q hq site hs hs'
    rcases census.regions_meet ⟨own, hp⟩ hq hs hs' with same | inside | inside
    · exact ⟨p, rfl, Or.inl same⟩
    · exact ⟨p, rfl, Or.inr inside⟩
    · exact absurd inside (nobody q.1)
  · rintro q ⟨head, first, same | inside⟩
    · cases first
      rw [same]
      exact List.Subset.refl _
    · cases first
      exact List.Subset.trans (census.region_subset hp) (census.inside_subset hp inside)

theorem Ready.visible (ready : Ready K forcing s) (known : K.Knows p.1) :
    K.Visible (p :: forcing) s (s.scopeOf p.1) := by
  intro o ho
  rcases List.mem_cons.1 ho with rfl | ho
  · exact ⟨known, fun q hq => ⟨p, rfl, Or.inr hq⟩⟩
  · obtain ⟨around, sub⟩ := ready.census.outer p.1 known o ho
    exact ⟨around, fun q hq => ⟨p, rfl, Or.inr (sub q hq)⟩⟩

theorem Ready.seen (ready : Ready K forcing s) (there : K.Seen forcing s [p.1]) {found : Forced}
    (hf : s.finding? p = some found) : K.Seen forcing s found.namespaces := by
  obtain ⟨known, around⟩ := there p.1 List.mem_cons_self
  intro n hn
  obtain ⟨seen, sub⟩ := ready.census.findings p.1 p.2 found known hf n hn
  refine ⟨seen, fun q hq => ?_⟩
  rcases sub q hq with ended | inside
  · exact Or.inl ended
  · exact around q inside

theorem Ready.keep (ready : Ready K (p :: forcing) s) (first : s.finding? p = none)
    {found : Forced} (seen : K.Seen (p :: forcing) s found.namespaces) :
    Ready K forcing (s.keep p.1 p.2 found) := by
  have known := ready.entered p List.mem_cons_self
  have l : s.Learns (s.keep p.1 p.2 found) := .keep s first found
  have kept : (s.keep p.1 p.2 found).finding? p ≠ none := by
    rw [Store.finding?_keep (ready.census.begun known)]
    exact Option.some_ne_none found
  constructor
  · refine ready.census.keep first fun n hn => ?_
    obtain ⟨there, sub⟩ := seen n hn
    refine ⟨there, fun q hq => ?_⟩
    rcases sub q hq with ended | ⟨head, inner, same | inside⟩
    · exact Or.inl (l.finding? (ready.census.begun hq.1) ended)
    · cases inner
      rw [← same]
      exact Or.inl kept
    · cases inner
      exact Or.inr inside
  · exact fun q hq => ready.entered q (List.mem_cons_of_mem p hq)
  · intro q unknown hq i inside
    have other : q ∉ p :: forcing := by
      intro there
      rcases List.mem_cons.1 there with rfl | there
      · exact kept unknown
      · exact hq there
    have before : s.finding? q = none := by
      by_contra ended
      exact l.finding? (ready.census.begun inside.1) ended unknown
    exact ready.clean q before other i ((ready.census.inside_iff l).1 inside)

/-- Looking into a binding comes to an end without one. Those that stand in its source are struck
out. -/
theorem Ready.drop (ready : Ready K (p :: forcing) s) (failed : s.finding? p = none)
    (others : ∀ q ∈ forcing, ¬ K.Inside s q.1 p) :
    Ready (K.without (s.region p)) forcing s := by
  have known := ready.entered p List.mem_cons_self
  constructor
  · exact ready.census.without failed known
  · intro q hq
    obtain ⟨own, hi⟩ := ready.entered q (List.mem_cons_of_mem p hq)
    refine ⟨own, Plans.without_eq_some.2 ⟨hi, fun home => ?_⟩⟩
    exact others q hq ⟨known, own, hi, home⟩
  · intro q unknown hq i inside
    by_cases same : q = p
    · subst same
      obtain ⟨-, own, hi, home⟩ := inside
      exact (Plans.without_eq_some.1 hi).2 home
    · refine ready.clean q unknown (fun there => ?_) i inside.of_without
      exact (List.mem_cons.1 there).elim same hq

variable {later : Plans} {after : Store}

theorem Grows.leave (g : Grows (p :: forcing) (s.region p) K s later after) (known : K.Knows p.1)
    (first : s.finding? p = none) (unentered : p ∉ forcing) : Grows forcing [] K s later after where
  learns := g.learns
  keeps := g.keeps
  placed i own hi := by
    rcases g.placed i own hi with old | inner | ⟨q, hq, unknown, other, sub⟩
    · exact Or.inl old
    · exact Or.inr (Or.inr ⟨p, known, first, unentered, inner⟩)
    · exact Or.inr (Or.inr ⟨q, hq, unknown, fun there => other (List.mem_cons_of_mem p there), sub⟩)

theorem Grows.without {here room : List Site} (g : Grows forcing here K s later after)
    (free : K.Free room) : Grows forcing here K s (later.without room) after where
  learns := g.learns
  keeps i own hi := Plans.without_eq_some.2 ⟨g.keeps i own hi, free i own hi⟩
  placed i own hi := g.placed i own (Plans.without_eq_some.1 hi).1

end

end NamespaceLang

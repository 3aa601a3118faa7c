import Mathlib.Data.List.Pairwise
import Mathlib.Logic.Function.Basic
import NamespaceLang.Proofs.Analysis.Reached
import NamespaceLang.Proofs.Body.Parts
import NamespaceLang.Proofs.Store.Learns

/-!
# A census of namespaces

Each time a literal is worked out, a namespace begins that has nothing to do with
the ones of before. A census is taken of those that somebody can still come to:
each is entered with its plan, the site that it stands at and the parts of its
body. No two of them stand at one site, since plans lie apart or one within a
room of the other. What a binding that failed has left behind is struck out.
-/

set_option autoImplicit false

namespace NamespaceLang

theorem eq_of_flatMap_nodup {α β : Type} {f : α → List β} {list : List α}
    (h : (list.flatMap f).Nodup) {a b : α} (ha : a ∈ list) (hb : b ∈ list) {x : β} (hx : x ∈ f a)
    (hx' : x ∈ f b) : a = b := by
  by_contra different
  have : Std.Symm (Function.onFun List.Disjoint f) := ⟨fun _ _ h _ hs hs' => h hs' hs⟩
  exact (List.nodup_flatMap.1 h).2.forall ha hb different hx hx'

def Part.rooms (p : Part) : List (List Site) := [p.read, p.kept]

namespace Part

variable {p : Part} {room other : List Site}

theorem room_subset (h : room ∈ p.rooms) : room ⊆ p.sites := by
  simp only [rooms, List.mem_cons, List.not_mem_nil, or_false] at h
  rcases h with rfl | rfl
  · exact p.read_subset
  · exact p.kept_subset

theorem mark_not_mem (apart : p.sites.Nodup) {mark : Position} (hm : p.mark? = some mark)
    (h : room ∈ p.rooms) : .line mark ∉ room := by
  simp only [sites, hm, Option.toList_some, List.map_cons, List.map_nil, List.singleton_append,
    List.nodup_cons, List.mem_append, not_or] at apart
  simp only [rooms, List.mem_cons, List.not_mem_nil, or_false] at h
  rcases h with rfl | rfl
  · exact apart.1.1
  · exact apart.1.2

theorem not_mem_kept (apart : p.sites.Nodup) {site : Site} (hs : site ∈ p.read) : site ∉ p.kept :=
  fun hs' => (List.nodup_append.1 (List.nodup_append.1 apart).2.1).2.2 site hs site hs' rfl

theorem room_apart (apart : p.sites.Nodup) (h : room ∈ p.rooms) : room.Nodup := by
  have both := List.nodup_append.1 (List.nodup_append.1 apart).2.1
  simp only [rooms, List.mem_cons, List.not_mem_nil, or_false] at h
  rcases h with rfl | rfl
  · exact both.1
  · exact both.2.1

theorem room_eq (apart : p.sites.Nodup) (h : room ∈ p.rooms) (h' : other ∈ p.rooms) {site : Site}
    (hs : site ∈ room) (hs' : site ∈ other) : room = other := by
  simp only [rooms, List.mem_cons, List.not_mem_nil, or_false] at h h'
  rcases h with rfl | rfl <;> rcases h' with rfl | rfl
  · rfl
  · exact absurd hs' (not_mem_kept apart hs)
  · exact absurd hs (not_mem_kept apart hs')
  · rfl

end Part

/-- A namespace as its source has it. -/
structure Plan where
  home : Site
  parts : List Part

namespace Plan

def sites (p : Plan) : List Site := p.home :: p.parts.flatMap Part.sites

def rooms (p : Plan) : List (List Site) := p.parts.flatMap Part.rooms

/-- All of some sites lie in one room. -/
def Holds (p : Plan) (here : List Site) : Prop := ∃ room ∈ p.rooms, here ⊆ room

variable {own : Plan} {room other : List Site}

theorem part_subset {part : Part} (h : part ∈ own.parts) : part.sites ⊆ own.sites := fun _ hs =>
  List.mem_cons_of_mem _ (List.mem_flatMap.2 ⟨part, h, hs⟩)

theorem room_subset (h : room ∈ own.rooms) : room ⊆ own.sites := by
  obtain ⟨part, hp, hr⟩ := List.mem_flatMap.1 h
  exact List.Subset.trans (Part.room_subset hr) (part_subset hp)

theorem home_not_mem (apart : own.sites.Nodup) (h : room ∈ own.rooms) : own.home ∉ room := by
  obtain ⟨part, hp, hr⟩ := List.mem_flatMap.1 h
  intro there
  exact (List.nodup_cons.1 apart).1 (List.mem_flatMap.2 ⟨part, hp, Part.room_subset hr there⟩)

theorem part_apart (apart : own.sites.Nodup) {part : Part} (h : part ∈ own.parts) :
    part.sites.Nodup := (List.nodup_flatMap.1 (List.nodup_cons.1 apart).2).1 part h

theorem part_eq (apart : own.sites.Nodup) {p q : Part} (hp : p ∈ own.parts) (hq : q ∈ own.parts)
    {site : Site} (hs : site ∈ p.sites) (hs' : site ∈ q.sites) : p = q :=
  eq_of_flatMap_nodup (List.nodup_cons.1 apart).2 hp hq hs hs'

theorem room_eq (apart : own.sites.Nodup) (h : room ∈ own.rooms) (h' : other ∈ own.rooms)
    {site : Site} (hs : site ∈ room) (hs' : site ∈ other) : room = other := by
  obtain ⟨p, hp, hr⟩ := List.mem_flatMap.1 h
  obtain ⟨q, hq, hr'⟩ := List.mem_flatMap.1 h'
  obtain rfl := part_eq apart hp hq (Part.room_subset hr hs) (Part.room_subset hr' hs')
  exact Part.room_eq (part_apart apart hp) hr hr' hs hs'

theorem mark_not_mem (apart : own.sites.Nodup) {part : Part} (hp : part ∈ own.parts)
    {mark : Position} (hm : part.mark? = some mark) (h : room ∈ own.rooms) : .line mark ∉ room := by
  obtain ⟨q, hq, hr⟩ := List.mem_flatMap.1 h
  intro there
  obtain rfl := part_eq apart hp hq (Part.line_mem hm) (Part.room_subset hr there)
  exact Part.mark_not_mem (part_apart apart hp) hm hr there

theorem Holds.home_not_mem (h : own.Holds room) (apart : own.sites.Nodup) : own.home ∉ room := by
  obtain ⟨whole, hr, sub⟩ := h
  exact fun there => Plan.home_not_mem apart hr (sub there)

theorem Holds.mono (h : own.Holds room) (sub : other ⊆ room) : own.Holds other := by
  obtain ⟨whole, hr, all⟩ := h
  exact ⟨whole, hr, List.Subset.trans sub all⟩

end Plan

abbrev Place := NamespaceId × Binding

def Thunk.Erroneous (t : Thunk) : Prop := ∃ pos, t.nodes = [.leaf pos .error]

theorem Thunk.Erroneous.sites {t : Thunk} (h : t.Erroneous) : Tree.sites t.nodes = [] := by
  obtain ⟨pos, nodes⟩ := h
  rw [nodes, Tree.sites_leaf]

namespace Store

/-- Where the mark of the line stands that a binding comes from. -/
def mark? (s : Store) : Place → Option Position
  | (id, .definition name) => ((s.get id).definitions.get? name).map (·.pos)
  | (id, .field key) => ((s.get id).field? key).map (·.pos)

def finding? (s : Store) (p : Place) : Option Forced := (s.get p.1).findings.get? p.2

theorem finding?_keep {s : Store} {p : Place} (begun : p.1 < s.size) (found : Forced) :
    (s.keep p.1 p.2 found).finding? p = some found := by
  rw [finding?, get?_keep, if_pos ⟨rfl, begun, rfl⟩]

/-- The sites of a binding's source. -/
def region (s : Store) (p : Place) : List Site :=
  ((s.source? p.1 p.2).map fun t => Tree.sites t.nodes).getD []

variable {s later : Store}

theorem region_of_source {p : Place} {t : Thunk} (h : s.source? p.1 p.2 = some t) :
    s.region p = Tree.sites t.nodes := by
  rw [region, h]
  rfl

theorem source_of_mem_region {p : Place} {site : Site} (h : site ∈ s.region p) :
    ∃ t, s.source? p.1 p.2 = some t ∧ ¬ t.Erroneous := by
  cases hs : s.source? p.1 p.2 with
  | none =>
    rw [region, hs] at h
    cases h
  | some t =>
    rw [region_of_source hs] at h
    refine ⟨t, rfl, fun erroneous => ?_⟩
    rw [erroneous.sites] at h
    cases h

end Store

namespace Namespace.Learns

variable {s later : Store} {id : NamespaceId}

theorem source? (h : (s.get id).Learns (later.get id)) (b : Binding) :
    later.source? id b = s.source? id b := by
  cases b with
  | definition name => simp only [Store.source?, Store.scopeOf, h.definitions, h.outer]
  | field key => simp only [Store.source?, h.field?]

theorem mark? (h : (s.get id).Learns (later.get id)) (b : Binding) :
    later.mark? (id, b) = s.mark? (id, b) := by
  cases b with
  | definition name => simp only [Store.mark?, h.definitions]
  | field key => simp only [Store.mark?, h.field?]

theorem region (h : (s.get id).Learns (later.get id)) (b : Binding) :
    later.region (id, b) = s.region (id, b) := by
  rw [Store.region, Store.region, h.source?]

end Namespace.Learns

namespace Store

theorem Learns.region {s later : Store} (h : s.Learns later) {p : Place} (begun : p.1 < s.size) :
    later.region p = s.region p := (h.each p.1 begun).region p.2

theorem Learns.finding? {s later : Store} (h : s.Learns later) {p : Place} (begun : p.1 < s.size)
    (known : s.finding? p ≠ none) : later.finding? p ≠ none := by
  obtain ⟨found, hf⟩ := Option.ne_none_iff_exists'.1 known
  exact Option.ne_none_iff_exists'.2 ⟨found, (h.each p.1 begun).findings p.2 found hf⟩

end Store

/-- The part of the body that a binding comes from. -/
structure Part.Gives (part : Part) (s : Store) (p : Place) (t : Thunk) : Prop where
  mark : ∃ mark, part.mark? = some mark ∧ s.mark? p = some mark
  kept : part.kept = Tree.sites t.nodes ∨ t.Erroneous

structure Plan.Fits (own : Plan) (s : Store) (id : NamespaceId) : Prop where
  begun : id < s.size
  apart : own.sites.Nodup
  source : ∀ b t, s.source? id b = some t →
    t.scope = s.scopeOf id ∧ ∃ part ∈ own.parts, part.Gives s (id, b) t
  marks : ∀ b c t u, s.source? id b = some t → s.source? id c = some u →
    s.mark? (id, b) = s.mark? (id, c) → b = c ∨ t.Erroneous ∧ u.Erroneous

abbrev Plans := NamespaceId → Option Plan

namespace Plans

def Knows (K : Plans) (id : NamespaceId) : Prop := ∃ own, K id = some own

def Free (K : Plans) (here : List Site) : Prop := ∀ i own, K i = some own → own.home ∉ here

/-- A namespace stands in the source of a binding. -/
def Inside (K : Plans) (s : Store) (id : NamespaceId) (p : Place) : Prop :=
  K.Knows p.1 ∧ ∃ own, K id = some own ∧ own.home ∈ s.region p

end Plans

structure Census (K : Plans) (s : Store) : Prop where
  fits : ∀ id own, K id = some own → own.Fits s id
  nested : ∀ i j own other, K i = some own → K j = some other → i ≠ j →
    own.sites.Disjoint other.sites ∨ other.Holds own.sites ∨ own.Holds other.sites
  outer : ∀ i, K.Knows i → ∀ o ∈ (s.get i).outer,
    K.Knows o ∧ ∀ p, K.Inside s o p → K.Inside s i p
  /-- What a namespace has found is known, and stands nowhere but where that itself stands or
  where somebody has come to an end. -/
  findings : ∀ i b found, K.Knows i → s.finding? (i, b) = some found → ∀ n ∈ found.namespaces,
    K.Knows n ∧ ∀ p, K.Inside s n p → s.finding? p ≠ none ∨ K.Inside s i p

namespace Plan.Fits

variable {own : Plan} {s later : Store} {id : NamespaceId}

theorem region_room (h : own.Fits s id) (b : Binding) :
    s.region (id, b) = [] ∨ s.region (id, b) ∈ own.rooms := by
  cases hs : s.source? id b with
  | none => exact Or.inl (by rw [Store.region, hs]; rfl)
  | some t =>
    obtain ⟨-, part, hp, gives⟩ := h.source b t hs
    rw [Store.region_of_source (p := (id, b)) hs]
    rcases gives.kept with kept | erroneous
    · exact Or.inr (List.mem_flatMap.2 ⟨part, hp, by simp [Part.rooms, kept]⟩)
    · exact Or.inl erroneous.sites

theorem room_of_mem (h : own.Fits s id) {b : Binding} {site : Site} (hs : site ∈ s.region (id, b)) :
    s.region (id, b) ∈ own.rooms := by
  rcases h.region_room b with empty | room
  · rw [empty] at hs
    cases hs
  · exact room

theorem region_subset (h : own.Fits s id) (b : Binding) : s.region (id, b) ⊆ own.sites := fun _ hs =>
  Plan.room_subset (h.room_of_mem hs) hs

theorem home_not_mem (h : own.Fits s id) (b : Binding) : own.home ∉ s.region (id, b) := fun hs =>
  Plan.home_not_mem h.apart (h.room_of_mem hs) hs

theorem region_apart (h : own.Fits s id) (b : Binding) : (s.region (id, b)).Nodup := by
  rcases h.region_room b with empty | room
  · rw [empty]
    exact List.nodup_nil
  · obtain ⟨part, hp, hr⟩ := List.mem_flatMap.1 room
    exact Part.room_apart (Plan.part_apart h.apart hp) hr

theorem not_mem_of_read (h : own.Fits s id) {part : Part} (hp : part ∈ own.parts) {site : Site}
    (hs : site ∈ part.read) (b : Binding) : site ∉ s.region (id, b) := by
  intro there
  obtain ⟨t, ht, sound⟩ := Store.source_of_mem_region there
  obtain ⟨-, other, ho, -, kept⟩ := h.source b t ht
  rw [Store.region_of_source ht, ← kept.resolve_right sound] at there
  obtain rfl := Plan.part_eq h.apart hp ho (part.read_subset hs) (other.kept_subset there)
  exact Part.not_mem_kept (Plan.part_apart h.apart hp) hs there

theorem binding_eq (h : own.Fits s id) {b c : Binding} {site : Site} (hb : site ∈ s.region (id, b))
    (hc : site ∈ s.region (id, c)) : b = c := by
  obtain ⟨t, ht, sound⟩ := Store.source_of_mem_region hb
  obtain ⟨u, hu, sound'⟩ := Store.source_of_mem_region hc
  obtain ⟨-, p, hp, ⟨mark, pm, own_mark⟩, kept⟩ := h.source b t ht
  obtain ⟨-, q, hq, ⟨mark', qm, own_mark'⟩, kept'⟩ := h.source c u hu
  rw [Store.region_of_source ht, ← kept.resolve_right sound] at hb
  rw [Store.region_of_source hu, ← kept'.resolve_right sound'] at hc
  obtain rfl := Plan.part_eq h.apart hp hq (p.kept_subset hb) (q.kept_subset hc)
  obtain rfl := Option.some.inj (pm.symm.trans qm)
  rcases h.marks b c t u ht hu (own_mark.trans own_mark'.symm) with same | both
  · exact same
  · exact absurd both.1 sound

theorem learns (h : own.Fits s id) (size : s.size ≤ later.size)
    (l : (s.get id).Learns (later.get id)) : own.Fits later id where
  begun := Nat.lt_of_lt_of_le h.begun size
  apart := h.apart
  source b t ht := by
    rw [l.source?] at ht
    obtain ⟨scope, part, hp, ⟨mark, pm, own_mark⟩, kept⟩ := h.source b t ht
    constructor
    · rw [scope, Store.scopeOf, Store.scopeOf, l.outer]
    · exact ⟨part, hp, ⟨mark, pm, by rw [l.mark?, own_mark]⟩, kept⟩
  marks b c t u ht hu same := by
    rw [l.source?] at ht hu
    rw [l.mark?, l.mark?] at same
    exact h.marks b c t u ht hu same

end Plan.Fits

namespace Census

variable {K : Plans} {s : Store}

theorem empty (s : Store) : Census (fun _ => none) s where
  fits _ _ h := by cases h
  nested _ _ _ _ h := by cases h
  outer _ h := by
    obtain ⟨_, h⟩ := h
    cases h
  findings _ _ _ h := by
    obtain ⟨_, h⟩ := h
    cases h

variable (h : Census K s)

include h

theorem begun {id : NamespaceId} (hk : K.Knows id) : id < s.size := by
  obtain ⟨own, hi⟩ := hk
  exact (h.fits id own hi).begun

theorem region_subset {p : Place} {own : Plan} (hp : K p.1 = some own) : s.region p ⊆ own.sites :=
  (h.fits p.1 own hp).region_subset p.2

theorem inside_or_around {p : Place} {i : NamespaceId} {own other : Plan} (hi : K i = some own)
    (hp : K p.1 = some other) (different : i ≠ p.1) {site : Site} (hs : site ∈ s.region p)
    (hs' : site ∈ own.sites) : own.sites ⊆ s.region p ∨ own.Holds other.sites := by
  rcases h.nested i p.1 own other hi hp different with apart | ⟨room, hr, sub⟩ | holds
  · exact absurd (h.region_subset hp hs) (apart hs')
  · have fits := h.fits p.1 other hp
    have same : room = s.region p :=
      Plan.room_eq fits.apart hr (fits.room_of_mem hs) (sub hs') hs
    exact Or.inl (same ▸ sub)
  · exact Or.inr holds

theorem inside_subset {p : Place} {i : NamespaceId} {own : Plan} (hi : K i = some own)
    (inside : K.Inside s i p) : own.sites ⊆ s.region p := by
  obtain ⟨⟨other, hp⟩, own', hi', home⟩ := inside
  obtain rfl := Option.some.inj (hi.symm.trans hi')
  have different : i ≠ p.1 := by
    rintro rfl
    exact (h.fits p.1 own hi).home_not_mem p.2 home
  rcases h.inside_or_around hi hp different home List.mem_cons_self with sub | holds
  · exact sub
  · exact absurd (h.region_subset hp home)
      (fun there => holds.home_not_mem (h.fits i own hi).apart there)

/-- Two sources share no site, unless one of them stands in the other. -/
theorem regions_meet {p q : Place} (hp : K.Knows p.1) (hq : K.Knows q.1) {site : Site}
    (hs : site ∈ s.region p) (hs' : site ∈ s.region q) :
    p = q ∨ K.Inside s p.1 q ∨ K.Inside s q.1 p := by
  obtain ⟨own, hpo⟩ := hp
  obtain ⟨other, hqo⟩ := hq
  obtain ⟨i, b⟩ := p
  obtain ⟨j, c⟩ := q
  by_cases same : i = j
  · subst same
    rw [(h.fits i own hpo).binding_eq hs hs']
    exact Or.inl rfl
  · rcases h.inside_or_around hpo hqo same hs' (h.region_subset hpo hs) with sub | ⟨room, hr, sub⟩
    · exact Or.inr (Or.inl ⟨⟨other, hqo⟩, own, hpo, sub List.mem_cons_self⟩)
    · have fits := h.fits i own hpo
      have same : room = s.region (i, b) := Plan.room_eq fits.apart hr (fits.room_of_mem hs)
        (sub (h.region_subset hqo hs')) hs
      exact Or.inr (Or.inr ⟨⟨own, hpo⟩, other, hqo, same ▸ sub List.mem_cons_self⟩)

end Census

namespace Plans

/-- The plans without those that stand in a room. -/
def without (K : Plans) (room : List Site) : Plans := fun id => (K id).filter (·.home ∉ room)

theorem without_eq_some {K : Plans} {room : List Site} {id : NamespaceId} {own : Plan} :
    K.without room id = some own ↔ K id = some own ∧ own.home ∉ room := by
  simp [without, Option.filter_eq_some_iff]

theorem Inside.of_without {K : Plans} {room : List Site} {s : Store} {id : NamespaceId} {p : Place}
    (h : (K.without room).Inside s id p) : K.Inside s id p := by
  obtain ⟨⟨other, hp⟩, own, hi, home⟩ := h
  exact ⟨⟨other, (without_eq_some.1 hp).1⟩, own, (without_eq_some.1 hi).1, home⟩

/-- The plans with one for a namespace that nobody knows yet. -/
def enter (K : Plans) (id : NamespaceId) (own : Plan) : Plans := Function.update K id (some own)

theorem enter_self (K : Plans) (id : NamespaceId) (own : Plan) : K.enter id own id = some own :=
  Function.update_self _ _ _

theorem enter_of_ne (K : Plans) {i id : NamespaceId} (h : i ≠ id) (own : Plan) :
    K.enter id own i = K i := Function.update_of_ne h _ _

theorem eq_some_of_enter {K : Plans} {i id : NamespaceId} {own other : Plan}
    (h : K.enter id own i = some other) : i = id ∧ other = own ∨ K i = some other := by
  by_cases new : i = id
  · subst new
    rw [enter_self] at h
    exact Or.inl ⟨rfl, (Option.some.inj h).symm⟩
  · rw [enter_of_ne K new] at h
    exact Or.inr h

end Plans

namespace Census

variable {K : Plans} {s later : Store}

theorem inside_iff (h : Census K s) (l : s.Learns later) {i : NamespaceId} {p : Place} :
    K.Inside later i p ↔ K.Inside s i p := by
  constructor
  · rintro ⟨hp, own, hi, home⟩
    rw [l.region (h.begun hp)] at home
    exact ⟨hp, own, hi, home⟩
  · rintro ⟨hp, own, hi, home⟩
    rw [← l.region (h.begun hp)] at home
    exact ⟨hp, own, hi, home⟩

theorem learns (h : Census K s) (l : s.Learns later)
    (new : ∀ i b found, K.Knows i → later.finding? (i, b) = some found →
      s.finding? (i, b) = some found ∨ ∀ n ∈ found.namespaces,
        K.Knows n ∧ ∀ p, K.Inside s n p → later.finding? p ≠ none ∨ K.Inside s i p) :
    Census K later where
  fits id own hi := (h.fits id own hi).learns l.size (l.each id (h.begun ⟨own, hi⟩))
  nested := h.nested
  outer i hi o ho := by
    rw [(l.each i (h.begun hi)).outer] at ho
    obtain ⟨known, around⟩ := h.outer i hi o ho
    exact ⟨known, fun p hp => (h.inside_iff l).2 (around p ((h.inside_iff l).1 hp))⟩
  findings i b found hi hf n hn := by
    rcases new i b found hi hf with old | own
    · obtain ⟨known, around⟩ := h.findings i b found hi old n hn
      refine ⟨known, fun p hp => ?_⟩
      rcases around p ((h.inside_iff l).1 hp) with ended | inside
      · exact Or.inl (l.finding? (h.begun hp.1) ended)
      · exact Or.inr ((h.inside_iff l).2 inside)
    · obtain ⟨known, around⟩ := own n hn
      refine ⟨known, fun p hp => ?_⟩
      exact (around p ((h.inside_iff l).1 hp)).imp_right (h.inside_iff l).2

theorem record (h : Census K s) (ds : List Diagnostic) : Census K (s.record ds) :=
  h.learns (.record s ds) fun _ _ _ _ hf => Or.inl hf

theorem newBlock (h : Census K s) : Census K s.newBlock.2 :=
  h.learns (.newBlock s) fun _ _ _ _ hf => Or.inl hf

theorem keep (h : Census K s) {p : Place} (first : s.finding? p = none) {found : Forced}
    (seen : ∀ n ∈ found.namespaces, K.Knows n ∧ ∀ q, K.Inside s n q →
      (s.keep p.1 p.2 found).finding? q ≠ none ∨ K.Inside s p.1 q) :
    Census K (s.keep p.1 p.2 found) := by
  refine h.learns (.keep s first found) fun i b own _ hf => ?_
  rw [Store.finding?, Store.get?_keep] at hf
  dsimp only at hf
  split at hf
  · next same =>
    obtain ⟨rfl, -, rfl⟩ := same
    cases hf
    exact Or.inr seen
  · exact Or.inl hf

theorem without (h : Census K s) {p : Place} (failed : s.finding? p = none)
    (hp : K.Knows p.1) : Census (K.without (s.region p)) s := by
  have still : ∀ i, (K.without (s.region p)).Knows i → K.Knows i ∧ ¬ K.Inside s i p := by
    rintro i ⟨own, hi⟩
    obtain ⟨there, out⟩ := Plans.without_eq_some.1 hi
    refine ⟨⟨own, there⟩, fun ⟨_, own', hi', home⟩ => out ?_⟩
    rwa [Option.some.inj (there.symm.trans hi')]
  have knows : ∀ n, K.Knows n → ¬ K.Inside s n p → (K.without (s.region p)).Knows n := by
    rintro n ⟨own, hn⟩ out
    exact ⟨own, Plans.without_eq_some.2 ⟨hn, fun home => out ⟨hp, own, hn, home⟩⟩⟩
  have inside : ∀ i q, (K.without (s.region p)).Knows i → (K.without (s.region p)).Knows q.1 →
      K.Inside s i q → (K.without (s.region p)).Inside s i q := by
    rintro i q ⟨own, hi⟩ hq ⟨-, own', hi', home⟩
    obtain rfl := Option.some.inj ((Plans.without_eq_some.1 hi).1.symm.trans hi')
    exact ⟨hq, own, hi, home⟩
  constructor
  · exact fun id own hi => h.fits id own (Plans.without_eq_some.1 hi).1
  · exact fun i j own other hi hj different =>
      h.nested i j own other (Plans.without_eq_some.1 hi).1 (Plans.without_eq_some.1 hj).1 different
  · intro i hi o ho
    obtain ⟨known, out⟩ := still i hi
    obtain ⟨around, sub⟩ := h.outer i known o ho
    exact ⟨knows o around fun there => out (sub p there),
      fun q hq => inside i q hi hq.1 (sub q hq.of_without)⟩
  · intro i b found hi hf n hn
    obtain ⟨known, out⟩ := still i hi
    obtain ⟨seen, sub⟩ := h.findings i b found known hf n hn
    constructor
    · exact knows n seen fun there => (sub p there).elim (· failed) out
    · exact fun q hq => (sub q hq.of_without).imp_right (inside i q hi hq.1)

section

variable {pos : Position} {outer : Scope} {definitions : Definitions} {own : Plan}
  (h : Census K s) (fits : own.Fits (s.begin pos outer definitions).2 s.size)
  (room : ∀ i other, K i = some other → own.sites.Disjoint other.sites ∨ other.Holds own.sites)

include h

theorem enter_known {i : NamespaceId} {other : Plan} (hi : K i = some other) :
    K.enter s.size own i = some other := by
  rw [K.enter_of_ne (Nat.ne_of_lt (h.begun ⟨other, hi⟩)), hi]

theorem inside_enter {i : NamespaceId} {p : Place} (inside : K.Inside s i p) :
    (K.enter s.size own).Inside (s.begin pos outer definitions).2 i p := by
  obtain ⟨⟨around, hp⟩, other, hi, home⟩ := inside
  rw [← (Store.Learns.begin s pos outer definitions).region (h.begun ⟨around, hp⟩)] at home
  exact ⟨⟨around, h.enter_known hp⟩, other, h.enter_known hi, home⟩

include fits room

theorem inside_of_enter {i : NamespaceId} {p : Place} (hi : K.Knows i)
    (inside : (K.enter s.size own).Inside (s.begin pos outer definitions).2 i p) :
    K.Inside s i p := by
  obtain ⟨other, hi⟩ := hi
  obtain ⟨⟨around, hp⟩, other', hi', home⟩ := inside
  obtain rfl := Option.some.inj ((h.enter_known hi).symm.trans hi')
  rcases Plans.eq_some_of_enter hp with ⟨new, -⟩ | old
  · obtain ⟨j, b⟩ := p
    dsimp only at new
    subst new
    have there := fits.region_subset b home
    rcases room i other hi with apart | holds
    · exact absurd List.mem_cons_self (apart there)
    · exact absurd there (holds.home_not_mem (h.fits i other hi).apart)
  · rw [(Store.Learns.begin s pos outer definitions).region (h.begun ⟨around, old⟩)] at home
    exact ⟨⟨around, old⟩, other, hi, home⟩

theorem begin (visible : ∀ o ∈ outer, K.Knows o ∧ ∀ p, K.Inside s o p → own.home ∈ s.region p) :
    Census (K.enter s.size own) (s.begin pos outer definitions).2 := by
  have l : s.Learns (s.begin pos outer definitions).2 := .begin s pos outer definitions
  constructor
  · intro id other hi
    rcases Plans.eq_some_of_enter hi with ⟨rfl, rfl⟩ | old
    · exact fits
    · exact (h.fits id other old).learns l.size (l.each id (h.begun ⟨other, old⟩))
  · intro i j mine yours hi hj different
    rcases Plans.eq_some_of_enter hi with ⟨rfl, rfl⟩ | old
    · rcases Plans.eq_some_of_enter hj with ⟨rfl, rfl⟩ | old'
      · exact absurd rfl different
      · exact (room j yours old').imp_right Or.inl
    · rcases Plans.eq_some_of_enter hj with ⟨rfl, rfl⟩ | old'
      · exact (room i mine old).imp (fun apart _ hs hs' => apart hs' hs) Or.inr
      · exact h.nested i j mine yours old old' different
  · intro i hi o ho
    rw [Store.get_begin] at ho
    split at ho
    · next new =>
      subst new
      obtain ⟨⟨out, known⟩, sub⟩ := visible o ho
      refine ⟨⟨out, h.enter_known known⟩, fun p hp => ?_⟩
      have before := h.inside_of_enter fits room ⟨out, known⟩ hp
      have home := sub p before
      rw [← l.region (h.begun before.1)] at home
      exact ⟨hp.1, own, K.enter_self _ own, home⟩
    · next old =>
      obtain ⟨other, hi⟩ := hi
      have known := (Plans.eq_some_of_enter hi).resolve_left fun both => old both.1
      obtain ⟨⟨out, around⟩, sub⟩ := h.outer i ⟨other, known⟩ o ho
      refine ⟨⟨out, h.enter_known around⟩, fun p hp => ?_⟩
      exact h.inside_enter (sub p (h.inside_of_enter fits room ⟨out, around⟩ hp))
  · intro i b found hi hf n hn
    rw [Store.finding?, Store.findings_begin] at hf
    have known : K.Knows i := by
      obtain ⟨other, hi⟩ := hi
      rcases Plans.eq_some_of_enter hi with ⟨rfl, -⟩ | old
      · rw [Store.get_of_size_le (Nat.le_refl _)] at hf
        cases hf
      · exact ⟨other, old⟩
    obtain ⟨⟨it, seen⟩, sub⟩ := h.findings i b found known hf n hn
    refine ⟨⟨it, h.enter_known seen⟩, fun p hp => ?_⟩
    have before := h.inside_of_enter fits room ⟨it, seen⟩ hp
    exact (sub p before).imp (l.finding? (h.begun before.1)) h.inside_enter

end

end Census

structure Registry.Fits (r : Registry) (own : Plan) (s : Store) (id : NamespaceId) : Prop where
  source : ∀ entry ∈ r.entries, entry.thunk.scope = s.scopeOf id ∧ ∃ part ∈ own.parts,
    part.mark? = some entry.pos ∧ part.kept = Tree.sites entry.thunk.nodes
  once : (r.entries.map (·.pos)).Nodup
  others : ∀ name found, (s.get id).definitions.get? name = some found →
    ∀ entry ∈ r.entries, found.pos ≠ entry.pos

namespace Store

variable {s : Store} {id : NamespaceId} {registry : Registry}

theorem get_finish_of_ne {other : NamespaceId} (h : other ≠ id) :
    (s.finish id registry).get other = s.get other := get_modify_of_ne s h _

theorem get_finish (begun : id < s.size) :
    (s.finish id registry).get id = { s.get id with fields? := some registry.lock } := by
  rw [finish, get_modify, if_pos ⟨rfl, begun⟩]

theorem outer_finish (other : NamespaceId) :
    ((s.finish id registry).get other).outer = (s.get other).outer := by
  rw [finish, get_modify]
  split <;> rfl

theorem finding?_finish (p : Place) : (s.finish id registry).finding? p = s.finding? p := by
  rw [finding?, findings_finish, finding?]

theorem source?_finish_definition (name : String) :
    (s.finish id registry).source? id (.definition name) = s.source? id (.definition name) := by
  have definitions : ((s.finish id registry).get id).definitions = (s.get id).definitions := by
    rw [finish, get_modify]
    split <;> rfl
  simp only [source?, scopeOf, definitions, outer_finish]

theorem mark?_finish_definition (name : String) :
    (s.finish id registry).mark? (id, .definition name) = s.mark? (id, .definition name) := by
  have definitions : ((s.finish id registry).get id).definitions = (s.get id).definitions := by
    rw [finish, get_modify]
    split <;> rfl
  simp only [mark?, definitions]

theorem source?_finish_field (begun : id < s.size) {key : FieldKey} {t : Thunk}
    (h : (s.finish id registry).source? id (.field key) = some t) :
    ∃ entry ∈ registry.entries, entry.key.field = key ∧ entry.thunk = t ∧
      (s.finish id registry).mark? (id, .field key) = some entry.pos := by
  simp only [source?, mark?, get_finish begun, Namespace.field?, Option.bind_some,
    Registry.get?_lock] at h ⊢
  obtain ⟨entry, he, rfl⟩ := Option.map_eq_some_iff.1 h
  refine ⟨entry, List.mem_of_find?_eq_some he, ?_, rfl, by rw [he]; rfl⟩
  simpa using List.find?_some he

end Store

theorem Plan.Fits.finish {own : Plan} {s : Store} {id : NamespaceId} {registry : Registry}
    (h : own.Fits s id) (fields : registry.Fits own s id) : own.Fits (s.finish id registry) id where
  begun := by
    rw [Store.finish, Store.size_modify]
    exact h.begun
  apart := h.apart
  source b t ht := by
    rw [Store.scopeOf, Store.outer_finish]
    cases b with
    | definition name =>
      rw [Store.source?_finish_definition] at ht
      obtain ⟨scope, part, hp, ⟨mark, pm, own_mark⟩, kept⟩ := h.source _ t ht
      exact ⟨scope, part, hp, ⟨mark, pm, by rw [Store.mark?_finish_definition, own_mark]⟩, kept⟩
    | field key =>
      obtain ⟨entry, he, -, rfl, own_mark⟩ := Store.source?_finish_field h.begun ht
      obtain ⟨scope, part, hp, pm, kept⟩ := fields.source entry he
      exact ⟨scope, part, hp, ⟨entry.pos, pm, own_mark⟩, Or.inl kept⟩
  marks b c t u ht hu same := by
    cases b with
    | definition name =>
      rw [Store.mark?_finish_definition] at same
      rw [Store.source?_finish_definition] at ht
      cases c with
      | definition other =>
        rw [Store.mark?_finish_definition] at same
        rw [Store.source?_finish_definition] at hu
        exact h.marks _ _ t u ht hu same
      | field key =>
        obtain ⟨entry, he, -, -, mark⟩ := Store.source?_finish_field h.begun hu
        obtain ⟨found, hf, at_⟩ := Option.map_eq_some_iff.1 (same.trans mark)
        exact absurd at_ (fields.others name found hf entry he)
    | field key =>
      obtain ⟨entry, he, named, -, mark⟩ := Store.source?_finish_field h.begun ht
      cases c with
      | definition other =>
        rw [Store.mark?_finish_definition] at same
        obtain ⟨found, hf, at_⟩ := Option.map_eq_some_iff.1 (same.symm.trans mark)
        exact absurd at_ (fields.others other found hf entry he)
      | field key' =>
        obtain ⟨entry', he', named', -, mark'⟩ := Store.source?_finish_field h.begun hu
        have one := List.inj_on_of_nodup_map fields.once he he'
          (Option.some.inj (mark.symm.trans (same.trans mark')))
        rw [← named, ← named', one]
        exact Or.inl rfl

namespace Census

variable {K : Plans} {s : Store}

section

variable {id : NamespaceId} {own : Plan} {registry : Registry} (h : Census K s)
  (hid : K id = some own) (unread : (s.get id).fields? = none)
  (quiet : ∀ entry ∈ registry.entries, K.Free (Tree.sites entry.thunk.nodes))

include h hid unread quiet

theorem inside_finish_iff {i : NamespaceId} {p : Place} :
    K.Inside (s.finish id registry) i p ↔ K.Inside s i p := by
  have begun := h.begun ⟨own, hid⟩
  obtain ⟨j, b⟩ := p
  by_cases same : j = id
  · subst same
    cases b with
    | definition name =>
      have same : (s.finish j registry).region (j, .definition name) = s.region (j, .definition name) := by
        rw [Store.region, Store.region, Store.source?_finish_definition]
      unfold Plans.Inside
      rw [same]
    | field key =>
      constructor
      · rintro ⟨-, other, hi, home⟩
        obtain ⟨t, ht, -⟩ := Store.source_of_mem_region home
        obtain ⟨entry, he, -, rfl, -⟩ := Store.source?_finish_field begun ht
        rw [Store.region_of_source ht] at home
        exact absurd home (quiet entry he i other hi)
      · rintro ⟨-, other, -, home⟩
        obtain ⟨t, ht, -⟩ := Store.source_of_mem_region home
        simp [Store.source?, Namespace.field?, unread] at ht
  · have still : (s.get j).Learns ((s.finish id registry).get j) := by
      rw [Store.get_finish_of_ne same]
      exact .refl _
    unfold Plans.Inside
    rw [still.region]

theorem finish (fields : registry.Fits own s id) : Census K (s.finish id registry) where
  fits i other hi := by
    by_cases same : i = id
    · subst same
      obtain rfl := Option.some.inj (hid.symm.trans hi)
      exact (h.fits i own hi).finish fields
    · refine (h.fits i other hi).learns (Nat.le_of_eq (s.size_modify id _).symm) ?_
      rw [Store.get_finish_of_ne same]
      exact .refl _
  nested := h.nested
  outer i hi o ho := by
    rw [Store.outer_finish] at ho
    obtain ⟨known, sub⟩ := h.outer i hi o ho
    refine ⟨known, fun p hp => ?_⟩
    rw [h.inside_finish_iff hid unread quiet] at hp ⊢
    exact sub p hp
  findings i b found hi hf n hn := by
    rw [Store.finding?_finish] at hf
    obtain ⟨known, sub⟩ := h.findings i b found hi hf n hn
    refine ⟨known, fun p hp => ?_⟩
    rw [Store.finding?_finish]
    rw [h.inside_finish_iff hid unread quiet] at hp ⊢
    exact sub p hp

end

end Census

end NamespaceLang

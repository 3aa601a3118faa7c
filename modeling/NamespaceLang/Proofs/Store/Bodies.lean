import NamespaceLang.Proofs.Analysis.Fields
import NamespaceLang.Proofs.Store.Census

/-!
# The plans of bodies

A body that is read makes a plan: the lines that define names and those that do
not are its parts. A namespace that begins with the definitions of the body fits
this plan, and so does one that is given fields of its lines.
-/

set_option autoImplicit false

namespace NamespaceLang

namespace Body

/-- The plan of a namespace that stands at a site and has this body. -/
def plan (body : Body) (home : Site) (lines : List DefinitionLine) : Plan :=
  ⟨home, lines.map (·.part) ++ body.lines.map Line.part⟩

variable {body : Body} {home : Site} {lines : List DefinitionLine} {bound : List Site}

theorem plan_sites (body : Body) (home : Site) (lines : List DefinitionLine) :
    (body.plan home lines).sites =
      home :: (lines.flatMap (·.part.sites) ++ body.lines.flatMap (·.part.sites)) := by
  simp [plan, Plan.sites, List.flatMap_append, List.flatMap_map]

namespace ReadFrom

theorem count_plan (h : body.ReadFrom lines bound) (home site : Site) :
    (body.plan home lines).sites.count site ≤ (home :: bound).count site := by
  have inner := h.sites site
  rw [plan_sites, List.count_cons, List.count_cons, List.count_append]
  omega

theorem plan_apart (h : body.ReadFrom lines bound) (apart : (home :: bound).Nodup) :
    (body.plan home lines).sites.Nodup := by
  rw [List.nodup_iff_count_le_one] at apart ⊢
  exact fun site => Nat.le_trans (h.count_plan home site) (apart site)

theorem plan_subset (h : body.ReadFrom lines bound) (home : Site) :
    (body.plan home lines).sites ⊆ home :: bound := fun site hs =>
  List.count_pos_iff.1 (Nat.lt_of_lt_of_le (List.count_pos_iff.2 hs) (h.count_plan home site))

end ReadFrom

theorem definition_of_mark (apart : (body.plan home lines).sites.Nodup) {d e : DefinitionLine}
    (hd : d ∈ lines) (he : e ∈ lines) {mark : Position} (hm : d.part.mark? = some mark)
    (hm' : e.part.mark? = some mark) : d = e := by
  rw [plan_sites] at apart
  have inner := (List.nodup_append.1 (List.nodup_cons.1 apart).2).1
  exact eq_of_flatMap_nodup inner hd he (Part.line_mem hm) (Part.line_mem hm')

theorem mark_ne_of_lines (apart : (body.plan home lines).sites.Nodup) {d : DefinitionLine}
    {line : Line} (hd : d ∈ lines) (hl : line ∈ body.lines) {mark mark' : Position}
    (hm : d.part.mark? = some mark) (hm' : line.part.mark? = some mark') : mark ≠ mark' := by
  rintro rfl
  rw [plan_sites] at apart
  have both := (List.nodup_append.1 (List.nodup_cons.1 apart).2).2.2
  exact both _ (List.mem_flatMap.2 ⟨d, hd, Part.line_mem hm⟩) _
    (List.mem_flatMap.2 ⟨line, hl, Part.line_mem hm'⟩) rfl

end Body

theorem DefinitionLine.Gives.only {d : DefinitionLine} {pattern : Pattern}
    (names : d.names = pattern.names) {name other : String} {found found' : Definition}
    (h : d.Gives name found) (h' : d.Gives other found') (whole : found.path = [])
    (sound : found ≠ .erroneous found.pos) : name = other := by
  obtain ⟨-, bound, hb, rfl, path⟩ := h.value.resolve_left sound
  obtain ⟨bound', hb', rfl⟩ := h'.named
  rw [names] at hb hb'
  rw [Pattern.names_whole hb (path.trans whole), List.mem_singleton] at hb'
  rw [hb']

namespace Store

variable {s : Store} {pos : Position} {outer : Scope} {definitions : Definitions}

theorem source?_begin {b : Binding} {t : Thunk}
    (h : (s.begin pos outer definitions).2.source? s.size b = some t) :
    ∃ name found, b = .definition name ∧ definitions.get? name = some found ∧ found.path = [] ∧
      t = ⟨found.value, found.pos, s.size :: outer⟩ ∧
      (s.begin pos outer definitions).2.mark? (s.size, b) = some found.pos := by
  have own : (s.begin pos outer definitions).2.get s.size = ⟨pos, outer, definitions, none, .empty⟩ := by
    rw [get_begin, if_pos rfl]
  cases b with
  | definition name =>
    simp only [source?, mark?, scopeOf, own] at h ⊢
    obtain ⟨found, hf, rest⟩ := Option.bind_eq_some_iff.1 h
    split at rest
    · next whole =>
      cases rest
      exact ⟨name, found, rfl, hf, List.isEmpty_iff.1 whole, rfl, by rw [hf]; rfl⟩
    · cases rest
  | field key => simp [source?, Namespace.field?, own] at h

end Store

theorem Body.ReadFrom.fits {body : Body} {home : Site} {lines : List DefinitionLine}
    {bound : List Site} (h : body.ReadFrom lines bound) (apart : (home :: bound).Nodup) (s : Store)
    (pos : Position) (outer : Scope) :
    (body.plan home lines).Fits (s.begin pos outer body.definitions).2 s.size where
  begun := by
    rw [Store.size_begin]
    exact Nat.lt_succ_self _
  apart := h.plan_apart apart
  source b t ht := by
    obtain ⟨name, found, rfl, hf, whole, rfl, mark⟩ := Store.source?_begin ht
    obtain ⟨d, hd, gives⟩ := h.definitions name found hf
    constructor
    · rw [Store.scopeOf, Store.get_begin, if_pos rfl]
    · refine ⟨d.part, List.mem_append_left _ (List.mem_map_of_mem hd), ⟨found.pos, gives.mark, mark⟩, ?_⟩
      rcases gives.value with erroneous | ⟨kept, -⟩
      · exact Or.inr ⟨found.pos, congrArg Definition.value erroneous⟩
      · exact Or.inl kept
  marks b c t u ht hu same := by
    obtain ⟨name, found, rfl, hf, whole, rfl, mark⟩ := Store.source?_begin ht
    obtain ⟨other, found', rfl, hf', whole', rfl, mark'⟩ := Store.source?_begin hu
    obtain ⟨d, hd, gives⟩ := h.definitions name found hf
    obtain ⟨e, he, gives'⟩ := h.definitions other found' hf'
    have at_ : found.pos = found'.pos := Option.some.inj (mark.symm.trans (same.trans mark'))
    have one := Body.definition_of_mark (h.plan_apart apart) hd he gives.mark (at_ ▸ gives'.mark)
    subst one
    obtain ⟨pattern, names⟩ := h.patterns d hd
    by_cases sound : found = .erroneous found.pos
    · by_cases sound' : found' = .erroneous found'.pos
      · exact Or.inr ⟨⟨_, congrArg Definition.value sound⟩, _, congrArg Definition.value sound'⟩
      · rw [gives'.only names gives whole' sound']
        exact Or.inl rfl
    · rw [gives.only names gives' whole sound]
      exact Or.inl rfl

namespace Body

variable {body : Body} {home : Site} {lines : List DefinitionLine} {scope : Scope}
  {registry : Registry}

theorem line_of_entry
    (fields : registry.fields.Sublist (body.lines.filterMap (Line.field? scope)))
    {entry : FieldEntry} (he : entry ∈ registry.entries) : ∃ line ∈ body.lines,
      line.part.mark? = some entry.pos ∧ line.part.kept = Tree.sites entry.thunk.nodes ∧
        entry.thunk.scope = scope := by
  have field : (entry.pos, entry.thunk) ∈ registry.fields := List.mem_map_of_mem he
  obtain ⟨line, hl, own⟩ := List.mem_filterMap.1 (fields.subset field)
  exact ⟨line, hl, Line.part_of_field? own⟩

theorem kept_not_read (apart : (body.plan home lines).sites.Nodup) {line : Line}
    (hl : line ∈ body.lines) {site : Site} (hs : site ∈ line.part.kept) :
    site ∉ body.lines.flatMap (·.part.read) := by
  intro there
  obtain ⟨other, ho, hs'⟩ := List.mem_flatMap.1 there
  have own : line.part ∈ (body.plan home lines).parts :=
    List.mem_append_right _ (List.mem_map_of_mem hl)
  have yours : other.part ∈ (body.plan home lines).parts :=
    List.mem_append_right _ (List.mem_map_of_mem ho)
  have same := Plan.part_eq apart own yours (Part.kept_subset _ hs) (Part.read_subset _ hs')
  rw [← same] at hs'
  exact Part.not_mem_kept (Plan.part_apart apart own) hs' hs

theorem ReadFrom.kept_not_defined {bound : List Site} (h : body.ReadFrom lines bound)
    (apart : (home :: bound).Nodup) {line : Line} (hl : line ∈ body.lines) {site : Site}
    (hs : site ∈ line.part.kept) (s : Store) (pos : Position) (outer : Scope) (b : Binding) :
    site ∉ (s.begin pos outer body.definitions).2.region (s.size, b) := by
  intro there
  obtain ⟨t, ht, sound⟩ := Store.source_of_mem_region there
  obtain ⟨name, found, rfl, hf, -, rfl, -⟩ := Store.source?_begin ht
  obtain ⟨d, hd, gives⟩ := h.definitions name found hf
  rw [Store.region_of_source ht] at there
  have kept : d.part.kept = Tree.sites found.value := by
    rcases gives.value with erroneous | ⟨kept, -⟩
    · exact absurd ⟨found.pos, congrArg Definition.value erroneous⟩ sound
    · exact kept
  have inner := h.plan_apart apart
  rw [plan_sites] at inner
  have both := (List.nodup_append.1 (List.nodup_cons.1 inner).2).2.2
  refine both site ?_ site ?_ rfl
  · exact List.mem_flatMap.2 ⟨d, hd, Part.kept_subset _ (by rw [kept]; exact there)⟩
  · exact List.mem_flatMap.2 ⟨line, hl, Part.kept_subset _ hs⟩

theorem reads_sublist (lines : List Line) :
    (lines.flatMap (·.part.read)).Sublist (lines.flatMap (·.part.sites)) := by
  induction lines with
  | nil => exact List.Sublist.refl _
  | cons line rest ih =>
    rw [List.flatMap_cons, List.flatMap_cons]
    have own : line.part.read.Sublist line.part.sites :=
      (List.sublist_append_left _ _).trans (List.sublist_append_right _ _)
    exact own.append ih

theorem ReadFrom.reads_subset {bound : List Site} (h : body.ReadFrom lines bound) (home : Site) :
    body.lines.flatMap (·.part.read) ⊆ home :: bound := by
  refine List.Subset.trans (fun site hs => ?_) (h.plan_subset home)
  rw [plan_sites]
  exact List.mem_cons_of_mem _ (List.mem_append_right _ ((reads_sublist body.lines).subset hs))

theorem marks_sublist (scope : Scope) (lines : List Line) :
    ((lines.filterMap (Line.field? scope)).map (Site.line ·.1)).Sublist
      (lines.flatMap (·.part.sites)) := by
  induction lines with
  | nil => exact List.Sublist.refl _
  | cons line rest ih =>
    rw [List.filterMap_cons, List.flatMap_cons]
    cases own : line.field? scope with
    | none => exact ih.trans (List.sublist_append_right _ _)
    | some field =>
      have mark := (Line.part_of_field? own).1
      have first : [Site.line field.1].Sublist line.part.sites :=
        List.singleton_sublist.2 (Part.line_mem mark)
      exact first.append ih

/-- A namespace is given the fields that its lines declare. -/
theorem fields_fit (apart : (body.plan home lines).sites.Nodup)
    (comes : ComesFrom body.definitions lines)
    (fields : registry.fields.Sublist (body.lines.filterMap (Line.field? scope))) {s : Store}
    {id : NamespaceId} (own : (s.get id).definitions = body.definitions)
    (around : s.scopeOf id = scope) : registry.Fits (body.plan home lines) s id where
  source entry he := by
    obtain ⟨line, hl, mark, kept, inner⟩ := line_of_entry fields he
    refine ⟨inner.trans around.symm, line.part, ?_, mark, kept⟩
    exact List.mem_append_right _ (List.mem_map_of_mem hl)
  once := by
    rw [plan_sites] at apart
    have inner := (List.nodup_append.1 (List.nodup_cons.1 apart).2).2.1
    have marks := ((fields.map (Site.line ·.1)).trans (marks_sublist scope body.lines)).nodup inner
    rw [Registry.fields, List.map_map] at marks
    exact List.Nodup.of_map Site.line (by rw [List.map_map]; exact marks)
  others name found hf entry he := by
    rw [own] at hf
    obtain ⟨d, hd, gives⟩ := comes name found hf
    obtain ⟨line, hl, mark, -⟩ := line_of_entry fields he
    exact mark_ne_of_lines apart hd hl gives.mark mark

end Body

end NamespaceLang

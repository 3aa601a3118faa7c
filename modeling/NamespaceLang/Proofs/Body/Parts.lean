import NamespaceLang.Body.Basic
import NamespaceLang.Proofs.Tree.Sites

/-!
# The parts of a body

When a body is read, its lines come to stand apart. Of a line that defines a
name the right side is kept, of one that declares a field the left side is read
at once and the right one is kept, and any other line is read as a whole. No
two parts share a site.
-/

set_option autoImplicit false

namespace NamespaceLang

open NamespaceLang.Tree

/-- The sites of a line, by what becomes of them. -/
structure Part where
  mark? : Option Position
  read : List Site
  kept : List Site

namespace Part

def sites (p : Part) : List Site := p.mark?.toList.map .line ++ (p.read ++ p.kept)

theorem line_mem {p : Part} {mark : Position} (h : p.mark? = some mark) : .line mark ∈ p.sites := by
  simp [sites, h]

theorem read_subset (p : Part) : p.read ⊆ p.sites := fun _ hm =>
  List.mem_append_right _ (List.mem_append_left _ hm)

theorem kept_subset (p : Part) : p.kept ⊆ p.sites := fun _ hm =>
  List.mem_append_right _ (List.mem_append_right _ hm)

end Part

namespace Tree

theorem trim_sublist (nodes : List Tree) : (trim nodes).Sublist nodes := by
  have inner : (trimStart (trimStart nodes).reverse).Sublist (trimStart nodes).reverse :=
    List.dropWhile_sublist _
  have outer := inner.reverse
  rw [List.reverse_reverse] at outer
  exact outer.trans (List.dropWhile_sublist _)

theorem solid_sublist (nodes : List Tree) : (nodes.filter (!·.isBlank)).Sublist nodes :=
  List.filter_sublist

theorem sites_sideItems (node : Tree) : (sites (sideItems node)).Sublist (sites [node]) := by
  unfold sideItems
  split
  · rw [sites_group]
    exact List.sublist_append_right _ _
  · exact List.Sublist.refl _

end Tree

theorem twoSided?_sites {want : ChainTag → Bool} (lines : ∀ tag, want tag = true → tag.isLine = true)
    {pos : Position} {nodes : List Tree} {sides : TwoSided}
    (h : twoSided? want pos nodes = .ok (some sides)) :
    (Site.line sides.mark.pos :: (sites sides.leftItems ++ sites sides.rightItems)).Sublist
      (sites nodes) := by
  refine List.Sublist.trans ?_ (sites_sublist (trim_sublist nodes))
  unfold twoSided? at h
  split at h
  · next at_ tag tier items more ht =>
    rw [ht]
    split at h
    · next wanted =>
      split at h
      · next left mark right =>
        simp only [Except.ok.injEq] at h
        split at h
        · next operator =>
          cases h
          cases mark with
          | group => cases operator
          | leaf at_mark content =>
            cases content with
            | operator spelling =>
              have own : site? (.group at_ (.chain tag tier) [left, .leaf at_mark (.operator spelling),
                  right]) = some (.line at_mark) := if_pos (lines tag wanted)
              have inner : sites [left, .leaf at_mark (.operator spelling), right] =
                  sites [left] ++ sites [right] := sites_append [left] [_, right]
              rw [sites_cons, sites_group, own, inner]
              refine List.Sublist.trans ?_ (List.sublist_append_left _ _)
              exact ((sites_sideItems left).append (sites_sideItems right)).cons_cons _
            | _ => cases operator
        · cases h
      · cases h
    · cases h
  · cases h

theorem operandLines_sites (items : List Tree) (lines : List Line)
    (h : operandLines items = .ok lines) :
    (lines.flatMap fun line => sites line.items).Sublist (sites items) := by
  induction items using operandLines.induct generalizing lines with
  | case1 =>
    cases h
    exact List.Sublist.refl _
  | case2 pos items rest ih =>
    simp only [operandLines] at h
    cases hr : operandLines rest with
    | error d => simp [hr, Except.map] at h
    | ok tail =>
      simp only [hr, Except.map, Except.ok.injEq] at h
      subst h
      rw [sites_cons, sites_group, List.flatMap_cons]
      exact (List.sublist_append_right _ _).append (ih tail hr)
  | case3 pos spelling rest ih =>
    simp only [operandLines] at h
    rw [sites_cons, sites_leaf, List.nil_append]
    exact ih lines h
  | case4 other rest h₁ h₂ =>
    rw [operandLines] at h
    · cases h
    · exact h₁
    · exact h₂

theorem bodyLines_sites {pos : Position} {nodes : List Tree} {lines : List Line}
    (h : bodyLines pos nodes = .ok lines) :
    (lines.flatMap fun line => sites line.items).Sublist (sites nodes) := by
  have trimmed := sites_sublist (trim_sublist nodes)
  have whole : ([(⟨nodes, pos⟩ : Line)].flatMap fun line => sites line.items) = sites nodes := by simp
  unfold bodyLines splitLines at h
  split at h
  · next at_ tag tier items more ht =>
    rw [ht] at trimmed
    split at h
    · split at h
      · cases ho : operandLines items with
        | error d => simp [ho, Except.map] at h
        | ok found =>
          simp only [ho, Except.map, Option.getD_some, Except.ok.injEq] at h
          subst h
          rw [sites_group] at trimmed
          exact (operandLines_sites items found ho).trans
            ((List.sublist_append_right _ _).trans trimmed)
      · simp [Except.map] at h
    · simp only [Except.map, Option.getD_none, Except.ok.injEq] at h
      subst h
      rw [whole]
  · simp only [Except.map, Option.getD_none, Except.ok.injEq] at h
    subst h
    rw [whole]

def Line.part (line : Line) : Part :=
  match twoSided? ChainTag.bindsField line.pos line.items with
  | .ok (some sides) => ⟨some sides.mark.pos, sites sides.leftItems, sites sides.rightItems⟩
  | .ok none => ⟨none, sites line.items, []⟩
  | .error _ => ⟨none, [], []⟩

theorem Line.part_sites (line : Line) : line.part.sites.Sublist (sites line.items) := by
  unfold part
  split
  · next sides h =>
    have lines : ∀ tag : ChainTag, tag.bindsField = true → tag.isLine = true := by
      intro tag ht
      simp [ChainTag.isLine, ht]
    exact twoSided?_sites lines h
  · simp [Part.sites]
  · simp [Part.sites]

namespace Pattern

mutual

theorem namesAt_path (path : List Nat) (hp : path ≠ []) : (pattern : Pattern) →
    ∀ bound ∈ pattern.namesAt path, bound.path ≠ []
  | .bind name pos => by
    intro bound hm
    obtain rfl := List.mem_singleton.1 hm
    exact hp
  | .list parts => namesFrom_path path 0 parts

theorem namesFrom_path (path : List Nat) (index : Nat) : (parts : List Pattern) →
    ∀ bound ∈ namesFrom path index parts, bound.path ≠ []
  | [] => by simp [namesFrom]
  | part :: rest => by
    intro bound hm
    rcases List.mem_append.1 hm with hm | hm
    · exact namesAt_path (path ++ [index]) (by simp) part bound hm
    · exact namesFrom_path path (index + 1) rest bound hm

end

/-- A name that is bound to a whole value is the only one of its pattern. -/
theorem names_whole {pattern : Pattern} {bound : BoundName} (h : bound ∈ pattern.names)
    (whole : bound.path = []) : pattern.names = [bound] := by
  cases pattern with
  | bind name pos =>
    obtain rfl := List.mem_singleton.1 h
    rfl
  | list parts => exact absurd whole (namesFrom_path [] 0 parts bound h)

end Pattern

structure DefinitionLine where
  part : Part
  names : List BoundName

def TwoSided.definitionLine (sides : TwoSided) (names : List BoundName) : DefinitionLine :=
  ⟨⟨some sides.mark.pos, [], sites sides.rightItems⟩, names⟩

theorem TwoSided.definitionLine_sites (sides : TwoSided) (names : List BoundName) :
    (sides.definitionLine names).part.sites = .line sides.mark.pos :: sites sides.rightItems := rfl

/-- What a definition keeps of the line that it comes from: its value, or no more than its mark. -/
structure DefinitionLine.Gives (d : DefinitionLine) (name : String) (found : Definition) : Prop where
  mark : d.part.mark? = some found.pos
  named : ∃ bound ∈ d.names, bound.name = name
  value : found = .erroneous found.pos ∨
    d.part.kept = sites found.value ∧ ∃ bound ∈ d.names, bound.name = name ∧ bound.path = found.path

namespace Body

def ComesFrom (definitions : Definitions) (lines : List DefinitionLine) : Prop :=
  ∀ name found, definitions.get? name = some found → ∃ d ∈ lines, d.Gives name found

theorem define_comesFrom {lines : List DefinitionLine} {d : DefinitionLine} (hd : d ∈ lines)
    {mark : Position} {value : List Tree} (hmark : d.part.mark? = some mark)
    (hvalue : d.part.kept = sites value) {bounds : List BoundName} (hb : bounds ⊆ d.names)
    {read : Definitions × List Diagnostic} (h : ComesFrom read.1 lines) :
    ComesFrom (bounds.foldl (define mark value) read).1 lines := by
  induction bounds generalizing read with
  | nil => exact h
  | cons bound rest ih =>
    obtain ⟨here, there⟩ := List.cons_subset.1 hb
    rw [List.foldl_cons]
    apply ih there
    unfold define
    intro name found hfound
    split at hfound
    · next previous hp =>
      dsimp only at hfound
      rw [Table.get?_put] at hfound
      split at hfound
      · next same =>
        cases hfound
        obtain ⟨first, hm, gives⟩ := h bound.name previous hp
        exact ⟨first, hm, gives.mark, same ▸ gives.named, Or.inl rfl⟩
      · exact h name found hfound
    · dsimp only at hfound
      rw [Table.get?_put] at hfound
      split at hfound
      · next same =>
        cases hfound
        exact ⟨d, hd, hmark, ⟨bound, here, same⟩, Or.inr ⟨hvalue, bound, here, same, rfl⟩⟩
      · exact h name found hfound

structure ReadFrom (body : Body) (lines : List DefinitionLine) (bound : List Site) : Prop where
  definitions : ComesFrom body.definitions lines
  patterns : ∀ d ∈ lines, ∃ pattern : Pattern, d.names = pattern.names
  sites : ∀ site, (lines.flatMap (·.part.sites)).count site +
    (body.lines.flatMap (·.part.sites)).count site ≤ bound.count site

theorem ReadFrom.more {body : Body} {lines : List DefinitionLine} {bound : List Site}
    (h : body.ReadFrom lines bound) (more : List Site) : body.ReadFrom lines (bound ++ more) :=
  { h with
    sites := fun site => by
      rw [List.count_append]
      exact Nat.le_trans (h.sites site) (Nat.le_add_right _ _) }

theorem readLine_readFrom {body after : Body} {lines : List DefinitionLine} {bound : List Site}
    {line : Line} {found : List Diagnostic} (h : body.ReadFrom lines bound)
    (he : readLine body line = .ok (after, found)) :
    ∃ more, after.ReadFrom (lines ++ more) (bound ++ sites line.items) := by
  unfold readLine at he
  cases hs : twoSided? (· == .definition) line.pos line.items with
  | error d => simp [hs, bind, Except.bind] at he
  | ok sides? =>
    cases sides? with
    | none =>
      simp only [hs, bind, Except.bind, pure, Except.pure, Except.ok.injEq, Prod.mk.injEq] at he
      obtain ⟨rfl, -⟩ := he
      refine ⟨[], ⟨by simpa using h.definitions, by simpa using h.patterns, fun site => ?_⟩⟩
      have whole := h.sites site
      have part := line.part_sites.count_le site
      simp only [List.append_nil, List.flatMap_append, List.flatMap_cons, List.flatMap_nil,
        List.count_append]
      omega
    | some sides =>
      cases hp : Pattern.read sides.left.pos sides.leftItems with
      | error d => simp [hs, hp, bind, Except.bind] at he
      | ok pattern =>
        simp only [hs, hp, bind, Except.bind, pure, Except.pure, Except.ok.injEq,
          Prod.mk.injEq] at he
        obtain ⟨rfl, -⟩ := he
        refine ⟨[sides.definitionLine pattern.names], ⟨?_, ?_, fun site => ?_⟩⟩
        · have own : sides.definitionLine pattern.names ∈ lines ++ [sides.definitionLine pattern.names] :=
            List.mem_append_right _ List.mem_cons_self
          have kept : (sides.definitionLine pattern.names).part.kept = sites sides.rightItems := rfl
          refine define_comesFrom own rfl kept (List.Subset.refl _) fun name found hf => ?_
          obtain ⟨d, hd, gives⟩ := h.definitions name found hf
          exact ⟨d, List.mem_append_left _ hd, gives⟩
        · intro d hd
          rcases List.mem_append.1 hd with hd | hd
          · exact h.patterns d hd
          · obtain rfl := List.mem_singleton.1 hd
            exact ⟨pattern, rfl⟩
        · have lines : ∀ tag : ChainTag, (tag == .definition) = true → tag.isLine = true := by
            intro tag ht
            simp [ChainTag.isLine, ht]
          have whole := h.sites site
          have part := (twoSided?_sites lines hs).count_le site
          simp only [List.flatMap_append, List.flatMap_cons, List.flatMap_nil, List.append_nil,
            List.count_append, TwoSided.definitionLine_sites, List.count_cons] at part ⊢
          omega

theorem readLines_readFrom (rest : List Line) {body : Body} (found : List Diagnostic)
    {lines : List DefinitionLine} {bound : List Site} (h : body.ReadFrom lines bound) :
    ∃ all, (readLines rest (body, found)).1.ReadFrom all
      (bound ++ rest.flatMap fun line => sites line.items) := by
  induction rest generalizing body found lines bound with
  | nil => exact ⟨lines, by simpa [readLines] using h⟩
  | cons line rest ih =>
    rw [List.flatMap_cons, ← List.append_assoc, readLines]
    split
    · exact ih found (h.more _)
    · split
      · next after more he =>
        obtain ⟨added, read⟩ := readLine_readFrom h he
        exact ih (found ++ more) read
      · next d _ => exact ih (found ++ [d]) (h.more _)

/-- A body is read from its own sites, each of which it uses at most once. -/
theorem read_readFrom {pos : Position} {nodes : List Tree} {body : Body} {found : List Diagnostic}
    (h : read pos nodes = .ok (body, found)) : ∃ lines, body.ReadFrom lines (sites nodes) := by
  unfold read at h
  cases hl : bodyLines pos nodes with
  | error d =>
    rw [hl] at h
    cases h
  | ok all =>
    rw [hl] at h
    simp only [Except.map, Except.ok.injEq] at h
    have start : empty.ReadFrom [] [] :=
      ⟨fun _ _ hf => (by cases hf), by simp, fun _ => Nat.le_refl _⟩
    obtain ⟨lines, last⟩ := readLines_readFrom all [] start
    rw [h, List.nil_append] at last
    refine ⟨lines, { last with sites := fun site => ?_ }⟩
    exact Nat.le_trans (last.sites site) ((bodyLines_sites hl).count_le site)

end Body

end NamespaceLang

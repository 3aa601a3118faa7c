import NamespaceLang.Proofs.Analysis.Plain
import NamespaceLang.Proofs.Body.Names
import NamespaceLang.Proofs.Body.Worth

/-!
# Patterns as they are written

A pattern is written as a name, or as a list of patterns with commas between
square brackets. What stands at the end of a path in it does not depend on how it
is read. A node spells a pattern if it is read as that pattern wherever it stands
alone, positions apart, and a bracket spells the list of what its lines spell.
-/

set_option autoImplicit false

namespace NamespaceLang

open NamespaceLang.Tree

/-- A name that can be written: a run of ASCII letters and digits. -/
def IsWord (word : String) : Prop := word ≠ "" ∧ ∀ c ∈ word.toList, c.isAlphanum = true

instance (word : String) : Decidable (IsWord word) :=
  decidable_of_iff (word ≠ "" ∧ word.toList.all Char.isAlphanum = true) (by simp [IsWord])

namespace Pattern

mutual

def printed : Pattern → List Char
  | .bind name _ => name.toList
  | .list parts => '[' :: List.intercalate ", ".toList (printedEach parts) ++ [']']

def printedEach : List Pattern → List (List Char)
  | [] => []
  | part :: rest => part.printed :: printedEach rest

end

/-- The line that binds the names of a pattern to the elements of `v`. -/
def definitionText (p : Pattern) : List Char := p.printed ++ " :: v".toList

mutual

/-- The pattern as it is anywhere. -/
def unplaced : Pattern → Pattern
  | .bind name _ => .bind name default
  | .list parts => .list (unplacedAll parts)

def unplacedAll : List Pattern → List Pattern
  | [] => []
  | part :: rest => part.unplaced :: unplacedAll rest

end

mutual

theorem namesAt_unplaced (path : List Nat) : (p : Pattern) →
    p.unplaced.namesAt path = (p.namesAt path).map ({ · with pos := default })
  | .bind .. => by simp [unplaced, namesAt]
  | .list parts => by rw [unplaced, namesAt, namesAt, namesFrom_unplaced path 0 parts]

theorem namesFrom_unplaced (path : List Nat) (index : Nat) : (parts : List Pattern) →
    namesFrom path index (unplacedAll parts) =
      (namesFrom path index parts).map ({ · with pos := default })
  | [] => rfl
  | part :: rest => by
    rw [unplacedAll, namesFrom, namesFrom, List.map_append, namesAt_unplaced _ part,
      namesFrom_unplaced path _ rest]

end

theorem map_names_of_alike {α : Type} {f : BoundName → α} {p q : Pattern}
    (alike : q.unplaced = p.unplaced) (placeless : ∀ bound, f { bound with pos := default } = f bound) :
    q.names.map f = p.names.map f := by
  have own : ∀ r : Pattern, r.names.map f = r.unplaced.names.map f := by
    intro r
    rw [names, names, namesAt_unplaced, List.map_map]
    exact List.map_congr_left fun bound _ => (placeless bound).symm
  rw [own q, own p, alike]

/-- Wherever the node stands alone it is read as the pattern, positions apart. -/
structure Spells (p : Pattern) (node : Tree) : Prop where
  solid : node.isBlank = false
  free : node.chainTier? = none
  reads : ∀ (pos : Position) (nodes : List Tree), trim nodes = [node] →
    ∃ q, Pattern.read pos nodes = .ok q ∧ q.unplaced = p.unplaced

end Pattern

def Line.Spells (p : Pattern) (line : Line) : Prop := ∃ node, trim line.items = [node] ∧ p.Spells node

theorem splitLines_of_free {nodes : List Tree} {node : Tree} (alone : trim nodes = [node])
    (free : node.chainTier? = none) : splitLines nodes = .ok none := by
  unfold splitLines
  split
  · next h =>
    rw [alone] at h
    cases h
    cases free
  · rfl

theorem twoSided?_of_free {want : ChainTag → Bool} {pos : Position} {nodes : List Tree} {node : Tree}
    (alone : trim nodes = [node]) (free : node.chainTier? = none) :
    twoSided? want pos nodes = .ok none := by
  unfold twoSided?
  split
  · next h =>
    rw [alone] at h
    cases h
    cases free
  · rfl

theorem operandLines_append {left right : List Tree} {lines : List Line}
    (h : operandLines left = .ok lines) :
    operandLines (left ++ right) = (operandLines right).map (lines ++ ·) := by
  induction left using operandLines.induct generalizing lines with
  | case1 =>
    cases h
    cases hr : operandLines right <;> simp [hr, Except.map]
  | case2 pos items rest ih =>
    simp only [operandLines] at h
    cases ho : operandLines rest with
    | error d => simp [ho, Except.map] at h
    | ok tail =>
      simp only [ho, Except.map, Except.ok.injEq] at h
      subst h
      rw [List.cons_append, operandLines, ih ho]
      cases hr : operandLines right <;> simp [Except.map]
  | case3 pos spelling rest ih =>
    simp only [operandLines] at h
    rw [List.cons_append, operandLines, ih h]
  | case4 other rest h₁ h₂ =>
    rw [operandLines] at h
    · cases h
    · exact h₁
    · exact h₂

theorem Line.Spells.solid {p : Pattern} {line : Line} (h : line.Spells p) : line.isBlank = false := by
  obtain ⟨node, alone, spelled⟩ := h
  refine Bool.eq_false_iff.2 fun blank => ?_
  have inside : node ∈ line.items :=
    (trim_sublist line.items).subset (by rw [alone]; exact List.mem_cons_self)
  have own := List.all_eq_true.1 blank node inside
  rw [spelled.solid] at own
  cases own

namespace Pattern

theorem readLines_spelled {parts : List Pattern} {lines : List Line}
    (h : List.Forall₂ (fun p (line : Line) => line.Spells p) parts lines) :
    ∃ qs, readLines lines = .ok qs ∧ unplacedAll qs = unplacedAll parts := by
  induction h with
  | nil => exact ⟨[], by rw [readLines.eq_def], rfl⟩
  | @cons p line parts lines first _ ih =>
    obtain ⟨qs, later, alike⟩ := ih
    obtain ⟨node, alone, spelled⟩ := id first
    obtain ⟨q, here, own⟩ := spelled.reads line.pos line.items alone
    refine ⟨q :: qs, ?_, by rw [unplacedAll, unplacedAll, own, alike]⟩
    rw [readLines.eq_def]
    simp [first.solid, twoSided?_of_free alone spelled.free, here, later, Except.map]

theorem spells_bind (name : String) (pos at_ : Position) :
    (Pattern.bind name pos).Spells (.leaf at_ (.identifier .plain name)) where
  solid := rfl
  free := rfl
  reads := fun _ _ alone => ⟨.bind name at_, read_name alone, by simp [unplaced]⟩

theorem spells_list {parts qs : List Pattern} {at_ : Position} {opening closing : String}
    {items : List Tree} {lines : List Line} (split : bodyLines at_ items = .ok lines)
    (read : readLines lines = .ok qs) (alike : unplacedAll qs = unplacedAll parts) :
    (Pattern.list parts).Spells (.group at_ (.block .list opening closing) items) where
  solid := rfl
  free := rfl
  reads := by
    intro pos nodes alone
    refine ⟨.list qs, ?_, by rw [unplaced, unplaced, alike]⟩
    rw [Pattern.read.eq_def]
    split
    · next h => rw [alone] at h; cases h
    · next h => rw [alone] at h; cases h
    · next h => rw [alone] at h; cases h
    · next h =>
      rw [alone] at h
      cases h
      simp only [opensList, reduceCtorEq, if_false, if_true]
      split
      · next d failed => rw [split] at failed; cases failed
      · next found hl =>
        rw [split] at hl
        cases hl
        rw [read]
        rfl
    · next other _ notBlock h =>
      rw [alone] at h
      cases h
      exact (notBlock at_ .list opening closing items rfl).elim

variable {at_ : Position} {opening closing : String}

theorem spells_empty :
    (Pattern.list []).Spells (.group at_ (.block .list opening closing) []) := by
  have blank : (⟨[], at_⟩ : Line).isBlank = true := rfl
  have read : readLines [⟨[], at_⟩] = .ok [] := by
    rw [readLines.eq_def]
    dsimp only
    rw [if_pos blank, readLines.eq_def]
  have split : bodyLines at_ [] = .ok [⟨[], at_⟩] := rfl
  exact spells_list split read rfl

theorem spells_single {p : Pattern} {node : Tree} {items : List Tree} (alone : trim items = [node])
    (spelled : p.Spells node) :
    (Pattern.list [p]).Spells (.group at_ (.block .list opening closing) items) := by
  have one : List.Forall₂ (fun p (line : Line) => line.Spells p) [p] [⟨items, at_⟩] :=
    .cons ⟨node, alone, spelled⟩ .nil
  obtain ⟨qs, read, alike⟩ := readLines_spelled one
  have split : bodyLines at_ items = .ok [⟨items, at_⟩] := by
    rw [bodyLines, splitLines_of_free alone spelled.free]
    rfl
  exact spells_list split read alike

def SpelledBy (parts : List Pattern) (nodes : List Tree) : Prop :=
  ∃ lines, operandLines nodes = .ok lines ∧
    List.Forall₂ (fun p (line : Line) => line.Spells p) parts lines

theorem spelledBy_nil : SpelledBy [] [] := ⟨[], rfl, .nil⟩

theorem SpelledBy.operand {done : List Pattern} {nodes items : List Tree} {p : Pattern} {node : Tree}
    (h : SpelledBy done nodes) (alone : trim items = [node]) (spelled : p.Spells node)
    (fallback : Position) : SpelledBy (done ++ [p]) (nodes ++ [segment items fallback]) := by
  obtain ⟨lines, read, each⟩ := h
  refine ⟨lines ++ [⟨items, (items.head?.map Tree.pos).getD fallback⟩], ?_,
    List.rel_append each (.cons ⟨node, alone, spelled⟩ .nil)⟩
  rw [operandLines_append read]
  rfl

theorem SpelledBy.operator {done : List Pattern} {nodes : List Tree} (h : SpelledBy done nodes)
    (pos : Position) (spelling : String) :
    SpelledBy done (nodes ++ [.leaf pos (.operator spelling)]) := by
  obtain ⟨lines, read, each⟩ := h
  refine ⟨lines, ?_, each⟩
  rw [operandLines_append read]
  simp [operandLines, Except.map]

/-- A bracket around a chain of separators has a line for each operand. -/
theorem spells_chain {parts : List Pattern} {pos : Position} {tag : ChainTag} {operands : List Tree}
    (h : SpelledBy parts operands) :
    (Pattern.list parts).Spells (.group at_ (.block .list opening closing)
      [.group pos (.chain tag TokenGroup.sep.tier) operands]) := by
  obtain ⟨lines, read, each⟩ := h
  obtain ⟨qs, found, alike⟩ := readLines_spelled each
  have alone : trim [.group pos (.chain tag TokenGroup.sep.tier) operands] =
      [.group pos (.chain tag TokenGroup.sep.tier) operands] := rfl
  have split : bodyLines at_ [.group pos (.chain tag TokenGroup.sep.tier) operands] = .ok lines := by
    rw [bodyLines, splitLines, alone]
    simp [read, Except.map]
  exact spells_list split found alike

end Pattern

theorem Table.get?_eq_some_iff {κ α : Type} [DecidableEq κ] {t : Table κ α} (distinct : t.keys.Nodup)
    (k : κ) (a : α) : t.get? k = some a ↔ (k, a) ∈ t.entries := by
  obtain ⟨entries⟩ := t
  refine ⟨Store.mem_entries_of_get?, fun inside => ?_⟩
  simp only [keys, get?] at distinct inside ⊢
  induction entries with
  | nil => cases inside
  | cons entry rest ih =>
    obtain ⟨own, b⟩ := entry
    rw [List.map_cons, List.nodup_cons] at distinct
    rw [find]
    rcases List.mem_cons.1 inside with here | there
    · cases here
      exact if_pos rfl
    · have apart : own ≠ k := by
        rintro rfl
        exact distinct.1 (List.mem_map.2 ⟨(own, a), there, rfl⟩)
      rw [if_neg apart, ih distinct.2 there]

namespace Pattern

def bindings (p : Pattern) (mark : Position) (value : List Tree) : Definitions :=
  ⟨p.names.map fun bound => (bound.name, ⟨mark, value, bound.path⟩)⟩

variable {p : Pattern} {mark : Position} {value : List Tree}

theorem keys_bindings : (p.bindings mark value).keys = p.words := by
  rw [bindings, Table.keys, List.map_map, ← map_name_namesAt [] p]
  rfl

theorem get?_bindings (distinct : p.words.Nodup) (name : String) (d : Definition) :
    (p.bindings mark value).get? name = some d ↔
      (∃ place, p.at? d.path = some (.bind name place)) ∧ d.pos = mark ∧ d.value = value := by
  rw [Table.get?_eq_some_iff (keys_bindings ▸ distinct), bindings, List.mem_map]
  constructor
  · rintro ⟨bound, inside, same⟩
    obtain ⟨below, hp, ha⟩ := (mem_namesAt [] bound p).1 inside
    cases same
    exact ⟨⟨bound.pos, by rw [hp, List.nil_append, ha]⟩, rfl, rfl⟩
  · obtain ⟨mark, value, path⟩ := d
    rintro ⟨⟨place, ha⟩, rfl, rfl⟩
    exact ⟨⟨name, place, path⟩, (mem_namesAt [] _ p).2 ⟨path, rfl, ha⟩, rfl⟩

theorem path_nil_iff {path : List Nat} {name : String}
    (h : ∃ place, p.at? path = some (.bind name place)) : path = [] ↔ ∃ place, p = .bind name place := by
  obtain ⟨place, ha⟩ := h
  constructor
  · rintro rfl
    exact ⟨place, Option.some.inj ha⟩
  · rintro ⟨place', rfl⟩
    cases path with
    | nil => rfl
    | cons index path => cases ha

end Pattern

namespace Body

theorem foldl_define {mark : Position} {value : List Tree} {bounds : List BoundName}
    (distinct : (bounds.map (·.name)).Nodup) {definitions : Definitions} (found : List Diagnostic)
    (fresh : ∀ bound ∈ bounds, definitions.get? bound.name = none) :
    bounds.foldl (define mark value) (definitions, found) =
      (⟨definitions.entries ++ bounds.map fun bound => (bound.name, ⟨mark, value, bound.path⟩)⟩,
        found) := by
  induction bounds generalizing definitions with
  | nil => simp
  | cons bound rest ih =>
    obtain ⟨here, later⟩ := List.forall_mem_cons.1 fresh
    rw [List.map_cons, List.nodup_cons] at distinct
    have still : ∀ other ∈ rest,
        (definitions.put bound.name ⟨mark, value, bound.path⟩).get? other.name = none := by
      intro other hm
      have apart : bound.name ≠ other.name := fun same =>
        distinct.1 (same ▸ List.mem_map_of_mem hm)
      rw [Table.get?_put, if_neg apart, later other hm]
    have own : define mark value (definitions, found) bound =
        (definitions.put bound.name ⟨mark, value, bound.path⟩, found) := by
      rw [define, here]
    rw [List.foldl_cons, own, ih distinct.2 still, Table.put_of_fresh here]
    simp

/-- A single line with a pattern of different names on its left binds these names, each to the
element that its path leads to. -/
theorem read_definition (at_ : Position) {p : Pattern} {mark left right chain : Position}
    {nodes leftItems rightItems : List Tree} {node : Tree} {spelling : String} {tier : Nat}
    (tight : tier ≠ TokenGroup.sep.tier) (alone : trim leftItems = [node]) (spelled : p.Spells node)
    (distinct : p.words.Nodup)
    (whole : nodes = [.group chain (.chain .definition tier) [.group left .segment leftItems,
      .leaf mark (.operator spelling), .group right .segment rightItems]]) :
    read at_ nodes =
      .ok (⟨p.bindings mark rightItems, []⟩, []) := by
  obtain ⟨q, reads, alike⟩ := spelled.reads left leftItems alone
  have words : (q.names.map (·.name)).Nodup := by
    rw [Pattern.map_names_of_alike alike fun _ => rfl, Pattern.names, Pattern.map_name_namesAt]
    exact distinct
  have bound : (q.names.map fun bound => (bound.name, (⟨mark, rightItems, bound.path⟩ : Definition))) =
      (p.bindings mark rightItems).entries := Pattern.map_names_of_alike alike fun _ => rfl
  have line : readLine empty ⟨nodes, at_⟩ = .ok (⟨p.bindings mark rightItems, []⟩, []) := by
    rw [readLine, whole]
    have sides : twoSided? (· == .definition) at_ [.group chain (.chain .definition tier)
        [.group left .segment leftItems, .leaf mark (.operator spelling),
          .group right .segment rightItems]] =
        .ok (some ⟨.definition, .group left .segment leftItems, .leaf mark (.operator spelling),
          .group right .segment rightItems⟩) := rfl
    have fresh : ∀ bound ∈ q.names, (Table.empty : Definitions).get? bound.name = none :=
      fun _ _ => rfl
    simp only [sides, bind, Except.bind, TwoSided.leftItems, TwoSided.rightItems, sideItems, Tree.pos,
      reads, empty, foldl_define words [] fresh, bound]
    rfl
  have solid : (⟨nodes, at_⟩ : Line).isBlank = false := by
    rw [whole]
    rfl
  have single : bodyLines at_ nodes = .ok [⟨nodes, at_⟩] := by
    rw [bodyLines, splitLines, whole]
    simp [trim, trimStart, isBlank, tight, Except.map]
  rw [read, single]
  simp [Except.map, readLines, solid, line]

end Body

end NamespaceLang

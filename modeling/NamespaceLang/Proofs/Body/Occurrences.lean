import Mathlib.Data.List.TakeWhile
import NamespaceLang.Proofs.Body.Names
import NamespaceLang.Proofs.Body.Orderly

/-!
# The names that a body defines

A definition line binds names, and a name may occur in several places: twice in one
pattern, or in several lines. A name that occurs once stands for its element of the right
side. The second occurrence replaces that by an error at the place of the first one, which
every later occurrence finds there and leaves as it is. So the table of a body can be read
off the list of all occurrences, and so can all that is told of names that come up again.
A line that fails binds nothing and is told about once.
-/

set_option autoImplicit false

namespace NamespaceLang

open NamespaceLang.Tree

inductive Diagnostic.OfLine : Diagnostic → Prop
  | trailingAfterLines (pos : Position) : OfLine (.error pos .trailingAfterLines)
  | strayInChain (pos : Position) (kind : String) : OfLine (.unreachable pos (.strayInChain kind))
  | notTwoSided (pos : Position) : OfLine (.error pos .notTwoSided)
  | emptyPattern (pos : Position) : OfLine (.error pos .emptyPattern)
  | trailingInPattern (pos : Position) : OfLine (.error pos .trailingInPattern)
  | mapPattern (pos : Position) : OfLine (.error pos .mapPattern)
  | notPattern (pos : Position) (kind : String) : OfLine (.error pos (.notPattern kind))

theorem error_of_map {α β : Type} {e : Except Diagnostic α} {f : α → β} {d : Diagnostic}
    (h : e.map f = .error d) : e = .error d := by
  cases e with
  | ok a => cases h
  | error found =>
    cases h
    rfl

theorem operandLines_ofLine {items : List Tree} {d : Diagnostic} (h : operandLines items = .error d) :
    d.OfLine := by
  induction items using operandLines.induct with
  | case1 => cases h
  | case2 pos items rest ih =>
    rw [operandLines] at h
    exact ih (error_of_map h)
  | case3 pos spelling rest ih =>
    rw [operandLines] at h
    exact ih h
  | case4 other rest h₁ h₂ =>
    rw [operandLines] at h
    · cases h
      exact .strayInChain _ _
    · exact h₁
    · exact h₂

theorem bodyLines_ofLine {pos : Position} {nodes : List Tree} {d : Diagnostic}
    (h : bodyLines pos nodes = .error d) : d.OfLine := by
  have split_failed := error_of_map h
  unfold splitLines at split_failed
  split at split_failed
  · split at split_failed
    · split at split_failed
      · exact operandLines_ofLine (error_of_map split_failed)
      · cases split_failed
        exact .trailingAfterLines _
    · cases split_failed
  · cases split_failed

theorem twoSided?_ofLine {want : ChainTag → Bool} {pos : Position} {nodes : List Tree}
    {d : Diagnostic} (h : twoSided? want pos nodes = .error d) : d.OfLine := by
  unfold twoSided? at h
  split at h
  · split at h
    · split at h
      · cases h
      · cases h
        exact .notTwoSided _
    · cases h
  · cases h

namespace Pattern

mutual

theorem read_ofLine {pos : Position} {nodes : List Tree} {d : Diagnostic}
    (h : read pos nodes = .error d) : d.OfLine := by
  rw [read] at h
  split at h
  · cases h
    exact .emptyPattern _
  · cases h
    exact .trailingInPattern _
  · cases h
  · next at_ tag _ _ items ht =>
    have smaller : Tree.weightAll items + 1 ≤ Tree.weightAll nodes := by
      simpa [ht, Tree.weightAll, Tree.weight] using Tree.weightAll_trim nodes
    split at h
    · cases h
      exact .mapPattern _
    · split at h
      · split at h
        · next found hl =>
          cases h
          exact bodyLines_ofLine hl
        · next lines hl =>
          have lighter := bodyLines_weight at_ items lines hl
          exact readLines_ofLine (error_of_map h)
      · cases h
        exact .notPattern _ _
  · cases h
    exact .notPattern _ _
termination_by 3 * Tree.weightAll nodes + 1
decreasing_by omega

theorem readLines_ofLine {lines : List Line} {d : Diagnostic} (h : readLines lines = .error d) :
    d.OfLine := by
  match lines with
  | [] =>
    rw [readLines] at h
    cases h
  | line :: rest =>
    rw [readLines] at h
    split at h
    · exact readLines_ofLine h
    · split at h
      · next found hs =>
        cases h
        exact twoSided?_ofLine hs
      · cases h
        exact .mapPattern _
      · split at h
        · next found hr =>
          cases h
          exact read_ofLine hr
        · exact readLines_ofLine (error_of_map h)
termination_by lineWeight lines
decreasing_by all_goals simp only [lineWeight]; omega

end

end Pattern

/-- A name where a definition line binds it. -/
structure Occurrence where
  mark : Position
  value : List Tree
  bound : BoundName

namespace Occurrence

def name (o : Occurrence) : String := o.bound.name

def definition (o : Occurrence) : Definition := ⟨o.mark, o.value, o.bound.path⟩

def repetition (o : Occurrence) (first : Position) : Diagnostic :=
  (Diagnostic.error o.bound.pos (.duplicateName o.name)).withNote first .previousName

/-- What a name stands for, by all its occurrences. -/
def standsFor? : List Occurrence → Option Definition
  | [] => none
  | [only] => some only.definition
  | first :: _ :: _ => some (.erroneous first.mark)

/-- What is told of a name, by all its occurrences: each but the first is one too many. -/
def repetitions : List Occurrence → List Diagnostic
  | [] => []
  | first :: later => later.map (·.repetition first.mark)

def named (name : String) (os : List Occurrence) : List Occurrence := os.filter (·.name == name)

theorem pos_of_standsFor? {first : Occurrence} {later : List Occurrence} {d : Definition}
    (h : standsFor? (first :: later) = some d) : d.pos = first.mark := by
  cases later with
  | nil =>
    cases h
    rfl
  | cons second later =>
    cases h
    rfl

theorem standsFor?_eq_none {os : List Occurrence} : standsFor? os = none ↔ os = [] := by
  rcases os with _ | ⟨first, _ | ⟨second, later⟩⟩ <;> simp [standsFor?]

/-- One more occurrence of a name that stands for something makes that an error. -/
theorem snoc_of_standsFor? {os : List Occurrence} {previous : Definition}
    (h : standsFor? os = some previous) (o : Occurrence) :
    standsFor? (os ++ [o]) = some (.erroneous previous.pos) ∧
      repetitions (os ++ [o]) = repetitions os ++ [o.repetition previous.pos] := by
  cases os with
  | nil => cases h
  | cons first later =>
    rw [pos_of_standsFor? h]
    refine ⟨?_, by simp [repetitions]⟩
    cases later <;> rfl

theorem named_snoc (name : String) (os : List Occurrence) (o : Occurrence) :
    named name (os ++ [o]) = if o.name = name then named name os ++ [o] else named name os := by
  rw [named, List.filter_append]
  by_cases same : o.name = name <;> simp [named, same]

end Occurrence

namespace Line

/-- The names that a line binds, if it is a definition. -/
def defines? (line : Line) : Except Diagnostic (Option (List Occurrence)) := do
  match ← twoSided? (· == .definition) line.pos line.items with
  | none => return none
  | some sides =>
    let pattern ← Pattern.read sides.left.pos sides.leftItems
    return some (pattern.names.map (⟨sides.mark.pos, sides.rightItems, ·⟩))

def occurrences (line : Line) : List Occurrence :=
  match line.defines? with
  | .ok (some os) => os
  | _ => []

def failure? (line : Line) : Option Diagnostic :=
  match line.defines? with
  | .error d => some d
  | .ok _ => none

/-- A line that binds a pattern has the words of the pattern as its names, from left to right, and
the path of each leads to it. -/
theorem occurrences_of_pattern {line : Line} {sides : TwoSided} {p : Pattern}
    (two_sided : twoSided? (· == .definition) line.pos line.items = .ok (some sides))
    (read : Pattern.read sides.left.pos sides.leftItems = .ok p) :
    line.occurrences.map (·.name) = p.words ∧
      ∀ o ∈ line.occurrences, o.mark = sides.mark.pos ∧ o.value = sides.rightItems ∧
        p.at? o.bound.path = some (.bind o.name o.bound.pos) := by
  have own : line.occurrences = p.names.map (⟨sides.mark.pos, sides.rightItems, ·⟩) := by
    simp only [occurrences, defines?, two_sided, read, bind, Except.bind, pure, Except.pure]
  rw [own]
  refine ⟨?_, fun o inside => ?_⟩
  · rw [List.map_map]
    exact p.map_name_namesAt []
  · obtain ⟨bound, named, rfl⟩ := List.mem_map.1 inside
    obtain ⟨below, path, leads⟩ := (p.mem_namesAt [] bound).1 named
    rw [List.nil_append] at path
    exact ⟨rfl, rfl, path ▸ leads⟩

def isOther (line : Line) : Bool :=
  !line.isBlank &&
    match twoSided? (· == .definition) line.pos line.items with
    | .ok none => true
    | _ => false

end Line

def occurrences (lines : List Line) : List Occurrence := lines.flatMap Line.occurrences

namespace Diagnostic

def tellsRepeated (d : Diagnostic) : Bool :=
  "Duplicate binding name ".toList.isPrefixOf d.message.toList

def repeats (name : String) (d : Diagnostic) : Bool := d.message == "Duplicate binding name " ++ name

theorem tellsRepeated_of_repeats {name : String} {d : Diagnostic} (h : d.repeats name = true) :
    d.tellsRepeated = true := by
  rw [tellsRepeated, beq_iff_eq.1 h, List.isPrefixOf_iff_prefix, String.toList_append]
  exact List.prefix_append _ _

theorem repetition_repeats (name : String) (o : Occurrence) (first : Position) :
    (o.repetition first).repeats name = (o.name == name) := by
  show ("Duplicate binding name " ++ o.name == "Duplicate binding name " ++ name) = _
  rw [Bool.eq_iff_iff, beq_iff_eq, beq_iff_eq, String.append_right_inj]

theorem repetition_tellsRepeated (o : Occurrence) (first : Position) :
    (o.repetition first).tellsRepeated = true := by
  have own := repetition_repeats o.name o first
  rw [beq_self_eq_true] at own
  exact tellsRepeated_of_repeats own

theorem OfLine.not_tellsRepeated {d : Diagnostic} (h : d.OfLine) : d.tellsRepeated = false := by
  have letter : d.message.toList.head? ≠ some 'D' := by
    cases h with
    | strayInChain pos kind =>
      show ("unexpected " ++ kind ++ " in operator chain").toList.head? ≠ some 'D'
      rw [String.append_assoc, String.toList_append]
      exact (by decide : some 'u' ≠ some 'D')
    | notPattern pos kind =>
      show ("Expected ident for bind lhs, found " ++ kind).toList.head? ≠ some 'D'
      rw [String.toList_append]
      exact (by decide : some 'E' ≠ some 'D')
    | trailingAfterLines => exact (by decide : Cause.trailingAfterLines.message.toList.head? ≠ some 'D')
    | notTwoSided => exact (by decide : Cause.notTwoSided.message.toList.head? ≠ some 'D')
    | emptyPattern => exact (by decide : Cause.emptyPattern.message.toList.head? ≠ some 'D')
    | trailingInPattern => exact (by decide : Cause.trailingInPattern.message.toList.head? ≠ some 'D')
    | mapPattern => exact (by decide : Cause.mapPattern.message.toList.head? ≠ some 'D')
  cases tells : d.tellsRepeated with
  | false => rfl
  | true =>
    obtain ⟨rest, same⟩ := List.isPrefixOf_iff_prefix.1 tells
    rw [← same] at letter
    exact absurd rfl letter

end Diagnostic

namespace Line

theorem defines?_ofLine {line : Line} {d : Diagnostic} (h : line.defines? = .error d) : d.OfLine := by
  unfold defines? at h
  cases hs : twoSided? (· == .definition) line.pos line.items with
  | error found =>
    rw [hs] at h
    cases h
    exact twoSided?_ofLine hs
  | ok sides? =>
    rw [hs] at h
    cases sides? with
    | none => cases h
    | some sides =>
      cases hp : Pattern.read sides.left.pos sides.leftItems with
      | error found =>
        simp only [bind, Except.bind, hp] at h
        cases h
        exact Pattern.read_ofLine hp
      | ok pattern =>
        simp only [bind, Except.bind, hp] at h
        cases h

theorem isOther_eq (line : Line) : line.isOther =
    (!line.isBlank && match line.defines? with | .ok none => true | _ => false) := by
  unfold isOther defines?
  cases hs : twoSided? (· == .definition) line.pos line.items with
  | error d => rfl
  | ok sides? =>
    cases sides? with
    | none => rfl
    | some sides =>
      cases hp : Pattern.read sides.left.pos sides.leftItems with
      | error d => simp [bind, Except.bind, hp]
      | ok pattern => simp [bind, Except.bind, hp, pure, Except.pure]

theorem defines?_blank {line : Line} (h : line.isBlank = true) : line.defines? = .ok none := by
  have none_solid : trimStart line.items = [] := by
    rw [trimStart, List.dropWhile_eq_nil_iff]
    simpa [Line.isBlank] using h
  have nothing : trim line.items = [] := by
    rw [trim, none_solid]
    rfl
  rw [defines?, twoSided?, nothing]
  rfl

end Line

theorem Table.keys_put {κ α : Type} [DecidableEq κ] (t : Table κ α) (k : κ) (a : α) :
    (t.put k a).keys = if (t.get? k).isSome then t.keys else t.keys ++ [k] := by
  obtain ⟨entries⟩ := t
  simp only [put, get?, keys]
  induction entries with
  | nil => rfl
  | cons entry rest ih =>
    obtain ⟨own, b⟩ := entry
    by_cases same : own = k
    · simp [replace, find, same]
    · simp only [replace, find, if_neg same, List.map_cons, ih]
      exact apply_ite (own :: ·) _ _ _

theorem Table.nodup_put {κ α : Type} [DecidableEq κ] {t : Table κ α} (distinct : t.keys.Nodup) (k : κ)
    (a : α) : (t.put k a).keys.Nodup := by
  rw [keys_put]
  split
  · exact distinct
  · next fresh =>
    have new : k ∉ t.keys := fun inside => fresh ((mem_keys_iff t k).1 inside)
    refine List.nodup_append.2 ⟨distinct, List.pairwise_singleton _ k, ?_⟩
    rintro own inside other hm rfl
    exact new (List.mem_singleton.1 hm ▸ inside)

namespace Body

open Occurrence

def bindAt (read : Definitions × List Diagnostic) (o : Occurrence) : Definitions × List Diagnostic :=
  define o.mark o.value read o.bound

section

variable {definitions : Definitions} {found : List Diagnostic} {o : Occurrence}

theorem bindAt_first (h : definitions.get? o.name = none) :
    bindAt (definitions, found) o = (definitions.put o.name o.definition, found) := by
  have fresh : definitions.get? o.bound.name = none := h
  rw [bindAt, define, fresh]
  rfl

theorem bindAt_later {previous : Definition} (h : definitions.get? o.name = some previous) :
    bindAt (definitions, found) o = (definitions.put o.name (.erroneous previous.pos),
      found ++ [o.repetition previous.pos]) := by
  have taken : definitions.get? o.bound.name = some previous := h
  rw [bindAt, define, taken]
  rfl

end

theorem foldl_bindAt (os : List Occurrence) (definitions : Definitions)
    (before found : List Diagnostic) :
    os.foldl bindAt (definitions, before ++ found) =
      ((os.foldl bindAt (definitions, found)).1, before ++ (os.foldl bindAt (definitions, found)).2) := by
  induction os generalizing definitions found with
  | nil => rfl
  | cons o rest ih =>
    rw [List.foldl_cons, List.foldl_cons]
    cases hp : definitions.get? o.name with
    | none => rw [bindAt_first hp, bindAt_first hp, ih]
    | some previous => rw [bindAt_later hp, bindAt_later hp, List.append_assoc, ih]

/-- The table holds what the occurrences of each name come to, and the rest of them was told of. -/
structure Records (os : List Occurrence) (definitions : Definitions) (found : List Diagnostic) :
    Prop where
  distinct : definitions.keys.Nodup
  entries : ∀ name, definitions.get? name = standsFor? (named name os)
  repeated : ∀ name, found.filter (·.repeats name) = repetitions (named name os)

theorem records_nil : Records [] .empty [] := ⟨List.nodup_nil, fun _ => rfl, fun _ => rfl⟩

variable {os : List Occurrence} {definitions : Definitions} {found : List Diagnostic}

theorem Records.mem_keys (h : Records os definitions found) (name : String) :
    name ∈ definitions.keys ↔ ∃ o ∈ os, o.name = name := by
  rw [Table.mem_keys_iff, h.entries, ← Option.ne_none_iff_isSome, Ne, standsFor?_eq_none]
  simp [named]

theorem Records.more (h : Records os definitions found) {d : Diagnostic}
    (hd : d.tellsRepeated = false) : Records os definitions (found ++ [d]) where
  distinct := h.distinct
  entries := h.entries
  repeated := by
    intro name
    have other : d.repeats name = false :=
      Bool.eq_false_iff.2 fun hr => by simp [Diagnostic.tellsRepeated_of_repeats hr] at hd
    rw [List.filter_append, h.repeated name]
    simp [other]

theorem Records.put (h : Records os definitions found) {o : Occurrence} {entry : Definition}
    {more : List Diagnostic} (entered : standsFor? (named o.name os ++ [o]) = some entry)
    (told : repetitions (named o.name os ++ [o]) = repetitions (named o.name os) ++ more)
    (own : ∀ name, more.filter (·.repeats name) = if o.name = name then more else []) :
    Records (os ++ [o]) (definitions.put o.name entry) (found ++ more) where
  distinct := Table.nodup_put h.distinct _ _
  entries := by
    intro name
    rw [Table.get?_put, named_snoc]
    split
    · next same => rw [← same, entered]
    · exact h.entries name
  repeated := by
    intro name
    rw [List.filter_append, h.repeated name, own name, named_snoc]
    split
    · next same => rw [← same, told]
    · exact List.append_nil _

theorem Records.bindAt (h : Records os definitions found) (o : Occurrence) :
    Records (os ++ [o]) (bindAt (definitions, found) o).1 (bindAt (definitions, found) o).2 := by
  have own := h.entries o.name
  cases hp : definitions.get? o.name with
  | none =>
    have first : named o.name os = [] := standsFor?_eq_none.1 (own.symm.trans hp)
    have entered : Records (os ++ [o]) (definitions.put o.name o.definition) (found ++ []) :=
      h.put (by rw [first]; rfl) (by rw [first]; rfl) (by simp)
    rw [bindAt_first hp]
    rwa [List.append_nil] at entered
  | some previous =>
    obtain ⟨entered, told⟩ := snoc_of_standsFor? (own.symm.trans hp) o
    rw [bindAt_later hp]
    refine h.put entered told fun name => ?_
    by_cases same : o.name = name <;> simp [Diagnostic.repetition_repeats, same]

theorem Records.foldl (more : List Occurrence) (h : Records os definitions found) :
    Records (os ++ more) (more.foldl Body.bindAt (definitions, found)).1
      (more.foldl Body.bindAt (definitions, found)).2 := by
  induction more generalizing os definitions found with
  | nil => rwa [List.append_nil]
  | cons o rest ih =>
    rw [List.append_cons]
    exact ih (h.bindAt o)

theorem foldl_bindAt_failures (os : List Occurrence) (definitions : Definitions)
    (found : List Diagnostic) :
    (os.foldl bindAt (definitions, found)).2.filter (!·.tellsRepeated) =
      found.filter (!·.tellsRepeated) := by
  induction os generalizing definitions found with
  | nil => rfl
  | cons o rest ih =>
    rw [List.foldl_cons]
    cases hp : definitions.get? o.name with
    | none => rw [bindAt_first hp, ih]
    | some previous =>
      rw [bindAt_later hp, ih, List.filter_append]
      simp [Diagnostic.repetition_tellsRepeated]

theorem readLine_eq (body : Body) (line : Line) :
    readLine body line = line.defines?.map fun
      | none => ({ body with lines := body.lines ++ [line] }, [])
      | some os =>
        ({ body with definitions := (os.foldl bindAt (body.definitions, [])).1 },
          (os.foldl bindAt (body.definitions, [])).2) := by
  unfold readLine Line.defines?
  cases hs : twoSided? (· == .definition) line.pos line.items with
  | error d => rfl
  | ok sides? =>
    cases sides? with
    | none => rfl
    | some sides =>
      cases hp : Pattern.read sides.left.pos sides.leftItems with
      | error d => simp [bind, Except.bind, hp, Except.map]
      | ok pattern =>
        simp only [bind, Except.bind, hp, Except.map, pure, Except.pure, List.foldl_map]
        rfl

/-- What has been read of a body is what can be read off its lines. -/
structure Tabulates (lines : List Line) (body : Body) (found : List Diagnostic) : Prop where
  kept : body.lines = lines.filter Line.isOther
  table : Records (occurrences lines) body.definitions found
  /-- All else that is told is of the lines that fail, one each. -/
  failures : found.filter (!·.tellsRepeated) = lines.filterMap Line.failure?

theorem empty_tabulates : Tabulates [] empty [] := ⟨rfl, records_nil, rfl⟩

variable {before : List Line} {body : Body} {line : Line}

theorem occurrences_snoc (before : List Line) (line : Line) :
    occurrences (before ++ [line]) = occurrences before ++ line.occurrences := by
  simp [occurrences]

theorem Tabulates.keep (h : Tabulates before body found) (own : line.defines? = .ok none) :
    Tabulates (before ++ [line])
      { body with lines := body.lines ++ if line.isBlank then [] else [line] } found where
  kept := by
    rw [List.filter_append, h.kept]
    cases blank : line.isBlank <;> simp [Line.isOther_eq, own, blank]
  table := by simpa [occurrences_snoc, Line.occurrences, own] using h.table
  failures := by simpa [Line.failure?, own] using h.failures

theorem Tabulates.fail (h : Tabulates before body found) {d : Diagnostic}
    (own : line.defines? = .error d) : Tabulates (before ++ [line]) body (found ++ [d]) where
  kept := by simpa [Line.isOther_eq, own] using h.kept
  table := by
    have recorded := h.table.more (Line.defines?_ofLine own).not_tellsRepeated
    simpa [occurrences_snoc, Line.occurrences, own] using recorded
  failures := by
    simp [Line.failure?, own, h.failures, (Line.defines?_ofLine own).not_tellsRepeated]

theorem Tabulates.define (h : Tabulates before body found) {os : List Occurrence}
    (own : line.defines? = .ok (some os)) :
    Tabulates (before ++ [line])
      { body with definitions := (os.foldl bindAt (body.definitions, [])).1 }
      (found ++ (os.foldl bindAt (body.definitions, [])).2) := by
  have whole := foldl_bindAt os body.definitions found []
  rw [List.append_nil] at whole
  have recorded := h.table.foldl os
  have others := foldl_bindAt_failures os body.definitions found
  rw [whole] at recorded others
  refine ⟨?_, ?_, ?_⟩
  · simpa [Line.isOther_eq, own] using h.kept
  · simpa [occurrences_snoc, Line.occurrences, own] using recorded
  · simpa [Line.failure?, own, h.failures] using others

theorem readLines_tabulates (rest : List Line) (h : Tabulates before body found) :
    Tabulates (before ++ rest) (readLines rest (body, found)).1 (readLines rest (body, found)).2 := by
  induction rest generalizing before body found with
  | nil => rwa [List.append_nil]
  | cons line rest ih =>
    rw [List.append_cons, readLines]
    split
    · next blank =>
      have skipped := h.keep (Line.defines?_blank blank)
      rw [blank] at skipped
      exact ih (by simpa using skipped)
    · next solid =>
      rw [readLine_eq]
      cases own : line.defines? with
      | error d => exact ih (h.fail own)
      | ok os? =>
        cases os? with
        | none =>
          have kept := h.keep own
          rw [if_neg solid] at kept
          exact ih (by simpa using kept)
        | some os => exact ih (h.define own)

theorem read_lines {pos : Position} {nodes : List Tree} {found : List Diagnostic}
    (h : read pos nodes = .ok (body, found)) :
    ∃ lines, bodyLines pos nodes = .ok lines ∧ body.lines = lines.filter Line.isOther := by
  unfold read at h
  cases hl : bodyLines pos nodes with
  | error d =>
    rw [hl] at h
    cases h
  | ok lines =>
    rw [hl] at h
    have last := readLines_tabulates lines empty_tabulates
    rw [show readLines lines (empty, []) = (body, found) from Except.ok.inj h] at last
    exact ⟨lines, rfl, last.kept⟩

/-- A body is read whenever its lines can be split, and then its table is exact. The keys are the
names that occur in definition lines, each once. A name that occurs once stands for its element of
the value; one that occurs more often stands for an error at its first occurrence, on which each of
the others is told with a note. A line that fails is told about once and binds nothing, and the
other lines that are not blank are kept. -/
theorem read_exact (pos : Position) (nodes : List Tree) :
    match bodyLines pos nodes with
    | .error d => read pos nodes = .error d
    | .ok lines => ∃ body found, read pos nodes = .ok (body, found) ∧
        (∀ name, name ∈ body.definitions.keys ↔ ∃ o ∈ occurrences lines, o.name = name) ∧
        Tabulates lines body found := by
  unfold read
  cases hl : bodyLines pos nodes with
  | error d => rfl
  | ok lines =>
    have last := readLines_tabulates lines empty_tabulates
    exact ⟨_, _, rfl, last.table.mem_keys, last⟩

end Body

end NamespaceLang

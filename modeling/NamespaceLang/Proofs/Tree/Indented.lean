import NamespaceLang.Proofs.Tree.OneLine

/-!
# Texts that are indented further

The spaces put before a line stand behind the line feed that ends the line before,
so outside strings they belong to the blanks there. Only the first line has none
before it. A text that is indented as a whole is read lexeme by lexeme as before,
on lines that are so much further in.
-/

set_option autoImplicit false

namespace NamespaceLang

section

variable (last : Bool) (k : Nat)

/-- The spaces put before a line with `rest` to come. Whether an empty last line is one is left
open. -/
def margin (rest : List Char) : List Char :=
  if rest.isEmpty && !last then [] else List.replicate k ' '

def indentLater : List Char → List Char
  | [] => []
  | ch :: rest =>
    if ch = '\n' then ch :: (margin last k rest ++ indentLater rest) else ch :: indentLater rest

/-- The text with `k` spaces put before each of its lines. -/
def reindent (text : List Char) : List Char := margin last k text ++ indentLater last k text

theorem margin_eq (rest : List Char) : ∃ n, margin last k rest = List.replicate n ' ' := by
  unfold margin
  split
  · exact ⟨0, rfl⟩
  · exact ⟨k, rfl⟩

theorem margin_of_ne {rest : List Char} (h : rest ≠ []) : margin last k rest = List.replicate k ' ' := by
  cases rest with
  | nil => exact absurd rfl h
  | cons ch rest => rfl

theorem indentLater_of_ne {ch : Char} (h : ch ≠ '\n') (rest : List Char) :
    indentLater last k (ch :: rest) = ch :: indentLater last k rest := if_neg h

theorem indentLater_newline (rest : List Char) :
    indentLater last k ('\n' :: rest) = '\n' :: reindent last k rest := if_pos rfl

theorem head?_indentLater (rest : List Char) : (indentLater last k rest).head? = rest.head? := by
  cases rest with
  | nil => rfl
  | cons ch rest =>
    rw [indentLater]
    split <;> rfl

theorem leadingSpaces_indentLater (rest : List Char) :
    leadingSpaces (indentLater last k rest) = leadingSpaces rest := by
  induction rest with
  | nil => rfl
  | cons ch rest ih =>
    by_cases line : ch = '\n'
    · rw [line, indentLater_newline]
      rfl
    · rw [indentLater_of_ne last k line]
      simp only [leadingSpaces, List.takeWhile_cons] at ih ⊢
      split
      · rw [List.length_cons, List.length_cons, ih]
      · rfl

theorem leadingSpaces_reindent {text : List Char} (h : text ≠ []) :
    leadingSpaces (reindent last k text) = leadingSpaces text + k := by
  have spaces : ∀ (n : Nat) (rest : List Char),
      leadingSpaces (List.replicate n ' ' ++ rest) = leadingSpaces rest + n := by
    intro n rest
    simp [leadingSpaces, List.takeWhile_append_of_pos, Nat.add_comm]
  rw [reindent, margin_of_ne last k h, spaces, leadingSpaces_indentLater]

end

namespace Cursor

variable {last : Bool} {k : Nat} {c c' : Cursor}

/-- The second cursor reads the same text, indented further. -/
structure Indents (last : Bool) (k : Nat) (c c' : Cursor) : Prop where
  rest : c'.rest = indentLater last k c.rest
  indent : c.rest ≠ [] → c'.indent = c.indent + k

structure Level (last : Bool) (k : Nat) (c c' : Cursor) : Prop where
  rest : c'.rest = indentLater last k c.rest
  indent : c'.indent = c.indent + k

theorem Level.indents (h : c.Level last k c') : c.Indents last k c' := ⟨h.rest, fun _ => h.indent⟩

theorem Level.past (h : c'.indent = c.indent + k) {ch : Char} (line : ch ≠ '\n') (rest : List Char) :
    (c.past ch rest).Level last k (c'.past ch (indentLater last k rest)) := by
  rw [past_of_ne c line, past_of_ne c' line]
  exact ⟨rfl, h⟩

theorem Level.takeRun {p : Char → Bool} (plain : p '\n' = false) :
    ∀ (text : List Char) {c c' : Cursor}, c.Level last k c' → c.rest = text →
      (Cursor.takeRun p (indentLater last k text) c').1 = (Cursor.takeRun p text c).1 ∧
        (Cursor.takeRun p text c).2.Level last k (Cursor.takeRun p (indentLater last k text) c').2
  | [], c, c', h, _ => ⟨rfl, h⟩
  | ch :: rest, c, c', h, hr => by
    by_cases line : ch = '\n'
    · rw [line, indentLater_newline, Cursor.takeRun, Cursor.takeRun, plain]
      exact ⟨rfl, h⟩
    · rw [indentLater_of_ne last k line, Cursor.takeRun, Cursor.takeRun]
      cases p ch with
      | false => exact ⟨rfl, h⟩
      | true =>
        have inner := Level.takeRun plain rest (Level.past h.indent line rest) (past_rest c ch rest)
        exact ⟨congrArg (ch :: ·) inner.1, inner.2⟩

theorem Level.takeWhile {p : Char → Bool} (h : c.Level last k c') (plain : p '\n' = false) :
    (c'.takeWhile p).1 = (c.takeWhile p).1 ∧
      (c.takeWhile p).2.Level last k (c'.takeWhile p).2 := by
  rw [Cursor.takeWhile, Cursor.takeWhile, h.rest]
  exact Level.takeRun plain c.rest h rfl

theorem takeRun_spaces (n : Nat) (text : List Char) (c : Cursor)
    (hr : c.rest = List.replicate n ' ' ++ text) : ∃ later : Cursor, later.rest = text ∧
      later.indent = c.indent ∧ (n = 0 → later = c) ∧
      takeRun Text.isBlank (List.replicate n ' ' ++ text) c =
        (List.replicate n ' ' ++ (takeRun Text.isBlank text later).1,
          (takeRun Text.isBlank text later).2) := by
  induction n generalizing c with
  | zero => exact ⟨c, hr, rfl, fun _ => rfl, rfl⟩
  | succ n ih =>
    have line : ' ' ≠ '\n' := by decide
    have space : Text.isBlank ' ' = true := by decide
    obtain ⟨later, rest, indent, -, run⟩ :=
      ih (c.past ' ' (List.replicate n ' ' ++ text)) (past_rest _ _ _)
    refine ⟨later, rest, ?_, fun none_left => absurd none_left (Nat.succ_ne_zero n), ?_⟩
    · rw [indent, past_of_ne c line]
    · rw [List.replicate_succ, List.cons_append, takeRun, if_pos space, run]
      rfl

theorem indents_line (last : Bool) (k : Nat) {c c' : Cursor} {text : List Char} (hr : c.rest = text)
    (hi : c.indent = leadingSpaces text) (hr' : c'.rest = reindent last k text)
    (hi' : c'.indent = leadingSpaces (reindent last k text)) :
    ∃ n later, c.Indents last k later ∧ (n = 0 → later = c') ∧
      reindent last k text = List.replicate n ' ' ++ indentLater last k text ∧
      takeRun Text.isBlank (reindent last k text) c' =
        (List.replicate n ' ' ++ (takeRun Text.isBlank (indentLater last k text) later).1,
          (takeRun Text.isBlank (indentLater last k text) later).2) := by
  obtain ⟨n, hn⟩ := margin_eq last k text
  have split : reindent last k text = List.replicate n ' ' ++ indentLater last k text := by
    rw [reindent, hn]
  obtain ⟨later, rest, indent, first, run⟩ :=
    takeRun_spaces n (indentLater last k text) c' (hr'.trans split)
  refine ⟨n, later, ⟨by rw [rest, hr], fun some_line => ?_⟩, first, split, by rw [← run, ← split]⟩
  rw [indent, hi, hi', leadingSpaces_reindent last k (hr ▸ some_line)]

theorem Indents.takeRun : ∀ (text : List Char) {c c' : Cursor}, c.Indents last k c' → c.rest = text →
    (Cursor.takeRun Text.isBlank (indentLater last k text) c').1.contains '\n' =
        (Cursor.takeRun Text.isBlank text c).1.contains '\n' ∧
      (Cursor.takeRun Text.isBlank text c).2.Indents last k
        (Cursor.takeRun Text.isBlank (indentLater last k text) c').2
  | [], c, c', h, _ => ⟨rfl, h⟩
  | ch :: rest, c, c', h, hr => by
    have some_line : c.rest ≠ [] := by simp [hr]
    by_cases line : ch = '\n'
    · subst line
      have line : (c.past '\n' rest).indent = leadingSpaces rest := rfl
      have line' : (c'.past '\n' (reindent last k rest)).indent = leadingSpaces (reindent last k rest) :=
        rfl
      obtain ⟨n, later, indents, -, -, run⟩ :=
        indents_line last k (past_rest _ _ _) line (past_rest _ _ _) line'
      have inner := Indents.takeRun rest indents (past_rest c _ rest)
      rw [indentLater_newline, Cursor.takeRun, Cursor.takeRun, if_pos Text.isBlank_newline,
        if_pos Text.isBlank_newline, run]
      exact ⟨by simp, inner.2⟩
    · rw [indentLater_of_ne last k line, Cursor.takeRun, Cursor.takeRun]
      cases Text.isBlank ch with
      | false => exact ⟨rfl, h⟩
      | true =>
        have level : (c.past ch rest).Level last k (c'.past ch (indentLater last k rest)) :=
          Level.past (h.indent some_line) line rest
        have inner := Indents.takeRun rest level.indents (past_rest c ch rest)
        refine ⟨?_, inner.2⟩
        simp only [if_true, List.contains_cons, inner.1]

theorem takeRun_solid {text : List Char} (solid : ∀ ch ∈ text.head?, Text.isBlank ch = false)
    (c : Cursor) : takeRun Text.isBlank (indentLater last k text) c = ([], c) := by
  cases text with
  | nil => rfl
  | cons ch rest =>
    have first : Text.isBlank ch = false := solid ch rfl
    have line : ch ≠ '\n' := by
      rintro rfl
      cases first
    rw [indentLater_of_ne last k line, takeRun, first]
    rfl

end Cursor

namespace Lexeme

variable {last : Bool} {k : Nat} {c c' after after' : Cursor} {first : Char}

theorem name?_of_blank (blank : Text.isBlank first = true) (after : Cursor) :
    name? first after = none := by
  have letter : Letters.isIdentifier first = false := by
    refine Bool.eq_false_iff.2 fun letter => ?_
    rw [Text.isBlank_of_isAlphanum letter] at blank
    cases blank
  have builtin : first ≠ Letters.builtinSign := by
    rintro rfl
    cases blank
  have access : first ≠ Letters.accessSign := by
    rintro rfl
    cases blank
  simp [name?, letter, sigil?, builtin, access]

theorem ofBlanks_ne_mark (chars : List Char) (p : Punctuator) : ofBlanks chars ≠ .mark p := by
  unfold ofBlanks
  split <;> exact fun h => by cases h

theorem nextRegular_of_blank (taken : c.take? = some (first, after))
    (blank : Text.isBlank first = true) :
    nextRegular first after =
      (ofBlanks (c.takeWhile Text.isBlank).1, (c.takeWhile Text.isBlank).2) := by
  obtain ⟨rest, rfl, hr⟩ := Cursor.rest_of_take? taken
  have run : c.takeWhile Text.isBlank =
      (first :: ((c.past first rest).takeWhile Text.isBlank).1,
        ((c.past first rest).takeWhile Text.isBlank).2) := by
    rw [Cursor.takeWhile, Cursor.takeWhile, hr, Cursor.past_rest, Cursor.takeRun, if_pos blank]
  rw [nextRegular, name?_of_blank blank, run]
  simp [blank]

theorem name?_level (first : Char) (h : after.Level last k after') :
    (name? first after = none ∧ name? first after' = none) ∨
      ∃ named named', name? first after = some named ∧ name? first after' = some named' ∧
        named'.1 = named.1 ∧ named.2.Level last k named'.2 := by
  obtain ⟨run, level⟩ := h.takeWhile (p := Letters.isIdentifier) (by decide)
  unfold name?
  split
  · refine Or.inr ⟨_, _, rfl, rfl, ?_, level⟩
    exact congrArg (fun chars => leaf (.identifier .plain (String.ofList (first :: chars)))) run
  · split
    · exact Or.inl ⟨rfl, rfl⟩
    · dsimp only
      rw [run]
      split
      · exact Or.inl ⟨rfl, rfl⟩
      · exact Or.inr ⟨_, _, rfl, rfl, rfl, level⟩

theorem runsOn_level (first : Char) (h : after.Level last k after') :
    runsOn first after' = runsOn first after := by
  rw [runsOn, runsOn, Cursor.peek?, Cursor.peek?, h.rest, head?_indentLater]

theorem nextRegular_level (h : after.Level last k after') (solid : Text.isBlank first = false) :
    (nextRegular first after').1 = (nextRegular first after).1 ∧
      (nextRegular first after).2.Level last k (nextRegular first after').2 := by
  obtain ⟨run, pastRun⟩ := h.takeWhile (p := Letters.isOperator) (by decide)
  simp only [nextRegular, runsOn_level first h, run, solid]
  obtain ⟨none_, none_'⟩ | ⟨named, named', found, found', same, level⟩ := name?_level first h
  · rw [none_, none_']
    dsimp only
    split
    · next impossible => cases impossible
    · split
      · exact ⟨rfl, pastRun⟩
      · exact ⟨rfl, h⟩
  · rw [found, found']
    exact ⟨same, level⟩

/-- A lexeme is the same in a text that is indented further; a mark stands as much further in. -/
theorem nextRegular_indents (h : c.Indents last k c') (taken : c.take? = some (first, after)) :
    ∃ after', c'.take? = some (first, after') ∧
      (nextRegular first after').1 = (nextRegular first after).1 ∧
      (nextRegular first after).2.Indents last k (nextRegular first after').2 ∧
      ∀ p, (nextRegular first after).1 = .mark p →
        (nextRegular first after').2.indent = (nextRegular first after).2.indent + k := by
  obtain ⟨rest, rfl, hr⟩ := Cursor.rest_of_take? taken
  have some_line : c.rest ≠ [] := by simp [hr]
  cases blank : Text.isBlank first with
  | true =>
    obtain ⟨rest', hr'⟩ : ∃ rest', c'.rest = first :: rest' := by
      rw [h.rest, hr, indentLater]
      split <;> exact ⟨_, rfl⟩
    have taken' : c'.take? = some (first, c'.past first rest') := by rw [Cursor.take?, hr']
    obtain ⟨ends, indents⟩ := h.takeRun c.rest rfl
    have run : c'.takeWhile Text.isBlank =
        Cursor.takeRun Text.isBlank (indentLater last k c.rest) c' := by
      rw [Cursor.takeWhile, h.rest]
    refine ⟨_, taken', ?_⟩
    rw [nextRegular_of_blank taken blank, nextRegular_of_blank taken' blank, run]
    refine ⟨?_, indents, ?_⟩
    · simp only [ofBlanks, ends]
      rfl
    · exact fun p mark => absurd mark (ofBlanks_ne_mark _ p)
  | false =>
    have line : first ≠ '\n' := by
      rintro rfl
      cases blank
    have taken' : c'.take? = some (first, c'.past first (indentLater last k rest)) := by
      rw [Cursor.take?, h.rest, hr, indentLater_of_ne last k line]
    obtain ⟨same, level⟩ := nextRegular_level (Cursor.Level.past (h.indent some_line) line rest) blank
    exact ⟨_, taken', same, level.indents, fun _ _ => level.indent⟩

end Lexeme

end NamespaceLang

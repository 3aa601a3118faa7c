import NamespaceLang.Proofs.Tree.Brackets
import NamespaceLang.Proofs.Tree.Nesting

/-!
# Texts of one line

On one line the indentation of the cursor never changes, nothing is a line
break, and a text reads the same with a bracket around it: up to the bracket at
the end each lexeme is the same and stands one column further right. Literal
text in a string could go on over that bracket, but only if the string is not
closed before.
-/

set_option autoImplicit false

namespace NamespaceLang

namespace Cursor

structure OnLine (k : Nat) (c : Cursor) : Prop where
  rest : '\n' ∉ c.rest
  indent : c.indent = k

variable {k : Nat} {c : Cursor}

theorem past_of_ne (c : Cursor) {ch : Char} (h : ch ≠ '\n') (rest : List Char) :
    c.past ch rest = { c with rest, offset := c.offset + ch.utf8Size, col := c.col + 1 } := if_neg h

theorem OnLine.past (h : c.OnLine k) {ch : Char} {rest : List Char} (hr : c.rest = ch :: rest) :
    (c.past ch rest).OnLine k := by
  obtain ⟨inner, indent⟩ := h
  rw [hr, List.mem_cons, not_or] at inner
  rw [past_of_ne c (Ne.symm inner.1)]
  exact ⟨inner.2, indent⟩

end Cursor

namespace Lexeme

theorem next_onLine {k : Nat} (mode : Mode) (first : Char) {after : Cursor} (h : after.OnLine k) :
    (next mode first after).2.OnLine k :=
  next_rule (fun _ _ _ hr h => h.past hr) mode first h

theorem ofSpelling_ne_lineBreak (chars : List Char) : ofSpelling chars ≠ .lineBreak := by
  unfold ofSpelling
  dsimp only
  split
  · exact fun h => by cases h
  · split <;> exact fun h => by cases h

theorem next_ne_lineBreak (mode : Mode) {first : Char} {after : Cursor}
    (line : '\n' ∉ first :: after.rest) : (next mode first after).1 ≠ .lineBreak := by
  cases mode with
  | regular =>
    show (nextRegular first after).1 ≠ .lineBreak
    unfold nextRegular
    split
    · next named hn =>
      obtain ⟨content, leaf⟩ := (name?_run hn).1
      rw [leaf]
      exact fun h => by cases h
    · split
      · show ofBlanks _ ≠ _
        rw [Ne, ofBlanks_eq_lineBreak_iff, Cursor.takeWhile_run]
        exact fun ends => line ((List.takeWhile_sublist _).cons_cons first |>.subset ends)
      · split <;> exact ofSpelling_ne_lineBreak _
  | inString =>
    intro h
    have allowed := in_string_occurs first after
    rw [show (nextInString first after).1 = .lineBreak from h] at allowed
    cases allowed

end Lexeme

def Position.right (p : Position) : Position := { p with offset := p.offset + 1, col := p.col + 1 }

namespace Cursor

/-- The second cursor reads the same text in a bracket. -/
structure Beside (c c' : Cursor) : Prop where
  rest : c'.rest = c.rest ++ [')']
  position : c'.position = c.position.right

variable {c c' : Cursor}

theorem Beside.past (h : c.Beside c') {ch : Char} (line : ch ≠ '\n') (rest : List Char) :
    (c.past ch rest).Beside (c'.past ch (rest ++ [')'])) := by
  obtain ⟨-, position⟩ := h
  simp only [Cursor.position, Position.right, Position.mk.injEq] at position
  obtain ⟨file, offset, line_, col⟩ := position
  rw [past_of_ne c line, past_of_ne c' line]
  refine ⟨rfl, ?_⟩
  simp only [Cursor.position, Position.right, Position.mk.injEq]
  refine ⟨file, ?_, line_, ?_⟩ <;> omega

theorem Beside.take {first : Char} {after : Cursor} (h : c.Beside c') (line : '\n' ∉ c.rest)
    (taken : c.take? = some (first, after)) :
    ∃ after', c'.take? = some (first, after') ∧ after.Beside after' := by
  obtain ⟨rest, rfl, hr⟩ := rest_of_take? taken
  have plain : first ≠ '\n' := by
    rintro rfl
    exact line (hr ▸ List.mem_cons_self)
  refine ⟨c'.past first (rest ++ [')']), ?_, h.past plain rest⟩
  rw [take?, h.rest, hr]
  rfl

theorem Beside.takeRun {p : Char → Bool} : ∀ (text : List Char) {c c' : Cursor}, c.Beside c' →
    c.rest = text → '\n' ∉ text → (text.dropWhile p = [] → p ')' = false) →
    (Cursor.takeRun p (text ++ [')']) c').1 = (Cursor.takeRun p text c).1 ∧
      (Cursor.takeRun p text c).2.Beside (Cursor.takeRun p (text ++ [')']) c').2
  | [], c, c', h, _, _, stops => by
    have outside := stops rfl
    rw [List.nil_append, Cursor.takeRun, Cursor.takeRun, outside]
    exact ⟨rfl, h⟩
  | ch :: rest, c, c', h, hr, line, stops => by
    rw [List.mem_cons, not_or] at line
    rw [List.cons_append, Cursor.takeRun, Cursor.takeRun]
    cases hp : p ch with
    | false => exact ⟨rfl, h⟩
    | true =>
      rw [List.dropWhile_cons_of_pos hp] at stops
      have inner := Beside.takeRun rest (h.past (Ne.symm line.1) rest) (past_rest c ch rest) line.2 stops
      exact ⟨congrArg (ch :: ·) inner.1, inner.2⟩

theorem Beside.takeWhile {p : Char → Bool} (h : c.Beside c') (line : '\n' ∉ c.rest)
    (stops : c.rest.dropWhile p = [] → p ')' = false) :
    (c'.takeWhile p).1 = (c.takeWhile p).1 ∧ (c.takeWhile p).2.Beside (c'.takeWhile p).2 := by
  rw [Cursor.takeWhile, Cursor.takeWhile, h.rest]
  exact Beside.takeRun c.rest h rfl line stops

end Cursor

namespace Lexeme

variable {after after' : Cursor}

theorem name?_beside (first : Char) (h : after.Beside after') (line : '\n' ∉ after.rest) :
    (name? first after = none ∧ name? first after' = none) ∨
      ∃ named named', name? first after = some named ∧ name? first after' = some named' ∧
        named'.1 = named.1 ∧ named.2.Beside named'.2 := by
  obtain ⟨run, beside⟩ := h.takeWhile (p := Letters.isIdentifier) line fun _ => by decide
  unfold name?
  split
  · refine Or.inr ⟨_, _, rfl, rfl, ?_, beside⟩
    exact congrArg (fun chars => leaf (.identifier .plain (String.ofList (first :: chars)))) run
  · split
    · exact Or.inl ⟨rfl, rfl⟩
    · dsimp only
      rw [run]
      split
      · exact Or.inl ⟨rfl, rfl⟩
      · exact Or.inr ⟨_, _, rfl, rfl, rfl, beside⟩

theorem nextEscape_beside (h : after.Beside after') (line : '\n' ∉ after.rest)
    (closed : (nextEscape after).2.rest ≠ []) :
    (nextEscape after').1 = (nextEscape after).1 ∧ (nextEscape after).2.Beside (nextEscape after').2 := by
  unfold nextEscape at closed ⊢
  cases taken : after.take? with
  | none =>
    rw [taken] at closed
    unfold Cursor.take? at taken
    split at taken
    · next ends => exact absurd ends closed
    · cases taken
  | some pair =>
    obtain ⟨ch, later⟩ := pair
    obtain ⟨later', taken', beside⟩ := h.take line taken
    rw [taken']
    dsimp only
    split <;> (try split) <;> (try split) <;> (try split) <;> exact ⟨rfl, beside⟩

theorem runsOn_beside (first : Char) (h : after.Beside after') :
    runsOn first after' = runsOn first after := by
  unfold runsOn Cursor.peek?
  rw [h.rest]
  cases after.rest with
  | nil => rfl
  | cons ch rest => rfl

/-- A lexeme is the same in a bracket. Literal text has to end before. -/
theorem next_beside (mode : Mode) (first : Char) (h : after.Beside after') (line : '\n' ∉ after.rest)
    (closed : mode = .inString → first ≠ '\"' → (next mode first after).2.rest ≠ []) :
    (next mode first after').1 = (next mode first after).1 ∧
      (next mode first after).2.Beside (next mode first after').2 := by
  cases mode with
  | regular =>
    obtain ⟨blanks, pastBlanks⟩ := h.takeWhile (p := Text.isBlank) line fun _ => by decide
    obtain ⟨run, pastRun⟩ := h.takeWhile (p := Letters.isOperator) line fun _ => by decide
    simp only [next, nextRegular, runsOn_beside first h, blanks, run]
    obtain ⟨none_, none_'⟩ | ⟨named, named', found, found', same, beside⟩ := name?_beside first h line
    · rw [none_, none_']
      dsimp only
      split
      · exact ⟨rfl, pastBlanks⟩
      · split
        · exact ⟨rfl, pastRun⟩
        · exact ⟨rfl, h⟩
    · rw [found, found']
      exact ⟨same, beside⟩
  | inString =>
    have literal : first ≠ '\"' → first ≠ '\\' →
        after.rest.dropWhile isLiteral = [] → isLiteral ')' = false := by
      intro quote escape ends
      refine absurd ?_ (closed rfl quote)
      rw [next, nextInString, if_neg quote, if_neg escape, Cursor.takeWhile_rest, ends]
    simp only [next, nextInString] at closed ⊢
    split
    · exact ⟨rfl, h⟩
    · next quote =>
      split
      · next escape =>
        rw [if_neg quote, if_pos escape] at closed
        exact nextEscape_beside h line (closed trivial quote)
      · next escape =>
        obtain ⟨run, beside⟩ := h.takeWhile line (literal quote escape)
        rw [run]
        exact ⟨rfl, beside⟩

end Lexeme

end NamespaceLang

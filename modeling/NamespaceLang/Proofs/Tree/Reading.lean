import NamespaceLang.Tree.Tokenize

/-!
# Readings of a text

A reading is what the builder and the cursor are before each lexeme and after
the last one. The mode limits which lexemes can come next. Whatever holds of
the empty builder and is kept by placing a lexeme that its mode allows holds
in every state of a reading, and the tree of a text is made from the last one.
-/

set_option autoImplicit false

namespace NamespaceLang

theorem Text.isBlank_of_isAlphanum {c : Char} (h : c.isAlphanum = true) : isBlank c = false := by
  have kinds : (65 ≤ c.val ∧ c.val ≤ 90 ∨ 97 ≤ c.val ∧ c.val ≤ 122) ∨ 48 ≤ c.val ∧ c.val ≤ 57 := by
    have decided : (decide (65 ≤ c.val ∧ c.val ≤ 90) ||
        (decide (97 ≤ c.val) && decide (c.val ≤ 122)) ||
        (decide (48 ≤ c.val) && decide (c.val ≤ 57))) = true := h
    simpa using decided
  have same : c.val.toNat = c.toNat := rfl
  simp only [UInt32.le_iff_toNat_le, same, UInt32.reduceToNat] at kinds
  simp [isBlank, blankRanges, Ranges.covers]
  omega

theorem Punctuator.spelling_of_ofSpelling? {text : String} {p : Punctuator}
    (h : ofSpelling? text = some p) : p.spelling = text := by
  simpa using List.find?_some h

namespace Cursor

theorem rest_of_take? {c after : Cursor} {first : Char} (h : c.take? = some (first, after)) :
    ∃ rest, after = c.past first rest ∧ c.rest = first :: rest := by
  unfold take? at h
  split at h
  · cases h
  · next ch rest hr =>
    cases h
    exact ⟨rest, rfl, hr⟩

theorem takeRun_rule {P : Cursor → Prop}
    (past : ∀ (c : Cursor) (ch : Char) (rest : List Char), c.rest = ch :: rest → P c → P (c.past ch rest))
    (p : Char → Bool) : ∀ (text : List Char) (c : Cursor), c.rest = text → P c → P (takeRun p text c).2
  | [], _, _, h => h
  | ch :: rest, c, hr, h => by
    rw [takeRun]
    split
    · exact takeRun_rule past p rest (c.past ch rest) (past_rest c ch rest) (past c ch rest hr h)
    · exact h

theorem take?_of_nil {c : Cursor} (h : c.rest = []) : c.take? = none := by
  rw [take?, h]

def Faces (indent : Nat) (text : List Char) (c : Cursor) : Prop := c.rest = text ∧ c.indent = indent

variable {indent : Nat} {c : Cursor}

theorem Faces.past {ch : Char} {rest : List Char} (h : c.Faces indent (ch :: rest)) (line : ch ≠ '\n') :
    (c.past ch rest).Faces indent rest := by
  unfold Cursor.past
  rw [if_neg line]
  exact ⟨rfl, h.2⟩

theorem Faces.take {ch : Char} {rest : List Char} (h : c.Faces indent (ch :: rest)) :
    c.take? = some (ch, c.past ch rest) := by
  rw [take?, h.1]

theorem Faces.takeWhile {p : Char → Bool} {run rest : List Char} (h : c.Faces indent (run ++ rest))
    (all : ∀ ch ∈ run, p ch = true ∧ ch ≠ '\n') (ends : ∀ ch ∈ rest.head?, p ch = false) :
    (c.takeWhile p).1 = run ∧ (c.takeWhile p).2.Faces indent rest := by
  rw [Cursor.takeWhile, h.1]
  induction run generalizing c with
  | nil =>
    cases rest with
    | nil => exact ⟨rfl, h⟩
    | cons next rest =>
      have outside : p next = false := ends next rfl
      simp only [List.nil_append, takeRun, outside]
      exact ⟨rfl, h⟩
  | cons ch run ih =>
    obtain ⟨⟨own, line⟩, others⟩ := List.forall_mem_cons.1 all
    obtain ⟨run_eq, later⟩ := ih (h.past line) others
    simp only [List.cons_append, takeRun, own, if_true]
    exact ⟨congrArg (ch :: ·) run_eq, later⟩

end Cursor

namespace Lexeme

/-- Whether the lexeme can come up in a mode. Operators are made by the builder only. -/
def occursIn : Mode → Lexeme → Bool
  | .inString, .leaf (.text _) | .inString, .badEscape _ | .inString, .mark (.closer .quote) => true
  | .inString, _ => false
  | .regular, .leaf (.text _) | .regular, .leaf (.operator _) | .regular, .badEscape _ => false
  | .regular, .mark (.closer .quote) => false
  | .regular, _ => true

theorem regular_of_occurs {l : Lexeme} {mode : Mode} (h : l.occursIn mode)
    (outside : l.occursIn .inString = false) : mode = .regular := by
  cases mode with
  | regular => rfl
  | inString => simp [outside] at h

theorem name_occurs (first : Char) (after : Cursor) (named : Lexeme × Cursor)
    (h : name? first after = some named) : named.1.occursIn .regular := by
  unfold name? at h
  split at h
  · cases h
    rfl
  · split at h
    · cases h
    · dsimp only at h
      split at h <;> cases h
      rfl

theorem blanks_occur (chars : List Char) : (ofBlanks chars).occursIn .regular := by
  unfold ofBlanks
  split <;> rfl

theorem spelling_occurs (chars : List Char)
    (h : String.ofList chars ≠ Delimiter.quote.closingSpelling) :
    (ofSpelling chars).occursIn .regular := by
  unfold ofSpelling
  dsimp only
  split
  · next p hp =>
    have hs := Punctuator.spelling_of_ofSpelling? hp
    rcases p with d | d | w | j
    · rfl
    · cases d <;> first | rfl | exact absurd hs.symm h
    · rfl
    · rfl
  · split <;> rfl

theorem run_ne_quote (first : Char) (run : List Char)
    (h : ∀ c ∈ run, Letters.isOperator c) :
    String.ofList (first :: run) ≠ Delimiter.quote.closingSpelling := by
  intro he
  have hl := congrArg String.toList he
  rw [String.toList_ofList] at hl
  have hr : run = "in_string>\"".toList := (List.cons.inj hl).2
  have := h 'i' (by rw [hr]; decide)
  revert this
  decide

theorem regular_occurs (first : Char) (after : Cursor) :
    (nextRegular first after).1.occursIn .regular := by
  unfold nextRegular
  split
  · next named h => exact name_occurs first after named h
  · split
    · exact blanks_occur _
    · split
      · apply spelling_occurs
        apply run_ne_quote
        rw [Cursor.takeWhile_run]
        exact List.all_eq_true.1 List.all_takeWhile
      · exact spelling_occurs _ (run_ne_quote first [] (by simp))

theorem in_string_occurs (first : Char) (after : Cursor) :
    (nextInString first after).1.occursIn .inString := by
  unfold nextInString
  split
  · rfl
  · split
    · unfold nextEscape
      split
      · rfl
      · split <;> (try split) <;> (try split) <;> (try split) <;> rfl
    · rfl

theorem next_occurs (mode : Mode) (first : Char) (after : Cursor) :
    (next mode first after).1.occursIn mode := by
  cases mode
  · exact regular_occurs first after
  · exact in_string_occurs first after

theorem name?_run {first : Char} {after : Cursor} {named : Lexeme × Cursor}
    (h : name? first after = some named) :
    (∃ content, named.1 = .leaf content) ∧ named.2 = (after.takeWhile Letters.isIdentifier).2 := by
  unfold name? at h
  split at h
  · cases h
    exact ⟨⟨_, rfl⟩, rfl⟩
  · split at h
    · cases h
    · dsimp only at h
      split at h <;> cases h
      exact ⟨⟨_, rfl⟩, rfl⟩

/-- The rule for the cursor behind a lexeme, which takes one character after the other. -/
theorem next_rule {P : Cursor → Prop}
    (past : ∀ (c : Cursor) (ch : Char) (rest : List Char), c.rest = ch :: rest → P c → P (c.past ch rest))
    (mode : Mode) (first : Char) {after : Cursor} (h : P after) : P (next mode first after).2 := by
  have runs : ∀ p, P (after.takeWhile p).2 := fun p => Cursor.takeRun_rule past p after.rest after rfl h
  cases mode with
  | regular =>
    show P (nextRegular first after).2
    unfold nextRegular
    split
    · next named hn => exact (name?_run hn).2 ▸ runs _
    · split
      · exact runs _
      · split
        · exact runs _
        · exact h
  | inString =>
    show P (nextInString first after).2
    unfold nextInString
    split
    · exact h
    · split
      · unfold nextEscape
        split
        · exact h
        · next ch later ht =>
          obtain ⟨rest, rfl, hr⟩ := Cursor.rest_of_take? ht
          have one := past after ch rest hr h
          split <;> (try split) <;> (try split) <;> (try split) <;> exact one
      · exact runs _

end Lexeme

/-- The states in which a text is read. -/
inductive Reading (file : String) (text : List Char) : Builder → Cursor → Prop
  | start : Reading file text .empty (.start file text)
  | next {b : Builder} {c after : Cursor} {first : Char}
      (before : Reading file text b c) (going : b.stopped = false)
      (taken : c.take? = some (first, after)) :
      Reading file text
        (b.place (Lexeme.next b.mode first after).1 c.position (Lexeme.next b.mode first after).2)
        (Lexeme.next b.mode first after).2

theorem Builder.run_next (b : Builder) {c after : Cursor} {first : Char}
    (h : c.take? = some (first, after)) :
    b.run c =
      if (b.place (Lexeme.next b.mode first after).1 c.position
          (Lexeme.next b.mode first after).2).stopped then
        (b.place (Lexeme.next b.mode first after).1 c.position (Lexeme.next b.mode first after).2,
          (Lexeme.next b.mode first after).2)
      else
        (b.place (Lexeme.next b.mode first after).1 c.position (Lexeme.next b.mode first after).2).run
          (Lexeme.next b.mode first after).2 := by
  rw [Builder.run.eq_def]
  split
  · next hn =>
    rw [h] at hn
    cases hn
  · next first' after' hs =>
    rw [h] at hs
    cases hs
    rfl

theorem Builder.run_lexeme {b placed : Builder} {c after later : Cursor} {l : Lexeme} {first : Char}
    (taken : c.take? = some (first, after)) (lexed : Lexeme.next b.mode first after = (l, later))
    (place : b.place l c.position later = placed) (going : placed.stopped = false) :
    b.run c = placed.run later := by
  rw [run_next b taken, lexed, place, if_neg (by simp [going])]

theorem Builder.run_end (b : Builder) {c : Cursor} (h : c.take? = none) : b.run c = (b, c) := by
  rw [Builder.run.eq_def]
  split
  · rfl
  · next taken =>
    rw [h] at taken
    cases taken

section

variable {file : String} {text : List Char}

theorem reading_invariant {P : Builder → Prop} (start : P .empty)
    (step : ∀ (b : Builder) (l : Lexeme) (pos : Position) (after : Cursor),
      l.occursIn b.mode → b.stopped = false → P b → P (b.place l pos after))
    {b : Builder} {c : Cursor} (h : Reading file text b c) : P b := by
  induction h with
  | start => exact start
  | next before going taken ih => exact step _ _ _ _ (Lexeme.next_occurs _ _ _) going ih

theorem run_reading (b : Builder) (c : Cursor) (going : b.stopped = false)
    (h : Reading file text b c) :
    Reading file text (b.run c).1 (b.run c).2 ∧
      ((b.run c).1.stopped = true ∨ (b.run c).2.rest = []) := by
  fun_induction Builder.run b c with
  | case1 b c ht =>
    refine ⟨h, Or.inr ?_⟩
    unfold Cursor.take? at ht
    split at ht
    · assumption
    · cases ht
  | case2 b c first after ht lexed placed hs => exact ⟨h.next going ht, Or.inl hs⟩
  | case3 b c first after ht lexed placed hs ih => exact ih (by simpa using hs) (h.next going ht)

theorem reading_run {b : Builder} {c : Cursor} (h : Reading file text b c) :
    (if b.stopped then (b, c) else b.run c) = Builder.empty.run (.start file text) := by
  induction h with
  | start => rfl
  | @next b c after first before going taken ih =>
    rw [if_neg (by simp [going]), Builder.run_next b taken] at ih
    exact ih

end

theorem tokenize_reading (file : String) (text : List Char) :
    ∃ b c, Reading file text b c ∧ (b.stopped = true ∨ c.rest = []) ∧
      (tokenize file text).nodes = (b.finish c.position).items.toList ∧
      (tokenize file text).diagnostics = (b.finish c.position).diagnostics :=
  have ⟨read, ended⟩ := run_reading Builder.empty (.start file text) rfl Reading.start
  ⟨_, _, read, ended, rfl, rfl⟩

end NamespaceLang

import NamespaceLang.Proofs.Tree.Bracketed

/-!
# A text in brackets

A text of one line of which nothing is told reads the same in a pair of
brackets, lexeme by lexeme, until a wrapper comes upon a later operand of an
assignment outside all brackets. The file leaves that chain open, and the
wrapper takes the operand; a bracket does not, and it takes the chain. The tree
keeps what was wrapped, so it says whether that happened.
-/

set_option autoImplicit false

namespace NamespaceLang

open OpenScope NamespaceLang.Tree

def inBrackets (text : List Char) : List Char := '(' :: text ++ [')']

theorem inBrackets_line {text : List Char} (line : '\n' ∉ text) : '\n' ∉ inBrackets text := by
  simp [inBrackets, line]

section

variable {file : String} {text : List Char} {b : Builder} {c : Cursor}

theorem tokenize_of_end (h : Reading file text b c) (ends : c.rest = []) :
    tokenize file text = ⟨(b.finish c.position).items.toList, (b.finish c.position).diagnostics⟩ := by
  have whole := reading_run h
  rw [Builder.run_end b (Cursor.take?_of_nil ends), ite_self] at whole
  rw [tokenize, ← whole]

theorem reading_quiet (h : Reading file text b c) (quiet : (tokenize file text).diagnostics = []) :
    b.diagnostics = [] := by
  have told := reading_diagnostics h
  rw [quiet] at told
  exact List.prefix_nil.1 told

theorem reading_none_open (h : Reading file text b c)
    (quiet : (tokenize file text).diagnostics = []) (ends : c.rest = []) :
    openBrackets b.scopes = [] := by
  have clean : Balanced b.diagnostics := by
    rw [reading_quiet h quiet]
    exact balanced_nil
  refine (Builder.finish_told (reading_sound h) clean c.position).1 ?_
  rw [tokenize_of_end h ends] at quiet
  dsimp only at quiet
  rw [quiet]
  exact balanced_nil

theorem reading_inString_rest (h : Reading file text b c)
    (quiet : (tokenize file text).diagnostics = []) (inside : b.mode = .inString) : c.rest ≠ [] := by
  intro ends
  have none_open := reading_none_open h quiet ends
  rcases (reading_inStep h).inside inside with string | ⟨d, hm, -⟩
  · cases hs : b.scopes with
    | nil =>
      rw [hs] at string
      cases string
    | cons s outer =>
      rw [hs] at string
      have own : s.bracket? = some (.quote, s.indent) := by
        rw [OpenScope.bracket?, kind_of_isString string]
      rw [hs, openBrackets, List.filterMap_cons_some own] at none_open
      cases none_open
  · rw [reading_quiet h quiet] at hm
    cases hm

theorem reading_going (h : Reading file text b c) (quiet : (tokenize file text).diagnostics = []) :
    b.stopped = false := by
  cases h with
  | start => rfl
  | next before going taken =>
    have placed_quiet := reading_quiet (before.next going taken) quiet
    rw [(Builder.place_mode (placed_quiet.trans (reading_quiet before quiet).symm)).2, going]

theorem nextInString_modeAfter {first : Char} (quote : first ≠ '\"') (after : Cursor) :
    (Lexeme.nextInString first after).1.modeAfter .inString = .inString := by
  refine Lexeme.modeAfter_of_bracket? (t := ⟨_, after.position, (Lexeme.nextInString first after).2⟩) ?_ _
  rw [Lexeme.nextInString, if_neg quote]
  split
  · exact (Lexeme.nextEscape_scan after after.position).1
  · rfl

theorem reading_opened (file : String) (text : List Char) :
    ∃ c', Reading file (inBrackets text) (Builder.empty.bracketed file) c' ∧
      (Cursor.start file text).Beside c' := by
  obtain ⟨c', here⟩ :
      ∃ c', c' = (Cursor.start file (inBrackets text)).past '(' (text ++ [')']) := ⟨_, rfl⟩
  have taken : (Cursor.start file (inBrackets text)).take? = some ('(', c') := by
    rw [here]
    rfl
  have level : c'.indent = 0 := by
    rw [here]
    rfl
  have opener : Bracket.ofChar? 0 '(' = some ⟨true, .round, 0⟩ := rfl
  have lexed : Lexeme.next .regular '(' c' = (.mark (.opener .round), c') :=
    (Lexeme.nextRegular_bracket opener c').1
  have opened : Builder.empty.place (.mark (.opener .round))
      (Cursor.start file (inBrackets text)).position c' = Builder.empty.bracketed file := by
    simp [Builder.place, Builder.openBlock, Builder.empty, Builder.bracketed, Builder.enter,
      nestingLimit, level, outermost, Delimiter.openingMode?, Cursor.start, Cursor.position,
      Position.start]
  have read : Reading file (inBrackets text) _ _ := Reading.start.next rfl taken
  rw [show Builder.empty.mode = .regular from rfl, lexed, opened] at read
  exact ⟨c', read, by rw [here]; rfl, by rw [here]; rfl⟩

theorem reading_inBrackets (line : '\n' ∉ text) (quiet : (tokenize file text).diagnostics = [])
    (shallow : ∀ d ∈ (tokenize file (inBrackets text)).diagnostics, d.cause? ≠ some .nestingTooDeep)
    (first : wrapsLaterAll true (tokenize file text).nodes = false) (h : Reading file text b c) :
    ∃ c', Reading file (inBrackets text) (b.bracketed file) c' ∧ c.Beside c' := by
  induction h with
  | start => exact reading_opened file text
  | @next b c after ch before going taken ih =>
    obtain ⟨c', read, beside⟩ := ih
    have here := (reading_line line before).1
    obtain ⟨rest, rfl, hr⟩ := Cursor.rest_of_take? taken
    obtain ⟨after', taken', past⟩ := beside.take here.rest taken
    have placed := before.next going taken
    have placed_quiet := reading_quiet placed quiet
    have mode := (Builder.place_mode (placed_quiet.trans (reading_quiet before quiet).symm)).1
    have closed : b.mode = .inString → ch ≠ '\"' →
        (Lexeme.next b.mode ch (c.past ch rest)).2.rest ≠ [] := by
      intro string quote
      refine reading_inString_rest placed quiet (mode.trans ?_)
      rw [string]
      exact nextInString_modeAfter quote _
    obtain ⟨same, later⟩ := Lexeme.next_beside b.mode ch past (here.past hr).rest closed
    have placed' := read.next going taken'
    have shallow' := fun e hm => shallow e ((reading_diagnostics placed').subset hm)
    have indent := (reading_line (inBrackets_line line) placed').1.indent
    have kept : (b.place (Lexeme.next b.mode ch (c.past ch rest)).1 c.position
        (Lexeme.next b.mode ch (c.past ch rest)).2).wrapsLater true = false := by
      refine Bool.eq_false_iff.2 fun wraps => ?_
      rw [reading_wrapsLater placed wraps] at first
      cases first
    rw [Builder.place_wrapsLater, Bool.or_eq_false_iff] at kept
    refine ⟨_, ?_, later⟩
    rw [Builder.place_bracketed (reading_sound before) (reading_sound read) (reading_tidy before)
      (Lexeme.next_occurs _ _ _) (Lexeme.next_ne_lineBreak _ ?_) indent later.position placed_quiet ?_ kept.2]
    · rw [← same, ← beside.position]
      exact placed'
    · rw [Cursor.past_rest, ← hr]
      exact here.rest
    · rw [← same, ← beside.position]
      exact shallow'

/-- In brackets, a text is one block with the nodes of the text one column further right, if no
assignment is wrapped in another operand than its first. -/
theorem tokenize_inBrackets (line : '\n' ∉ text) (quiet : (tokenize file text).diagnostics = [])
    (shallow : ∀ d ∈ (tokenize file (inBrackets text)).diagnostics, d.cause? ≠ some .nestingTooDeep)
    (first : wrapsLaterAll true (tokenize file text).nodes = false) :
    tokenize file (inBrackets text) =
      ⟨[.group (.start file) (.block .code "(" ")") (moveAll .right (tokenize file text).nodes)], []⟩ := by
  obtain ⟨b, c, read, ended, nodes, told⟩ := tokenize_reading file text
  have going : b.stopped = false := reading_going read quiet
  have ends : c.rest = [] := ended.resolve_left (by simp [going])
  have regular : b.mode = .regular := by
    cases hm : b.mode with
    | regular => rfl
    | inString => exact absurd ends (reading_inString_rest read quiet hm)
  obtain ⟨c', read', beside⟩ := reading_inBrackets line quiet shallow first read
  have taken : c'.take? = some (')', c'.past ')' []) := by
    rw [Cursor.take?, beside.rest, ends]
    rfl
  have closer : Bracket.ofChar? 0 ')' = some ⟨false, .round, 0⟩ := rfl
  have lexed : Lexeme.next .regular ')' (c'.past ')' []) = (.mark (.closer .round), c'.past ')' []) :=
    (Lexeme.nextRegular_bracket closer _).1
  have last := read'.next going taken
  rw [show (b.bracketed file).mode = .regular from regular, lexed] at last
  have level : ((c'.past ')' []).indent : Int) = 0 := by
    rw [(reading_line (inBrackets_line line) last).1.indent]
    rfl
  have none_open := reading_none_open read quiet ends
  rw [told] at quiet
  rw [Builder.place, level, Builder.close_outermost (reading_sound read') none_open _ c.position] at last
  rw [tokenize_of_end last (Cursor.past_rest _ _ _), Builder.finish, Builder.unwind_nil _ rfl, nodes]
  simp [Builder.fold, Builder.bracketed, outermost, OpenScope.tree, moveAll_eq_map, quiet,
    Delimiter.blockTag, Delimiter.opening, Delimiter.closing]

/-- Operators nest in brackets as they do outside, up to positions, if and only if no assignment is
wrapped in another operand than its first. -/
theorem inBrackets_alike_iff (file : String) (line : '\n' ∉ text)
    (quiet : (tokenize file text).diagnostics = [])
    (shallow : ∀ d ∈ (tokenize file (inBrackets text)).diagnostics, d.cause? ≠ some .nestingTooDeep) :
    (∃ pos items,
      tokenize file (inBrackets text) = ⟨[.group pos (.block .code "(" ")") items], []⟩ ∧
        unplaced items = unplaced (tokenize file text).nodes) ↔
      wrapsLaterAll true (tokenize file text).nodes = false := by
  constructor
  · rintro ⟨pos, items, whole, alike⟩
    have clean := wrapsLater_line file (inBrackets_line line)
    rw [whole, wrapsLaterAll_singleton, wrapsLater] at clean
    have inner : wrapsLaterAll true items = false := (Bool.or_eq_false_iff.1 clean).2
    rw [← wrapsLaterAll_move, ← unplaced, ← alike, unplaced, wrapsLaterAll_move, inner]
  · intro first
    refine ⟨_, _, tokenize_inBrackets line quiet shallow first, ?_⟩
    rw [unplaced, moveAll_moveAll, unplaced]

/-- The assignment in the list is wrapped as a whole here and there. -/
theorem inBrackets_alike_list :
    ∃ pos items, tokenize "t.cvl" (inBrackets "x := f: [a = b => c]".toList) =
        ⟨[.group pos (.block .code "(" ")") items], []⟩ ∧
      unplaced items = unplaced (tokenize "t.cvl" "x := f: [a = b => c]".toList).nodes :=
  (inBrackets_alike_iff "t.cvl" (by decide +kernel) (by decide +kernel) (by decide +kernel)).2
    (by decide +kernel)

/-- The colon takes `b` outside brackets, and the assignment inside. -/
theorem inBrackets_assignment :
    '\n' ∉ "a = b:".toList ∧ (tokenize "t.cvl" "a = b:".toList).diagnostics = [] ∧
      (∀ d ∈ (tokenize "t.cvl" (inBrackets "a = b:".toList)).diagnostics,
        d.cause? ≠ some .nestingTooDeep) ∧
      ¬ ∃ pos items, tokenize "t.cvl" (inBrackets "a = b:".toList) =
          ⟨[.group pos (.block .code "(" ")") items], []⟩ ∧
        unplaced items = unplaced (tokenize "t.cvl" "a = b:".toList).nodes := by
  refine ⟨by decide +kernel, by decide +kernel, by decide +kernel, ?_⟩
  rintro ⟨pos, items, whole, alike⟩
  have inner : items = (tokenize "t.cvl" (inBrackets "a = b:".toList)).nodes.flatMap Tree.items := by
    rw [whole]
    simp [Tree.items]
  have kinds := congrArg (List.map Tree.kind) alike
  rw [kinds_unplaced, kinds_unplaced, inner] at kinds
  exact absurd kinds (by decide +kernel)

end

end NamespaceLang

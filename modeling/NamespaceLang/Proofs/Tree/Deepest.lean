import NamespaceLang.Proofs.Tree.Depth

/-!
# Texts as deep as they get

For every number of brackets up to the limit and every number of wrapped
operands there is a text with a way down through exactly these that has all
the levels they account for. The bound on the depth of a tree is exact, and
nothing bounds the depth independently of the text.
-/

set_option autoImplicit false

namespace NamespaceLang

open OpenScope NamespaceLang.Tree

/-- A chain of assignments in one of bindings in one of items. -/
def threeChains : List Char := " = := ,".toList

def wrapsOutside (wraps : Nat) : List Char := (List.replicate wraps " :".toList).flatten

def wrapsInside (wraps : Nat) : List Char := (List.replicate wraps " = :".toList).flatten

def closesAround (brackets : Nat) : List Char :=
  (List.replicate brackets (threeChains ++ [')'])).flatten

def deepText (brackets wraps : Nat) : List Char :=
  'x' :: (List.replicate brackets '(' ++
    ((if brackets = 0 then wrapsOutside wraps else wrapsInside wraps) ++
      (closesAround brackets ++ threeChains)))

/-- A list with a way down through so many brackets, wrapped operands and levels. -/
def Deep (k w l : Nat) (nodes : List Tree) : Prop :=
  ∃ path, Along path nodes ∧ brackets path = k ∧ wraps path = w ∧ levels path = l

theorem deep_empty (nodes : List Tree) : Deep 0 0 0 nodes := ⟨[], .stop nodes, rfl, rfl, rfl⟩

section

variable {k w l : Nat}

theorem Deep.mono {part nodes : List Tree} (h : Deep k w l part) (hp : part ⊆ nodes) :
    Deep k w l nodes := by
  obtain ⟨path, along, counts⟩ := h
  exact ⟨path, along_mono along hp, counts⟩

theorem Deep.segment {items : List Tree} (h : Deep k w l items) (fallback : Position) :
    Deep k w l [NamespaceLang.segment items fallback] := by
  obtain ⟨path, along, counts⟩ := h
  exact ⟨.segment :: path, .down List.mem_cons_self along, counts⟩

theorem Deep.chain {items : List Tree} (h : Deep k w l items) (pos : Position) (tag : ChainTag)
    (tier : Nat) : Deep k w (l + 1) [.group pos (.chain tag tier) items] := by
  obtain ⟨path, along, hk, hw, hl⟩ := h
  exact ⟨.chain tag tier :: path, .down List.mem_cons_self along, hk, hw, hl ▸ List.countP_cons_of_pos rfl⟩

theorem Deep.bracket {items : List Tree} (h : Deep k w l items) (pos : Position) :
    Deep (k + 1) w (l + 1) [.group pos (.block .code "(" ")") items] := by
  obtain ⟨path, along, hk, hw, hl⟩ := h
  exact ⟨.block .code "(" ")" :: path, .down List.mem_cons_self along,
    hk ▸ List.countP_cons_of_pos rfl, hw, hl ▸ List.countP_cons_of_pos rfl⟩

theorem Deep.trimStart {items : List Tree} (h : Deep k w l items) :
    Deep k w l (trimStart items) := by
  obtain ⟨path, along, counts⟩ := h
  refine ⟨path, ?_, counts⟩
  cases along with
  | stop => exact .stop _
  | down here rest =>
    rw [← List.takeWhile_append_dropWhile (p := isBlank) (l := items)] at here
    rcases List.mem_append.1 here with blank | kept
    · cases List.all_eq_true.1 (List.all_takeWhile (l := items)) _ blank
    · exact .down kept rest

theorem Deep.wrapped {items : List Tree} (h : Deep k w l items) (pos : Position) :
    Deep k (w + 1) (l + 1) [.group pos (.block .colonCall "" ":") (Tree.trimStart items)] := by
  obtain ⟨path, along, hk, hw, hl⟩ := h.trimStart
  exact ⟨.block .colonCall "" ":" :: path, .down List.mem_cons_self along, hk,
    hw ▸ List.countP_cons_of_pos rfl, hl ▸ List.countP_cons_of_pos rfl⟩

end

namespace OpenScope

def Rounds (m : Nat) (scopes : List OpenScope) : Prop :=
  scopes.length = m ∧ ∀ s ∈ scopes, s.kind = .block .round ∧ s.indent = 0

theorem rounds_cons {m : Nat} {s : OpenScope} {outer : List OpenScope} :
    Rounds (m + 1) (s :: outer) ↔ (s.kind = .block .round ∧ s.indent = 0) ∧ Rounds m outer := by
  simp only [Rounds, List.length_cons, Nat.add_right_cancel_iff, List.forall_mem_cons]
  exact and_left_comm

theorem rounds_zero {scopes : List OpenScope} (h : Rounds 0 scopes) : scopes = [] :=
  List.length_eq_zero_iff.1 h.1

theorem rounds_succ {m : Nat} {scopes : List OpenScope} (h : Rounds (m + 1) scopes) :
    ∃ s outer, scopes = s :: outer ∧ s.kind = .block .round ∧ s.indent = 0 ∧ Rounds m outer := by
  cases scopes with
  | nil => cases h.1
  | cons s outer =>
    have hr := rounds_cons.1 h
    exact ⟨s, outer, rfl, hr.1.1, hr.1.2, hr.2⟩

end OpenScope

namespace Builder

variable {stays : OpenScope → Bool} {complaint : OpenScope → Diagnostic} {m k w l t : Nat}

/-- The builder goes on, `m` parentheses are open, and the items of the innermost are deep. -/
structure Stacked (m k w l : Nat) (b : Builder) : Prop where
  going : b.stopped = false
  regular : b.mode = .regular
  rounds : Rounds m b.scopes
  deep : Deep k w l b.items.toList

/-- A chain of a tier is open in the innermost of `m` parentheses, and deep. -/
structure ChainOn (t m k w l : Nat) (b : Builder) (s : OpenScope) (outer : List OpenScope) :
    Prop where
  going : b.stopped = false
  regular : b.mode = .regular
  scopes : b.scopes = s :: outer
  rounds : Rounds m outer
  indent : s.indent = topIndent outer
  chain : ∃ c, s.kind = .chain c ∧ c.tier = t ∧ Deep k w l c.done.toList

def Chained (t m k w l : Nat) (b : Builder) : Prop := ∃ s outer, b.ChainOn t m k w l s outer

theorem add_stacked {b : Builder} (h : b.Stacked m k w l) (node : Tree) : (b.add node).Stacked m k w l where
  going := h.going
  regular := h.regular
  rounds := h.rounds
  deep := h.deep.mono (by simp [add])

theorem add_chained {b : Builder} (h : b.Chained t m k w l) (node : Tree) :
    (b.add node).Chained t m k w l := by
  obtain ⟨s, outer, h⟩ := h
  exact ⟨s, outer, h.going, h.regular, h.scopes, h.rounds, h.indent, h.chain⟩

theorem unwind_stacked {b : Builder} (h : b.Stacked m k w l)
    (hs : ∀ s : OpenScope, s.kind = .block .round → s.indent = 0 → stays s = true) :
    b.unwind stays complaint = b := by
  cases m with
  | zero => exact unwind_nil b (rounds_zero h.rounds)
  | succ m =>
    obtain ⟨s, outer, hsc, hk, hi, -⟩ := rounds_succ h.rounds
    exact unwind_stays b s outer hsc (hs s hk hi)

theorem fold_chained {b : Builder} {s : OpenScope} {outer : List OpenScope}
    (h : b.ChainOn t m k w l s outer) : (b.foldOnce complaint s outer).Stacked m k w (l + 1) := by
  obtain ⟨c, hk, -, hd⟩ := h.chain
  unfold foldOnce
  rw [if_neg (by simp [isBlock, hk])]
  refine ⟨h.going, h.regular, h.rounds, ?_⟩
  have parts : Deep k w l (c.done.push (segment b.items.toList c.operandStart)).toList :=
    hd.mono (by simp)
  have level := parts.chain
    (((c.done.push (segment b.items.toList c.operandStart)).toList.head?.map Tree.pos).getD s.pos)
    c.tag c.tier
  apply level.mono
  simp [fold, tree, hk]

theorem unwind_chained {b : Builder} {s : OpenScope} {outer : List OpenScope}
    (h : b.ChainOn t m k w l s outer) (hs : stays s = false)
    (ho : ∀ s : OpenScope, s.kind = .block .round → s.indent = 0 → stays s = true) :
    (b.unwind stays complaint).Stacked m k w (l + 1) := by
  rw [unwind_folds _ _ b s outer h.scopes hs, unwind_stacked (fold_chained h) ho]
  exact fold_chained h

theorem openBlock_stacked {b : Builder} (h : b.Stacked m k w l) (room : m < nestingLimit)
    (start : Position) : (b.openBlock .round start 0).Stacked (m + 1) 0 0 0 := by
  unfold openBlock
  rw [h.rounds.1, if_neg (by omega)]
  refine ⟨h.going, h.regular, ?_, deep_empty _⟩
  exact rounds_cons.2 ⟨⟨rfl, rfl⟩, h.rounds⟩

theorem startChain_chained {b : Builder} (h : b.Stacked m k w l) (j : Joiner) (start next : Position) :
    (b.startChain j start next).Chained j.tier m k w l := by
  refine ⟨_, _, h.going, h.regular, rfl, h.rounds, rfl, _, rfl, rfl, ?_⟩
  exact (h.deep.segment start).mono (by simp [OpenChain.extend])

theorem join_chained {b : Builder} {j : Joiner} {start : Position}
    (h : (b.foldTighter j start).Stacked m k w l) (next : Position) :
    (b.join j start next).Chained j.tier m k w l := by
  apply join_rule (P := Chained j.tier m k w l)
  · exact fun _ => startChain_chained h j start next
  · intro s c outer hs hk _
    have := (h.rounds.2 s (by rw [hs]; exact List.mem_cons_self)).1
    rw [hk] at this
    cases this

theorem round_tier {s : OpenScope} (h : s.kind = .block .round) : s.tier = 0 := by
  rw [OpenScope.tier, h]
  rfl

theorem join_stacked {b : Builder} (h : b.Stacked m k w l) (j : Joiner) (start next : Position) :
    (b.join j start next).Chained j.tier m k w l := by
  apply join_chained
  unfold foldTighter
  rwa [unwind_stacked h fun s hk _ => by simp [round_tier hk]]

theorem join_looser {b : Builder} (h : b.Chained t m k w l) (j : Joiner) (ht : j.tier < t)
    (start next : Position) : (b.join j start next).Chained j.tier m k w (l + 1) := by
  obtain ⟨s, outer, h⟩ := h
  obtain ⟨c, hk, hc, -⟩ := h.chain
  apply join_chained
  apply unwind_chained h
  · simp only [OpenScope.tier, hk, hc, decide_eq_false_iff_not]
    omega
  · exact fun s hk _ => by simp [round_tier hk]

theorem wrapItems_stacked {b : Builder} (h : b.Stacked m k w l) (start : Position) :
    (b.wrapItems .colon start).Stacked m k (w + 1) (l + 1) where
  going := h.going
  regular := h.regular
  rounds := h.rounds
  deep := by
    have level := h.deep.wrapped (((Tree.trimStart b.items.toList).head?.map Tree.pos).getD start)
    apply level.mono
    simp [wrapItems, Wrapper.blockTag, Wrapper.spelling]

theorem wrap_stacked {b : Builder} (h : b.Stacked m k w l) (start : Position) :
    (b.wrap .colon start 0).Stacked m k (w + 1) (l + 1) := by
  have loose : 0 < Wrapper.colon.tier := by decide
  unfold wrap
  rw [unwind_stacked h]
  · exact wrapItems_stacked h start
  · intro s hk _
    simp [holds, round_tier hk, loose]

theorem wrap_chained {b : Builder} (h : b.Chained Joiner.assignment.tier (m + 1) k w l)
    (start : Position) : (b.wrap .colon start 0).Stacked (m + 1) k (w + 1) (l + 2) := by
  obtain ⟨s, outer, h⟩ := h
  obtain ⟨c, hk, hc, -⟩ := h.chain
  obtain ⟨around, rest, ho, -, hi, -⟩ := rounds_succ h.rounds
  have here : s.indent = 0 := by
    rw [h.indent, ho]
    exact hi
  have loose : 0 < Wrapper.colon.tier := by decide
  have tighter : ¬ Joiner.assignment.tier < Wrapper.colon.tier := by decide
  apply wrapItems_stacked
  apply unwind_chained h
  · simp [holds, OpenScope.tier, hk, hc, here, tighter]
  · intro s hk _
    simp [holds, round_tier hk, loose]

theorem close_chained {b : Builder} (h : b.Chained t (m + 1) k w l) (start : Position) :
    (b.close .round start 0).Stacked m (k + 1) w (l + 2) := by
  obtain ⟨s, outer, h⟩ := h
  obtain ⟨c, hk, hc, -⟩ := h.chain
  obtain ⟨around, rest, ho, -, hi, -⟩ := rounds_succ h.rounds
  have here : s.indent = 0 := by
    rw [h.indent, ho]
    exact hi
  have folded : (b.foldToCloser .round start 0).Stacked (m + 1) k w (l + 1) := by
    apply unwind_chained h
    · simp [closedBy, holds, hk, here, Delimiter.tier, Delimiter.group, TokenGroup.tier, TokenGroup.all]
    · intro s hk hi
      simp [closedBy, hk, hi]
  obtain ⟨own, below, hs, hk', hi', hr⟩ := rounds_succ folded.rounds
  apply close_rule (P := Stacked m (k + 1) w (l + 2))
  · intro s' outer' hs' _
    rw [hs] at hs'
    cases hs'
    refine ⟨folded.going, folded.regular, hr, ?_⟩
    have level := folded.deep.bracket own.pos
    apply level.mono
    simp [fold, enter, tree, hk', Delimiter.blockTag, Delimiter.opening, Delimiter.closing]
  · intro extra
    have := extra own (by rw [hs]; rfl)
    simp [closedBy, hk', hi'] at this

theorem finish_chained {b : Builder} (h : b.Chained t 0 k w l) (stop : Position) :
    Deep k w (l + 1) (b.finish stop).items.toList := by
  obtain ⟨s, outer, h⟩ := h
  have folded : (b.foldOnce (fun s => (Diagnostic.error s.pos .unclosedBracket).withNote stop
      .endOfInput) s outer).Stacked 0 k w (l + 1) := fold_chained h
  have done := unwind_folds (fun _ => false) (fun s =>
    (Diagnostic.error s.pos .unclosedBracket).withNote stop .endOfInput) b s outer h.scopes rfl
  rw [finish, done, unwind_nil _ (rounds_zero folded.rounds)]
  exact folded.deep

end Builder

def Cursor.At (c : Cursor) (text : List Char) : Prop := c.rest = text ∧ c.indent = 0

/-- The text begins with a lexeme, and `rest` comes next. -/
def Lexes (l : Lexeme) (text rest : List Char) : Prop :=
  ∀ c : Cursor, c.At text → ∃ first after later, c.take? = some (first, after) ∧
    Lexeme.next .regular first after = (l, later) ∧ later.At rest

section

variable (rest : List Char)

theorem lexes_open : Lexes (.mark (.opener .round)) ('(' :: rest) rest := by
  rintro ⟨⟩ ⟨rfl, rfl⟩
  exact ⟨_, _, _, rfl, rfl, rfl, rfl⟩

theorem lexes_close : Lexes (.mark (.closer .round)) (')' :: rest) rest := by
  rintro ⟨⟩ ⟨rfl, rfl⟩
  exact ⟨_, _, _, rfl, rfl, rfl, rfl⟩

theorem lexes_comma : Lexes (.mark (.joiner .comma)) (',' :: rest) rest := by
  rintro ⟨⟩ ⟨rfl, rfl⟩
  exact ⟨_, _, _, rfl, rfl, rfl, rfl⟩

theorem lexes_assignment :
    Lexes (.mark (.joiner .assignment)) ('=' :: ' ' :: rest) (' ' :: rest) := by
  rintro ⟨⟩ ⟨rfl, rfl⟩
  exact ⟨_, _, _, rfl, rfl, rfl, rfl⟩

theorem lexes_binding :
    Lexes (.mark (.joiner .variableBinding)) (':' :: '=' :: ' ' :: rest) (' ' :: rest) := by
  rintro ⟨⟩ ⟨rfl, rfl⟩
  exact ⟨_, _, _, rfl, rfl, rfl, rfl⟩

theorem lexes_colon : Lexes (.mark (.wrapper .colon)) (':' :: ' ' :: rest) (' ' :: rest) := by
  rintro ⟨⟩ ⟨rfl, rfl⟩
  exact ⟨_, _, _, rfl, rfl, rfl, rfl⟩

theorem lexes_x (c : Char) (h : Letters.isIdentifier c = false) :
    Lexes (.leaf (.identifier .plain "x")) ('x' :: c :: rest) (c :: rest) := by
  rintro ⟨file, text, _, offset, line, col, _⟩ ⟨rfl, rfl⟩
  have stops : ∀ after : Cursor,
      Cursor.takeRun Letters.isIdentifier (c :: rest) after = ([], after) := by
    intro after
    simp [Cursor.takeRun, h]
  refine ⟨'x', ⟨file, text, c :: rest, offset + 1, line, col + 1, 0⟩,
    ⟨file, text, c :: rest, offset + 1, line, col + 1, 0⟩, rfl, ?_, rfl, rfl⟩
  show (Lexeme.leaf (.identifier .plain
      (String.ofList ('x' :: (Cursor.takeRun Letters.isIdentifier (c :: rest) _).1))),
    (Cursor.takeRun Letters.isIdentifier (c :: rest) _).2) = _
  rw [stops]

theorem lexes_blank (c : Char) (h : Text.isBlank c = false) :
    Lexes (.leaf (.whitespace false)) (' ' :: c :: rest) (c :: rest) := by
  rintro ⟨file, text, _, offset, line, col, _⟩ ⟨rfl, rfl⟩
  have stops : ∀ after : Cursor, Cursor.takeRun Text.isBlank (c :: rest) after = ([], after) := by
    intro after
    simp [Cursor.takeRun, h]
  refine ⟨' ', ⟨file, text, c :: rest, offset + 1, line, col + 1, 0⟩,
    ⟨file, text, c :: rest, offset + 1, line, col + 1, 0⟩, rfl, ?_, rfl, rfl⟩
  show (Lexeme.ofBlanks (' ' :: (Cursor.takeRun Text.isBlank (c :: rest) _).1),
    (Cursor.takeRun Text.isBlank (c :: rest) _).2) = _
  rw [stops]
  rfl

end

def Reaches (b : Builder) (c : Cursor) (P : Builder → Prop) (text : List Char) : Prop :=
  ∃ b' c', P b' ∧ c'.At text ∧ b.run c = b'.run c'

namespace Reaches

variable {P Q : Builder → Prop} {text rest : List Char} {b : Builder} {c : Cursor}

theorem done (hp : P b) (hc : c.At text) : Reaches b c P text := ⟨b, c, hp, hc, rfl⟩

theorem andThen (h : Reaches b c P text)
    (later : ∀ b c, P b → c.At text → Reaches b c Q rest) : Reaches b c Q rest := by
  obtain ⟨b', c', hp, hc, hr⟩ := h
  obtain ⟨b'', c'', hq, hc', hr'⟩ := later b' c' hp hc
  exact ⟨b'', c'', hq, hc', hr.trans hr'⟩

theorem lexeme {l : Lexeme} (lexes : Lexes l text rest) (hc : c.At text)
    (regular : b.mode = .regular) (going : ∀ b, P b → b.stopped = false)
    (placed : ∀ start after, after.indent = 0 → P (b.place l start after)) :
    Reaches b c P rest := by
  obtain ⟨first, after, later, taken, next, hl⟩ := lexes c hc
  have hp := placed c.position later hl.2
  rw [← regular] at next
  exact ⟨_, later, hp, hl, Builder.run_lexeme taken next rfl (going _ hp)⟩

end Reaches

namespace Builder

variable {b : Builder} {c : Cursor} {m k w l t : Nat} {text rest : List Char}

theorem Chained.regular (h : b.Chained t m k w l) : b.mode = .regular := by
  obtain ⟨_, _, h⟩ := h
  exact h.regular

theorem Chained.going (h : b.Chained t m k w l) : b.stopped = false := by
  obtain ⟨_, _, h⟩ := h
  exact h.going

theorem reads_open (h : b.Stacked m k w l) (room : m < nestingLimit) (hc : c.At ('(' :: rest)) :
    Reaches b c (Stacked (m + 1) 0 0 0) rest := by
  apply Reaches.lexeme (lexes_open rest) hc h.regular (fun _ h => h.going)
  intro start after hi
  simp only [place, hi]
  exact openBlock_stacked h room start

theorem reads_assignment (h : b.Stacked m k w l) (hc : c.At (' ' :: '=' :: ' ' :: rest)) :
    Reaches b c (Chained Joiner.assignment.tier m k w l) (' ' :: rest) := by
  have blank : Reaches b c (Stacked m k w l) ('=' :: ' ' :: rest) :=
    Reaches.lexeme (lexes_blank _ '=' (by decide)) hc h.regular (fun _ h => h.going)
      fun _ _ _ => add_stacked h _
  apply blank.andThen
  intro b c h hc
  exact Reaches.lexeme (lexes_assignment rest) hc h.regular (fun _ h => h.going)
    fun _ _ _ => join_stacked h .assignment _ _

theorem reads_binding (h : b.Chained Joiner.assignment.tier m k w l)
    (hc : c.At (' ' :: ':' :: '=' :: ' ' :: rest)) :
    Reaches b c (Chained Joiner.variableBinding.tier m k w (l + 1)) (' ' :: rest) := by
  have blank : Reaches b c (Chained Joiner.assignment.tier m k w l) (':' :: '=' :: ' ' :: rest) :=
    Reaches.lexeme (lexes_blank _ ':' (by decide)) hc h.regular (fun _ h => h.going)
      fun _ _ _ => add_chained h _
  apply blank.andThen
  intro b c h hc
  exact Reaches.lexeme (lexes_binding rest) hc h.regular (fun _ h => h.going)
    fun _ _ _ => join_looser h .variableBinding (by decide) _ _

theorem reads_comma (h : b.Chained Joiner.variableBinding.tier m k w l)
    (hc : c.At (' ' :: ',' :: rest)) :
    Reaches b c (Chained Joiner.comma.tier m k w (l + 1)) rest := by
  have blank : Reaches b c (Chained Joiner.variableBinding.tier m k w l) (',' :: rest) :=
    Reaches.lexeme (lexes_blank _ ',' (by decide)) hc h.regular (fun _ h => h.going)
      fun _ _ _ => add_chained h _
  apply blank.andThen
  intro b c h hc
  exact Reaches.lexeme (lexes_comma rest) hc h.regular (fun _ h => h.going)
    fun _ _ _ => join_looser h .comma (by decide) _ _

theorem reads_threeChains (h : b.Stacked m k w l) (hc : c.At (threeChains ++ rest)) :
    Reaches b c (Chained Joiner.comma.tier m k w (l + 2)) rest :=
  ((reads_assignment h hc).andThen fun _ _ h hc => reads_binding h hc).andThen
    fun _ _ h hc => reads_comma h hc

theorem reads_close (h : b.Stacked (m + 1) k w l) (hc : c.At (threeChains ++ ')' :: rest)) :
    Reaches b c (Stacked m (k + 1) w (l + 4)) rest := by
  apply (reads_threeChains h hc).andThen
  intro b c h hc
  apply Reaches.lexeme (lexes_close rest) hc h.regular (fun _ h => h.going)
  intro start after hi
  simp only [place, hi]
  exact close_chained h start

theorem reads_opens (n : Nat) (h : b.Stacked m 0 0 0) (room : m + n ≤ nestingLimit)
    (hc : c.At (List.replicate n '(' ++ rest)) : Reaches b c (Stacked (m + n) 0 0 0) rest := by
  induction n generalizing b c m with
  | zero => exact .done h hc
  | succ n ih =>
    apply (reads_open h (by omega) hc).andThen
    intro b c h hc
    have := ih h (by omega) hc
    rwa [Nat.add_right_comm] at this

theorem reads_wrapsOutside (n : Nat) (h : b.Stacked m k w l)
    (hc : c.At (wrapsOutside n ++ ' ' :: rest)) :
    Reaches b c (Stacked m k (w + n) (l + n)) (' ' :: rest) := by
  induction n generalizing b c w l with
  | zero => exact .done h hc
  | succ n ih =>
    obtain ⟨more, hm⟩ : ∃ more, wrapsOutside n ++ ' ' :: rest = ' ' :: more := by
      cases n <;> exact ⟨_, rfl⟩
    have next : c.At (' ' :: ':' :: ' ' :: more) := hm ▸ hc
    have blank : Reaches b c (Stacked m k w l) (':' :: ' ' :: more) :=
      Reaches.lexeme (lexes_blank _ ':' (by decide)) next h.regular (fun _ h => h.going)
        fun _ _ _ => add_stacked h _
    apply blank.andThen
    intro b c h hc
    have wrapped : Reaches b c (Stacked m k (w + 1) (l + 1)) (' ' :: more) := by
      apply Reaches.lexeme (lexes_colon more) hc h.regular (fun _ h => h.going)
      intro start after hi
      simp only [place, hi]
      exact wrap_stacked h start
    apply wrapped.andThen
    intro b c h hc
    have := ih h (hm ▸ hc)
    rwa [Nat.add_right_comm w 1 n, Nat.add_right_comm l 1 n] at this

theorem reads_wrapsInside (n : Nat) (h : b.Stacked (m + 1) k w l)
    (hc : c.At (wrapsInside n ++ ' ' :: rest)) :
    Reaches b c (Stacked (m + 1) k (w + n) (l + 2 * n)) (' ' :: rest) := by
  induction n generalizing b c w l with
  | zero => exact .done h hc
  | succ n ih =>
    obtain ⟨more, hm⟩ : ∃ more, wrapsInside n ++ ' ' :: rest = ' ' :: more := by
      cases n <;> exact ⟨_, rfl⟩
    have next : c.At (' ' :: '=' :: ' ' :: ':' :: ' ' :: more) := hm ▸ hc
    apply (reads_assignment h next).andThen
    intro b c h hc
    have blank : Reaches b c (Chained Joiner.assignment.tier (m + 1) k w l) (':' :: ' ' :: more) :=
      Reaches.lexeme (lexes_blank _ ':' (by decide)) hc h.regular (fun _ h => h.going)
        fun _ _ _ => add_chained h _
    apply blank.andThen
    intro b c h hc
    have wrapped : Reaches b c (Stacked (m + 1) k (w + 1) (l + 2)) (' ' :: more) := by
      apply Reaches.lexeme (lexes_colon more) hc h.regular (fun _ h => h.going)
      intro start after hi
      simp only [place, hi]
      exact wrap_chained h start
    apply wrapped.andThen
    intro b c h hc
    have := ih h (hm ▸ hc)
    rwa [Nat.add_right_comm w 1 n, Nat.add_assoc l, Nat.add_comm 2] at this

theorem reads_closes (n : Nat) (h : b.Stacked n k w l) (hc : c.At (closesAround n ++ rest)) :
    Reaches b c (Stacked 0 (k + n) w (l + 4 * n)) rest := by
  induction n generalizing b c k l with
  | zero => exact .done h hc
  | succ n ih =>
    have next : c.At (threeChains ++ ')' :: (closesAround n ++ rest)) := hc
    apply (reads_close h next).andThen
    intro b c h hc
    have := ih h hc
    rwa [Nat.add_right_comm k 1 n, Nat.add_assoc l, Nat.add_comm 4] at this

theorem reads_wraps (h : b.Stacked m 0 0 0)
    (hc : c.At ((if m = 0 then wrapsOutside w else wrapsInside w) ++ ' ' :: rest)) :
    Reaches b c (Stacked m 0 w (if m = 0 then w else 2 * w)) (' ' :: rest) := by
  cases m with
  | zero =>
    have := reads_wrapsOutside w h hc
    rwa [Nat.zero_add] at this
  | succ m =>
    have := reads_wrapsInside w h hc
    rwa [Nat.zero_add, Nat.zero_add] at this

theorem reads_deepText (room : k ≤ nestingLimit) (hc : c.At (deepText k w)) :
    Reaches .empty c (Chained Joiner.comma.tier 0 k w (2 + accounted 0 k w)) [] := by
  have start : Builder.empty.Stacked 0 0 0 0 := ⟨rfl, rfl, ⟨rfl, by simp [empty]⟩, deep_empty _⟩
  obtain ⟨more, hm⟩ : ∃ more, closesAround k ++ threeChains = ' ' :: more := by
    cases k <;> exact ⟨_, rfl⟩
  obtain ⟨first, later, hf, hi⟩ : ∃ first later, List.replicate k '(' ++
      ((if k = 0 then wrapsOutside w else wrapsInside w) ++ (closesAround k ++ threeChains)) =
        first :: later ∧ Letters.isIdentifier first = false := by
    rcases k with _ | k
    · cases w <;> exact ⟨_, _, rfl, by decide⟩
    · exact ⟨'(', _, rfl, by decide⟩
  have name : Reaches .empty c (Stacked 0 0 0 0) (first :: later) := by
    refine Reaches.lexeme (lexes_x later first hi) ?_ rfl (fun _ h => h.going)
      fun _ _ _ => add_stacked start _
    rw [← hf]
    exact hc
  apply name.andThen
  intro b c h hc
  rw [← hf] at hc
  have opened := reads_opens k h (by omega) hc
  rw [Nat.zero_add] at opened
  apply opened.andThen
  intro b c h hc
  rw [hm] at hc
  apply (reads_wraps h hc).andThen
  intro b c h hc
  rw [← hm] at hc
  apply (reads_closes k h hc).andThen
  intro b c h hc
  have last := reads_threeChains h (show c.At (threeChains ++ []) by rwa [List.append_nil])
  have count : (if k = 0 then w else 2 * w) + 4 * k + 2 = 2 + accounted 0 k w := by
    unfold accounted
    split <;> split <;> omega
  rwa [count, Nat.zero_add] at last

end Builder

/-- The text is as deep as its brackets and wrapped operands account for. -/
theorem deepText_deep (file : String) {k : Nat} (w : Nat) (room : k ≤ nestingLimit) :
    Deep k w (3 + accounted 0 k w) (tokenize file (deepText k w)).nodes := by
  obtain ⟨b, c, chained, ⟨hr, -⟩, run⟩ :=
    Builder.reads_deepText room (c := .start file (deepText k w)) ⟨rfl, rfl⟩
  have deep := Builder.finish_chained chained c.position
  have nodes : (tokenize file (deepText k w)).nodes = (b.finish c.position).items.toList := by
    unfold tokenize
    rw [run, Builder.run_end b (Cursor.take?_of_nil hr)]
  rw [Nat.add_right_comm] at deep
  rw [nodes]
  exact deep

/-- All ways down through `k` brackets and `w` wrapped operands, in the trees of all texts, keep to a
bound if and only if what these account for does. There are none through more brackets than the
limit says. -/
theorem depth_bound_exact (k w bound : Nat) :
    (∀ file text path, Along path (tokenize file text).nodes → brackets path = k → wraps path = w →
      levels path ≤ bound) ↔ nestingLimit < k ∨ 3 + accounted 0 k w ≤ bound := by
  constructor
  · intro h
    by_cases room : k ≤ nestingLimit
    · obtain ⟨path, along, hk, hw, hl⟩ := deepText_deep "" w room
      exact Or.inr (hl ▸ h _ _ path along hk hw)
    · exact Or.inl (Nat.lt_of_not_le room)
  · rintro h file text path along rfl rfl
    have within := tokenize_within file text path along
    omega

/-- Wrapped operands alone make a tree more than twice as deep as the limit. -/
theorem wraps_exceed_limit :
    ∃ path, Along path (tokenize "t.cvl" (deepText 0 2046)).nodes ∧
      2 * nestingLimit < levels path := by
  obtain ⟨path, along, -, -, hl⟩ := deepText_deep "t.cvl" 2046 (Nat.zero_le nestingLimit)
  refine ⟨path, along, ?_⟩
  rw [hl]
  decide

end NamespaceLang

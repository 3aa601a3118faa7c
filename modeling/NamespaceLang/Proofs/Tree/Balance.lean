import NamespaceLang.Proofs.Body.Orderly
import NamespaceLang.Proofs.Tree.Brackets
import NamespaceLang.Proofs.Tree.Glyphs

/-!
# Balanced texts

The brackets that are open while a text is read are those that a checker with
nothing but a stack would have open. Chains come and go between them, but a
closer that finds its own bracket innermost folds all chains inside it, and no
wrapper and no joiner ever folds a bracket. So of the texts that do not nest too
deep, those of whose brackets nothing is told are the balanced ones.
-/

set_option autoImplicit false

namespace NamespaceLang

open OpenScope NamespaceLang.Bracket

namespace OpenScope

def bracket? (s : OpenScope) : Option (Delimiter × Int) :=
  match s.kind with
  | .block d => some (d, s.indent)
  | .chain _ => none

/-- The brackets that are open, the innermost first. -/
def openBrackets (scopes : List OpenScope) : List (Delimiter × Int) := scopes.filterMap bracket?

theorem bracket?_chain {s : OpenScope} (h : ∃ c, s.kind = .chain c) : s.bracket? = none := by
  obtain ⟨c, hk⟩ := h
  rw [bracket?, hk]

theorem bracket?_closedBy {s : OpenScope} {d : Delimiter} {indent : Int} :
    s.closedBy d indent = true ↔ s.bracket? = some (d, indent) := by
  obtain ⟨pos, own, kind, before⟩ := s
  cases kind <;> simp [closedBy, bracket?]

theorem bracket?_eq_some_iff {s : OpenScope} {d : Delimiter} {indent : Int} :
    s.bracket? = some (d, indent) ↔ s.kind = .block d ∧ s.indent = indent := by
  obtain ⟨pos, own, kind, before⟩ := s
  cases kind <;> simp [bracket?]

theorem bracket?_head {s : OpenScope} {outer : List OpenScope} {first : Delimiter × Int}
    {opened : List (Delimiter × Int)} (block : s.isBlock = true)
    (own : openBrackets (s :: outer) = first :: opened) : s.bracket? = some first := by
  cases hk : s.kind with
  | chain c =>
    rw [isBlock, hk] at block
    cases block
  | block d =>
    have here : s.bracket? = some (d, s.indent) := by rw [bracket?, hk]
    rw [openBrackets, List.filterMap_cons_some here] at own
    rw [here, (List.cons.inj own).1]

theorem Bare.isBlock {chains : List OpenScope} (h : Bare chains) :
    ∀ s ∈ chains, s.isBlock = false := by
  intro s hs
  obtain ⟨⟨c, hk⟩, -⟩ := h s hs
  rw [OpenScope.isBlock, hk]

theorem isBlock_of_none_open {scopes : List OpenScope} (h : openBrackets scopes = []) {s : OpenScope}
    (hs : s ∈ scopes) : s.isBlock = false := by
  have none_own : s.bracket? = none := List.filterMap_eq_nil_iff.1 h s hs
  unfold isBlock
  split
  · next d hk =>
    rw [bracket?, hk] at none_own
    cases none_own
  · rfl

theorem exists_chains {scopes : List OpenScope} (h : Nested scopes) :
    ∃ chains base, scopes = chains ++ base ∧ Bare chains ∧
      (∀ s ∈ base.head?, s.isBlock = true) ∧ openBrackets base = openBrackets scopes ∧
      ∀ s ∈ chains, s.indent = topIndent base := by
  induction scopes with
  | nil => exact ⟨[], [], rfl, by simp [Bare], by simp, rfl, by simp⟩
  | cons s outer ih =>
    obtain ⟨fits, nested⟩ := h
    cases hk : s.kind with
    | block d =>
      refine ⟨[], s :: outer, rfl, by simp [Bare], ?_, rfl, by simp⟩
      simp [isBlock, hk]
    | chain c =>
      obtain ⟨chains, base, rfl, bare, block, same, level⟩ := ih nested
      rw [Fits, hk] at fits
      refine ⟨s :: chains, base, rfl, List.forall_mem_cons.2 ⟨⟨⟨c, hk⟩, fits.1⟩, bare⟩, block, ?_,
        List.forall_mem_cons.2 ⟨?_, level⟩⟩
      · rw [same, openBrackets, openBrackets, List.filterMap_cons_none (bracket?_chain ⟨c, hk⟩)]
      · rw [fits.2.1]
        cases chains with
        | nil => rfl
        | cons t rest => exact level t List.mem_cons_self

end OpenScope

namespace Builder

variable {b : Builder}

theorem unwind_keeps_brackets {stays : OpenScope → Bool}
    (blocks : ∀ s ∈ b.scopes, s.isBlock = true → stays s = true)
    (complaint : OpenScope → Diagnostic) :
    openBrackets (b.unwind stays complaint).scopes = openBrackets b.scopes ∧
      (b.unwind stays complaint).diagnostics = b.diagnostics := by
  refine (unwind_rule (P := fun later => later.scopes ⊆ b.scopes ∧
    openBrackets later.scopes = openBrackets b.scopes ∧ later.diagnostics = b.diagnostics)
    ?_ ⟨List.Subset.refl _, rfl, rfl⟩).1.2
  rintro later s outer hs left ⟨inside, brackets, told⟩
  rw [hs] at inside brackets
  cases hk : s.kind with
  | block d =>
    have stays := blocks s (inside List.mem_cons_self) (by rw [isBlock, hk])
    rw [left] at stays
    cases stays
  | chain c =>
    unfold foldOnce
    rw [if_neg (by simp [isBlock, hk])]
    refine ⟨List.Subset.trans (List.subset_cons_self s outer) inside, ?_, told⟩
    rw [← brackets, openBrackets, openBrackets, List.filterMap_cons_none (bracket?_chain ⟨c, hk⟩)]
    rfl

theorem Sound.block_tier (h : b.Sound) (hr : b.mode = .regular) {s : OpenScope} (hs : s ∈ b.scopes)
    (hb : s.isBlock = true) : s.tier = 0 := by
  have plain := h.plain hr s hs
  obtain ⟨pos, indent, kind, before⟩ := s
  cases kind with
  | chain c => cases hb
  | block d =>
    cases d with
    | quote => cases plain
    | round | square | curly => rfl

theorem balanced_report {d : Diagnostic} {e : Entry} (hd : d.entries.head? = some e)
    (he : e.cause.ofBrackets = false) (h : Balanced b.diagnostics) :
    Balanced (b.report d).diagnostics := by
  intro other hm
  rcases List.mem_append.1 hm with hm | hm
  · exact h other hm
  · rw [List.mem_singleton.1 hm, hd]
    intro e' same
    rw [← Option.some.inj same]
    exact he

theorem join_brackets (h : b.Sound) (hr : b.mode = .regular) (j : Joiner) (start next : Position) :
    openBrackets (b.join j start next).scopes = openBrackets b.scopes ∧
      (Balanced b.diagnostics → Balanced (b.join j start next).diagnostics) := by
  have keeps : openBrackets (b.foldTighter j start).scopes = openBrackets b.scopes ∧
      (b.foldTighter j start).diagnostics = b.diagnostics := by
    apply unwind_keeps_brackets
    intro s hs hb
    exact decide_eq_true (by rw [h.block_tier hr hs hb]; exact Nat.zero_le _)
  apply join_rule (P := fun later => openBrackets later.scopes = openBrackets b.scopes ∧
    (Balanced b.diagnostics → Balanced later.diagnostics))
  · intro _
    refine ⟨keeps.1, fun clean => ?_⟩
    show Balanced (b.foldTighter j start).diagnostics
    rwa [keeps.2]
  · intro s c outer hs hk _
    have same : openBrackets outer = openBrackets b.scopes := by
      rw [← keeps.1, hs, openBrackets, openBrackets,
        List.filterMap_cons_none (bracket?_chain ⟨c, hk⟩)]
    unfold extendChain
    split
    · refine ⟨same, fun clean => ?_⟩
      show Balanced (b.foldTighter j start).diagnostics
      rwa [keeps.2]
    · refine ⟨same, fun clean => balanced_report rfl rfl ?_⟩
      rwa [keeps.2]

theorem wrap_brackets (h : b.Sound) (hr : b.mode = .regular) (w : Wrapper) (start : Position)
    (indent : Int) :
    openBrackets (b.wrap w start indent).scopes = openBrackets b.scopes ∧
      (b.wrap w start indent).diagnostics = b.diagnostics := by
  apply unwind_keeps_brackets
  intro s hs hb
  have loosest : s.tier < w.tier := by
    rw [h.block_tier hr hs hb]
    cases w <;> decide
  simp [holds, loosest]

theorem close_innermost (h : b.Sound) {d : Delimiter} {start : Position} {indent : Int}
    (told : Balanced (b.close d start indent).diagnostics) :
    openBrackets b.scopes = (d, indent) :: openBrackets (b.close d start indent).scopes ∧
      (b.close d start indent).mode = d.closingMode?.getD b.mode ∧
      (b.close d start indent).stopped = b.stopped := by
  obtain ⟨chains, base, hs, bare, block, same, -⟩ := exists_chains h.nested
  have hs : b.scopes = chains.reverse.reverse ++ base := by rwa [List.reverse_reverse]
  obtain ⟨s, outer, rfl, closed, whole⟩ := close_balanced hs bare.reverse block told
  refine ⟨?_, by rw [whole]; rfl, by rw [whole]; rfl⟩
  rw [← same, whole, openBrackets, List.filterMap_cons_some (bracket?_closedBy.1 closed)]
  rfl

theorem Sound.chains_leave (h : b.Sound) {chains outer : List OpenScope} {s : OpenScope}
    (hs : b.scopes = chains ++ s :: outer) (bare : Bare chains)
    (level : ∀ t ∈ chains, t.indent = s.indent) {d : Delimiter} {indent : Int}
    (own : s.bracket? = some (d, indent)) :
    ∀ t ∈ chains, (t.closedBy d indent || t.holds indent d.tier) = false := by
  intro t ht
  obtain ⟨⟨c, hk⟩, -⟩ := bare t ht
  obtain ⟨kind, line⟩ := bracket?_eq_some_iff.1 own
  have beside : t.indent = indent := (level t ht).trans line
  have loosest : d.tier = 0 := by
    cases hd : d with
    | quote =>
      -- nothing is open inside a string
      have inner : s ∈ b.scopes.tail := by
        rw [hs]
        cases chains with
        | nil => cases ht
        | cons first rest => exact List.mem_append_right rest List.mem_cons_self
      have plain := h.lone s inner
      rw [isString, kind, hd] at plain
      cases plain
    | round | square | curly => rfl
  simp [closedBy, hk, holds, beside, loosest]

theorem close_own (h : b.Sound) {d : Delimiter} (start : Position) {indent : Int}
    {opened : List (Delimiter × Int)} (own : openBrackets b.scopes = (d, indent) :: opened)
    (complaint : OpenScope → Diagnostic) :
    ∃ s outer, (b.unwind isBlock complaint).scopes = s :: outer ∧ s.closedBy d indent = true ∧
      b.close d start indent = ((b.unwind isBlock complaint).fold s outer).enter d.closingMode? := by
  obtain ⟨chains, base, hs, bare, block, same, level⟩ := exists_chains h.nested
  cases base with
  | nil =>
    rw [own] at same
    cases same
  | cons s outer =>
    have blocked := block s rfl
    have innermost : s.bracket? = some (d, indent) := bracket?_head blocked (same.trans own)
    have closed := bracket?_closedBy.2 innermost
    have leaves := h.chains_leave hs bare level innermost
    have folds : b.foldToCloser d start indent = b.folded chains.reverse (s :: outer) :=
      (unwind_bare _ _ hs bare leaves).trans (unwind_stays _ s outer rfl (by rw [closed]; rfl))
    have inner : b.unwind isBlock complaint = b.folded chains.reverse (s :: outer) :=
      (unwind_bare _ _ hs bare bare.isBlock).trans (unwind_stays _ s outer rfl blocked)
    rw [inner]
    refine ⟨s, outer, rfl, closed, ?_⟩
    rw [close_eq, folds]
    exact if_pos closed

theorem close_told (h : b.Sound) {d : Delimiter} {start : Position} {indent : Int}
    {opened : List (Delimiter × Int)} (own : openBrackets b.scopes = (d, indent) :: opened) :
    (b.close d start indent).diagnostics = b.diagnostics := by
  obtain ⟨s, outer, -, -, closes⟩ := close_own h start own (unclosedAt start d.closing indent)
  rw [closes]
  exact (unwind_keeps_brackets (fun _ _ block => block) _).2

theorem finish_told (h : b.Sound) (clean : Balanced b.diagnostics) (stop : Position) :
    Balanced (b.finish stop).diagnostics ↔ openBrackets b.scopes = [] := by
  obtain ⟨chains, base, hs, bare, block, same, -⟩ := exists_chains h.nested
  constructor
  · intro told
    have hs : b.scopes = chains.reverse.reverse ++ base := by rwa [List.reverse_reverse]
    rw [← same, (finish_balanced hs bare.reverse block told).1]
    rfl
  · intro none_open
    have chains_only : ∀ s ∈ b.scopes, s.isBlock = true → false = true := fun s hm hb =>
      (isBlock_of_none_open none_open hm).symm.trans hb
    have keeps : openBrackets (b.unwind (fun _ => false) _).scopes = openBrackets b.scopes ∧
        (b.unwind (fun _ => false) _).diagnostics = b.diagnostics :=
      unwind_keeps_brackets chains_only
        (unclosedAtEnd stop)
    rwa [finish_eq, keeps.2]

/-- A token is one step of the checker, or something is told of it and the checker fails. -/
def Checks (t : Token) (b later : Builder) : Prop :=
  (Balanced later.diagnostics ∧ later.mode = t.lexeme.modeAfter b.mode ∧ later.stopped = b.stopped ∧
    ∀ rest, Settles (openBrackets b.scopes) (t.bracket?.toList ++ rest) ↔
      Settles (openBrackets later.scopes) rest) ∨
  (¬ Balanced later.diagnostics ∧
    ∀ rest, ¬ Settles (openBrackets b.scopes) (t.bracket?.toList ++ rest))

theorem checks_of_keeps {t : Token} {later : Builder} (none_ : t.bracket? = none)
    (told : Balanced later.diagnostics) (mode : later.mode = b.mode)
    (stopped : later.stopped = b.stopped)
    (brackets : openBrackets later.scopes = openBrackets b.scopes) : Checks t b later := by
  refine Or.inl ⟨told, ?_, stopped, fun rest => ?_⟩
  · rw [mode, Lexeme.modeAfter_of_bracket? none_]
  · rw [none_, brackets]
    rfl

theorem openBlock_checks {d : Delimiter} {start : Position} {after : Cursor}
    (clean : Balanced b.diagnostics)
    (shallow : ∀ e ∈ (b.openBlock d start after.indent).diagnostics, e.cause? ≠ some .nestingTooDeep) :
    Checks ⟨.mark (.opener d), start, after⟩ b (b.openBlock d start after.indent) := by
  unfold openBlock at shallow ⊢
  split at shallow
  · exact absurd rfl (shallow (.error start .nestingTooDeep) (by simp [stop, report]))
  · next room =>
    rw [if_neg room]
    exact Or.inl ⟨clean, rfl, rfl, fun _ => Iff.rfl⟩

theorem close_checks (h : b.Sound) (clean : Balanced b.diagnostics) (d : Delimiter)
    (start : Position) (after : Cursor) :
    Checks ⟨.mark (.closer d), start, after⟩ b (b.close d start after.indent) := by
  by_cases told : Balanced (b.close d start after.indent).diagnostics
  · obtain ⟨own, mode, stopped⟩ := close_innermost h told
    refine Or.inl ⟨told, mode, stopped, fun rest => ?_⟩
    rw [own]
    exact ⟨And.right, fun settles => ⟨rfl, settles⟩⟩
  · refine Or.inr ⟨told, fun rest settles => ?_⟩
    cases own : openBrackets b.scopes with
    | nil =>
      rw [own] at settles
      exact settles
    | cons first opened =>
      rw [own] at settles
      obtain ⟨rfl, -⟩ := settles
      rw [close_told h own] at told
      exact told clean

theorem place_checks {l : Lexeme} {start : Position} {after : Cursor} (hl : l.occursIn b.mode)
    (h : b.Sound) (clean : Balanced b.diagnostics)
    (shallow : ∀ e ∈ (b.place l start after).diagnostics, e.cause? ≠ some .nestingTooDeep) :
    Checks ⟨l, start, after⟩ b (b.place l start after) := by
  have regular := Lexeme.regular_of_occurs hl
  have joins : ∀ j, b.mode = .regular → Token.bracket? ⟨l, start, after⟩ = none →
      Checks ⟨l, start, after⟩ b (b.join j start after.position) := by
    intro j hr none_
    have joined := join_brackets h hr j start after.position
    have mode := join_mode b j start after.position
    exact checks_of_keeps none_ (joined.2 clean) mode.1 mode.2 joined.1
  rcases l with content | _ | (d | d | w | j) | found | spelling
  · exact checks_of_keeps rfl clean rfl rfl rfl
  · simp only [place]
    split
    · exact checks_of_keeps rfl clean rfl rfl rfl
    · exact joins .lineBreak (regular rfl) rfl
  · exact openBlock_checks clean shallow
  · exact close_checks h clean d start after
  · have wrapped := wrap_brackets h (regular rfl) w start after.indent
    refine checks_of_keeps rfl ?_ (unwind_mode b) (unwind_stopped b) wrapped.1
    show Balanced (b.wrap w start after.indent).diagnostics
    rwa [wrapped.2]
  · exact joins j (regular rfl) rfl
  · exact checks_of_keeps rfl (balanced_report rfl rfl clean) rfl rfl rfl
  · exact checks_of_keeps rfl (balanced_report rfl rfl clean) rfl rfl rfl

/-- What a run tells of brackets is what the checker says of the tokens that are left. -/
theorem run_checks (b : Builder) (c : Cursor) (going : b.stopped = false) (h : b.Sound)
    (clean : Balanced b.diagnostics)
    (shallow : ∀ e ∈ ((b.run c).1.finish (b.run c).2.position).diagnostics,
      e.cause? ≠ some .nestingTooDeep) :
    Balanced ((b.run c).1.finish (b.run c).2.position).diagnostics ↔
      Settles (openBrackets b.scopes) ((tokensFrom b.mode c).filterMap Token.bracket?) := by
  fun_induction Builder.run b c with
  | case1 b c ht =>
    rw [tokensFrom_end b.mode ht, List.filterMap_nil, Settles]
    exact finish_told h clean _
  | case2 b c first after ht lexed placed hs =>
    have told : placed.diagnostics <+: (placed.finish lexed.2.position).diagnostics :=
      finish_diagnostics _ _
    rw [tokensFrom_next b.mode ht, Token.filterMap_bracket?_cons]
    rcases place_checks (Lexeme.next_occurs b.mode first after) h clean
      fun e he => shallow e (told.subset he) with ⟨-, -, stopped, -⟩ | ⟨found, fails⟩
    · exact absurd (hs.symm.trans (stopped.trans going)) (by simp)
    · exact iff_of_false (fun clean => found (clean.before told)) (fails _)
  | case3 b c first after ht lexed placed hs ih =>
    have told : placed.diagnostics <+:
        ((placed.run lexed.2).1.finish (placed.run lexed.2).2.position).diagnostics :=
      (run_diagnostics _ _).trans (finish_diagnostics _ _)
    rw [tokensFrom_next b.mode ht, Token.filterMap_bracket?_cons]
    rcases place_checks (Lexeme.next_occurs b.mode first after) h clean
      fun e he => shallow e (told.subset he) with ⟨clean, mode, stopped, step⟩ | ⟨found, fails⟩
    · rw [step, ← mode]
      exact ih (stopped.trans going) (place_sound (Lexeme.next_occurs _ _ _) h) clean shallow
    · exact iff_of_false (fun clean => found (clean.before told)) (fails _)

end Builder

theorem balanced_iff {ds : List Diagnostic} (shallow : ∀ d ∈ ds, d.cause? ≠ some .nestingTooDeep) :
    Balanced ds ↔ ∀ d ∈ ds, d.cause? ≠ some .unclosedBracket ∧ d.cause? ≠ some .extraCloser := by
  refine forall₂_congr fun d hd => ?_
  have depth := shallow d hd
  unfold Diagnostic.cause? at depth ⊢
  cases hh : d.entries.head? with
  | none => simp
  | some e =>
    rw [hh] at depth
    cases hc : e.cause <;> simp [hc, Cause.ofBrackets] at depth ⊢

/-- Of the texts that do not nest too deep, those of which neither a missing nor an extra closer is
told are those whose brackets are properly nested. -/
theorem tokenize_balanced_iff (file : String) (text : List Char)
    (shallow : ∀ d ∈ (tokenize file text).diagnostics, d.cause? ≠ some .nestingTooDeep) :
    (∀ d ∈ (tokenize file text).diagnostics,
      d.cause? ≠ some .unclosedBracket ∧ d.cause? ≠ some .extraCloser) ↔
    ProperlyNested (bracketsOf text) := by
  have checks := Builder.run_checks .empty (.start file text) rfl Builder.empty_sound
    (by simp [Balanced, Builder.empty]) shallow
  rw [filterMap_bracket?] at checks
  rw [← balanced_iff shallow, ← settles_iff_nested]
  exact checks

/-- A string with a bracket and an escaped quote in it, and a bracket that goes over two lines. -/
theorem tokenize_balanced_lines :
    ProperlyNested (bracketsOf "  f(\"a\\\")\" = [b,\n  c]) :".toList) :=
  (tokenize_balanced_iff "t.cvl" _ (by decide +kernel)).1 (by decide +kernel)

end NamespaceLang

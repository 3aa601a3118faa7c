import NamespaceLang.Proofs.Tree.Parents

/-!
# Strings and the mode

While a string is open, text is read as literals. One thing parts the two: a
closing quote that stands at less indentation than the quote it would match
folds the string, is told about as one too many, and leaves the mode as it is.
From there on everything up to the end of the text is read as literals. A text
keeps the mode and the scopes in step exactly if it holds no such quote.
-/

set_option autoImplicit false

namespace NamespaceLang

open OpenScope NamespaceLang.Tree

/-- Whether a note tells of a quote that was to be closed by a quote elsewhere. -/
def Entry.misquotes (e : Entry) : Bool :=
  match e.cause with
  | .expectedCloser expected _ found _ =>
    expected == Delimiter.quote.closing && found == Delimiter.quote.closing
  | _ => false

def Diagnostic.misquotes (d : Diagnostic) : Bool := d.notes.any Entry.misquotes

/-- A string was folded by a quote at less indentation than its own. -/
def Misquoted (ds : List Diagnostic) : Prop := ∃ d ∈ ds, d.misquotes = true

theorem misquoted_append (left right : List Diagnostic) :
    Misquoted (left ++ right) ↔ Misquoted left ∨ Misquoted right := by
  simp [Misquoted, or_and_right, exists_or]

theorem misquoted_singleton (d : Diagnostic) : Misquoted [d] ↔ d.misquotes = true := by
  simp [Misquoted]

namespace OpenScope

def topIsString : List OpenScope → Bool
  | [] => false
  | s :: _ => s.isString

theorem kind_of_isString {s : OpenScope} (h : s.isString = true) : s.kind = .block .quote := by
  unfold isString at h
  split at h
  · assumption
  · cases h

theorem tier_lt_quote {s : OpenScope} {outer : List OpenScope} (hf : s.Fits outer)
    (h : s.isString = false) : s.tier < Delimiter.quote.tier := by
  obtain ⟨pos, indent, kind, before⟩ := s
  rcases kind with d | c
  · cases d with
    | quote => cases h
    | round | square | curly => exact Nat.zero_lt_succ 4
  · obtain ⟨-, -, -, j, hj⟩ := hf
    show c.tier < 5
    rw [hj]
    exact Nat.lt_succ_of_le j.tier_le

end OpenScope

namespace Builder

theorem report_misquoted (b : Builder) (d : Diagnostic) (h : d.misquotes = false) :
    Misquoted (b.report d).diagnostics ↔ Misquoted b.diagnostics := by
  rw [report, misquoted_append, misquoted_singleton, h]
  simp

theorem unwind_misquoted (b : Builder) (stays : OpenScope → Bool)
    (complaint : OpenScope → Diagnostic) (h : ∀ s, (complaint s).misquotes = false) :
    Misquoted (b.unwind stays complaint).diagnostics ↔ Misquoted b.diagnostics := by
  refine (unwind_rule (P := fun later => Misquoted later.diagnostics ↔ Misquoted b.diagnostics)
    ?_ Iff.rfl).1
  intro later s outer _ _ ih
  unfold foldOnce
  split
  · exact (report_misquoted later _ (h s)).trans ih
  · exact ih

theorem close_quote_outside {b : Builder} (h : b.Sound) (ht : topIsString b.scopes = false)
    (start : Position) (indent : Int) :
    b.close .quote start indent = b.report (.error start .extraCloser) := by
  unfold close
  cases hs : b.scopes with
  | nil =>
    rw [unwind_nil b hs]
    simp only [hs]
  | cons s outer =>
    rw [hs] at ht
    have hn := (hs ▸ h.nested).1
    have hh : s.holds indent Delimiter.quote.tier = true := by
      simp [holds, tier_lt_quote hn ht]
    have hc : s.closedBy .quote indent = false := by
      obtain ⟨pos, own, kind, before⟩ := s
      rcases kind with d | c
      · cases d with
        | quote => cases ht
        | round | square | curly => rfl
      · rfl
    rw [unwind_stays b s outer hs (by simp [hh])]
    simp [hs, hc]

/-- A quote in a string ends it at its own indentation, is one too many further in, and folds the
string without ending it further out. -/
theorem close_quote_inside {b : Builder} (h : b.Sound) {s : OpenScope} {outer : List OpenScope}
    (hs : b.scopes = s :: outer) (ht : s.isString = true) (start : Position) (indent : Int) :
    b.close .quote start indent =
      if s.indent = indent then (b.fold s outer).enter (some .regular)
      else if s.indent < indent then b.report (.error start .extraCloser)
      else (b.foldOnce (unclosedAt start Delimiter.quote.closing indent) s outer).report
        (.error start .extraCloser) := by
  have hk := kind_of_isString ht
  have hc : s.closedBy .quote indent = decide (s.indent = indent) := by
    simp only [closedBy, hk, beq_self_eq_true, Bool.true_and]
    rfl
  have hh : s.holds indent Delimiter.quote.tier = decide (s.indent < indent) := by
    simp [holds, OpenScope.tier, hk]
  by_cases he : s.indent = indent
  · unfold close
    rw [unwind_stays b s outer hs (by simp [hc, he])]
    simp [hs, hc, he, Delimiter.closingMode?]
  · by_cases hl : s.indent < indent
    · unfold close
      rw [unwind_stays b s outer hs (by simp [hh, hl])]
      simp [hs, hc, he, hl]
    · rw [if_neg he, if_neg hl]
      have folded := unwind_folds
        (fun s => s.closedBy .quote indent || s.holds indent Delimiter.quote.tier)
        (unclosedAt start Delimiter.quote.closing indent) b s outer hs (by simp [hc, hh, he, hl])
      have lower : (b.foldOnce (unclosedAt start Delimiter.quote.closing indent) s outer).Sound := by
        apply h.frame
        · unfold foldOnce
          split <;> rfl
        · exact hs ▸ List.suffix_cons s outer
      have top : topIsString outer = false := by
        have hl := h.lone
        rw [hs] at hl
        cases outer with
        | nil => rfl
        | cons t rest => exact hl t List.mem_cons_self
      rw [← close_quote_outside lower top]
      unfold close
      rw [folded]

/-- What keeps mode and scopes in step, as long as nothing was misquoted. -/
structure InStep (b : Builder) : Prop where
  inside : b.mode = .inString → topIsString b.scopes = true ∨ Misquoted b.diagnostics
  outside : Misquoted b.diagnostics → b.mode = .inString ∧ topIsString b.scopes = false

theorem empty_inStep : Builder.empty.InStep where
  inside := by simp [empty]
  outside := by simp [empty, Misquoted]

theorem InStep.frame {b later : Builder} (h : b.InStep) (hm : later.mode = b.mode)
    (hs : later.scopes = b.scopes)
    (hd : Misquoted later.diagnostics ↔ Misquoted b.diagnostics) : later.InStep where
  inside := by
    rw [hm, hs, hd]
    exact h.inside
  outside := by
    rw [hm, hs, hd]
    exact h.outside

theorem InStep.regular {b later : Builder} (h : b.InStep) (hr : b.mode = .regular)
    (hm : later.mode = .inString → topIsString later.scopes = true)
    (hd : Misquoted later.diagnostics ↔ Misquoted b.diagnostics) : later.InStep where
  inside := fun hi => Or.inl (hm hi)
  outside := by
    intro hq
    have := (h.outside (hd.1 hq)).1
    rw [hr] at this
    cases this

theorem openBlock_inStep {b : Builder} (h : b.InStep) (hr : b.mode = .regular) (d : Delimiter)
    (start : Position) (indent : Int) : (b.openBlock d start indent).InStep := by
  unfold openBlock
  split
  · exact h.frame rfl rfl (report_misquoted b _ rfl)
  · apply h.regular hr
    · cases d with
      | quote => exact fun _ => rfl
      | round | square | curly => simp [enter, Delimiter.openingMode?, hr]
    · exact Iff.rfl

theorem unclosedAt_misquotes {d : Delimiter} (hd : d ≠ .quote) (start : Position) (indent : Int)
    (s : OpenScope) : (unclosedAt start d.closing indent s).misquotes = false := by
  cases d with
  | quote => exact absurd rfl hd
  | round | square | curly =>
    simp [unclosedAt, Diagnostic.misquotes, Diagnostic.notes, Diagnostic.withNote, Diagnostic.error,
      Entry.misquotes, Delimiter.closing]

theorem close_bracket_frame (b : Builder) {d : Delimiter} (hd : d ≠ .quote) (start : Position)
    (indent : Int) :
    (b.close d start indent).mode = b.mode ∧
      (Misquoted (b.close d start indent).diagnostics ↔ Misquoted b.diagnostics) := by
  have hm : (b.foldToCloser d start indent).mode = b.mode := unwind_mode b
  have hu : Misquoted (b.foldToCloser d start indent).diagnostics ↔ Misquoted b.diagnostics :=
    unwind_misquoted b _ _ (unclosedAt_misquotes hd start indent)
  have same : d.closingMode? = none := by
    cases d with
    | quote => exact absurd rfl hd
    | round | square | curly => rfl
  apply close_rule
    (P := fun later => later.mode = b.mode ∧ (Misquoted later.diagnostics ↔ Misquoted b.diagnostics))
  · intro s outer _ _
    rw [same]
    exact ⟨hm, hu⟩
  · exact fun _ => ⟨hm, (report_misquoted _ _ rfl).trans hu⟩

theorem wrap_misquoted (b : Builder) (w : Wrapper) (start : Position) (indent : Int) :
    Misquoted (b.wrap w start indent).diagnostics ↔ Misquoted b.diagnostics := by
  apply unwind_misquoted
  intro s
  cases w <;> simp [unclosedAt, Diagnostic.misquotes, Diagnostic.notes, Diagnostic.withNote,
    Diagnostic.error, Entry.misquotes, Wrapper.spelling, Delimiter.closing]

theorem extendChain_frame (b : Builder) (s : OpenScope) (c : OpenChain) (outer : List OpenScope)
    (j : Joiner) (start next : Position) :
    (b.extendChain s c outer j start next).mode = b.mode ∧
      (Misquoted (b.extendChain s c outer j start next).diagnostics ↔ Misquoted b.diagnostics) := by
  unfold extendChain
  split
  · exact ⟨rfl, Iff.rfl⟩
  · exact ⟨rfl, report_misquoted b _ rfl⟩

theorem join_frame (b : Builder) (j : Joiner) (start next : Position) :
    (b.join j start next).mode = b.mode ∧
      (Misquoted (b.join j start next).diagnostics ↔ Misquoted b.diagnostics) := by
  have hm : (b.foldTighter j start).mode = b.mode := unwind_mode b
  have hu : Misquoted (b.foldTighter j start).diagnostics ↔ Misquoted b.diagnostics :=
    unwind_misquoted b _ _ fun _ => rfl
  apply join_rule
    (P := fun later => later.mode = b.mode ∧ (Misquoted later.diagnostics ↔ Misquoted b.diagnostics))
  · exact fun _ => ⟨hm, hu⟩
  · intro s c outer _ _ _
    have he := extendChain_frame (b.foldTighter j start) s c outer j start next
    exact ⟨he.1.trans hm, he.2.trans hu⟩

theorem close_quote_inStep {b : Builder} (h : b.InStep) (hs : b.Sound) (hm : b.mode = .inString)
    (start : Position) (indent : Int) : (b.close .quote start indent).InStep := by
  cases ht : topIsString b.scopes with
  | false =>
    rw [close_quote_outside hs ht]
    exact h.frame rfl rfl (report_misquoted b _ rfl)
  | true =>
    have clean : ¬ Misquoted b.diagnostics := by
      intro hq
      have := (h.outside hq).2
      rw [ht] at this
      cases this
    cases hsc : b.scopes with
    | nil => simp [hsc, topIsString] at ht
    | cons s outer =>
      have hq : s.isString = true := by rwa [hsc] at ht
      rw [close_quote_inside hs hsc hq]
      split
      · refine ⟨fun hi => ?_, fun hi => absurd hi clean⟩
        cases hi
      · split
        · exact h.frame rfl rfl (report_misquoted b _ rfl)
        · have told : Misquoted ((b.foldOnce (unclosedAt start Delimiter.quote.closing indent) s
              outer).report (.error start .extraCloser)).diagnostics := by
            rw [report_misquoted _ _ rfl]
            refine ⟨unclosedAt start Delimiter.quote.closing indent s, ?_, ?_⟩
            · simp [foldOnce, isBlock, kind_of_isString hq, report, fold]
            · simp [unclosedAt, Diagnostic.misquotes, Diagnostic.notes, Diagnostic.withNote,
                Diagnostic.error, Entry.misquotes, OpenScope.closing, kind_of_isString hq]
          have still : (b.foldOnce (unclosedAt start Delimiter.quote.closing indent) s outer).mode =
              .inString := by
            unfold foldOnce
            split <;> exact hm
          refine ⟨fun _ => Or.inr told, fun _ => ⟨still, ?_⟩⟩
          have hl := hs.lone
          rw [hsc] at hl
          show topIsString outer = false
          cases outer with
          | nil => rfl
          | cons t rest => exact hl t List.mem_cons_self

theorem place_inStep {b : Builder} {l : Lexeme} {start : Position} {after : Cursor}
    (hl : l.occursIn b.mode) (hs : b.Sound) (h : b.InStep) : (b.place l start after).InStep := by
  have regular : ∀ later : Builder, b.mode = .regular → later.mode = b.mode →
      (Misquoted later.diagnostics ↔ Misquoted b.diagnostics) → later.InStep :=
    fun later hr hm hd => h.regular hr (by rw [hm, hr]; simp) hd
  apply place_rule (P := InStep) hl
  · exact fun _ _ => h.frame rfl rfl Iff.rfl
  · exact fun _ => h.frame rfl rfl Iff.rfl
  · exact fun _ _ => h.frame rfl rfl (report_misquoted b _ rfl)
  · exact fun _ _ => h.frame rfl rfl (report_misquoted b _ rfl)
  · exact fun d hr => openBlock_inStep h hr d _ _
  · intro d hd hr
    have hf := close_bracket_frame b hd start after.indent
    exact regular _ hr hf.1 hf.2
  · exact fun hm => close_quote_inStep h hs hm _ _
  · exact fun w hr => regular _ hr (unwind_mode b) (wrap_misquoted b w _ _)
  · exact fun j hr => regular _ hr (join_frame b j _ _).1 (join_frame b j _ _).2

theorem finish_misquoted (b : Builder) (stop : Position) :
    Misquoted (b.finish stop).diagnostics ↔ Misquoted b.diagnostics :=
  unwind_misquoted b _ _ fun _ => rfl

end Builder

theorem reading_inStep {file : String} {text : List Char} {b : Builder} {c : Cursor}
    (h : Reading file text b c) : b.InStep :=
  (reading_invariant (P := fun b => b.Sound ∧ b.InStep) ⟨Builder.empty_sound, Builder.empty_inStep⟩
    (fun _ _ _ _ hl _ h => ⟨Builder.place_sound hl h.1, Builder.place_inStep hl h.1 h.2⟩) h).2

namespace Tree

def isLiteral : Tree → Bool
  | .leaf _ (.text _) => true
  | _ => false

def isError : Tree → Bool
  | .leaf _ .error => true
  | _ => false

end Tree

def Form.isString : Form → Bool
  | .block .string _ _ => true
  | _ => false

def InString (parent : Option Form) (item : Tree) : Prop :=
  item.isLiteral = true → parent.any Form.isString = true

def OfString (parent : Option Form) (item : Tree) : Prop :=
  parent.any Form.isString = true → item.isLiteral = true ∨ item.isError = true

theorem plain_no_string {parent : Option Form} (h : Plain parent) :
    parent.any Form.isString = false := by
  rcases parent with _ | _ | ⟨tag, opening, closing⟩ | _
  · rfl
  · rfl
  · cases tag with
    | string => exact absurd rfl h
    | _ => rfl
  · rfl

theorem inString_law : Law InString where
  group _ _ _ _ _ _ h := by cases h
  operand _ _ _ _ h := by cases h
  operator _ _ _ _ h := by cases h
  move parent _ _ hp _ h hi := by
    have := h hi
    rw [plain_no_string hp] at this
    cases this

theorem ofString_law : Law OfString where
  group _ _ _ _ hp _ h := by
    rw [plain_no_string hp] at h
    cases h
  operand _ _ _ _ h := by cases h
  operator _ _ _ _ h := by cases h
  move _ _ _ _ hq _ h := by
    rw [plain_no_string hq] at h
    cases h

namespace OpenScope

theorem topForm_isString (scopes : List OpenScope) :
    (topForm scopes).any Form.isString = topIsString scopes := by
  rcases scopes with _ | ⟨⟨_, _, d | _, _⟩, _⟩
  · rfl
  · cases d <;> rfl
  · rfl

end OpenScope

namespace Builder

theorem place_ofString {b : Builder} {l : Lexeme} {start : Position} {after : Cursor}
    (hl : l.occursIn b.mode) (hs : b.Sound) (h : b.Lawful OfString) :
    (b.place l start after).Lawful OfString := by
  apply place_lawful ofString_law hl hs h
  intro content hc ht
  rw [topForm_isString] at ht
  cases hm : b.mode with
  | regular =>
    have := plain_no_string (plain_top (hs.plain hm))
    rw [topForm_isString, ht] at this
    cases this
  | inString =>
    rcases hc with rfl | hc
    · exact Or.inr rfl
    · rw [hm] at hc
      cases content with
      | text content => exact Or.inl rfl
      | _ => cases hc

theorem place_inString {b : Builder} {l : Lexeme} {start : Position} {after : Cursor}
    (hl : l.occursIn b.mode) (hs : b.Sound) (ht : b.InStep)
    (h : Misquoted b.diagnostics ∨ b.Lawful InString) :
    Misquoted (b.place l start after).diagnostics ∨ (b.place l start after).Lawful InString := by
  have keeps : Misquoted b.diagnostics → Misquoted (b.place l start after).diagnostics :=
    fun ⟨d, hd, hq⟩ => ⟨d, (place_diagnostics b l start after hl).subset hd, hq⟩
  rcases h with h | h
  · exact Or.inl (keeps h)
  · by_cases hq : Misquoted b.diagnostics
    · exact Or.inl (keeps hq)
    · right
      apply place_lawful inString_law hl hs h
      intro content hc hi
      cases content with
      | text content =>
        rw [topForm_isString]
        have hm : b.mode = .inString := by
          cases hm : b.mode with
          | inString => rfl
          | regular => simp [hm, Lexeme.occursIn] at hc
        exact (ht.inside hm).resolve_right hq
      | _ => cases hi

end Builder

section

variable {file : String} {text : List Char}

theorem reading_ofString {b : Builder} {c : Cursor} (h : Reading file text b c) :
    b.Lawful OfString :=
  (reading_invariant (P := fun b => b.Sound ∧ b.Lawful OfString)
    ⟨Builder.empty_sound, Builder.empty_lawful⟩
    (fun _ _ _ _ hl _ h => ⟨Builder.place_sound hl h.1, Builder.place_ofString hl h.1 h.2⟩) h).2

theorem reading_inString {b : Builder} {c : Cursor} (h : Reading file text b c) :
    Misquoted b.diagnostics ∨ b.Lawful InString := by
  apply (reading_invariant (P := fun b => b.Sound ∧ b.InStep ∧
    (Misquoted b.diagnostics ∨ b.Lawful InString)) _ _ h).2.2
  · exact ⟨Builder.empty_sound, Builder.empty_inStep, Or.inr Builder.empty_lawful⟩
  · rintro b l pos after hl - ⟨hs, ht, hi⟩
    exact ⟨Builder.place_sound hl hs, Builder.place_inStep hl hs ht,
      Builder.place_inString hl hs ht hi⟩

end

theorem strings_hold_literals (file : String) (text : List Char) :
    Tree.Lawful OfString none (tokenize file text).nodes := by
  obtain ⟨b, c, read, -, nodes, -⟩ := tokenize_reading file text
  rw [nodes]
  exact Builder.finish_lawful ofString_law (reading_ofString read) (reading_sound read) _

/-- Exactly the texts without a misquoted string keep the mode and the scopes in step; in their
trees literal text stands in strings and in nothing else. -/
theorem in_step_iff_nothing_misquoted (file : String) (text : List Char) :
    ((∀ b c, Reading file text b c → (b.mode = .inString ↔ topIsString b.scopes = true)) ∧
      Tree.Lawful InString none (tokenize file text).nodes ∧
      Tree.Lawful OfString none (tokenize file text).nodes) ↔
    ¬ Misquoted (tokenize file text).diagnostics := by
  obtain ⟨last, stop, read, -, nodes, diagnostics⟩ := tokenize_reading file text
  constructor
  · rintro ⟨inStep, -, -⟩ told
    rw [diagnostics, Builder.finish_misquoted] at told
    have out := (reading_inStep read).outside told
    have := (inStep last stop read).1 out.1
    rw [out.2] at this
    cases this
  · intro clean
    have never : ∀ b c, Reading file text b c → ¬ Misquoted b.diagnostics :=
      fun b c h ⟨d, hd, hq⟩ => clean ⟨d, (reading_diagnostics h).subset hd, hq⟩
    refine ⟨fun b c h => ⟨fun hm => ?_, fun ht => ?_⟩, ?_, strings_hold_literals file text⟩
    · exact ((reading_inStep h).inside hm).resolve_right (never b c h)
    · cases hm : b.mode with
      | inString => rfl
      | regular =>
        have := plain_no_string (plain_top ((reading_sound h).plain hm))
        rw [topForm_isString, ht] at this
        cases this
    · rw [nodes]
      have lawful := (reading_inString read).resolve_left (never last stop read)
      exact Builder.finish_lawful inString_law lawful (reading_sound read) _

/-- The second quote folds the string of the first, and what follows it is literal text all the
same. -/
theorem misquoted_out_of_step :
    ∃ b c, Reading "t.cvl" " \"\n\"a".toList b c ∧ b.mode = .inString ∧
      topIsString b.scopes = false ∧
      ¬ Tree.Lawful InString none (tokenize "t.cvl" " \"\n\"a".toList).nodes := by
  refine ⟨_, _, (run_reading .empty (.start "t.cvl" " \"\n\"a".toList) rfl .start).1, ?_, ?_, ?_⟩
  · decide +kernel
  · decide +kernel
  · intro lawful
    have outside : (tokenize "t.cvl" " \"\n\"a".toList).nodes.any isLiteral = true := by decide +kernel
    obtain ⟨item, hm, hl⟩ := List.any_eq_true.1 outside
    cases lawful.1 item hm hl

end NamespaceLang

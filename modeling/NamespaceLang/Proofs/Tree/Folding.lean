import NamespaceLang.Proofs.Tree.Reading

/-!
# Folding scopes

What unwinding does to a builder follows from what one fold does. It leaves an
end of the scopes as they are, changes neither mode nor the flag that stops a
reading, and adds diagnostics only at the end.
-/

set_option autoImplicit false

namespace NamespaceLang

namespace OpenScope

/-- The tier of the innermost scope. The file has the lowest one. -/
def topTier : List OpenScope → Nat
  | [] => 0
  | s :: _ => s.tier

def topIndent (scopes : List OpenScope) : Int := (scopes.head?.map (·.indent)).getD (-1)

end OpenScope

open OpenScope

theorem OpenChain.done_extend (c : OpenChain) (items : List Tree) (j : Joiner)
    (start next : Position) : (c.extend items j start next).done.toList =
      c.done.toList ++ [segment items c.operandStart, .leaf start (.operator j.spelling)] := by
  simp [extend]

theorem Joiner.tier_pos (j : Joiner) : 0 < j.tier := by
  cases j <;> decide

theorem Joiner.tier_le (j : Joiner) : j.tier ≤ 4 := by
  cases j <;> decide

namespace Builder

variable {stays : OpenScope → Bool} {complaint : OpenScope → Diagnostic}

/-- One turn of unwinding: a block is complained about before it is folded. -/
def foldOnce (complaint : OpenScope → Diagnostic) (b : Builder) (s : OpenScope)
    (outer : List OpenScope) : Builder :=
  (if s.isBlock then b.report (complaint s) else b).fold s outer

theorem unwind_nil (b : Builder) (h : b.scopes = []) : b.unwind stays complaint = b := by
  rw [unwind, h, foldUntil, ← h]

theorem unwind_stays (b : Builder) (s : OpenScope) (outer : List OpenScope)
    (h : b.scopes = s :: outer) (hs : stays s = true) : b.unwind stays complaint = b := by
  rw [unwind, h, foldUntil, if_pos hs, ← h]

theorem unwind_folds (stays : OpenScope → Bool) (complaint : OpenScope → Diagnostic) (b : Builder)
    (s : OpenScope) (outer : List OpenScope) (h : b.scopes = s :: outer) (hs : stays s = false) :
    b.unwind stays complaint = (b.foldOnce complaint s outer).unwind stays complaint := by
  rw [unwind, h, foldUntil, if_neg (by simp [hs])]
  rfl

/-- The rule for unwinding: what every fold of a scope that does not stay keeps holds at the end,
where the innermost scope stays. -/
theorem unwind_rule {P : Builder → Prop}
    (fold : ∀ (b : Builder) (s : OpenScope) (outer : List OpenScope), b.scopes = s :: outer →
      stays s = false → P b → P (b.foldOnce complaint s outer))
    {b : Builder} (h : P b) :
    P (b.unwind stays complaint) ∧
      ∀ s ∈ (b.unwind stays complaint).scopes.head?, stays s = true := by
  generalize hn : b.scopes = scopes
  induction scopes generalizing b with
  | nil =>
    rw [unwind_nil b hn]
    exact ⟨h, by simp [hn]⟩
  | cons s outer ih =>
    cases hs : stays s with
    | true =>
      rw [unwind_stays b s outer hn hs]
      exact ⟨h, by simp [hn, hs]⟩
    | false =>
      rw [unwind_folds _ _ b s outer hn hs]
      exact ih (fold b s outer hn hs h) rfl

theorem unwind_frame (b : Builder) :
    (b.unwind stays complaint).mode = b.mode ∧ (b.unwind stays complaint).stopped = b.stopped ∧
      (b.unwind stays complaint).scopes <:+ b.scopes ∧
      b.diagnostics <+: (b.unwind stays complaint).diagnostics := by
  refine (unwind_rule (P := fun later => later.mode = b.mode ∧ later.stopped = b.stopped ∧
    later.scopes <:+ b.scopes ∧ b.diagnostics <+: later.diagnostics) ?_ ?_).1
  · rintro later s outer hs - ⟨hm, ht, hscopes, hd⟩
    have inner : outer <:+ b.scopes := (List.suffix_cons s outer).trans (hs ▸ hscopes)
    unfold foldOnce
    split
    · exact ⟨hm, ht, inner, hd.trans (List.prefix_append _ _)⟩
    · exact ⟨hm, ht, inner, hd⟩
  · exact ⟨rfl, rfl, List.suffix_refl _, List.prefix_refl _⟩

@[simp] theorem unwind_mode (b : Builder) : (b.unwind stays complaint).mode = b.mode :=
  (unwind_frame b).1

@[simp] theorem unwind_stopped (b : Builder) : (b.unwind stays complaint).stopped = b.stopped :=
  (unwind_frame b).2.1

theorem unwind_scopes (b : Builder) : (b.unwind stays complaint).scopes <:+ b.scopes :=
  (unwind_frame b).2.2.1

theorem unwind_diagnostics (b : Builder) :
    b.diagnostics <+: (b.unwind stays complaint).diagnostics :=
  (unwind_frame b).2.2.2

theorem unwind_head (b : Builder) (s : OpenScope) (outer : List OpenScope)
    (h : (b.unwind stays complaint).scopes = s :: outer) : stays s = true :=
  (unwind_rule (P := fun _ => True) (fun _ _ _ _ _ _ => trivial) trivial).2 s (by rw [h]; rfl)

def unclosedAtEnd (stop : Position) (s : OpenScope) : Diagnostic :=
  (Diagnostic.error s.pos .unclosedBracket).withNote stop .endOfInput

theorem finish_eq (b : Builder) (stop : Position) :
    b.finish stop = b.unwind (fun _ => false) (unclosedAtEnd stop) := rfl

theorem finish_scopes (b : Builder) (stop : Position) : (b.finish stop).scopes = [] := by
  cases h : (b.finish stop).scopes with
  | nil => rfl
  | cons s outer => cases unwind_head b s outer h

def foldToCloser (b : Builder) (d : Delimiter) (start : Position) (indent : Int) : Builder :=
  b.unwind (fun s => s.closedBy d indent || s.holds indent d.tier) (unclosedAt start d.closing indent)

def foldTighter (b : Builder) (j : Joiner) (start : Position) : Builder :=
  b.unwind (·.tier ≤ j.tier) fun s => (Diagnostic.error s.pos .neverClosed).withNote start .closedHere

theorem close_rule {P : Builder → Prop} (b : Builder) (d : Delimiter) (start : Position)
    (indent : Int)
    (ends : ∀ s outer, (b.foldToCloser d start indent).scopes = s :: outer →
      s.closedBy d indent = true →
      P (((b.foldToCloser d start indent).fold s outer).enter d.closingMode?))
    (extra : (∀ s ∈ (b.foldToCloser d start indent).scopes.head?, s.closedBy d indent = false) →
      P ((b.foldToCloser d start indent).report (.error start .extraCloser))) :
    P (b.close d start indent) := by
  unfold close
  dsimp only
  split
  · next s outer hs =>
    have innermost : (b.foldToCloser d start indent).scopes = s :: outer := hs
    split
    · next hc => exact ends s outer innermost hc
    · next hc => exact extra (by simpa [innermost] using hc)
  · next hs =>
    have none_left : (b.foldToCloser d start indent).scopes = [] := hs
    exact extra (by simp [none_left])

theorem join_rule {P : Builder → Prop} (b : Builder) (j : Joiner) (start next : Position)
    (begins : topTier (b.foldTighter j start).scopes < j.tier →
      P ((b.foldTighter j start).startChain j start next))
    (goesOn : ∀ s c outer, (b.foldTighter j start).scopes = s :: outer → s.kind = .chain c →
      c.tier = j.tier → P ((b.foldTighter j start).extendChain s c outer j start next)) :
    P (b.join j start next) := by
  unfold join
  dsimp only
  split
  · next hs =>
    have none_left : (b.foldTighter j start).scopes = [] := hs
    exact begins (by rw [none_left]; exact j.tier_pos)
  · next s outer hs =>
    have innermost : (b.foldTighter j start).scopes = s :: outer := hs
    have hle : s.tier ≤ j.tier := by simpa using unwind_head b s outer hs
    split
    · next hlt => exact begins (by rw [innermost]; exact hlt)
    · next hlt =>
      have he : s.tier = j.tier := by omega
      split
      · next c hk =>
        rw [tier, hk] at he
        exact goesOn s c outer innermost hk he
      · next d hk =>
        rw [tier, hk] at he
        cases d <;> cases j <;> cases he

theorem close_scopes (b : Builder) (d : Delimiter) (start : Position) (indent : Int) :
    (b.close d start indent).scopes <:+ b.scopes := by
  have left : (b.foldToCloser d start indent).scopes <:+ b.scopes := unwind_scopes b
  apply close_rule (P := fun later => later.scopes <:+ b.scopes)
  · intro s outer hs _
    exact (List.suffix_cons s outer).trans (hs ▸ left)
  · exact fun _ => left

theorem wrap_scopes (b : Builder) (w : Wrapper) (start : Position) (indent : Int) :
    (b.wrap w start indent).scopes <:+ b.scopes := by
  unfold wrap
  exact unwind_scopes b

theorem extendChain_scopes (b : Builder) (s : OpenScope) (c : OpenChain) (outer : List OpenScope)
    (j : Joiner) (start next : Position) :
    (b.extendChain s c outer j start next).scopes =
      { s with kind := .chain (c.extend b.items.toList j start next) } :: outer := by
  unfold extendChain
  split <;> rfl

theorem report_diagnostics (b : Builder) (d : Diagnostic) :
    b.diagnostics <+: (b.report d).diagnostics := List.prefix_append _ _

theorem openBlock_diagnostics (b : Builder) (d : Delimiter) (start : Position) (indent : Int) :
    b.diagnostics <+: (b.openBlock d start indent).diagnostics := by
  unfold openBlock
  split
  · exact report_diagnostics b _
  · exact List.prefix_refl _

theorem close_diagnostics (b : Builder) (d : Delimiter) (start : Position) (indent : Int) :
    b.diagnostics <+: (b.close d start indent).diagnostics := by
  have hu : b.diagnostics <+: (b.foldToCloser d start indent).diagnostics := unwind_diagnostics b
  apply close_rule (P := fun later => b.diagnostics <+: later.diagnostics)
  · exact fun _ _ _ _ => hu
  · exact fun _ => hu.trans (report_diagnostics _ _)

theorem extendChain_diagnostics (b : Builder) (s : OpenScope) (c : OpenChain)
    (outer : List OpenScope) (j : Joiner) (start next : Position) :
    b.diagnostics <+: (b.extendChain s c outer j start next).diagnostics := by
  unfold extendChain
  split
  · exact List.prefix_refl _
  · exact report_diagnostics b _

theorem join_diagnostics (b : Builder) (j : Joiner) (start next : Position) :
    b.diagnostics <+: (b.join j start next).diagnostics := by
  have hu : b.diagnostics <+: (b.foldTighter j start).diagnostics := unwind_diagnostics b
  apply join_rule (P := fun later => b.diagnostics <+: later.diagnostics)
  · exact fun _ => hu
  · exact fun _ _ _ _ _ _ => hu.trans (extendChain_diagnostics _ _ _ _ _ _ _)

/-- The rule for placing a lexeme that the mode allows: a case for each thing that a builder does.
Only a quote is closed inside a string, and nothing else is done there but adding leaves. -/
theorem place_rule {P : Builder → Prop} {b : Builder} {l : Lexeme} {start : Position}
    {after : Cursor} (hl : l.occursIn b.mode)
    (leaf : ∀ content, (Lexeme.leaf content).occursIn b.mode → P (b.add (.leaf start content)))
    (softBreak : b.mode = .regular → P (b.add (.leaf start (.whitespace true))))
    (badEscape : ∀ found, b.mode = .inString →
      P ((b.report (.error start (.badEscape found))).add (.leaf start .error)))
    (badToken : ∀ spelling, b.mode = .regular →
      P ((b.report (.error start (.badToken spelling))).add (.leaf start .error)))
    (openBlock : ∀ d, b.mode = .regular → P (b.openBlock d start after.indent))
    (closeBracket : ∀ d, d ≠ .quote → b.mode = .regular → P (b.close d start after.indent))
    (closeQuote : b.mode = .inString → P (b.close .quote start after.indent))
    (wrap : ∀ w, b.mode = .regular → P (b.wrap w start after.indent))
    (join : ∀ j, b.mode = .regular → P (b.join j start after.position)) :
    P (b.place l start after) := by
  have regular := Lexeme.regular_of_occurs hl
  rcases l with content | _ | p | found | spelling
  · exact leaf content hl
  · simp only [place]
    split
    · exact softBreak (regular rfl)
    · exact join .lineBreak (regular rfl)
  · rcases p with d | d | w | j
    · exact openBlock d (regular rfl)
    · cases hm : b.mode with
      | regular => exact closeBracket d (by rintro rfl; simp [hm, Lexeme.occursIn] at hl) hm
      | inString =>
        cases d with
        | quote => exact closeQuote hm
        | round | square | curly => simp [hm, Lexeme.occursIn] at hl
    · exact wrap w (regular rfl)
    · exact join j (regular rfl)
  · cases hm : b.mode with
    | regular => simp [hm, Lexeme.occursIn] at hl
    | inString => exact badEscape found hm
  · exact badToken spelling (regular rfl)

theorem place_diagnostics (b : Builder) (l : Lexeme) (start : Position) (after : Cursor)
    (hl : l.occursIn b.mode) : b.diagnostics <+: (b.place l start after).diagnostics :=
  place_rule (P := fun later => b.diagnostics <+: later.diagnostics) hl
    (fun _ _ => List.prefix_refl _) (fun _ => List.prefix_refl _)
    (fun _ _ => report_diagnostics b _) (fun _ _ => report_diagnostics b _)
    (fun d _ => openBlock_diagnostics b d _ _) (fun d _ _ => close_diagnostics b d _ _)
    (fun _ => close_diagnostics b _ _ _) (fun _ _ => unwind_diagnostics b)
    (fun j _ => join_diagnostics b j _ _)

theorem finish_diagnostics (b : Builder) (stop : Position) :
    b.diagnostics <+: (b.finish stop).diagnostics := unwind_diagnostics b

theorem run_diagnostics (b : Builder) (c : Cursor) : b.diagnostics <+: (b.run c).1.diagnostics := by
  fun_induction Builder.run b c with
  | case1 => exact List.prefix_refl _
  | case2 b c first after ht lexed placed hs =>
    exact place_diagnostics b _ _ _ (Lexeme.next_occurs _ _ _)
  | case3 b c first after ht lexed placed hs ih =>
    exact (place_diagnostics b _ _ _ (Lexeme.next_occurs _ _ _)).trans ih

end Builder

theorem reading_diagnostics {file : String} {text : List Char} {b : Builder} {c : Cursor}
    (h : Reading file text b c) : b.diagnostics <+: (tokenize file text).diagnostics := by
  have whole := reading_run h
  have last := Builder.finish_diagnostics (Builder.empty.run (.start file text)).1
    (Builder.empty.run (.start file text)).2.position
  refine List.IsPrefix.trans ?_ last
  rw [← whole]
  split
  · exact List.prefix_refl _
  · exact Builder.run_diagnostics b c

end NamespaceLang

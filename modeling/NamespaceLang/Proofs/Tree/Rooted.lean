import NamespaceLang.Proofs.Tree.Frames

/-!
# The file stays open

The stack of frames is never empty while a text is read: the file is at its bottom,
and it alone is the file. So every check of the machine passes in every state of a
reading. A joiner meets no bracket and no string of its own tier, and what it pops
are chains, which close themselves. What is told of a text is one of a few things,
and nothing that is held to be impossible is among them.
-/

set_option autoImplicit false

namespace NamespaceLang

open NamespaceLang.Frame

inductive Diagnostic.OfText : Diagnostic → Prop
  | badEscape (pos : Position) (found : Option Char) : OfText (.error pos (.badEscape found))
  | badToken (pos : Position) (spelling : String) : OfText (.error pos (.badToken spelling))
  | nestingTooDeep (pos : Position) : OfText (.error pos .nestingTooDeep)
  | extraCloser (pos : Position) : OfText (.error pos .extraCloser)
  | unclosed (pos noted : Position) (note : Cause) :
    OfText ((Diagnostic.error pos .unclosedBracket).withNote noted note)
  | mixed (pos first : Position) :
    OfText ((Diagnostic.error pos .mixedOperators).withNote first .previousOperator)

namespace Diagnostic

theorem OfText.severity {d : Diagnostic} (h : d.OfText) : d.severity = .error := by
  cases h <;> rfl

theorem append_ne {start rest other : String} (h : ¬ start.toList <+: other.toList) :
    start ++ rest ≠ other := by
  rintro rfl
  rw [String.toList_append] at h
  exact h (List.prefix_append _ _)

theorem OfText.message {d : Diagnostic} (h : d.OfText) : d.message ≠ Cause.neverClosed.message := by
  cases h with
  | badEscape pos found =>
    cases found with
    | none => exact (by decide : (Cause.badEscape none).message ≠ Cause.neverClosed.message)
    | some c => exact append_ne (by decide)
  | badToken pos spelling => exact append_ne (by decide)
  | nestingTooDeep pos =>
    show _ ++ _ ++ _ ≠ _
    rw [String.append_assoc]
    exact append_ne (by decide)
  | extraCloser pos => exact (by decide : Cause.extraCloser.message ≠ Cause.neverClosed.message)
  | unclosed pos noted note => exact (by decide : Cause.unclosedBracket.message ≠ Cause.neverClosed.message)
  | mixed pos first => exact (by decide : Cause.mixedOperators.message ≠ Cause.neverClosed.message)

end Diagnostic

namespace Builder

theorem chain_of_tighter {s : OpenScope} {j : Joiner} (plain : s.isString = false)
    (h : j.tier < s.tier) : s.isBlock = false := by
  rcases s with ⟨pos, indent, d | c, before⟩
  · cases d with
    | quote => cases plain
    | round | square | curly => exact absurd h (Nat.not_lt_zero _)
  · rfl

theorem foldTighter_quiet {b : Builder} (sound : b.Sound) (regular : b.mode = .regular) (j : Joiner)
    (start : Position) : (b.foldTighter j start).diagnostics = b.diagnostics := by
  refine ((unwind_rule (P := fun later => later.mode = .regular ∧ later.Sound ∧
    later.diagnostics = b.diagnostics) ?_) ⟨regular, sound, rfl⟩).1.2.2
  rintro later s outer hs folds ⟨hr, hl, hd⟩
  have tighter : j.tier < s.tier := by simpa using folds
  have chain : s.isBlock = false := chain_of_tighter (hl.plain hr s (by simp [hs])) tighter
  have quiet : later.foldOnce (fun s => (Diagnostic.error s.pos .neverClosed).withNote start
      .closedHere) s outer = later.fold s outer := by
    rw [foldOnce, chain]
    rfl
  rw [quiet]
  exact ⟨hr, hl.frame rfl (hs ▸ List.suffix_cons s outer), hd⟩

def OfText (b : Builder) : Prop := ∀ d ∈ b.diagnostics, d.OfText

theorem OfText.report {b : Builder} (h : b.OfText) {d : Diagnostic} (hd : d.OfText) :
    (b.report d).OfText := by
  intro e he
  rcases List.mem_append.1 he with he | he
  · exact h e he
  · exact List.mem_singleton.1 he ▸ hd

theorem OfText.unwind {b : Builder} (h : b.OfText) (stays : OpenScope → Bool)
    {complaint : OpenScope → Diagnostic} (told : ∀ s, (complaint s).OfText) :
    (b.unwind stays complaint).OfText := by
  refine (unwind_rule (P := OfText) ?_ h).1
  intro later s outer _ _ hl
  unfold foldOnce
  split
  · exact hl.report (told s)
  · exact hl

theorem OfText.place {b : Builder} {l : Lexeme} {start : Position} {after : Cursor}
    (hl : l.occursIn b.mode) (sound : b.Sound) (h : b.OfText) : (b.place l start after).OfText := by
  have closes : ∀ d : Delimiter, (b.close d start after.indent).OfText := by
    intro d
    have folded : (b.foldToCloser d start after.indent).OfText := h.unwind _ fun _ => .unclosed _ _ _
    apply close_rule (P := OfText)
    · exact fun _ _ _ _ => folded
    · exact fun _ => folded.report (.extraCloser _)
  refine place_rule (P := OfText) hl ?_ ?_ ?_ ?_ ?_ ?_ ?_ ?_ ?_
  · exact fun _ _ => h
  · exact fun _ => h
  · exact fun _ _ => h.report (.badEscape _ _)
  · exact fun _ _ => h.report (.badToken _ _)
  · intro d _
    unfold openBlock
    split
    · exact h.report (.nestingTooDeep _)
    · exact h
  · exact fun d _ _ => closes d
  · exact fun _ => closes .quote
  · exact fun w _ => h.unwind (·.holds after.indent w.tier) fun _ => .unclosed _ _ _
  · intro j regular
    have folded : (b.foldTighter j start).OfText := by
      rw [OfText, foldTighter_quiet sound regular]
      exact h
    apply join_rule (P := OfText)
    · exact fun _ => folded
    · intro s c outer _ _ _
      unfold extendChain
      split
      · exact folded
      · exact folded.report (.mixed _ _)

end Builder

theorem reading_ofText {file : String} {text : List Char} {b : Builder} {c : Cursor}
    (h : Reading file text b c) : b.OfText :=
  (reading_invariant (P := fun b => b.Sound ∧ b.OfText)
    ⟨Builder.empty_sound, fun _ hd => by cases hd⟩
    (fun _ _ _ _ hl _ h => ⟨Builder.place_sound hl h.1, h.2.place hl h.1⟩) h).2

theorem tokenize_ofText (file : String) (text : List Char) :
    ∀ d ∈ (tokenize file text).diagnostics, d.OfText := by
  obtain ⟨b, c, read, -, -, told⟩ := tokenize_reading file text
  rw [told]
  exact (reading_ofText read).unwind _ fun _ => .unclosed _ _ _

namespace FrameMachine

inductive Reached (file : String) (text : List Char) : FrameMachine → Cursor → Prop
  | start : Reached file text (.start file) (.start file text)
  | next {m later : FrameMachine} {c after : Cursor} {first : Char}
      (before : Reached file text m c) (taken : c.take? = some (first, after))
      (turn : m.place (Lexeme.next m.mode first after).1 c.position
        (Lexeme.next m.mode first after).2 = .on later) :
      Reached file text later (Lexeme.next m.mode first after).2

theorem reached_frames {file : String} {text : List Char} {m : FrameMachine} {c : Cursor}
    (h : Reached file text m c) :
    ∃ b, Reading file text b c ∧ b.stopped = false ∧ m = b.frames file := by
  induction h with
  | start => exact ⟨.empty, .start, rfl, rfl⟩
  | @next m later c after first before taken turn ih =>
    obtain ⟨b, read, going, rfl⟩ := ih
    obtain ⟨taken', goes⟩ | ⟨halted, -⟩ := frames_place file
      (Lexeme.next b.mode first after).1 c.position (Lexeme.next b.mode first after).2 going
    · refine ⟨_, read.next going taken, goes, ?_⟩
      exact Turn.on.inj (turn.symm.trans taken')
    · cases turn.symm.trans halted

/-- All that the machine checks, in a state with the cursor at `c`. -/
structure Faultless (m : FrameMachine) (c : Cursor) : Prop where
  rooted : ∃ inner root, m.stack = inner ++ [root] ∧ root.isRoot = true ∧
    ∀ f ∈ inner, f.isRoot = false
  /-- The next lexeme is taken in, unless the brackets are nested too deep. -/
  turns : ∀ first after, c.take? = some (first, after) →
    let lexed := Lexeme.next m.mode first after
    (∃ later, m.place lexed.1 c.position lexed.2 = .on later) ∨
      m.place lexed.1 c.position lexed.2 = .halt m (.error c.position .nestingTooDeep)
  /-- At the end of the text everything but the file is popped. -/
  ends : ∃ last root, m.finish c.position = .on last ∧ last.stack = [root] ∧ root.isRoot = true
  apart : ∀ f ∈ m.stack, ∀ j : Joiner, f.tier = j.tier → f.chain?.isSome = true
  /-- A joiner pops the frames that bind tighter, which are chains, and tells nothing of it. -/
  joins : m.mode = .regular → ∀ (j : Joiner) (start here : Position),
    (∀ f ∈ m.stack.takeWhile (j.tier < ·.tier), f.autoClose = true ∧ f.chain?.isSome = true) ∧
      ∃ later, m.popTighter j start here = .on later ∧ later.diagnostics = m.diagnostics ∧
        later.stack.length = (m.stack.dropWhile (j.tier < ·.tier)).length

variable {file : String} {b : Builder}

theorem frames_rooted (file : String) (items : Array Tree) (scopes : List OpenScope) :
    ∃ inner own, innermost file items scopes :: around file scopes =
        inner ++ [(Frame.root ⟨file, 0, 1, 1⟩).fill own] ∧
      ∀ f ∈ inner, ∃ s ∈ scopes, ∃ own, f = s.frame own := by
  induction scopes generalizing items with
  | nil => exact ⟨[], items, rfl, fun f hf => by cases hf⟩
  | cons s outer ih =>
    obtain ⟨inner, own, stack, above⟩ := ih s.before
    refine ⟨s.frame items :: inner, own, congrArg (s.frame items :: ·) stack, ?_⟩
    intro f hf
    rcases List.mem_cons.1 hf with rfl | hf
    · exact ⟨s, by simp, items, rfl⟩
    · obtain ⟨t, ht, own, he⟩ := above f hf
      exact ⟨t, by simp [ht], own, he⟩

theorem mem_frames {f : Frame} (h : f ∈ (b.frames file).stack) :
    f.tier = 0 ∨ ∃ s ∈ b.scopes, ∃ own, f = s.frame own := by
  obtain ⟨inner, own, stack, above⟩ := frames_rooted file b.items b.scopes
  rw [show (b.frames file).stack = _ from stack] at h
  rcases List.mem_append.1 h with h | h
  · exact .inr (above f h)
  · exact .inl (List.mem_singleton.1 h ▸ rfl)

theorem chain_frame {s : OpenScope} {items : Array Tree} (h : s.isBlock = false) :
    (s.frame items).autoClose = true ∧ (s.frame items).chain?.isSome = true := by
  rcases s with ⟨pos, indent, d | c, before⟩
  · cases h
  · exact ⟨rfl, rfl⟩

theorem frames_tiers (items : Array Tree) (scopes : List OpenScope) :
    (innermost file items scopes :: around file scopes).map Frame.tier =
      scopes.map OpenScope.tier ++ [0] := by
  induction scopes generalizing items with
  | nil => rfl
  | cons s outer ih =>
    show (s.frame items).tier :: (innermost file s.before outer :: around file outer).map Frame.tier = _
    rw [ih, frame_tier]
    rfl

theorem unwind_scopes_eq (stays : OpenScope → Bool) (complaint : OpenScope → Diagnostic)
    (b : Builder) : (b.unwind stays complaint).scopes = b.scopes.dropWhile (!stays ·) := by
  generalize hn : b.scopes = scopes
  induction scopes generalizing b with
  | nil => rw [Builder.unwind_nil b hn, hn]; rfl
  | cons s outer ih =>
    cases hs : stays s with
    | true =>
      rw [Builder.unwind_stays b s outer hn hs, hn, List.dropWhile_cons_of_neg (by simp [hs])]
    | false =>
      rw [Builder.unwind_folds _ _ b s outer hn hs, ih _ rfl, List.dropWhile_cons_of_pos (by simp [hs])]

theorem popTighter_length (j : Joiner) (start : Position) :
    ((b.foldTighter j start).frames file).stack.length =
      ((b.frames file).stack.dropWhile (j.tier < ·.tier)).length := by
  have dropped : (b.foldTighter j start).scopes = b.scopes.dropWhile (j.tier < ·.tier) := by
    rw [Builder.foldTighter, unwind_scopes_eq]
    simp only [← Nat.not_lt, decide_not, Bool.not_not]
  have low : (b.scopes.map OpenScope.tier ++ [0]).dropWhile (j.tier < ·) =
      (b.scopes.map OpenScope.tier).dropWhile (j.tier < ·) ++ [0] := by
    rw [List.dropWhile_append]
    split <;> simp_all
  have tiers : ((b.frames file).stack.dropWhile (j.tier < ·.tier)).map Frame.tier =
      (b.scopes.dropWhile (j.tier < ·.tier)).map OpenScope.tier ++ [0] := by
    refine Eq.trans (List.dropWhile_map (p := (j.tier < ·))).symm ?_
    rw [show (b.frames file).stack.map Frame.tier = _ from frames_tiers b.items b.scopes, low,
      List.dropWhile_map]
    rfl
  have left : ((b.foldTighter j start).frames file).stack.map Frame.tier =
      (b.foldTighter j start).scopes.map OpenScope.tier ++ [0] := frames_tiers _ _
  rw [dropped, ← tiers] at left
  simpa only [List.length_map] using congrArg List.length left

theorem frames_faultless (going : b.stopped = false) (sound : b.Sound) (c : Cursor) :
    (b.frames file).Faultless c where
  rooted := by
    obtain ⟨inner, own, stack, above⟩ := frames_rooted file b.items b.scopes
    refine ⟨inner, _, stack, rfl, fun f hf => ?_⟩
    obtain ⟨s, -, own, rfl⟩ := above f hf
    exact frame_isRoot
  turns := by
    intro first after taken
    obtain ⟨turn, -⟩ | ⟨turn, -⟩ := frames_place file
      (Lexeme.next b.mode first after).1 c.position (Lexeme.next b.mode first after).2 going
    · exact .inl ⟨_, turn⟩
    · exact .inr turn
  ends := by
    refine ⟨_, (Frame.root ⟨file, 0, 1, 1⟩).fill (b.finish c.position).items,
      frames_finish c.position, ?_, rfl⟩
    simp only [Builder.frames, Builder.finish_scopes, around, innermost]
  apart := by
    intro f hf j same
    obtain bottom | ⟨s, -, own, rfl⟩ := mem_frames hf
    · have := j.tier_pos
      omega
    · rw [frame_tier] at same
      refine (chain_frame ?_).2
      rcases s with ⟨pos, indent, d | chain, before⟩
      · cases d <;> cases j <;> cases same
      · rfl
  joins := by
    intro regular j start here
    refine ⟨fun f hf => ?_, _, frames_popTighter j, ?_, popTighter_length j start⟩
    · have tighter : j.tier < f.tier := by
        simpa using List.all_eq_true.1 List.all_takeWhile f hf
      obtain bottom | ⟨s, hs, own, rfl⟩ := mem_frames (List.takeWhile_subset _ hf)
      · omega
      · rw [frame_tier] at tighter
        exact chain_frame (Builder.chain_of_tighter (sound.plain regular s hs) tighter)
    · exact Builder.foldTighter_quiet sound regular j start

end FrameMachine

/-- Reading a text tells nothing that is held to be impossible, and no joiner closes a bracket.
The frames of the scopes make a stack with the file at its bottom, in which every check that could
tell so passes, in every state and at the end. -/
theorem tokenize_faultless (file : String) (text : List Char) :
    FrameMachine.tokenize file text = tokenize file text ∧
      (∀ d ∈ (tokenize file text).diagnostics,
        d.severity ≠ .unreachable ∧ d.message ≠ "item is never closed.") ∧
      ∀ m c, FrameMachine.Reached file text m c → m.Faultless c := by
  refine ⟨FrameMachine.tokenize_eq file text, fun d hd => ?_, fun m c reached => ?_⟩
  · have told := tokenize_ofText file text d hd
    exact ⟨by simp [told.severity], told.message⟩
  · obtain ⟨b, read, going, rfl⟩ := FrameMachine.reached_frames reached
    exact FrameMachine.frames_faultless going (reading_sound read) c

end NamespaceLang

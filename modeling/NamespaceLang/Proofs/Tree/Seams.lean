import NamespaceLang.Proofs.Tree.Balance
import NamespaceLang.Proofs.Tree.Located

/-!
# Seams

Read in order, a tree is a row of seams: its leaves, and where each of its
blocks begins and ends. The tokens of a text and the seams of its tree come to
the same, one by one, apart from what is told: the end of a bracket that is not
closed has no token, and a closer that is one too many, or an opener that is
one too deep, has no seam. While a text is read both rows only grow, and a
closer is put beside the end of a bracket of its own kind and indentation.
-/

set_option autoImplicit false

namespace NamespaceLang

open OpenScope

def lineIndent (text : List Char) (offset : Nat) : Nat :=
  leadingSpaces (lastLine (takeBytes offset text) ++ dropBytes offset text)

theorem takeBytes_append (before after : List Char) :
    takeBytes (byteLength before) (before ++ after) = before := by
  induction before with
  | nil => cases after <;> rfl
  | cons c before ih =>
    have some_bytes : byteLength (c :: before) ≠ 0 := by
      have := Char.utf8Size_pos c
      simp only [byteLength]
      omega
    rw [List.cons_append, takeBytes]
    · rw [byteLength, Nat.add_sub_cancel_left, ih]
    · exact some_bytes

theorem dropBytes_append (before after : List Char) :
    dropBytes (byteLength before) (before ++ after) = after := by
  induction before with
  | nil => cases after <;> rfl
  | cons c before ih =>
    have some_bytes : byteLength (c :: before) ≠ 0 := by
      have := Char.utf8Size_pos c
      simp only [byteLength]
      omega
    rw [List.cons_append, dropBytes]
    · rw [byteLength, Nat.add_sub_cancel_left, ih]
    · exact some_bytes

namespace Cursor

def Aligned (text : List Char) (c : Cursor) : Prop :=
  ∃ before, text = before ++ c.rest ∧ c.offset = byteLength before ∧
    c.indent = leadingSpaces (lastLine before ++ c.rest)

variable {text : List Char}

theorem start_aligned (file : String) : (Cursor.start file text).Aligned text := ⟨[], rfl, rfl, rfl⟩

theorem Aligned.indent {c : Cursor} (h : c.Aligned text) : c.indent = lineIndent text c.offset := by
  obtain ⟨before, parted, offset, indent⟩ := h
  rw [indent, lineIndent, offset, parted, takeBytes_append, dropBytes_append]

theorem Aligned.past {c : Cursor} {ch : Char} {rest : List Char} (hr : c.rest = ch :: rest)
    (h : c.Aligned text) : (c.past ch rest).Aligned text := by
  obtain ⟨before, parted, offset, indent⟩ := h
  refine ⟨before ++ [ch], by simp [parted, hr], ?_⟩
  unfold Cursor.past
  split
  · next feed =>
    subst feed
    simp [offset, byteLength, lastLine_feed]
  · next other =>
    simp [offset, byteLength, lastLine_other before other, indent, hr]

theorem Aligned.next {c after : Cursor} {first : Char} (h : c.Aligned text)
    (taken : c.take? = some (first, after)) (mode : Mode) :
    (Lexeme.next mode first after).2.Aligned text := by
  obtain ⟨rest, rfl, hr⟩ := rest_of_take? taken
  exact Lexeme.next_rule (fun _ _ _ hr => Aligned.past hr) mode first (h.past hr)

end Cursor

namespace Lexeme

theorem runsOn_of_delimiter {first : Char} {run : List Char} {after : Cursor} {d : Delimiter}
    (h : ofSpelling (first :: run) = .mark (.opener d) ∨
      d ≠ .quote ∧ ofSpelling (first :: run) = .mark (.closer d)) : runsOn first after = false := by
  have apart : ∀ p : Punctuator, ofSpelling (first :: run) = .mark p →
      p.spelling.toList = first :: run := by
    intro p hp
    rw [spelling_of_ofSpelling hp, String.toList_ofList]
  rcases h with opens | ⟨plain, closes⟩
  · have spelled := apart _ opens
    cases d <;> cases spelled <;> rfl
  · have spelled := apart _ closes
    cases d with
    | quote => exact absurd rfl plain
    | round | square | curly => cases spelled; rfl

theorem nextEscape_ne_mark (after : Cursor) (p : Punctuator) : (nextEscape after).1 ≠ .mark p := by
  unfold nextEscape
  split
  · simp
  · repeat' split
    all_goals simp

theorem nextInString_delimiter {first : Char} {after : Cursor} {p : Punctuator}
    (h : (nextInString first after).1 = .mark p) :
    first ≠ '\n' ∧ (nextInString first after).2 = after := by
  unfold nextInString at h ⊢
  split
  · next quote => exact ⟨by rw [quote]; decide, rfl⟩
  · next plain =>
    rw [if_neg plain] at h
    split at h
    · exact absurd h (nextEscape_ne_mark after p)
    · simp at h

theorem nextRegular_delimiter {first : Char} {after : Cursor} {d : Delimiter}
    (h : (nextRegular first after).1 = .mark (.opener d) ∨
      d ≠ .quote ∧ (nextRegular first after).1 = .mark (.closer d)) :
    first ≠ '\n' ∧ (nextRegular first after).2 = after := by
  unfold nextRegular at h ⊢
  split
  · next named hn =>
    rw [hn] at h
    obtain ⟨content, leaf⟩ := (name?_run hn).1
    simp [leaf] at h
  · next hn =>
    rw [hn] at h
    dsimp only at h
    split
    · next blank =>
      rw [if_pos blank] at h
      unfold ofBlanks at h
      split at h <;> simp at h
    · next solid =>
      rw [if_neg solid] at h
      have feed : first ≠ '\n' := by
        rintro rfl
        exact solid (by decide)
      split
      · next runs =>
        rw [if_pos runs] at h
        exact absurd (runs.symm.trans (runsOn_of_delimiter h)) (by simp)
      · exact ⟨feed, rfl⟩

theorem next_delimiter {mode : Mode} {first : Char} {after : Cursor} {d : Delimiter}
    (h : (next mode first after).1 = .mark (.opener d) ∨ (next mode first after).1 = .mark (.closer d)) :
    first ≠ '\n' ∧ (next mode first after).2 = after := by
  have occurs := next_occurs mode first after
  cases mode with
  | inString => exact h.elim nextInString_delimiter nextInString_delimiter
  | regular =>
    refine nextRegular_delimiter (h.imp_right fun closes => ⟨?_, closes⟩)
    -- the closing quote is read in a string only
    rintro rfl
    rw [show (next .regular first after).1 = .mark (.closer .quote) from closes] at occurs
    cases occurs

end Lexeme

inductive Seam where
  | leaf (pos : Position) (content : Leaf)
  | opening (pos : Position) (form : Form)
  | closing (pos : Position) (form : Form)
  deriving DecidableEq, Repr

namespace Form

def openingSeams (pos : Position) : Form → List Seam
  | .block tag opening closing => if opening = "" then [] else [.opening pos (.block tag opening closing)]
  | _ => []

def closingSeams (pos : Position) : Form → List Seam
  | .block tag opening closing => [.closing pos (.block tag opening closing)]
  | _ => []

end Form

def Delimiter.form (d : Delimiter) : Form := .block d.blockTag d.opening d.closing

def Wrapper.form (w : Wrapper) : Form := .block w.blockTag "" w.spelling

theorem Delimiter.form_inj {d d' : Delimiter} (h : d.form = d'.form) : d = d' := by
  cases d <;> cases d' <;> first | rfl | cases h

theorem Delimiter.form_ne_wrapper (d : Delimiter) (w : Wrapper) : d.form ≠ w.form := by
  cases d <;> cases w <;> decide

theorem Delimiter.openingSeams_form (d : Delimiter) (pos : Position) :
    d.form.openingSeams pos = [.opening pos d.form] := by
  cases d <;> rfl

namespace Tree

mutual

def seams : Tree → List Seam
  | .leaf pos content => [.leaf pos content]
  | .group pos form items => form.openingSeams pos ++ seamsAll items ++ form.closingSeams pos

def seamsAll : List Tree → List Seam
  | [] => []
  | node :: rest => node.seams ++ seamsAll rest

end

@[simp] theorem seamsAll_append (left right : List Tree) :
    seamsAll (left ++ right) = seamsAll left ++ seamsAll right := by
  induction left with
  | nil => rfl
  | cons node left ih => simp [seamsAll, ih]

theorem seamsAll_singleton (node : Tree) : seamsAll [node] = node.seams := by simp [seamsAll]

theorem seams_segment (items : List Tree) (fallback : Position) :
    (segment items fallback).seams = seamsAll items := by
  simp [segment, seams, Form.openingSeams, Form.closingSeams]

theorem seams_chain (pos : Position) (tag : ChainTag) (tier : Nat) (items : List Tree) :
    (Tree.group pos (.chain tag tier) items).seams = seamsAll items := by
  simp [seams, Form.openingSeams, Form.closingSeams]

theorem seams_delimited (pos : Position) (d : Delimiter) (items : List Tree) :
    (Tree.group pos d.form items).seams =
      .opening pos d.form :: (seamsAll items ++ [.closing pos d.form]) := by
  rw [seams, d.openingSeams_form]
  rfl

end Tree

open NamespaceLang.Tree

namespace OpenScope

def seams (s : OpenScope) : List Seam :=
  seamsAll s.before.toList ++
    match s.kind with
    | .block d => [.opening s.pos d.form]
    | .chain c => seamsAll c.done.toList

def closingSeams (s : OpenScope) : List Seam :=
  match s.kind with
  | .block d => [.closing s.pos d.form]
  | .chain _ => []

def seamsOut : List OpenScope → List Seam
  | [] => []
  | s :: outer => seamsOut outer ++ s.seams

theorem seams_tree (s : OpenScope) (items : List Tree) :
    seamsAll s.before.toList ++ (s.tree items).seams = s.seams ++ seamsAll items ++ s.closingSeams := by
  obtain ⟨pos, indent, kind, before⟩ := s
  cases kind with
  | block d =>
    have node : OpenScope.tree ⟨pos, indent, .block d, before⟩ items = .group pos d.form items := rfl
    simp [OpenScope.seams, closingSeams, node, seams_delimited]
  | chain c =>
    simp [OpenScope.seams, closingSeams, tree, seams_chain, seamsAll_singleton, seams_segment]

end OpenScope

namespace Builder

def seams (b : Builder) : List Seam := seamsOut b.scopes ++ seamsAll b.items.toList

theorem seams_add (b : Builder) (pos : Position) (content : Leaf) :
    (b.add (.leaf pos content)).seams = b.seams ++ [.leaf pos content] := by
  simp [seams, add, seamsAll_singleton, Tree.seams]

theorem seams_fold {b : Builder} {s : OpenScope} {outer : List OpenScope}
    (h : b.scopes = s :: outer) : (b.fold s outer).seams = b.seams ++ s.closingSeams := by
  have whole := seams_tree s b.items.toList
  simp only [seams, fold, h, seamsOut, Array.toList_push, seamsAll_append, seamsAll_singleton,
    List.append_assoc] at whole ⊢
  rw [whole]

theorem seams_wrapItems (b : Builder) (w : Wrapper) (start : Position) :
    ∃ pos, (b.wrapItems w start).seams = b.seams ++ [.closing pos w.form] := by
  have split := congrArg seamsAll
    (List.takeWhile_append_dropWhile (p := Tree.isBlank) (l := b.items.toList))
  rw [seamsAll_append] at split
  refine ⟨(trimStart b.items.toList).head?.map Tree.pos |>.getD start, ?_⟩
  simp only [seams, wrapItems, Array.toList_push, seamsAll_append, seamsAll_singleton, Tree.seams,
    Form.openingSeams, Form.closingSeams, trimStart, if_pos, List.nil_append, Wrapper.form]
  rw [← split]
  simp

theorem seams_extend (c : OpenChain) (items : List Tree) (j : Joiner) (start next : Position) :
    seamsAll (c.extend items j start next).done.toList =
      seamsAll c.done.toList ++ seamsAll items ++ [.leaf start (.operator j.spelling)] := by
  simp [OpenChain.extend, seamsAll, seams_segment, Tree.seams]

theorem seams_startChain (b : Builder) (j : Joiner) (start next : Position) :
    (b.startChain j start next).seams = b.seams ++ [.leaf start (.operator j.spelling)] := by
  simp [seams, startChain, seamsOut, OpenScope.seams, seams_extend, seamsAll]

theorem seams_extendChain {b : Builder} {s : OpenScope} {c : OpenChain} {outer : List OpenScope}
    (hs : b.scopes = s :: outer) (hk : s.kind = .chain c) (j : Joiner) (start next : Position) :
    (b.extendChain s c outer j start next).seams =
      b.seams ++ [.leaf start (.operator j.spelling)] := by
  unfold extendChain
  split <;> simp [seams, hs, hk, seamsOut, OpenScope.seams, seams_extend, report, seamsAll]

theorem seams_finish (b : Builder) (stop : Position) :
    (b.finish stop).seams = seamsAll (b.finish stop).items.toList := by
  rw [seams, finish_scopes, seamsOut, List.nil_append]

end Builder

/-- What is told of a bracket, and where. -/
def Diagnostic.verdict? (d : Diagnostic) : Option (Cause × Position) :=
  match d.entries.head? with
  | some e => if e.cause.ofBrackets then e.pos?.map (e.cause, ·) else none
  | none => none

def verdicts (ds : List Diagnostic) : List (Cause × Position) := ds.filterMap Diagnostic.verdict?

/-- The token is where the seam is in the text. A closer ends a bracket of its kind that begins on a
line of the same indentation. -/
inductive Token.Makes (text : List Char) : Token → Seam → Prop
  | leaf {t : Token} {pos : Position} {content : Leaf} (shown : t.Shows (.leaf pos content)) :
      Makes text t (.leaf pos content)
  | opener (start : Position) (after : Cursor) (d : Delimiter) :
      Makes text ⟨.mark (.opener d), start, after⟩ (.opening start d.form)
  | closer (start : Position) (after : Cursor) (d : Delimiter) (pos : Position)
      (level : lineIndent text start.offset = lineIndent text pos.offset) :
      Makes text ⟨.mark (.closer d), start, after⟩ (.closing pos d.form)
  | wrapper (start : Position) (after : Cursor) (w : Wrapper) (pos : Position) :
      Makes text ⟨.mark (.wrapper w), start, after⟩ (.closing pos w.form)

/-- One place in the two rows, of tokens and of seams. -/
inductive Stitch where
  | made (t : Token) (seam : Seam)
  | unclosed (pos : Position) (d : Delimiter)
  | extra (start : Position) (after : Cursor) (d : Delimiter)
  | refused (start : Position) (after : Cursor) (d : Delimiter)

namespace Stitch

def token? : Stitch → Option Token
  | .made t _ => some t
  | .unclosed .. => none
  | .extra start after d => some ⟨.mark (.closer d), start, after⟩
  | .refused start after d => some ⟨.mark (.opener d), start, after⟩

def seam? : Stitch → Option Seam
  | .made _ seam => some seam
  | .unclosed begun d => some (.closing begun d.form)
  | .extra .. | .refused .. => none

def verdict? : Stitch → Option (Cause × Position)
  | .made .. => none
  | .unclosed begun _ => some (.unclosedBracket, begun)
  | .extra start _ _ => some (.extraCloser, start)
  | .refused start _ _ => some (.nestingTooDeep, start)

def Sound (text : List Char) : Stitch → Prop
  | .made t seam => t.Makes text seam
  | _ => True

end Stitch

namespace Builder

variable {text : List Char}

/-- The builder goes on from one state to the other along the stitches. -/
structure Sews (text : List Char) (added : List Stitch) (b later : Builder) : Prop where
  seams : later.seams = b.seams ++ added.filterMap Stitch.seam?
  told : verdicts later.diagnostics = verdicts b.diagnostics ++ added.filterMap Stitch.verdict?
  sound : ∀ stitch ∈ added, stitch.Sound text

theorem sews_nil {b later : Builder} (seams : later.seams = b.seams)
    (told : verdicts later.diagnostics = verdicts b.diagnostics) : Sews text [] b later :=
  ⟨by simpa using seams, by simpa using told, by simp⟩

theorem Sews.trans {first second : List Stitch} {b mid later : Builder}
    (h : Sews text first b mid) (h' : Sews text second mid later) :
    Sews text (first ++ second) b later where
  seams := by rw [h'.seams, h.seams, List.filterMap_append, List.append_assoc]
  told := by rw [h'.told, h.told, List.filterMap_append, List.append_assoc]
  sound := List.forall_mem_append.2 ⟨h.sound, h'.sound⟩

theorem sews_made {t : Token} {seam : Seam} (h : t.Makes text seam) {b later : Builder}
    (seams : later.seams = b.seams ++ [seam])
    (told : verdicts later.diagnostics = verdicts b.diagnostics) :
    Sews text [.made t seam] b later :=
  ⟨seams, told.trans (List.append_nil _).symm, by simpa [Stitch.Sound] using h⟩

theorem verdicts_report (b : Builder) (d : Diagnostic) :
    verdicts (b.report d).diagnostics = verdicts b.diagnostics ++ d.verdict?.toList := by
  simp only [verdicts, report, List.filterMap_append]
  cases hv : d.verdict? <;> simp [hv]

def Leveled (text : List Char) (scopes : List OpenScope) : Prop :=
  ∀ s ∈ scopes, s.isBlock = true → s.indent = lineIndent text s.pos.offset

variable {b : Builder} {stays : OpenScope → Bool} {complaint : OpenScope → Diagnostic}

variable (text complaint) in
theorem foldOnce_sews {s : OpenScope} {outer : List OpenScope} (hs : b.scopes = s :: outer)
    (complains : s.isBlock = true → (complaint s).verdict? = some (.unclosedBracket, s.pos)) :
    ∃ added, Sews text added b (b.foldOnce complaint s outer) ∧
      added.filterMap Stitch.token? = [] := by
  unfold foldOnce
  cases hk : s.kind with
  | block d =>
    have block : s.isBlock = true := by rw [isBlock, hk]
    have folded : ((b.report (complaint s)).fold s outer).seams =
        b.seams ++ s.closingSeams := seams_fold (b := b.report (complaint s)) hs
    have own : s.closingSeams = [.closing s.pos d.form] := by rw [OpenScope.closingSeams, hk]
    rw [if_pos block]
    refine ⟨[.unclosed s.pos d], ⟨by rw [folded, own]; rfl, ?_, by simp [Stitch.Sound]⟩, rfl⟩
    show verdicts (b.report (complaint s)).diagnostics = _
    rw [verdicts_report, complains block]
    rfl
  | chain c =>
    have open_ : s.isBlock = false := by rw [isBlock, hk]
    have own : s.closingSeams = [] := by rw [OpenScope.closingSeams, hk]
    rw [open_, if_neg (by simp)]
    exact ⟨[], sews_nil (by rw [seams_fold hs, own, List.append_nil]) rfl, rfl⟩

variable (text b stays complaint) in
theorem unwind_sews (complains : ∀ s ∈ b.scopes, s.isBlock = true → stays s = false →
      (complaint s).verdict? = some (.unclosedBracket, s.pos)) :
    ∃ added, Sews text added b (b.unwind stays complaint) ∧
      added.filterMap Stitch.token? = [] := by
  refine (unwind_rule (P := fun later => later.scopes ⊆ b.scopes ∧ ∃ added, Sews text added b later ∧
    added.filterMap Stitch.token? = []) ?_
    ⟨List.Subset.refl _, [], sews_nil rfl rfl, rfl⟩).1.2
  rintro later s outer hs left ⟨inside, added, sews, none_taken⟩
  have here : s ∈ b.scopes := inside (hs ▸ List.mem_cons_self)
  obtain ⟨more, folds, none_more⟩ := foldOnce_sews text complaint hs
    fun block => complains s here block left
  refine ⟨?_, added ++ more, sews.trans folds, by rw [List.filterMap_append, none_taken, none_more]; rfl⟩
  have rest : outer ⊆ b.scopes := fun t ht => inside (hs ▸ List.mem_cons_of_mem s ht)
  unfold foldOnce
  split <;> exact rest

theorem unclosedAt_verdict (start : Position) (found : String) (indent : Int) (s : OpenScope) :
    (unclosedAt start found indent s).verdict? = some (.unclosedBracket, s.pos) := rfl

/-- A token is one place in the row of tokens. -/
def Takes (text : List Char) (t : Token) (b later : Builder) : Prop :=
  ∃ added, Sews text added b later ∧ added.filterMap Stitch.token? = [t]

theorem takes_made {t : Token} {seam : Seam} (h : t.Makes text seam) {b later : Builder}
    (seams : later.seams = b.seams ++ [seam])
    (told : verdicts later.diagnostics = verdicts b.diagnostics) : Takes text t b later :=
  ⟨_, sews_made h seams told, rfl⟩

theorem Takes.behind {t : Token} {mid later : Builder} {folds : List Stitch}
    (h : Sews text folds b mid) (none_taken : folds.filterMap Stitch.token? = [])
    (then_ : Takes text t mid later) : Takes text t b later := by
  obtain ⟨added, sews, taken⟩ := then_
  exact ⟨folds ++ added, h.trans sews, by rw [List.filterMap_append, none_taken, taken]; rfl⟩

theorem openBlock_takes (b : Builder) (d : Delimiter) (start : Position) (after : Cursor) :
    Takes text ⟨.mark (.opener d), start, after⟩ b (b.openBlock d start after.indent) := by
  unfold openBlock
  split
  · refine ⟨[.refused start after d], ⟨(List.append_nil _).symm, ?_, by simp [Stitch.Sound]⟩, rfl⟩
    exact verdicts_report b _
  · apply takes_made (.opener start after d)
    · simp [seams, enter, seamsOut, OpenScope.seams, seamsAll]
    · rfl

theorem indent_of_closedBy {s : OpenScope} {d : Delimiter} {indent : Int}
    (h : s.closedBy d indent = true) : s.kind = .block d ∧ s.indent = indent := by
  refine ⟨kind_of_closedBy h, ?_⟩
  rw [closedBy, kind_of_closedBy h] at h
  simpa using h

theorem close_takes (leveled : Leveled text b.scopes) (d : Delimiter) {start : Position}
    {after : Cursor} (level : after.indent = lineIndent text start.offset) :
    Takes text ⟨.mark (.closer d), start, after⟩ b (b.close d start after.indent) := by
  obtain ⟨folds, sews, none_taken⟩ := unwind_sews text b
    (fun s => s.closedBy d after.indent || s.holds after.indent d.tier)
    (unclosedAt start d.closing after.indent)
    fun s _ _ _ => unclosedAt_verdict start d.closing after.indent s
  apply close_rule (P := Takes text ⟨.mark (.closer d), start, after⟩ b)
  · intro s outer hs closed
    obtain ⟨kind, line⟩ := indent_of_closedBy closed
    have here : s ∈ b.scopes := (unwind_scopes b).subset (hs ▸ List.mem_cons_self)
    have own := leveled s here (by rw [isBlock, kind])
    have beside : lineIndent text start.offset = lineIndent text s.pos.offset := by
      rw [line, level] at own
      exact Int.ofNat.inj own
    have ending : s.closingSeams = [.closing s.pos d.form] := by rw [OpenScope.closingSeams, kind]
    refine Takes.behind sews none_taken (takes_made (.closer start after d s.pos beside) ?_ rfl)
    rw [← ending]
    exact seams_fold hs
  · intro _
    refine Takes.behind sews none_taken ⟨[.extra start after d], ⟨(List.append_nil _).symm, ?_,
      by simp [Stitch.Sound]⟩, rfl⟩
    exact verdicts_report _ _

theorem wrap_takes (b : Builder) (w : Wrapper) (start : Position) (after : Cursor) :
    Takes text ⟨.mark (.wrapper w), start, after⟩ b (b.wrap w start after.indent) := by
  obtain ⟨folds, sews, none_taken⟩ := unwind_sews text b
    (·.holds after.indent w.tier) (unclosedAt start w.spelling after.indent)
    fun s _ _ _ => unclosedAt_verdict start w.spelling after.indent s
  obtain ⟨pos, wrapped⟩ := seams_wrapItems
    (b.unwind (·.holds after.indent w.tier) (unclosedAt start w.spelling after.indent)) w start
  exact Takes.behind sews none_taken (takes_made (.wrapper start after w pos) wrapped rfl)

theorem join_takes (h : b.Sound) (regular : b.mode = .regular) (j : Joiner) {t : Token}
    (next : Position) (shown : t.Shows (.leaf t.start (.operator j.spelling))) :
    Takes text t b (b.join j t.start next) := by
  obtain ⟨folds, sews, none_taken⟩ := unwind_sews text b (·.tier ≤ j.tier)
    (fun s => (Diagnostic.error s.pos .neverClosed).withNote t.start .closedHere)
    fun s here block left => by
      rw [h.block_tier regular here block] at left
      exact absurd left (by simp)
  apply join_rule (P := Takes text t b)
  · intro _
    exact Takes.behind sews none_taken (takes_made (.leaf shown) (seams_startChain _ j t.start next) rfl)
  · intro s c outer hs hk _
    refine Takes.behind sews none_taken
      (takes_made (.leaf shown) (seams_extendChain hs hk j t.start next) ?_)
    unfold extendChain
    split
    · rfl
    · exact (verdicts_report _ _).trans (List.append_nil _)

theorem place_takes (h : b.Sound) (leveled : Leveled text b.scopes) {l : Lexeme} (start : Position)
    {after : Cursor} (hl : l.occursIn b.mode)
    (level : ∀ d, l = .mark (.closer d) → after.indent = lineIndent text start.offset) :
    Takes text ⟨l, start, after⟩ b (b.place l start after) := by
  have regular := Lexeme.regular_of_occurs hl
  have quiet : ∀ d : Diagnostic, d.verdict? = none →
      verdicts (b.report d).diagnostics = verdicts b.diagnostics := by
    intro d none_told
    rw [verdicts_report, none_told]
    exact List.append_nil _
  rcases l with content | _ | (d | d | w | j) | found | spelling
  · exact takes_made (.leaf (.leaf start after content)) (seams_add b start content) rfl
  · simp only [place]
    split
    · exact takes_made (.leaf (.blank start after)) (seams_add b start _) rfl
    · exact join_takes (t := ⟨.lineBreak, start, after⟩) h (regular rfl) .lineBreak after.position
        (.lineEnd start after)
  · exact openBlock_takes b d start after
  · exact close_takes leveled d (level d rfl)
  · exact wrap_takes b w start after
  · exact join_takes (t := ⟨.mark (.joiner j), start, after⟩) h (regular rfl) j after.position
      (.joiner start after j)
  · exact takes_made (.leaf (.badEscape start after found)) (seams_add (b.report _) start .error)
      (quiet _ rfl)
  · exact takes_made (.leaf (.badToken start after spelling)) (seams_add (b.report _) start .error)
      (quiet _ rfl)

theorem Leveled.part {inner outer : List OpenScope} (h : Leveled text inner) (hp : outer <:+ inner) :
    Leveled text outer := fun s hs => h s (hp.subset hs)

theorem Leveled.push {s : OpenScope} {outer : List OpenScope} (h : Leveled text outer)
    (own : s.isBlock = true → s.indent = lineIndent text s.pos.offset) : Leveled text (s :: outer) :=
  List.forall_mem_cons.2 ⟨own, h⟩

theorem join_leveled (h : Leveled text b.scopes) (j : Joiner) (start next : Position) :
    Leveled text (b.join j start next).scopes := by
  have left : Leveled text (b.foldTighter j start).scopes := h.part (unwind_scopes b)
  apply join_rule (P := fun later => Leveled text later.scopes)
  · exact fun _ => left.push (fun block => by cases block)
  · intro s c outer hs _ _
    rw [extendChain_scopes]
    exact (left.part (hs ▸ List.suffix_cons s outer)).push (fun block => by cases block)

theorem place_leveled (h : Leveled text b.scopes) (l : Lexeme) {start : Position} {after : Cursor}
    (level : ∀ d, l = .mark (.opener d) → after.indent = lineIndent text start.offset) :
    Leveled text (b.place l start after).scopes := by
  rcases l with content | _ | (d | d | w | j) | found | spelling
  · exact h
  · simp only [place]
    split
    · exact h
    · exact join_leveled h _ _ _
  · show Leveled text (b.openBlock d start after.indent).scopes
    unfold openBlock
    split
    · exact h
    · exact h.push fun _ => congrArg Int.ofNat (level d rfl)
  · exact h.part (close_scopes b d _ _)
  · exact h.part (wrap_scopes b w _ _)
  · exact join_leveled h j _ _
  · exact h
  · exact h

end Builder

theorem Cursor.Aligned.delimiter {text : List Char} {c after : Cursor} {first : Char} {mode : Mode}
    {d : Delimiter} (h : c.Aligned text) (taken : c.take? = some (first, after))
    (delimits : (Lexeme.next mode first after).1 = .mark (.opener d) ∨
      (Lexeme.next mode first after).1 = .mark (.closer d)) :
    (Lexeme.next mode first after).2.indent = lineIndent text c.position.offset := by
  obtain ⟨same_line, single⟩ := Lexeme.next_delimiter delimits
  obtain ⟨rest, rfl, -⟩ := rest_of_take? taken
  rw [single, Cursor.past, if_neg same_line]
  exact h.indent

namespace Builder

variable {text : List Char}

theorem run_sews (b : Builder) (c : Cursor) (going : b.stopped = false) (h : b.Sound)
    (leveled : Leveled text b.scopes) (stands : c.Aligned text) :
    ∃ added, Sews text added b (b.run c).1 ∧ added.filterMap Stitch.token? = b.lexed c := by
  fun_induction Builder.run b c with
  | case1 b c ht => exact ⟨[], sews_nil rfl rfl, by rw [b.lexed_end ht]; rfl⟩
  | case2 b c first after ht lexed placed hs =>
    obtain ⟨added, sews, taken⟩ := place_takes h leveled c.position
      (Lexeme.next_occurs b.mode first after) fun d closes => stands.delimiter ht (Or.inr closes)
    refine ⟨added, sews, ?_⟩
    rw [b.lexed_next ht, if_pos hs]
    exact taken
  | case3 b c first after ht lexed placed hs ih =>
    have occurs := Lexeme.next_occurs b.mode first after
    obtain ⟨added, sews, taken⟩ := place_takes h leveled c.position occurs
      fun d closes => stands.delimiter ht (Or.inr closes)
    have on : Leveled text (b.place lexed.1 c.position lexed.2).scopes := place_leveled leveled lexed.1
      fun d opens => stands.delimiter ht (Or.inl opens)
    obtain ⟨more, sews', taken'⟩ := ih (by simpa using hs) (place_sound occurs h) on
      (stands.next ht b.mode)
    refine ⟨added ++ more, sews.trans sews', ?_⟩
    rw [b.lexed_next ht, if_neg hs, List.filterMap_append, taken, taken']
    rfl

end Builder

/-- The tokens of a text and the seams of its tree, place by place. -/
theorem tokenize_sewn (file : String) (text : List Char) :
    ∃ stitches : List Stitch, (∀ stitch ∈ stitches, stitch.Sound text) ∧
      stitches.filterMap Stitch.token? = lexed file text ∧
      stitches.filterMap Stitch.seam? = seamsAll (tokenize file text).nodes ∧
      stitches.filterMap Stitch.verdict? = verdicts (tokenize file text).diagnostics := by
  obtain ⟨added, sews, taken⟩ := Builder.empty.run_sews (.start file text) rfl
    Builder.empty_sound (fun s hs => by cases hs) (Cursor.start_aligned file)
  obtain ⟨more, sews', none_taken⟩ := Builder.unwind_sews text
    (Builder.empty.run (.start file text)).1 (fun _ => false)
    (Builder.unclosedAtEnd (Builder.empty.run (.start file text)).2.position)
    fun s _ _ _ => rfl
  have whole := sews.trans sews'
  refine ⟨added ++ more, whole.sound, ?_, ?_, ?_⟩
  · rw [List.filterMap_append, taken, none_taken, List.append_nil]
    rfl
  · have shown := whole.seams
    rw [← Builder.finish_eq, Builder.seams_finish] at shown
    exact shown.symm
  · exact whole.told.symm

end NamespaceLang

import NamespaceLang.Proofs.Tree.Refinement
import NamespaceLang.Proofs.Tree.Sites

/-!
# What a tree shows of its text

A tree that is read in order, with the spellings of every bracket around its
items, shows one glyph after the other. While a text is read, what the builder
holds shows what came so far: a lexeme adds at the end, and folding, wrapping
and chaining move items without a glyph out of its place. Closing spellings
that no token stands for are added only where it is told that a bracket is not
closed.
-/

set_option autoImplicit false

namespace NamespaceLang

open OpenScope

inductive Glyph where
  | leaf (pos : Position) (content : Leaf)
  | opening (pos : Position) (spelling : String)
  | closing (spelling : String)
  deriving DecidableEq, Repr

namespace Glyph

def isLeaf : Glyph → Bool
  | .leaf .. => true
  | _ => false

def pos? : Glyph → Option Position
  | .leaf pos _ | .opening pos _ => some pos
  | .closing _ => none

end Glyph

namespace Form

def openingGlyphs (pos : Position) : Form → List Glyph
  | .block _ opening _ => if opening = "" then [] else [.opening pos opening]
  | _ => []

def closingGlyphs : Form → List Glyph
  | .block _ _ closing => [.closing closing]
  | _ => []

theorem openingGlyphs_leaves (pos : Position) (form : Form) :
    (form.openingGlyphs pos).filter Glyph.isLeaf = [] := by
  cases form with
  | block tag opening closing =>
    simp only [openingGlyphs]
    split <;> rfl
  | _ => rfl

theorem closingGlyphs_leaves (form : Form) : form.closingGlyphs.filter Glyph.isLeaf = [] := by
  cases form <;> rfl

end Form

namespace Tree

mutual

def glyphs : Tree → List Glyph
  | .leaf pos content => [.leaf pos content]
  | .group pos form items => form.openingGlyphs pos ++ glyphsAll items ++ form.closingGlyphs

def glyphsAll : List Tree → List Glyph
  | [] => []
  | node :: rest => node.glyphs ++ glyphsAll rest

end

def leaf? : Tree → Option Glyph
  | .leaf pos content => some (.leaf pos content)
  | .group .. => none

def leaves (nodes : List Tree) : List Glyph := (preorderAll nodes).filterMap leaf?

@[simp] theorem glyphsAll_append (left right : List Tree) :
    glyphsAll (left ++ right) = glyphsAll left ++ glyphsAll right := by
  induction left with
  | nil => rfl
  | cons node left ih => simp [glyphsAll, ih]

theorem glyphsAll_singleton (node : Tree) : glyphsAll [node] = node.glyphs := by
  simp [glyphsAll]

mutual

theorem filter_glyphs : (node : Tree) → node.glyphs.filter Glyph.isLeaf = node.preorder.filterMap leaf?
  | .leaf .. => rfl
  | .group pos form items => by
    have inner := filter_glyphsAll items
    simp only [glyphs, preorder, List.filter_append, Form.openingGlyphs_leaves,
      Form.closingGlyphs_leaves, List.nil_append, List.append_nil]
    exact inner

theorem filter_glyphsAll : (nodes : List Tree) → (glyphsAll nodes).filter Glyph.isLeaf = leaves nodes
  | [] => rfl
  | node :: rest => by
    have first := filter_glyphs node
    have others := filter_glyphsAll rest
    simp only [leaves] at others
    simp only [glyphsAll, leaves, preorderAll, List.filter_append, List.filterMap_append, first, others]

end

end Tree

open NamespaceLang.Tree

def Token.delimits (t : Token) : Bool :=
  match t.lexeme with
  | .mark (.opener _) | .mark (.closer _) | .mark (.wrapper _) => true
  | _ => false

/-- What a token is seen as. A line break is a blank or an operator. -/
inductive Token.Shows : Token → Glyph → Prop
  | leaf (start : Position) (after : Cursor) (content : Leaf) :
      Shows ⟨.leaf content, start, after⟩ (.leaf start content)
  | badEscape (start : Position) (after : Cursor) (found : Option Char) :
      Shows ⟨.badEscape found, start, after⟩ (.leaf start .error)
  | badToken (start : Position) (after : Cursor) (spelling : String) :
      Shows ⟨.badToken spelling, start, after⟩ (.leaf start .error)
  | blank (start : Position) (after : Cursor) :
      Shows ⟨.lineBreak, start, after⟩ (.leaf start (.whitespace true))
  | lineEnd (start : Position) (after : Cursor) :
      Shows ⟨.lineBreak, start, after⟩ (.leaf start (.operator Joiner.lineBreak.spelling))
  | joiner (start : Position) (after : Cursor) (j : Joiner) :
      Shows ⟨.mark (.joiner j), start, after⟩ (.leaf start (.operator j.spelling))
  | opener (start : Position) (after : Cursor) (d : Delimiter) :
      Shows ⟨.mark (.opener d), start, after⟩ (.opening start d.opening)
  | closer (start : Position) (after : Cursor) (d : Delimiter) :
      Shows ⟨.mark (.closer d), start, after⟩ (.closing d.closing)
  | wrapper (start : Position) (after : Cursor) (w : Wrapper) :
      Shows ⟨.mark (.wrapper w), start, after⟩ (.closing w.spelling)

theorem Token.Shows.isLeaf {t : Token} {g : Glyph} (h : t.Shows g) : g.isLeaf = !t.delimits := by
  cases h <;> rfl

theorem Token.Shows.pos? {t : Token} {g : Glyph} (h : t.Shows g) (hl : g.isLeaf = true) :
    g.pos? = some t.start := by
  cases h <;> first | rfl | cases hl

namespace OpenScope

def glyphs (s : OpenScope) : List Glyph :=
  glyphsAll s.before.toList ++
    match s.kind with
    | .block d => [.opening s.pos d.opening]
    | .chain c => glyphsAll c.done.toList

def ending (s : OpenScope) : List Glyph :=
  match s.kind with
  | .block d => [.closing d.closing]
  | .chain _ => []

def glyphsOut : List OpenScope → List Glyph
  | [] => []
  | s :: outer => glyphsOut outer ++ s.glyphs

theorem glyphs_mk_chain (pos : Position) (indent : Int) (c : OpenChain) (before : Array Tree) :
    OpenScope.glyphs ⟨pos, indent, .chain c, before⟩ =
      glyphsAll before.toList ++ glyphsAll c.done.toList := rfl

theorem ending_leaves (s : OpenScope) : s.ending.filter Glyph.isLeaf = [] := by
  obtain ⟨pos, indent, kind, before⟩ := s
  cases kind <;> rfl

theorem glyphs_segment (items : List Tree) (fallback : Position) :
    (segment items fallback).glyphs = glyphsAll items := by
  simp [segment, Tree.glyphs, Form.openingGlyphs, Form.closingGlyphs]

theorem glyphs_tree (s : OpenScope) (items : List Tree) :
    glyphsAll s.before.toList ++ (s.tree items).glyphs = s.glyphs ++ glyphsAll items ++ s.ending := by
  obtain ⟨pos, indent, kind, before⟩ := s
  cases kind with
  | block d =>
    have spelled : d.opening ≠ "" := by cases d <;> decide
    simp [OpenScope.glyphs, ending, tree, Tree.glyphs, Form.openingGlyphs, Form.closingGlyphs, spelled]
  | chain c =>
    simp [OpenScope.glyphs, ending, tree, Tree.glyphs, Form.openingGlyphs, Form.closingGlyphs,
      glyphsAll_singleton, glyphs_segment]

end OpenScope

namespace Builder

def glyphs (b : Builder) : List Glyph := glyphsOut b.scopes ++ glyphsAll b.items.toList

theorem glyphs_add (b : Builder) (pos : Position) (content : Leaf) :
    (b.add (.leaf pos content)).glyphs = b.glyphs ++ [.leaf pos content] := by
  simp [glyphs, add, glyphsAll_singleton, Tree.glyphs]

theorem glyphs_fold {b : Builder} {s : OpenScope} {outer : List OpenScope}
    (h : b.scopes = s :: outer) : (b.fold s outer).glyphs = b.glyphs ++ s.ending := by
  have whole := glyphs_tree s b.items.toList
  simp only [glyphs, fold, h, glyphsOut, Array.toList_push, glyphsAll_append, glyphsAll_singleton,
    List.append_assoc] at whole ⊢
  rw [whole]

/-- What is shown grows at the end, by no leaf, and not at all if nothing is told. -/
structure Closes (b later : Builder) : Prop where
  closings : ∃ added, later.glyphs = b.glyphs ++ added ∧ added.filter Glyph.isLeaf = [] ∧
    (later.diagnostics = b.diagnostics → added = [])
  told : b.diagnostics <+: later.diagnostics

theorem unwind_closes (stays : OpenScope → Bool) (complaint : OpenScope → Diagnostic) (b : Builder) :
    Closes b (b.unwind stays complaint) := by
  refine (unwind_rule (P := Closes b) ?_ ⟨⟨[], by simp⟩, List.prefix_refl _⟩).1
  rintro later s outer hs - ⟨⟨added, shown, no_leaf, quiet⟩, told⟩
  have folded := glyphs_fold hs
  unfold foldOnce
  cases hb : s.isBlock with
  | true =>
    rw [if_pos rfl]
    have reported : ((later.report (complaint s)).fold s outer).glyphs = later.glyphs ++ s.ending :=
      glyphs_fold (b := later.report (complaint s)) hs
    refine ⟨⟨added ++ s.ending, ?_, ?_, fun same => ?_⟩, told.trans (report_diagnostics later _)⟩
    · rw [reported, shown, List.append_assoc]
    · rw [List.filter_append, no_leaf, ending_leaves, List.nil_append]
    · have longer := told.length_le
      have same := congrArg List.length same
      simp only [fold, report, List.length_append, List.length_singleton] at same
      omega
  | false =>
    rw [if_neg (by simp)]
    have nothing : s.ending = [] := by
      obtain ⟨pos, indent, kind, before⟩ := s
      cases kind with
      | block d => cases hb
      | chain c => rfl
    rw [nothing, List.append_nil] at folded
    exact ⟨⟨added, folded.trans shown, no_leaf, quiet⟩, told⟩

theorem finish_closes (b : Builder) (stop : Position) : Closes b (b.finish stop) :=
  unwind_closes _ _ b

theorem glyphs_finish (b : Builder) (stop : Position) :
    (b.finish stop).glyphs = glyphsAll (b.finish stop).items.toList := by
  rw [glyphs, finish_scopes, glyphsOut, List.nil_append]

/-- What a token adds to what is shown. If something is told, delimiters may be missing, or others
may be there. -/
def Accounts (t : Token) (b later : Builder) : Prop :=
  ∃ added, later.glyphs = b.glyphs ++ added ∧
    List.Forall₂ Token.Shows ([t].filter (!·.delimits)) (added.filter Glyph.isLeaf) ∧
    (later.diagnostics = b.diagnostics → List.Forall₂ Token.Shows [t] added)

section

variable {t : Token} {b later : Builder}

theorem accounts_of_shows {g : Glyph} (shown : later.glyphs = b.glyphs ++ [g]) (h : t.Shows g) :
    Accounts t b later := by
  refine ⟨[g], shown, ?_, fun _ => .cons h .nil⟩
  cases hd : t.delimits <;> simp [hd, h.isLeaf, h]

theorem Closes.accounts {mid : Builder} (h : Closes b mid)
    (told : mid.diagnostics <+: later.diagnostics) (then_ : Accounts t mid later) :
    Accounts t b later := by
  obtain ⟨⟨closings, shown, no_leaf, quiet⟩, told'⟩ := h
  obtain ⟨added, shown', leaf, own⟩ := then_
  refine ⟨closings ++ added, ?_, ?_, fun same => ?_⟩
  · rw [shown', shown, List.append_assoc]
  · rwa [List.filter_append, no_leaf, List.nil_append]
  · have before : mid.diagnostics = b.diagnostics := by
      have le := told.length_le
      rw [same] at le
      exact (told'.eq_of_length_le le).symm
    rw [quiet before, List.nil_append]
    exact own (same.trans before.symm)

theorem accounts_of_told (hd : t.delimits = true) (shown : later.glyphs = b.glyphs) {d : Diagnostic}
    (told : later.diagnostics = b.diagnostics ++ [d]) : Accounts t b later := by
  refine ⟨[], by simpa using shown, by simp [hd], fun same => ?_⟩
  rw [told] at same
  simp at same

end

section

variable (b : Builder) (start : Position) (after : Cursor)

theorem openBlock_accounts (d : Delimiter) (indent : Int) :
    Accounts ⟨.mark (.opener d), start, after⟩ b (b.openBlock d start indent) := by
  unfold openBlock
  split
  · exact accounts_of_told rfl rfl rfl
  · apply accounts_of_shows (h := .opener start after d)
    simp [glyphs, enter, glyphsOut, OpenScope.glyphs, glyphsAll]

theorem kind_of_closedBy {s : OpenScope} {d : Delimiter} {indent : Int}
    (h : s.closedBy d indent = true) : s.kind = .block d := by
  unfold closedBy at h
  split at h
  · next own hk =>
    simp only [Bool.and_eq_true, beq_iff_eq] at h
    rw [hk, h.1]
  · cases h

theorem close_accounts (d : Delimiter) (indent : Int) :
    Accounts ⟨.mark (.closer d), start, after⟩ b (b.close d start indent) := by
  have closes : Closes b (b.foldToCloser d start indent) := unwind_closes _ _ b
  apply close_rule (P := Accounts ⟨.mark (.closer d), start, after⟩ b)
  · intro s outer hs closed
    have ending : s.ending = [.closing d.closing] := by rw [OpenScope.ending, kind_of_closedBy closed]
    refine closes.accounts (List.prefix_refl _) (accounts_of_shows ?_ (.closer start after d))
    rw [← ending]
    exact glyphs_fold hs
  · exact fun _ => closes.accounts (report_diagnostics _ _) (accounts_of_told rfl rfl rfl)

theorem glyphs_wrapItems (w : Wrapper) :
    (b.wrapItems w start).glyphs = b.glyphs ++ [.closing w.spelling] := by
  have split := congrArg glyphsAll
    (List.takeWhile_append_dropWhile (p := Tree.isBlank) (l := b.items.toList))
  rw [glyphsAll_append] at split
  simp only [glyphs, wrapItems, Array.toList_push, glyphsAll_append, glyphsAll_singleton, Tree.glyphs,
    Form.openingGlyphs, Form.closingGlyphs, trimStart, if_pos, List.nil_append]
  rw [← split]
  simp

theorem wrap_accounts (w : Wrapper) (indent : Int) :
    Accounts ⟨.mark (.wrapper w), start, after⟩ b (b.wrap w start indent) :=
  (unwind_closes _ _ b).accounts (List.prefix_refl _)
    (accounts_of_shows (glyphs_wrapItems _ start w) (.wrapper start after w))

theorem glyphs_extend (c : OpenChain) (items : List Tree) (j : Joiner) (start next : Position) :
    glyphsAll (c.extend items j start next).done.toList =
      glyphsAll c.done.toList ++ glyphsAll items ++ [.leaf start (.operator j.spelling)] := by
  simp [OpenChain.extend, glyphsAll, glyphs_segment, Tree.glyphs]

theorem join_accounts (j : Joiner) {t : Token} (next : Position)
    (h : t.Shows (.leaf start (.operator j.spelling))) : Accounts t b (b.join j start next) := by
  have closes : Closes b (b.foldTighter j start) := unwind_closes _ _ b
  apply join_rule (P := Accounts t b)
  · intro _
    refine closes.accounts (List.prefix_refl _) (accounts_of_shows ?_ h)
    simp [glyphs, startChain, glyphsOut, OpenScope.glyphs, glyphs_extend, glyphsAll]
  · intro s c outer hs hk _
    refine closes.accounts (extendChain_diagnostics _ _ _ _ _ _ _) (accounts_of_shows ?_ h)
    have before : s.glyphs = glyphsAll s.before.toList ++ glyphsAll c.done.toList := by
      rw [OpenScope.glyphs, hk]
    unfold extendChain
    split <;>
    · simp [glyphs, hs, glyphsOut, before, glyphs_mk_chain, glyphs_extend, report, glyphsAll]

/-- A token that is placed is shown behind all that was shown. -/
theorem place_accounts (l : Lexeme) : Accounts ⟨l, start, after⟩ b (b.place l start after) := by
  rcases l with content | _ | (d | d | w | j) | found | spelling
  · exact accounts_of_shows (glyphs_add b start content) (.leaf start after content)
  · simp only [place]
    split
    · exact accounts_of_shows (glyphs_add b start _) (.blank start after)
    · exact join_accounts b start _ _ (.lineEnd start after)
  · exact openBlock_accounts b start after d _
  · exact close_accounts b start after d _
  · exact wrap_accounts b start after w _
  · exact join_accounts b start _ _ (.joiner start after j)
  · exact accounts_of_shows (glyphs_add (b.report _) start .error) (.badEscape start after found)
  · exact accounts_of_shows (glyphs_add (b.report _) start .error) (.badToken start after spelling)

end

end Builder

def Builder.lexed (b : Builder) (c : Cursor) : List Token :=
  match _h : c.take? with
  | none => []
  | some (first, after) =>
    let lexed := Lexeme.next b.mode first after
    let placed := b.place lexed.1 c.position lexed.2
    ⟨lexed.1, c.position, lexed.2⟩ :: if placed.stopped then [] else placed.lexed lexed.2
termination_by c.rest.length
decreasing_by
  exact Nat.lt_of_le_of_lt (Lexeme.next_shorter b.mode first after) (c.take?_shorter after first _h)

/-- The tokens of a text, up to the one that stops its reading, if there is one. -/
def lexed (file : String) (text : List Char) : List Token :=
  Builder.empty.lexed (.start file text)

theorem Builder.lexed_next (b : Builder) {c after : Cursor} {first : Char}
    (h : c.take? = some (first, after)) :
    b.lexed c =
      ⟨(Lexeme.next b.mode first after).1, c.position, (Lexeme.next b.mode first after).2⟩ ::
        if (b.place (Lexeme.next b.mode first after).1 c.position
          (Lexeme.next b.mode first after).2).stopped then []
        else (b.place (Lexeme.next b.mode first after).1 c.position
          (Lexeme.next b.mode first after).2).lexed (Lexeme.next b.mode first after).2 := by
  rw [Builder.lexed.eq_def]
  split
  · next hn =>
    rw [h] at hn
    cases hn
  · next first' after' hs =>
    rw [h] at hs
    cases hs
    rfl

theorem Builder.lexed_end (b : Builder) {c : Cursor} (h : c.take? = none) : b.lexed c = [] := by
  rw [Builder.lexed.eq_def]
  split
  · rfl
  · next hs =>
    rw [h] at hs
    cases hs

theorem Builder.lexed_sorted (b : Builder) (c : Cursor) :
    (∀ t ∈ b.lexed c, c.offset ≤ t.start.offset) ∧
      (b.lexed c).Pairwise (·.start.offset < ·.start.offset) := by
  fun_induction Builder.run b c with
  | case1 b c ht => simp [b.lexed_end ht]
  | case2 b c first after ht lexed placed hs =>
    rw [b.lexed_next ht, if_pos hs]
    exact ⟨by simp [Cursor.position], List.pairwise_singleton _ _⟩
  | case3 b c first after ht lexed placed hs ih =>
    rw [b.lexed_next ht, if_neg hs]
    have further : c.offset < lexed.2.offset :=
      Nat.lt_of_lt_of_le (Cursor.take?_offset ht) (Lexeme.next_offset _ _ _)
    refine ⟨List.forall_mem_cons.2 ⟨Nat.le_refl _, fun t hm => ?_⟩,
      List.pairwise_cons.2 ⟨fun t hm => ?_, ih.2⟩⟩
    · exact Nat.le_trans (Nat.le_of_lt further) (ih.1 t hm)
    · exact Nat.lt_of_lt_of_le further (ih.1 t hm)

structure Builder.Retells (b : Builder) (ts : List Token) : Prop where
  leaves : List.Forall₂ Token.Shows (ts.filter (!·.delimits)) (b.glyphs.filter Glyph.isLeaf)
  all : b.diagnostics = [] → List.Forall₂ Token.Shows ts b.glyphs

theorem Builder.Retells.place {b : Builder} {ts : List Token} (h : b.Retells ts) (l : Lexeme)
    (start : Position) (after : Cursor) (hl : l.occursIn b.mode) :
    (b.place l start after).Retells (ts ++ [⟨l, start, after⟩]) := by
  obtain ⟨added, shown, leaf, all⟩ := b.place_accounts start after l
  refine ⟨?_, fun quiet => ?_⟩
  · rw [shown, List.filter_append, List.filter_append]
    exact List.rel_append h.leaves leaf
  · have before := b.place_diagnostics l start after hl
    rw [quiet, List.prefix_nil] at before
    rw [shown]
    exact List.rel_append (h.all before) (all (quiet.trans before.symm))

theorem Builder.run_retells (b : Builder) (c : Cursor) :
    ∀ ts, b.Retells ts → (b.run c).1.Retells (ts ++ b.lexed c) := by
  fun_induction Builder.run b c with
  | case1 b c ht =>
    intro ts h
    rwa [b.lexed_end ht, List.append_nil]
  | case2 b c first after ht lexed placed hs =>
    intro ts h
    rw [b.lexed_next ht, if_pos hs]
    exact h.place _ _ _ (Lexeme.next_occurs _ _ _)
  | case3 b c first after ht lexed placed hs ih =>
    intro ts h
    rw [b.lexed_next ht, if_neg hs, List.append_cons]
    exact ih _ (h.place _ _ _ (Lexeme.next_occurs _ _ _))

theorem Builder.Retells.closes {b later : Builder} {ts : List Token} (h : b.Retells ts)
    (hc : Closes b later) : later.Retells ts := by
  obtain ⟨⟨closings, shown, no_leaf, quiet⟩, told⟩ := hc
  refine ⟨?_, fun none_told => ?_⟩
  · rw [shown, List.filter_append, no_leaf, List.append_nil]
    exact h.leaves
  · rw [none_told, List.prefix_nil] at told
    rw [shown, quiet (none_told.trans told.symm), List.append_nil]
    exact h.all told

namespace Builder

theorem openBlock_mode {b : Builder} {d : Delimiter} {start : Position} {indent : Int}
    (h : (b.openBlock d start indent).diagnostics = b.diagnostics) :
    (b.openBlock d start indent).mode = d.openingMode?.getD b.mode ∧
      (b.openBlock d start indent).stopped = b.stopped := by
  unfold openBlock at h ⊢
  split at h
  · simp [stop, report] at h
  · next room =>
    rw [if_neg room]
    exact ⟨rfl, rfl⟩

theorem close_mode {b : Builder} {d : Delimiter} {start : Position} {indent : Int}
    (h : (b.close d start indent).diagnostics = b.diagnostics) :
    (b.close d start indent).mode = d.closingMode?.getD b.mode ∧
      (b.close d start indent).stopped = b.stopped := by
  have told : b.diagnostics <+: (b.foldToCloser d start indent).diagnostics := unwind_diagnostics b
  have hm : (b.foldToCloser d start indent).mode = b.mode := unwind_mode b
  have ht : (b.foldToCloser d start indent).stopped = b.stopped := unwind_stopped b
  revert h
  apply close_rule (P := fun later => later.diagnostics = b.diagnostics →
    later.mode = d.closingMode?.getD b.mode ∧ later.stopped = b.stopped)
  · intro s outer _ _ _
    exact ⟨by rw [← hm]; rfl, ht⟩
  · intro _ same
    have longer := told.length_le
    rw [← same] at longer
    simp only [report, List.length_append, List.length_singleton] at longer
    exact absurd longer (Nat.not_succ_le_self _)

theorem join_mode (b : Builder) (j : Joiner) (start next : Position) :
    (b.join j start next).mode = b.mode ∧ (b.join j start next).stopped = b.stopped := by
  have hm : (b.foldTighter j start).mode = b.mode := unwind_mode b
  have ht : (b.foldTighter j start).stopped = b.stopped := unwind_stopped b
  apply join_rule (P := fun later => later.mode = b.mode ∧ later.stopped = b.stopped)
  · exact fun _ => ⟨hm, ht⟩
  · intro s c outer _ _ _
    unfold extendChain
    split <;> exact ⟨hm, ht⟩

theorem place_mode {b : Builder} {l : Lexeme} {start : Position} {after : Cursor}
    (h : (b.place l start after).diagnostics = b.diagnostics) :
    (b.place l start after).mode = l.modeAfter b.mode ∧
      (b.place l start after).stopped = b.stopped := by
  rcases l with content | _ | (d | d | w | j) | found | spelling
  · exact ⟨rfl, rfl⟩
  · simp only [place]
    split
    · exact ⟨rfl, rfl⟩
    · exact join_mode b _ _ _
  · exact openBlock_mode h
  · exact close_mode h
  · exact ⟨unwind_mode b, unwind_stopped b⟩
  · exact join_mode b _ _ _
  · exact ⟨rfl, rfl⟩
  · exact ⟨rfl, rfl⟩

theorem lexed_eq_tokensFrom (b : Builder) (c : Cursor) (going : b.stopped = false)
    (h : (b.run c).1.diagnostics = b.diagnostics) : b.lexed c = tokensFrom b.mode c := by
  fun_induction Builder.run b c with
  | case1 b c ht => rw [b.lexed_end ht, tokensFrom_end b.mode ht]
  | case2 b c first after ht lexed placed hs =>
    have stays := (place_mode h).2
    rw [going] at stays
    exact absurd (hs.symm.trans stays) (by simp)
  | case3 b c first after ht lexed placed hs ih =>
    have first_told := b.place_diagnostics lexed.1 c.position lexed.2 (Lexeme.next_occurs _ _ _)
    have then_told := placed.run_diagnostics lexed.2
    have same : placed.diagnostics = b.diagnostics := by
      rw [h] at then_told
      exact (first_told.eq_of_length_le then_told.length_le).symm
    have mode := place_mode same
    rw [b.lexed_next ht, if_neg hs, tokensFrom_next b.mode ht, ← mode.1]
    exact congrArg _ (ih (mode.2.trans going) (h.trans same.symm))

end Builder

theorem filterMap_pos? {ts : List Token} {gs : List Glyph} (h : List.Forall₂ Token.Shows ts gs)
    (leaf : ∀ g ∈ gs, g.isLeaf = true) : gs.filterMap Glyph.pos? = ts.map (·.start) := by
  induction h with
  | nil => rfl
  | cons first _ ih =>
    obtain ⟨here, rest⟩ := List.forall_mem_cons.1 leaf
    rw [List.filterMap_cons_some (first.pos? here), ih rest, List.map_cons]

/-- The leaves of the tree of a text are the tokens that the text is read as and that do not begin or
end a block, each as one leaf, in their order and at growing offsets. A text of which nothing is told
is read as all its tokens, and they are what the tree shows if the spellings of all blocks are read
with it. -/
theorem tokenize_shows_tokens (file : String) (text : List Char) :
    List.Forall₂ Token.Shows ((lexed file text).filter (!·.delimits))
      (leaves (tokenize file text).nodes) ∧
    ((leaves (tokenize file text).nodes).filterMap Glyph.pos?).Pairwise (·.offset < ·.offset) ∧
    ((tokenize file text).diagnostics = [] →
      lexed file text = tokens file text ∧
      List.Forall₂ Token.Shows (tokens file text) (glyphsAll (tokenize file text).nodes)) := by
  have start : Builder.empty.Retells [] := ⟨.nil, fun _ => .nil⟩
  have read := Builder.empty.run_retells (.start file text) [] start
  have closes := (Builder.empty.run (.start file text)).1.finish_closes
    (Builder.empty.run (.start file text)).2.position
  have shown := Builder.glyphs_finish (Builder.empty.run (.start file text)).1
    (Builder.empty.run (.start file text)).2.position
  obtain ⟨leaf, all⟩ := read.closes closes
  rw [shown, List.nil_append] at leaf all
  rw [filter_glyphsAll] at leaf
  have leaf : List.Forall₂ Token.Shows ((lexed file text).filter (!·.delimits))
    (leaves (tokenize file text).nodes) := leaf
  refine ⟨leaf, ?_, fun quiet => ?_⟩
  · rw [filterMap_pos? leaf]
    · exact List.pairwise_map.2 ((Builder.empty.lexed_sorted (.start file text)).2.filter _)
    · intro g hm
      rw [← filter_glyphsAll] at hm
      exact (List.mem_filter.1 hm).2
  · have before : (Builder.empty.run (.start file text)).1.diagnostics = [] :=
      List.prefix_nil.1 (show _ <+: [] from quiet ▸ closes.told)
    have same : lexed file text = tokens file text :=
      Builder.empty.lexed_eq_tokensFrom (.start file text) rfl before
    exact ⟨same, same ▸ all quiet⟩

end NamespaceLang

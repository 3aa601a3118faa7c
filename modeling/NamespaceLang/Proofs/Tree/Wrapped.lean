import NamespaceLang.Proofs.Tree.Depth
import NamespaceLang.Proofs.Tree.OneLine
import NamespaceLang.Proofs.Tree.Parents

/-!
# Wrapped operands of assignments

Only chains of `=` bind tighter than a wrapper. A wrapper folds such a chain,
and so wraps it as a whole, unless the chain began at less indentation; then it
wraps the operand that is being read. The file is indented less than any line,
so outside brackets the second is what happens. In a text of one line it never
happens inside a bracket.
-/

set_option autoImplicit false

namespace NamespaceLang

open OpenScope

def Form.isTight : Form → Bool
  | .chain _ tier => tier == TokenGroup.equals.tier
  | _ => false

namespace Tree

def isWrapped (node : Tree) : Bool := node.form?.any Form.isWrapped

/-- Whether another operand than the first one of a chain holds a wrapped block. Operators hold
nothing. -/
def laterWrapped (parts : List Tree) : Bool := parts.tail.any fun operand => operand.items.any isWrapped

mutual

/-- Whether a wrapped block stands in another operand than the first one of a tight chain. A chain
counts inside brackets, and if `inside` everywhere. -/
def wrapsLater (inside : Bool) : Tree → Bool
  | .leaf .. => false
  | .group _ form items =>
    (inside && form.isTight && laterWrapped items) || wrapsLaterAll (inside || form.isBracket) items

def wrapsLaterAll (inside : Bool) : List Tree → Bool
  | [] => false
  | node :: rest => node.wrapsLater inside || wrapsLaterAll inside rest

end

theorem wrapsLaterAll_eq_any (inside : Bool) (nodes : List Tree) :
    wrapsLaterAll inside nodes = nodes.any (wrapsLater inside) := by
  induction nodes with
  | nil => rfl
  | cons node rest ih => rw [wrapsLaterAll, ih, List.any_cons]

@[simp] theorem wrapsLaterAll_append (inside : Bool) (left right : List Tree) :
    wrapsLaterAll inside (left ++ right) = (wrapsLaterAll inside left || wrapsLaterAll inside right) := by
  simp [wrapsLaterAll_eq_any]

@[simp] theorem wrapsLaterAll_singleton (inside : Bool) (node : Tree) :
    wrapsLaterAll inside [node] = node.wrapsLater inside := by
  rw [wrapsLaterAll, wrapsLaterAll, Bool.or_false]

theorem wrapsLater_segment (inside : Bool) (items : List Tree) (fallback : Position) :
    (segment items fallback).wrapsLater inside = wrapsLaterAll inside items := by
  simp [segment, wrapsLater, Form.isTight, Form.isBracket]

theorem wrapsLater_wrapped (inside : Bool) (w : Wrapper) (pos : Position) (items : List Tree) :
    (Tree.group pos (.block w.blockTag "" w.spelling) items).wrapsLater inside =
      wrapsLaterAll inside items := by
  cases w <;> simp [wrapsLater, Form.isTight, Form.isBracket, Form.isWrapped, Wrapper.blockTag]

theorem isWrapped_wrapped (w : Wrapper) (pos : Position) (items : List Tree) :
    (Tree.group pos (.block w.blockTag "" w.spelling) items).isWrapped = true := by
  cases w <;> rfl

theorem wrapsLaterAll_blanks (inside : Bool) {blanks : List Tree} (h : blanks.all isBlank = true) :
    wrapsLaterAll inside blanks = false := by
  rw [wrapsLaterAll_eq_any, List.any_eq_false]
  intro node hm
  have blank := List.all_eq_true.1 h node hm
  cases node with
  | leaf pos content => simp [wrapsLater]
  | group pos form items => cases blank

theorem laterWrapped_push (parts items : List Tree) (fallback : Position) :
    laterWrapped (parts ++ [segment items fallback]) =
      (laterWrapped parts || !parts.isEmpty && items.any isWrapped) := by
  cases parts with
  | nil => rfl
  | cons first rest => simp [laterWrapped, segment, Tree.items]

theorem laterWrapped_leaf (parts : List Tree) (pos : Position) (content : Leaf) :
    laterWrapped (parts ++ [.leaf pos content]) = laterWrapped parts := by
  cases parts with
  | nil => rfl
  | cons first rest => simp [laterWrapped, Tree.items]

end Tree

open NamespaceLang.Tree

namespace OpenScope

/-- Whether the items of the scope are another operand than the first one of a tight chain. -/
def isLater (s : OpenScope) : Bool :=
  match s.kind with
  | .block _ => false
  | .chain c => c.tier == TokenGroup.equals.tier && !c.done.toList.isEmpty

theorem isLater_of_tier_lt {s : OpenScope} (h : s.tier < TokenGroup.equals.tier) :
    s.isLater = false := by
  obtain ⟨pos, indent, kind, before⟩ := s
  cases kind with
  | block d => rfl
  | chain c =>
    have other : (c.tier == TokenGroup.equals.tier) = false := beq_false_of_ne (Nat.ne_of_lt h)
    simp [isLater, other]

def topLater : List OpenScope → Bool
  | [] => false
  | s :: _ => s.isLater

def within (base : Bool) (scopes : List OpenScope) : Bool := base || scopes.any isBlock

def foldScopes : List OpenScope → List Tree → List Tree
  | [], items => items
  | s :: outer, items => foldScopes outer (s.before.toList ++ [s.tree items])

theorem isWrapped_tree (s : OpenScope) (items : List Tree) : (s.tree items).isWrapped = false := by
  obtain ⟨pos, indent, kind, before⟩ := s
  cases kind with
  | block d => cases d <;> rfl
  | chain c => rfl

theorem wrapsLater_tree (inside : Bool) (s : OpenScope) (items : List Tree) :
    (s.tree items).wrapsLater inside =
      ((inside && s.isLater && items.any isWrapped) || wrapsLaterAll (inside || s.isBlock) items ||
        (s.tree []).wrapsLater inside) := by
  obtain ⟨pos, indent, kind, before⟩ := s
  cases kind with
  | block d =>
    cases d <;> simp [tree, wrapsLater, wrapsLaterAll, isLater, isBlock, Form.isTight, Form.isBracket,
      Form.isWrapped, Delimiter.blockTag]
  | chain c =>
    simp only [tree, Array.toList_push, wrapsLater, laterWrapped_push, wrapsLaterAll_append,
      wrapsLater_segment, isLater, isBlock, Form.isTight, Form.isBracket,
      Bool.or_false, List.any_nil, Bool.and_false, wrapsLaterAll]
    cases inside <;> cases c.tier == TokenGroup.equals.tier <;> cases c.done.toList.isEmpty <;>
      cases items.any isWrapped <;> cases laterWrapped c.done.toList <;> simp [Bool.or_comm]

theorem wrapsLater_foldScopes (base : Bool) (scopes : List OpenScope) (items : List Tree) :
    wrapsLaterAll base (foldScopes scopes items) =
      ((within base scopes && topLater scopes && items.any isWrapped) ||
        wrapsLaterAll (within base scopes) items || wrapsLaterAll base (foldScopes scopes [])) := by
  induction scopes generalizing items with
  | nil => simp [foldScopes, within, topLater, wrapsLaterAll]
  | cons s outer ih =>
    have apart : s.isLater = true → s.isBlock = false := by
      cases hk : s.kind <;> simp [isLater, isBlock, hk]
    have grown : within base (s :: outer) = (within base outer || s.isBlock) := by
      simp [within, Bool.or_assoc, Bool.or_comm]
    rw [foldScopes, ih, foldScopes, ih (s.before.toList ++ [s.tree []]), grown]
    simp only [wrapsLaterAll_append, wrapsLaterAll_singleton, List.any_append, List.any_cons, List.any_nil,
      isWrapped_tree, Bool.or_false, topLater]
    rw [wrapsLater_tree (within base outer) s items]
    cases hl : s.isLater with
    | false => simp [Bool.or_assoc, Bool.or_comm, Bool.or_left_comm]
    | true =>
      rw [apart hl]
      simp [Bool.or_assoc, Bool.or_comm, Bool.or_left_comm]

end OpenScope

namespace Builder

def whole (b : Builder) : List Tree := foldScopes b.scopes b.items.toList

theorem fold_whole {b : Builder} {s : OpenScope} {outer : List OpenScope}
    (hs : b.scopes = s :: outer) : (b.fold s outer).whole = b.whole := by
  rw [whole, whole, hs, fold, foldScopes, Array.toList_push]

theorem unwind_whole (stays : OpenScope → Bool) (complaint : OpenScope → Diagnostic) (b : Builder) :
    (b.unwind stays complaint).whole = b.whole := by
  refine (unwind_rule (P := fun later => later.whole = b.whole) ?_ rfl).1
  intro later s outer hs _ same
  rw [← same]
  unfold foldOnce
  split
  · exact fold_whole (b := later.report (complaint s)) hs
  · exact fold_whole hs

theorem finish_whole (b : Builder) (stop : Position) : (b.finish stop).items.toList = b.whole := by
  have same := unwind_whole (fun _ => false)
    (unclosedAtEnd stop) b
  rw [← same, whole, ← finish_eq, finish_scopes, foldScopes]

def wrapsLater (base : Bool) (b : Builder) : Bool := wrapsLaterAll base b.whole

variable {base : Bool} {b : Builder}

theorem wrapsLater_eq (base : Bool) (b : Builder) :
    b.wrapsLater base =
      ((within base b.scopes && topLater b.scopes && b.items.toList.any isWrapped) ||
        wrapsLaterAll (within base b.scopes) b.items.toList ||
        wrapsLaterAll base (foldScopes b.scopes [])) :=
  wrapsLater_foldScopes base b.scopes b.items.toList

theorem unwind_wrapsLater (stays : OpenScope → Bool) (complaint : OpenScope → Diagnostic) :
    (b.unwind stays complaint).wrapsLater base = b.wrapsLater base := by
  rw [wrapsLater, unwind_whole, wrapsLater]

theorem add_wrapsLater (pos : Position) (content : Leaf) :
    (b.add (.leaf pos content)).wrapsLater base = b.wrapsLater base := by
  have leaf : (Tree.leaf pos content).isWrapped = false := rfl
  rw [wrapsLater_eq, wrapsLater_eq]
  simp [add, leaf, Tree.wrapsLater]

theorem openBlock_wrapsLater (d : Delimiter) (start : Position) (indent : Int) :
    (b.openBlock d start indent).wrapsLater base = b.wrapsLater base := by
  unfold openBlock
  split
  · rfl
  · have opened : (OpenScope.tree ⟨start, indent, .block d, b.items⟩ []).wrapsLater
        (within base b.scopes) = false := by
      simp [OpenScope.tree, Tree.wrapsLater, Form.isTight, wrapsLaterAll]
    have plain := isWrapped_tree ⟨start, indent, .block d, b.items⟩ []
    show wrapsLaterAll base (foldScopes b.scopes
      (b.items.toList ++ [OpenScope.tree ⟨start, indent, .block d, b.items⟩ []])) = _
    rw [wrapsLater_foldScopes, wrapsLater_eq]
    simp [opened, plain]

theorem close_wrapsLater (d : Delimiter) (start : Position) (indent : Int) :
    (b.close d start indent).wrapsLater base = b.wrapsLater base := by
  have folds : (b.foldToCloser d start indent).wrapsLater base = b.wrapsLater base :=
    unwind_wrapsLater _ _
  apply close_rule (P := fun later => later.wrapsLater base = b.wrapsLater base)
  · intro s outer hs _
    rw [← folds, wrapsLater, wrapsLater, ← fold_whole hs]
    rfl
  · exact fun _ => folds

theorem startChain_wrapsLater (j : Joiner) (loose : topTier b.scopes < j.tier)
    (start next : Position) :
    (b.startChain j start next).wrapsLater base = b.wrapsLater base := by
  have first : topLater b.scopes = false := by
    cases hs : b.scopes with
    | nil => rfl
    | cons s outer =>
      rw [hs] at loose
      exact isLater_of_tier_lt (Nat.lt_of_lt_of_le loose j.tier_le)
  show wrapsLaterAll base (foldScopes b.scopes ([] ++ [OpenScope.tree _ []])) = _
  rw [wrapsLater_foldScopes, wrapsLater_eq, first, List.nil_append, wrapsLaterAll_singleton]
  simp [OpenScope.tree, OpenChain.extend, Tree.wrapsLater, Form.isBracket, laterWrapped, Tree.items,
    segment, wrapsLaterAll, Form.isTight]

theorem extendChain_wrapsLater {s : OpenScope} {c : OpenChain} {outer : List OpenScope}
    (hs : b.scopes = s :: outer) (hk : s.kind = .chain c) (j : Joiner) (start next : Position) :
    (b.extendChain s c outer j start next).wrapsLater base = b.wrapsLater base := by
  have scopes : (b.extendChain s c outer j start next).whole =
      foldScopes ({ s with kind := .chain (c.extend b.items.toList j start next) } :: outer) [] := by
    unfold extendChain
    split <;> rfl
  have same : (OpenScope.tree { s with kind := .chain (c.extend b.items.toList j start next) } []).wrapsLater
      (within base outer) = (s.tree b.items.toList).wrapsLater (within base outer) := by
    simp only [OpenScope.tree, hk, OpenChain.extend, Array.toList_push, Tree.wrapsLater,
      wrapsLaterAll_append, wrapsLater_segment, wrapsLaterAll, Bool.or_false]
    rw [laterWrapped_push, laterWrapped_leaf, List.any_nil, Bool.and_false, Bool.or_false]
  have plain := isWrapped_tree { s with kind := .chain (c.extend b.items.toList j start next) } []
  rw [wrapsLater, scopes, wrapsLater, whole, hs, foldScopes, foldScopes, wrapsLater_foldScopes,
    wrapsLater_foldScopes base outer (s.before.toList ++ [s.tree b.items.toList])]
  simp [same, plain, isWrapped_tree]

theorem join_wrapsLater (j : Joiner) (start next : Position) :
    (b.join j start next).wrapsLater base = b.wrapsLater base := by
  have folds : (b.foldTighter j start).wrapsLater base = b.wrapsLater base := unwind_wrapsLater _ _
  apply join_rule (P := fun later => later.wrapsLater base = b.wrapsLater base)
  · exact fun loose => (startChain_wrapsLater j loose start next).trans folds
  · exact fun s c outer hs hk _ => (extendChain_wrapsLater hs hk j start next).trans folds

def foldToWrap (b : Builder) (w : Wrapper) (start : Position) (indent : Int) : Builder :=
  b.unwind (·.holds indent w.tier) (unclosedAt start w.spelling indent)

theorem wrap_wrapsLater (w : Wrapper) (start : Position) (indent : Int) :
    (b.wrap w start indent).wrapsLater base =
      (b.wrapsLater base || within base (b.foldToWrap w start indent).scopes &&
        topLater (b.foldToWrap w start indent).scopes) := by
  have folds : (b.foldToWrap w start indent).wrapsLater base = b.wrapsLater base :=
    unwind_wrapsLater _ _
  rw [← folds]
  show ((b.foldToWrap w start indent).wrapItems w start).wrapsLater base = _
  generalize b.foldToWrap w start indent = u
  have blanks : wrapsLaterAll (within base u.scopes) (u.items.toList.takeWhile isBlank) = false :=
    wrapsLaterAll_blanks _ List.all_takeWhile
  have parted : wrapsLaterAll (within base u.scopes) u.items.toList =
      wrapsLaterAll (within base u.scopes) (trimStart u.items.toList) := by
    rw [← List.takeWhile_append_dropWhile (p := isBlank) (l := u.items.toList), wrapsLaterAll_append, blanks,
      Bool.false_or, List.takeWhile_append_dropWhile]
    rfl
  rw [wrapsLater_eq, wrapsLater_eq base u, parted]
  simp only [wrapItems, Array.toList_push, List.any_append, List.any_cons, isWrapped_wrapped, Bool.true_or,
    Bool.or_true, Bool.and_true, wrapsLaterAll_append, blanks, Bool.false_or, wrapsLaterAll_singleton,
    wrapsLater_wrapped]
  cases within base u.scopes && topLater u.scopes <;> simp

/-- Whether a lexeme wraps a later operand of a tight chain that counts. -/
def placesLater (base : Bool) (b : Builder) (l : Lexeme) (start : Position) (after : Cursor) : Bool :=
  match l with
  | .mark (.wrapper w) =>
    within base (b.foldToWrap w start after.indent).scopes &&
      topLater (b.foldToWrap w start after.indent).scopes
  | _ => false

theorem place_wrapsLater (base : Bool) (b : Builder) (l : Lexeme) (start : Position) (after : Cursor) :
    (b.place l start after).wrapsLater base =
      (b.wrapsLater base || b.placesLater base l start after) := by
  have same : ∀ later : Builder, later.wrapsLater base = b.wrapsLater base →
      later.wrapsLater base = (b.wrapsLater base || false) := fun _ h => by rw [h, Bool.or_false]
  rcases l with content | _ | (d | d | w | j) | found | spelling
  · exact same _ (add_wrapsLater start content)
  · simp only [place]
    split
    · exact same _ (add_wrapsLater start _)
    · exact same _ (join_wrapsLater _ _ _)
  · exact same _ (openBlock_wrapsLater _ _ _)
  · exact same _ (close_wrapsLater _ _ _)
  · exact wrap_wrapsLater w start after.indent
  · exact same _ (join_wrapsLater _ _ _)
  · exact same _ (add_wrapsLater (b := b.report _) start .error)
  · exact same _ (add_wrapsLater (b := b.report _) start .error)

theorem run_wrapsLater (b : Builder) (c : Cursor) (h : b.wrapsLater base = true) :
    (b.run c).1.wrapsLater base = true := by
  fun_induction Builder.run b c with
  | case1 => exact h
  | case2 b c first after ht lexed placed hs =>
    exact (place_wrapsLater base b _ _ _).trans (by rw [h, Bool.true_or])
  | case3 b c first after ht lexed placed hs ih =>
    exact ih ((place_wrapsLater base b _ _ _).trans (by rw [h, Bool.true_or]))

end Builder

section

variable {file : String} {text : List Char} {b : Builder} {c : Cursor} {base : Bool}

theorem tokenize_wrapsLater (file : String) (text : List Char) (base : Bool) :
    wrapsLaterAll base (tokenize file text).nodes =
      (Builder.empty.run (.start file text)).1.wrapsLater base :=
  congrArg (wrapsLaterAll base) (Builder.finish_whole _ _)

theorem reading_wrapsLater (h : Reading file text b c) (wraps : b.wrapsLater base = true) :
    wrapsLaterAll base (tokenize file text).nodes = true := by
  have whole := reading_run h
  rw [tokenize_wrapsLater, ← whole]
  split
  · exact wraps
  · exact Builder.run_wrapsLater b c wraps

end

namespace Builder

def Level (k : Nat) (b : Builder) : Prop := ∀ s ∈ b.scopes, s.isBlock = true → s.indent = k

variable {k : Nat} {b : Builder}

theorem Level.frame {later : Builder} (h : b.Level k) (hs : later.scopes <:+ b.scopes) :
    later.Level k := fun s hm => h s (hs.subset hm)

theorem openBlock_level (h : b.Level k) (d : Delimiter) (start : Position) :
    (b.openBlock d start k).Level k := by
  unfold openBlock
  split
  · exact h
  · intro s hm hb
    rcases List.mem_cons.1 hm with rfl | hm
    · rfl
    · exact h s hm hb

theorem close_level (h : b.Level k) (d : Delimiter) (start : Position) (indent : Int) :
    (b.close d start indent).Level k := by
  have folds : (b.foldToCloser d start indent).Level k := h.frame (unwind_scopes b)
  apply close_rule (P := Level k)
  · exact fun s outer hs _ => folds.frame (hs ▸ List.suffix_cons s outer)
  · exact fun _ => folds

theorem join_level (h : b.Level k) (j : Joiner) (start next : Position) :
    (b.join j start next).Level k := by
  have folds : (b.foldTighter j start).Level k := h.frame (unwind_scopes b)
  apply join_rule (P := Level k)
  · intro _ s hm hb
    rcases List.mem_cons.1 hm with rfl | hm
    · cases hb
    · exact folds s hm hb
  · intro s c outer hs hk _
    have level : ∀ t ∈ { s with kind := .chain (c.extend (b.foldTighter j start).items.toList j start next) }
        :: outer, t.isBlock = true → t.indent = k := by
      intro t hm hb
      rcases List.mem_cons.1 hm with rfl | hm
      · cases hb
      · exact folds t (hs ▸ List.mem_cons_of_mem s hm) hb
    unfold extendChain
    split <;> exact level

theorem place_level {l : Lexeme} {start : Position} {after : Cursor} (hl : l.occursIn b.mode)
    (h : b.Level k) (line : after.indent = k) : (b.place l start after).Level k := by
  subst line
  exact place_rule (P := Level after.indent) hl (fun _ _ => h) (fun _ => h) (fun _ _ => h) (fun _ _ => h)
    (fun d _ => openBlock_level h d start) (fun d _ _ => close_level h d start _)
    (fun _ => close_level h .quote start _) (fun w _ => h.frame (unwind_scopes b))
    (fun j _ => join_level h j start _)

theorem level_top : ∀ {scopes : List OpenScope}, Nested scopes →
    (∀ s ∈ scopes, s.isBlock = true → s.indent = k) → scopes.any isBlock = true → topIndent scopes = k
  | [], _, _, inside => by cases inside
  | s :: outer, ⟨fits, nested⟩, level, inside => by
    show s.indent = k
    cases hk : s.kind with
    | block d => exact level s List.mem_cons_self (by rw [isBlock, hk])
    | chain c =>
      rw [Fits, hk] at fits
      have bare : s.isBlock = false := by rw [isBlock, hk]
      rw [List.any_cons, bare, Bool.false_or] at inside
      rw [fits.2.1]
      exact level_top nested (fun t hm => level t (List.mem_cons_of_mem s hm)) inside

theorem placesLater_line (h : b.Sound) (level : b.Level k) (l : Lexeme) (start : Position)
    {after : Cursor} (line : after.indent = k) : b.placesLater false l start after = false := by
  unfold placesLater
  split
  · next w =>
    refine Bool.eq_false_iff.2 fun wraps => ?_
    obtain ⟨inside, later⟩ := Bool.and_eq_true_iff.1 wraps
    have nested : Nested (b.foldToWrap w start after.indent).scopes :=
      nested_suffix (unwind_scopes b) h.nested
    have blocks : (b.foldToWrap w start after.indent).Level k := level.frame (unwind_scopes b)
    have further := level_top nested blocks inside
    cases hs : (b.foldToWrap w start after.indent).scopes with
    | nil =>
      rw [hs] at later
      cases later
    | cons s outer =>
      rw [hs] at later further
      have stays := unwind_head b s outer hs
      have indent : s.indent = k := further
      have tight : s.tier < w.tier := by simpa [holds, indent, line] using stays
      have loose : s.isLater = false := isLater_of_tier_lt (Nat.lt_trans tight (by cases w <;> decide))
      rw [topLater, loose] at later
      cases later
  · rfl

end Builder

section

variable {file : String} {text : List Char} {b : Builder} {c : Cursor}

theorem reading_line (line : '\n' ∉ text) (h : Reading file text b c) :
    c.OnLine (leadingSpaces text) ∧ b.Level (leadingSpaces text) ∧ b.wrapsLater false = false := by
  induction h with
  | start => exact ⟨⟨line, rfl⟩, (fun s hm => by cases hm), rfl⟩
  | @next b c after first before going taken ih =>
    obtain ⟨here, level, clean⟩ := ih
    obtain ⟨rest, rfl, hr⟩ := Cursor.rest_of_take? taken
    have later := Lexeme.next_onLine b.mode first (here.past hr)
    refine ⟨later, Builder.place_level (Lexeme.next_occurs _ _ _) level later.indent, ?_⟩
    rw [Builder.place_wrapsLater, clean, Bool.false_or]
    exact Builder.placesLater_line (reading_sound before) level _ _ later.indent

/-- Inside the brackets of a text of one line, a chain of assignments is wrapped as a whole. -/
theorem wrapsLater_line (file : String) (line : '\n' ∉ text) :
    wrapsLaterAll false (tokenize file text).nodes = false := by
  obtain ⟨read, -⟩ := run_reading Builder.empty (.start file text) rfl Reading.start
  rw [tokenize_wrapsLater]
  exact (reading_line line read).2.2

end

end NamespaceLang

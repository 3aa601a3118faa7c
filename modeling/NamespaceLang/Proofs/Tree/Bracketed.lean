import NamespaceLang.Proofs.Tree.Alone
import NamespaceLang.Proofs.Tree.Balance
import NamespaceLang.Proofs.Tree.Wrapped

/-!
# Builders in a bracket

What a builder does with the scopes that it has, it does as well with one more
bracket open below them. The trees are the same, only further right. Two things
differ: there is room for one opener less, and the scopes of the file itself
come to be as far in as their line, so that a wrapper folds what it left open
before. So each operation moves into the bracket if it tells of nothing, and a
wrapper if it leaves no tight chain open.
-/

set_option autoImplicit false

namespace NamespaceLang

open OpenScope

namespace Tree

mutual

def move (f : Position → Position) : Tree → Tree
  | .leaf pos content => .leaf (f pos) content
  | .group pos form items => .group (f pos) form (moveAll f items)

def moveAll (f : Position → Position) : List Tree → List Tree
  | [] => []
  | node :: rest => node.move f :: moveAll f rest

end

def unplaced (nodes : List Tree) : List Tree := moveAll (fun _ => default) nodes

variable (f : Position → Position)

theorem moveAll_eq_map (nodes : List Tree) : moveAll f nodes = nodes.map (move f) := by
  induction nodes with
  | nil => rfl
  | cons node rest ih => rw [moveAll, ih, List.map_cons]

@[simp] theorem pos_move (node : Tree) : (node.move f).pos = f node.pos := by
  cases node <;> simp [move, pos]

@[simp] theorem isBlank_move (node : Tree) : (node.move f).isBlank = node.isBlank := by
  cases node <;> simp [move, isBlank]

@[simp] theorem kind_move (node : Tree) : (node.move f).kind = node.kind := by
  cases node <;> simp [move, kind]

theorem kinds_unplaced (nodes : List Tree) : (unplaced nodes).map kind = nodes.map kind := by
  rw [unplaced, moveAll_eq_map, List.map_map]
  exact congrArg (nodes.map ·) (funext (kind_move _))

theorem items_move (node : Tree) : (node.move f).items = node.items.map (move f) := by
  cases node <;> simp [move, items, moveAll_eq_map]

theorem isWrapped_move (node : Tree) : (node.move f).isWrapped = node.isWrapped := by
  cases node <;> simp [move, isWrapped, form?]

theorem laterWrapped_map (parts : List Tree) :
    laterWrapped (parts.map (move f)) = laterWrapped parts := by
  have holds : ∀ operand : Tree,
      (operand.move f).items.any isWrapped = operand.items.any isWrapped := by
    intro operand
    rw [items_move, List.any_map]
    exact congrArg operand.items.any (funext (isWrapped_move f))
  rw [laterWrapped, ← List.map_tail, List.any_map]
  exact congrArg parts.tail.any (funext holds)

mutual

theorem wrapsLater_move (inside : Bool) : (node : Tree) →
    (node.move f).wrapsLater inside = node.wrapsLater inside
  | .leaf .. => by simp [move, wrapsLater]
  | .group _ form items => by
    rw [move, wrapsLater, wrapsLater, wrapsLaterAll_move _ items, moveAll_eq_map, laterWrapped_map]

theorem wrapsLaterAll_move (inside : Bool) : (nodes : List Tree) →
    wrapsLaterAll inside (moveAll f nodes) = wrapsLaterAll inside nodes
  | [] => rfl
  | node :: rest => by
    rw [moveAll, wrapsLaterAll, wrapsLaterAll, wrapsLater_move inside node, wrapsLaterAll_move inside rest]

end

mutual

theorem move_move (g : Position → Position) : (node : Tree) →
    (node.move f).move g = node.move fun pos => g (f pos)
  | .leaf .. => by simp [move]
  | .group _ _ items => by
    rw [move, move, move, moveAll_moveAll g items]

theorem moveAll_moveAll (g : Position → Position) : (nodes : List Tree) →
    moveAll g (moveAll f nodes) = moveAll (fun pos => g (f pos)) nodes
  | [] => rfl
  | node :: rest => by
    rw [moveAll, moveAll, moveAll, move_move g node, moveAll_moveAll g rest]

end

theorem segment_move (items : List Tree) (fallback : Position) :
    (segment items fallback).move f = segment (items.map (move f)) (f fallback) := by
  cases items <;> simp [segment, move, moveAll_eq_map]

end Tree

open NamespaceLang.Tree

def OpenChain.bracketed (c : OpenChain) : OpenChain :=
  { c with
    done := c.done.map (move .right)
    operandStart := c.operandStart.right
    firstOperator := c.firstOperator.right }

theorem OpenChain.bracketed_extend (c : OpenChain) (items : List Tree) (j : Joiner)
    (start next : Position) :
    (c.extend items j start next).bracketed =
      c.bracketed.extend (items.map (move .right)) j start.right next.right := by
  simp [bracketed, extend, segment_move, move]

namespace OpenScope

/-- The scope in a bracket at the start of its line. -/
def bracketed (s : OpenScope) : OpenScope where
  pos := s.pos.right
  indent := 0
  kind :=
    match s.kind with
    | .block d => .block d
    | .chain c => .chain c.bracketed
  before := s.before.map (move .right)

def outermost (file : String) : OpenScope := ⟨.start file, 0, .block .round, #[]⟩

@[simp] theorem bracketed_tier (s : OpenScope) : s.bracketed.tier = s.tier := by
  obtain ⟨pos, indent, kind, before⟩ := s
  cases kind <;> rfl

@[simp] theorem bracketed_isBlock (s : OpenScope) : s.bracketed.isBlock = s.isBlock := by
  obtain ⟨pos, indent, kind, before⟩ := s
  cases kind <;> rfl

theorem bracketed_bracket? (s : OpenScope) :
    s.bracketed.bracket? = s.bracket?.map fun own => (own.1, 0) := by
  obtain ⟨pos, indent, kind, before⟩ := s
  cases kind <;> rfl

theorem bracketed_tree (s : OpenScope) (items : List Tree) :
    s.bracketed.tree (items.map (move .right)) = (s.tree items).move .right := by
  obtain ⟨pos, indent, kind, before⟩ := s
  cases kind with
  | block d => simp [tree, bracketed, move, moveAll_eq_map]
  | chain c =>
    cases hd : c.done.toList <;>
      simp [tree, bracketed, OpenChain.bracketed, move, moveAll_eq_map, ← segment_move, hd]

end OpenScope

namespace Builder

def bracketed (file : String) (b : Builder) : Builder where
  items := b.items.map (move .right)
  scopes := b.scopes.map OpenScope.bracketed ++ [outermost file]
  mode := b.mode
  diagnostics := b.diagnostics
  stopped := b.stopped

variable {file : String} {b : Builder}

theorem bracketed_cons {s : OpenScope} {outer : List OpenScope} (hs : b.scopes = s :: outer) :
    (b.bracketed file).scopes =
      s.bracketed :: (outer.map OpenScope.bracketed ++ [outermost file]) := by
  rw [bracketed, hs, List.map_cons, List.cons_append]

theorem bracketed_nil (hs : b.scopes = []) : (b.bracketed file).scopes = [outermost file] := by
  rw [bracketed, hs]
  rfl

theorem bracketed_indent (b : Builder) : (b.bracketed file).indent = 0 := by
  cases hs : b.scopes with
  | nil => rw [indent, bracketed_nil hs]; rfl
  | cons s outer => rw [indent, bracketed_cons hs]; rfl

theorem bracketed_openBrackets (b : Builder) :
    openBrackets (b.bracketed file).scopes =
      (openBrackets b.scopes).map (fun own => (own.1, 0)) ++ [(.round, 0)] := by
  have own : (outermost file).bracket? = some (.round, 0) := rfl
  simp only [openBrackets, bracketed, List.filterMap_append, List.filterMap_map, List.map_filterMap,
    List.filterMap_cons_some own, List.filterMap_nil]
  exact congrArg (· ++ _) (List.filterMap_congr fun s _ => bracketed_bracket? s)

theorem add_bracketed (pos : Position) (content : Leaf) :
    (b.add (.leaf pos content)).bracketed file = (b.bracketed file).add (.leaf pos.right content) := by
  simp [add, bracketed, move]

theorem fold_bracketed (s : OpenScope) (outer : List OpenScope) :
    (b.fold s outer).bracketed file =
      (b.bracketed file).fold s.bracketed (outer.map OpenScope.bracketed ++ [outermost file]) := by
  simp [fold, bracketed, OpenScope.bracketed, ← bracketed_tree]

theorem enter_bracketed (mode? : Option Mode) :
    (b.enter mode?).bracketed file = (b.bracketed file).enter mode? := rfl

theorem unwind_bracketed {stays stays' : OpenScope → Bool} {complaint complaint' : OpenScope → Diagnostic}
    (same : ∀ s, stays' s.bracketed = stays s) (last : stays' (outermost file) = true)
    (blocks : ∀ s ∈ b.scopes, s.isBlock = true → stays s = true) :
    (b.unwind stays complaint).bracketed file = (b.bracketed file).unwind stays' complaint' := by
  generalize hn : b.scopes = scopes
  induction scopes generalizing b with
  | nil => rw [unwind_nil b hn, unwind_stays _ _ [] (bracketed_nil hn) last]
  | cons s outer ih =>
    have hs : (b.bracketed file).scopes = _ := bracketed_cons hn
    cases hst : stays s with
    | true => rw [unwind_stays b s outer hn hst, unwind_stays _ _ _ hs ((same s).trans hst)]
    | false =>
      have chain : s.isBlock = false := by
        refine Bool.eq_false_iff.2 fun hb => ?_
        rw [blocks s (hn ▸ List.mem_cons_self) hb] at hst
        cases hst
      have once : b.foldOnce complaint s outer = b.fold s outer := by
        unfold foldOnce
        rw [if_neg (by rw [chain]; decide)]
      have once' : (b.bracketed file).foldOnce complaint' s.bracketed
          (outer.map OpenScope.bracketed ++ [outermost file]) = (b.fold s outer).bracketed file := by
        unfold foldOnce
        rw [if_neg (by rw [bracketed_isBlock, chain]; decide), fold_bracketed]
      rw [unwind_folds _ _ b s outer hn hst, unwind_folds _ _ _ _ _ hs ((same s).trans hst), once, once']
      exact ih (fun t ht => blocks t (hn ▸ List.mem_cons_of_mem s ht)) rfl

/-- Unwinding further changes nothing if the innermost scope that stayed stays then too. -/
theorem unwind_congr {stays stays' : OpenScope → Bool} {complaint : OpenScope → Diagnostic}
    (further : ∀ s, stays s = false → stays' s = false)
    (innermost : ∀ s ∈ (b.unwind stays complaint).scopes.head?, stays' s = true) :
    b.unwind stays complaint = b.unwind stays' complaint := by
  generalize hn : b.scopes = scopes
  induction scopes generalizing b with
  | nil => rw [unwind_nil b hn, unwind_nil b hn]
  | cons s outer ih =>
    cases hst : stays s with
    | true =>
      rw [unwind_stays b s outer hn hst] at innermost ⊢
      exact (unwind_stays b s outer hn (innermost s (by rw [hn]; rfl))).symm
    | false =>
      rw [unwind_folds _ _ b s outer hn hst] at innermost ⊢
      rw [unwind_folds _ _ b s outer hn (further s hst)]
      exact ih innermost rfl

theorem openBlock_bracketed (d : Delimiter) (start : Position) (indent : Int)
    (room : (b.bracketed file).scopes.length < nestingLimit) :
    (b.openBlock d start indent).bracketed file = (b.bracketed file).openBlock d start.right 0 := by
  have room' : ¬ nestingLimit ≤ b.scopes.length := by
    simp only [bracketed, List.length_append, List.length_map, List.length_singleton] at room
    omega
  unfold openBlock
  rw [if_neg room', if_neg (Nat.not_le.2 room)]
  simp [bracketed, enter, OpenScope.bracketed]

theorem startChain_bracketed (j : Joiner) (start next : Position) :
    (b.startChain j start next).bracketed file =
      (b.bracketed file).startChain j start.right next.right := by
  have fresh : (⟨j.tag, j.tier, #[], start, start⟩ : OpenChain).bracketed =
      ⟨j.tag, j.tier, #[], start.right, start.right⟩ := by
    simp [OpenChain.bracketed]
  unfold startChain
  rw [bracketed_indent, ← fresh]
  simp [bracketed, OpenScope.bracketed, OpenChain.bracketed_extend]

theorem extendChain_bracketed {s : OpenScope} {c : OpenChain} {outer : List OpenScope} {j : Joiner}
    (same : c.tag = j.tag) (start next : Position) :
    (b.extendChain s c outer j start next).bracketed file =
      (b.bracketed file).extendChain s.bracketed c.bracketed
        (outer.map OpenScope.bracketed ++ [outermost file]) j start.right next.right := by
  have same' : c.bracketed.tag = j.tag := same
  unfold extendChain
  rw [if_pos same, if_pos same']
  simp [bracketed, OpenScope.bracketed, OpenChain.bracketed_extend]

theorem wrapItems_bracketed (w : Wrapper) (start : Position) :
    (b.wrapItems w start).bracketed file = (b.bracketed file).wrapItems w start.right := by
  have blank : isBlank ∘ move .right = isBlank := funext (isBlank_move .right)
  simp [wrapItems, bracketed, trimStart, List.takeWhile_map, List.dropWhile_map, blank, move,
    moveAll_eq_map]
  cases b.items.toList.dropWhile isBlank <;> simp

/-- What a joiner does once all scopes that do not stay are folded. -/
def joinTop (b : Builder) (j : Joiner) (start next : Position) : Builder :=
  match b.scopes with
  | [] => b.startChain j start next
  | s :: outer =>
    if s.tier < j.tier then b.startChain j start next
    else
      match s.kind with
      | .chain c => b.extendChain s c outer j start next
      | .block _ => b.stop (.unreachable start .sharedTier)

theorem join_eq (b : Builder) (j : Joiner) (start next : Position) :
    b.join j start next = (b.foldTighter j start).joinTop j start next := rfl

theorem joinTop_bracketed {j : Joiner} {start next : Position}
    (quiet : (b.joinTop j start next).diagnostics = []) :
    (b.joinTop j start next).bracketed file =
      (b.bracketed file).joinTop j start.right next.right := by
  unfold joinTop at quiet ⊢
  cases hs : b.scopes with
  | nil =>
    rw [bracketed_nil hs]
    dsimp only
    rw [if_pos (show (outermost file).tier < j.tier from j.tier_pos), startChain_bracketed]
  | cons s outer =>
    rw [hs] at quiet
    rw [bracketed_cons hs]
    dsimp only at quiet ⊢
    rw [bracketed_tier]
    split at quiet
    · next looser => rw [if_pos looser, if_pos looser, startChain_bracketed]
    · next same =>
      rw [if_neg same, if_neg same]
      cases hk : s.kind with
      | block d =>
        rw [hk] at quiet
        simp [stop, report] at quiet
      | chain c =>
        have kind : s.bracketed.kind = .chain c.bracketed := by rw [OpenScope.bracketed, hk]
        rw [hk] at quiet
        rw [kind]
        have tag : c.tag = j.tag := by
          by_contra other
          dsimp only at quiet
          rw [extendChain, if_neg other] at quiet
          simp [report] at quiet
        exact extendChain_bracketed tag start next

theorem join_bracketed (h : b.Sound) (hr : b.mode = .regular) {j : Joiner} {start next : Position}
    (quiet : (b.join j start next).diagnostics = []) :
    (b.join j start next).bracketed file = (b.bracketed file).join j start.right next.right := by
  have folds : (b.foldTighter j start).bracketed file =
      (b.bracketed file).foldTighter j start.right := by
    refine unwind_bracketed (fun s => by rw [bracketed_tier]) (decide_eq_true (Nat.zero_le _)) ?_
    intro s hs hb
    exact decide_eq_true (by rw [h.block_tier hr hs hb]; exact Nat.zero_le _)
  rw [join_eq] at quiet
  rw [join_eq, join_eq, joinTop_bracketed quiet, folds]

theorem tier_lt_of_not_later (h : b.Sound) (tidy : b.Tidy) (hr : b.mode = .regular)
    {s : OpenScope} {outer : List OpenScope} (hs : s :: outer <:+ b.scopes)
    (first : s.isLater = false) (w : Wrapper) : s.tier < w.tier := by
  have inside : s ∈ b.scopes := hs.subset List.mem_cons_self
  cases hk : s.kind with
  | block d =>
    rw [h.block_tier hr inside (by rw [isBlock, hk])]
    cases w <;> decide
  | chain c =>
    have fits := (nested_suffix hs h.nested).1
    rw [Fits, hk] at fits
    obtain ⟨j, tier⟩ := fits.2.2.2
    have begun := ((tidy.scopes s inside).chain c hk).2
    have loose : c.tier ≠ TokenGroup.equals.tier := by
      intro tight
      rw [isLater, hk] at first
      simp [tight] at first
      exact begun (by rw [first])
    rw [tier_chain hk]
    rw [tier] at loose ⊢
    cases j <;> first | exact absurd rfl loose | (cases w <;> decide)

/-- A wrapper that leaves no later operand of a tight chain open leaves nothing open for its
indentation alone. -/
theorem foldToWrap_eq (h : b.Sound) (tidy : b.Tidy) (hr : b.mode = .regular) {w : Wrapper}
    {start : Position} {indent : Int} (first : topLater (b.foldToWrap w start indent).scopes = false) :
    b.foldToWrap w start indent =
      b.unwind (fun s => decide (s.tier < w.tier)) (unclosedAt start w.spelling indent) := by
  apply unwind_congr
  · intro s left
    simp only [holds, Bool.or_eq_false_iff] at left
    exact left.2
  · intro s hs
    have suffix : (b.foldToWrap w start indent).scopes <:+ b.scopes := unwind_scopes b
    change s ∈ (b.foldToWrap w start indent).scopes.head? at hs
    cases hu : (b.foldToWrap w start indent).scopes with
    | nil =>
      rw [hu] at hs
      cases hs
    | cons top outer =>
      rw [hu] at hs first suffix
      have same : top = s := Option.some.inj hs
      subst same
      exact decide_eq_true (tier_lt_of_not_later h tidy hr suffix first w)

theorem wrap_bracketed (h : b.Sound) (tidy : b.Tidy) (hr : b.mode = .regular) {w : Wrapper}
    {start : Position} {indent : Int} (first : topLater (b.foldToWrap w start indent).scopes = false) :
    (b.wrap w start indent).bracketed file = (b.bracketed file).wrap w start.right 0 := by
  have folds : (b.foldToWrap w start indent).bracketed file =
      (b.bracketed file).foldToWrap w start.right 0 := by
    rw [foldToWrap_eq h tidy hr first]
    refine unwind_bracketed (fun s => ?_) ?_ fun s hs hb => ?_
    · have level : s.bracketed.indent = 0 := rfl
      simp [holds, level]
    · cases w <;> rfl
    · exact decide_eq_true (by rw [h.block_tier hr hs hb]; cases w <;> decide)
  show ((b.foldToWrap w start indent).wrapItems w start).bracketed file =
    ((b.bracketed file).foldToWrap w start.right 0).wrapItems w start.right
  rw [wrapItems_bracketed, folds]

theorem close_bracketed (h : b.Sound) (h' : (b.bracketed file).Sound) {d : Delimiter}
    {start : Position} {indent : Int} (quiet : (b.close d start indent).diagnostics = []) :
    (b.close d start indent).bracketed file = (b.bracketed file).close d start.right 0 := by
  have told : Balanced (b.close d start indent).diagnostics := by
    rw [quiet]
    exact balanced_nil
  have own := (close_innermost h told).1
  obtain ⟨opened, own'⟩ : ∃ opened, openBrackets (b.bracketed file).scopes = (d, 0) :: opened :=
    ⟨_, by rw [bracketed_openBrackets, own, List.map_cons, List.cons_append]⟩
  obtain ⟨s, outer, hs, -, closes⟩ := close_own h start own (unclosedAt start d.closing indent)
  obtain ⟨s', outer', hs', -, closes'⟩ :=
    close_own h' start.right own' (unclosedAt start d.closing indent)
  have folds : (b.unwind isBlock (unclosedAt start d.closing indent)).bracketed file =
      (b.bracketed file).unwind isBlock (unclosedAt start d.closing indent) :=
    unwind_bracketed bracketed_isBlock rfl fun _ _ block => block
  rw [← folds, bracketed_cons hs] at hs'
  obtain ⟨rfl, rfl⟩ := List.cons.inj hs'
  rw [closes, closes', ← folds, enter_bracketed, fold_bracketed]

theorem unwind_eq_finish (none_open : openBrackets b.scopes = []) (stop : Position) :
    b.unwind isBlock (unclosedAtEnd stop) = b.finish stop := by
  refine unwind_congr (fun _ _ => rfl) fun s hs => ?_
  cases hu : (b.unwind isBlock (unclosedAtEnd stop)).scopes with
  | nil =>
    rw [hu] at hs
    cases hs
  | cons top outer =>
    have inside : top ∈ b.scopes := (unwind_scopes b).subset (hu ▸ List.mem_cons_self)
    have block := unwind_head b top outer hu
    rw [isBlock_of_none_open none_open inside] at block
    cases block

theorem close_outermost (h' : (b.bracketed file).Sound) (none_open : openBrackets b.scopes = [])
    (start stop : Position) :
    (b.bracketed file).close .round start 0 =
      ((b.finish stop).bracketed file).fold (outermost file) [] := by
  have folds : (b.finish stop).bracketed file =
      (b.bracketed file).unwind isBlock (unclosedAtEnd stop) :=
    unwind_eq_finish none_open stop ▸ unwind_bracketed bracketed_isBlock rfl fun _ _ block => block
  have own : openBrackets (b.bracketed file).scopes = [(.round, 0)] := by
    rw [bracketed_openBrackets, none_open]
    rfl
  obtain ⟨s, outer, hs, -, closes⟩ := close_own h' start own (unclosedAtEnd stop)
  rw [← folds] at hs closes
  rw [bracketed_nil (finish_scopes b stop)] at hs
  obtain ⟨rfl, rfl⟩ := List.cons.inj hs
  exact closes

theorem place_bracketed (h : b.Sound) (h' : (b.bracketed file).Sound) (tidy : b.Tidy) {l : Lexeme}
    {start : Position} {after after' : Cursor} (hl : l.occursIn b.mode) (line : l ≠ .lineBreak)
    (indent : after'.indent = 0) (position : after'.position = after.position.right)
    (quiet : (b.place l start after).diagnostics = [])
    (shallow : ∀ e ∈ ((b.bracketed file).place l start.right after').diagnostics,
      e.cause? ≠ some .nestingTooDeep)
    (first : b.placesLater true l start after = false) :
    (b.place l start after).bracketed file = (b.bracketed file).place l start.right after' := by
  have regular := Lexeme.regular_of_occurs hl
  have level : (after'.indent : Int) = 0 := by rw [indent]; rfl
  rcases l with content | _ | (d | d | w | j) | found | spelling
  · exact add_bracketed start content
  · exact absurd rfl line
  · simp only [place, level] at shallow ⊢
    refine openBlock_bracketed d start after.indent (Nat.lt_of_not_le fun deep => ?_)
    rw [openBlock, if_pos deep] at shallow
    exact shallow (.error start.right .nestingTooDeep) (by simp [stop, report]) rfl
  · simp only [place, level]
    exact close_bracketed h h' quiet
  · simp only [place, level]
    simp only [placesLater, within, Bool.true_or, Bool.true_and] at first
    exact wrap_bracketed h tidy (regular rfl) first
  · simp only [place, position]
    exact join_bracketed h (regular rfl) quiet
  · simp [place, report, add] at quiet
  · simp [place, report, add] at quiet

end Builder

end NamespaceLang

import NamespaceLang.Proofs.Tree.Sites

/-!
# The order of nodes

The nodes of a text, each before its items, stand in the order of the text. A group may
begin where its first item does, but never behind it. What waits in open scopes is in
order as well, and stands before the cursor, from the outermost scope to the innermost.
-/

set_option autoImplicit false

namespace NamespaceLang

def Ascending (offsets : List Nat) : Prop := offsets.Pairwise (· ≤ ·)

namespace Ascending

variable {left right : List Nat} {n m : Nat}

theorem twice (h : Ascending (left ++ n :: right)) : Ascending (left ++ n :: n :: right) := by
  obtain ⟨before, after, across⟩ := List.pairwise_append.1 h
  refine List.pairwise_append.2 ⟨before, ?_, fun a ha b hb => ?_⟩
  · refine List.pairwise_cons.2 ⟨fun b hb => ?_, after⟩
    rcases List.mem_cons.1 hb with rfl | hb
    · exact Nat.le_refl _
    · exact (List.pairwise_cons.1 after).1 b hb
  · rcases List.mem_cons.1 hb with rfl | hb
    · exact across a ha b List.mem_cons_self
    · exact across a ha b hb

theorem without (h : Ascending (left ++ n :: right)) : Ascending (left ++ right) :=
  List.Pairwise.sublist ((List.sublist_cons_self n right).append_left left) h

theorem snoc (h : Ascending (left ++ [n])) (further : n ≤ m) : Ascending (left ++ [n, m]) := by
  obtain ⟨before, -, across⟩ := List.pairwise_append.1 h
  refine List.pairwise_append.2 ⟨before, by simpa using further, fun a ha b hb => ?_⟩
  have here : a ≤ n := across a ha n List.mem_cons_self
  rcases List.mem_pair.1 hb with rfl | rfl
  · exact here
  · exact Nat.le_trans here further

theorem snoc_twice (h : Ascending (left ++ [n])) (further : n ≤ m) :
    Ascending (left ++ [n, m, m]) := by
  have longer : Ascending ((left ++ [n]) ++ m :: []) := by simpa using h.snoc further
  simpa using longer.twice

theorem last (h : Ascending (left ++ [n])) (further : n ≤ m) : Ascending (left ++ [m]) :=
  (h.snoc further).without

end Ascending

namespace Tree

def offsets (nodes : List Tree) : List Nat := (preorderAll nodes).map (·.pos.offset)

@[simp] theorem offsets_nil : offsets [] = [] := rfl

@[simp] theorem offsets_append (left right : List Tree) :
    offsets (left ++ right) = offsets left ++ offsets right := by
  simp [offsets]

@[simp] theorem offsets_leaf (pos : Position) (content : Leaf) :
    offsets [.leaf pos content] = [pos.offset] := rfl

@[simp] theorem offsets_group (pos : Position) (form : Form) (items : List Tree) :
    offsets [.group pos form items] = pos.offset :: offsets items := by
  simp [offsets, preorderAll, preorder, Tree.pos]

theorem offsets_cons (node : Tree) (rest : List Tree) :
    ∃ more, offsets (node :: rest) = node.pos.offset :: more := by
  cases node with
  | leaf pos content => exact ⟨offsets rest, rfl⟩
  | group pos form items => exact ⟨_, rfl⟩

theorem ascending_group {left right : List Nat} {items : List Tree} {fallback : Position}
    (form : Form) (h : Ascending (left ++ (offsets items ++ right)))
    (empty : items = [] → Ascending (left ++ fallback.offset :: right)) :
    Ascending (left ++
      (offsets [.group ((items.head?.map Tree.pos).getD fallback) form items] ++ right)) := by
  rw [offsets_group]
  cases items with
  | nil => exact empty rfl
  | cons first rest =>
    obtain ⟨more, hm⟩ := offsets_cons first rest
    rw [hm] at h ⊢
    exact h.twice

theorem ascending_segment {left right : List Nat} {items : List Tree} {start : Position}
    (h : Ascending (left ++ start.offset :: (offsets items ++ right))) :
    Ascending (left ++ (offsets [segment items start] ++ right)) := by
  refine ascending_group .segment h.without fun none_there => ?_
  subst none_there
  exact h

end Tree

open NamespaceLang.Tree

/-- The offsets of what waits in an open scope, and of where its items began. -/
def OpenScope.trail (s : OpenScope) : List Nat :=
  offsets s.before.toList ++
    match s.kind with
    | .block _ => [s.pos.offset]
    | .chain c => offsets c.done.toList ++ [c.operandStart.offset]

def OpenScope.trailOf : List OpenScope → List Nat
  | [] => []
  | s :: outer => trailOf outer ++ s.trail

open OpenScope

theorem OpenScope.trail_chain {s : OpenScope} {c : OpenChain} (h : s.kind = .chain c) :
    s.trail = offsets s.before.toList ++ (offsets c.done.toList ++ [c.operandStart.offset]) := by
  rw [trail, h]

theorem OpenChain.offsets_extend (c : OpenChain) (items : List Tree) (j : Joiner)
    (start next : Position) : offsets (c.extend items j start next).done.toList =
      offsets c.done.toList ++ (offsets [segment items c.operandStart] ++ [start.offset]) := by
  simp only [extend, Array.toList_push, offsets_append, offsets_leaf, List.append_assoc]

theorem OpenChain.extend_start (c : OpenChain) (items : List Tree) (j : Joiner)
    (start next : Position) : (c.extend items j start next).operandStart = next := rfl

theorem OpenScope.ascending_tree {left right : List Nat} (s : OpenScope) {items : List Tree}
    (h : Ascending (left ++ (s.trail ++ (offsets items ++ right)))) :
    Ascending (left ++ (offsets s.before.toList ++ (offsets [s.tree items] ++ right))) := by
  unfold OpenScope.trail at h
  unfold OpenScope.tree
  cases hk : s.kind with
  | block d =>
    simp only [hk] at h
    simpa using h
  | chain c =>
    simp only [hk] at h
    have opened : Ascending ((left ++ (offsets s.before.toList ++ offsets c.done.toList)) ++
        c.operandStart.offset :: (offsets items ++ right)) := by simpa using h
    have parts := ascending_segment opened
    rw [← List.append_assoc]
    refine ascending_group _ ?_ fun none_there => by simp at none_there
    simpa using parts

namespace Builder

/-- All that the builder holds stands in order, and not behind `n`. -/
def Ordered (b : Builder) (n : Nat) : Prop :=
  Ascending (trailOf b.scopes ++ (offsets b.items.toList ++ [n]))

variable {b : Builder} {n m : Nat} {start next : Position}

theorem Ordered.snoc (h : b.Ordered n) (further : n ≤ m) :
    Ascending (trailOf b.scopes ++ (offsets b.items.toList ++ [n, m])) := by
  rw [← List.append_assoc]
  exact Ascending.snoc (by simpa [Ordered] using h) further

theorem Ordered.further (h : b.Ordered n) (further : n ≤ m) : b.Ordered m := by
  unfold Ordered
  rw [← List.append_assoc]
  exact Ascending.last (n := n) (by simpa [Ordered] using h) further

theorem Ordered.add (h : b.Ordered start.offset) (further : start.offset ≤ n) (content : Leaf) :
    (b.add (.leaf start content)).Ordered n := by
  simpa [Ordered, Builder.add] using h.snoc further

theorem Ordered.fold (h : b.Ordered n) {s : OpenScope} {outer : List OpenScope}
    (hs : b.scopes = s :: outer) : (b.fold s outer).Ordered n := by
  unfold Ordered at h
  rw [hs, trailOf, List.append_assoc] at h
  simpa [Ordered, Builder.fold] using s.ascending_tree h

theorem Ordered.unwind (h : b.Ordered n) (stays : OpenScope → Bool)
    (complaint : OpenScope → Diagnostic) : (b.unwind stays complaint).Ordered n := by
  refine (unwind_rule (P := fun later => later.Ordered n) ?_ h).1
  intro later s outer hs _ hl
  unfold foldOnce
  split
  · exact Ordered.fold (b := later.report (complaint s)) hl hs
  · exact hl.fold hs

theorem Ordered.openBlock (h : b.Ordered start.offset) (further : start.offset ≤ n)
    (d : Delimiter) (indent : Int) : (b.openBlock d start indent).Ordered n := by
  unfold Builder.openBlock
  split
  · exact h.further further
  · simpa [Ordered, enter, trailOf, OpenScope.trail] using h.snoc further

theorem Ordered.close (h : b.Ordered n) (d : Delimiter) (start : Position) (indent : Int) :
    (b.close d start indent).Ordered n := by
  have folded : (b.foldToCloser d start indent).Ordered n := h.unwind _ _
  apply close_rule (P := fun later => later.Ordered n)
  · exact fun s outer hs _ => folded.fold hs
  · exact fun _ => folded

theorem Ordered.wrap (h : b.Ordered start.offset) (w : Wrapper) (indent : Int) :
    (b.wrap w start indent).Ordered start.offset := by
  unfold Builder.wrap
  have folded := h.unwind (·.holds indent w.tier) (unclosedAt start w.spelling indent)
  revert folded
  generalize b.unwind _ _ = u
  intro folded
  have parted : u.items.toList = u.items.toList.takeWhile Tree.isBlank ++ trimStart u.items.toList :=
    List.takeWhile_append_dropWhile.symm
  unfold Ordered at folded
  rw [parted, offsets_append, List.append_assoc, ← List.append_assoc] at folded
  simp only [Ordered, wrapItems, Array.toList_push, offsets_append]
  rw [List.append_assoc, ← List.append_assoc]
  refine ascending_group _ folded fun none_there => ?_
  rw [none_there] at folded
  exact folded.twice

theorem Ordered.startChain (h : b.Ordered start.offset) (further : start.offset ≤ next.offset)
    (j : Joiner) : (b.startChain j start next).Ordered next.offset := by
  have operand : Ascending (trailOf b.scopes ++
      (offsets [segment b.items.toList start] ++ [start.offset])) := by
    refine ascending_group .segment h fun none_there => ?_
    unfold Ordered at h
    rw [none_there] at h
    exact h.twice
  rw [← List.append_assoc] at operand
  have again := operand.snoc_twice further
  simpa [Ordered, Builder.startChain, OpenChain.offsets_extend, trailOf, OpenScope.trail,
    OpenChain.extend_start] using again

theorem Ordered.extendChain (h : b.Ordered start.offset) (further : start.offset ≤ next.offset)
    {s : OpenScope} {c : OpenChain} {outer : List OpenScope} (hs : b.scopes = s :: outer)
    (hk : s.kind = .chain c) (j : Joiner) :
    (b.extendChain s c outer j start next).Ordered next.offset := by
  have operand : Ascending ((trailOf outer ++ (offsets s.before.toList ++ offsets c.done.toList)) ++
      (offsets [segment b.items.toList c.operandStart] ++ [start.offset])) := by
    apply ascending_segment
    unfold Ordered at h
    rw [hs, trailOf, trail_chain hk] at h
    simpa using h
  rw [← List.append_assoc] at operand
  have again := operand.snoc_twice further
  unfold Builder.extendChain
  split
  all_goals simpa [Ordered, OpenChain.offsets_extend, trailOf, OpenScope.trail, report,
    OpenChain.extend_start] using again

theorem Ordered.join (h : b.Ordered start.offset) (further : start.offset ≤ next.offset)
    (j : Joiner) : (b.join j start next).Ordered next.offset := by
  have folded : (b.foldTighter j start).Ordered start.offset := h.unwind _ _
  apply join_rule (P := fun later => later.Ordered next.offset)
  · exact fun _ => folded.startChain further j
  · exact fun s c outer hs hk _ => folded.extendChain further hs hk j

theorem Ordered.place (h : b.Ordered start.offset) {l : Lexeme} {after : Cursor}
    (hl : l.occursIn b.mode) (further : start.offset ≤ after.offset) :
    (b.place l start after).Ordered after.offset := by
  refine place_rule (P := fun later => later.Ordered after.offset) hl ?_ ?_ ?_ ?_ ?_ ?_ ?_ ?_ ?_
  · exact fun content _ => h.add further content
  · exact fun _ => h.add further _
  · exact fun _ _ => Ordered.add (b := b.report _) h further _
  · exact fun _ _ => Ordered.add (b := b.report _) h further _
  · exact fun d _ => h.openBlock further d _
  · exact fun d _ _ => (h.close d _ _).further further
  · exact fun _ => (h.close .quote _ _).further further
  · exact fun w _ => (h.wrap w _).further further
  · exact fun j _ => show Ordered _ after.position.offset from h.join further j

end Builder

theorem reading_ordered {label : String} {text : List Char} {b : Builder} {c : Cursor}
    (h : Reading label text b c) : b.Ordered c.offset := by
  induction h with
  | start => exact List.pairwise_singleton _ _
  | @next b c after first before going taken ih =>
    have further : c.offset ≤ (Lexeme.next b.mode first after).2.offset :=
      Nat.le_trans (Nat.le_of_lt (Cursor.take?_offset taken)) (Lexeme.next_offset _ _ _)
    have here : b.Ordered c.position.offset := ih
    exact here.place (Lexeme.next_occurs _ _ _) further

/-- The nodes of a text stand in the order of the text. -/
theorem tokenize_ordered (label : String) (text : List Char) :
    Ascending (Tree.offsets (tokenize label text).nodes) := by
  obtain ⟨b, c, read, -, nodes, -⟩ := tokenize_reading label text
  have finished : (b.finish c.position).Ordered c.offset := (reading_ordered read).unwind _ _
  unfold Builder.Ordered at finished
  rw [Builder.finish_scopes, ← nodes] at finished
  exact (List.pairwise_append.1 (List.pairwise_append.1 finished).2.1).1

end NamespaceLang

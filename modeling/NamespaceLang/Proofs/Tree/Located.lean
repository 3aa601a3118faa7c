import NamespaceLang.Proofs.Tree.Parents

/-!
# Places in a text

A text can be parted anywhere, and each such place has one position. The cursor stands
at one, and what a builder writes down are the places of cursors: so every node of a
text and every entry of what is told about it has the position of a place in it.
-/

set_option autoImplicit false

namespace NamespaceLang

variable {P : Position → Prop}

def Tree.Located (P : Position → Prop) (nodes : List Tree) : Prop :=
  ∀ node ∈ Tree.preorderAll nodes, P node.pos

structure Diagnostic.Located (P : Position → Prop) (d : Diagnostic) : Prop where
  entries : ∀ entry ∈ d.entries, ∃ pos, entry.pos? = some pos ∧ P pos
  trace : ∀ step ∈ d.trace, P step.pos

namespace Tree

theorem located_nil : Located P [] := fun _ hn => by cases hn

theorem located_append (left right : List Tree) :
    Located P (left ++ right) ↔ Located P left ∧ Located P right := by
  simp only [Located, preorderAll_append, List.mem_append, or_imp, forall_and]

theorem located_leaf (pos : Position) (content : Leaf) :
    Located P [.leaf pos content] ↔ P pos := by
  simp [Located, preorderAll, preorder, Tree.pos]

theorem located_group (pos : Position) (form : Form) (items : List Tree) :
    Located P [.group pos form items] ↔ P pos ∧ Located P items := by
  simp [Located, preorderAll, preorder, Tree.pos]

theorem Located.part {part nodes : List Tree} (h : Located P nodes) (hp : part ⊆ nodes) :
    Located P part := fun node hn => h node (preorderAll_mono hp hn)

theorem Located.head {node : Tree} {nodes : List Tree} (h : Located P nodes) (hn : node ∈ nodes) :
    P node.pos := h node (subset_preorderAll nodes hn)

theorem located_first {items : List Tree} (h : Located P items) {fallback : Position}
    (hf : P fallback) : P ((items.head?.map Tree.pos).getD fallback) := by
  cases items with
  | nil => exact hf
  | cons first rest => exact h.head List.mem_cons_self

end Tree

namespace Diagnostic

theorem located_error {pos : Position} (h : P pos) (cause : Cause) :
    (Diagnostic.error pos cause).Located P :=
  ⟨by simpa [Diagnostic.error] using h, by simp [Diagnostic.error]⟩

theorem located_unreachable {pos : Position} (h : P pos) (cause : Cause) :
    (Diagnostic.unreachable pos cause).Located P :=
  ⟨by simpa [Diagnostic.unreachable] using h, by simp [Diagnostic.unreachable]⟩

theorem Located.withNote {d : Diagnostic} (h : d.Located P) {pos : Position} (hp : P pos)
    (cause : Cause) : (d.withNote pos cause).Located P where
  entries := List.forall_mem_append.2 ⟨h.entries, by simpa using hp⟩
  trace := h.trace

theorem Located.under {d : Diagnostic} (h : d.Located P) {trace : Trace}
    (ht : ∀ step ∈ trace, P step.pos) : (d.under trace).Located P where
  entries := h.entries
  trace := List.forall_mem_append.2 ⟨ht, h.trace⟩

end Diagnostic

open NamespaceLang.Tree

structure OpenChain.Located (P : Position → Prop) (c : OpenChain) : Prop where
  done : Tree.Located P c.done.toList
  operandStart : P c.operandStart
  firstOperator : P c.firstOperator

structure OpenScope.Located (P : Position → Prop) (s : OpenScope) : Prop where
  pos : P s.pos
  before : Tree.Located P s.before.toList
  chain : ∀ c, s.kind = .chain c → c.Located P

theorem segment_located {items : List Tree} (h : Tree.Located P items) {fallback : Position}
    (hf : P fallback) : Tree.Located P [segment items fallback] :=
  (located_group _ _ _).2 ⟨located_first h hf, h⟩

theorem OpenChain.Located.parts {c : OpenChain} (h : c.Located P) {items : List Tree}
    (hi : Tree.Located P items) :
    Tree.Located P (c.done.push (segment items c.operandStart)).toList := by
  rw [Array.toList_push]
  exact (located_append _ _).2 ⟨h.done, segment_located hi h.operandStart⟩

theorem OpenChain.Located.extend {c : OpenChain} (h : c.Located P) {items : List Tree}
    (hi : Tree.Located P items) (j : Joiner) {start next : Position} (hs : P start)
    (hn : P next) : (c.extend items j start next).Located P where
  done := by
    simp only [OpenChain.extend]
    rw [Array.toList_push]
    exact (located_append _ _).2 ⟨h.parts hi, (located_leaf _ _).2 hs⟩
  operandStart := hn
  firstOperator := h.firstOperator

theorem OpenScope.Located.tree {s : OpenScope} (h : s.Located P) {items : List Tree}
    (hi : Tree.Located P items) : Tree.Located P [s.tree items] := by
  unfold OpenScope.tree
  split
  · exact (located_group _ _ _).2 ⟨h.pos, hi⟩
  · next c hk =>
    have parts := (h.chain c hk).parts hi
    exact (located_group _ _ _).2 ⟨located_first parts h.pos, parts⟩

namespace Builder

structure Located (P : Position → Prop) (b : Builder) : Prop where
  items : Tree.Located P b.items.toList
  scopes : ∀ s ∈ b.scopes, s.Located P
  diagnostics : ∀ d ∈ b.diagnostics, d.Located P

theorem empty_located : Builder.empty.Located P :=
  ⟨located_nil, fun _ hs => (by cases hs), fun _ hd => (by cases hd)⟩

variable {b : Builder} {start next : Position}

theorem Located.report (h : b.Located P) {d : Diagnostic} (hd : d.Located P) :
    (b.report d).Located P where
  items := h.items
  scopes := h.scopes
  diagnostics := List.forall_mem_append.2 ⟨h.diagnostics, by simpa using hd⟩

theorem Located.add (h : b.Located P) (hs : P start) (content : Leaf) :
    (b.add (.leaf start content)).Located P where
  items := by
    simp only [Builder.add, Array.toList_push]
    exact (located_append _ _).2 ⟨h.items, (located_leaf _ _).2 hs⟩
  scopes := h.scopes
  diagnostics := h.diagnostics

theorem Located.fold (h : b.Located P) {s : OpenScope} {outer : List OpenScope}
    (hs : b.scopes = s :: outer) : (b.fold s outer).Located P where
  items := by
    have own := h.scopes s (hs ▸ List.mem_cons_self)
    simp only [Builder.fold, Array.toList_push]
    exact (located_append _ _).2 ⟨own.before, own.tree h.items⟩
  scopes t ht := h.scopes t (hs ▸ List.mem_cons_of_mem _ ht)
  diagnostics := h.diagnostics

theorem Located.unwind (h : b.Located P) (stays : OpenScope → Bool)
    {complaint : OpenScope → Diagnostic} (hc : ∀ s, P s.pos → (complaint s).Located P) :
    (b.unwind stays complaint).Located P := by
  refine (unwind_rule (P := Builder.Located P) ?_ h).1
  intro later s outer hs _ hl
  have told := hc s (hl.scopes s (hs ▸ List.mem_cons_self)).pos
  unfold foldOnce
  split
  · exact (hl.report told).fold hs
  · exact hl.fold hs

theorem unclosedAt_located (hs : P start) (found : String) (indent : Int) (s : OpenScope)
    (hp : P s.pos) : (unclosedAt start found indent s).Located P :=
  (Diagnostic.located_error hp _).withNote hs _

theorem Located.openBlock (h : b.Located P) (d : Delimiter) (hs : P start) (indent : Int) :
    (b.openBlock d start indent).Located P := by
  unfold Builder.openBlock
  split
  · have told := h.report (Diagnostic.located_error hs .nestingTooDeep)
    exact ⟨told.items, told.scopes, told.diagnostics⟩
  · refine ⟨located_nil, ?_, h.diagnostics⟩
    exact List.forall_mem_cons.2 ⟨⟨hs, h.items, fun c hk => (by cases hk)⟩, h.scopes⟩

theorem Located.close (h : b.Located P) (d : Delimiter) (hs : P start) (indent : Int) :
    (b.close d start indent).Located P := by
  have folded : (b.foldToCloser d start indent).Located P :=
    h.unwind _ (unclosedAt_located hs _ _)
  apply close_rule (P := Builder.Located P)
  · intro s outer ho _
    have ended := folded.fold ho
    exact ⟨ended.items, ended.scopes, ended.diagnostics⟩
  · exact fun _ => folded.report (Diagnostic.located_error hs _)

theorem Located.wrap (h : b.Located P) (w : Wrapper) (hs : P start) (indent : Int) :
    (b.wrap w start indent).Located P := by
  unfold Builder.wrap
  have folded : (b.unwind (·.holds indent w.tier) (unclosedAt start w.spelling indent)).Located P :=
    h.unwind _ (unclosedAt_located hs _ _)
  revert folded
  generalize b.unwind _ _ = u
  intro folded
  have blanks : Tree.Located P (u.items.toList.takeWhile Tree.isBlank) :=
    folded.items.part (List.takeWhile_sublist _).subset
  have wrapped : Tree.Located P (trimStart u.items.toList) :=
    folded.items.part (List.dropWhile_sublist _).subset
  refine ⟨?_, folded.scopes, folded.diagnostics⟩
  simp only [wrapItems, Array.toList_push]
  exact (located_append _ _).2
    ⟨blanks, (located_group _ _ _).2 ⟨located_first wrapped hs, wrapped⟩⟩

theorem Located.startChain (h : b.Located P) (j : Joiner) (hs : P start) (hn : P next) :
    (b.startChain j start next).Located P := by
  have chain : OpenChain.Located P ⟨j.tag, j.tier, #[], start, start⟩ := ⟨located_nil, hs, hs⟩
  have begun := chain.extend h.items j hs hn
  refine ⟨located_nil, ?_, h.diagnostics⟩
  refine List.forall_mem_cons.2 ⟨⟨hs, located_nil, ?_⟩, h.scopes⟩
  intro c hk
  cases hk
  exact begun

theorem Located.extendChain (h : b.Located P) {s : OpenScope} {c : OpenChain}
    {outer : List OpenScope} (ho : b.scopes = s :: outer) (hk : s.kind = .chain c) (j : Joiner)
    (hs : P start) (hn : P next) : (b.extendChain s c outer j start next).Located P := by
  have own := h.scopes s (ho ▸ List.mem_cons_self)
  have others : ∀ t ∈ outer, t.Located P := fun t ht => h.scopes t (ho ▸ List.mem_cons_of_mem _ ht)
  have chain := own.chain c hk
  have longer : OpenScope.Located P
      { s with kind := .chain (c.extend b.items.toList j start next) } := by
    refine ⟨own.pos, own.before, fun c' hk' => ?_⟩
    cases hk'
    exact chain.extend h.items j hs hn
  have mixed := (Diagnostic.located_error hs .mixedOperators).withNote chain.firstOperator
    .previousOperator
  unfold Builder.extendChain
  split
  · exact ⟨located_nil, List.forall_mem_cons.2 ⟨longer, others⟩, h.diagnostics⟩
  · exact ⟨located_nil, List.forall_mem_cons.2 ⟨longer, others⟩, (h.report mixed).diagnostics⟩

theorem Located.join (h : b.Located P) (j : Joiner) (hs : P start) (hn : P next) :
    (b.join j start next).Located P := by
  have folded : (b.foldTighter j start).Located P :=
    h.unwind _ fun s hp => (Diagnostic.located_error hp _).withNote hs _
  apply join_rule (P := Builder.Located P)
  · exact fun _ => folded.startChain j hs hn
  · exact fun s c outer ho hk _ => folded.extendChain ho hk j hs hn

theorem Located.place (h : b.Located P) {l : Lexeme} {after : Cursor} (hl : l.occursIn b.mode)
    (hs : P start) (hn : P after.position) : (b.place l start after).Located P := by
  refine place_rule (P := Builder.Located P) hl ?_ ?_ ?_ ?_ ?_ ?_ ?_ ?_ ?_
  · exact fun content _ => h.add hs content
  · exact fun _ => h.add hs _
  · exact fun _ _ => (h.report (Diagnostic.located_error hs _)).add hs _
  · exact fun _ _ => (h.report (Diagnostic.located_error hs _)).add hs _
  · exact fun d _ => h.openBlock d hs _
  · exact fun d _ _ => h.close d hs _
  · exact fun _ => h.close .quote hs _
  · exact fun w _ => h.wrap w hs _
  · exact fun j _ => h.join j hs hn

theorem Located.finish (h : b.Located P) {stop : Position} (hs : P stop) :
    (b.finish stop).Located P :=
  h.unwind _ fun _ hp => (Diagnostic.located_error hp _).withNote hs _

end Builder

def Position.behind (label : String) (before : List Char) : Position :=
  ⟨label, byteLength before, 1 + before.count '\n', 1 + (lastLine before).length⟩

/-- The position is that of a place in the text. -/
def Position.In (label : String) (text : List Char) (pos : Position) : Prop :=
  ∃ before after, text = before ++ after ∧ pos = .behind label before

theorem lastLine_feed (before : List Char) : lastLine (before ++ ['\n']) = [] := by
  simp [lastLine]

theorem lastLine_other (before : List Char) {c : Char} (h : c ≠ '\n') :
    lastLine (before ++ [c]) = lastLine before ++ [c] := by
  simp [lastLine, h]

/-- The cursor stands behind what it has taken of the text. -/
def Cursor.StandsIn (label : String) (text : List Char) (c : Cursor) : Prop :=
  ∃ before, text = before ++ c.rest ∧ c.position = .behind label before

variable {label : String} {text : List Char}

namespace Cursor

theorem StandsIn.position {c : Cursor} (h : c.StandsIn label text) : c.position.In label text :=
  have ⟨before, parted, here⟩ := h
  ⟨before, c.rest, parted, here⟩

theorem start_standsIn : (Cursor.start label text).StandsIn label text := ⟨[], rfl, rfl⟩

theorem StandsIn.past {c : Cursor} {ch : Char} {rest : List Char} (hr : c.rest = ch :: rest)
    (h : c.StandsIn label text) : (c.past ch rest).StandsIn label text := by
  obtain ⟨before, parted, here⟩ := h
  obtain ⟨hfile, hoffset, hline, hcol⟩ : c.file = label ∧ c.offset = byteLength before ∧
      c.line = 1 + before.count '\n' ∧ c.col = 1 + (lastLine before).length := by
    simpa [Cursor.position, Position.behind] using here
  refine ⟨before ++ [ch], by simp [parted, hr], ?_⟩
  unfold Cursor.past
  split
  · next feed =>
    subst feed
    simp only [Cursor.position, Position.behind, lastLine_feed, byteLength_append, List.count_append]
    rw [hfile, hoffset, hline]
    rfl
  · next other =>
    simp only [Cursor.position, Position.behind, lastLine_other before other, byteLength_append,
      List.count_append, List.length_append]
    rw [hfile, hoffset, hline, hcol, List.count_singleton, if_neg (by simpa using other)]
    rfl

theorem StandsIn.next {c after : Cursor} {first : Char} (h : c.StandsIn label text)
    (taken : c.take? = some (first, after)) (mode : Mode) :
    (Lexeme.next mode first after).2.StandsIn label text := by
  obtain ⟨rest, rfl, hr⟩ := rest_of_take? taken
  exact Lexeme.next_rule (fun _ _ _ hr => StandsIn.past hr) mode first (h.past hr)

end Cursor

/-- In every state of a reading the cursor stands in the text, and so does all that was placed. -/
theorem reading_located {b : Builder} {c : Cursor} (h : Reading label text b c) :
    c.StandsIn label text ∧ b.Located (Position.In label text) := by
  induction h with
  | start => exact ⟨Cursor.start_standsIn, Builder.empty_located⟩
  | @next b c after first before going taken ih =>
    have further := ih.1.next taken b.mode
    exact ⟨further, ih.2.place (Lexeme.next_occurs _ _ _) ih.1.position further.position⟩

theorem tokenize_located (label : String) (text : List Char) :
    Tree.Located (Position.In label text) (tokenize label text).nodes ∧
      ∀ d ∈ (tokenize label text).diagnostics, d.Located (Position.In label text) := by
  obtain ⟨b, c, read, -, nodes, told⟩ := tokenize_reading label text
  obtain ⟨stands, located⟩ := reading_located read
  have finished := located.finish stands.position
  rw [nodes, told]
  exact ⟨finished.items, finished.diagnostics⟩

end NamespaceLang

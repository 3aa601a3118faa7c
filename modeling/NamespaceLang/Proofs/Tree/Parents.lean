import NamespaceLang.Proofs.Tree.Nesting

/-!
# Laws on items and what holds them

A law says which nodes may stand directly in a group, or in the file itself.
Some laws are kept by every fold, wrap and chain, whatever goes wrong in a
text: it is enough that each leaf is lawful where it is added.
-/

set_option autoImplicit false

namespace NamespaceLang

namespace Tree

def form? : Tree → Option Form
  | .leaf .. => none
  | .group _ form _ => some form

theorem mem_preorderAll {node : Tree} {nodes : List Tree} :
    node ∈ preorderAll nodes ↔ ∃ top ∈ nodes, node ∈ top.preorder := by
  induction nodes with
  | nil => simp [preorderAll]
  | cons first rest ih => simp [preorderAll, ih]

theorem preorderAll_mono {part nodes : List Tree} (hp : part ⊆ nodes) :
    preorderAll part ⊆ preorderAll nodes := by
  intro node hn
  obtain ⟨top, ht, hn⟩ := mem_preorderAll.1 hn
  exact mem_preorderAll.2 ⟨top, hp ht, hn⟩

theorem self_mem_preorder (node : Tree) : node ∈ node.preorder := by
  cases node <;> exact List.mem_cons_self

theorem subset_preorderAll (nodes : List Tree) : nodes ⊆ preorderAll nodes := fun node hn =>
  mem_preorderAll.2 ⟨node, hn, self_mem_preorder node⟩

mutual

theorem items_subset_preorder {below : Tree} :
    (node : Tree) → below ∈ node.preorder → below.items ⊆ node.preorder
  | .leaf pos content, h => by
    rw [List.mem_singleton.1 h]
    exact List.nil_subset _
  | .group pos form items, h => by
    rcases List.mem_cons.1 h with rfl | h
    · exact List.Subset.trans (subset_preorderAll items) (List.subset_cons_self _ _)
    · exact List.Subset.trans (items_subset_preorderAll items h) (List.subset_cons_self _ _)

theorem items_subset_preorderAll {below : Tree} :
    (nodes : List Tree) → below ∈ preorderAll nodes → below.items ⊆ preorderAll nodes
  | [], h => by cases h
  | node :: rest, h => by
    rcases List.mem_append.1 h with h | h
    · exact List.subset_append_of_subset_left _ (items_subset_preorder node h)
    · exact List.subset_append_of_subset_right _ (items_subset_preorderAll rest h)

end

/-- The items are lawful under `parent`, and so are the items of all nodes below. -/
def Lawful (ok : Option Form → Tree → Prop) (parent : Option Form) (nodes : List Tree) : Prop :=
  (∀ item ∈ nodes, ok parent item) ∧
    ∀ node ∈ preorderAll nodes, ∀ item ∈ node.items, ok node.form? item

variable {ok : Option Form → Tree → Prop} {parent : Option Form}

theorem lawful_nil : Lawful ok parent [] := ⟨by simp, by simp [preorderAll]⟩

theorem lawful_append (left right : List Tree) :
    Lawful ok parent (left ++ right) ↔ Lawful ok parent left ∧ Lawful ok parent right := by
  simp only [Lawful, preorderAll_append, List.mem_append, or_imp, forall_and]
  exact and_and_and_comm

theorem lawful_leaf (pos : Position) (content : Leaf) :
    Lawful ok parent [.leaf pos content] ↔ ok parent (.leaf pos content) := by
  simp [Lawful, preorderAll, preorder, items]

theorem lawful_group (pos : Position) (form : Form) (items : List Tree) :
    Lawful ok parent [.group pos form items] ↔
      ok parent (.group pos form items) ∧ Lawful ok (some form) items := by
  simp [Lawful, preorderAll, preorder, form?, Tree.items]

theorem Lawful.move {other : Option Form} {nodes part : List Tree} (h : Lawful ok parent nodes)
    (hp : part ⊆ nodes) (hi : ∀ item, ok parent item → ok other item) : Lawful ok other part :=
  ⟨fun item hm => hi item (h.1 item (hp hm)), fun node hm => h.2 node (preorderAll_mono hp hm)⟩

end Tree

open NamespaceLang.Tree OpenScope

/-- What can hold items of all kinds: the file, an operand, and a block that is no string. -/
def Plain : Option Form → Prop
  | none | some .segment => True
  | some (.block tag _ _) => tag ≠ .string
  | some (.chain ..) => False

structure Law (ok : Option Form → Tree → Prop) : Prop where
  group : ∀ parent pos form items, Plain parent → form ≠ .segment → ok parent (.group pos form items)
  operand : ∀ tag tier pos items, ok (some (.chain tag tier)) (.group pos .segment items)
  operator : ∀ tag tier pos spelling, ok (some (.chain tag tier)) (.leaf pos (.operator spelling))
  move : ∀ parent other item, Plain parent → Plain other → ok parent item → ok other item

namespace OpenScope

def form (s : OpenScope) : Form :=
  match s.kind with
  | .block d => .block d.blockTag d.opening d.closing
  | .chain _ => .segment

def topForm : List OpenScope → Option Form
  | [] => none
  | s :: _ => some s.form

theorem plain_form {s : OpenScope} (h : s.isString = false) : Plain (some s.form) := by
  obtain ⟨pos, indent, kind, before⟩ := s
  rcases kind with d | c
  · cases d with
    | quote => cases h
    | round | square | curly => exact fun h => by cases h
  · trivial

theorem plain_top {scopes : List OpenScope} (h : ∀ s ∈ scopes, s.isString = false) :
    Plain (topForm scopes) := by
  cases scopes with
  | nil => trivial
  | cons s outer => exact plain_form (h s List.mem_cons_self)

def LawfulAll (ok : Option Form → Tree → Prop) : List OpenScope → Prop
  | [] => True
  | s :: outer =>
    Lawful ok (topForm outer) s.before.toList ∧
      (∀ c, s.kind = .chain c → Lawful ok (some (.chain c.tag c.tier)) c.done.toList) ∧
      LawfulAll ok outer

end OpenScope

namespace Builder

structure Lawful (ok : Option Form → Tree → Prop) (b : Builder) : Prop where
  items : Tree.Lawful ok (topForm b.scopes) b.items.toList
  scopes : LawfulAll ok b.scopes

variable {ok : Option Form → Tree → Prop}

theorem empty_lawful : Builder.empty.Lawful ok := ⟨lawful_nil, trivial⟩

theorem Lawful.frame {b later : Builder} (h : b.Lawful ok) (hi : later.items = b.items)
    (hs : later.scopes = b.scopes) : later.Lawful ok :=
  ⟨by rw [hi, hs]; exact h.items, by rw [hs]; exact h.scopes⟩

theorem add_lawful {b : Builder} (h : b.Lawful ok) (pos : Position) (content : Leaf)
    (hl : ok (topForm b.scopes) (.leaf pos content)) : (b.add (.leaf pos content)).Lawful ok where
  items := by
    simp only [add, Array.toList_push]
    exact (lawful_append _ _).2 ⟨h.items, (lawful_leaf _ _).2 hl⟩
  scopes := h.scopes

theorem done_lawful (law : Law ok) {c : OpenChain} {items : List Tree}
    (hd : Tree.Lawful ok (some (.chain c.tag c.tier)) c.done.toList)
    (hi : Tree.Lawful ok (some .segment) items) :
    Tree.Lawful ok (some (.chain c.tag c.tier)) (c.done.push (segment items c.operandStart)).toList := by
  rw [Array.toList_push]
  exact (lawful_append _ _).2 ⟨hd, (lawful_group _ _ _).2 ⟨law.operand _ _ _ _, hi⟩⟩

theorem extend_lawful (law : Law ok) {c : OpenChain} {items : List Tree}
    (hd : Tree.Lawful ok (some (.chain c.tag c.tier)) c.done.toList)
    (hi : Tree.Lawful ok (some .segment) items) (j : Joiner) (start next : Position) :
    Tree.Lawful ok (some (.chain c.tag c.tier)) (c.extend items j start next).done.toList := by
  simp only [OpenChain.extend]
  rw [Array.toList_push]
  exact (lawful_append _ _).2
    ⟨done_lawful law hd hi, (lawful_leaf _ _).2 (law.operator _ _ _ _)⟩

theorem fold_lawful (law : Law ok) {b : Builder} {s : OpenScope} {outer : List OpenScope}
    (h : b.Lawful ok) (hs : b.scopes = s :: outer) (hp : Plain (topForm outer)) :
    (b.fold s outer).Lawful ok := by
  obtain ⟨hbefore, hdone, houter⟩ := hs ▸ h.scopes
  have hitems : Tree.Lawful ok (some s.form) b.items.toList := by
    have hi := h.items
    rwa [hs] at hi
  refine ⟨?_, houter⟩
  simp only [fold, Array.toList_push]
  refine (lawful_append _ _).2 ⟨hbefore, ?_⟩
  unfold tree
  unfold OpenScope.form at hitems
  split
  · next d hk =>
    rw [hk] at hitems
    exact (lawful_group _ _ _).2 ⟨law.group _ _ _ _ hp (by simp), hitems⟩
  · next c hk =>
    rw [hk] at hitems
    exact (lawful_group _ _ _).2 ⟨law.group _ _ _ _ hp (by simp), done_lawful law (hdone c hk) hitems⟩

theorem unwind_lawful (law : Law ok) {b : Builder} (h : b.Lawful ok) (hs : b.Sound)
    (stays : OpenScope → Bool) (complaint : OpenScope → Diagnostic) :
    (b.unwind stays complaint).Lawful ok := by
  refine (unwind_rule (P := fun later => later.Lawful ok ∧ later.scopes <:+ b.scopes) ?_
    ⟨h, List.suffix_refl _⟩).1.1
  rintro later s outer hl - ⟨hlater, hsuffix⟩
  have inner : (s :: outer).tail <:+ b.scopes.tail := tail_suffix (hl ▸ hsuffix)
  have plain := plain_top fun t ht => hs.lone t (inner.subset ht)
  refine ⟨?_, inner.trans (List.tail_suffix _)⟩
  unfold foldOnce
  split
  · exact fold_lawful law (b := later.report _) (hlater.frame rfl rfl) hl plain
  · exact fold_lawful law hlater hl plain

theorem openBlock_lawful {b : Builder} (h : b.Lawful ok) (d : Delimiter) (start : Position)
    (indent : Int) : (b.openBlock d start indent).Lawful ok := by
  unfold openBlock
  split
  · exact h.frame rfl rfl
  · exact ⟨lawful_nil, h.items, (fun c hc => by cases hc), h.scopes⟩

theorem close_lawful (law : Law ok) {b : Builder} (h : b.Lawful ok) (hs : b.Sound) (d : Delimiter)
    (start : Position) (indent : Int) : (b.close d start indent).Lawful ok := by
  have hu : (b.foldToCloser d start indent).Lawful ok := unwind_lawful law h hs _ _
  have su : (b.foldToCloser d start indent).Sound := hs.unwind _ _
  apply close_rule (P := Lawful ok)
  · intro s outer hsc _
    have hl := su.lone
    rw [hsc] at hl
    exact (fold_lawful law hu hsc (plain_top hl)).frame rfl rfl
  · exact fun _ => hu.frame rfl rfl

theorem wrapItems_lawful (law : Law ok) {b : Builder} (h : b.Lawful ok)
    (hp : Plain (topForm b.scopes)) (w : Wrapper) (start : Position) :
    (b.wrapItems w start).Lawful ok := by
  refine ⟨?_, h.scopes⟩
  simp only [wrapItems, Array.toList_push]
  refine (lawful_append _ _).2 ⟨h.items.move (List.takeWhile_sublist _).subset fun _ hi => hi, ?_⟩
  refine (lawful_group _ _ _).2 ⟨law.group _ _ _ _ hp (by simp), ?_⟩
  refine h.items.move (List.dropWhile_sublist _).subset fun item hi => law.move _ _ item hp ?_ hi
  cases w <;> simp [Plain, Wrapper.blockTag]

theorem startChain_lawful (law : Law ok) {b : Builder} (h : b.Lawful ok)
    (hp : Plain (topForm b.scopes)) (j : Joiner) (start next : Position) :
    (b.startChain j start next).Lawful ok := by
  refine ⟨lawful_nil, lawful_nil, ?_, h.scopes⟩
  rintro c hc
  cases hc
  exact extend_lawful law lawful_nil
    (h.items.move (List.Subset.refl _) fun item hi => law.move _ _ item hp trivial hi) j start next

theorem extendChain_lawful (law : Law ok) {b : Builder} (h : b.Lawful ok) {s : OpenScope}
    {c : OpenChain} {outer : List OpenScope} (hs : b.scopes = s :: outer) (hc : s.kind = .chain c)
    (j : Joiner) (start next : Position) : (b.extendChain s c outer j start next).Lawful ok := by
  obtain ⟨hbefore, hdone, houter⟩ := hs ▸ h.scopes
  have hitems : Tree.Lawful ok (some .segment) b.items.toList := by
    have hi := h.items
    rwa [hs, topForm, OpenScope.form, hc] at hi
  have hext := extend_lawful law (hdone c hc) hitems j start next
  have all : LawfulAll ok ({ s with kind := .chain (c.extend b.items.toList j start next) } :: outer) :=
    ⟨hbefore, fun c' hc' => by cases hc'; exact hext, houter⟩
  unfold extendChain
  split
  · exact ⟨lawful_nil, all⟩
  · exact ⟨lawful_nil, all⟩

theorem join_lawful (law : Law ok) {b : Builder} (h : b.Lawful ok) (hs : b.Sound)
    (hr : b.mode = .regular) (j : Joiner) (start next : Position) :
    (b.join j start next).Lawful ok := by
  have hu : (b.foldTighter j start).Lawful ok := unwind_lawful law h hs _ _
  have su : (b.foldTighter j start).Sound := hs.unwind _ _
  have hm : (b.foldTighter j start).mode = .regular := (unwind_mode b).trans hr
  apply join_rule (P := Lawful ok)
  · exact fun _ => startChain_lawful law hu (plain_top (su.plain hm)) j _ _
  · exact fun s c outer hsc hc _ => extendChain_lawful law hu hsc hc j _ _

/-- Placing a lexeme keeps a law if the leaf that may be added is lawful where it is added. -/
theorem place_lawful (law : Law ok) {b : Builder} {l : Lexeme} {start : Position} {after : Cursor}
    (hl : l.occursIn b.mode) (hs : b.Sound) (h : b.Lawful ok)
    (leaf : ∀ content, content = .error ∨ (Lexeme.leaf content).occursIn b.mode →
      ok (topForm b.scopes) (.leaf start content)) : (b.place l start after).Lawful ok := by
  refine place_rule (P := Lawful ok) hl ?_ ?_ ?_ ?_ ?_ ?_ ?_ ?_ ?_
  · exact fun content hc => add_lawful h _ _ (leaf content (Or.inr hc))
  · exact fun hr => add_lawful h _ _ (leaf _ (Or.inr (by rw [hr]; rfl)))
  · exact fun _ _ => add_lawful (b := b.report _) (h.frame rfl rfl) _ _ (leaf _ (Or.inl rfl))
  · exact fun _ _ => add_lawful (b := b.report _) (h.frame rfl rfl) _ _ (leaf _ (Or.inl rfl))
  · exact fun d _ => openBlock_lawful h d _ _
  · exact fun d _ _ => close_lawful law h hs d _ _
  · exact fun _ => close_lawful law h hs _ _ _
  · intro w hr
    have su := hs.unwind (·.holds after.indent w.tier) (unclosedAt start w.spelling after.indent)
    exact wrapItems_lawful law (unwind_lawful law h hs _ _) (plain_top (su.plain (by simpa using hr))) w _
  · exact fun j hr => join_lawful law h hs hr j _ _

theorem finish_lawful (law : Law ok) {b : Builder} (h : b.Lawful ok) (hs : b.Sound)
    (stop : Position) : Tree.Lawful ok none (b.finish stop).items.toList := by
  have hu := (unwind_lawful law h hs (fun _ => false) (fun s =>
    (Diagnostic.error s.pos .unclosedBracket).withNote stop .endOfInput)).items
  have hn : topForm (b.finish stop).scopes = none := by rw [finish_scopes, topForm]
  exact hn ▸ hu

end Builder

end NamespaceLang

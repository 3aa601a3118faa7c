import NamespaceLang.Proofs.Body.Parts
import NamespaceLang.Proofs.Tree.Orderly
import NamespaceLang.Proofs.Tree.Strings

/-!
# Chains stand alone

The operands and operators of a chain take turns, they stand in chains and
nowhere else, and beside a chain there is nothing. Between two lexemes no list
that may still grow holds a chain: whoever folds one puts it at once into an
operand, a wrapped block or the bracket that ends, and a chain that is folded
binds tighter than the one it becomes an operand of. So readers of a list may
look at its first item alone.
-/

set_option autoImplicit false

namespace NamespaceLang

open OpenScope

namespace Tree

def chainTier? : Tree → Option Nat
  | .group _ (.chain _ tier) _ => some tier
  | _ => none

/-- Whether the node is neither a chain nor one of its parts. -/
def isFree (node : Tree) : Bool := node.chainTier?.isNone && !node.isOperand && !node.isOperator

def Free (nodes : List Tree) : Prop := ∀ node ∈ nodes, node.isFree = true

/-- Operands and operators by turns, an operand first and last. -/
def Alternating : List Tree → Prop
  | [] => False
  | [operand] => operand.isOperand = true
  | operand :: operator :: rest =>
    operand.isOperand = true ∧ operator.isOperator = true ∧ Alternating rest

/-- Chains that are items of the operands bind tighter than `tier`. -/
def Tighter (tier : Nat) (operands : List Tree) : Prop :=
  ∀ operand ∈ operands, ∀ item ∈ operand.items, ∀ own ∈ item.chainTier?, tier < own

/-- How items stand in the file or in a node. -/
def Arranged : Option Form → List Tree → Prop
  | some (.chain _ tier), items =>
    3 ≤ items.length ∧ items.length % 2 = 1 ∧ Alternating items ∧ Tighter tier items
  | _, items => Free items ∨ ∃ chain, items = [chain] ∧ chain.chainTier?.isSome = true

/-- The items of all groups among the nodes, and below them, are arranged. -/
def Whole (nodes : List Tree) : Prop :=
  ∀ node ∈ preorderAll nodes, ∀ form ∈ node.form?, Arranged (some form) node.items

theorem alternating_odd : {items : List Tree} → Alternating items → items.length % 2 = 1
  | [_], _ => rfl
  | _ :: _ :: rest, h => by
    have inner := alternating_odd h.2.2
    simp only [List.length_cons]
    omega

theorem free_append (left right : List Tree) : Free (left ++ right) ↔ Free left ∧ Free right := by
  simp only [Free, List.mem_append, or_imp, forall_and]

theorem tighter_append (tier : Nat) (left right : List Tree) :
    Tighter tier (left ++ right) ↔ Tighter tier left ∧ Tighter tier right := by
  simp only [Tighter, List.mem_append, or_imp, forall_and]

def Paired : List Tree → Prop
  | [] => True
  | [_] => False
  | operand :: operator :: rest =>
    operand.isOperand = true ∧ operator.isOperator = true ∧ Paired rest

theorem Paired.snoc {operand operator : Tree} (ho : operand.isOperand = true)
    (hr : operator.isOperator = true) :
    {done : List Tree} → Paired done → Paired (done ++ [operand, operator])
  | [], _ => ⟨ho, hr, trivial⟩
  | _ :: _ :: _, h => ⟨h.1, h.2.1, Paired.snoc ho hr h.2.2⟩

theorem Paired.alternating {last : Tree} (hl : last.isOperand = true) :
    {done : List Tree} → Paired done → Alternating (done ++ [last])
  | [], _ => hl
  | _ :: _ :: _, h => ⟨h.1, h.2.1, Paired.alternating hl h.2.2⟩

theorem Paired.two_le : {done : List Tree} → Paired done → done ≠ [] → 2 ≤ done.length
  | [], _, hn => absurd rfl hn
  | _ :: _ :: _, _, _ => Nat.le_add_left 2 _

theorem free_of_isBlank {node : Tree} (h : node.isBlank = true) : node.isFree = true := by
  cases node with
  | leaf pos content =>
    cases content with
    | whitespace newline => rfl
    | _ => cases h
  | group pos form items => cases h

theorem whole_nil : Whole [] := by simp [Whole, preorderAll]

theorem whole_append (left right : List Tree) : Whole (left ++ right) ↔ Whole left ∧ Whole right := by
  simp only [Whole, preorderAll_append, List.mem_append, or_imp, forall_and]

theorem whole_leaf (pos : Position) (content : Leaf) : Whole [.leaf pos content] := by
  simp [Whole, preorderAll, preorder, form?]

theorem whole_group (pos : Position) (form : Form) (items : List Tree) :
    Whole [.group pos form items] ↔ Arranged (some form) items ∧ Whole items := by
  simp [Whole, preorderAll, preorder, form?, Tree.items]

theorem Whole.part {part nodes : List Tree} (h : Whole nodes) (hp : part ⊆ nodes) : Whole part :=
  fun node hn => h node (preorderAll_mono hp hn)

theorem Free.part {part nodes : List Tree} (h : Free nodes) (hp : part ⊆ nodes) : Free part :=
  fun node hn => h node (hp hn)

theorem Free.none_chain {nodes : List Tree} (h : Free nodes) {node : Tree} (hm : node ∈ nodes) :
    node.chainTier? = none := by
  have free := h node hm
  simp only [isFree, Bool.and_eq_true, Option.isNone_iff_eq_none] at free
  exact free.1.1

end Tree

open NamespaceLang.Tree

structure OperandOf (tier : Nat) (items : List Tree) : Prop where
  whole : Whole items
  arranged : Arranged none items
  tighter : ∀ item ∈ items, ∀ own ∈ item.chainTier?, tier < own

theorem Tree.Free.operandOf {items : List Tree} (h : Free items) (hw : Whole items) (tier : Nat) :
    OperandOf tier items where
  whole := hw
  arranged := Or.inl h
  tighter := by
    intro item hm own ho
    rw [h.none_chain hm] at ho
    cases ho

theorem Tree.operandOf_chain {chain : Tree} {tier own : Nat} (hc : chain.chainTier? = some own)
    (hw : Whole [chain]) (lt : tier < own) : OperandOf tier [chain] where
  whole := hw
  arranged := Or.inr ⟨chain, rfl, by rw [hc]; rfl⟩
  tighter := by
    intro item hm other ho
    rw [List.mem_singleton.1 hm, hc] at ho
    cases ho
    exact lt

structure OpenChain.Regular (c : OpenChain) : Prop where
  paired : Paired c.done.toList
  tighter : Tighter c.tier c.done.toList
  whole : Whole c.done.toList

namespace OpenChain.Regular

variable {c : OpenChain} {items : List Tree}

theorem operand (h : c.Regular) (hi : OperandOf c.tier items) :
    Tighter c.tier (c.done.toList ++ [segment items c.operandStart]) ∧
      Whole (c.done.toList ++ [segment items c.operandStart]) := by
  refine ⟨(tighter_append _ _ _).2 ⟨h.tighter, ?_⟩, (whole_append _ _).2 ⟨h.whole, ?_⟩⟩
  · intro node hm
    rw [List.mem_singleton.1 hm]
    exact hi.tighter
  · exact (whole_group _ _ _).2 ⟨hi.arranged, hi.whole⟩

theorem extend (h : c.Regular) (hi : OperandOf c.tier items) (j : Joiner) (start next : Position) :
    (c.extend items j start next).Regular ∧ (c.extend items j start next).done.toList ≠ [] := by
  have grown := h.operand hi
  have done := c.done_extend items j start next
  refine ⟨⟨?_, ?_, ?_⟩, by simp [done]⟩
  · rw [done]
    exact h.paired.snoc rfl rfl
  · rw [done, List.append_cons]
    refine (tighter_append _ _ _).2 ⟨grown.1, ?_⟩
    simp [Tighter, Tree.items]
  · rw [done, List.append_cons]
    exact (whole_append _ _).2 ⟨grown.2, whole_leaf _ _⟩

end OpenChain.Regular

namespace OpenScope

structure Waits (s : OpenScope) : Prop where
  free : Free s.before.toList
  whole : Whole s.before.toList
  chain : ∀ c, s.kind = .chain c → c.Regular ∧ c.done.toList ≠ []

theorem Waits.tree_chain {s : OpenScope} {c : OpenChain} {items : List Tree} (h : s.Waits)
    (hk : s.kind = .chain c) (hi : OperandOf c.tier items) :
    (s.tree items).chainTier? = some c.tier ∧ Whole [s.tree items] := by
  obtain ⟨regular, begun⟩ := h.chain c hk
  have grown := regular.operand hi
  have long := regular.paired.two_le begun
  simp only [tree, hk, Array.toList_push]
  have operand : (segment items c.operandStart).isOperand = true := rfl
  have turns := regular.paired.alternating operand
  refine ⟨rfl, (whole_group _ _ _).2 ⟨⟨?_, alternating_odd turns, turns, grown.1⟩, grown.2⟩⟩
  rw [List.length_append, List.length_singleton]
  omega

theorem tree_block {s : OpenScope} {items : List Tree} (hb : s.isBlock = true) (hw : Whole items)
    (ha : Arranged none items) : (s.tree items).isFree = true ∧ Whole [s.tree items] := by
  obtain ⟨pos, indent, kind, before⟩ := s
  cases kind with
  | block d => exact ⟨rfl, (whole_group _ _ _).2 ⟨ha, hw⟩⟩
  | chain c => cases hb

end OpenScope

namespace Builder

/-- No list that may still grow holds a chain. -/
structure Tidy (b : Builder) : Prop where
  free : Free b.items.toList
  whole : Whole b.items.toList
  scopes : ∀ s ∈ b.scopes, s.Waits

theorem empty_tidy : Builder.empty.Tidy :=
  ⟨by simp [Free, empty], whole_nil, by simp [empty]⟩

theorem Tidy.frame {b later : Builder} (h : b.Tidy) (hi : later.items = b.items)
    (hs : later.scopes = b.scopes) : later.Tidy :=
  ⟨hi ▸ h.free, hi ▸ h.whole, hs ▸ h.scopes⟩

theorem Tidy.add {b : Builder} (h : b.Tidy) (pos : Position) (content : Leaf)
    (hc : Tree.isFree (.leaf pos content) = true) : (b.add (.leaf pos content)).Tidy where
  free := by
    simp only [Builder.add, Array.toList_push]
    refine (free_append _ _).2 ⟨h.free, ?_⟩
    intro node hm
    rwa [List.mem_singleton.1 hm]
  whole := by
    simp only [Builder.add, Array.toList_push]
    exact (whole_append _ _).2 ⟨h.whole, whole_leaf _ _⟩
  scopes := h.scopes

/-- While scopes are folded the items may be one chain: that of a scope that did not stay. -/
structure Resting (stays : OpenScope → Bool) (b : Builder) : Prop where
  whole : Whole b.items.toList
  scopes : ∀ s ∈ b.scopes, s.Waits
  nested : Nested b.scopes
  items : Free b.items.toList ∨ ∃ s c chain, stays s = false ∧ s.kind = .chain c ∧
    s.Fits b.scopes ∧ b.items.toList = [chain] ∧ chain.chainTier? = some c.tier

section

variable {stays : OpenScope → Bool} {b : Builder}

theorem Tidy.resting (h : b.Tidy) (hs : b.Sound) : Resting stays b :=
  ⟨h.whole, h.scopes, hs.nested, Or.inl h.free⟩

theorem Resting.tidy (h : Resting stays b) (hf : Free b.items.toList) : b.Tidy :=
  ⟨hf, h.whole, h.scopes⟩

theorem Resting.arranged (h : Resting stays b) : Arranged none b.items.toList := by
  rcases h.items with free | ⟨_, c, chain, -, -, -, hi, ht⟩
  · exact Or.inl free
  · exact Or.inr ⟨chain, hi, by rw [ht]; rfl⟩

theorem Resting.operandOf (h : Resting stays b) {tier : Nat}
    (looser : ∀ (s : OpenScope) (c : OpenChain), stays s = false → s.kind = .chain c →
      s.Fits b.scopes → tier < c.tier) : OperandOf tier b.items.toList := by
  rcases h.items with free | ⟨s, c, chain, hst, hk, hf, hi, ht⟩
  · exact free.operandOf h.whole tier
  · have hw := h.whole
    rw [hi] at hw ⊢
    exact operandOf_chain ht hw (looser s c hst hk hf)

theorem topTier_lt_of_fits {s : OpenScope} {c : OpenChain} {outer : List OpenScope}
    (hf : s.Fits outer) (hk : s.kind = .chain c) :
    s.before = #[] ∧ s.indent = topIndent outer ∧ topTier outer < c.tier := by
  rw [Fits, hk] at hf
  exact ⟨hf.1, hf.2.1, hf.2.2.1⟩

theorem Resting.fold_block (h : Resting stays b) {s : OpenScope} {outer : List OpenScope}
    (hs : b.scopes = s :: outer) (hb : s.isBlock = true) : (b.fold s outer).Tidy := by
  have waits : s.Waits := h.scopes s (hs ▸ List.mem_cons_self)
  have node := tree_block hb h.whole h.arranged
  refine ⟨?_, ?_, fun t ht => h.scopes t (hs ▸ List.mem_cons_of_mem s ht)⟩
  · simp only [fold, Array.toList_push]
    refine (free_append _ _).2 ⟨waits.free, ?_⟩
    intro other hm
    rw [List.mem_singleton.1 hm]
    exact node.1
  · simp only [fold, Array.toList_push]
    exact (whole_append _ _).2 ⟨waits.whole, node.2⟩

theorem Resting.fold (h : Resting stays b) {s : OpenScope} {outer : List OpenScope}
    (hs : b.scopes = s :: outer) (hst : stays s = false) : Resting stays (b.fold s outer) := by
  have nested : Nested (s :: outer) := hs ▸ h.nested
  cases hk : s.kind with
  | block d =>
    have tidy := h.fold_block hs (by rw [isBlock, hk])
    exact ⟨tidy.whole, tidy.scopes, nested.2, Or.inl tidy.free⟩
  | chain c =>
    have waits : s.Waits := h.scopes s (hs ▸ List.mem_cons_self)
    have operand : OperandOf c.tier b.items.toList := by
      refine h.operandOf fun inner c' _ hk' hf => ?_
      have lt := (topTier_lt_of_fits hf hk').2.2
      rw [hs, topTier, OpenScope.tier, hk] at lt
      exact lt
    have node := waits.tree_chain hk operand
    have items : (b.fold s outer).items.toList = [s.tree b.items.toList] := by
      simp [Builder.fold, (topTier_lt_of_fits nested.1 hk).1]
    refine ⟨items ▸ node.2, fun t ht => h.scopes t (hs ▸ List.mem_cons_of_mem s ht), nested.2, ?_⟩
    exact Or.inr ⟨s, c, _, hst, hk, nested.1, items, node.1⟩

theorem Tidy.unwind (h : b.Tidy) (hs : b.Sound) (complaint : OpenScope → Diagnostic) :
    Resting stays (b.unwind stays complaint) := by
  refine (unwind_rule (P := Resting stays) ?_ (h.resting hs)).1
  intro later s outer hsc hst resting
  unfold foldOnce
  split
  · have reported : Resting stays (later.report (complaint s)) :=
      ⟨resting.whole, resting.scopes, resting.nested, resting.items⟩
    exact reported.fold hsc hst
  · exact resting.fold hsc hst

end

theorem openBlock_tidy {b : Builder} (h : b.Tidy) (d : Delimiter) (start : Position)
    (indent : Int) : (b.openBlock d start indent).Tidy := by
  unfold openBlock
  split
  · exact h.frame rfl rfl
  · refine ⟨by simp [Free, enter], whole_nil, ?_⟩
    intro s hm
    rcases List.mem_cons.1 hm with rfl | hm
    · exact ⟨h.free, h.whole, fun c hc => by cases hc⟩
    · exact h.scopes s hm

theorem close_bracket_tidy {b : Builder} (h : b.Tidy) (hs : b.Sound) {d : Delimiter}
    (hd : d ≠ .quote) (start : Position) {indent : Int} (line : 0 ≤ indent) :
    (b.close d start indent).Tidy := by
  have loosest : d.tier = 0 := by
    cases d with
    | quote => exact absurd rfl hd
    | round | square | curly => rfl
  have resting : Resting _ (b.foldToCloser d start indent) := h.unwind hs _
  apply close_rule (P := Tidy)
  · intro s outer hsc closed
    have block : s.isBlock = true := by
      unfold closedBy at closed
      unfold isBlock
      split at closed
      · rfl
      · cases closed
    exact (resting.fold_block hsc block).frame rfl rfl
  · intro none_closed
    refine (resting.tidy (resting.items.resolve_right ?_)).frame rfl rfl
    rintro ⟨s, c, -, left, hk, hf, -⟩
    -- the scope around the chain is as far in as the chain, so that it cannot stay open either
    have level := (topTier_lt_of_fits hf hk).2.1
    simp only [loosest, Bool.or_eq_false_iff, holds, decide_eq_false_iff_not] at left
    cases hsc : (b.foldToCloser d start indent).scopes with
    | nil =>
      rw [hsc] at level
      have outside : s.indent = -1 := level
      omega
    | cons top outer =>
      have stays := unwind_head b top outer hsc
      have open_ := none_closed top (by rw [hsc]; rfl)
      simp only [open_, holds, loosest, Nat.not_lt_zero, decide_false, Bool.or_false, Bool.false_or,
        decide_eq_true_eq] at stays
      rw [hsc] at level
      have same : s.indent = top.indent := level
      omega

theorem close_quote_tidy {b : Builder} (h : b.Tidy) (hs : b.Sound) (start : Position)
    (indent : Int) : (b.close .quote start indent).Tidy := by
  cases ht : topIsString b.scopes with
  | false =>
    rw [close_quote_outside hs ht]
    exact h.frame rfl rfl
  | true =>
    cases hsc : b.scopes with
    | nil => simp [hsc, topIsString] at ht
    | cons s outer =>
      have hq : s.isString = true := by rwa [hsc] at ht
      have block : s.isBlock = true := by rw [isBlock, kind_of_isString hq]
      have resting : Resting (fun _ => false) b := h.resting hs
      rw [close_quote_inside hs hsc hq]
      split
      · exact (resting.fold_block hsc block).frame rfl rfl
      · split
        · exact h.frame rfl rfl
        · unfold foldOnce
          rw [if_pos block]
          exact (resting.fold_block hsc block).frame rfl rfl

theorem wrap_tidy {b : Builder} (h : b.Tidy) (hs : b.Sound) (w : Wrapper) (start : Position)
    (indent : Int) : (b.wrap w start indent).Tidy := by
  have resting : Resting _ (b.unwind (·.holds indent w.tier) (unclosedAt start w.spelling indent)) :=
    h.unwind hs _
  rw [wrap]
  generalize b.unwind _ _ = u at resting
  have arranged : Arranged none (trimStart u.items.toList) := by
    rcases resting.items with free | ⟨_, c, chain, -, -, -, hi, ht⟩
    · exact Or.inl (free.part (List.dropWhile_sublist _).subset)
    · have solid : chain.isBlank = false := by
        cases chain with
        | leaf pos content => cases ht
        | group pos form items => rfl
      exact Or.inr ⟨chain, by simp [hi, trimStart, solid], by rw [ht]; rfl⟩
  refine ⟨?_, ?_, resting.scopes⟩
  · simp only [wrapItems, Array.toList_push]
    refine (free_append _ _).2 ⟨fun node hm => free_of_isBlank (List.all_eq_true.1 List.all_takeWhile node hm), ?_⟩
    intro node hm
    rw [List.mem_singleton.1 hm]
    rfl
  · simp only [wrapItems, Array.toList_push]
    refine (whole_append _ _).2 ⟨resting.whole.part (List.takeWhile_sublist _).subset, ?_⟩
    exact (whole_group _ _ _).2 ⟨arranged, resting.whole.part (List.dropWhile_sublist _).subset⟩

theorem startChain_tidy {b : Builder} (h : ∀ s ∈ b.scopes, s.Waits) (j : Joiner)
    (hi : OperandOf j.tier b.items.toList) (start next : Position) :
    (b.startChain j start next).Tidy := by
  have fresh : (⟨j.tag, j.tier, #[], start, start⟩ : OpenChain).Regular :=
    ⟨trivial, by simp [Tighter], whole_nil⟩
  refine ⟨by simp [Free, startChain], whole_nil, ?_⟩
  intro s hm
  rcases List.mem_cons.1 hm with rfl | hm
  · exact ⟨by simp [Free], whole_nil, fun c hc => by cases hc; exact fresh.extend hi j start next⟩
  · exact h s hm

theorem extendChain_tidy {b : Builder} (h : ∀ s ∈ b.scopes, s.Waits) {s : OpenScope}
    {c : OpenChain} {outer : List OpenScope} (hs : b.scopes = s :: outer) (hk : s.kind = .chain c)
    (hi : OperandOf c.tier b.items.toList) (j : Joiner) (start next : Position) :
    (b.extendChain s c outer j start next).Tidy := by
  have waits : s.Waits := h s (hs ▸ List.mem_cons_self)
  have all : ∀ t ∈ { s with kind := .chain (c.extend b.items.toList j start next) } :: outer,
      t.Waits := by
    intro t hm
    rcases List.mem_cons.1 hm with rfl | hm
    · refine ⟨waits.free, waits.whole, fun c' hc => ?_⟩
      cases hc
      exact (waits.chain c hk).1.extend hi j start next
    · exact h t (hs ▸ List.mem_cons_of_mem s hm)
  unfold extendChain
  split
  · exact ⟨by simp [Free], whole_nil, all⟩
  · exact ⟨by simp [Free], whole_nil, all⟩

theorem join_tidy {b : Builder} (h : b.Tidy) (hs : b.Sound) (j : Joiner) (start next : Position) :
    (b.join j start next).Tidy := by
  have resting : Resting (·.tier ≤ j.tier) (b.foldTighter j start) := h.unwind hs _
  have operand : OperandOf j.tier (b.foldTighter j start).items.toList := by
    refine resting.operandOf fun s c left hk _ => ?_
    have tighter := of_decide_eq_false left
    rw [OpenScope.tier, hk] at tighter
    exact Nat.lt_of_not_le tighter
  apply join_rule (P := Tidy)
  · exact fun _ => startChain_tidy resting.scopes j operand _ _
  · intro s c outer hsc hk same
    exact extendChain_tidy resting.scopes hsc hk (same ▸ operand) j _ _

theorem place_tidy {b : Builder} {l : Lexeme} {start : Position} {after : Cursor}
    (hl : l.occursIn b.mode) (hs : b.Sound) (h : b.Tidy) : (b.place l start after).Tidy := by
  refine place_rule (P := Tidy) hl ?_ ?_ ?_ ?_ ?_ ?_ ?_ ?_ ?_
  · intro content hc
    apply h.add
    cases content with
    | operator spelling => cases hm : b.mode <;> simp [hm, Lexeme.occursIn] at hc
    | _ => rfl
  · exact fun _ => h.add _ _ rfl
  · exact fun _ _ => Tidy.add (b := b.report _) (h.frame rfl rfl) _ _ rfl
  · exact fun _ _ => Tidy.add (b := b.report _) (h.frame rfl rfl) _ _ rfl
  · exact fun d _ => openBlock_tidy h d _ _
  · exact fun d hd _ => close_bracket_tidy h hs hd _ (Int.natCast_nonneg _)
  · exact fun _ => close_quote_tidy h hs _ _
  · exact fun w _ => wrap_tidy h hs w _ _
  · exact fun j _ => join_tidy h hs j _ _

end Builder

theorem reading_tidy {file : String} {text : List Char} {b : Builder} {c : Cursor}
    (h : Reading file text b c) : b.Tidy :=
  (reading_invariant (P := fun b => b.Sound ∧ b.Tidy) ⟨Builder.empty_sound, Builder.empty_tidy⟩
    (fun _ _ _ _ hl _ h => ⟨Builder.place_sound hl h.1, Builder.place_tidy hl h.1 h.2⟩) h).2

namespace Tree

theorem exists_of_isOperand {node : Tree} (h : node.isOperand = true) :
    ∃ pos items, node = .group pos .segment items := by
  unfold isOperand at h
  split at h
  · exact ⟨_, _, rfl⟩
  · cases h

theorem exists_of_isOperator {node : Tree} (h : node.isOperator = true) :
    ∃ pos spelling, node = .leaf pos (.operator spelling) := by
  unfold isOperator at h
  split at h
  · exact ⟨_, _, rfl⟩
  · cases h

theorem Alternating.none_chain :
    {items : List Tree} → Alternating items → ∀ item ∈ items, item.chainTier? = none
  | [operand], h, item, hm => by
    obtain ⟨pos, items, rfl⟩ := exists_of_isOperand h
    rw [List.mem_singleton.1 hm]
    rfl
  | operand :: operator :: rest, h, item, hm => by
    rcases List.mem_cons.1 hm with rfl | hm
    · obtain ⟨pos, items, rfl⟩ := exists_of_isOperand h.1
      rfl
    · rcases List.mem_cons.1 hm with rfl | hm
      · obtain ⟨at_, spelling, rfl⟩ := exists_of_isOperator h.2.1
        rfl
      · exact Alternating.none_chain h.2.2 item hm

theorem Arranged.eq_singleton {form : Option Form} {items : List Tree} (h : Arranged form items)
    {chain : Tree} (hm : chain ∈ items) (hc : chain.chainTier?.isSome = true) :
    items = [chain] := by
  have plain : (Free items ∨ ∃ chain, items = [chain] ∧ chain.chainTier?.isSome = true) →
      items = [chain] := by
    rintro (free | ⟨own, rfl, -⟩)
    · rw [free.none_chain hm] at hc
      cases hc
    · rw [List.mem_singleton.1 hm]
  rcases form with _ | _ | _ | _
  · exact plain h
  · exact plain h
  · exact plain h
  · rw [h.2.2.1.none_chain chain hm] at hc
    cases hc

/-- The list of a file, or the items of one of its nodes. -/
def ListOf (nodes items : List Tree) : Prop :=
  items = nodes ∨ ∃ node ∈ preorderAll nodes, items = node.items

theorem operandLines_of_alternating :
    {items : List Tree} → Alternating items → ∃ lines, operandLines items = .ok lines
  | [operand], h => by
    obtain ⟨pos, items, rfl⟩ := exists_of_isOperand h
    exact ⟨[⟨items, pos⟩], rfl⟩
  | operand :: operator :: rest, h => by
    obtain ⟨pos, items, rfl⟩ := exists_of_isOperand h.1
    obtain ⟨at_, spelling, rfl⟩ := exists_of_isOperator h.2.1
    obtain ⟨lines, read⟩ := operandLines_of_alternating h.2.2
    exact ⟨⟨items, pos⟩ :: lines, by simp [operandLines, read, Except.map]⟩

theorem Arranged.eq_of_trim {form : Option Form} {items : List Tree} (h : Arranged form items)
    {chain : Tree} {more : List Tree} (ht : trim items = chain :: more)
    (hc : chain.chainTier?.isSome = true) : items = [chain] ∧ more = [] := by
  have inside := trim_sublist items
  rw [ht] at inside
  have whole := h.eq_singleton (inside.subset List.mem_cons_self) hc
  rw [whole] at inside
  exact ⟨whole, List.length_eq_zero_iff.1 (Nat.le_zero.1 (Nat.le_of_succ_le_succ inside.length_le))⟩

/-- Lines are read off every list that is arranged. -/
theorem Arranged.splitLines {form : Option Form} {items : List Tree} (h : Arranged form items)
    (chains : ∀ chain ∈ items, ∀ tag tier, chain.form? = some (.chain tag tier) →
      Alternating chain.items) : ∃ lines?, NamespaceLang.splitLines items = .ok lines? := by
  unfold NamespaceLang.splitLines
  split
  · next pos tag tier parts more ht =>
    obtain ⟨rfl, rfl⟩ := h.eq_of_trim ht rfl
    split
    · have turns : Alternating parts := chains _ List.mem_cons_self tag tier rfl
      obtain ⟨lines, read⟩ := operandLines_of_alternating turns
      exact ⟨some lines, by simp only [read, Except.map]⟩
    · exact ⟨none, rfl⟩
  · exact ⟨none, rfl⟩

theorem Arranged.twoSided? {form : Option Form} {items : List Tree} (h : Arranged form items)
    {want : ChainTag → Bool} {pos : Position} {sides : TwoSided}
    (read : NamespaceLang.twoSided? want pos items = .ok (some sides)) :
    ∃ at_ tier, items = [.group at_ (.chain sides.tag tier) [sides.left, sides.mark, sides.right]] := by
  unfold NamespaceLang.twoSided? at read
  split at read
  · next at_ tag tier parts more ht =>
    obtain ⟨rfl, rfl⟩ := h.eq_of_trim ht rfl
    split at read
    · split at read
      · next left mark right =>
        simp only [Except.ok.injEq] at read
        split at read
        · cases read
          exact ⟨at_, tier, rfl⟩
        · cases read
      · cases read
    · cases read
  · cases read

theorem Whole.list {nodes items : List Tree} (hw : Whole nodes) (ha : Arranged none nodes)
    (h : ListOf nodes items) :
    (∃ form, Arranged form items) ∧ ∀ chain ∈ items, ∀ tag tier,
      chain.form? = some (.chain tag tier) → Alternating chain.items := by
  have inner : items ⊆ preorderAll nodes := by
    rcases h with rfl | ⟨node, hm, rfl⟩
    · exact subset_preorderAll items
    · exact items_subset_preorderAll nodes hm
  refine ⟨?_, fun chain hm tag tier hf => (hw chain (inner hm) _ hf).2.2.1⟩
  rcases h with rfl | ⟨node, hm, rfl⟩
  · exact ⟨none, ha⟩
  · cases node with
    | leaf pos content => exact ⟨none, Or.inl (by simp [Free, Tree.items])⟩
    | group pos form items => exact ⟨some form, hw _ hm form rfl⟩

end Tree

/-- In the tree of every text, well formed or not, the items of the file and of all groups are
arranged: a chain is all that its list holds, operands and operators stand by turns in chains and
nowhere else, and a chain in an operand binds tighter than the chain it is an operand in. So lines
can be split off every list, and where two sides are found nothing stands beside them. -/
theorem tokenize_arranged (file : String) (text : List Char) :
    Arranged none (tokenize file text).nodes ∧ Whole (tokenize file text).nodes ∧
      ∀ items, ListOf (tokenize file text).nodes items →
        (∃ lines?, splitLines items = .ok lines?) ∧
        ∀ want pos sides, twoSided? want pos items = .ok (some sides) →
          ∃ at_ tier, items =
            [.group at_ (.chain sides.tag tier) [sides.left, sides.mark, sides.right]] := by
  obtain ⟨b, c, read, -, nodes, -⟩ := tokenize_reading file text
  have resting : Builder.Resting (fun _ => false) (b.unwind (fun _ => false) _) :=
    (reading_tidy read).unwind (reading_sound read)
      (Builder.unclosedAtEnd c.position)
  rw [nodes]
  refine ⟨resting.arranged, resting.whole, fun items hl => ?_⟩
  obtain ⟨⟨form, arranged⟩, chains⟩ := resting.whole.list resting.arranged hl
  exact ⟨arranged.splitLines chains, fun _ _ _ read => arranged.twoSided? read⟩

end NamespaceLang

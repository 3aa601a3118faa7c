import NamespaceLang.Proofs.Tree.Alone
import NamespaceLang.Proofs.Tree.Rooted

/-!
# Mixed operators

A chain has the tag of its first operator, and a later operator of its tier joins it even if
its own tag is another one. Such an operator is told about, with a note on the first one. What
an operator is told of is settled where it is placed, by the chain as it is then; but a chain
keeps tag, tier and first operator however it grows, is suspended or ends, so what is told can
be read off the tree.
-/

set_option autoImplicit false

namespace NamespaceLang

def Joiner.ofSpelling? (text : String) : Option Joiner :=
  match Punctuator.ofSpelling? text with
  | some (.joiner j) => some j
  | _ => none

@[simp] theorem Joiner.ofSpelling?_spelling (j : Joiner) : ofSpelling? j.spelling = some j := by
  have listed : Punctuator.ofSpelling? j.spelling = some (.joiner j) :=
    Punctuator.ofSpelling?_spelling (.joiner j)
  rw [ofSpelling?, listed]

structure Sign where
  pos : Position
  spelling : String
  deriving DecidableEq, Repr

/-- What the operators of a chain have in common. -/
structure ChainHead where
  tag : ChainTag
  tier : Nat
  first : Sign
  deriving DecidableEq, Repr

structure OperatorNode where
  sign : Sign
  /-- The chain that it is an item of. -/
  chain? : Option ChainHead
  deriving DecidableEq, Repr

def Sign.node (s : Sign) : Tree := .leaf s.pos (.operator s.spelling)

namespace Tree

def sign? : Tree → Option Sign
  | .leaf pos (.operator spelling) => some ⟨pos, spelling⟩
  | _ => none

def signs (items : List Tree) : List Sign := items.filterMap sign?

end Tree

open OpenScope NamespaceLang.Tree

def Form.head? (items : List Tree) : Form → Option ChainHead
  | .chain tag tier => (signs items).head?.map (⟨tag, tier, ·⟩)
  | _ => none

namespace Tree

mutual

/-- The operators of a tree that is an item of `chain?`, in the order of the text. -/
def operators (chain? : Option ChainHead) : Tree → List OperatorNode
  | .leaf pos content => (sign? (.leaf pos content)).toList.map (⟨·, chain?⟩)
  | .group _ form items => operatorsAll (form.head? items) items

def operatorsAll (chain? : Option ChainHead) : List Tree → List OperatorNode
  | [] => []
  | node :: rest => node.operators chain? ++ operatorsAll chain? rest

end

variable {chain? : Option ChainHead}

@[simp] theorem operatorsAll_append (left right : List Tree) :
    operatorsAll chain? (left ++ right) = operatorsAll chain? left ++ operatorsAll chain? right := by
  induction left with
  | nil => rfl
  | cons node left ih => simp [operatorsAll, ih]

theorem operatorsAll_singleton (node : Tree) :
    operatorsAll chain? [node] = node.operators chain? := by
  simp [operatorsAll]

theorem sign?_eq_some {node : Tree} {sign : Sign} (h : node.sign? = some sign) : node = sign.node := by
  unfold sign? at h
  split at h
  · cases h
    rfl
  · cases h

theorem mem_signs {sign : Sign} {items : List Tree} : sign ∈ signs items ↔ sign.node ∈ items := by
  rw [signs, List.mem_filterMap]
  constructor
  · rintro ⟨node, hm, hs⟩
    exact sign?_eq_some hs ▸ hm
  · exact fun hm => ⟨sign.node, hm, rfl⟩

mutual

theorem operators_nodes (chain? : Option ChainHead) : (node : Tree) →
    (node.operators chain?).map (·.sign.node) = node.preorder.filter isOperator
  | .leaf pos content => by cases content <;> rfl
  | .group pos form items => operatorsAll_nodes (form.head? items) items

theorem operatorsAll_nodes (chain? : Option ChainHead) : (nodes : List Tree) →
    (operatorsAll chain? nodes).map (·.sign.node) = (preorderAll nodes).filter isOperator
  | [] => rfl
  | node :: rest => by
    rw [operatorsAll, preorderAll, List.map_append, List.filter_append, operators_nodes chain? node,
      operatorsAll_nodes chain? rest]

end

def Holds (chain? : Option ChainHead) (nodes : List Tree) (o : OperatorNode) : Prop :=
  (o.chain? = chain? ∧ o.sign ∈ signs nodes) ∨
    ∃ node ∈ preorderAll nodes, ∃ form ∈ node.form?,
      o.chain? = form.head? node.items ∧ o.sign ∈ signs node.items

variable {o : OperatorNode}

theorem holds_append (left right : List Tree) :
    Holds chain? (left ++ right) o ↔ Holds chain? left o ∨ Holds chain? right o := by
  simp only [Holds, preorderAll_append, mem_signs, List.mem_append, or_and_right, and_or_left,
    exists_or]
  exact or_or_or_comm

theorem holds_leaf (pos : Position) (content : Leaf) :
    Holds chain? [.leaf pos content] o ↔ o ∈ (Tree.leaf pos content).operators chain? := by
  obtain ⟨sign, own⟩ := o
  cases content <;> simp [Holds, operators, signs, sign?, preorderAll, preorder, form?, and_comm, eq_comm]

theorem holds_group (pos : Position) (form : Form) (items : List Tree) :
    Holds chain? [.group pos form items] o ↔ Holds (form.head? items) items o := by
  simp [Holds, signs, sign?, preorderAll, preorder, form?, Tree.items]

mutual

theorem mem_operators {chain? : Option ChainHead} :
    (node : Tree) → (o ∈ node.operators chain? ↔ Holds chain? [node] o)
  | .leaf pos content => (holds_leaf pos content).symm
  | .group pos form items => by rw [holds_group, operators, mem_operatorsAll items]

theorem mem_operatorsAll {chain? : Option ChainHead} :
    (nodes : List Tree) → (o ∈ operatorsAll chain? nodes ↔ Holds chain? nodes o)
  | [] => by simp [operatorsAll, Holds, signs, preorderAll]
  | node :: rest => by
    rw [operatorsAll, List.mem_append, mem_operators node, mem_operatorsAll rest]
    exact (holds_append [node] rest).symm

end

end Tree

namespace OperatorNode

/-- What is told of an operator whose own tag is not that of its chain. -/
def mixed? (o : OperatorNode) : Option Diagnostic :=
  match Joiner.ofSpelling? o.sign.spelling, o.chain? with
  | some own, some chain =>
    if own.tag = chain.tag then none
    else some ((Diagnostic.error o.sign.pos .mixedOperators).withNote chain.first.pos .previousOperator)
  | _, _ => none

/-- The operator is in a chain, and of its tier. The chain has the tag of its first operator. -/
def Belongs (o : OperatorNode) : Prop :=
  ∃ chain own first, o.chain? = some chain ∧ Joiner.ofSpelling? o.sign.spelling = some own ∧
    Joiner.ofSpelling? chain.first.spelling = some first ∧
    own.tier = chain.tier ∧ first.tag = chain.tag

end OperatorNode

namespace Diagnostic

def tellsMixed (d : Diagnostic) : Bool := d.message == "mixing operators disallowed"

variable {pos : Position} {cause : Cause}

theorem not_tellsMixed (h : cause.message ≠ Cause.mixedOperators.message) :
    (Diagnostic.error pos cause).tellsMixed = false := beq_eq_false_iff_ne.2 h

theorem noted_not_tellsMixed (h : cause.message ≠ Cause.mixedOperators.message) (noted : Position)
    (note : Cause) : ((Diagnostic.error pos cause).withNote noted note).tellsMixed = false :=
  not_tellsMixed h

theorem unclosedBracket_not_mixed :
    Cause.unclosedBracket.message ≠ Cause.mixedOperators.message := by decide

end Diagnostic

namespace OpenChain

def head? (c : OpenChain) : Option ChainHead := Form.head? c.done.toList (.chain c.tag c.tier)

def Headed (c : OpenChain) : Prop :=
  ∃ j : Joiner, c.head? = some ⟨c.tag, c.tier, c.firstOperator, j.spelling⟩ ∧ j.tag = c.tag

/-- Only the first operator of a chain decides what it has in common with the others. -/
theorem head?_extend (c : OpenChain) (items : List Tree) (j : Joiner) (start next : Position) :
    (c.extend items j start next).head? =
      c.head?.or (some ⟨c.tag, c.tier, start, j.spelling⟩) := by
  have later : signs (c.extend items j start next).done.toList =
      signs c.done.toList ++ [⟨start, j.spelling⟩] := by
    rw [signs, done_extend, List.filterMap_append]
    rfl
  simp only [head?, Form.head?, later, List.head?_append, Option.map_or]
  rfl

theorem operators_extend (chain? : Option ChainHead) (c : OpenChain) (items : List Tree) (j : Joiner)
    (start next : Position) :
    operatorsAll chain? (c.extend items j start next).done.toList =
      operatorsAll chain? c.done.toList ++
        (operatorsAll none items ++ [⟨⟨start, j.spelling⟩, chain?⟩]) := by
  rw [done_extend, operatorsAll_append]
  rfl

end OpenChain

namespace OpenScope

def operators (s : OpenScope) : List OperatorNode :=
  operatorsAll none s.before.toList ++
    match s.kind with
    | .block _ => []
    | .chain c => operatorsAll c.head? c.done.toList

def operatorsOut : List OpenScope → List OperatorNode
  | [] => []
  | s :: outer => operatorsOut outer ++ s.operators

theorem operators_tree (s : OpenScope) (items : List Tree) :
    operatorsAll none s.before.toList ++ (s.tree items).operators none =
      s.operators ++ operatorsAll none items := by
  obtain ⟨pos, indent, kind, before⟩ := s
  cases kind with
  | block d => simp [OpenScope.operators, tree, Tree.operators, Form.head?]
  | chain c =>
    have same : signs (c.done.toList ++ [segment items c.operandStart]) = signs c.done.toList := by
      simp [signs, sign?, segment]
    have last (chain? : Option ChainHead) :
        (segment items c.operandStart).operators chain? = operatorsAll none items := rfl
    simp only [OpenScope.operators, OpenChain.head?, tree, Tree.operators, Array.toList_push,
      Form.head?, same, operatorsAll_append, operatorsAll_singleton, last, List.append_assoc]

end OpenScope

namespace Builder

def operators (b : Builder) : List OperatorNode :=
  operatorsOut b.scopes ++ operatorsAll none b.items.toList

/-- What was told of mixed operators can be read off what the builder holds. -/
structure Tells (b : Builder) : Prop where
  told : b.diagnostics.filter Diagnostic.tellsMixed = b.operators.filterMap OperatorNode.mixed?
  belongs : ∀ o ∈ b.operators, o.Belongs
  headed : ∀ s ∈ b.scopes, ∀ c, s.kind = .chain c → c.Headed

theorem empty_tells : Builder.empty.Tells :=
  ⟨rfl, fun _ ho => (by cases ho), fun _ hs => (by cases hs)⟩

variable {b later : Builder} {start next : Position}

theorem Tells.frame (h : b.Tells) (same : later.operators = b.operators)
    (told : later.diagnostics.filter Diagnostic.tellsMixed =
      b.diagnostics.filter Diagnostic.tellsMixed)
    (chains : ∀ s ∈ later.scopes, s ∈ b.scopes ∨ s.isBlock = true) : later.Tells where
  told := by rw [told, same, h.told]
  belongs := same ▸ h.belongs
  headed := by
    intro s hs c hk
    rcases chains s hs with old | block
    · exact h.headed s old c hk
    · rw [isBlock, hk] at block
      cases block

theorem Tells.report (h : b.Tells) {d : Diagnostic} (hd : d.tellsMixed = false) :
    (b.report d).Tells :=
  h.frame rfl (by simp [Builder.report, hd]) fun _ hs => .inl hs

theorem Tells.add (h : b.Tells) {node : Tree} (hn : node.operators none = []) : (b.add node).Tells :=
  h.frame (by simp [operators, Builder.add, operatorsAll_singleton, hn]) rfl fun _ hs => .inl hs

theorem operators_fold {s : OpenScope} {outer : List OpenScope} (hs : b.scopes = s :: outer) :
    (b.fold s outer).operators = b.operators := by
  have whole := operators_tree s b.items.toList
  simp only [operators, fold, hs, operatorsOut, Array.toList_push, operatorsAll_append,
    operatorsAll_singleton, List.append_assoc] at whole ⊢
  rw [whole]

theorem Tells.fold (h : b.Tells) {s : OpenScope} {outer : List OpenScope}
    (hs : b.scopes = s :: outer) : (b.fold s outer).Tells :=
  h.frame (operators_fold hs) rfl fun _ ht => .inl (hs ▸ List.mem_cons_of_mem s ht)

theorem Tells.unwind (h : b.Tells) (stays : OpenScope → Bool) {complaint : OpenScope → Diagnostic}
    (quiet : ∀ s, (complaint s).tellsMixed = false) : (b.unwind stays complaint).Tells := by
  refine (unwind_rule (P := Tells) ?_ h).1
  intro later s outer hs _ hl
  unfold foldOnce
  split
  · exact (hl.report (quiet s)).fold hs
  · exact hl.fold hs

theorem unclosedAt_quiet (found : String) (indent : Int) (s : OpenScope) :
    (unclosedAt start found indent s).tellsMixed = false :=
  Diagnostic.noted_not_tellsMixed Diagnostic.unclosedBracket_not_mixed _ _

theorem Tells.openBlock (h : b.Tells) (d : Delimiter) (indent : Int) :
    (b.openBlock d start indent).Tells := by
  unfold Builder.openBlock
  split
  · have deep : Cause.nestingTooDeep.message ≠ Cause.mixedOperators.message := by
      show _ ++ _ ++ _ ≠ _
      rw [String.append_assoc]
      exact Diagnostic.append_ne (by decide)
    exact (h.report (Diagnostic.not_tellsMixed deep)).frame rfl rfl fun _ hs => .inl hs
  · refine h.frame ?_ rfl fun s hs => ?_
    · simp [operators, enter, operatorsOut, OpenScope.operators, operatorsAll]
    · rcases List.mem_cons.1 hs with rfl | hs
      · exact .inr rfl
      · exact .inl hs

theorem Tells.close (h : b.Tells) (d : Delimiter) (indent : Int) :
    (b.close d start indent).Tells := by
  have folded : (b.foldToCloser d start indent).Tells := h.unwind _ (unclosedAt_quiet _ _)
  apply close_rule (P := Tells)
  · exact fun s outer ho _ => (folded.fold ho).frame rfl rfl fun _ hs => .inl hs
  · exact fun _ => folded.report (Diagnostic.not_tellsMixed (by decide))

theorem operators_wrapItems (w : Wrapper) : (b.wrapItems w start).operators = b.operators := by
  have parted : b.items.toList.takeWhile Tree.isBlank ++ trimStart b.items.toList =
      b.items.toList := List.takeWhile_append_dropWhile
  have all := congrArg (operatorsAll none) parted
  rw [operatorsAll_append] at all
  simp only [operators, wrapItems, Array.toList_push, operatorsAll_append, operatorsAll_singleton]
  exact congrArg (operatorsOut b.scopes ++ ·) all

theorem Tells.wrap (h : b.Tells) (w : Wrapper) (indent : Int) : (b.wrap w start indent).Tells := by
  have folded : (b.unwind (·.holds indent w.tier) (unclosedAt start w.spelling indent)).Tells :=
    h.unwind _ (unclosedAt_quiet _ _)
  exact folded.frame (operators_wrapItems w) rfl fun _ hs => .inl hs

theorem Tells.snoc (h : b.Tells) {o : OperatorNode} (more : later.operators = b.operators ++ [o])
    (belongs : o.Belongs)
    (told : later.diagnostics.filter Diagnostic.tellsMixed =
      b.diagnostics.filter Diagnostic.tellsMixed ++ o.mixed?.toList)
    (headed : ∀ s ∈ later.scopes, ∀ c, s.kind = .chain c → c.Headed) : later.Tells where
  told := by
    rw [told, more, List.filterMap_append, h.told]
    cases hm : o.mixed? <;> simp [hm]
  belongs := by
    rw [more]
    exact List.forall_mem_append.2 ⟨h.belongs, by simpa using belongs⟩
  headed := headed

theorem Tells.startChain (h : b.Tells) (j : Joiner) : (b.startChain j start next).Tells := by
  have head : (OpenChain.extend ⟨j.tag, j.tier, #[], start, start⟩ b.items.toList j start next).head? =
      some ⟨j.tag, j.tier, ⟨start, j.spelling⟩⟩ := OpenChain.head?_extend _ _ _ _ _
  refine h.snoc (o := ⟨⟨start, j.spelling⟩, some ⟨j.tag, j.tier, ⟨start, j.spelling⟩⟩⟩) ?_
    ⟨_, j, j, rfl, j.ofSpelling?_spelling, j.ofSpelling?_spelling, rfl, rfl⟩ ?_ ?_
  · simp only [operators, Builder.startChain, operatorsOut, OpenScope.operators, head,
      OpenChain.operators_extend]
    simp [operatorsAll]
  · simp [Builder.startChain, OperatorNode.mixed?]
  · refine List.forall_mem_cons.2 ⟨fun c hk => ?_, h.headed⟩
    cases hk
    exact ⟨j, head, rfl⟩

theorem Tells.extendChain (h : b.Tells) {s : OpenScope} {c : OpenChain} {outer : List OpenScope}
    (ho : b.scopes = s :: outer) (hk : s.kind = .chain c) (j : Joiner) (same : c.tier = j.tier) :
    (b.extendChain s c outer j start next).Tells := by
  obtain ⟨first, begun, tag⟩ := h.headed s (ho ▸ List.mem_cons_self) c hk
  have head : (c.extend b.items.toList j start next).head? =
      some ⟨c.tag, c.tier, ⟨c.firstOperator, first.spelling⟩⟩ := by
    rw [OpenChain.head?_extend, begun]
    rfl
  refine h.snoc (o := ⟨⟨start, j.spelling⟩, some ⟨c.tag, c.tier, ⟨c.firstOperator, first.spelling⟩⟩⟩) ?_
    ⟨_, j, first, rfl, j.ofSpelling?_spelling, first.ofSpelling?_spelling, same.symm, tag⟩ ?_ ?_
  · rw [operators, extendChain_scopes]
    simp only [operators, ho, operatorsOut, OpenScope.operators, hk, head, begun,
      OpenChain.operators_extend]
    simp [Builder.extendChain, operatorsAll]
  · by_cases alike : c.tag = j.tag
    · simp [Builder.extendChain, OperatorNode.mixed?, alike]
    · have told : ((Diagnostic.error start .mixedOperators).withNote c.firstOperator
          .previousOperator).tellsMixed = true := rfl
      simp [Builder.extendChain, Builder.report, OperatorNode.mixed?, alike, Ne.symm alike, told]
  · rw [extendChain_scopes]
    refine List.forall_mem_cons.2 ⟨fun c' hk' => ?_, fun t ht => h.headed t (ho ▸ List.mem_cons_of_mem s ht)⟩
    cases hk'
    exact ⟨first, head, tag⟩

theorem Tells.join (h : b.Tells) (j : Joiner) : (b.join j start next).Tells := by
  have other : Cause.neverClosed.message ≠ Cause.mixedOperators.message := by decide
  have folded : (b.foldTighter j start).Tells :=
    h.unwind _ fun _ => Diagnostic.noted_not_tellsMixed other _ _
  apply join_rule (P := Tells)
  · exact fun _ => folded.startChain j
  · exact fun s c outer ho hk same => folded.extendChain ho hk j same

theorem Tells.place (h : b.Tells) {l : Lexeme} {after : Cursor} (hl : l.occursIn b.mode) :
    (b.place l start after).Tells := by
  refine place_rule (P := Tells) hl ?_ ?_ ?_ ?_ ?_ ?_ ?_ ?_ ?_
  · intro content hc
    apply h.add
    cases content with
    | operator spelling => cases hm : b.mode <;> simp [hm, Lexeme.occursIn] at hc
    | _ => rfl
  · exact fun _ => h.add rfl
  · intro found _
    have other : (Cause.badEscape found).message ≠ Cause.mixedOperators.message := by
      cases found with
      | none => exact (by decide : (Cause.badEscape none).message ≠ Cause.mixedOperators.message)
      | some c => exact Diagnostic.append_ne (by decide)
    exact (h.report (Diagnostic.not_tellsMixed other)).add rfl
  · intro spelling _
    have other : (Cause.badToken spelling).message ≠ Cause.mixedOperators.message :=
      Diagnostic.append_ne (by decide)
    exact (h.report (Diagnostic.not_tellsMixed other)).add rfl
  · exact fun d _ => h.openBlock d _
  · exact fun d _ _ => h.close d _
  · exact fun _ => h.close .quote _
  · exact fun w _ => h.wrap w _
  · exact fun j _ => h.join j

theorem Tells.finish (h : b.Tells) (stop : Position) : (b.finish stop).Tells :=
  h.unwind _ fun _ => Diagnostic.noted_not_tellsMixed Diagnostic.unclosedBracket_not_mixed _ _

theorem operators_finish (stop : Position) :
    (b.finish stop).operators = operatorsAll none (b.finish stop).items.toList := by
  rw [operators, finish_scopes, operatorsOut, List.nil_append]

end Builder

theorem reading_tells {label : String} {text : List Char} {b : Builder} {c : Cursor}
    (h : Reading label text b c) : b.Tells :=
  reading_invariant Builder.empty_tells (fun _ _ _ _ hl _ h => h.place hl) h

namespace OperatorNode

theorem Belongs.inChain {o : OperatorNode} (h : o.Belongs) {chain : ChainHead}
    (hc : o.chain? = some chain) :
    ∃ own first, Joiner.ofSpelling? o.sign.spelling = some own ∧
      Joiner.ofSpelling? chain.first.spelling = some first ∧
      own.tier = chain.tier ∧ first.tag = chain.tag := by
  obtain ⟨chain', own, first, hc', spelled⟩ := h
  rw [hc] at hc'
  cases hc'
  exact ⟨own, first, spelled⟩

theorem Belongs.mixed?_eq_none {o : OperatorNode} (h : o.Belongs) {chain : ChainHead}
    (hc : o.chain? = some chain) :
    o.mixed? = none ↔ ∃ own, Joiner.ofSpelling? o.sign.spelling = some own ∧ own.tag = chain.tag := by
  obtain ⟨own, -, spelled, -⟩ := h.inChain hc
  simp [mixed?, spelled, hc]

end OperatorNode

namespace Tree

theorem exists_sign : {items : List Tree} → Alternating items → 3 ≤ items.length →
    ∃ first more, signs items = first :: more
  | operand :: operator :: rest, h, _ => by
    obtain ⟨pos, spelling, rfl⟩ := exists_of_isOperator h.2.1
    obtain ⟨at_, inside, rfl⟩ := exists_of_isOperand h.1
    exact ⟨⟨pos, spelling⟩, signs rest, rfl⟩

structure Headed (tag : ChainTag) (tier : Nat) (items : List Tree) : Prop where
  tag : ∃ first own, (signs items).head? = some first ∧
    Joiner.ofSpelling? first.spelling = some own ∧ own.tag = tag
  tier : ∀ sign ∈ signs items, ∃ own, Joiner.ofSpelling? sign.spelling = some own ∧ own.tier = tier

def Homogeneous (tag : ChainTag) (items : List Tree) : Prop :=
  ∀ sign ∈ signs items, ∃ own, Joiner.ofSpelling? sign.spelling = some own ∧ own.tag = tag

variable {nodes : List Tree} {tag : ChainTag} {tier : Nat}

theorem mem_of_chain {node : Tree} (hn : node ∈ preorderAll nodes)
    (hf : node.form? = some (.chain tag tier)) {first : Sign} {more : List Sign}
    (hs : signs node.items = first :: more) :
    ∀ sign ∈ signs node.items, ⟨sign, some ⟨tag, tier, first⟩⟩ ∈ operatorsAll none nodes := by
  intro sign hm
  refine (mem_operatorsAll nodes).2 (.inr ⟨node, hn, _, hf, ?_, hm⟩)
  rw [Form.head?, hs]
  rfl

theorem chain_of_mem {o : OperatorNode} (ho : o ∈ operatorsAll none nodes) {chain : ChainHead}
    (hc : o.chain? = some chain) :
    ∃ node ∈ preorderAll nodes, node.form? = some (.chain chain.tag chain.tier) ∧
      o.sign ∈ signs node.items := by
  obtain ⟨outside, -⟩ | ⟨node, hn, form, hf, inside, hm⟩ := (mem_operatorsAll nodes).1 ho
  · rw [hc] at outside
    cases outside
  · rw [hc] at inside
    cases form with
    | chain tag tier =>
      obtain ⟨first, -, rfl⟩ := Option.map_eq_some_iff.1 inside.symm
      exact ⟨node, hn, hf, hm⟩
    | segment | block => cases inside

theorem headed_of_belongs (all : ∀ o ∈ operatorsAll none nodes, o.Belongs) {node : Tree}
    (hn : node ∈ preorderAll nodes) (hf : node.form? = some (.chain tag tier))
    {first : Sign} {more : List Sign} (hs : signs node.items = first :: more) :
    Headed tag tier node.items where
  tag := by
    have begins := mem_of_chain hn hf hs first (hs ▸ List.mem_cons_self)
    obtain ⟨-, own, -, spelled, -, tagged⟩ := (all _ begins).inChain rfl
    exact ⟨first, own, by rw [hs]; rfl, spelled, tagged⟩
  tier := by
    intro sign hm
    obtain ⟨own, -, spelled, -, tiered, -⟩ := (all _ (mem_of_chain hn hf hs sign hm)).inChain rfl
    exact ⟨own, spelled, tiered⟩

/-- Nothing is told of the operators exactly if no chain is mixed. -/
theorem none_mixed_iff (all : ∀ o ∈ operatorsAll none nodes, o.Belongs)
    (begins : ∀ node ∈ preorderAll nodes, ∀ tag tier, node.form? = some (.chain tag tier) →
      ∃ first more, signs node.items = first :: more) :
    (operatorsAll none nodes).filterMap OperatorNode.mixed? = [] ↔
      ∀ node ∈ preorderAll nodes, ∀ tag tier, node.form? = some (.chain tag tier) →
        Homogeneous tag node.items := by
  rw [List.filterMap_eq_nil_iff]
  constructor
  · intro quiet node hn tag tier hf sign hm
    obtain ⟨first, more, hs⟩ := begins node hn tag tier hf
    have here := mem_of_chain hn hf hs sign hm
    exact ((all _ here).mixed?_eq_none rfl).1 (quiet _ here)
  · intro alike o ho
    obtain ⟨chain, _, _, hc, _⟩ := all o ho
    obtain ⟨node, hn, hf, hm⟩ := chain_of_mem ho hc
    exact ((all o ho).mixed?_eq_none hc).2 (alike node hn _ _ hf o.sign hm)

end Tree

/-- Of all operator nodes of the tree, in the order of the text, those are told of as mixed whose
own tag is not that of their chain: each at its own position, with a note on the first operator of
the chain. Operators stand in chains of their tier, and each chain has the tag of its first one. So
nothing is told of mixed operators exactly if the operators of every chain are all of its tag. -/
theorem tokenize_mixed (label : String) (text : List Char) :
    (operatorsAll none (tokenize label text).nodes).map (·.sign.node) =
        (preorderAll (tokenize label text).nodes).filter isOperator ∧
      (tokenize label text).diagnostics.filter Diagnostic.tellsMixed =
        (operatorsAll none (tokenize label text).nodes).filterMap OperatorNode.mixed? ∧
      (∀ o ∈ operatorsAll none (tokenize label text).nodes, o.Belongs) ∧
      (∀ node ∈ preorderAll (tokenize label text).nodes, ∀ tag tier,
        node.form? = some (.chain tag tier) → Headed tag tier node.items) ∧
      ((∀ d ∈ (tokenize label text).diagnostics, d.tellsMixed = false) ↔
        ∀ node ∈ preorderAll (tokenize label text).nodes, ∀ tag tier,
          node.form? = some (.chain tag tier) → Homogeneous tag node.items) := by
  obtain ⟨b, c, read, -, nodes, diagnostics⟩ := tokenize_reading label text
  have whole : Whole (b.finish c.position).items.toList :=
    ((reading_tidy read).unwind (reading_sound read) (Builder.unclosedAtEnd c.position)).whole
  obtain ⟨told, belongs, -⟩ := (reading_tells read).finish c.position
  rw [Builder.operators_finish] at told belongs
  rw [nodes, diagnostics]
  have begins : ∀ node ∈ preorderAll (b.finish c.position).items.toList, ∀ tag tier,
      node.form? = some (.chain tag tier) → ∃ first more, signs node.items = first :: more := by
    intro node hn tag tier hf
    have arranged := whole node hn _ hf
    exact exists_sign arranged.2.2.1 arranged.1
  refine ⟨operatorsAll_nodes none _, told, belongs, fun node hn tag tier hf => ?_, ?_⟩
  · obtain ⟨first, more, hs⟩ := begins node hn tag tier hf
    exact headed_of_belongs belongs hn hf hs
  · rw [← none_mixed_iff belongs begins, ← told, List.filter_eq_nil_iff]
    simp only [Bool.not_eq_true]

end NamespaceLang

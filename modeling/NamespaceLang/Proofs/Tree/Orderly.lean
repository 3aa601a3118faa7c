import NamespaceLang.Proofs.Tree.Parents

/-!
# Chains in order

The items of a chain are operands and operators, and nothing else. That holds
in the tree of every text, and in whatever part of it is looked into.
-/

set_option autoImplicit false

namespace NamespaceLang

open OpenScope

namespace Tree

def isOperand : Tree → Bool
  | .group _ .segment _ => true
  | _ => false

end Tree

open NamespaceLang.Tree

def OfChain (parent : Option Form) (item : Tree) : Prop :=
  ∀ tag tier, parent = some (.chain tag tier) → item.isOperand = true ∨ item.isOperator = true

theorem ofChain_plain {parent : Option Form} (h : Plain parent) (item : Tree) :
    OfChain parent item := by
  rintro tag tier rfl
  exact h.elim

theorem ofChain_law : Law OfChain where
  group _ _ _ _ hp _ := ofChain_plain hp _
  operand _ _ _ _ _ _ _ := Or.inl rfl
  operator _ _ _ _ _ _ _ := Or.inr rfl
  move _ _ item _ hq _ := ofChain_plain hq item

/-- All chains among the nodes and below them are in order. -/
def Orderly (nodes : List Tree) : Prop :=
  ∀ node ∈ preorderAll nodes, ∀ item ∈ node.items, OfChain node.form? item

theorem orderly_leaf (pos : Position) (content : Leaf) : Orderly [.leaf pos content] := by
  simp [Orderly, preorderAll, preorder, items]

theorem Orderly.part {part nodes : List Tree} (h : Orderly nodes) (hp : part ⊆ nodes) :
    Orderly part := fun node hn => h node (preorderAll_mono hp hn)

theorem Orderly.head {node : Tree} {rest : List Tree} (h : Orderly (node :: rest)) :
    Orderly [node] := h.part (by simp)

theorem Orderly.tail {node : Tree} {rest : List Tree} (h : Orderly (node :: rest)) : Orderly rest :=
  h.part (List.subset_cons_self _ _)

theorem Orderly.items {pos : Position} {form : Form} {items rest : List Tree}
    (h : Orderly (.group pos form items :: rest)) : Orderly items := by
  intro node hn
  exact h node (List.mem_append_left _ (List.mem_cons_of_mem _ hn))

theorem Orderly.chain {pos : Position} {tag : ChainTag} {tier : Nat} {items rest : List Tree}
    (h : Orderly (.group pos (.chain tag tier) items :: rest)) :
    ∀ item ∈ items, item.isOperand = true ∨ item.isOperator = true := fun item hm =>
  h _ (List.mem_append_left _ List.mem_cons_self) item hm tag tier rfl

theorem Orderly.trim {nodes : List Tree} (h : Orderly nodes) : Orderly (Tree.trim nodes) := by
  apply h.part
  intro node hn
  have inner : node ∈ (trimStart nodes).reverse :=
    (List.dropWhile_sublist _).subset (List.mem_reverse.1 hn)
  exact (List.dropWhile_sublist _).subset (List.mem_reverse.1 inner)

theorem reading_ofChain {file : String} {text : List Char} {b : Builder} {c : Cursor}
    (h : Reading file text b c) : b.Lawful OfChain := by
  apply (reading_invariant (P := fun b => b.Sound ∧ b.Lawful OfChain) _ _ h).2
  · exact ⟨Builder.empty_sound, Builder.empty_lawful⟩
  · rintro b l pos after hl - ⟨hs, hlaw⟩
    refine ⟨Builder.place_sound hl hs, Builder.place_lawful ofChain_law hl hs hlaw ?_⟩
    intro content _ tag tier ht
    cases hsc : b.scopes with
    | nil => simp [hsc, topForm] at ht
    | cons s outer =>
      obtain ⟨_, _, kind, _⟩ := s
      cases kind <;> simp [hsc, topForm, OpenScope.form] at ht

theorem tokenize_orderly (file : String) (text : List Char) : Orderly (tokenize file text).nodes := by
  obtain ⟨b, c, read, -, nodes, -⟩ := tokenize_reading file text
  rw [nodes]
  exact (Builder.finish_lawful ofChain_law (reading_ofChain read) (reading_sound read) _).2

end NamespaceLang

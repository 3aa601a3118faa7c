import NamespaceLang.Proofs.Tree.Folding
import NamespaceLang.Proofs.Tree.Reference

/-!
# Chains as splits

The chains that a builder keeps open in one body are the splits of the pieces
read so far, one for each tier that occurs, the loosest outermost. One more
piece at the end changes the last operand of a split or begins a new one, and
the builder does the same to its chains.
-/

set_option autoImplicit false

namespace NamespaceLang

open OpenScope

def Piece.within (tier : Nat) : Piece → Prop
  | .item _ => True
  | .operator op => op.joiner.tier ≠ tier

theorem splitTier_within {tier : Nat} {p : Piece} (h : p.within tier) (rest : List Piece) :
    splitTier tier (p :: rest) = prepend p (splitTier tier rest) := by
  cases p with
  | item node => rfl
  | operator op => rw [splitTier, if_neg h]

theorem splitTier_at {tier : Nat} {op : Operator} (h : op.joiner.tier = tier) (rest : List Piece) :
    splitTier tier (.operator op :: rest) =
      (([], op) :: (splitTier tier rest).1, (splitTier tier rest).2) := by
  rw [splitTier, if_pos h]

theorem splitTier_snoc_within {tier : Nat} {p : Piece} (h : p.within tier) (pieces : List Piece) :
    splitTier tier (pieces ++ [p]) =
      ((splitTier tier pieces).1, (splitTier tier pieces).2 ++ [p]) := by
  induction pieces with
  | nil =>
    rw [List.nil_append, splitTier_within h]
    rfl
  | cons first rest ih =>
    by_cases hf : first.within tier
    · rw [List.cons_append, splitTier_within hf, splitTier_within hf, ih]
      generalize splitTier tier rest = split
      obtain ⟨closed, last⟩ := split
      cases closed <;> rfl
    · cases first with
      | item node => exact absurd trivial hf
      | operator op =>
        have here : op.joiner.tier = tier := Decidable.not_not.1 hf
        rw [List.cons_append, splitTier_at here, splitTier_at here, ih]

theorem splitTier_snoc_at {tier : Nat} {op : Operator} (h : op.joiner.tier = tier)
    (pieces : List Piece) :
    splitTier tier (pieces ++ [.operator op]) =
      ((splitTier tier pieces).1 ++ [((splitTier tier pieces).2, op)], []) := by
  induction pieces with
  | nil =>
    rw [List.nil_append, splitTier_at h]
    rfl
  | cons first rest ih =>
    by_cases hf : first.within tier
    · rw [List.cons_append, splitTier_within hf, splitTier_within hf, ih]
      generalize splitTier tier rest = split
      obtain ⟨closed, last⟩ := split
      cases closed <;> rfl
    · cases first with
      | item node => exact absurd trivial hf
      | operator op' =>
        have here : op'.joiner.tier = tier := Decidable.not_not.1 hf
        rw [List.cons_append, splitTier_at here, splitTier_at here, ih]
        rfl

theorem splitTier_unsplit {tier : Nat} {pieces last : List Piece}
    (h : splitTier tier pieces = ([], last)) : last = pieces := by
  induction pieces generalizing last with
  | nil =>
    cases h
    rfl
  | cons first rest ih =>
    by_cases hf : first.within tier
    · rw [splitTier_within hf] at h
      cases hs : splitTier tier rest with
      | mk closed last' =>
        rw [hs] at h
        cases closed with
        | nil =>
          cases h
          rw [ih hs]
        | cons head more => cases h
    · cases first with
      | item node => exact absurd trivial hf
      | operator op =>
        rw [splitTier_at (Decidable.not_not.1 hf)] at h
        cases h

theorem nextOperand_snoc (first : Operator) (more : List (List Piece × Operator))
    (operand : List Piece) (op : Operator) :
    nextOperand first (more ++ [(operand, op)]) = op.next := by
  induction more generalizing first with
  | nil => rfl
  | cons head rest ih => exact ih head.2

theorem operandParts_snoc (inner : List Piece → List Tree) (begin? : Option Position)
    (first : List Piece × Operator) (more : List (List Piece × Operator)) (operand : List Piece)
    (op : Operator) :
    operandParts inner begin? (first :: more ++ [(operand, op)]) =
      operandParts inner begin? (first :: more) ++
        [segment (inner operand) (nextOperand first.2 more),
          .leaf op.start (.operator op.joiner.spelling)] := by
  induction more generalizing first begin? with
  | nil => rfl
  | cons head rest ih =>
    have := ih (some first.2.next) head
    simp only [List.cons_append, operandParts] at this ⊢
    rw [this]
    rfl

def foldChains : List OpenScope → List Tree → List Tree
  | [], items => items
  | s :: inner, items => [s.tree (foldChains inner items)]

theorem foldChains_append (outer inner : List OpenScope) (items : List Tree) :
    foldChains (outer ++ inner) items = foldChains outer (foldChains inner items) := by
  induction outer with
  | nil => rfl
  | cons s outer ih => rw [List.cons_append, foldChains, ih, foldChains]

/-- A scope stands for a split: it is a chain of the tier, and all operands but the last are done. -/
structure StandsFor (s : OpenScope) (c : OpenChain) (tier : Nat) (inner : List Piece → List Tree)
    (first : List Piece × Operator) (more : List (List Piece × Operator)) : Prop where
  kind : s.kind = .chain c
  tier : c.tier = tier
  tag : c.tag = first.2.joiner.tag
  done : c.done.toList = operandParts inner none (first :: more)
  next : c.operandStart = nextOperand first.2 more

/-- The chains, outermost first, and the items after the last operator are what the builder makes of
the pieces so far. -/
def Holds : List Nat → List Piece → List OpenScope → List Tree → Prop
  | [], pieces, chains, items => chains = [] ∧ pieces = items.map .item
  | tier :: tighter, pieces, chains, items =>
    match splitTier tier pieces with
    | ([], _) => Holds tighter pieces chains items
    | (first :: more, last) =>
      ∃ s c inner, chains = s :: inner ∧ StandsFor s c tier (group tighter) first more ∧
        Holds tighter last inner items

theorem holds_nil (tiers : List Nat) : Holds tiers [] [] [] := by
  induction tiers with
  | nil => exact ⟨rfl, rfl⟩
  | cons tier tighter ih => exact ih

theorem holds_unsplit {tier : Nat} {tighter : List Nat} {pieces last : List Piece}
    (hs : splitTier tier pieces = ([], last)) (chains : List OpenScope) (items : List Tree) :
    Holds (tier :: tighter) pieces chains items ↔ Holds tighter pieces chains items := by
  rw [Holds, hs]

theorem holds_split {tier : Nat} {tighter : List Nat} {pieces last : List Piece}
    {first : List Piece × Operator} {more : List (List Piece × Operator)}
    (hs : splitTier tier pieces = (first :: more, last)) (chains : List OpenScope)
    (items : List Tree) :
    Holds (tier :: tighter) pieces chains items ↔
      ∃ s c inner, chains = s :: inner ∧ StandsFor s c tier (group tighter) first more ∧
        Holds tighter last inner items := by
  rw [Holds, hs]

theorem Holds.snoc_item {tiers : List Nat} {pieces : List Piece} {chains : List OpenScope}
    {items : List Tree} (h : Holds tiers pieces chains items) (node : Tree) :
    Holds tiers (pieces ++ [.item node]) chains (items ++ [node]) := by
  induction tiers generalizing pieces chains with
  | nil =>
    obtain ⟨rfl, rfl⟩ := h
    exact ⟨rfl, by simp⟩
  | cons tier tighter ih =>
    have snoc : splitTier tier (pieces ++ [.item node]) =
        ((splitTier tier pieces).1, (splitTier tier pieces).2 ++ [.item node]) :=
      splitTier_snoc_within (show (Piece.item node).within tier from trivial) pieces
    cases hs : splitTier tier pieces with
    | mk closed last =>
      rw [hs] at snoc
      cases closed with
      | nil =>
        rw [holds_unsplit snoc]
        exact ih ((holds_unsplit hs chains items).1 h)
      | cons first more =>
        rw [holds_split snoc]
        obtain ⟨s, c, inner, hc, hst, hin⟩ := (holds_split hs chains items).1 h
        exact ⟨s, c, inner, hc, hst, ih hin⟩

/-- Folding all chains gives the grouped pieces. -/
theorem Holds.folds {tiers : List Nat} {pieces : List Piece} {chains : List OpenScope}
    {items : List Tree} (h : Holds tiers pieces chains items) :
    foldChains chains items = group tiers pieces := by
  induction tiers generalizing pieces chains with
  | nil =>
    obtain ⟨rfl, rfl⟩ := h
    simp [foldChains, group, List.filterMap_map, Function.comp_def, Piece.node?]
  | cons tier tighter ih =>
    cases hs : splitTier tier pieces with
    | mk closed last =>
      cases closed with
      | nil =>
        rw [group, hs]
        exact ih ((holds_unsplit hs chains items).1 h)
      | cons first more =>
        obtain ⟨s, c, inner, rfl, hst, hin⟩ := (holds_split hs chains items).1 h
        obtain ⟨operand, op⟩ := first
        rw [group, hs, foldChains, ih hin]
        simp only [OpenScope.tree, hst.kind, Array.toList_push, hst.done, hst.next, hst.tier, hst.tag]
        rfl

theorem tier_chain {s : OpenScope} {c : OpenChain} (h : s.kind = .chain c) : s.tier = c.tier := by
  rw [OpenScope.tier, h]

theorem Holds.chain {tiers : List Nat} {pieces : List Piece} {chains : List OpenScope}
    {items : List Tree} (h : Holds tiers pieces chains items) :
    ∀ s ∈ chains, (∃ c, s.kind = .chain c) ∧ s.tier ∈ tiers := by
  induction tiers generalizing pieces chains with
  | nil =>
    obtain ⟨rfl, -⟩ := h
    simp
  | cons tier tighter ih =>
    cases hs : splitTier tier pieces with
    | mk closed last =>
      cases closed with
      | nil =>
        intro s hm
        have := ih ((holds_unsplit hs chains items).1 h) s hm
        exact ⟨this.1, List.mem_cons_of_mem tier this.2⟩
      | cons first more =>
        obtain ⟨s, c, inner, rfl, hst, hin⟩ := (holds_split hs chains items).1 h
        intro t hm
        rcases List.mem_cons.1 hm with rfl | hm
        · have : t.tier = tier := (tier_chain hst.kind).trans hst.tier
          exact ⟨⟨c, hst.kind⟩, this ▸ List.mem_cons_self⟩
        · have := ih hin t hm
          exact ⟨this.1, List.mem_cons_of_mem tier this.2⟩

def begun (op : Operator) (items : List Tree) : OpenChain :=
  (⟨op.joiner.tag, op.joiner.tier, #[], op.start, op.start⟩ : OpenChain).extend items op.joiner
    op.start op.next

/-- What an operator makes of the chains: it folds those that bind tighter, and begins a chain in
`outer` or goes on with the innermost one there. -/
inductive Joins (op : Operator) (items : List Tree) :
    List OpenScope → (List OpenScope → Prop) → Prop
  | begins (outer inner : List OpenScope) {P : List OpenScope → Prop}
      (tighter : ∀ s ∈ inner, op.joiner.tier < s.tier) (looser : ∀ s ∈ outer, s.tier < op.joiner.tier)
      (later : ∀ s, s.kind = .chain (begun op (foldChains inner items)) → P (outer ++ [s])) :
      Joins op items (outer ++ inner) P
  | goesOn (outer inner : List OpenScope) {s : OpenScope} {c : OpenChain} {P : List OpenScope → Prop}
      (tighter : ∀ s ∈ inner, op.joiner.tier < s.tier) (kind : s.kind = .chain c)
      (tier : c.tier = op.joiner.tier)
      (later : ∀ s, s.kind = .chain (c.extend (foldChains inner items) op.joiner op.start op.next) →
        P (outer ++ [s])) :
      Joins op items (outer ++ s :: inner) P

theorem Joins.under {op : Operator} {items : List Tree} {chains : List OpenScope}
    {P Q : List OpenScope → Prop} (h : Joins op items chains P) {s : OpenScope}
    (hs : s.tier < op.joiner.tier) (hq : ∀ chains, P chains → Q (s :: chains)) :
    Joins op items (s :: chains) Q := by
  cases h with
  | begins outer inner tighter looser later =>
    apply Joins.begins (s :: outer) inner tighter
    · exact List.forall_mem_cons.2 ⟨hs, looser⟩
    · exact fun s' hs' => hq _ (later s' hs')
  | goesOn outer inner tighter kind tier later =>
    apply Joins.goesOn (s :: outer) inner tighter kind tier
    exact fun s' hs' => hq _ (later s' hs')

theorem Holds.snoc_at {tier : Nat} {tighter : List Nat} {pieces : List Piece}
    {chains : List OpenScope} {items : List Tree} {op : Operator}
    (h : Holds (tier :: tighter) pieces chains items) (looser : ∀ other ∈ tighter, tier < other)
    (here : op.joiner.tier = tier) :
    Joins op items chains fun later =>
      Holds (tier :: tighter) (pieces ++ [.operator op]) later [] := by
  have snoc := splitTier_snoc_at here pieces
  have binds : ∀ inner : List OpenScope,
      (∀ s : OpenScope, s ∈ inner → (∃ c, s.kind = .chain c) ∧ s.tier ∈ tighter) →
        ∀ s ∈ inner, op.joiner.tier < s.tier := by
    intro inner hin s hm
    rw [here]
    exact looser _ (hin s hm).2
  cases hs : splitTier tier pieces with
  | mk closed last =>
    rw [hs] at snoc
    cases closed with
    | nil =>
      have hin := (holds_unsplit hs chains items).1 h
      obtain rfl := splitTier_unsplit hs
      apply Joins.begins [] chains (binds chains hin.chain) (by simp)
      intro s hk
      refine (holds_split snoc _ _).2 ⟨s, _, [], rfl, ⟨hk, here, rfl, ?_, rfl⟩, holds_nil tighter⟩
      simp [begun, OpenChain.extend, operandParts, hin.folds]
    | cons first more =>
      obtain ⟨s, c, inner, rfl, hst, hin⟩ := (holds_split hs chains items).1 h
      apply Joins.goesOn [] inner (binds inner hin.chain) hst.kind (hst.tier.trans here.symm)
      intro s' hk
      refine (holds_split snoc _ _).2 ⟨s', _, [], rfl, ⟨hk, hst.tier, hst.tag, ?_, ?_⟩,
        holds_nil tighter⟩
      · have parts := operandParts_snoc (group tighter) none first more last op
        simp only [OpenChain.extend, Array.toList_push, hst.done, hst.next, hin.folds]
        rw [List.append_assoc]
        exact parts.symm
      · exact (nextOperand_snoc first.2 more last op).symm

theorem Holds.snoc_within {tier : Nat} {tighter : List Nat} {pieces : List Piece}
    {chains : List OpenScope} {items : List Tree} {op : Operator}
    (h : Holds (tier :: tighter) pieces chains items) (above : tier < op.joiner.tier)
    (other : op.joiner.tier ≠ tier)
    (inner : ∀ {pieces chains}, Holds tighter pieces chains items →
      Joins op items chains fun later => Holds tighter (pieces ++ [.operator op]) later []) :
    Joins op items chains fun later =>
      Holds (tier :: tighter) (pieces ++ [.operator op]) later [] := by
  have snoc : splitTier tier (pieces ++ [.operator op]) =
      ((splitTier tier pieces).1, (splitTier tier pieces).2 ++ [.operator op]) :=
    splitTier_snoc_within (show (Piece.operator op).within tier from other) pieces
  cases hs : splitTier tier pieces with
  | mk closed last =>
    rw [hs] at snoc
    cases closed with
    | nil =>
      have joins := inner ((holds_unsplit hs chains items).1 h)
      obtain rfl := splitTier_unsplit hs
      simp only [holds_unsplit snoc]
      exact joins
    | cons first more =>
      obtain ⟨s, c, inside, rfl, hst, hin⟩ := (holds_split hs chains items).1 h
      have outermost : s.tier < op.joiner.tier := by
        rw [tier_chain hst.kind, hst.tier]
        exact above
      apply (inner hin).under outermost
      intro later hl
      exact (holds_split snoc _ _).2 ⟨s, c, later, rfl, hst, hl⟩

theorem Holds.snoc_operator {tiers : List Nat} {pieces : List Piece} {chains : List OpenScope}
    {items : List Tree} (h : Holds tiers pieces chains items) (sorted : tiers.Pairwise (· < ·))
    (op : Operator) (hop : op.joiner.tier ∈ tiers) :
    Joins op items chains fun later => Holds tiers (pieces ++ [.operator op]) later [] := by
  induction tiers generalizing pieces chains with
  | nil => cases hop
  | cons tier tighter ih =>
    obtain ⟨looser, sorted⟩ := List.pairwise_cons.1 sorted
    by_cases here : op.joiner.tier = tier
    · exact h.snoc_at looser here
    · have there : op.joiner.tier ∈ tighter := by
        rcases List.mem_cons.1 hop with he | ht
        · exact absurd he here
        · exact ht
      exact h.snoc_within (looser _ there) here fun hin => ih hin sorted there

end NamespaceLang

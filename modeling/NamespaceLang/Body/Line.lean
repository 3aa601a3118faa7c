import NamespaceLang.Diagnostic.Basic
import NamespaceLang.Tree
import NamespaceLang.Vocabulary.Punctuator

/-!
# Lines

The body of a bracket or a file is a chain of the separator tier, and its
operands are the lines; a body without separators is one line. A line that
binds or defines something is a chain of two sides.
-/

set_option autoImplicit false

namespace NamespaceLang

structure Line where
  items : List Tree
  pos : Position
  deriving Repr

def Line.isBlank (line : Line) : Bool := line.items.all Tree.isBlank

structure TwoSided where
  tag : ChainTag
  left : Tree
  mark : Tree
  right : Tree
  deriving Repr

/-- The items of a side; what is no segment stands for itself. -/
def sideItems : Tree → List Tree
  | .group _ .segment items => items
  | node => [node]

def TwoSided.leftItems (s : TwoSided) : List Tree := sideItems s.left

def TwoSided.rightItems (s : TwoSided) : List Tree := sideItems s.right

def operandLines : List Tree → Except Diagnostic (List Line)
  | [] => .ok []
  | .group pos .segment items :: rest => (operandLines rest).map (⟨items, pos⟩ :: ·)
  | .leaf _ (.operator _) :: rest => operandLines rest
  | other :: _ => .error (.unreachable other.pos (.strayInChain other.kind))

/-- The lines of a chain of separators, and nothing if the nodes are none. -/
def splitLines (nodes : List Tree) : Except Diagnostic (Option (List Line)) :=
  match Tree.trim nodes with
  | .group _ (.chain _ tier) items :: more =>
    if tier = TokenGroup.sep.tier then
      match more with
      | [] => (operandLines items).map some
      | extra :: _ => .error (.error extra.pos .trailingAfterLines)
    else .ok none
  | _ => .ok none

def bodyLines (pos : Position) (nodes : List Tree) : Except Diagnostic (List Line) :=
  (splitLines nodes).map (·.getD [⟨nodes, pos⟩])

/-- The two sides of a line at `pos`, if it is a chain with a wanted tag. -/
def twoSided? (want : ChainTag → Bool) (pos : Position) (nodes : List Tree) :
    Except Diagnostic (Option TwoSided) :=
  match Tree.trim nodes with
  | .group _ (.chain tag _) items :: _ =>
    if want tag then
      match items with
      | [left, mark, right] => .ok (if mark.isOperator then some ⟨tag, left, mark, right⟩ else none)
      | _ => .error (.error pos .notTwoSided)
    else .ok none
  | _ => .ok none

def lineWeight : List Line → Nat
  | [] => 0
  | line :: rest => 3 * Tree.weightAll line.items + 3 + lineWeight rest

theorem Tree.weightAll_dropWhile (p : Tree → Bool) (items : List Tree) :
    weightAll (items.dropWhile p) ≤ weightAll items := by
  induction items with
  | nil => exact Nat.le_refl _
  | cons node rest ih =>
    rw [List.dropWhile_cons]
    split
    · exact Nat.le_trans ih (by simp [weightAll])
    · exact Nat.le_refl _

theorem Tree.weightAll_reverse (items : List Tree) : weightAll items.reverse = weightAll items := by
  induction items with
  | nil => rfl
  | cons node rest ih => simp [weightAll, ih, Nat.add_comm]

theorem Tree.weightAll_trim (items : List Tree) : weightAll (trim items) ≤ weightAll items := by
  unfold trim trimStart
  rw [weightAll_reverse]
  refine Nat.le_trans (weightAll_dropWhile _ _) ?_
  rw [weightAll_reverse]
  exact weightAll_dropWhile _ _

theorem Tree.weightAll_filter (p : Tree → Bool) (items : List Tree) :
    weightAll (items.filter p) ≤ weightAll items := by
  induction items with
  | nil => exact Nat.le_refl _
  | cons node rest ih =>
    rw [List.filter_cons]
    split <;> simp only [weightAll] <;> omega

theorem weightAll_sideItems (node : Tree) : Tree.weightAll (sideItems node) ≤ node.weight := by
  unfold sideItems
  split <;> simp [Tree.weightAll, Tree.weight]

theorem twoSided?_weight (want : ChainTag → Bool) (pos : Position) (nodes : List Tree)
    (sides : TwoSided) (h : twoSided? want pos nodes = .ok (some sides)) :
    Tree.weightAll sides.leftItems < Tree.weightAll nodes := by
  have trimmed := Tree.weightAll_trim nodes
  have inner := weightAll_sideItems sides.left
  unfold twoSided? at h
  split at h
  · next tag tier items more ht =>
    rw [ht] at trimmed
    split at h
    · split at h
      · next left mark right =>
        simp only [Except.ok.injEq] at h
        split at h
        · cases h
          simp only [Tree.weightAll, Tree.weight] at trimmed
          have inner : Tree.weightAll (sideItems left) ≤ left.weight := inner
          exact Nat.lt_of_le_of_lt inner (by omega)
        · cases h
      · cases h
    · cases h
  · cases h

theorem operandLines_weight (items : List Tree) (lines : List Line)
    (h : operandLines items = .ok lines) : lineWeight lines ≤ 3 * Tree.weightAll items := by
  induction items using operandLines.induct generalizing lines with
  | case1 =>
    cases h
    exact Nat.le_refl _
  | case2 pos items rest ih =>
    simp only [operandLines] at h
    cases hr : operandLines rest with
    | error d => simp [hr, Except.map] at h
    | ok tail =>
      simp only [hr, Except.map, Except.ok.injEq] at h
      subst h
      have := ih tail hr
      simp only [lineWeight, Tree.weightAll, Tree.weight]
      omega
  | case3 pos spelling rest ih =>
    simp only [operandLines] at h
    have := ih lines h
    simp only [Tree.weightAll, Tree.weight]
    omega
  | case4 other rest h₁ h₂ =>
    rw [operandLines] at h
    · cases h
    · exact h₁
    · exact h₂

theorem bodyLines_weight (pos : Position) (nodes : List Tree) (lines : List Line)
    (h : bodyLines pos nodes = .ok lines) : lineWeight lines ≤ 3 * Tree.weightAll nodes + 3 := by
  have trimmed := Tree.weightAll_trim nodes
  have whole : lineWeight [⟨nodes, pos⟩] ≤ 3 * Tree.weightAll nodes + 3 := by simp [lineWeight]
  unfold bodyLines splitLines at h
  split at h
  · next at_ tag tier items more ht =>
    rw [ht] at trimmed
    split at h
    · split at h
      · cases ho : operandLines items with
        | error d => simp [ho, Except.map] at h
        | ok found =>
          simp only [ho, Except.map, Option.getD_some, Except.ok.injEq] at h
          subst h
          have := operandLines_weight items found ho
          simp only [Tree.weightAll, Tree.weight] at trimmed
          omega
      · simp [Except.map] at h
    · simp only [Except.map, Option.getD_none, Except.ok.injEq] at h
      subst h
      exact whole
  · simp only [Except.map, Option.getD_none, Except.ok.injEq] at h
    subst h
    exact whole

end NamespaceLang

import NamespaceLang.Proofs.Body.Worth

/-!
# Bodies whose fields have other sources

In a body every line that declares a field can be given another source, by which what
stands in its segments after the first is replaced. Reading such a body gives the same
definitions and the same lines as before, with the other sources in them, and tells of
the same problems. Without any sources it is as light as it can be, and still arranged.
-/

set_option autoImplicit false

namespace NamespaceLang

namespace Tree

def refill (f : List Tree → List Tree) : Tree → Tree
  | .group pos .segment items => .group pos .segment (f items)
  | node => node

/-- A chain that declares a field has other segments after the first. -/
def refillField (f : List Tree → List Tree) : Tree → Tree
  | .group pos (.chain tag tier) (left :: rest) =>
    .group pos (.chain tag tier) (left :: if tag.bindsField then rest.map (refill f) else rest)
  | node => node

def onFirst (change : Tree → Tree) : List Tree → List Tree
  | [] => []
  | node :: rest => if node.isBlank then node :: onFirst change rest else change node :: rest

def refillOperand (f : List Tree → List Tree) : Tree → Tree
  | .group pos .segment items => .group pos .segment (onFirst (refillField f) items)
  | node => node

def refillLines (f : List Tree → List Tree) : Tree → Tree
  | .group pos (.chain tag tier) items =>
    if tier = TokenGroup.sep.tier then .group pos (.chain tag tier) (items.map (refillOperand f))
    else refillField f (.group pos (.chain tag tier) items)
  | node => node

/-- The body in which all fields have other sources. -/
def refillBody (f : List Tree → List Tree) (nodes : List Tree) : List Tree :=
  onFirst (refillLines f) nodes

/-- The body without the sources of its fields. -/
def emptiedBody (nodes : List Tree) : List Tree := refillBody (fun _ => []) nodes

variable (f : List Tree → List Tree)

theorem pos_refill (node : Tree) : (refill f node).pos = node.pos := by
  unfold refill
  split <;> rfl

@[simp] theorem isBlank_refillField (node : Tree) : (refillField f node).isBlank = node.isBlank := by
  unfold refillField
  split <;> rfl

@[simp] theorem isBlank_refillLines (node : Tree) : (refillLines f node).isBlank = node.isBlank := by
  unfold refillLines
  split
  · split
    · rfl
    · exact isBlank_refillField f _
  · rfl

theorem trim_cons {nodes rest : List Tree} {first : Tree} (start : trimStart nodes = first :: rest) :
    trim nodes = first :: (trimStart rest.reverse).reverse := by
  have solid : ¬ first.isBlank = true := by
    have head := List.head?_dropWhile_not (fun node : Tree => node.isBlank) nodes
    unfold trimStart at start
    rw [start] at head
    simpa using head
  unfold trim
  rw [start]
  unfold trimStart
  rw [List.reverse_cons, List.dropWhile_append]
  split
  · next nothing =>
    rw [List.dropWhile_cons_of_neg solid, List.isEmpty_iff.1 nothing]
    rfl
  · simp

section

variable {change : Tree → Tree} (keeps : ∀ node, (change node).isBlank = node.isBlank)

include keeps

theorem trimStart_onFirst (nodes : List Tree) :
    trimStart (onFirst change nodes) = (trimStart nodes).modifyHead change := by
  induction nodes with
  | nil => rfl
  | cons node rest ih =>
    unfold trimStart at ih ⊢
    rw [onFirst]
    by_cases blank : node.isBlank = true
    · rw [if_pos blank, List.dropWhile_cons_of_pos blank, List.dropWhile_cons_of_pos blank, ih]
    · rw [if_neg blank, List.dropWhile_cons_of_neg blank,
        List.dropWhile_cons_of_neg (by rw [keeps]; exact blank)]
      rfl

theorem trim_onFirst (nodes : List Tree) :
    trim (onFirst change nodes) = (trim nodes).modifyHead change := by
  have changed := trimStart_onFirst keeps nodes
  cases start : trimStart nodes with
  | nil =>
    rw [start] at changed
    rw [trim, trim, changed, start]
    rfl
  | cons first rest =>
    rw [start] at changed
    rw [trim_cons start, trim_cons changed]
    rfl

theorem filter_onFirst (nodes : List Tree) : (onFirst change nodes).filter (!·.isBlank) =
    (nodes.filter (!·.isBlank)).modifyHead change := by
  induction nodes with
  | nil => rfl
  | cons node rest ih =>
    rw [onFirst]
    by_cases blank : node.isBlank = true
    · rw [if_pos blank]
      simpa [blank] using ih
    · rw [if_neg blank]
      simp [blank, keeps]

theorem all_isBlank_onFirst (nodes : List Tree) :
    (onFirst change nodes).all isBlank = nodes.all isBlank := by
  induction nodes with
  | nil => rfl
  | cons node rest ih =>
    rw [onFirst]
    split
    · simp [ih]
    · simp [keeps]

end

theorem onFirst_congr {change other : Tree → Tree} {nodes : List Tree}
    (same : ∀ first rest, trimStart nodes = first :: rest → change first = other first) :
    onFirst change nodes = onFirst other nodes := by
  induction nodes with
  | nil => rfl
  | cons node rest ih =>
    rw [onFirst, onFirst]
    by_cases blank : node.isBlank = true
    · rw [if_pos blank, if_pos blank, ih fun first more there => same first more (by
        rw [← there]
        exact List.dropWhile_cons_of_pos blank)]
    · rw [if_neg blank, if_neg blank, same node rest (List.dropWhile_cons_of_neg blank)]

end Tree

open NamespaceLang.Tree

namespace Line

def refill (f : List Tree → List Tree) (line : Line) : Line :=
  ⟨onFirst (refillField f) line.items, line.pos⟩

theorem isBlank_refill (f : List Tree → List Tree) (line : Line) :
    (line.refill f).isBlank = line.isBlank :=
  all_isBlank_onFirst (isBlank_refillField f) line.items

end Line

def TwoSided.refill (f : List Tree → List Tree) (sides : TwoSided) : TwoSided :=
  { sides with right := Tree.refill f sides.right }

def Body.refill (f : List Tree → List Tree) (body : Body) : Body :=
  ⟨body.definitions, body.lines.map (·.refill f)⟩

variable (f : List Tree → List Tree)

theorem isOperator_refill (node : Tree) : (Tree.refill f node).isOperator = node.isOperator := by
  unfold Tree.refill
  split <;> rfl

theorem refill_of_isOperator {node : Tree} (h : node.isOperator = true) : Tree.refill f node = node := by
  unfold Tree.refill
  split
  · cases h
  · rfl

theorem twoSided?_refill (pos : Position) (nodes : List Tree) :
    twoSided? ChainTag.bindsField pos (onFirst (refillField f) nodes) =
      (twoSided? ChainTag.bindsField pos nodes).map (Option.map (TwoSided.refill f)) := by
  unfold twoSided?
  rw [trim_onFirst (isBlank_refillField f)]
  rcases trim nodes with _ | ⟨⟨at_, content⟩ | ⟨at_, form, items⟩, more⟩
  · rfl
  · rfl
  · cases form with
    | chain tag tier =>
      cases binds : tag.bindsField with
      | false =>
        cases items <;> simp [List.modifyHead, refillField, binds, Except.map]
      | true =>
        match items with
        | [] => simp [List.modifyHead, refillField, binds, Except.map]
        | [left] => simp [List.modifyHead, refillField, binds, Except.map]
        | [left, mark] => simp [List.modifyHead, refillField, binds, Except.map]
        | [left, mark, right] =>
          simp only [List.modifyHead, refillField, binds, if_true, List.map, isOperator_refill]
          by_cases operator : mark.isOperator = true
          · simp [operator, Except.map, TwoSided.refill, refill_of_isOperator f operator]
          · simp [operator, Except.map]
        | left :: mark :: right :: more :: rest =>
          simp [List.modifyHead, refillField, binds, Except.map]
    | _ => rfl

theorem twoSided?_definition_refill (pos : Position) (nodes : List Tree) :
    twoSided? (· == .definition) pos (onFirst (refillField f) nodes) =
      twoSided? (· == .definition) pos nodes := by
  unfold twoSided?
  rw [trim_onFirst (isBlank_refillField f)]
  rcases trim nodes with _ | ⟨⟨at_, content⟩ | ⟨at_, form, items⟩, more⟩
  · rfl
  · rfl
  · cases form with
    | chain tag tier =>
      cases items with
      | nil => rfl
      | cons left rest => cases tag <;> rfl
    | _ => rfl

theorem operandLines_refill (items : List Tree) :
    operandLines (items.map (refillOperand f)) =
      (operandLines items).map (List.map (Line.refill f)) := by
  induction items using operandLines.induct with
  | case1 => rfl
  | case2 pos items rest ih =>
    rw [List.map_cons, refillOperand, operandLines, operandLines, ih]
    cases operandLines rest <;> rfl
  | case3 pos spelling rest ih => exact ih
  | case4 other rest noSegment noOperator =>
    have still : refillOperand f other = other := by
      unfold refillOperand
      split
      · next pos items => exact (noSegment pos items rfl).elim
      · rfl
    have fails : ∀ more, operandLines (other :: more) =
        .error (.unreachable other.pos (.strayInChain other.kind)) := fun more => by
      rw [operandLines]
      · exact noSegment
      · exact noOperator
    rw [List.map_cons, still, fails, fails]
    rfl

theorem splitLines_refill (nodes : List Tree) :
    splitLines (refillBody f nodes) =
      (splitLines nodes).map (Option.map (List.map (Line.refill f))) := by
  unfold splitLines refillBody
  rw [trim_onFirst (isBlank_refillLines f)]
  rcases trim nodes with _ | ⟨⟨at_, content⟩ | ⟨at_, form, items⟩, more⟩
  · rfl
  · rfl
  · cases form with
    | chain tag tier =>
      by_cases separates : tier = TokenGroup.sep.tier
      · rw [List.modifyHead_cons, refillLines, if_pos separates]
        dsimp only
        rw [if_pos separates, if_pos separates]
        cases more with
        | nil =>
          rw [operandLines_refill]
          cases operandLines items <;> rfl
        | cons extra rest => rfl
      · rw [List.modifyHead_cons, refillLines, if_neg separates]
        cases items <;> simp [refillField, separates, Except.map]
    | _ => rfl

theorem refillBody_of_single {nodes : List Tree} (single : splitLines nodes = .ok none) :
    refillBody f nodes = onFirst (refillField f) nodes := by
  refine onFirst_congr fun first rest start => ?_
  unfold splitLines at single
  rw [trim_cons start] at single
  rcases first with ⟨at_, content⟩ | ⟨at_, form, items⟩
  · rfl
  · cases form with
    | chain tag tier =>
      by_cases separates : tier = TokenGroup.sep.tier
      · dsimp only at single
        rw [if_pos separates] at single
        split at single
        · cases read : operandLines items <;> rw [read] at single <;> cases single
        · cases single
      · rw [refillLines, if_neg separates]
    | _ => rfl

theorem bodyLines_refill (pos : Position) (nodes : List Tree) :
    bodyLines pos (refillBody f nodes) = (bodyLines pos nodes).map (List.map (Line.refill f)) := by
  unfold bodyLines
  rw [splitLines_refill]
  cases single : splitLines nodes with
  | error d => rfl
  | ok lines? =>
    cases lines? with
    | some lines => rfl
    | none =>
      rw [refillBody_of_single f single]
      rfl

theorem readLine_refill (body : Body) (line : Line) :
    Body.readLine (body.refill f) (line.refill f) =
      (Body.readLine body line).map (Prod.map (Body.refill f) id) := by
  unfold Body.readLine
  rw [show twoSided? (· == .definition) (line.refill f).pos (line.refill f).items = _ from
    twoSided?_definition_refill f line.pos line.items]
  cases read : twoSided? (· == .definition) line.pos line.items with
  | error d => rfl
  | ok sides? =>
    cases sides? with
    | none =>
      show Except.ok (_, []) = Except.ok (Body.refill f _, [])
      rw [Body.refill, Body.refill, List.map_append]
      rfl
    | some sides =>
      simp only [bind, Except.bind]
      cases Pattern.read sides.left.pos sides.leftItems <;> rfl

theorem readLines_refill (lines : List Line) (body : Body) (found : List Diagnostic) :
    Body.readLines (lines.map (Line.refill f)) (body.refill f, found) =
      Prod.map (Body.refill f) id (Body.readLines lines (body, found)) := by
  induction lines generalizing body found with
  | nil => rfl
  | cons line rest ih =>
    rw [List.map_cons, Body.readLines, Body.readLines, Line.isBlank_refill]
    split
    · exact ih body found
    · rw [readLine_refill]
      cases Body.readLine body line with
      | ok read => exact ih read.1 _
      | error d => exact ih body _

/-- The same definitions are read and the same lines, with other sources in them, and the same
problems are told. -/
theorem Body.read_refill (pos : Position) (nodes : List Tree) :
    Body.read pos (refillBody f nodes) = (Body.read pos nodes).map (Prod.map (Body.refill f) id) := by
  unfold Body.read
  rw [bodyLines_refill]
  cases bodyLines pos nodes with
  | error d => rfl
  | ok lines => exact congrArg Except.ok (readLines_refill f lines Body.empty [])

theorem refill_refill (f g : List Tree → List Tree) (node : Tree) :
    Tree.refill g (Tree.refill f node) = Tree.refill (g ∘ f) node := by
  rcases node with ⟨pos, content⟩ | ⟨pos, form, items⟩
  · rfl
  · cases form <;> rfl

theorem refillField_refillField (f g : List Tree → List Tree) (node : Tree) :
    refillField g (refillField f node) = refillField (g ∘ f) node := by
  rcases node with ⟨pos, content⟩ | ⟨pos, form, items⟩
  · rfl
  · cases form with
    | chain tag tier =>
      cases items with
      | nil => rfl
      | cons left rest =>
        cases binds : tag.bindsField <;> simp [refillField, binds, refill_refill]
    | _ => rfl

theorem onFirst_onFirst {change : Tree → Tree} (keeps : ∀ node, (change node).isBlank = node.isBlank)
    (other : Tree → Tree) (nodes : List Tree) :
    onFirst other (onFirst change nodes) = onFirst (other ∘ change) nodes := by
  induction nodes with
  | nil => rfl
  | cons node rest ih =>
    rw [onFirst, onFirst]
    by_cases blank : node.isBlank = true
    · rw [if_pos blank, if_pos blank, onFirst, if_pos blank, ih]
    · rw [if_neg blank, if_neg blank, onFirst, if_neg (by rw [keeps]; exact blank)]
      rfl

theorem refillOperand_refillOperand (f g : List Tree → List Tree) (node : Tree) :
    refillOperand g (refillOperand f node) = refillOperand (g ∘ f) node := by
  rcases node with ⟨pos, content⟩ | ⟨pos, form, items⟩
  · rfl
  · cases form with
    | segment =>
      rw [refillOperand, refillOperand, refillOperand, onFirst_onFirst (isBlank_refillField f)]
      rw [show refillField g ∘ refillField f = refillField (g ∘ f) from
        funext (refillField_refillField f g)]
    | _ => rfl

theorem refillLines_refillLines (f g : List Tree → List Tree) (node : Tree) :
    refillLines g (refillLines f node) = refillLines (g ∘ f) node := by
  rcases node with ⟨pos, content⟩ | ⟨pos, form, items⟩
  · rfl
  · cases form with
    | chain tag tier =>
      by_cases separates : tier = TokenGroup.sep.tier
      · rw [refillLines, if_pos separates, refillLines, if_pos separates, refillLines,
          if_pos separates, List.map_map]
        rw [show refillOperand g ∘ refillOperand f = refillOperand (g ∘ f) from
          funext (refillOperand_refillOperand f g)]
      · have lines (h : List Tree → List Tree) (items : List Tree) :
            refillLines h (.group pos (.chain tag tier) items) =
              refillField h (.group pos (.chain tag tier) items) := if_neg separates
        rw [lines, lines, ← refillField_refillField]
        cases items <;> exact lines g _
    | _ => rfl

theorem emptiedBody_refillBody (f : List Tree → List Tree) (nodes : List Tree) :
    emptiedBody (refillBody f nodes) = emptiedBody nodes := by
  unfold emptiedBody refillBody
  rw [onFirst_onFirst (isBlank_refillLines f)]
  exact congrArg (onFirst · nodes) (funext (refillLines_refillLines f _))

/-- Stands where the node stands, weighs no more, and is whole if the node is. -/
structure Tree.Lightens (node other : Tree) : Prop where
  operand : other.isOperand = node.isOperand
  operator : other.isOperator = node.isOperator
  tier : other.chainTier? = node.chainTier?
  tighter : ∀ tier, Tighter tier [node] → Tighter tier [other]
  whole : Whole [node] → Whole [other]
  weight : other.weight ≤ node.weight

namespace Tree.Lightens

theorem refl (node : Tree) : node.Lightens node :=
  ⟨rfl, rfl, rfl, fun _ => id, id, Nat.le_refl _⟩

variable {nodes others : List Tree}

theorem weightAll (h : List.Forall₂ Lightens nodes others) : Tree.weightAll others ≤ Tree.weightAll nodes := by
  induction h with
  | nil => exact Nat.le_refl _
  | cons first _ ih => exact Nat.add_le_add first.weight ih

theorem wholes (h : List.Forall₂ Lightens nodes others) (whole : Whole nodes) : Whole others := by
  induction h with
  | nil => exact whole
  | @cons node other rest more first _ ih =>
    obtain ⟨own, left⟩ := (whole_append [node] rest).1 whole
    exact (whole_append [other] more).2 ⟨first.whole own, ih left⟩

theorem isFree {node other : Tree} (h : node.Lightens other) : other.isFree = node.isFree := by
  rw [Tree.isFree, Tree.isFree, h.tier, h.operand, h.operator]

theorem free (h : List.Forall₂ Lightens nodes others) (free : Free nodes) : Free others := by
  induction h with
  | nil => exact free
  | cons first _ ih =>
    obtain ⟨own, rest⟩ := List.forall_mem_cons.1 free
    exact List.forall_mem_cons.2 ⟨first.isFree.trans own, ih rest⟩

theorem all_tighter (h : List.Forall₂ Lightens nodes others) {tier : Nat}
    (tighter : Tighter tier nodes) : Tighter tier others := by
  induction h with
  | nil => exact tighter
  | @cons node other rest more first _ ih =>
    obtain ⟨own, left⟩ := (tighter_append tier [node] rest).1 tighter
    exact (tighter_append tier [other] more).2 ⟨first.tighter tier own, ih left⟩

theorem alternating {nodes others : List Tree} (h : List.Forall₂ Lightens nodes others)
    (turns : Alternating nodes) : Alternating others := by
  match nodes, others, h, turns with
  | [_], [_], .cons first .nil, operand => exact first.operand.trans operand
  | _ :: _ :: _, _ :: _ :: _, .cons first (.cons second rest), ⟨operand, operator, turns⟩ =>
    exact ⟨first.operand.trans operand, second.operator.trans operator, alternating rest turns⟩

theorem arranged (h : List.Forall₂ Lightens nodes others) {form : Option Form}
    (arranged : Arranged form nodes) : Arranged form others := by
  have elsewhere (apart : Free nodes ∨ ∃ chain, nodes = [chain] ∧ chain.chainTier?.isSome = true) :
      Free others ∨ ∃ chain, others = [chain] ∧ chain.chainTier?.isSome = true := by
    refine apart.imp (free h) ?_
    rintro ⟨chain, rfl, tier⟩
    obtain ⟨other, lightens, rfl⟩ : ∃ other, chain.Lightens other ∧ others = [other] := by
      cases h with
      | cons first rest =>
        cases rest
        exact ⟨_, first, rfl⟩
    exact ⟨other, rfl, lightens.tier ▸ tier⟩
  match form with
  | some (.chain tag tier) =>
    obtain ⟨long, odd, turns, tighter⟩ := arranged
    rw [h.length_eq] at long odd
    exact ⟨long, odd, alternating h turns, all_tighter h tighter⟩
  | none | some .segment | some (.block ..) => exact elsewhere arranged

theorem map {change : Tree → Tree} (lightens : ∀ node, Lightens node (change node))
    (nodes : List Tree) : List.Forall₂ Lightens nodes (nodes.map change) := by
  induction nodes with
  | nil => exact .nil
  | cons node rest ih => exact .cons (lightens node) ih

theorem same (nodes : List Tree) : List.Forall₂ Lightens nodes nodes := by
  simpa using map (fun node => .refl node) nodes

theorem onFirst {change : Tree → Tree} (lightens : ∀ node, Lightens node (change node))
    (nodes : List Tree) : List.Forall₂ Lightens nodes (onFirst change nodes) := by
  induction nodes with
  | nil => exact .nil
  | cons node rest ih =>
    rw [Tree.onFirst]
    split
    · exact .cons (.refl node) ih
    · exact .cons (lightens node) (same rest)

theorem tiers (h : List.Forall₂ Lightens nodes others) {tier : Nat}
    (above : ∀ item ∈ nodes, ∀ own ∈ item.chainTier?, tier < own) :
    ∀ item ∈ others, ∀ own ∈ item.chainTier?, tier < own := by
  induction h with
  | nil => exact above
  | cons first _ ih =>
    obtain ⟨own, rest⟩ := List.forall_mem_cons.1 above
    exact List.forall_mem_cons.2 ⟨first.tier ▸ own, ih rest⟩

theorem group {pos : Position} {form : Form} {items others : List Tree}
    (h : List.Forall₂ Lightens items others) :
    Lightens (.group pos form items) (.group pos form others) where
  operand := by cases form <;> rfl
  operator := rfl
  tier := by cases form <;> rfl
  tighter tier above := by
    simp only [Tighter, List.mem_singleton, forall_eq] at above ⊢
    exact tiers h above
  whole whole := by
    obtain ⟨own, below⟩ := (whole_group pos form items).1 whole
    exact (whole_group pos form others).2 ⟨arranged h own, wholes h below⟩
  weight := Nat.succ_le_succ (weightAll h)

theorem hollow (node : Tree) : Lightens node (refill (fun _ => []) node) := by
  unfold refill
  split
  · next pos items =>
    refine ⟨rfl, rfl, rfl, fun _ _ => by simp [Tighter, Tree.items], fun _ => ?_, ?_⟩
    · exact (whole_group pos .segment []).2 ⟨Or.inl (List.forall_mem_nil _), whole_nil⟩
    · exact Nat.succ_le_succ (Nat.zero_le _)
  · exact .refl node

theorem field (node : Tree) : Lightens node (refillField (fun _ => []) node) := by
  unfold refillField
  split
  · next pos tag tier left rest =>
    refine group (.cons (.refl left) ?_)
    split
    · exact map hollow rest
    · exact same rest
  · exact .refl node

theorem line (node : Tree) : Lightens node (refillOperand (fun _ => []) node) := by
  unfold refillOperand
  split
  · exact group (onFirst field _)
  · exact .refl node

theorem lines (node : Tree) : Lightens node (refillLines (fun _ => []) node) := by
  unfold refillLines
  split
  · split
    · exact group (map line _)
    · exact field _
  · exact .refl node

end Tree.Lightens

theorem emptiedBody_lightens (nodes : List Tree) :
    weightAll (emptiedBody nodes) ≤ weightAll nodes ∧ (Whole nodes → Whole (emptiedBody nodes)) ∧
      ∀ form, Arranged form nodes → Arranged form (emptiedBody nodes) :=
  have h := Lightens.onFirst Lightens.lines nodes
  ⟨Lightens.weightAll h, Lightens.wholes h, fun _ => Lightens.arranged h⟩

end NamespaceLang

import NamespaceLang.Proofs.Body.Orderly
import NamespaceLang.Proofs.Tree.Alone

/-!
# What nodes are worth

The nodes that a piece of work has before it bound what may come of it. Their
worth is handed on: the parts of a line, of an expression and of a body are worth
no more together than the whole, with one node to spare for each binding. What
stands for a name that is defined more than once is worth nothing, as nothing
comes of it.
-/

set_option autoImplicit false

namespace NamespaceLang

namespace Tree

def isErroneous : List Tree → Bool
  | [.leaf _ .error] => true
  | _ => false

theorem isErroneous_iff {nodes : List Tree} :
    isErroneous nodes = true ↔ ∃ pos, nodes = [.leaf pos .error] := by
  unfold isErroneous
  split
  · exact ⟨fun _ => ⟨_, rfl⟩, fun _ => rfl⟩
  · next other => exact ⟨fun h => (by cases h), fun ⟨pos, h⟩ => (other pos h).elim⟩

def worth (nodes : List Tree) : Nat := if isErroneous nodes then 0 else weightAll nodes

/-- What a source is worth to the binding that it belongs to. -/
def price (nodes : List Tree) : Nat := if isErroneous nodes then 0 else weightAll nodes + 1

theorem worth_le (nodes : List Tree) : worth nodes ≤ weightAll nodes := by
  unfold worth
  split
  · exact Nat.zero_le _
  · exact Nat.le_refl _

theorem price_le (nodes : List Tree) : price nodes ≤ weightAll nodes + 1 := by
  unfold price
  split
  · exact Nat.zero_le _
  · exact Nat.le_refl _

theorem worth_le_price (nodes : List Tree) : worth nodes ≤ price nodes := by
  unfold worth price
  split
  · exact Nat.le_refl _
  · exact Nat.le_succ _

theorem worth_lt_price {nodes : List Tree} (h : isErroneous nodes = false) :
    worth nodes < price nodes := by
  simp [worth, price, h]

theorem weightAll_sublist {left right : List Tree} (h : left.Sublist right) :
    weightAll left ≤ weightAll right := by
  induction h with
  | slnil => exact Nat.le_refl _
  | cons node _ ih => exact Nat.le_trans ih (Nat.le_add_left _ _)
  | cons_cons node _ ih => exact Nat.add_le_add_left ih _

theorem worth_sublist {left right : List Tree} (h : left.Sublist right) :
    worth left ≤ worth right := by
  cases erroneous : isErroneous right with
  | true =>
    obtain ⟨pos, rfl⟩ := isErroneous_iff.1 erroneous
    rcases List.sublist_singleton.1 h with rfl | rfl <;> exact Nat.le_refl _
  | false =>
    rw [show worth right = weightAll right by simp [worth, erroneous]]
    exact Nat.le_trans (worth_le left) (weightAll_sublist h)

theorem worth_append (left right : List Tree) :
    worth left + worth right ≤ worth (left ++ right) := by
  cases erroneous : isErroneous (left ++ right) with
  | true =>
    have none_left := worth_sublist (List.sublist_append_left left right)
    have none_right := worth_sublist (List.sublist_append_right left right)
    simp only [worth, erroneous, if_true, Nat.le_zero] at none_left none_right ⊢
    omega
  | false =>
    have first := worth_le left
    have second := worth_le right
    rw [show worth (left ++ right) = weightAll (left ++ right) by simp [worth, erroneous],
      weightAll_append]
    omega

theorem worth_cons (node : Tree) (rest : List Tree) :
    worth [node] + worth rest ≤ worth (node :: rest) :=
  worth_append [node] rest

theorem worth_group (pos : Position) (form : Form) (items : List Tree) :
    worth items ≤ worth [.group pos form items] := by
  have inner := worth_le items
  have outer : worth [.group pos form items] = weightAll items + 1 := rfl
  omega

mutual

theorem preorder_subset_preorder {below : Tree} :
    (node : Tree) → below ∈ node.preorder → below.preorder ⊆ node.preorder
  | .leaf pos content, h => by
    rw [List.mem_singleton.1 h]
    exact List.Subset.refl _
  | .group pos form items, h => by
    rcases List.mem_cons.1 h with rfl | h
    · exact List.Subset.refl _
    · exact List.Subset.trans (preorder_subset_preorderAll items h) (List.subset_cons_self _ _)

theorem preorder_subset_preorderAll {below : Tree} :
    (nodes : List Tree) → below ∈ preorderAll nodes → below.preorder ⊆ preorderAll nodes
  | [], h => by cases h
  | node :: rest, h => by
    rcases List.mem_append.1 h with h | h
    · exact List.subset_append_of_subset_left _ (preorder_subset_preorder node h)
    · exact List.subset_append_of_subset_right _ (preorder_subset_preorderAll rest h)

end

theorem Whole.below {nodes part : List Tree} (h : Whole nodes) (inside : part ⊆ preorderAll nodes) :
    Whole part := by
  intro node hn
  obtain ⟨top, ht, hn⟩ := mem_preorderAll.1 hn
  exact h node (preorder_subset_preorderAll nodes (inside ht) hn)

theorem Whole.sublist {left right : List Tree} (h : Whole right) (sub : left.Sublist right) :
    Whole left := h.part sub.subset

theorem Whole.items {pos : Position} {form : Form} {items : List Tree}
    (h : Whole [.group pos form items]) : Whole items := ((whole_group pos form items).1 h).2

theorem Whole.side {node : Tree} (h : Whole [node]) : Whole (sideItems node) := by
  unfold sideItems
  split
  · exact h.items
  · exact h

end Tree

open NamespaceLang.Tree

theorem twoSided?_trim {want : ChainTag → Bool} {pos : Position} {nodes : List Tree}
    {sides : TwoSided} (h : twoSided? want pos nodes = .ok (some sides)) :
    ∃ at_ tier more, trim nodes =
      .group at_ (.chain sides.tag tier) [sides.left, sides.mark, sides.right] :: more := by
  unfold twoSided? at h
  split at h
  · next at_ tag tier items more trimmed =>
    split at h
    · split at h
      · next left mark right =>
        simp only [Except.ok.injEq] at h
        split at h
        · cases h
          exact ⟨at_, tier, more, trimmed⟩
        · cases h
      · cases h
    · cases h
  · cases h

theorem twoSided?_worth {want : ChainTag → Bool} {pos : Position} {nodes : List Tree}
    {sides : TwoSided} (h : twoSided? want pos nodes = .ok (some sides)) :
    worth sides.leftItems + price sides.rightItems ≤ worth nodes := by
  obtain ⟨at_, tier, more, trimmed⟩ := twoSided?_trim h
  have whole := worth_sublist (trim_sublist nodes)
  rw [trimmed] at whole
  have left := Nat.le_trans (worth_le sides.leftItems) (weightAll_sideItems sides.left)
  have right := Nat.le_trans (price_le sides.rightItems)
    (Nat.succ_le_succ (weightAll_sideItems sides.right))
  have chain : worth [.group at_ (.chain sides.tag tier) [sides.left, sides.mark, sides.right]] =
      weightAll [sides.left, sides.mark, sides.right] + 1 := rfl
  have first :=
    worth_cons (.group at_ (.chain sides.tag tier) [sides.left, sides.mark, sides.right]) more
  rw [chain] at first
  simp only [weightAll] at first
  omega

theorem twoSided?_whole {want : ChainTag → Bool} {pos : Position} {nodes : List Tree}
    {sides : TwoSided} (h : twoSided? want pos nodes = .ok (some sides)) (whole : Whole nodes) :
    Whole sides.leftItems ∧ Whole sides.rightItems := by
  obtain ⟨at_, tier, more, trimmed⟩ := twoSided?_trim h
  have inner := whole.sublist (trim_sublist nodes)
  rw [trimmed] at inner
  have items := (inner.part (List.cons_subset_cons _ (List.nil_subset _))).items
  exact ⟨(items.part (by simp)).side, (items.part (by simp)).side⟩

def linesItems (lines : List Line) : List Tree := lines.flatMap (·.items)

theorem linesItems_cons (line : Line) (rest : List Line) :
    linesItems (line :: rest) = line.items ++ linesItems rest := rfl

theorem operandLines_items {items : List Tree} {lines : List Line}
    (h : operandLines items = .ok lines) :
    weightAll (linesItems lines) ≤ weightAll items ∧ (Whole items → Whole (linesItems lines)) := by
  induction items using operandLines.induct generalizing lines with
  | case1 =>
    cases h
    exact ⟨Nat.le_refl _, id⟩
  | case2 pos items rest ih =>
    simp only [operandLines] at h
    cases hr : operandLines rest with
    | error d => simp [hr, Except.map] at h
    | ok tail =>
      simp only [hr, Except.map, Except.ok.injEq] at h
      subst h
      obtain ⟨light, whole⟩ := ih hr
      rw [linesItems_cons, weightAll_append, whole_append]
      refine ⟨by simp only [weightAll, weight]; omega, fun all => ⟨?_, whole (all.part (by simp))⟩⟩
      exact (all.part (List.cons_subset_cons _ (List.nil_subset _))).items
  | case3 pos spelling rest ih =>
    simp only [operandLines] at h
    obtain ⟨light, whole⟩ := ih h
    exact ⟨Nat.le_trans light (Nat.le_add_left _ _), fun all => whole (all.part (by simp))⟩
  | case4 other rest h₁ h₂ =>
    rw [operandLines] at h
    · cases h
    · exact h₁
    · exact h₂

theorem bodyLines_items {pos : Position} {nodes : List Tree} {lines : List Line}
    (h : bodyLines pos nodes = .ok lines) :
    weightAll (linesItems lines) ≤ weightAll nodes ∧ (Whole nodes → Whole (linesItems lines)) := by
  have single : linesItems [⟨nodes, pos⟩] = nodes := by simp [linesItems]
  unfold bodyLines splitLines at h
  split at h
  · next at_ tag tier items more trimmed =>
    split at h
    · split at h
      · cases read : operandLines items with
        | error d => simp [read, Except.map] at h
        | ok found =>
          simp only [read, Except.map, Option.getD_some, Except.ok.injEq] at h
          subst h
          obtain ⟨light, whole⟩ := operandLines_items read
          have inner := trim_sublist nodes
          rw [trimmed] at inner
          have less := weightAll_sublist inner
          simp only [weightAll, weight] at less
          exact ⟨by omega, fun all => whole (all.sublist inner).items⟩
      · simp [Except.map] at h
    · simp only [Except.map, Option.getD_none, Except.ok.injEq] at h
      rw [← h, single]
      exact ⟨Nat.le_refl _, id⟩
  · simp only [Except.map, Option.getD_none, Except.ok.injEq] at h
    rw [← h, single]
    exact ⟨Nat.le_refl _, id⟩

/-- What a definition is worth: an element of a value has no source of its own. -/
def Definition.price (d : Definition) : Nat := if d.path.isEmpty then Tree.price d.value else 0

def pricesOf (entries : List (String × Definition)) : Nat := (entries.map (·.2.price)).sum

theorem pricesOf_replace (name : String) (d : Definition) (entries : List (String × Definition)) :
    pricesOf (Table.replace name d entries) ≤ pricesOf entries + d.price := by
  induction entries with
  | nil => simp [pricesOf, Table.replace]
  | cons entry rest ih =>
    obtain ⟨own, first⟩ := entry
    by_cases same : own = name
    · simp only [Table.replace, if_pos same, pricesOf, List.map_cons, List.sum_cons]
      omega
    · simp only [Table.replace, if_neg same, pricesOf, List.map_cons, List.sum_cons] at ih ⊢
      omega

namespace Body

/-- What was read of a body, against what stood in the lines so far. -/
structure WorthOf (body : Body) (read : List Tree) : Prop where
  worth : pricesOf body.definitions.entries + weightAll (linesItems body.lines) ≤ weightAll read
  whole : Whole read →
    (∀ d ∈ body.definitions.values, Whole d.value) ∧ Whole (linesItems body.lines)

theorem WorthOf.more {body : Body} {read : List Tree} (h : body.WorthOf read) (more : List Tree) :
    body.WorthOf (read ++ more) where
  worth := by
    rw [weightAll_append]
    exact Nat.le_trans h.worth (Nat.le_add_right _ _)
  whole all := h.whole ((whole_append _ _).1 all).1

theorem define_worth (mark : Position) (value : List Tree) (bounds : List BoundName)
    (read : Definitions × List Diagnostic) :
    pricesOf (bounds.foldl (define mark value) read).1.entries ≤
      pricesOf read.1.entries +
        (bounds.map fun bound => if bound.path.isEmpty then price value else 0).sum := by
  induction bounds generalizing read with
  | nil => exact Nat.le_refl _
  | cons bound rest ih =>
    have one : pricesOf (define mark value read bound).1.entries ≤
        pricesOf read.1.entries + if bound.path.isEmpty then price value else 0 := by
      unfold define
      split
      · next previous _ =>
        have none_left : (Definition.erroneous previous.pos).price = 0 := rfl
        have put := pricesOf_replace bound.name (.erroneous previous.pos) read.1.entries
        rw [none_left] at put
        exact Nat.le_trans put (Nat.le_add_right _ _)
      · exact pricesOf_replace bound.name ⟨mark, value, bound.path⟩ read.1.entries
    have others := ih (define mark value read bound)
    rw [List.foldl_cons, List.map_cons, List.sum_cons]
    omega

theorem define_whole (mark : Position) {value : List Tree} (hv : Whole value)
    (bounds : List BoundName) {read : Definitions × List Diagnostic}
    (h : ∀ d ∈ read.1.values, Whole d.value) :
    ∀ d ∈ (bounds.foldl (define mark value) read).1.values, Whole d.value := by
  induction bounds generalizing read with
  | nil => exact h
  | cons bound rest ih =>
    rw [List.foldl_cons]
    refine ih fun d hd => ?_
    unfold define at hd
    split at hd
    · rcases Table.mem_values_put _ _ _ d hd with rfl | hd
      · exact whole_leaf _ _
      · exact h d hd
    · rcases Table.mem_values_put _ _ _ d hd with rfl | hd
      · exact hv
      · exact h d hd

/-- The names of one pattern are worth the value once at most. -/
theorem names_worth (pattern : Pattern) (value : List Tree) :
    (pattern.names.map fun bound => if bound.path.isEmpty then price value else 0).sum ≤
      price value := by
  cases pattern with
  | bind name pos => simp [Pattern.names, Pattern.namesAt]
  | list parts =>
    have inner : ∀ bound ∈ (Pattern.list parts).names,
        (if bound.path.isEmpty then price value else 0) = 0 := by
      intro bound hb
      have away := Pattern.namesFrom_path [] 0 parts bound hb
      rw [if_neg (by simpa using away)]
    rw [List.map_congr_left inner]
    simp

theorem readLine_worth {body after : Body} {line : Line} {found : List Diagnostic}
    {read : List Tree} (h : body.WorthOf read) (he : readLine body line = .ok (after, found)) :
    after.WorthOf (read ++ line.items) := by
  unfold readLine at he
  cases hs : twoSided? (· == .definition) line.pos line.items with
  | error d => simp [hs, bind, Except.bind] at he
  | ok sides? =>
    cases sides? with
    | none =>
      simp only [hs, bind, Except.bind, pure, Except.pure, Except.ok.injEq, Prod.mk.injEq] at he
      obtain ⟨rfl, -⟩ := he
      have split : linesItems (body.lines ++ [line]) = linesItems body.lines ++ line.items := by
        simp [linesItems]
      have worth := h.worth
      refine ⟨?_, fun all => ?_⟩
      · rw [split, weightAll_append, weightAll_append, ← Nat.add_assoc]
        exact Nat.add_le_add_right worth _
      · obtain ⟨before, here⟩ := (whole_append _ _).1 all
        rw [split]
        exact ⟨(h.whole before).1, (whole_append _ _).2 ⟨(h.whole before).2, here⟩⟩
    | some sides =>
      cases hp : Pattern.read sides.left.pos sides.leftItems with
      | error d => simp [hs, hp, bind, Except.bind] at he
      | ok pattern =>
        simp only [hs, hp, bind, Except.bind, pure, Except.pure, Except.ok.injEq,
          Prod.mk.injEq] at he
        obtain ⟨rfl, -⟩ := he
        have worth := h.worth
        refine ⟨?_, fun all => ?_⟩
        · have defined :=
            define_worth sides.mark.pos sides.rightItems pattern.names (body.definitions, [])
          have once := names_worth pattern sides.rightItems
          have lighter := Nat.le_trans (twoSided?_worth hs) (worth_le line.items)
          rw [weightAll_append]
          dsimp only at defined ⊢
          omega
        · obtain ⟨before, here⟩ := (whole_append _ _).1 all
          exact ⟨define_whole _ (twoSided?_whole hs here).2 _ (h.whole before).1,
            (h.whole before).2⟩

theorem readLines_worth (rest : List Line) {body : Body} (found : List Diagnostic)
    {read : List Tree} (h : body.WorthOf read) :
    (readLines rest (body, found)).1.WorthOf (read ++ linesItems rest) := by
  induction rest generalizing body found read with
  | nil => simpa [readLines, linesItems] using h
  | cons line rest ih =>
    rw [linesItems_cons, ← List.append_assoc, readLines]
    split
    · exact ih found (h.more _)
    · split
      · next after more he => exact ih (found ++ more) (readLine_worth h he)
      · next d _ => exact ih (found ++ [d]) (h.more _)

/-- The definitions and the other lines of a body are worth no more than the body. -/
theorem read_worth {pos : Position} {nodes : List Tree} {body : Body} {found : List Diagnostic}
    (h : read pos nodes = .ok (body, found)) : body.WorthOf nodes := by
  unfold read at h
  cases hl : bodyLines pos nodes with
  | error d =>
    rw [hl] at h
    cases h
  | ok lines =>
    rw [hl] at h
    simp only [Except.map, Except.ok.injEq] at h
    have start : empty.WorthOf [] :=
      ⟨Nat.le_refl _, fun _ => ⟨fun _ hd => (by cases hd), whole_nil⟩⟩
    have last := readLines_worth lines [] start
    rw [h, List.nil_append] at last
    obtain ⟨light, whole⟩ := bodyLines_items hl
    exact ⟨Nat.le_trans last.worth light, fun all => last.whole (whole all)⟩

theorem read_of_arranged (pos : Position) {form : Option Form} {nodes : List Tree}
    (whole : Whole nodes)
    (h : Arranged form nodes) : ∃ body found, read pos nodes = .ok (body, found) := by
  have turns : ∀ chain ∈ nodes, ∀ tag tier, chain.form? = some (.chain tag tier) →
      Alternating chain.items := fun chain hm tag tier hf =>
    (whole chain (subset_preorderAll nodes hm) _ hf).2.2.1
  obtain ⟨lines?, split⟩ := h.splitLines turns
  refine ⟨(readLines (lines?.getD [⟨nodes, pos⟩]) (empty, [])).1,
    (readLines (lines?.getD [⟨nodes, pos⟩]) (empty, [])).2, ?_⟩
  rw [read, bodyLines, split]
  rfl

end Body

end NamespaceLang

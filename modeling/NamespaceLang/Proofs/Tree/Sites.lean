import Mathlib.Algebra.GroupWithZero.Nat
import Mathlib.Data.List.Nodup
import NamespaceLang.Proofs.Tree.Folding

/-!
# Sites

Namespaces and bindings come from places of the source: a list between square
brackets may be the body of a namespace, and a chain of two sides may be the
line of a definition or of a field. A site is named by a position, where the
bracket opens or where the mark of the line stands. Since every position has at
most one lexeme, and no fold, wrap or chain loses or copies an item, a text has
no site twice.
-/

set_option autoImplicit false

namespace NamespaceLang

inductive Site where
  | file
  | literal (pos : Position)
  | line (mark : Position)
  deriving DecidableEq, Repr

def Site.mark? : Site → Option Position
  | .line mark => some mark
  | _ => none

/-- The chains that are lines of definitions or of fields, if they have two sides. -/
def ChainTag.isLine (tag : ChainTag) : Bool := tag == .definition || tag.bindsField

namespace Tree

def site? : Tree → Option Site
  | .group pos (.block .list _ _) _ => some (.literal pos)
  | .group _ (.chain tag _) [_, .leaf mark (.operator _), _] =>
    if tag.isLine then some (.line mark) else none
  | _ => none

def sites (nodes : List Tree) : List Site := (preorderAll nodes).filterMap site?

@[simp] theorem sites_nil : sites [] = [] := rfl

@[simp] theorem sites_append (left right : List Tree) :
    sites (left ++ right) = sites left ++ sites right := by
  simp [sites]

theorem sites_cons (node : Tree) (rest : List Tree) : sites (node :: rest) = sites [node] ++ sites rest :=
  sites_append [node] rest

theorem sites_leaf (pos : Position) (content : Leaf) : sites [.leaf pos content] = [] := rfl

theorem sites_group (pos : Position) (form : Form) (items : List Tree) :
    sites [.group pos form items] = (site? (.group pos form items)).toList ++ sites items := by
  unfold sites
  simp only [preorderAll, preorder, List.append_nil, List.filterMap_cons]
  cases site? (.group pos form items) <;> rfl

theorem sites_sublist {part nodes : List Tree} (h : part.Sublist nodes) :
    (sites part).Sublist (sites nodes) := by
  induction h with
  | slnil => exact List.Sublist.slnil
  | cons node _ ih =>
    rw [sites_cons]
    exact ih.trans (List.sublist_append_right _ _)
  | @cons_cons part rest node _ ih =>
    rw [sites_cons node part, sites_cons node rest]
    exact ih.append_left _

mutual

theorem length_preorder : (node : Tree) → node.preorder.length = node.weight
  | .leaf .. => rfl
  | .group _ _ items => congrArg (· + 1) (length_preorderAll items)

theorem length_preorderAll : (nodes : List Tree) → (preorderAll nodes).length = weightAll nodes
  | [] => rfl
  | node :: rest => by
    rw [preorderAll, weightAll, List.length_append, length_preorder node, length_preorderAll rest]

end

def lineMarks (nodes : List Tree) : List Position := (sites nodes).filterMap Site.mark?

theorem length_lineMarks_le (nodes : List Tree) : (lineMarks nodes).length ≤ weightAll nodes := by
  rw [← length_preorderAll]
  exact Nat.le_trans (List.length_filterMap_le _ _) (List.length_filterMap_le _ _)

/-- What makes a site of a node: the bracket that opens, or the operator between two sides. -/
def anchor? : Tree → Option Site
  | .group pos (.block .list _ _) _ => some (.literal pos)
  | .leaf pos (.operator _) => some (.line pos)
  | _ => none

/-- How often a site is anchored among some nodes and all below them. -/
def anchored (site : Site) (nodes : List Tree) : Nat :=
  ((preorderAll nodes).filterMap anchor?).count site

section

variable (site : Site)

@[simp] theorem anchored_nil : anchored site [] = 0 := rfl

@[simp] theorem anchored_append (left right : List Tree) :
    anchored site (left ++ right) = anchored site left + anchored site right := by
  simp [anchored]

theorem anchored_cons (node : Tree) (rest : List Tree) :
    anchored site (node :: rest) = anchored site [node] + anchored site rest :=
  anchored_append site [node] rest

theorem anchored_group (pos : Position) (form : Form) (items : List Tree) :
    anchored site [.group pos form items] =
      (anchor? (.group pos form items)).toList.count site + anchored site items := by
  unfold anchored
  simp only [preorderAll, preorder, List.append_nil, List.filterMap_cons]
  cases anchor? (.group pos form items) with
  | none => simp
  | some own => simp [List.count_cons, Nat.add_comm]

theorem anchored_leaf_le (pos : Position) (content : Leaf) :
    anchored site [.leaf pos content] ≤ if site = .line pos then 1 else 0 := by
  cases content with
  | operator spelling =>
    show List.count site [.line pos] ≤ _
    rw [List.count_singleton]
    by_cases same : site = .line pos
    · simp [same]
    · simp [same, Ne.symm same]
  | _ => exact Nat.zero_le _

theorem anchored_operator (pos : Position) (spelling : String) :
    anchored site [.leaf pos (.operator spelling)] = [Site.line pos].count site := rfl

theorem site?_group (pos : Position) (form : Form) (items : List Tree) :
    site? (.group pos form items) = none ∨
      anchor? (.group pos form items) = site? (.group pos form items) ∨
      ∃ left mark spelling right, items = [left, .leaf mark (.operator spelling), right] ∧
        site? (.group pos form items) = some (.line mark) := by
  unfold site?
  split
  · next same =>
    cases same
    exact Or.inr (Or.inl rfl)
  · next tag _ left mark spelling right same =>
    cases same
    by_cases line : tag.isLine
    · exact Or.inr (Or.inr ⟨left, mark, spelling, right, rfl, if_pos line⟩)
    · exact Or.inl (if_neg line)
  · exact Or.inl rfl

mutual

theorem count_sites_le_node : (node : Tree) → (sites [node]).count site ≤ anchored site [node]
  | .leaf pos content => by
    rw [sites_leaf]
    exact Nat.zero_le _
  | .group pos form items => by
    rw [sites_group, anchored_group, List.count_append]
    rcases site?_group pos form items with none_there | here | ⟨left, mark, spelling, right, rfl, line⟩
    · have inner := count_sites_le items
      rw [none_there]
      exact Nat.le_trans (by simpa using inner) (Nat.le_add_left _ _)
    · have inner := count_sites_le items
      rw [here]
      exact Nat.add_le_add_left inner _
    · have first := count_sites_le_node left
      have last := count_sites_le_node right
      rw [line, sites_cons, sites_cons (.leaf _ _), sites_leaf, anchored_cons,
        anchored_cons _ (.leaf _ _), anchored_operator]
      simp only [Option.toList_some, List.count_append, List.nil_append]
      omega

theorem count_sites_le : (nodes : List Tree) → (sites nodes).count site ≤ anchored site nodes
  | [] => Nat.le_refl _
  | node :: rest => by
    have first := count_sites_le_node node
    have others := count_sites_le rest
    rw [sites_cons, anchored_cons, List.count_append]
    omega

end

end

end Tree

open NamespaceLang.Tree

def OpenScope.own? (s : OpenScope) : Option Site :=
  match s.kind with
  | .block .square => some (.literal s.pos)
  | _ => none

def OpenScope.anchored (site : Site) (s : OpenScope) : Nat :=
  s.own?.toList.count site + Tree.anchored site s.before.toList +
    match s.kind with
    | .block _ => 0
    | .chain c => Tree.anchored site c.done.toList

theorem OpenScope.anchored_chain (site : Site) {s : OpenScope} {c : OpenChain}
    (h : s.kind = .chain c) :
    s.anchored site = Tree.anchored site s.before.toList + Tree.anchored site c.done.toList := by
  rw [anchored, own?, h]
  simp

theorem OpenScope.anchored_mk_chain (site : Site) (pos : Position) (indent : Int) (c : OpenChain)
    (before : Array Tree) : OpenScope.anchored site ⟨pos, indent, .chain c, before⟩ =
      Tree.anchored site before.toList + Tree.anchored site c.done.toList :=
  OpenScope.anchored_chain site rfl

namespace Builder

def anchored (site : Site) (b : Builder) : Nat :=
  Tree.anchored site b.items.toList + (b.scopes.map (·.anchored site)).sum

variable (site : Site)

theorem anchored_add_le (b : Builder) (pos : Position) (content : Leaf) :
    (b.add (.leaf pos content)).anchored site ≤
      b.anchored site + if site = .line pos then 1 else 0 := by
  have leaf := anchored_leaf_le site pos content
  simp only [anchored, add, Array.toList_push, anchored_append]
  omega

theorem anchored_segment (items : List Tree) (fallback : Position) :
    Tree.anchored site [segment items fallback] = Tree.anchored site items :=
  (anchored_group site _ _ _).trans (Nat.zero_add _)

theorem anchored_fold {b : Builder} {s : OpenScope} {outer : List OpenScope}
    (h : b.scopes = s :: outer) : (b.fold s outer).anchored site = b.anchored site := by
  obtain ⟨pos, indent, kind, before⟩ := s
  have whole : Tree.anchored site [OpenScope.tree ⟨pos, indent, kind, before⟩ b.items.toList] +
      Tree.anchored site before.toList =
        (⟨pos, indent, kind, before⟩ : OpenScope).anchored site +
          Tree.anchored site b.items.toList := by
    unfold OpenScope.anchored OpenScope.tree
    cases kind with
    | block d =>
      rw [anchored_group]
      cases d <;> simp [anchor?, OpenScope.own?, Delimiter.blockTag] <;> omega
    | chain c =>
      rw [anchored_group, Array.toList_push, anchored_append, anchored_segment]
      simp [anchor?, OpenScope.own?]
      omega
  simp only [anchored, fold, h, Array.toList_push, anchored_append, List.map_cons, List.sum_cons]
  omega

theorem anchored_unwind (stays : OpenScope → Bool) (complaint : OpenScope → Diagnostic)
    (b : Builder) : (b.unwind stays complaint).anchored site = b.anchored site := by
  refine (unwind_rule (P := fun later => later.anchored site = b.anchored site) ?_ rfl).1
  intro later s outer hs _ same
  rw [foldOnce]
  split
  · have folded := anchored_fold site (b := later.report (complaint s)) hs
    exact folded.trans same
  · exact (anchored_fold site hs).trans same

theorem anchored_openBlock_le (b : Builder) (d : Delimiter) (start : Position) (indent : Int) :
    (b.openBlock d start indent).anchored site ≤
      b.anchored site + if site = .literal start then 1 else 0 := by
  unfold openBlock
  split
  · exact Nat.le_add_right _ _
  · have own : (OpenScope.own? ⟨start, indent, .block d, b.items⟩).toList.count site ≤
        if site = .literal start then 1 else 0 := by
      cases d with
      | square =>
        show List.count site [.literal start] ≤ _
        rw [List.count_singleton]
        by_cases same : site = .literal start
        · simp [same]
        · simp [same, Ne.symm same]
      | _ => exact Nat.zero_le _
    show Tree.anchored site [] + (OpenScope.anchored site ⟨start, indent, .block d, b.items⟩ +
      (b.scopes.map (·.anchored site)).sum) ≤ _
    rw [OpenScope.anchored, anchored_nil, anchored]
    dsimp only
    omega

theorem anchored_close (b : Builder) (d : Delimiter) (start : Position) (indent : Int) :
    (b.close d start indent).anchored site = b.anchored site := by
  have unwound : (b.foldToCloser d start indent).anchored site = b.anchored site :=
    anchored_unwind site _ _ b
  apply close_rule (P := fun later => later.anchored site = b.anchored site)
  · intro s outer hs _
    exact (anchored_fold site hs).trans unwound
  · exact fun _ => unwound

theorem anchored_wrap (b : Builder) (w : Wrapper) (start : Position) (indent : Int) :
    (b.wrap w start indent).anchored site = b.anchored site := by
  rw [wrap, ← anchored_unwind site (·.holds indent w.tier) (unclosedAt start w.spelling indent) b]
  generalize b.unwind _ _ = u
  have split := congrArg (Tree.anchored site)
    (List.takeWhile_append_dropWhile (p := Tree.isBlank) (l := u.items.toList))
  rw [anchored_append] at split
  have none_own : (anchor? (.group (((trimStart u.items.toList).head?.map Tree.pos).getD start)
      (.block w.blockTag "" w.spelling) (trimStart u.items.toList))).toList.count site = 0 := by
    cases w <;> rfl
  simp only [anchored, wrapItems, Array.toList_push, anchored_append]
  rw [anchored_group, none_own, Nat.zero_add]
  exact congrArg (· + _) split

theorem anchored_extend_le (c : OpenChain) (items : List Tree) (j : Joiner) (start next : Position) :
    Tree.anchored site (c.extend items j start next).done.toList ≤
      Tree.anchored site c.done.toList + Tree.anchored site items +
        if site = .line start then 1 else 0 := by
  have operator := anchored_leaf_le site start (.operator j.spelling)
  simp only [OpenChain.extend, Array.toList_push, anchored_append, anchored_segment]
  omega

theorem anchored_join_le (b : Builder) (j : Joiner) (start next : Position) :
    (b.join j start next).anchored site ≤
      b.anchored site + if site = .line start then 1 else 0 := by
  have unwound : (b.foldTighter j start).anchored site = b.anchored site :=
    anchored_unwind site _ _ b
  apply join_rule (P := fun later => later.anchored site ≤
    b.anchored site + if site = .line start then 1 else 0)
  · intro _
    have grown := anchored_extend_le site ⟨j.tag, j.tier, #[], start, start⟩
      (b.foldTighter j start).items.toList j start next
    rw [← unwound]
    simp only [startChain, anchored, List.map_cons, List.sum_cons, OpenScope.anchored_mk_chain,
      anchored_nil] at grown ⊢
    omega
  · intro s c outer hs hk _
    have grown := anchored_extend_le site c (b.foldTighter j start).items.toList j start next
    have before := OpenScope.anchored_chain site hk
    rw [← unwound]
    unfold extendChain
    split <;>
    · simp only [anchored, hs, List.map_cons, List.sum_cons, before,
        OpenScope.anchored_mk_chain, anchored_nil, report]
      omega

theorem anchored_place_le (b : Builder) (l : Lexeme) (start : Position) (after : Cursor)
    (hl : l.occursIn b.mode) :
    (b.place l start after).anchored site ≤
      b.anchored site + if site = .literal start ∨ site = .line start then 1 else 0 := by
  have line : (if site = .line start then 1 else 0) ≤
      if site = .literal start ∨ site = .line start then 1 else 0 := by
    split <;> simp [*]
  have literal : (if site = .literal start then 1 else 0) ≤
      if site = .literal start ∨ site = .line start then 1 else 0 := by
    split <;> simp [*]
  have added : ∀ (b' : Builder) (content : Leaf), b'.anchored site = b.anchored site →
      (b'.add (.leaf start content)).anchored site ≤ b.anchored site +
        if site = .literal start ∨ site = .line start then 1 else 0 := by
    intro b' content same
    have le := anchored_add_le site b' start content
    omega
  refine place_rule (P := fun later => later.anchored site ≤ b.anchored site +
    if site = .literal start ∨ site = .line start then 1 else 0) hl ?_ ?_ ?_ ?_ ?_ ?_ ?_ ?_ ?_
  · exact fun content _ => added b content rfl
  · exact fun _ => added b _ rfl
  · exact fun _ _ => added _ _ rfl
  · exact fun _ _ => added _ _ rfl
  · exact fun d _ => Nat.le_trans (anchored_openBlock_le site b d _ _) (Nat.add_le_add_left literal _)
  · intro d _ _
    rw [anchored_close]
    exact Nat.le_add_right _ _
  · intro _
    rw [anchored_close]
    exact Nat.le_add_right _ _
  · intro w _
    rw [anchored_wrap]
    exact Nat.le_add_right _ _
  · exact fun j _ => Nat.le_trans (anchored_join_le site b j _ _) (Nat.add_le_add_left line _)

end Builder

namespace Cursor

theorem past_offset (c : Cursor) (ch : Char) (rest : List Char) :
    (c.past ch rest).offset = c.offset + ch.utf8Size := by
  unfold past
  split <;> rfl

theorem take?_offset {c after : Cursor} {ch : Char} (h : c.take? = some (ch, after)) :
    c.offset < after.offset := by
  unfold take? at h
  split at h
  · cases h
  · cases h
    rw [past_offset]
    exact Nat.lt_add_of_pos_right (Char.utf8Size_pos ch)

end Cursor

namespace Lexeme

theorem next_offset (mode : Mode) (first : Char) (after : Cursor) :
    after.offset ≤ (next mode first after).2.offset := by
  refine next_rule (P := fun later => after.offset ≤ later.offset) ?_ mode first (Nat.le_refl _)
  intro c ch rest _ further
  rw [Cursor.past_offset]
  exact Nat.le_trans further (Nat.le_add_right _ _)

end Lexeme

theorem reading_anchored {file : String} {text : List Char} {b : Builder} {c : Cursor}
    (h : Reading file text b c) (site : Site) :
    b.anchored site ≤ 1 ∧ (0 < b.anchored site →
      ∃ pos, (site = .literal pos ∨ site = .line pos) ∧ pos.offset < c.offset) := by
  induction h with
  | start => exact ⟨Nat.zero_le _, fun there => absurd there (Nat.lt_irrefl 0)⟩
  | @next b c after first before going taken ih =>
    have placed := Builder.anchored_place_le site b (Lexeme.next b.mode first after).1 c.position
      (Lexeme.next b.mode first after).2 (Lexeme.next_occurs _ _ _)
    have further : c.offset < (Lexeme.next b.mode first after).2.offset :=
      Nat.lt_of_lt_of_le (Cursor.take?_offset taken) (Lexeme.next_offset _ _ _)
    by_cases here : site = .literal c.position ∨ site = .line c.position
    · -- the cursor has not been here before
      have fresh : b.anchored site = 0 := Nat.eq_zero_of_not_pos fun there => by
        obtain ⟨pos, at_, lt⟩ := ih.2 there
        have same : pos = c.position := by
          rcases here with rfl | rfl <;> rcases at_ with at_ | at_ <;> cases at_ <;> rfl
        rw [same] at lt
        exact Nat.lt_irrefl _ lt
      rw [if_pos here] at placed
      exact ⟨by omega, fun _ => ⟨c.position, here, further⟩⟩
    · rw [if_neg here] at placed
      refine ⟨Nat.le_trans placed ih.1, fun there => ?_⟩
      obtain ⟨pos, at_, lt⟩ := ih.2 (by omega)
      exact ⟨pos, at_, Nat.lt_trans lt further⟩

theorem tokenize_anchored (file : String) (text : List Char) (site : Site) :
    Tree.anchored site (tokenize file text).nodes ≤ 1 ∧
      (0 < Tree.anchored site (tokenize file text).nodes → site ≠ .file) := by
  obtain ⟨b, c, read, -, nodes, -⟩ := tokenize_reading file text
  obtain ⟨once, placed⟩ := reading_anchored read site
  have finished : (b.finish c.position).anchored site = b.anchored site :=
    Builder.anchored_unwind site _ _ b
  rw [Builder.anchored, Builder.finish_scopes, List.map_nil, List.sum_nil, Nat.add_zero, ← nodes]
    at finished
  rw [finished]
  refine ⟨once, fun there => ?_⟩
  obtain ⟨pos, rfl | rfl, -⟩ := placed there <;> simp

/-- A text has no site twice, and is none of its own sites. -/
theorem tokenize_sites_nodup (file : String) (text : List Char) :
    (Site.file :: Tree.sites (tokenize file text).nodes).Nodup := by
  rw [List.nodup_iff_count_le_one]
  intro site
  have le := Tree.count_sites_le site (tokenize file text).nodes
  obtain ⟨once, other⟩ := tokenize_anchored file text site
  rw [List.count_cons]
  by_cases whole : site = .file
  · have none_there : Tree.anchored site (tokenize file text).nodes = 0 := by
      by_contra there
      exact other (Nat.pos_of_ne_zero there) whole
    simp [whole] at *
    omega
  · simp [Ne.symm whole]
    omega

end NamespaceLang

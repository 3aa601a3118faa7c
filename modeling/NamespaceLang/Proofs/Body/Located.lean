import NamespaceLang.Proofs.Body.Orderly
import NamespaceLang.Proofs.Body.Parts
import NamespaceLang.Proofs.Tree.Located

/-!
# Bodies of located nodes

Lines, sides, patterns and bodies begin where nodes begin, and what is wrong with one of
them is told at a node of it. So the places of what is read are those of the nodes that it
is read from.
-/

set_option autoImplicit false

namespace NamespaceLang

variable {P : Position → Prop} {α β : Type}

def Tells (P : Position → Prop) (Q : α → Prop) : Except Diagnostic α → Prop
  | .ok a => Q a
  | .error d => d.Located P

namespace Tells

variable {Q : α → Prop} {R : β → Prop}

theorem ok {e : Except Diagnostic α} (h : Tells P Q e) {a : α} (he : e = .ok a) : Q a := by
  subst he
  exact h

theorem error {e : Except Diagnostic α} (h : Tells P Q e) {d : Diagnostic} (he : e = .error d) :
    d.Located P := by
  subst he
  exact h

theorem map {e : Except Diagnostic α} {f : α → β} (h : Tells P Q e) (hf : ∀ a, Q a → R (f a)) :
    Tells P R (e.map f) := by
  cases e with
  | ok a => exact hf a h
  | error d => exact h

theorem bind {e : Except Diagnostic α} {f : α → Except Diagnostic β} (h : Tells P Q e)
    (hf : ∀ a, Q a → Tells P R (f a)) : Tells P R (e >>= f) := by
  cases e with
  | ok a => exact hf a h
  | error d => exact h

end Tells

open NamespaceLang.Tree

structure Line.Located (P : Position → Prop) (line : Line) : Prop where
  pos : P line.pos
  items : Tree.Located P line.items

structure TwoSided.Located (P : Position → Prop) (sides : TwoSided) : Prop where
  left : Tree.Located P [sides.left]
  mark : P sides.mark.pos
  right : Tree.Located P [sides.right]

namespace Tree

variable {nodes : List Tree}

theorem Located.trim (h : Located P nodes) : Located P (trim nodes) :=
  h.part (trim_sublist nodes).subset

theorem Located.first {node : Tree} {rest : List Tree} (h : Located P (node :: rest)) :
    Located P [node] := h.part (by simp)

theorem Located.rest {node : Tree} {rest : List Tree} (h : Located P (node :: rest)) :
    Located P rest := h.part (by simp)

theorem Located.side {node : Tree} (h : Located P [node]) : Located P (sideItems node) := by
  unfold sideItems
  split
  · exact ((located_group _ _ _).1 h).2
  · exact h

end Tree

theorem operandLines_located {items : List Tree} (h : Tree.Located P items) :
    Tells P (fun lines => ∀ line ∈ lines, line.Located P) (operandLines items) := by
  induction items using operandLines.induct with
  | case1 => exact fun _ hl => by cases hl
  | case2 pos items rest ih =>
    obtain ⟨hp, hi⟩ := (located_group _ _ _).1 h.first
    rw [operandLines]
    exact (ih h.rest).map fun lines hl => List.forall_mem_cons.2 ⟨⟨hp, hi⟩, hl⟩
  | case3 pos spelling rest ih =>
    rw [operandLines]
    exact ih h.rest
  | case4 other rest h₁ h₂ =>
    rw [operandLines]
    · exact Diagnostic.located_unreachable (h.head List.mem_cons_self) _
    · exact h₁
    · exact h₂

theorem bodyLines_located {pos : Position} (hp : P pos) {nodes : List Tree}
    (h : Tree.Located P nodes) :
    Tells P (fun lines => ∀ line ∈ lines, line.Located P) (bodyLines pos nodes) := by
  have trimmed := h.trim
  have whole : ∀ line ∈ [(⟨nodes, pos⟩ : Line)], line.Located P := by
    simpa using ⟨hp, h⟩
  unfold bodyLines splitLines
  split
  · next at_ tag tier items more ht =>
    rw [ht] at trimmed
    split
    · split
      · obtain ⟨-, hi⟩ := (located_group _ _ _).1 trimmed.first
        have lines := operandLines_located hi
        cases hl : operandLines items with
        | ok found => exact lines.ok hl
        | error d => exact lines.error hl
      · exact Diagnostic.located_error (trimmed.head (by simp)) _
    · exact whole
  · exact whole

theorem twoSided?_located (want : ChainTag → Bool) {pos : Position} (hp : P pos)
    {nodes : List Tree} (h : Tree.Located P nodes) :
    Tells P (fun sides? => ∀ sides ∈ sides?, sides.Located P) (twoSided? want pos nodes) := by
  have trimmed := h.trim
  unfold twoSided?
  split
  · next at_ tag tier items more ht =>
    rw [ht] at trimmed
    split
    · split
      · next left mark right =>
        obtain ⟨-, parts⟩ := (located_group _ _ _).1 trimmed.first
        have sides : TwoSided.Located P ⟨tag, left, mark, right⟩ :=
          ⟨parts.first, parts.head (by simp), parts.rest.rest⟩
        show ∀ found ∈ (if mark.isOperator then some (⟨tag, left, mark, right⟩ : TwoSided) else none),
          found.Located P
        split
        · simpa using sides
        · simp
      · exact Diagnostic.located_error hp _
    · exact fun _ hs => by cases hs
  · exact fun _ hs => by cases hs

namespace Pattern

/-- The names of the pattern have positions with `P`, wherever it stands in another one. -/
def Located (P : Position → Prop) (p : Pattern) : Prop :=
  ∀ path, ∀ bound ∈ p.namesAt path, P bound.pos

theorem located_bind (name : String) {pos : Position} (h : P pos) : (bind name pos).Located P := by
  intro path bound hb
  rw [namesAt, List.mem_singleton] at hb
  rw [hb]
  exact h

theorem namesFrom_located {parts : List Pattern} (h : ∀ part ∈ parts, part.Located P)
    (path : List Nat) (index : Nat) : ∀ bound ∈ namesFrom path index parts, P bound.pos := by
  induction parts generalizing index with
  | nil =>
    intro bound hb
    rw [namesFrom] at hb
    cases hb
  | cons part rest ih =>
    obtain ⟨first, others⟩ := List.forall_mem_cons.1 h
    rw [namesFrom]
    exact List.forall_mem_append.2 ⟨first _, ih others _⟩

theorem located_list {parts : List Pattern} (h : ∀ part ∈ parts, part.Located P) :
    (list parts).Located P := by
  intro path
  rw [namesAt]
  exact namesFrom_located h path 0

mutual

theorem read_located {pos : Position} (hp : P pos) {nodes : List Tree} (h : Tree.Located P nodes) :
    Tells P (Pattern.Located P) (read pos nodes) := by
  have trimmed := h.trim
  rw [read]
  split
  · exact Diagnostic.located_error hp _
  · next ht => exact Diagnostic.located_error (trimmed.head (ht ▸ by simp)) _
  · next ht =>
    rw [ht, located_leaf] at trimmed
    exact located_bind _ trimmed
  · next at_ tag _ _ items ht =>
    rw [ht] at trimmed
    obtain ⟨here, inner⟩ := (located_group _ _ _).1 trimmed
    have smaller : Tree.weightAll items + 1 ≤ Tree.weightAll nodes := by
      simpa [ht, Tree.weightAll, Tree.weight] using Tree.weightAll_trim nodes
    have lined := bodyLines_located here inner
    split
    · exact Diagnostic.located_error here _
    · split
      · split
        · next d hl => exact lined.error hl
        · next lines hl =>
          have lighter := bodyLines_weight at_ items lines hl
          exact (readLines_located (lined.ok hl)).map fun parts hq => located_list hq
      · exact Diagnostic.located_error here _
  · next ht => exact Diagnostic.located_error (trimmed.head (ht ▸ by simp)) _
termination_by 3 * Tree.weightAll nodes + 1
decreasing_by omega

theorem readLines_located {lines : List Line} (h : ∀ line ∈ lines, line.Located P) :
    Tells P (fun parts => ∀ part ∈ parts, part.Located P) (readLines lines) := by
  match lines with
  | [] =>
    rw [readLines]
    exact fun _ hp => by cases hp
  | line :: rest =>
    obtain ⟨first, others⟩ := List.forall_mem_cons.1 h
    have sided := twoSided?_located (· == .definition) first.pos first.items
    have here := read_located first.pos first.items
    have there := readLines_located others
    rw [readLines]
    split
    · exact there
    · split
      · next d hs => exact sided.error hs
      · exact Diagnostic.located_error first.pos _
      · split
        · next d hr => exact here.error hr
        · next part hr =>
          exact there.map fun parts hq => List.forall_mem_cons.2 ⟨here.ok hr, hq⟩
termination_by lineWeight lines
decreasing_by all_goals simp only [lineWeight]; omega

end

end Pattern

structure Definition.Located (P : Position → Prop) (d : Definition) : Prop where
  pos : P d.pos
  value : Tree.Located P d.value

structure Body.Located (P : Position → Prop) (body : Body) : Prop where
  definitions : ∀ d ∈ body.definitions.values, d.Located P
  lines : ∀ line ∈ body.lines, line.Located P

namespace Body

theorem define_located {mark : Position} (hm : P mark) {value : List Tree}
    (hv : Tree.Located P value) {bounds : List BoundName} (hb : ∀ bound ∈ bounds, P bound.pos)
    {definitions : Definitions} {found : List Diagnostic}
    (hd : ∀ d ∈ definitions.values, d.Located P) (hf : ∀ d ∈ found, d.Located P) :
    (∀ d ∈ (bounds.foldl (define mark value) (definitions, found)).1.values, d.Located P) ∧
      ∀ d ∈ (bounds.foldl (define mark value) (definitions, found)).2, d.Located P := by
  induction bounds generalizing definitions found with
  | nil => exact ⟨hd, hf⟩
  | cons bound rest ih =>
    obtain ⟨here, others⟩ := List.forall_mem_cons.1 hb
    rw [List.foldl_cons, define]
    split
    · next previous hp =>
      have before := (hd previous (Table.mem_values_of_get? hp)).pos
      apply ih others
      · intro d hd'
        rcases Table.mem_values_put _ _ _ d hd' with rfl | hd'
        · exact ⟨before, (located_leaf _ _).2 before⟩
        · exact hd d hd'
      · refine List.forall_mem_append.2 ⟨hf, ?_⟩
        simpa using (Diagnostic.located_error here _).withNote before _
    · apply ih others
      · intro d hd'
        rcases Table.mem_values_put _ _ _ d hd' with rfl | hd'
        · exact ⟨hm, hv⟩
        · exact hd d hd'
      · exact hf

theorem readLine_located {body : Body} (hb : body.Located P) {line : Line} (hl : line.Located P) :
    Tells P (fun after => after.1.Located P ∧ ∀ d ∈ after.2, d.Located P) (readLine body line) := by
  unfold readLine
  refine (twoSided?_located _ hl.pos hl.items).bind fun sides? hs => ?_
  cases sides? with
  | none =>
    refine ⟨⟨hb.definitions, List.forall_mem_append.2 ⟨hb.lines, ?_⟩⟩, by simp⟩
    simpa using hl
  | some sides =>
    have sides := hs sides rfl
    refine (Pattern.read_located (sides.left.head List.mem_cons_self) sides.left.side).bind ?_
    intro pattern hp
    have none_yet : ∀ d ∈ ([] : List Diagnostic), d.Located P := by simp
    have defined := define_located sides.mark sides.right.side (hp []) hb.definitions none_yet
    exact ⟨⟨defined.1, hb.lines⟩, defined.2⟩

theorem readLines_located (lines : List Line) {body : Body} {found : List Diagnostic}
    (hl : ∀ line ∈ lines, line.Located P) (hb : body.Located P) (hf : ∀ d ∈ found, d.Located P) :
    (readLines lines (body, found)).1.Located P ∧
      ∀ d ∈ (readLines lines (body, found)).2, d.Located P := by
  induction lines generalizing body found with
  | nil => exact ⟨hb, hf⟩
  | cons line rest ih =>
    obtain ⟨here, others⟩ := List.forall_mem_cons.1 hl
    have first := readLine_located hb here
    rw [readLines]
    split
    · exact ih others hb hf
    · split
      · next after more he =>
        obtain ⟨ha, hm⟩ := first.ok he
        exact ih others ha (List.forall_mem_append.2 ⟨hf, hm⟩)
      · next d he =>
        exact ih others hb (List.forall_mem_append.2 ⟨hf, by simpa using first.error he⟩)

/-- The body of located nodes is located, and so is all that is wrong with it. -/
theorem read_located {pos : Position} (hp : P pos) {nodes : List Tree} (h : Tree.Located P nodes) :
    Tells P (fun read => read.1.Located P ∧ ∀ d ∈ read.2, d.Located P) (read pos nodes) := by
  have start : empty.Located P := ⟨by simp [empty, Table.empty, Table.values], by simp [empty]⟩
  unfold read
  exact (bodyLines_located hp h).map fun lines hl => readLines_located lines hl start (by simp)

end Body

end NamespaceLang

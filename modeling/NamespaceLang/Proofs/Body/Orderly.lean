import NamespaceLang.Body.Basic
import NamespaceLang.Proofs.Tree.Orderly

/-!
# Bodies of orderly nodes

What is wrong with a line or a pattern is an error of the text, and nothing
that was held to be impossible, as long as the chains are in order. What is
read out of orderly nodes is orderly again.
-/

set_option autoImplicit false

namespace NamespaceLang

namespace Diagnostic

def cause? (d : Diagnostic) : Option Cause := d.entries.head?.map (·.cause)

/-- A problem of the text: it is not held to be impossible, and no scope is gone. -/
def Usual (d : Diagnostic) : Prop := d.severity ≠ .unreachable ∧ d.cause? ≠ some .scopeGone

theorem usual_error (pos : Position) {cause : Cause} (h : cause ≠ .scopeGone) :
    (Diagnostic.error pos cause).Usual := by
  refine ⟨by simp [severity, error], ?_⟩
  simpa [cause?, error] using h

theorem Usual.withNote {d : Diagnostic} (h : d.Usual) (he : d.entries ≠ []) (pos : Position)
    (cause : Cause) : (d.withNote pos cause).Usual := by
  obtain ⟨entries, trace⟩ := d
  cases entries with
  | nil => exact absurd rfl he
  | cons first rest => exact h

end Diagnostic

open NamespaceLang.Tree

theorem operandLines_orderly {items : List Tree} (h : Orderly items)
    (hc : ∀ item ∈ items, item.isOperand = true ∨ item.isOperator = true) :
    ∃ lines, operandLines items = .ok lines ∧ ∀ line ∈ lines, Orderly line.items := by
  induction items using operandLines.induct with
  | case1 => exact ⟨[], rfl, by simp⟩
  | case2 pos items rest ih =>
    obtain ⟨lines, hl, ho⟩ := ih h.tail fun item hm => hc item (List.mem_cons_of_mem _ hm)
    refine ⟨⟨items, pos⟩ :: lines, by simp [operandLines, hl, Except.map], ?_⟩
    exact List.forall_mem_cons.2 ⟨h.items, ho⟩
  | case3 pos spelling rest ih =>
    obtain ⟨lines, hl, ho⟩ := ih h.tail fun item hm => hc item (List.mem_cons_of_mem _ hm)
    exact ⟨lines, by simp [operandLines, hl], ho⟩
  | case4 other rest h₁ h₂ =>
    exfalso
    rcases hc other List.mem_cons_self with ho | ho
    · unfold isOperand at ho
      split at ho
      · exact h₁ _ _ rfl
      · cases ho
    · unfold isOperator at ho
      split at ho
      · exact h₂ _ _ rfl
      · cases ho

theorem bodyLines_orderly (pos : Position) {nodes : List Tree} (h : Orderly nodes) :
    (∀ lines, bodyLines pos nodes = .ok lines → ∀ line ∈ lines, Orderly line.items) ∧
      ∀ d, bodyLines pos nodes = .error d → d.Usual := by
  have trimmed := h.trim
  have whole : ∀ line ∈ [(⟨nodes, pos⟩ : Line)], Orderly line.items := by simpa using h
  unfold bodyLines splitLines
  split
  · next at_ tag tier items more ht =>
    rw [ht] at trimmed
    obtain ⟨lines, hl, ho⟩ := operandLines_orderly trimmed.items trimmed.chain
    split
    · split
      · rw [hl]
        refine ⟨fun lines' he => ?_, fun d he => by cases he⟩
        cases he
        exact ho
      · refine ⟨fun lines he => (by cases he), fun d he => ?_⟩
        cases he
        exact Diagnostic.usual_error _ (by simp)
    · refine ⟨fun lines he => ?_, fun d he => by cases he⟩
      cases he
      exact whole
  · refine ⟨fun lines he => ?_, fun d he => by cases he⟩
    cases he
    exact whole

theorem Orderly.side {node : Tree} (h : Orderly [node]) : Orderly (sideItems node) := by
  unfold sideItems
  split
  · exact h.items
  · exact h

theorem twoSided?_orderly (want : ChainTag → Bool) (pos : Position) {nodes : List Tree}
    (h : Orderly nodes) :
    (∀ sides, twoSided? want pos nodes = .ok (some sides) →
      Orderly sides.leftItems ∧ Orderly sides.rightItems) ∧
      ∀ d, twoSided? want pos nodes = .error d → d.Usual := by
  have trimmed := h.trim
  unfold twoSided?
  split
  · next at_ tag tier items more ht =>
    rw [ht] at trimmed
    split
    · split
      · next left mark right =>
        refine ⟨fun sides he => ?_, fun d he => by cases he⟩
        simp only [Except.ok.injEq] at he
        split at he
        · cases he
          have inner := trimmed.items
          exact ⟨inner.head.side, (inner.part (by simp)).side⟩
        · cases he
      · refine ⟨fun sides he => (by cases he), fun d he => ?_⟩
        cases he
        exact Diagnostic.usual_error _ (by simp)
    · exact ⟨fun sides he => (by cases he), fun d he => by cases he⟩
  · exact ⟨fun sides he => (by cases he), fun d he => by cases he⟩

namespace Pattern

theorem read_next {pos : Position} {nodes : List Tree} (h : Orderly nodes)
    (inner : ∀ lines, lineWeight lines ≤ 3 * Tree.weightAll nodes →
      (∀ line ∈ lines, Orderly line.items) → ∀ d, readLines lines = .error d → d.Usual)
    {d : Diagnostic} (he : read pos nodes = .error d) : d.Usual := by
  have trimmed := h.trim
  have light := Tree.weightAll_trim nodes
  rw [read] at he
  split at he
  · cases he
    exact Diagnostic.usual_error _ (by simp)
  · cases he
    exact Diagnostic.usual_error _ (by simp)
  · cases he
  · next at_ tag _ _ items ht =>
    rw [ht] at trimmed light
    simp only [Tree.weightAll, Tree.weight] at light
    have lined := bodyLines_orderly at_ trimmed.items
    split at he
    · cases he
      exact Diagnostic.usual_error _ (by simp)
    · split at he
      · split at he
        · next d' hl =>
          cases he
          exact lined.2 _ hl
        · next lines hl =>
          have lighter := bodyLines_weight at_ items lines hl
          cases hr : readLines lines with
          | error d' =>
            rw [hr] at he
            cases he
            exact inner lines (by omega) (lined.1 lines hl) _ hr
          | ok parts =>
            rw [hr] at he
            cases he
      · cases he
        exact Diagnostic.usual_error _ (by simp)
  · cases he
    exact Diagnostic.usual_error _ (by simp)

theorem readLines_next {line : Line} {rest : List Line} (h : Orderly line.items)
    (first : ∀ d, read line.pos line.items = .error d → d.Usual)
    (others : ∀ d, readLines rest = .error d → d.Usual) {d : Diagnostic}
    (he : readLines (line :: rest) = .error d) : d.Usual := by
  rw [readLines] at he
  split at he
  · exact others d he
  · split at he
    · next d' hs =>
      cases he
      exact (twoSided?_orderly _ _ h).2 _ hs
    · cases he
      exact Diagnostic.usual_error _ (by simp)
    · split at he
      · next d' hr =>
        cases he
        exact first _ hr
      · cases hr : readLines rest with
        | error d' =>
          rw [hr] at he
          cases he
          exact others _ hr
        | ok parts =>
          rw [hr] at he
          cases he

theorem readLines_usual (n : Nat) {lines : List Line} (hw : lineWeight lines ≤ n)
    (h : ∀ line ∈ lines, Orderly line.items) {d : Diagnostic} (he : readLines lines = .error d) :
    d.Usual := by
  induction n generalizing lines d with
  | zero =>
    cases lines with
    | nil =>
      rw [readLines] at he
      cases he
    | cons line rest =>
      simp only [lineWeight] at hw
      omega
  | succ n ih =>
    cases lines with
    | nil =>
      rw [readLines] at he
      cases he
    | cons line rest =>
      simp only [lineWeight] at hw
      obtain ⟨here, there⟩ := List.forall_mem_cons.1 h
      have first : ∀ d, read line.pos line.items = .error d → d.Usual := fun d hd =>
        read_next here (fun lines hl ho d hd => ih (by omega) ho hd) hd
      exact readLines_next here first (fun d hd => ih (by omega) there hd) he

theorem read_usual {pos : Position} {nodes : List Tree} (h : Orderly nodes) {d : Diagnostic}
    (he : read pos nodes = .error d) : d.Usual :=
  read_next h (fun _ hw ho _ hd => readLines_usual _ hw ho hd) he

end Pattern

namespace Table

theorem mem_values_put {κ α : Type} [DecidableEq κ] (t : Table κ α) (k : κ) (a : α) :
    ∀ b ∈ (t.put k a).values, b = a ∨ b ∈ t.values := by
  obtain ⟨entries⟩ := t
  simp only [put, values]
  induction entries with
  | nil => simp [replace]
  | cons entry rest ih =>
    obtain ⟨own, c⟩ := entry
    intro b hb
    by_cases hk : own = k
    · simp only [replace, if_pos hk, List.map_cons, List.mem_cons] at hb ⊢
      exact hb.imp_right Or.inr
    · simp only [replace, if_neg hk, List.map_cons, List.mem_cons] at hb ⊢
      rcases hb with hb | hb
      · exact Or.inr (Or.inl hb)
      · exact (ih b hb).imp_right Or.inr

theorem mem_values_of_get? {κ α : Type} [DecidableEq κ] {t : Table κ α} {k : κ} {a : α}
    (h : t.get? k = some a) : a ∈ t.values := by
  obtain ⟨entries⟩ := t
  simp only [get?, values] at h ⊢
  induction entries with
  | nil => cases h
  | cons entry rest ih =>
    obtain ⟨own, b⟩ := entry
    rw [find] at h
    split at h
    · cases h
      exact List.mem_cons_self
    · exact List.mem_cons_of_mem _ (ih h)

end Table

structure Body.Orderly (body : Body) : Prop where
  definitions : ∀ found ∈ body.definitions.values, NamespaceLang.Orderly found.value
  lines : ∀ line ∈ body.lines, NamespaceLang.Orderly line.items

namespace Body

theorem define_orderly (mark : Position) {value : List Tree} (hv : NamespaceLang.Orderly value)
    (bounds : List BoundName) {definitions : Definitions} {found : List Diagnostic}
    (hd : ∀ d ∈ definitions.values, NamespaceLang.Orderly d.value) (hf : ∀ d ∈ found, d.Usual) :
    (∀ d ∈ (bounds.foldl (define mark value) (definitions, found)).1.values,
      NamespaceLang.Orderly d.value) ∧
      ∀ d ∈ (bounds.foldl (define mark value) (definitions, found)).2, d.Usual := by
  induction bounds generalizing definitions found with
  | nil => exact ⟨hd, hf⟩
  | cons bound rest ih =>
    rw [List.foldl_cons, define]
    split
    · next previous hp =>
      apply ih
      · intro d hm
        rcases Table.mem_values_put _ _ _ d hm with rfl | hm
        · exact orderly_leaf _ _
        · exact hd d hm
      · intro d hm
        rcases List.mem_append.1 hm with hm | hm
        · exact hf d hm
        · rw [List.mem_singleton.1 hm]
          exact (Diagnostic.usual_error _ (by simp)).withNote (by simp [Diagnostic.error]) _ _
    · apply ih
      · intro d hm
        rcases Table.mem_values_put _ _ _ d hm with rfl | hm
        · exact hv
        · exact hd d hm
      · exact hf

theorem readLine_orderly {body : Body} {line : Line} (hb : body.Orderly)
    (hl : NamespaceLang.Orderly line.items) :
    (∀ after found, readLine body line = .ok (after, found) →
      after.Orderly ∧ ∀ d ∈ found, d.Usual) ∧
      ∀ d, readLine body line = .error d → d.Usual := by
  have sided := twoSided?_orderly (· == .definition) line.pos hl
  unfold readLine
  cases hs : twoSided? (· == .definition) line.pos line.items with
  | error d =>
    refine ⟨fun after found he => by simp [bind, Except.bind] at he, fun d' he => ?_⟩
    simp only [bind, Except.bind, Except.error.injEq] at he
    exact he ▸ sided.2 d hs
  | ok sides? =>
    cases sides? with
    | none =>
      refine ⟨fun after found he => ?_, fun d he => by simp [bind, Except.bind, pure, Except.pure] at he⟩
      simp only [bind, Except.bind, pure, Except.pure, Except.ok.injEq, Prod.mk.injEq] at he
      obtain ⟨rfl, rfl⟩ := he
      refine ⟨⟨hb.definitions, ?_⟩, by simp⟩
      intro other hm
      rcases List.mem_append.1 hm with hm | hm
      · exact hb.lines other hm
      · rw [List.mem_singleton.1 hm]
        exact hl
    | some sides =>
      have sides_orderly := sided.1 sides hs
      cases hp : Pattern.read sides.left.pos sides.leftItems with
      | error d =>
        refine ⟨fun after found he => by simp [hp, bind, Except.bind] at he, fun d' he => ?_⟩
        simp only [hp, bind, Except.bind, Except.error.injEq] at he
        exact he ▸ Pattern.read_usual sides_orderly.1 hp
      | ok pattern =>
        refine ⟨fun after found he => ?_,
          fun d he => by simp [hp, bind, Except.bind, pure, Except.pure] at he⟩
        simp only [hp, bind, Except.bind, pure, Except.pure, Except.ok.injEq, Prod.mk.injEq] at he
        obtain ⟨rfl, rfl⟩ := he
        have none_yet : ∀ d ∈ ([] : List Diagnostic), d.Usual := by simp
        have defined := define_orderly sides.mark.pos sides_orderly.2 pattern.names hb.definitions
          none_yet
        exact ⟨⟨defined.1, hb.lines⟩, defined.2⟩

theorem readLines_orderly (lines : List Line) {body : Body} {found : List Diagnostic}
    (hl : ∀ line ∈ lines, NamespaceLang.Orderly line.items) (hb : body.Orderly)
    (hf : ∀ d ∈ found, d.Usual) :
    (readLines lines (body, found)).1.Orderly ∧
      ∀ d ∈ (readLines lines (body, found)).2, d.Usual := by
  induction lines generalizing body found with
  | nil => exact ⟨hb, hf⟩
  | cons line rest ih =>
    have others : ∀ line ∈ rest, NamespaceLang.Orderly line.items :=
      fun line hm => hl line (List.mem_cons_of_mem _ hm)
    have first := readLine_orderly hb (hl line List.mem_cons_self)
    rw [readLines]
    split
    · exact ih others hb hf
    · split
      · next after more he =>
        obtain ⟨ha, hm⟩ := first.1 after more he
        exact ih others ha (List.forall_mem_append.2 ⟨hf, hm⟩)
      · next d he =>
        exact ih others hb (List.forall_mem_append.2 ⟨hf, by simpa using first.2 d he⟩)

/-- A body of orderly nodes is orderly, and all that is wrong with it is usual. -/
theorem read_orderly (pos : Position) {nodes : List Tree} (h : NamespaceLang.Orderly nodes) :
    (∀ body found, read pos nodes = .ok (body, found) → body.Orderly ∧ ∀ d ∈ found, d.Usual) ∧
      ∀ d, read pos nodes = .error d → d.Usual := by
  have lined := bodyLines_orderly pos h
  unfold read
  cases hl : bodyLines pos nodes with
  | error d =>
    refine ⟨fun body found he => (by cases he), fun d' he => ?_⟩
    cases he
    exact lined.2 d hl
  | ok lines =>
    refine ⟨fun body found he => ?_, fun d he => by cases he⟩
    simp only [Except.map, Except.ok.injEq] at he
    have start : empty.Orderly := ⟨by simp [empty, Table.empty, Table.values], by simp [empty]⟩
    have none_yet : ∀ d ∈ ([] : List Diagnostic), d.Usual := by simp
    have read_lines := readLines_orderly lines (lined.1 lines hl) start none_yet
    rw [he] at read_lines
    exact read_lines

end Body

end NamespaceLang

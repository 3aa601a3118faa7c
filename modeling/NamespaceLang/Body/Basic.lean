import NamespaceLang.Body.Pattern
import NamespaceLang.Table

/-!
# Bodies

A body defines names and keeps its other lines. A name that is defined more
than once stands for an error where it was defined first.
-/

set_option autoImplicit false

namespace NamespaceLang

structure Definition where
  pos : Position
  value : List Tree
  /-- The element of the value that the name is bound to; empty for the whole value. -/
  path : List Nat
  deriving Repr, Inhabited

abbrev Definitions := Table String Definition

structure Body where
  definitions : Definitions
  lines : List Line
  deriving Repr

/-- What stands for a name defined more than once, the first time at `pos`. -/
def Definition.erroneous (pos : Position) : Definition := ⟨pos, [.leaf pos .error], []⟩

namespace Body

def empty : Body := ⟨.empty, []⟩

def define (mark : Position) (value : List Tree) (found : Definitions × List Diagnostic)
    (bound : BoundName) : Definitions × List Diagnostic :=
  match found.1.get? bound.name with
  | some previous =>
    (found.1.put bound.name (.erroneous previous.pos),
      found.2 ++ [(Diagnostic.error bound.pos (.duplicateName bound.name)).withNote previous.pos
        .previousName])
  | none => (found.1.put bound.name ⟨mark, value, bound.path⟩, found.2)

/-- Takes in one line. What it fails with concerns this line alone. -/
def readLine (body : Body) (line : Line) : Except Diagnostic (Body × List Diagnostic) := do
  match ← twoSided? (· == .definition) line.pos line.items with
  | none => return ({ body with lines := body.lines ++ [line] }, [])
  | some sides =>
    let pattern ← Pattern.read sides.left.pos sides.leftItems
    let (definitions, found) :=
      pattern.names.foldl (define sides.mark.pos sides.rightItems) (body.definitions, [])
    return ({ body with definitions }, found)

def readLines : List Line → Body × List Diagnostic → Body × List Diagnostic
  | [], read => read
  | line :: rest, (body, found) =>
    if line.isBlank then readLines rest (body, found)
    else
      match readLine body line with
      | .ok (body, more) => readLines rest (body, found ++ more)
      | .error d => readLines rest (body, found ++ [d])

theorem lineWeight_append (left right : List Line) :
    lineWeight (left ++ right) = lineWeight left + lineWeight right := by
  induction left with
  | nil => simp [lineWeight]
  | cons line left ih => simp [lineWeight, ih, Nat.add_assoc]

theorem readLine_weight (body after : Body) (line : Line) (found : List Diagnostic)
    (h : readLine body line = .ok (after, found)) :
    lineWeight after.lines ≤ lineWeight body.lines + lineWeight [line] := by
  unfold readLine at h
  cases hs : twoSided? (· == .definition) line.pos line.items with
  | error d => simp [hs, bind, Except.bind] at h
  | ok sides? =>
    cases sides? with
    | none =>
      simp only [hs, bind, Except.bind, pure, Except.pure, Except.ok.injEq, Prod.mk.injEq] at h
      obtain ⟨rfl, _⟩ := h
      exact Nat.le_of_eq (lineWeight_append _ _)
    | some sides =>
      cases hp : Pattern.read sides.left.pos sides.leftItems with
      | error d => simp [hs, hp, bind, Except.bind] at h
      | ok pattern =>
        simp only [hs, hp, bind, Except.bind, pure, Except.pure, Except.ok.injEq,
          Prod.mk.injEq] at h
        obtain ⟨rfl, _⟩ := h
        exact Nat.le_add_right _ _

theorem readLines_weight (lines : List Line) (body : Body) (found : List Diagnostic) :
    lineWeight (readLines lines (body, found)).1.lines ≤ lineWeight body.lines + lineWeight lines := by
  induction lines generalizing body found with
  | nil => exact Nat.le_refl _
  | cons line rest ih =>
    unfold readLines
    split
    · have := ih body found
      simp only [lineWeight]
      omega
    · split
      · next after more h =>
        have first := readLine_weight body after line more h
        have := ih after (found ++ more)
        simp only [lineWeight] at first ⊢
        omega
      · next d h =>
        have := ih body (found ++ [d])
        simp only [lineWeight]
        omega

def read (pos : Position) (nodes : List Tree) : Except Diagnostic (Body × List Diagnostic) :=
  (bodyLines pos nodes).map fun lines => readLines lines (empty, [])

theorem read_weight (pos : Position) (nodes : List Tree) (body : Body) (found : List Diagnostic)
    (h : read pos nodes = .ok (body, found)) :
    lineWeight body.lines ≤ 3 * Tree.weightAll nodes + 3 := by
  unfold read at h
  cases hl : bodyLines pos nodes with
  | error d => simp [hl, Except.map] at h
  | ok lines =>
    simp only [hl, Except.map, Except.ok.injEq] at h
    have outer := bodyLines_weight pos nodes lines hl
    have inner := readLines_weight lines empty []
    rw [h] at inner
    simp only [empty, lineWeight] at inner
    omega

end Body

end NamespaceLang

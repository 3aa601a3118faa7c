import NamespaceLang.Proofs.Analysis.Keeps
import NamespaceLang.Proofs.Body.Parts

/-!
# The fields of a body

The block of a namespace is filled by the lines of its body, and a line declares
no other field than its own, if any. So the fields that a namespace is given in
the end are fields of its lines, each line having given one at most, in their
order.
-/

set_option autoImplicit false

namespace NamespaceLang

/-- The field that a line declares in a scope: where its mark stands, and its source. -/
def Line.field? (scope : Scope) (line : Line) : Option (Position × Thunk) :=
  match twoSided? ChainTag.bindsField line.pos line.items with
  | .ok (some sides) => some (sides.mark.pos, ⟨sides.rightItems, sides.right.pos, scope⟩)
  | _ => none

theorem Line.part_of_field? {scope : Scope} {line : Line} {field : Position × Thunk}
    (h : line.field? scope = some field) :
    line.part.mark? = some field.1 ∧ line.part.kept = Tree.sites field.2.nodes ∧
      field.2.scope = scope := by
  unfold field? at h
  unfold part
  split at h
  · next sides read =>
    cases h
    rw [read]
    exact ⟨rfl, rfl, rfl⟩
  · cases h

theorem Block.declared_push (b : Block) (op : Op) (pos : Position) :
    (b.push op pos).2.declared = b.declared ++ declares b.instrs.toList ⟨op, pos⟩ := by
  rw [declared, declared, Block.push, Array.toList_push, declaredFrom_append]
  simp [declaredFrom]

/-- The block at hand declares some of the fields that may come, and no others. -/
def Declares {α : Type} (fields : List (Position × Thunk)) (s : State) (r : Outcome α × State) :
    Prop :=
  ∃ more, List.Sublist more fields ∧ r.2.block.declared = s.block.declared ++ more

namespace Declares

variable {α β : Type} {fields : List (Position × Thunk)} {ctx : Context} {s : State}

theorem still {r : Outcome α × State} (h : r.2.block = s.block) : Declares fields s r :=
  ⟨[], List.nil_sublist _, by rw [h, List.append_nil]⟩

theorem of_keeps {ends : Prop} {allowed : Op → Bool} {r : Outcome α × State}
    (h : Keeps ends allowed ctx s r) (none_appends : ∀ op, allowed op = true → op.appends = false) :
    Declares [] s r := by
  obtain ⟨more, block, ok⟩ := h.block
  refine ⟨[], List.Sublist.refl _, ?_⟩
  rw [block, Block.declared, Block.declared, Array.toList_append, declaredFrom_append]
  exact congrArg _ (declaredFrom_eq_nil (fun instr hm =>
    none_appends _ (ok instr (Array.mem_toList_iff.1 hm))) _)

theorem bind {first rest : List (Position × Thunk)} {act : Run β} {next : β → Run α}
    (h : Declares first s (act ctx s))
    (hn : ∀ b mid, act ctx s = (.done b, mid) → Declares rest mid (next b ctx mid)) :
    Declares (first ++ rest) s ((act >>= next) ctx s) := by
  rw [Run.bind_apply]
  obtain ⟨more, part, block⟩ := h
  rcases hr : act ctx s with ⟨b | d | _, mid⟩
  · obtain ⟨later, part', block'⟩ := hn b mid hr
    rw [hr] at block
    exact ⟨more ++ later, part.append part', by rw [block', block, List.append_assoc]⟩
  · rw [hr] at block
    exact ⟨more, part.trans (List.sublist_append_left _ _), block⟩
  · rw [hr] at block
    exact ⟨more, part.trans (List.sublist_append_left _ _), block⟩

theorem materialize (operand : Operand) (pos : Position) :
    Declares [] s (Run.materialize operand pos ctx s) := by
  have kept : Keeps False (fun op => !op.appends) ctx s (Run.materialize operand pos ctx s) :=
    .materialize (by simp) operand pos
  exact of_keeps kept (by simp)

end Declares

theorem Run.materialize_own {ref : InstrRef} {s : State} (h : ref.block = s.block.id)
    (pos : Position) (ctx : Context) : Run.materialize (.deferred ref) pos ctx s = (.done ref, s) := by
  unfold Run.materialize Block.materialize
  dsimp only
  rw [if_pos h]

theorem Run.evaluate_done {ctx : Context} {s mid : State} {results : Results}
    (h : Run.evaluate ctx s = (.done results, mid)) :
    results.Stems s.block.instrs.toList s.block.namespaces ∧ mid.block = s.block := by
  unfold Run.evaluate at h
  rcases evaluated : s.block.evaluate with ⟨found, d | own⟩
  · rw [evaluated] at h
    cases h
  · rw [evaluated] at h
    cases h
    exact ⟨Block.evaluate_stems evaluated, rfl⟩

theorem analyzeWith_declares (depth : Nat) (scope : Scope) (slot : Shape) (pos : Position)
    (nodes : List Tree) (ctx : Context) (s : State) :
    Declares [] s (analyzeWith (forceWithin depth) scope slot pos nodes ctx s) :=
  .of_keeps (Moment.minds ⟨depth, .expression scope slot pos nodes, ctx, s⟩) (by simp [Task.mayPush])

theorem declareField_declares (scope : Scope) (list : InstrRef) (sides : TwoSided) (key : Analysis)
    (ctx : Context) (s : State) :
    Declares [(sides.mark.pos, ⟨sides.rightItems, sides.right.pos, scope⟩)] s
      (declareField scope list sides key ctx s) := by
  refine .bind (.materialize key.value sides.mark.pos) fun keyRef mid _ => ?_
  let thunk : Thunk := ⟨sides.rightItems, sides.right.pos, scope⟩
  have captured : capture scope sides.right.pos sides.rightItems ctx mid =
      (.done (.deferred mid.block.next .ast), mid.pushed (.captureAst thunk) sides.right.pos) := rfl
  have own : Run.materialize (.deferred mid.block.next) sides.mark.pos ctx
      (mid.pushed (.captureAst thunk) sides.right.pos) =
        (.done mid.block.next, mid.pushed (.captureAst thunk) sides.right.pos) :=
    Run.materialize_own rfl _ _
  rw [Run.bind_apply, captured]
  dsimp only [Analysis.deferred]
  rw [Run.bind_apply, own]
  refine ⟨[(sides.mark.pos, thunk)], List.Sublist.refl _, ?_⟩
  show ((mid.block.push _ _).2.push _ _).2.declared = _
  rw [Block.declared_push, Block.declared_push]
  simp [declares, Block.push, Block.next, Block.size]

theorem declareLineWith_declares (depth : Nat) (scope : Scope) (list : InstrRef) (line : Line)
    (ctx : Context) (s : State) :
    Declares (line.field? scope).toList s
      (declareLineWith (forceWithin depth) scope list line ctx s) := by
  rw [declareLineWith_apply, Line.field?]
  cases twoSided? ChainTag.bindsField line.pos line.items with
  | error d => exact .still rfl
  | ok sides? =>
    cases sides? with
    | none =>
      show Declares ([] ++ []) s _
      exact .bind (analyzeWith_declares depth scope .void line.pos line.items ctx s)
        fun _ _ _ => .still rfl
    | some sides =>
      refine .bind (analyzeWith_declares depth scope .key sides.left.pos sides.leftItems ctx s)
        fun key mid _ => ?_
      unfold declareUnder
      cases key.shape with
      | stringKey name => exact declareField_declares scope list sides key ctx mid
      | symbolKey builtin child => exact declareField_declares scope list sides key ctx mid
      | _ => exact .still rfl

theorem declareLinesWith_declares (depth : Nat) (scope : Scope) (list : InstrRef)
    (lines : List Line) (ctx : Context) (s : State) :
    Declares (lines.filterMap (Line.field? scope)) s
      (declareLinesWith (forceWithin depth) scope list lines ctx s) := by
  induction lines generalizing s with
  | nil =>
    rw [declareLinesWith.eq_def]
    exact .still rfl
  | cons line rest ih =>
    rw [declareLinesWith.eq_def]
    have one := declareLineWith_declares depth scope list line ctx s
    have told : Declares (line.field? scope).toList s
        (Run.attempt (declareLineWith (forceWithin depth) scope list line) ctx s) := by
      rw [Run.attempt_eq_tell]
      generalize declareLineWith (forceWithin depth) scope list line ctx s = r at one
      rcases r with ⟨_ | _ | _, after⟩ <;> exact one
    have both := Declares.bind told fun _ mid _ => ih mid
    have all : (line.field? scope).toList ++ rest.filterMap (Line.field? scope) =
        (line :: rest).filterMap (Line.field? scope) := by
      rw [List.filterMap_cons]
      cases line.field? scope <;> rfl
    rw [← all]
    exact both

theorem fieldsOf_fields {pos : Position} {list : InstrRef} {ctx : Context} {s after : State}
    {registry : Registry} (h : fieldsOf pos list ctx s = (.done registry, after)) :
    registry.fields.Sublist s.block.declared := by
  unfold fieldsOf at h
  rw [Run.bind_apply] at h
  rcases evaluated : Run.evaluate ctx s with ⟨results | d | _, mid⟩
  · rw [evaluated] at h
    dsimp only at h
    have stems := (Run.evaluate_done evaluated).1
    cases aggregated : results.aggregate pos list with
    | error d =>
      rw [aggregated] at h
      cases h
    | ok own =>
      rw [aggregated] at h
      cases h
      exact stems.fields _ _ (Results.aggregate_ok aggregated)
  · rw [evaluated] at h
    cases h
  · rw [evaluated] at h
    cases h

/-- The fields that a namespace is given are some of those that its lines declare. -/
theorem declared_fields {depth : Nat} {scope outer : Scope} {pos : Position} {ctx inner : Context}
    {s after : State} {body : Body} {found : List Diagnostic} {registry : Registry}
    (h : (do
      declareLinesWith (forceWithin depth) scope s.fieldList body.lines
      fieldsOf pos s.fieldList) inner (s.declaring ctx outer pos body found) =
        (.done registry, after)) :
    registry.fields.Sublist (body.lines.filterMap (Line.field? scope)) := by
  have declares := declareLinesWith_declares depth scope s.fieldList body.lines inner
    (s.declaring ctx outer pos body found)
  rw [Run.bind_apply] at h
  rcases read : declareLinesWith (forceWithin depth) scope s.fieldList body.lines inner
    (s.declaring ctx outer pos body found) with ⟨_ | d | _, mid⟩
  · rw [read] at h declares
    obtain ⟨more, part, block⟩ := declares
    have fields := fieldsOf_fields h
    rw [block] at fields
    exact fields.trans part
  · rw [read] at h
    cases h
  · rw [read] at h
    cases h

end NamespaceLang

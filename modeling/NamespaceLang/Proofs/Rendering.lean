import Mathlib.Data.List.Induction
import NamespaceLang.Diagnostic.Render
import NamespaceLang.Proofs.Analysis.Located
import NamespaceLang.Proofs.Compile
import NamespaceLang.Proofs.Tree.Ordered

/-!
# From the cursor to the caret

What is told of a text stands at places of it, and the excerpt below each entry is taken
from the same text: the renderer parts it into lines once more, and comes to the very
line that the cursor was on.
-/

set_option autoImplicit false

namespace NamespaceLang

theorem lineAfter_feed (n : Nat) (text : List Char) :
    lineAfter (n + 1) ('\n' :: text) = lineAfter n text := by
  simp [lineAfter]

theorem lineAfter_other (n : Nat) {c : Char} (h : c ≠ '\n') (text : List Char) :
    lineAfter (n + 1) (c :: text) = lineAfter (n + 1) text := by
  simp [lineAfter, h]

theorem lineAfter_behind_feed (before after : List Char) :
    lineAfter (before.count '\n' + 1) (before ++ '\n' :: after) =
      some (after.takeWhile (· != '\n')) := by
  induction before with
  | nil => exact lineAfter_feed 0 after
  | cons c rest ih =>
    rw [List.cons_append]
    by_cases feed : c = '\n'
    · rw [feed, List.count_cons_self, lineAfter_feed, ih]
    · rw [List.count_cons_of_ne feed, lineAfter_other _ feed, ih]

theorem lineAfter_place (before after : List Char) :
    lineAfter (before.count '\n') (before ++ after) =
      some (lastLine before ++ after.takeWhile (· != '\n')) := by
  induction before using List.reverseRecOn generalizing after with
  | nil => rfl
  | append_singleton before c ih =>
    rw [List.append_assoc, List.singleton_append, List.count_append]
    by_cases feed : c = '\n'
    · rw [feed, lastLine_feed]
      exact lineAfter_behind_feed before after
    · rw [lastLine_other before feed, List.count_singleton, if_neg (by simpa using feed)]
      rw [Nat.add_zero, ih, List.takeWhile_cons_of_pos (by simpa using feed)]
      simp

/-- An entry at a place of the text shows the line of the place, and a caret below the place. -/
theorem Entry.render_behind {label : String} {before after : List Char} {entry : Entry}
    (h : entry.pos? = some (.behind label before)) :
    entry.render ⟨label, before ++ after⟩ =
      (Position.behind label before).shown ++ ": " ++ entry.severity.name ++ ": " ++ entry.message
        ++ "\n" ++ (" " ++ toString (1 + before.count '\n') ++ " | "
          ++ String.ofList (lastLine before ++ after.takeWhile (· != '\n')) ++ "\n "
          ++ spaces (toString (1 + before.count '\n')).length ++ " | "
          ++ spaces (lastLine before).length ++ "^\n") := by
  have line : Source.line? ⟨label, before ++ after⟩ (1 + before.count '\n') =
      some (String.ofList (lastLine before ++ after.takeWhile (· != '\n'))) := by
    rw [Nat.add_comm]
    exact congrArg (Option.map String.ofList) (lineAfter_place before after)
  have caret : 1 + (lastLine before).length - 1 = (lastLine before).length := Nat.add_sub_cancel_left 1 _
  rw [render, h]
  dsimp only [Position.behind]
  rw [if_pos rfl, line]
  dsimp only [excerpt]
  rw [caret]

theorem Compiled.ofRun_located {P : Position → Prop} {Q : Shape → Prop} {nodes : List Tree}
    {ended : Outcome Shape × State} (h : Ended P Q ended) :
    ∀ d ∈ (ofRun nodes ended).diagnostics, d.Located P := by
  obtain ⟨outcome, s⟩ := ended
  cases outcome with
  | done shape => exact h.state.store.diagnostics
  | failed d =>
    have told : (s.store.record [d]).Located P :=
      h.state.store.record (by simpa using h.failed d rfl)
    exact told.diagnostics
  | exhausted => exact h.state.store.diagnostics

theorem Compiled.ofRun_nodes (nodes : List Tree) (ended : Outcome Shape × State) :
    (ofRun nodes ended).nodes = nodes := by
  obtain ⟨outcome, s⟩ := ended
  cases outcome <;> rfl

theorem compile_nodes (label : String) (text : List Char) :
    (compile label text).nodes = (tokenize label text).nodes := by
  rw [← compileHolding_nil]
  exact Compiled.ofRun_nodes _ _

theorem compile_located (label : String) (text : List Char) :
    ∀ d ∈ (compile label text).diagnostics, d.Located (Position.In label text) := by
  obtain ⟨nodes, told⟩ := tokenize_located label text
  have start : (Position.start label).In label text := ⟨[], text, rfl, rfl⟩
  have opening : (State.opening (tokenize label text).diagnostics).Located (Position.In label text) :=
    ⟨⟨told, fun _ hn => by simp [State.opening, Store.ofDiagnostics, Store.empty] at hn⟩,
      Block.new_located _⟩
  have nowhere : Context.start.Located (Position.In label text) := fun _ hs => by cases hs
  rw [← compileHolding_nil]
  exact Compiled.ofRun_located (Run.Located.runEntry_located start nodes _ _ nowhere opening)

/-- Every node of a text stands at a place of it, and so does every entry and every step of all
that is told of it. Rendered against the same text, an entry shows the line that its place is on,
with a caret below as many spaces as there are characters before the place. The nodes, each before
its items, stand in the order of the text. -/
theorem positions_faithful (label : String) (text : List Char) :
    (∀ node ∈ Tree.preorderAll (compile label text).nodes, node.pos.In label text) ∧
      (∀ d ∈ (compile label text).diagnostics,
        (∀ entry ∈ d.entries, ∃ before after, text = before ++ after ∧
          entry.pos? = some (.behind label before) ∧
          entry.render ⟨label, text⟩ =
            (Position.behind label before).shown ++ ": " ++ entry.severity.name ++ ": "
              ++ entry.message ++ "\n" ++ (" " ++ toString (1 + before.count '\n') ++ " | "
                ++ String.ofList (lastLine before ++ after.takeWhile (· != '\n')) ++ "\n "
                ++ spaces (toString (1 + before.count '\n')).length ++ " | "
                ++ spaces (lastLine before).length ++ "^\n")) ∧
        ∀ step ∈ d.trace, step.pos.In label text) ∧
      ((Tree.preorderAll (compile label text).nodes).map (·.pos.offset)).Pairwise (· ≤ ·) := by
  rw [compile_nodes]
  refine ⟨(tokenize_located label text).1, fun d hd => ?_, tokenize_ordered label text⟩
  have located := compile_located label text d hd
  refine ⟨fun entry he => ?_, located.trace⟩
  obtain ⟨pos, there, before, after, parted, rfl⟩ := located.entries entry he
  refine ⟨before, after, parted, there, ?_⟩
  rw [parted]
  exact Entry.render_behind there

example : ((compile "t.cvl" "x\n\té )".toList).diagnostics.map
    (·.render ⟨"t.cvl", "x\n\té )".toList⟩))[1]? =
      some "t.cvl:2:4: error: extra close bracket\n 2 | \té )\n   |    ^\n" := by
  decide +kernel

end NamespaceLang

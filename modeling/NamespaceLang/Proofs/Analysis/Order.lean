import NamespaceLang.Proofs.Analysis.Blind
import NamespaceLang.Proofs.Analysis.Histories
import NamespaceLang.Proofs.Analysis.Plain

/-!
# The order of declarations

In which order the lines of a plain body stand makes no difference. The namespaces
that two orders give have the same definitions and the same fields, and nobody who
asks anything of them can tell which of the two he has, however much he asks: what
he is given and told is the same each time, and so is all that is found out and
told by the way.
-/

set_option autoImplicit false

namespace NamespaceLang

/-- What is asked for; an entry point that is not there is no failure. -/
def Request.ask : Request → Run (Option Analysis)
  | .resolve id pos name slot => do
    return some (← NamespaceLang.resolve ((← Run.store).scopeOf id) pos name slot)
  | .field id pos name => do return some (← readString (.declared id) pos name)
  | .main id slot => readSymbol (.declared id) .main slot

/-- What comes of each request of a history, one after another. -/
def State.answers (s : State) : History → List (Outcome (Option Analysis))
  | [] => []
  | (ctx, asked) :: rest => (asked.ask ctx s).1 :: (asked.run ctx s).answers rest

theorem Run.some_state {α : Type} (act : Run α) (ctx : Context) (s : State) :
    ((do return some (← act) : Run (Option α)) ctx s).2 = (act ctx s).2 := by
  rw [Run.bind_apply]
  rcases act ctx s with ⟨_ | _ | _, after⟩ <;> rfl

theorem Request.ask_run (asked : Request) (ctx : Context) (s : State) :
    (asked.ask ctx s).2 = asked.run ctx s := by
  cases asked with
  | resolve id pos name slot =>
    exact Run.some_state (NamespaceLang.resolve (s.store.scopeOf id) pos name slot) ctx s
  | field id pos name => exact Run.some_state (readString (.declared id) pos name) ctx s
  | main id slot => rfl

open Run.Blind in
theorem Request.ask_blind (asked : Request) : asked.ask.Blind := by
  cases asked with
  | resolve id pos name slot =>
    refine store (fun u v huv => by rw [huv.scopeOf]) fun u => ?_
    exact bind (withForcing_blind fun _ h => resolve_blind h pos name slot _) fun _ => done _
  | field id pos name =>
    exact bind (withForcing_blind fun _ h => readString_blind h _ pos name) fun _ => done _
  | main id slot => exact withForcing_blind fun _ h => readSymbol_blind h _ .main slot

theorem State.Reordered.answers {s t : State} (h : s.Reordered t) (asked : History) :
    t.answers asked = s.answers asked ∧ (s.after asked).Reordered (t.after asked) := by
  induction asked generalizing s t with
  | nil => exact ⟨rfl, h⟩
  | cons own rest ih =>
    obtain ⟨ctx, asked⟩ := own
    obtain ⟨same, next⟩ := asked.ask_blind ctx s t h
    rw [asked.ask_run, asked.ask_run] at next
    obtain ⟨others, last⟩ := ih next
    exact ⟨by rw [State.answers, State.answers, same, others], last⟩

theorem State.declared_reordered {lines lines' : List Line} (plain : PlainLines lines)
    (perm : lines.Perm lines') (s : State) (outer : Scope) (pos : Position) :
    (s.declared outer pos lines).Reordered (s.declared outer pos lines') where
  store := by
    have definitions : Table.Reordered (⟨lines.filterMap Line.definition?⟩ : Definitions)
        ⟨lines'.filterMap Line.definition?⟩ := .of_perm (perm.filterMap _) plain.definitions
    have begun := ((Store.Reordered.refl s.store).begin pos outer definitions).newBlock
    exact begun.finish _ (.of_perm (perm.filterMap _) (plain.fields _) false)
  block := rfl

theorem State.declared_get (s : State) (outer : Scope) (pos : Position) (lines : List Line) :
    (s.declared outer pos lines).store.get s.store.size =
      ⟨pos, outer, ⟨lines.filterMap Line.definition?⟩,
        some ⟨true, lines.filterMap (Line.written? (s.store.size :: outer))⟩, .empty⟩ := by
  let begun := (s.store.begin pos outer ⟨lines.filterMap Line.definition?⟩).2
  have inside : s.store.size < begun.newBlock.2.size := by
    rw [Store.size_newBlock, Store.size_begin]
    exact Nat.lt_succ_self _
  unfold State.declared Store.finish
  dsimp only
  rw [Store.get_modify, if_pos ⟨rfl, inside⟩, Store.get_newBlock, Store.get_begin, if_pos rfl]
  rfl

theorem bodyLines_of_split {nodes : List Tree} {lines : List Line}
    (split : splitLines nodes = .ok (some lines)) (pos : Position) :
    bodyLines pos nodes = .ok lines := by
  rw [bodyLines, split]
  rfl

def Line.chained (separator : Tree) : List Line → List Tree
  | [] => []
  | [line] => [.group line.pos .segment line.items]
  | line :: rest => .group line.pos .segment line.items :: separator :: chained separator rest

theorem operandLines_chained (pos : Position) (spelling : String) (lines : List Line) :
    operandLines (Line.chained (.leaf pos (.operator spelling)) lines) = .ok lines := by
  induction lines with
  | nil => rfl
  | cons line rest ih =>
    cases rest with
    | nil => rfl
    | cons next rest =>
      rw [Line.chained, operandLines, operandLines, ih]
      · rfl
      · simp

theorem splitLines_chained (pos at_ : Position) (tag : ChainTag) (spelling : String)
    (lines : List Line) :
    splitLines [.group pos (.chain tag TokenGroup.sep.tier)
      (Line.chained (.leaf at_ (.operator spelling)) lines)] = .ok (some lines) := by
  have alone : ∀ items, Tree.trim [.group pos (.chain tag TokenGroup.sep.tier) items] =
      [.group pos (.chain tag TokenGroup.sep.tier) items] := fun _ => rfl
  rw [splitLines, alone]
  dsimp only
  rw [if_pos rfl, operandLines_chained]
  rfl

/-- A body is a chain of separators, each line of which is blank, or defines one plain name, or
declares a field under a key that is written out, where no name is defined twice and no key comes
twice. In whatever order its segments stand, and wherever and in whatever state it is declared:
nothing is told, the namespace has the fields in the order of the lines, and whatever is then asked
of the namespaces that there are, in however many steps, all answers are the same as for any other
order, and so are all diagnostics, the numbers of blocks, and what is known of each namespace and
shown of it, but for the order of its definitions and of its fields. -/
theorem declaration_order_irrelevant {nodes nodes' : List Tree} {lines lines' : List Line}
    (split : splitLines nodes = .ok (some lines)) (split' : splitLines nodes' = .ok (some lines'))
    (perm : lines.Perm lines') (plain : PlainLines lines) (outer : Scope) (pos : Position)
    (ctx : Context) (s : State) :
    ∃ after after',
      declare outer pos nodes ctx s = (.done s.store.size, after) ∧
      declare outer pos nodes' ctx s = (.done s.store.size, after') ∧
      after.store.diagnostics = s.store.diagnostics ∧
      after'.store.diagnostics = s.store.diagnostics ∧
      (after.store.get s.store.size).fields? =
        some ⟨true, lines.filterMap (Line.written? (s.store.size :: outer))⟩ ∧
      (after'.store.get s.store.size).fields? =
        some ⟨true, lines'.filterMap (Line.written? (s.store.size :: outer))⟩ ∧
      ∀ h : History, after'.answers h = after.answers h ∧
        (after.after h).Reordered (after'.after h) ∧
        (after'.after h).store.describe = (after.after h).store.describe := by
  have declared : declare outer pos nodes ctx s = (.done s.store.size, s.declared outer pos lines) :=
    declareWith_plain (bodyLines_of_split split pos) plain _ outer ctx s
  have declared' : declare outer pos nodes' ctx s =
      (.done s.store.size, s.declared outer pos lines') :=
    declareWith_plain (bodyLines_of_split split' pos) (plain.of_perm perm) _ outer ctx s
  have reordered : (s.declared outer pos lines).Reordered (s.declared outer pos lines') :=
    State.declared_reordered plain perm s outer pos
  refine ⟨_, _, declared, declared', rfl, rfl, ?_, ?_, fun h => ?_⟩
  · rw [State.declared_get]
  · rw [State.declared_get]
  · obtain ⟨answers, later⟩ := reordered.answers h
    exact ⟨answers, later, funext later.store.describe⟩

/-- The lines of a file from the last to the first. -/
theorem declaration_order_irrelevant_reversed :
    let nodes := (tokenize "t.cvl" "x :: .a\n.b := x\n#builtin.main := .b".toList).nodes
    let pos := Position.start "t.cvl"
    ∃ lines after after',
      splitLines nodes = .ok (some lines) ∧ lines.length = 3 ∧
      declare [] pos nodes .start (.opening []) = (.done 0, after) ∧
      declare [] pos [.group pos (.chain .separator TokenGroup.sep.tier)
        (Line.chained (.leaf pos (.operator ",")) lines.reverse)] .start (.opening []) =
          (.done 0, after') ∧
      ∀ h : History, after'.answers h = after.answers h := by
  intro nodes pos
  have tried : (splitLines nodes).toOption.any (fun found =>
      found.any fun lines => decide (lines.length = 3 ∧ PlainLines lines)) = true := by
    decide +kernel
  cases split : splitLines nodes with
  | error d =>
    rw [split] at tried
    cases tried
  | ok found =>
    cases found with
    | none =>
      rw [split] at tried
      cases tried
    | some lines =>
      rw [split] at tried
      obtain ⟨three, plain⟩ := of_decide_eq_true tried
      obtain ⟨after, after', done, done', -, -, -, -, same⟩ :=
        declaration_order_irrelevant split (splitLines_chained pos pos .separator "," lines.reverse)
          lines.reverse_perm.symm plain [] pos .start (.opening [])
      exact ⟨lines, after, after', rfl, three, done, done', fun h => (same h).1⟩

end NamespaceLang

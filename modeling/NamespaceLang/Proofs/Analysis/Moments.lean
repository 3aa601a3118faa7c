import NamespaceLang.Proofs.Analysis.Reached
import NamespaceLang.Proofs.Compile
import Mathlib.Logic.Relation

/-!
# The moments of a run

The functions that work out source call one another, and through the looking
into a binding they come back to expressions. A moment is one such call, with
the context and the state that it begins in. Which moments one of them leads to
is read off the definitions, call by call; the state in which a later call
begins is the one in which an earlier one has ended.
-/

set_option autoImplicit false

namespace NamespaceLang

namespace Tree

def solid (nodes : List Tree) : List Tree := nodes.filter (!·.isBlank)

end Tree

structure Literal where
  start : Position
  pos : Position
  body : List Tree
  rest : List Tree

def literal? : List Tree → Option Literal
  | .leaf start (.identifier .plain "ns") :: .group pos (.block .list _ _) body :: rest =>
    some ⟨start, pos, body, rest⟩
  | _ => none

theorem literal?_eq_some {nodes : List Tree} {l : Literal} (h : literal? nodes = some l) :
    ∃ opening closing, nodes = .leaf l.start (.identifier .plain "ns") ::
      .group l.pos (.block .list opening closing) l.body :: l.rest := by
  unfold literal? at h
  split at h
  · cases h
    exact ⟨_, _, rfl⟩
  · cases h

section

variable (force : Forcing) (scope : Scope)

/-- What a method is called with; nothing, where nothing is asked for and nothing is written. -/
def argumentWith (pos : Position) (items : List Tree) (slot : Shape) : Run Analysis :=
  match slot, Tree.trim items with
  | .void, [] => Run.deferred .void pos .void
  | slot, _ => analyzeWith force scope slot pos items

theorem argumentWith_given (pos : Position) {items : List Tree} {slot : Shape}
    (given : slot ≠ .void ∨ Tree.trim items ≠ []) :
    argumentWith force scope pos items slot = analyzeWith force scope slot pos items := by
  unfold argumentWith
  split
  · next nothing => exact (given.elim (· rfl) (· nothing)).elim
  · rfl

theorem argumentWith_nothing (pos : Position) {items : List Tree} (nothing : Tree.trim items = []) :
    argumentWith force scope pos items .void = Run.deferred .void pos .void := by
  unfold argumentWith
  rw [nothing]

theorem given_or_nothing (slot : Shape) (items : List Tree) :
    (slot ≠ .void ∨ Tree.trim items ≠ []) ∨ (slot = .void ∧ Tree.trim items = []) := by
  by_cases void : slot = .void
  · by_cases empty : Tree.trim items = []
    · exact Or.inr ⟨void, empty⟩
    · exact Or.inl (Or.inr empty)
  · exact Or.inl (Or.inl void)

def analyzeSuffixWith (left : Analysis) : Tree → Run Analysis
  | .leaf _ (.bare .access _) => pure left
  | .leaf pos (.bare _ spelling) => Run.fail (.error pos (.strayBare spelling))
  | .leaf pos (.identifier .plain name) | .leaf pos (.identifier .access name) =>
    accessWith force left pos name
  | .group pos (.block .code _ _) items => call pos left (argumentWith force scope pos items)
  | other => Run.fail (.error other.pos (.strayAfterExpression other.kind))

theorem analyzeSuffixesWith_cons (left : Analysis) (node : Tree) (rest : List Tree) :
    analyzeSuffixesWith force scope left (node :: rest) =
      analyzeSuffixWith force scope left node >>= fun next =>
        analyzeSuffixesWith force scope next rest := by
  rw [analyzeSuffixesWith.eq_def]
  cases node with
  | leaf pos content =>
    cases content with
    | identifier sigil name => cases sigil <;> rfl
    | bare tag spelling => cases tag <;> rfl
    | _ => rfl
  | group pos form items =>
    cases form with
    | block tag _ _ => cases tag <;> rfl
    | _ => rfl

def analyzeHeadWith (slot : Shape) (pos : Position) (items : List Tree) : Run Analysis :=
  match literal? items with
  | some l => do
    let id ← declareWith force scope l.pos l.body
    let _ ← Run.push .comptimeOnly l.start
    analyzeSuffixesWith force scope (.ofNamespace (.declared id)) l.rest
  | none =>
    match items with
    | [] => Run.fail (.error pos .emptyExpression)
    | first :: rest => do
      let base ← analyzeBaseWith force scope (if rest.isEmpty then slot else .unknown) first
      analyzeSuffixesWith force scope base rest

theorem analyzeHeadWith_literal (slot : Shape) (pos : Position) {items : List Tree} {l : Literal}
    (head : literal? items = some l) :
    analyzeHeadWith force scope slot pos items = (do
      let id ← declareWith force scope l.pos l.body
      let _ ← Run.push .comptimeOnly l.start
      analyzeSuffixesWith force scope (.ofNamespace (.declared id)) l.rest) := by
  unfold analyzeHeadWith
  rw [head]

theorem analyzeHeadWith_base (slot : Shape) (pos : Position) {first : Tree} {rest : List Tree}
    (head : literal? (first :: rest) = none) :
    analyzeHeadWith force scope slot pos (first :: rest) = (do
      let base ← analyzeBaseWith force scope (if rest.isEmpty then slot else .unknown) first
      analyzeSuffixesWith force scope base rest) := by
  unfold analyzeHeadWith
  rw [head]

theorem analyzeWith_of_ne_ast {slot : Shape} (hs : slot ≠ .ast) (pos : Position)
    (nodes : List Tree) :
    analyzeWith force scope slot pos nodes =
      analyzeHeadWith force scope slot pos (Tree.solid nodes) := by
  rw [analyzeWith.eq_def]
  unfold Tree.solid analyzeHeadWith
  split
  · exact absurd rfl hs
  · split
    · next h => rw [h]; rfl
    · next h => rw [h]; rfl
    · next first rest notLiteral h =>
      rw [h]
      have none_there : literal? (first :: rest) = none := by
        unfold literal?
        split
        · next he => cases he; exact (notLiteral _ _ _ _ _ _ rfl rfl).elim
        · rfl
      rw [none_there]

def declareField (list : InstrRef) (sides : TwoSided) (key : Analysis) : Run Unit := do
  let keyRef ← Run.materialize key.value sides.mark.pos
  let body ← capture scope sides.right.pos sides.rightItems
  let bodyRef ← Run.materialize body.value sides.mark.pos
  let _ ← Run.push (.nsAppend list keyRef bodyRef) sides.mark.pos

def declareUnder (list : InstrRef) (sides : TwoSided) (key : Analysis) : Run Unit :=
  match key.shape with
  | .stringKey _ | .symbolKey .. => declareField scope list sides key
  | .key => Run.fail (.error sides.left.pos .unnarrowedKey)
  | other => Run.fail (.error sides.left.pos (.notKey other.shown))

theorem declareLineWith_apply (list : InstrRef) (line : Line) (ctx : Context) (s : State) :
    declareLineWith force scope list line ctx s =
      match twoSided? ChainTag.bindsField line.pos line.items with
      | .error d => Run.fail d ctx s
      | .ok none => (do let _ ← analyzeWith force scope .void line.pos line.items) ctx s
      | .ok (some sides) =>
        (analyzeWith force scope .key sides.left.pos sides.leftItems >>=
          declareUnder scope list sides) ctx s := by
  rw [declareLineWith.eq_def]
  cases twoSided? ChainTag.bindsField line.pos line.items with
  | error d => rfl
  | ok sides? =>
    cases sides? with
    | none => rfl
    | some sides => rfl

end

inductive Task where
  | expression (scope : Scope) (slot : Shape) (pos : Position) (nodes : List Tree)
  | base (scope : Scope) (slot : Shape) (node : Tree)
  | suffixes (scope : Scope) (left : Analysis) (nodes : List Tree)
  | suffix (scope : Scope) (left : Analysis) (node : Tree)
  | body (outer : Scope) (pos : Position) (nodes : List Tree)
  | lines (scope : Scope) (list : InstrRef) (lines : List Line)
  | line (scope : Scope) (list : InstrRef) (line : Line)
  | resolve (scope : Scope) (slot : Shape) (pos : Position) (name : String)
  | force (id : NamespaceId) (binding : Binding) (thunk : Thunk) (slot : Shape)

namespace Task

def Result : Task → Type
  | .body .. => NamespaceId
  | .lines .. | .line .. => Unit
  | .force .. => Forced
  | _ => Analysis

def run (force : Forcing) : (t : Task) → Run t.Result
  | .expression scope slot pos nodes => analyzeWith force scope slot pos nodes
  | .base scope slot node => analyzeBaseWith force scope slot node
  | .suffixes scope left nodes => analyzeSuffixesWith force scope left nodes
  | .suffix scope left node => analyzeSuffixWith force scope left node
  | .body outer pos nodes => declareWith force outer pos nodes
  | .lines scope list rest => declareLinesWith force scope list rest
  | .line scope list own => declareLineWith force scope list own
  | .resolve scope slot pos name => resolveWith force pos name slot scope
  | .force id binding thunk slot => force id binding thunk slot

/-- Every call has less before it than the one it comes from, if it looks into no binding. -/
def size : Task → Nat
  | .expression _ _ _ nodes => 3 * Tree.weightAll nodes + 1
  | .base _ _ node => 3 * node.weight
  | .suffixes _ _ nodes => 3 * Tree.weightAll nodes
  | .suffix _ _ node => 3 * node.weight - 1
  | .body _ _ nodes => 3 * Tree.weightAll nodes + 4
  | .lines _ _ rest => lineWeight rest
  | .line _ _ own => 3 * Tree.weightAll own.items + 2
  | .resolve .. => 2
  | .force .. => 1

def looksInto : Task → Bool
  | .force .. => true
  | _ => false

end Task

/-- A call in its context and state, and how many bindings it may look into inside one another. -/
structure Moment where
  depth : Nat
  task : Task
  ctx : Context
  state : State

def Moment.run (m : Moment) : Outcome m.task.Result × State :=
  m.task.run (forceWithin m.depth) m.ctx m.state

def Context.holding (ids : List NamespaceId) (ctx : Context) : Context :=
  { ctx with held := ids ++ ctx.held }

def Context.inside (id : NamespaceId) (binding : Binding) (pos : Position) (ctx : Context) :
    Context :=
  ⟨ctx.trace ++ [⟨forceMark ++ binding.label, pos⟩], id :: ctx.held, (id, binding) :: ctx.forcing⟩

namespace State

def inNewBlock (s : State) : State := ⟨s.store.newBlock.2, s.store.newBlock.1⟩

def pushed (s : State) (op : Op) (pos : Position) : State :=
  { s with block := (s.block.push op pos).2 }

def declaring (s : State) (ctx : Context) (outer : Scope) (pos : Position) (body : Body)
    (found : List Diagnostic) : State :=
  let told := s.store.record (found.map (·.under ctx.trace))
  ((⟨(told.begin pos outer body.definitions).2, s.block⟩ : State).inNewBlock).pushed .nsInit pos

def fieldList (s : State) : InstrRef := s.inNewBlock.block.next

end State

def accessed? (s : Store) (left : Analysis) (name : String) : Option (NamespaceId × FieldEntry) :=
  match left.shape with
  | .namespaceOf (.declared id) => ((s.get id).field? (.string name)).map (id, ·)
  | _ => none

/-- One call comes from another. -/
inductive Leads : Moment → Moment → Prop
  | literal {depth scope slot pos nodes ctx s l} (kept : slot ≠ .ast)
    (head : literal? (Tree.solid nodes) = some l) :
    Leads ⟨depth, .expression scope slot pos nodes, ctx, s⟩ ⟨depth, .body scope l.pos l.body, ctx, s⟩
  | afterLiteral {depth scope slot pos nodes ctx s l id mid} (kept : slot ≠ .ast)
    (head : literal? (Tree.solid nodes) = some l)
    (before : declareWith (forceWithin depth) scope l.pos l.body ctx s = (.done id, mid)) :
    Leads ⟨depth, .expression scope slot pos nodes, ctx, s⟩
      ⟨depth, .suffixes scope (.ofNamespace (.declared id)) l.rest, ctx,
        mid.pushed .comptimeOnly l.start⟩
  | base {depth scope slot pos nodes ctx s first rest} (kept : slot ≠ .ast)
    (head : literal? (Tree.solid nodes) = none) (items : Tree.solid nodes = first :: rest) :
    Leads ⟨depth, .expression scope slot pos nodes, ctx, s⟩
      ⟨depth, .base scope (if rest.isEmpty then slot else .unknown) first, ctx, s⟩
  | afterBase {depth scope slot pos nodes ctx s first rest base mid} (kept : slot ≠ .ast)
    (head : literal? (Tree.solid nodes) = none) (items : Tree.solid nodes = first :: rest)
    (before : analyzeBaseWith (forceWithin depth) scope (if rest.isEmpty then slot else .unknown)
      first ctx s = (.done base, mid)) :
    Leads ⟨depth, .expression scope slot pos nodes, ctx, s⟩
      ⟨depth, .suffixes scope base rest, ctx, mid⟩
  | code {depth scope slot pos opening closing items ctx s} :
    Leads ⟨depth, .base scope slot (.group pos (.block .code opening closing) items), ctx, s⟩
      ⟨depth, .expression scope slot pos items, ctx, s⟩
  | name {depth scope slot pos name ctx s} :
    Leads ⟨depth, .base scope slot (.leaf pos (.identifier .plain name)), ctx, s⟩
      ⟨depth, .resolve scope slot pos name, ctx, s⟩
  | suffix {depth scope left node rest ctx s} :
    Leads ⟨depth, .suffixes scope left (node :: rest), ctx, s⟩
      ⟨depth, .suffix scope left node, ctx, s⟩
  | afterSuffix {depth scope left node rest ctx s next mid}
    (before : analyzeSuffixWith (forceWithin depth) scope left node ctx s = (.done next, mid)) :
    Leads ⟨depth, .suffixes scope left (node :: rest), ctx, s⟩
      ⟨depth, .suffixes scope next rest, ctx, mid⟩
  | access {depth scope left pos sigil name ctx s id entry}
    (named : sigil = .plain ∨ sigil = .access)
    (there : accessed? s.store left name = some (id, entry)) :
    Leads ⟨depth, .suffix scope left (.leaf pos (.identifier sigil name)), ctx, s⟩
      ⟨depth, .force id (.field (.string name)) entry.thunk .unknown, ctx.holding left.namespaces, s⟩
  | argument {depth scope left pos opening closing items ctx s slot ret}
    (called : left.shape = .function slot ret) (given : slot ≠ .void ∨ Tree.trim items ≠ []) :
    Leads ⟨depth, .suffix scope left (.group pos (.block .code opening closing) items), ctx, s⟩
      ⟨depth, .expression scope slot pos items, ctx.holding left.namespaces, s⟩
  | lines {depth outer pos nodes ctx s body found} (read : Body.read pos nodes = .ok (body, found)) :
    Leads ⟨depth, .body outer pos nodes, ctx, s⟩
      ⟨depth, .lines (s.store.namespaces.size :: outer) s.fieldList body.lines,
        ctx.holding [s.store.namespaces.size], s.declaring ctx outer pos body found⟩
  | line {depth scope list line rest ctx s} :
    Leads ⟨depth, .lines scope list (line :: rest), ctx, s⟩ ⟨depth, .line scope list line, ctx, s⟩
  | afterLine {depth scope list line rest ctx s mid}
    (before : Run.attempt (declareLineWith (forceWithin depth) scope list line) ctx s =
      (.done (), mid)) :
    Leads ⟨depth, .lines scope list (line :: rest), ctx, s⟩ ⟨depth, .lines scope list rest, ctx, mid⟩
  | whole {depth scope list line ctx s}
    (read : twoSided? ChainTag.bindsField line.pos line.items = .ok none) :
    Leads ⟨depth, .line scope list line, ctx, s⟩
      ⟨depth, .expression scope .void line.pos line.items, ctx, s⟩
  | key {depth scope list line ctx s sides}
    (read : twoSided? ChainTag.bindsField line.pos line.items = .ok (some sides)) :
    Leads ⟨depth, .line scope list line, ctx, s⟩
      ⟨depth, .expression scope .key sides.left.pos sides.leftItems, ctx, s⟩
  | reached {depth scope slot pos name ctx s id binding thunk}
    (way : s.store.reach ctx.held name scope = .binding id binding)
    (source : s.store.source? id binding = some thunk) :
    Leads ⟨depth, .resolve scope slot pos name, ctx, s⟩ ⟨depth, .force id binding thunk slot, ctx, s⟩
  | source {depth id binding thunk slot ctx s}
    (first : (s.store.get id).findings.get? binding = none)
    (entered : (id, binding) ∉ ctx.forcing) :
    Leads ⟨depth + 1, .force id binding thunk slot, ctx, s⟩
      ⟨depth, .expression thunk.scope slot thunk.pos thunk.nodes,
        ctx.inside id binding thunk.pos, s.inNewBlock⟩

abbrev Moment.Reaches : Moment → Moment → Prop := Relation.ReflTransGen Leads

theorem Tree.weightAll_solid (nodes : List Tree) : weightAll (solid nodes) ≤ weightAll nodes :=
  weightAll_filter _ nodes

theorem Tree.weightAll_of_solid {nodes items : List Tree} (h : solid nodes = items) :
    weightAll items ≤ weightAll nodes := h ▸ weightAll_solid nodes

theorem Leads.smaller {m next : Moment} (h : Leads m next) :
    next.depth < m.depth ∨ next.depth = m.depth ∧ next.task.size < m.task.size := by
  cases h with
  | @literal _ _ _ _ nodes _ _ _ _ head | @afterLiteral _ _ _ _ nodes _ _ _ _ _ _ head =>
    obtain ⟨_, _, items⟩ := literal?_eq_some head
    have light := Tree.weightAll_solid nodes
    simp only [items, Tree.weightAll, Tree.weight] at light
    exact Or.inr ⟨rfl, by simp only [Task.size]; omega⟩
  | @base _ _ _ _ nodes _ _ _ _ _ _ items | @afterBase _ _ _ _ nodes _ _ _ _ _ _ _ _ items =>
    have light := Tree.weightAll_solid nodes
    simp only [items, Tree.weightAll] at light
    exact Or.inr ⟨rfl, by simp only [Task.size]; omega⟩
  | code | argument => exact Or.inr ⟨rfl, by simp only [Task.size, Tree.weight]; omega⟩
  | name | access =>
    exact Or.inr ⟨rfl, by simp only [Task.size, Tree.weight]; omega⟩
  | @suffix _ _ _ node | @afterSuffix _ _ _ node =>
    have := node.weight_pos
    exact Or.inr ⟨rfl, by simp only [Task.size, Tree.weightAll]; omega⟩
  | @lines _ _ pos nodes _ _ body found read =>
    have light := Body.read_weight pos nodes body found read
    exact Or.inr ⟨rfl, by simp only [Task.size]; omega⟩
  | line | afterLine => exact Or.inr ⟨rfl, by simp only [Task.size, lineWeight]; omega⟩
  | whole => exact Or.inr ⟨rfl, by simp only [Task.size]; omega⟩
  | key read =>
    have light := twoSided?_weight _ _ _ _ read
    exact Or.inr ⟨rfl, by simp only [Task.size]; omega⟩
  | reached => exact Or.inr ⟨rfl, by simp only [Task.size]; omega⟩
  | source => exact Or.inl (Nat.lt_succ_self _)

theorem Moment.induction {P : Moment → Prop} (step : ∀ m, (∀ next, Leads m next → P next) → P m)
    (m : Moment) : P m :=
  step m fun next _h => Moment.induction step next
termination_by (m.depth, m.task.size)
decreasing_by
  rcases _h.smaller with less | ⟨same, less⟩
  · exact Prod.Lex.left _ _ less
  · rw [same]
    exact Prod.Lex.right _ less

section

variable (force : Forcing) (ctx : Context) (s : State)

/-- Work in another block, of which the outcome and the store are taken over. -/
def State.leaving {α : Type} (r : Outcome α × State) : Outcome α × State :=
  (r.1, { r.2 with block := s.block })

def findOut (analyze : Scope → Shape → Position → List Tree → Run Analysis) (thunk : Thunk)
    (slot : Shape) : Run Forced := do
  let found ← analyze thunk.scope slot thunk.pos thunk.nodes
  let results ← Run.evaluate
  let value ← Run.ofExcept (results.resolve thunk.pos found.value)
  return ⟨value, found.shape⟩

theorem workOut_apply (analyze : Scope → Shape → Position → List Tree → Run Analysis) (thunk : Thunk)
    (slot : Shape) :
    workOut analyze thunk slot ctx s = s.leaving (findOut analyze thunk slot ctx s.inNewBlock) := rfl

theorem forceBy_apply (analyze : Scope → Shape → Position → List Tree → Run Analysis)
    (id : NamespaceId) (binding : Binding) (thunk : Thunk) (slot : Shape) :
    forceBy analyze id binding thunk slot ctx s =
      match (s.store.get id).findings.get? binding with
      | some found => (.done found, s)
      | none =>
        if (id, binding) ∈ ctx.forcing then
          Run.fail (.error thunk.pos (.dependencyCycle (cycleLabels ctx.trace binding.label))) ctx s
        else
          (do
            let found ← workOut analyze thunk slot
            Run.modifyStore (·.keep id binding found)
            return found) (ctx.inside id binding thunk.pos) s := by
  show (match (s.store.get id).findings.get? binding with
    | some found => return found
    | none => _ : Run Forced) (ctx.holding [id]) s = _
  cases (s.store.get id).findings.get? binding with
  | some found => rfl
  | none =>
    show (if ctx.forcing.contains (id, binding) then _ else _ : Run Forced) (ctx.holding [id]) s = _
    by_cases entered : (id, binding) ∈ ctx.forcing
    · rw [if_pos (List.contains_iff_mem.2 entered)]
      exact (if_pos entered).symm
    · rw [if_neg (mt List.contains_iff_mem.1 entered)]
      exact (if_neg entered).symm

def fieldsOf (pos : Position) (list : InstrRef) : Run Registry := do
  let results ← Run.evaluate
  Run.ofExcept (results.aggregate pos list)

theorem declareWith_apply (outer : Scope) (pos : Position) (nodes : List Tree) :
    declareWith force outer pos nodes ctx s =
      match Body.read pos nodes with
      | .error d => Run.fail d ctx s
      | .ok (body, found) =>
        let id := s.store.namespaces.size
        let declared := (do
          declareLinesWith force (id :: outer) s.fieldList body.lines
          fieldsOf pos s.fieldList) (ctx.holding [id]) (s.declaring ctx outer pos body found)
        match s.leaving declared with
        | (.done registry, after) =>
          (.done id, { after with store := after.store.finish id registry })
        | (.failed d, after) => (.failed d, after)
        | (.exhausted, after) => (.exhausted, after) := by
  rw [declareWith.eq_def]
  cases Body.read pos nodes with
  | error d => rfl
  | ok read =>
    obtain ⟨body, found⟩ := read
    have inner : Run.holding [s.store.namespaces.size] (Run.inNewBlock do
        let list ← Run.push .nsInit pos
        declareLinesWith force (s.store.namespaces.size :: outer) list body.lines
        let results ← Run.evaluate
        Run.ofExcept (results.aggregate pos list)) ctx
          ⟨((s.store.record (found.map (·.under ctx.trace))).begin pos outer body.definitions).2,
            s.block⟩ =
        s.leaving ((do
          declareLinesWith force (s.store.namespaces.size :: outer) s.fieldList body.lines
          fieldsOf pos s.fieldList) (ctx.holding [s.store.namespaces.size])
            (s.declaring ctx outer pos body found)) := rfl
    have fresh : ((s.store.record (found.map (·.under ctx.trace))).begin pos outer
        body.definitions).1 = s.store.namespaces.size := rfl
    dsimp only
    rw [← inner, Run.bind_apply]
    dsimp only [Run.record]
    rw [Run.bind_apply]
    dsimp only [Run.begin]
    rw [Run.bind_apply, fresh]
    generalize Run.holding _ _ _ _ = ended
    rcases ended with ⟨_ | _ | _, after⟩ <;> rfl

end

/-- The calls that compiling a text begins with: its body, and then its entry point. -/
inductive Opens (label : String) (text : List Char) : Moment → Prop
  | body :
    Opens label text
      ⟨(State.opening (tokenize label text).diagnostics).store.bindingBound
          + Tree.weightAll (tokenize label text).nodes + 1,
        .body [] (.start label) (tokenize label text).nodes, .start,
        .opening (tokenize label text).diagnostics⟩
  | entry {root after entry}
    (before : declare [] (.start label) (tokenize label text).nodes .start
      (.opening (tokenize label text).diagnostics) = (.done root, after))
    (there : (after.store.get root).field? (.symbol .main) = some entry) :
    Opens label text
      ⟨after.inNewBlock.store.bindingBound + 1,
        .force root (.field (.symbol .main)) entry.thunk .mainEntry,
        ⟨[⟨"entry point", .start label⟩], [root], []⟩, after.inNewBlock⟩

/-- The calls that are made when a text is compiled. -/
def Happens (label : String) (text : List Char) (m : Moment) : Prop :=
  ∃ first, Opens label text first ∧ first.Reaches m

theorem Happens.next {label : String} {text : List Char} {m next : Moment}
    (h : Happens label text m) (leads : Leads m next) : Happens label text next := by
  obtain ⟨first, opens, reaches⟩ := h
  exact ⟨first, opens, reaches.tail leads⟩

/-- What holds of the first calls and is passed on holds of all calls. -/
theorem Happens.invariant {label : String} {text : List Char} {P : Moment → Prop}
    (first : ∀ m, Opens label text m → P m) (step : ∀ m next, P m → Leads m next → P next)
    {m : Moment} (h : Happens label text m) : P m := by
  obtain ⟨opening, opens, reaches⟩ := h
  induction reaches with
  | refl => exact first _ opens
  | tail _ leads ih => exact step _ _ ih leads

end NamespaceLang

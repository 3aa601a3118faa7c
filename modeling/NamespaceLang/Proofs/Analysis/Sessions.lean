import NamespaceLang.Proofs.Analysis.Moments
import NamespaceLang.Proofs.Store.Census

/-!
# Sessions

The same analysis as work on a session, in which the trace and the memo tables
are changed as the work goes: a step is appended to the trace and taken off
again, a binding is marked before its source is worked out, and the mark gives
way to what was found, or is removed. Nothing puts the marks and the trace back
but the steps that changed them, also where the work in between has failed. A
session also notes which bindings were looked into, and how that came out.
-/

set_option autoImplicit false

namespace NamespaceLang

inductive Mark where
  | inProgress
  | done (found : Forced)

def Table.erase {κ α : Type} [DecidableEq κ] (t : Table κ α) (k : κ) : Table κ α :=
  ⟨t.entries.filter (·.1 ≠ k)⟩

theorem Table.erase_absent {κ α : Type} [DecidableEq κ] {t : Table κ α} {k : κ}
    (h : t.get? k = none) : t.erase k = t := by
  obtain ⟨entries⟩ := t
  simp only [Table.get?, Table.erase, Table.mk.injEq] at *
  refine List.filter_eq_self.2 fun entry hm => ?_
  rw [decide_eq_true_eq]
  rintro rfl
  have present := (Table.mem_keys_iff ⟨entries⟩ entry.1).1 (List.mem_map_of_mem hm)
  rw [show (Table.mk entries).get? entry.1 = none from h] at present
  cases present

namespace Store

def forget (s : Store) (p : Place) : Store :=
  s.modify p.1 fun n => { n with findings := n.findings.erase p.2 }

theorem modify_id (s : Store) (id : NamespaceId) {f : Namespace → Namespace}
    (h : f (s.get id) = s.get id) : s.modify id f = s := by
  obtain ⟨diagnostics, nextBlock, namespaces⟩ := s
  simp only [modify, Store.mk.injEq, true_and]
  apply Array.ext
  · simp
  · intro i inside _
    rw [Array.getElem_modify]
    split
    · next same =>
      subst same
      have here : id < namespaces.size := by simpa using inside
      have own : (Store.mk diagnostics nextBlock namespaces).get id = namespaces[id] := by
        simp only [get, Array.getElem?_eq_getElem here, Option.getD_some]
      rwa [own] at h
    · rfl

theorem forget_absent {s : Store} {p : Place} (h : s.finding? p = none) : s.forget p = s := by
  refine modify_id s p.1 ?_
  rw [Table.erase_absent h]

theorem finding?_keep_of_ne {s : Store} {p q : Place} (other : q ≠ p) (found : Forced) :
    (s.keep p.1 p.2 found).finding? q = s.finding? q := by
  rw [finding?, get?_keep, if_neg, finding?]
  rintro ⟨id, -, binding⟩
  exact other (Prod.ext id binding.symm)

end Store

structure Session where
  trace : Trace
  /-- The bindings that are marked as being looked into. -/
  marks : List Place
  state : State
  /-- The bindings that were looked into, and whether something was found. -/
  ended : List (Place × Bool)

namespace Session

def context (s : Session) (held : List NamespaceId) : Context := ⟨s.trace, held, s.marks⟩

def finding? (s : Session) (p : Place) : Option Forced := s.state.store.finding? p

/-- What the memo table of the namespace says of the binding. -/
def memo (s : Session) (p : Place) : Option Mark :=
  match s.finding? p with
  | some found => some (.done found)
  | none => if s.marks.contains p then some .inProgress else none

def write (s : Session) (p : Place) (mark? : Option Mark) : Session :=
  let store := s.state.store.forget p
  let others := s.marks.filter (· ≠ p)
  match mark? with
  | none => { s with marks := others, state := { s.state with store } }
  | some .inProgress => { s with marks := p :: others, state := { s.state with store } }
  | some (.done found) =>
    { s with marks := others, state := { s.state with store := store.keep p.1 p.2 found } }

def note (s : Session) (p : Place) (found : Bool) : Session :=
  { s with ended := s.ended ++ [(p, found)] }

end Session

/-- Work on a session, with the namespaces that somebody on the way here has in hand. -/
def Work (α : Type) := List NamespaceId → Session → Outcome α × Session

namespace Work

variable {α β : Type}

def goOn (next : α → Work β) (held : List NamespaceId) : Outcome α × Session → Outcome β × Session
  | (.done a, s) => next a held s
  | (.failed d, s) => (.failed d, s)
  | (.exhausted, s) => (.exhausted, s)

instance : Monad Work where
  pure a := fun _ s => (.done a, s)
  bind act next := fun held s => goOn next held (act held s)

def plain (act : Run α) : Work α := fun held s =>
  let (outcome, state) := act (s.context held) s.state
  (outcome, { s with state })

def fail (d : Diagnostic) : Work α := plain (Run.fail d)

def store : Work Store := plain Run.store

def holding (ids : List NamespaceId) (act : Work α) : Work α := fun held s => act (ids ++ held) s

def within (label : String) (pos : Position) (act : Work α) : Work α := fun held s =>
  let (outcome, s) := act held { s with trace := s.trace ++ [⟨label, pos⟩] }
  (outcome, { s with trace := s.trace.dropLast })

def inNewBlock (act : Work α) : Work α := fun held s =>
  let (block, store) := s.state.store.newBlock
  let (outcome, after) := act held { s with state := ⟨store, block⟩ }
  (outcome, { after with state := { after.state with block := s.state.block } })

def attempt (act : Work Unit) : Work Unit := fun held s =>
  match act held s with
  | (.failed d, s) =>
    (.done (), { s with state := { s.state with store := s.state.store.record [d] } })
  | ended => ended

abbrev Forcing := NamespaceId → Binding → Thunk → Shape → Work Forced

def workOut (analyze : Scope → Shape → Position → List Tree → Work Analysis) (thunk : Thunk)
    (slot : Shape) : Work Forced :=
  inNewBlock do
    let found ← analyze thunk.scope slot thunk.pos thunk.nodes
    let results ← plain Run.evaluate
    let value ← plain (Run.ofExcept (results.resolve thunk.pos found.value))
    return ⟨value, found.shape⟩

/-- Looks into a binding, unless the memo table says that this was done or is being done. The mark
is written before the work, and after it gives way to what comes of it. -/
def forceBy (analyze : Scope → Shape → Position → List Tree → Work Analysis) : Forcing :=
  fun id binding thunk slot held s =>
    let p : Place := (id, binding)
    match s.memo p with
    | some (.done found) => (.done found, s.note p true)
    | some .inProgress =>
      let cycle := cycleLabels s.trace binding.label
      (.failed ((Diagnostic.error thunk.pos (.dependencyCycle cycle)).under s.trace), s.note p false)
    | none =>
      match within (forceMark ++ binding.label) thunk.pos (workOut analyze thunk slot) (id :: held)
        (s.write p (some .inProgress)) with
      | (.done found, s) => (.done found, (s.write p (some (.done found))).note p true)
      | (.failed d, s) => (.failed d, (s.write p none).note p false)
      | (.exhausted, s) => (.exhausted, (s.write p none).note p false)

section

variable (force : Forcing)

def forceFieldWith (id : NamespaceId) (key : FieldKey) (slot : Shape) : Work Analysis := do
  let n := (← store).get id
  match n.field? key with
  | some entry => return (← force id (.field key) entry.thunk slot).analysis
  | none => fail (.unreachable n.pos (.fieldVanished key))

def readFieldWith? (id : NamespaceId) (key : FieldKey) (slot : Shape) : Work (Option Analysis) := do
  if (((← store).get id).field? key).isSome then
    return some (← forceFieldWith force id key slot)
  else return none

def resolveInWith (id : NamespaceId) (pos : Position) (name : String) (slot : Shape) :
    Work (Option Analysis) := do
  let store ← store
  match (store.get id).definitions.get? name with
  | some found =>
    if found.path.isEmpty then
      let thunk : Thunk := ⟨found.value, found.pos, store.scopeOf id⟩
      return some (← force id (.definition name) thunk slot).analysis
    else fail (.error pos (.destructuredDefinition name))
  | none => readFieldWith? force id (.string name) slot

def resolveWith (pos : Position) (name : String) (slot : Shape) : Scope → Work Analysis
  | [] => fail (.error pos (.unknownName name))
  | id :: outer => do
    if (← store).isAlive (← plain Run.context).held id then
      match ← resolveInWith force id pos name slot with
      | some found => return found
      | none => resolveWith pos name slot outer
    else fail (.unreachable pos .scopeGone)

def readStringWith (target : NamespaceRef) (pos : Position) (name : String) : Work Analysis :=
  match target with
  | .builtin =>
    match Builtin.ofName? name with
    | some builtin => plain (Run.deferred (.makeKey builtin.key) pos (.ofKey builtin.key))
    | none => fail (.error pos (.noBuiltinField name))
  | .declared id => do
    let n := (← store).get id
    if n.fields?.isSome then
      match ← readFieldWith? force id (.string name) .unknown with
      | some found => return found
      | none => fail ((Diagnostic.error pos (.noField name)).withNote n.pos .declaredHere)
    else fail (.error pos (.openNamespace name))

def readSymbolWith (target : NamespaceRef) (builtin : Builtin) (slot : Shape) :
    Work (Option Analysis) :=
  match target with
  | .builtin => return none
  | .declared id => readFieldWith? force id (.symbol builtin) slot

def accessWith (left : Analysis) (pos : Position) (name : String) : Work Analysis :=
  match left.shape with
  | .namespaceOf target => holding left.namespaces (readStringWith force target pos name)
  | .anyNamespace => fail (.error pos .accessOnAnyNamespace)
  | other => fail (.error pos (.accessOn name other.shown))

def analyzeLeafWith (scope : Scope) (slot : Shape) (pos : Position) (leaf : Leaf) : Work Analysis :=
  match leaf with
  | .identifier .builtin name =>
    if name = Builtin.namespaceName then do
      let _ ← plain (Run.push .comptimeOnly pos)
      return .ofNamespace .builtin
    else fail (.error pos (.unknownBuiltin name))
  | .identifier .access name =>
    if slot.isKey then plain (Run.deferred (.makeKey (.string name)) pos (.stringKey name))
    else fail (.error pos (.nameNotKey name slot.shown))
  | .identifier .plain name => resolveWith force pos name slot scope
  | .error => fail (.error pos .erroneousBinding)
  | other => fail (.error pos (.notExpression other.kind))

end

def call (pos : Position) (method : Analysis) (argument : Shape → Work Analysis) : Work Analysis :=
  match method.shape with
  | .function slot ret => do
    let given ← holding method.namespaces (argument slot)
    let methodRef ← plain (Run.materialize method.value pos)
    let givenRef ← plain (Run.materialize given.value pos)
    plain (Run.deferred (.call methodRef givenRef) pos ret)
  | other => fail (.error pos (.notCallable other.kind))

mutual

def analyzeWith (force : Forcing) (scope : Scope) (slot : Shape) (pos : Position)
    (nodes : List Tree) : Work Analysis :=
  match slot with
  | .ast => plain (capture scope pos nodes)
  | slot =>
    match _h : nodes.filter (!·.isBlank) with
    | [] => fail (.error pos .emptyExpression)
    | .leaf start (.identifier .plain "ns") :: .group bodyPos (.block .list _ _) body :: rest => do
      let id ← declareWith force scope bodyPos body
      let _ ← plain (Run.push .comptimeOnly start)
      analyzeSuffixesWith force scope (.ofNamespace (.declared id)) rest
    | first :: rest => do
      let base ← analyzeBaseWith force scope (if rest.isEmpty then slot else .unknown) first
      analyzeSuffixesWith force scope base rest
termination_by 3 * Tree.weightAll nodes + 1
decreasing_by
  all_goals
    have whole := Tree.weightAll_filter (!·.isBlank) nodes
    rw [_h] at whole
    simp only [Tree.weightAll, Tree.weight] at whole
    omega

def analyzeBaseWith (force : Forcing) (scope : Scope) (slot : Shape) (node : Tree) :
    Work Analysis :=
  match node with
  | .leaf pos leaf => analyzeLeafWith force scope slot pos leaf
  | .group pos (.block .code _ _) items => analyzeWith force scope slot pos items
  | .group pos (.block .arrowFunction _ _) items => do
    let _ ← plain (Run.ofExcept (Pattern.read pos items))
    fail (.error pos .arrowFunction)
  | .group pos form _ => fail (.error pos (.notExpression form.kind))
termination_by 3 * node.weight
decreasing_by simp only [Tree.weight]; omega

def analyzeSuffixesWith (force : Forcing) (scope : Scope) (left : Analysis) (nodes : List Tree) :
    Work Analysis :=
  match nodes with
  | [] => return left
  | node :: rest => do
    let next ← match node with
      | .leaf _ (.bare .access _) => pure left
      | .leaf pos (.bare _ spelling) => fail (.error pos (.strayBare spelling))
      | .leaf pos (.identifier .plain name) | .leaf pos (.identifier .access name) =>
        accessWith force left pos name
      | .group pos (.block .code _ _) items =>
        call pos left fun slot =>
          match slot, Tree.trim items with
          | .void, [] => plain (Run.deferred .void pos .void)
          | slot, _ => analyzeWith force scope slot pos items
      | other => fail (.error other.pos (.strayAfterExpression other.kind))
    analyzeSuffixesWith force scope next rest
termination_by 3 * Tree.weightAll nodes
decreasing_by
  · have := node.weight_pos
    simp only [Tree.weightAll]
    omega
  · simp only [Tree.weightAll, Tree.weight]
    omega

def declareWith (force : Forcing) (outer : Scope) (pos : Position) (nodes : List Tree) :
    Work NamespaceId :=
  match _h : Body.read pos nodes with
  | .error d => fail d
  | .ok (body, found) => do
    plain (Run.record found)
    let id ← plain (Run.begin pos outer body.definitions)
    let registry ← holding [id] <| inNewBlock do
      let list ← plain (Run.push .nsInit pos)
      declareLinesWith force (id :: outer) list body.lines
      let results ← plain Run.evaluate
      plain (Run.ofExcept (results.aggregate pos list))
    plain (Run.modifyStore (·.finish id registry))
    return id
termination_by 3 * Tree.weightAll nodes + 4
decreasing_by
  have := Body.read_weight pos nodes body found _h
  omega

def declareLinesWith (force : Forcing) (scope : Scope) (list : InstrRef) (lines : List Line) :
    Work Unit :=
  match lines with
  | [] => return
  | line :: rest => do
    attempt (declareLineWith force scope list line)
    declareLinesWith force scope list rest
termination_by lineWeight lines
decreasing_by all_goals simp only [lineWeight]; omega

def declareLineWith (force : Forcing) (scope : Scope) (list : InstrRef) (line : Line) :
    Work Unit :=
  match _h : twoSided? ChainTag.bindsField line.pos line.items with
  | .error d => fail d
  | .ok none => do
    let _ ← analyzeWith force scope .void line.pos line.items
  | .ok (some sides) => do
    let key ← analyzeWith force scope .key sides.left.pos sides.leftItems
    match key.shape with
    | .stringKey _ | .symbolKey .. =>
      let keyRef ← plain (Run.materialize key.value sides.mark.pos)
      let body ← plain (capture scope sides.right.pos sides.rightItems)
      let bodyRef ← plain (Run.materialize body.value sides.mark.pos)
      let _ ← plain (Run.push (.nsAppend list keyRef bodyRef) sides.mark.pos)
    | .key => fail (.error sides.left.pos .unnarrowedKey)
    | other => fail (.error sides.left.pos (.notKey other.shown))
termination_by 3 * Tree.weightAll line.items + 2
decreasing_by
  · omega
  · have := twoSided?_weight _ _ _ _ _h
    omega

end

def forceWithin : Nat → Forcing
  | 0 => fun _ _ _ _ => plain Run.exhausted
  | depth + 1 => forceBy (analyzeWith (forceWithin depth))

def argumentWith (force : Forcing) (scope : Scope) (pos : Position) (items : List Tree)
    (slot : Shape) : Work Analysis :=
  match slot, Tree.trim items with
  | .void, [] => plain (Run.deferred .void pos .void)
  | slot, _ => analyzeWith force scope slot pos items

def withForcing (nodes : List Tree) (act : Forcing → Work α) : Work α := do
  act (forceWithin ((← store).bindingBound + Tree.weightAll nodes + 1))

end Work

inductive Operation where
  | resolve (scope : Scope) (pos : Position) (name : String) (slot : Shape)
  | readString (target : NamespaceRef) (pos : Position) (name : String)
  | readSymbol (target : NamespaceRef) (builtin : Builtin) (slot : Shape)
  | analyze (scope : Scope) (slot : Shape) (pos : Position) (nodes : List Tree)
  | call (scope : Scope) (pos : Position) (method : Analysis) (items : List Tree)
  | enter (pos : Position) (method : Analysis)
  | declare (outer : Scope) (pos : Position) (nodes : List Tree)
  | evaluate

namespace Operation

def Result : Operation → Type
  | .readSymbol .. => Option Analysis
  | .declare .. => NamespaceId
  | .evaluate => Results
  | _ => Analysis

def run : (o : Operation) → Run o.Result
  | .resolve scope pos name slot => NamespaceLang.resolve scope pos name slot
  | .readString target pos name => NamespaceLang.readString target pos name
  | .readSymbol target builtin slot => NamespaceLang.readSymbol target builtin slot
  | .analyze scope slot pos nodes => NamespaceLang.analyze scope slot pos nodes
  | .call scope pos method items => NamespaceLang.withForcing items fun force =>
    NamespaceLang.call pos method (NamespaceLang.argumentWith force scope pos items)
  | .enter pos method => NamespaceLang.call pos method fun _ => Run.deferred .void pos .void
  | .declare outer pos nodes => NamespaceLang.declare outer pos nodes
  | .evaluate => Run.evaluate

def work : (o : Operation) → Work o.Result
  | .resolve scope pos name slot => Work.withForcing [] fun force =>
    Work.resolveWith force pos name slot scope
  | .readString target pos name => Work.withForcing [] fun force =>
    Work.readStringWith force target pos name
  | .readSymbol target builtin slot => Work.withForcing [] fun force =>
    Work.readSymbolWith force target builtin slot
  | .analyze scope slot pos nodes => Work.withForcing nodes fun force =>
    Work.analyzeWith force scope slot pos nodes
  | .call scope pos method items => Work.withForcing items fun force =>
    Work.call pos method (Work.argumentWith force scope pos items)
  | .enter pos method => Work.call pos method fun _ => Work.plain (Run.deferred .void pos .void)
  | .declare outer pos nodes => Work.withForcing nodes fun force =>
    Work.declareWith force outer pos nodes
  | .evaluate => Work.plain Run.evaluate

end Operation

end NamespaceLang

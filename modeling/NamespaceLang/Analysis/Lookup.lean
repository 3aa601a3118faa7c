import NamespaceLang.Analysis.Run

/-!
# Looking things up

A plain name is looked for in its scope, from the innermost namespace out; in
each namespace a definition comes before a field. What is found is looked into
once, in a block of its own, and what comes out of it is kept. A binding that
is reached again while it is being looked into is an error.
-/

set_option autoImplicit false

namespace NamespaceLang

/-- A way to look into a binding of a namespace, whose source is the thunk. -/
abbrev Forcing := NamespaceId → Binding → Thunk → Shape → Run Forced

def forceMark : String := "resolve "

def fromLast (a : String) : List String → Option (List String)
  | [] => none
  | b :: rest =>
    match fromLast a rest with
    | some found => some found
    | none => if b = a then some (b :: rest) else none

/-- The bindings from `label` round to `label` again, by the labels of a trace. -/
def cycleLabels (trace : Trace) (label : String) : List String :=
  let labels := trace.map (·.label)
  let round := (fromLast (forceMark ++ label) labels).getD labels
  round.filterMap (fun l => (forceMark.toList.isPrefixOf? l.toList).map String.ofList) ++ [label]

def workOut (analyze : Scope → Shape → Position → List Tree → Run Analysis) (thunk : Thunk)
    (slot : Shape) : Run Forced :=
  Run.inNewBlock do
    let found ← analyze thunk.scope slot thunk.pos thunk.nodes
    let results ← Run.evaluate
    let value ← Run.ofExcept (results.resolve thunk.pos found.value)
    return ⟨value, found.shape⟩

def forceBy (analyze : Scope → Shape → Position → List Tree → Run Analysis) : Forcing :=
  fun id binding thunk slot => Run.holding [id] do
    match ((← Run.store).get id).findings.get? binding with
    | some found => return found
    | none =>
      let ctx ← Run.context
      if ctx.forcing.contains (id, binding) then
        Run.fail (.error thunk.pos (.dependencyCycle (cycleLabels ctx.trace binding.label)))
      else
        let found ← Run.within (forceMark ++ binding.label) thunk.pos <|
          Run.entering id binding <| workOut analyze thunk slot
        Run.modifyStore (·.keep id binding found)
        return found

section

variable (force : Forcing)

def forceFieldWith (id : NamespaceId) (key : FieldKey) (slot : Shape) : Run Analysis := do
  let n := (← Run.store).get id
  match n.field? key with
  | some entry => return (← force id (.field key) entry.thunk slot).analysis
  | none => Run.fail (.unreachable n.pos (.fieldVanished key))

def readFieldWith? (id : NamespaceId) (key : FieldKey) (slot : Shape) : Run (Option Analysis) := do
  if (((← Run.store).get id).field? key).isSome then
    return some (← forceFieldWith force id key slot)
  else return none

def resolveInWith (id : NamespaceId) (pos : Position) (name : String) (slot : Shape) :
    Run (Option Analysis) := do
  let store ← Run.store
  match (store.get id).definitions.get? name with
  | some found =>
    if found.path.isEmpty then
      let thunk : Thunk := ⟨found.value, found.pos, store.scopeOf id⟩
      return some (← force id (.definition name) thunk slot).analysis
    else Run.fail (.error pos (.destructuredDefinition name))
  | none => readFieldWith? force id (.string name) slot

/-- What a plain name at `pos` stands for. -/
def resolveWith (pos : Position) (name : String) (slot : Shape) : Scope → Run Analysis
  | [] => Run.fail (.error pos (.unknownName name))
  | id :: outer => do
    if (← Run.store).isAlive (← Run.context).held id then
      match ← resolveInWith force id pos name slot with
      | some found => return found
      | none => resolveWith pos name slot outer
    else Run.fail (.unreachable pos .scopeGone)

def readStringWith (target : NamespaceRef) (pos : Position) (name : String) : Run Analysis :=
  match target with
  | .builtin =>
    match Builtin.ofName? name with
    | some builtin => Run.deferred (.makeKey builtin.key) pos (.ofKey builtin.key)
    | none => Run.fail (.error pos (.noBuiltinField name))
  | .declared id => do
    let n := (← Run.store).get id
    if n.fields?.isSome then
      match ← readFieldWith? force id (.string name) .unknown with
      | some found => return found
      | none => Run.fail ((Diagnostic.error pos (.noField name)).withNote n.pos .declaredHere)
    else Run.fail (.error pos (.openNamespace name))

def readSymbolWith (target : NamespaceRef) (builtin : Builtin) (slot : Shape) :
    Run (Option Analysis) :=
  match target with
  | .builtin => return none
  | .declared id => readFieldWith? force id (.symbol builtin) slot

def accessWith (left : Analysis) (pos : Position) (name : String) : Run Analysis :=
  match left.shape with
  | .namespaceOf target => Run.holding left.namespaces (readStringWith force target pos name)
  | .anyNamespace => Run.fail (.error pos .accessOnAnyNamespace)
  | other => Run.fail (.error pos (.accessOn name other.shown))

end

def call (pos : Position) (method : Analysis) (argument : Shape → Run Analysis) :
    Run Analysis :=
  match method.shape with
  | .function slot ret => do
    let given ← Run.holding method.namespaces (argument slot)
    let methodRef ← Run.materialize method.value pos
    let givenRef ← Run.materialize given.value pos
    Run.deferred (.call methodRef givenRef) pos ret
  | other => Run.fail (.error pos (.notCallable other.kind))

end NamespaceLang

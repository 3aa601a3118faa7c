import NamespaceLang.Proofs.Analysis.Registry
import NamespaceLang.Proofs.Termination

/-!
# How compiling ends

The body of a file can always be read, and nothing that is worked out is a function.
So the entry point is never called: of every text one problem is told at the end,
after all that reading it, declaring it and looking into its entry point have told.
Either there is no entry point, or looking into it has failed, or it is not callable.
-/

set_option autoImplicit false

namespace NamespaceLang

/-- What the call is given can be gone on from in a block: what stands before a suffix has its
shape, and fields are appended to an instruction that begins a namespace. -/
def Task.Fed (b : Block) : Task → Prop
  | .suffixes _ left _ | .suffix _ left _ => left.Shaped b
  | .lines _ list _ | .line _ list _ => Names b.id b.instrs.toList list Op.beginsNamespace
  | _ => True

/-- The block at hand can be run, and the call does not change that. -/
structure Moment.Fed (m : Moment) : Prop where
  shaped : m.state.store.Shaped
  runnable : Accepted m.state.block.id m.state.block.instrs.toList
  given : m.task.Fed m.state.block

theorem accepted_nil (id : BlockId) : Accepted id [] := fun before _ _ split => by
  cases before <;> cases split

theorem Accepted.no_call {id : BlockId} {instrs : List Instr} (h : Accepted id instrs) {instr : Instr}
    (there : instr ∈ instrs) (method arg : InstrRef) : instr.op ≠ .call method arg := by
  intro op
  obtain ⟨before, rest, split⟩ := List.append_of_mem there
  have accepted := h before instr rest split
  rw [op] at accepted
  exact accepted

namespace Shapely

variable {α : Type} {given : Prop} {good : α → Block → Prop} {s : State} {r : Outcome α × State}

theorem runnable (h : Shapely given Op.alone good s r) (hg : given)
    (before : Accepted s.block.id s.block.instrs.toList) :
    Accepted r.2.block.id r.2.block.instrs.toList := by
  obtain ⟨more, block, alone⟩ := h.block hg
  rw [block, Array.toList_append]
  exact before.more fun instr hm => alone instr (Array.mem_toList_iff.1 hm)

end Shapely

namespace Moment.Fed

variable {depth : Nat} {ctx : Context} {s : State}

theorem into {m : Moment} {task : Task} (h : m.Fed) (given : task.Fed m.state.block) :
    Moment.Fed ⟨depth, task, ctx, m.state⟩ :=
  ⟨h.shaped, h.runnable, given⟩

theorem onward {m : Moment} {scope : Scope} {left : Analysis} {rest : List Tree} {mid : State}
    {given : Prop} {r : Outcome Analysis × State} (h : m.Fed)
    (ended : Shapely given Op.alone Analysis.Shaped m.state r) (hg : given)
    (before : r = (.done left, mid)) :
    Moment.Fed ⟨depth, .suffixes scope left rest, ctx, mid⟩ := by
  subst before
  exact ⟨ended.store, ended.runnable hg h.runnable, ended.good hg left rfl⟩

theorem line {scope : Scope} {list : InstrRef} {line : Line}
    (h : Moment.Fed ⟨depth, .line scope list line, ctx, s⟩) :
    Filling list (declareLineWith (forceWithin depth) scope list line ctx s).2.block :=
  (BodyReading.line_appends (r := ⟨depth, scope, list, ctx⟩) h.shaped ⟨h.runnable, h.given⟩ line).1

end Moment.Fed

theorem Leads.fed {m next : Moment} (leads : Leads m next) (h : m.Fed) : next.Fed := by
  have shaped := leads.shaped h.shaped
  cases leads with
  | literal | base | code | name | access | argument | whole | key | reached => exact h.into trivial
  | @afterLiteral depth scope slot pos nodes ctx s l id mid kept head before =>
    have declared : Shapely True Op.alone (fun _ _ => True) s
        (declareWith (forceWithin depth) scope l.pos l.body ctx s) :=
      Moment.shaped ⟨depth, .body scope l.pos l.body, ctx, s⟩ h.shaped
    have runnable := declared.runnable trivial h.runnable
    rw [before] at runnable
    refine ⟨shaped, ?_, rfl⟩
    show Accepted mid.block.id (mid.block.instrs.push _).toList
    rw [Array.toList_push]
    exact runnable.more (by simp [Op.alone, Op.operands])
  | @afterBase depth scope slot pos nodes ctx s first rest base mid kept head items before =>
    exact h.onward (Moment.shaped ⟨depth, .base scope _ first, ctx, s⟩ h.shaped) trivial before
  | suffix => exact h.into h.given
  | @afterSuffix depth scope left node rest ctx s next mid before =>
    exact h.onward (Moment.shaped ⟨depth, .suffix scope left node, ctx, s⟩ h.shaped) h.given before
  | @lines depth outer pos nodes ctx s body found read =>
    obtain ⟨filling, -⟩ := s.declaring_filling ctx outer pos body found
    exact ⟨shaped, filling.accepted, filling.target⟩
  | line => exact h.into h.given
  | @afterLine depth scope list line rest ctx s mid before =>
    have first : Moment.Fed ⟨depth, .line scope list line, ctx, s⟩ := h.into h.given
    have filled := first.line
    have block : mid.block = (declareLineWith (forceWithin depth) scope list line ctx s).2.block := by
      have next := BodyReading.next_block (r := ⟨depth, scope, list, ctx⟩) (s := s) line
      rwa [BodyReading.next, before] at next
    rw [← block] at filled
    exact ⟨shaped, filled.accepted, filled.target⟩
  | source => exact ⟨shaped, accepted_nil _, trivial⟩

theorem Moment.Fed.ended {m : Moment} (h : m.Fed) (ends : m.run.1 ≠ .exhausted) :
    Accepted m.run.2.block.id m.run.2.block.instrs.toList := by
  have shapely := m.shaped h.shaped
  obtain ⟨depth, task, ctx, s⟩ := m
  cases task with
  | lines scope list lines =>
    obtain ⟨-, filled, -⟩ := BodyReading.after_appends (r := ⟨depth, scope, list, ctx⟩) h.shaped
      ⟨h.runnable, h.given⟩ lines
    have last := BodyReading.lines_apply (r := ⟨depth, scope, list, ctx⟩) s lines ends
    have block := congrArg (·.2.block) last
    exact (block ▸ filled).accepted
  | line => exact (Moment.Fed.line h).accepted
  | suffixes | suffix => exact shapely.runnable h.given h.runnable
  | _ => exact shapely.runnable trivial h.runnable

def Task.shapes : (t : Task) → t.Result → List Shape
  | .expression .., a | .base .., a | .suffixes .., a | .suffix .., a | .resolve .., a => [a.shape]
  | .force .., f => [f.shape]
  | .body .., _ | .lines .., _ | .line .., _ => []

theorem Forced.Shaped.not_function {f : Forced} (h : f.Shaped) : f.shape.isFunction = false :=
  Value.not_function h

/-- Nothing that a call gives is a function. -/
theorem Moment.Fed.no_function {m : Moment} (h : m.Fed) {a : m.task.Result}
    (done : m.run.1 = .done a) {shape : Shape} (gives : shape ∈ m.task.shapes a) :
    shape.isFunction = false := by
  have shapely := m.shaped h.shaped
  obtain ⟨depth, task, ctx, s⟩ := m
  cases task with
  | suffixes | suffix =>
    obtain rfl := List.mem_singleton.1 gives
    exact (shapely.good h.given a done).not_function
  | expression | base | resolve =>
    obtain rfl := List.mem_singleton.1 gives
    exact Analysis.Shaped.not_function (shapely.good trivial a done)
  | force =>
    obtain rfl := List.mem_singleton.1 gives
    exact Forced.Shaped.not_function (shapely.good trivial a done)
  | _ => cases gives

variable {label : String} {text : List Char}

def Moment.ofFile (label : String) (text : List Char) : Moment :=
  ⟨(State.opening (tokenize label text).diagnostics).store.bindingBound
      + Tree.weightAll (tokenize label text).nodes + 1,
    .body [] (.start label) (tokenize label text).nodes, .start,
    .opening (tokenize label text).diagnostics⟩

def Moment.ofEntry (label : String) (root : NamespaceId) (entry : FieldEntry) (lowered : State) :
    Moment :=
  ⟨lowered.inNewBlock.store.bindingBound + 1,
    .force root (.field (.symbol .main)) entry.thunk .mainEntry,
    ⟨[⟨"entry point", .start label⟩], [root], []⟩, lowered.inNewBlock⟩

theorem Opens.fed {m : Moment} (h : Opens label text m) : m.Fed := by
  cases h with
  | body => exact ⟨Store.shaped_ofDiagnostics _, accepted_nil _, trivial⟩
  | @entry root after entry before there =>
    have kept := (Moment.shaped (.ofFile label text) (Store.shaped_ofDiagnostics _)).store
    have shaped : after.store.Shaped := by
      rwa [show (Moment.ofFile label text).run = (.done root, after) from before] at kept
    exact ⟨shaped, accepted_nil _, trivial⟩

theorem Happens.fed {m : Moment} (h : Happens label text m) : m.Fed :=
  h.invariant (fun _ opens => opens.fed) fun _ _ fed leads => leads.fed fed

theorem Happens.told {m : Moment} (h : Happens label text m) :
    m.state.store.diagnostics <+: m.run.2.store.diagnostics :=
  (Moment.spends m h.made.covered.shaped h.made.covered.sourced m.ctx.forcing
    (List.Subset.refl _)).told

def notCalled (pos : Position) (shape : Shape) : Diagnostic :=
  .error pos (.notCallable shape.kind)

theorem callEntry_of_not_function {main : Analysis} (h : main.shape.isFunction = false)
    (pos : Position) {ctx : Context} (outside : ctx.trace = []) (s : State) :
    callEntry pos (some main) ctx s =
      (.done main.shape, { s with store := s.store.record [notCalled pos main.shape] }) := by
  have seen : (notCalled pos main.shape).under ctx.trace = notCalled pos main.shape := by
    rw [outside]
    rfl
  rw [← seen]
  obtain ⟨value, shape⟩ := main
  cases shape with
  | function slot ret => cases h
  | _ => rfl

theorem runFrom_apply (label : String) (root : NamespaceId) (lowered : State) :
    runFrom (.start label) root .start lowered = lowered.leaving
      (match (lowered.store.get root).field? (.symbol .main) with
      | none => (.failed (.error (.start label) .noEntryPoint), lowered.inNewBlock)
      | some entry => Run.goOn (fun found => callEntry (.start label) (some found.analysis))
          (Context.start.holding [root]) (Moment.ofEntry label root entry lowered).run) := by
  show lowered.leaving ((Run.within "entry point" (.start label)
      (readSymbol (.declared root) .main .mainEntry) >>= callEntry (.start label))
        (Context.start.holding [root]) lowered.inNewBlock) = _
  rw [Run.bind_eq_goOn]
  show lowered.leaving (Run.goOn _ _ (readFieldWith? (forceWithin _) root (.symbol .main) .mainEntry
    ⟨[⟨"entry point", .start label⟩], [root], []⟩ lowered.inNewBlock)) = _
  rw [readFieldWith?_apply]
  cases there : (lowered.store.get root).field? (.symbol .main) with
  | none =>
    have here : (lowered.inNewBlock.store.get root).field? (.symbol .main) = none := there
    rw [here]
    rfl
  | some entry =>
    have here : (lowered.inNewBlock.store.get root).field? (.symbol .main) = some entry := there
    rw [here]
    dsimp only
    rw [Run.bind_eq_goOn]
    show lowered.leaving (Run.goOn _ _ (Run.goOn _ _ (Moment.ofEntry label root entry lowered).run)) = _
    rcases (Moment.ofEntry label root entry lowered).run with ⟨_ | _ | _, after⟩ <;> rfl

theorem compile_eq {root : NamespaceId} {lowered : State}
    (declared : declare [] (.start label) (tokenize label text).nodes .start
      (.opening (tokenize label text).diagnostics) = (.done root, lowered)) :
    compile label text = .ofRun (tokenize label text).nodes
      (runFrom (.start label) root .start lowered) := by
  rw [← compileHolding_nil]
  show Compiled.ofRun _ (runEntry (.start label) (tokenize label text).nodes .start
    (.opening (tokenize label text).diagnostics)) = _
  rw [runEntry_eq, Run.bind_eq_goOn]
  exact congrArg (fun ended => Compiled.ofRun _ (Run.goOn _ Context.start ended)) declared

section

variable {root : NamespaceId} {lowered : State}
  (declared : declare [] (.start label) (tokenize label text).nodes .start
    (.opening (tokenize label text).diagnostics) = (.done root, lowered))

include declared

theorem compile_without_entry (there : (lowered.store.get root).field? (.symbol .main) = none) :
    (compile label text).diagnostics =
        lowered.store.diagnostics ++ [.error (.start label) .noEntryPoint] ∧
      (compile label text).entryShape? = none := by
  have whole := compile_eq declared
  rw [runFrom_apply, there] at whole
  exact ⟨congrArg Compiled.diagnostics whole, congrArg Compiled.entryShape? whole⟩

variable {entry : FieldEntry} {after : State}
  (there : (lowered.store.get root).field? (.symbol .main) = some entry)

include there

theorem compile_uncallable {found : Forced}
    (entered : (Moment.ofEntry label root entry lowered).run = (.done found, after))
    (known : found.shape.isFunction = false) :
    (compile label text).diagnostics =
        after.store.diagnostics ++ [notCalled (.start label) found.shape] ∧
      (compile label text).entryShape? = some found.shape := by
  have whole : compile label text = .ofRun (tokenize label text).nodes (lowered.leaving
      (callEntry (.start label) (some found.analysis) (Context.start.holding [root]) after)) := by
    rw [compile_eq declared, runFrom_apply, there]
    dsimp only
    rw [entered]
    rfl
  have outside : (Context.start.holding [root]).trace = [] := rfl
  rw [callEntry_of_not_function known (.start label) outside after] at whole
  exact ⟨congrArg Compiled.diagnostics whole, congrArg Compiled.entryShape? whole⟩

theorem compile_entry_failed {d : Diagnostic}
    (entered : (Moment.ofEntry label root entry lowered).run = (.failed d, after)) :
    (compile label text).diagnostics = after.store.diagnostics ++ [d] ∧
      (compile label text).entryShape? = none := by
  have whole := compile_eq declared
  rw [runFrom_apply, there] at whole
  dsimp only at whole
  rw [entered] at whole
  exact ⟨congrArg Compiled.diagnostics whole, congrArg Compiled.entryShape? whole⟩

end

/-- Compiling any text ends in one way. What reading the text has told comes first. Its body is
declared, whatever is in it. Then the entry point is looked into, if there is one, and one more
problem is told than that has told by itself: that there is none, what looking into it has failed
with, or that it is not callable. Only in the last case a shape is kept, that of the entry point.
No call on the way ever gives a function, and no block comes to have an instruction that calls. -/
theorem compile_ends_uncalled (label : String) (text : List Char) :
    let ended := compile label text
    (∃ root lowered told last,
      declare [] (.start label) (tokenize label text).nodes .start
        (.opening (tokenize label text).diagnostics) = (.done root, lowered) ∧
      (tokenize label text).diagnostics <+: lowered.store.diagnostics ∧
      ended.diagnostics = lowered.store.diagnostics ++ told ++ [last] ∧
      match (lowered.store.get root).field? (.symbol .main) with
      | none =>
        told = [] ∧ last = .error (.start label) .noEntryPoint ∧ ended.entryShape? = none
      | some entry =>
        let entered := (Moment.ofEntry label root entry lowered).run
        entered.2.store.diagnostics = lowered.store.diagnostics ++ told ∧
        match entered.1 with
        | .done found =>
          ended.entryShape? = some found.shape ∧
          last = ⟨[⟨some (.start label), .error, .notCallable found.shape.kind⟩], []⟩ ∧
          last.message = "not supported call type: " ++ found.shape.kind ∧
          (callEntry (.start label) (some found.analysis) (Context.start.holding [root])
            entered.2).2.block = entered.2.block
        | .failed d => ended.entryShape? = none ∧ last = d
        | .exhausted => False) ∧
    ∀ m, Happens label text m →
      (∀ a, m.run.1 = .done a → ∀ shape ∈ m.task.shapes a, shape.isFunction = false) ∧
      ∀ instr ∈ m.run.2.block.instrs, ∀ method arg, instr.op ≠ .call method arg := by
  intro ended
  refine ⟨?_, fun m happens => ⟨fun a done shape gives => happens.fed.no_function done gives,
    fun instr there => (happens.fed.ended happens.ends).no_call (Array.mem_toList_iff.2 there)⟩⟩
  have file : Happens label text (.ofFile label text) := ⟨_, .body, .refl⟩
  obtain ⟨root, lowered, declared⟩ : ∃ root lowered, declare [] (.start label)
      (tokenize label text).nodes .start (.opening (tokenize label text).diagnostics) =
        (.done root, lowered) := ⟨_, file.made.covered.declares⟩
  have first : (tokenize label text).diagnostics <+: lowered.store.diagnostics := by
    have kept := file.told
    rwa [show (Moment.ofFile label text).run = (.done root, lowered) from declared] at kept
  cases there : (lowered.store.get root).field? (.symbol .main) with
  | none =>
    obtain ⟨diagnostics, shape⟩ := compile_without_entry declared there
    refine ⟨root, lowered, [], .error (.start label) .noEntryPoint, declared, first, ?_, ?_⟩
    · rw [List.append_nil]
      exact diagnostics
    · rw [there]
      exact ⟨rfl, rfl, shape⟩
  | some entry =>
    have entering : Happens label text (.ofEntry label root entry lowered) :=
      ⟨_, .entry declared there, .refl⟩
    obtain ⟨told, kept⟩ := entering.told
    have before : lowered.store.diagnostics ++ told =
      (Moment.ofEntry label root entry lowered).run.2.store.diagnostics := kept
    cases entered : (Moment.ofEntry label root entry lowered).run with
    | mk outcome after =>
    rw [entered] at before
    cases outcome with
    | done found =>
      have known := entering.fed.no_function (congrArg Prod.fst entered) (List.mem_singleton_self _)
      obtain ⟨diagnostics, shape⟩ := compile_uncallable declared there entered known
      refine ⟨root, lowered, told, notCalled (.start label) found.shape, declared, first, ?_, ?_⟩
      · rw [before]
        exact diagnostics
      · rw [there]
        dsimp only
        rw [entered]
        refine ⟨before.symm, shape, rfl, rfl, ?_⟩
        rw [callEntry_of_not_function known (.start label) rfl after]
    | failed d =>
      obtain ⟨diagnostics, shape⟩ := compile_entry_failed declared there entered
      refine ⟨root, lowered, told, d, declared, first, ?_, ?_⟩
      · rw [before]
        exact diagnostics
      · rw [there]
        dsimp only
        rw [entered]
        exact ⟨before.symm, shape, rfl⟩
    | exhausted => exact (entering.ends (congrArg Prod.fst entered)).elim

end NamespaceLang

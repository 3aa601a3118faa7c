import NamespaceLang.Proofs.Analysis.Operands
import NamespaceLang.Proofs.Store.Alive

/-!
# Looking things up breaks no invariant

That a scope is gone is told in one place alone: where a name is looked for in
a namespace that is not alive. Everything else that looking up can fail with is
a problem of the text, as long as looking into a binding keeps to that.
-/

set_option autoImplicit false

namespace NamespaceLang

/-- Working out an expression breaks no invariant, wherever it stands. -/
def Analyzes (analyze : Scope → Shape → Position → List Tree → Run Analysis) : Prop :=
  ∀ (ctx : Context) (s : State) (scope : Scope) (slot : Shape) (pos : Position)
    (nodes : List Tree), s.Sound → (⟨nodes, pos, scope⟩ : Thunk).Sound s.store.size →
      Works (fun a after => a.Sound after.block) (analyze scope slot pos nodes) ctx s

def Forces (force : Forcing) : Prop :=
  ∀ (ctx : Context) (s : State) (id : NamespaceId) (binding : Binding) (thunk : Thunk)
    (slot : Shape), s.Sound → thunk.Sound s.store.size →
      Works (fun found _ => found.Sound) (force id binding thunk slot) ctx s

theorem Analysis.Sound.resolve {b : Block} {a : Analysis} {n : Nat} {results : Results}
    (h : a.Sound b) (hr : results.Fits n b.id b.instrs.toList) (pos : Position) :
    ∃ value, results.resolve pos a.value = .ok value ∧ (⟨value, a.shape⟩ : Forced).Sound := by
  obtain ⟨operand, shape⟩ := a
  cases operand with
  | known value => exact ⟨value, rfl, h.noFunction, h.value⟩
  | deferred ref =>
    have named : Names b.id b.instrs.toList ref shape.admits := h.value
    obtain ⟨⟨op, at_⟩, value, -, admitted, -, found, gives⟩ := hr.operand named pos
    refine ⟨value, by simp [Results.resolve, found], h.noFunction, fun hk => ?_⟩
    have makes : op.makesKey = true := by simpa [Shape.admits, show shape.isKnownKey = true from hk]
      using admitted
    cases op with
    | makeKey key =>
      obtain ⟨own, rfl⟩ := gives
      rfl
    | _ => cases makes

variable {ctx : Context} {s : State}

theorem workOut_works {analyze : Scope → Shape → Position → List Tree → Run Analysis}
    (ha : Analyzes analyze) (hs : s.Sound) {thunk : Thunk} (ht : thunk.Sound s.store.size)
    (slot : Shape) : Works (fun found _ => found.Sound) (workOut analyze thunk slot) ctx s := by
  refine .inNewBlock (R := fun found _ => found.Sound) hs (fun new sound size => ?_) fun _ _ h => h
  have worked := ha ctx new thunk.scope slot thunk.pos thunk.nodes sound (size ▸ ht)
  refine .bind worked fun found after sound _ hf => ?_
  refine .bind (.evaluate sound) fun results ended sound _ fits => ?_
  obtain ⟨value, hv, forced⟩ := hf.resolve fits.2.2 thunk.pos
  rw [hv]
  exact .pure sound forced

theorem forceBy_forces {analyze : Scope → Shape → Position → List Tree → Run Analysis}
    (ha : Analyzes analyze) : Forces (forceBy analyze) := by
  intro ctx s id binding thunk slot hs ht
  refine .holding (.store ?_)
  cases hf : (s.store.get id).findings.get? binding with
  | some found => exact .pure hs ((hs.store.get id).findings found (Table.mem_values_of_get? hf))
  | none =>
    refine .context ?_ fun _ => rfl
    split
    · exact .error hs _ (by simp)
    · refine .bind (.within (.entering (workOut_works ha hs ht slot))) fun found after sound _ hf => ?_
      refine .bind (.modifyStore sound (sound.store.keep id binding hf) ?_ rfl) fun _ _ sound _ _ => ?_
      · exact Store.size_modify _ _
      · exact .pure sound hf

def whileAlive {α : Type} (id : NamespaceId) (pos : Position) (act : Run α) : Run α := do
  if (← Run.store).isAlive (← Run.context).held id then act
  else Run.fail (.unreachable pos .scopeGone)

/-- A namespace is alive if all are held, and stays so when more are. -/
theorem whileAlive_works {α : Type} {P : α → State → Prop} {act : Run α} (hs : s.Sound)
    {id : NamespaceId} (hid : id < s.store.size) (pos : Position) (h : Works P act ctx s) :
    Works P (whileAlive id pos act) ctx s := by
  have step : ∀ ctx', whileAlive id pos act ctx' s = (if s.store.isAlive ctx'.held id then act
      else Run.fail (.unreachable pos .scopeGone)) ctx' s := fun _ => rfl
  by_cases alive : s.store.isAlive ctx.held id = true
  · refine h.congr fun ids => ?_
    have still := s.store.isAlive_mono (List.subset_append_left ctx.held ids) alive
    rw [step, if_pos (show s.store.isAlive (ctx.also ids).held id = true from still)]
  · have gone := step ctx
    rw [if_neg alive] at gone
    have told : ((Diagnostic.unreachable pos .scopeGone).under ctx.trace).cause? = some .scopeGone :=
      rfl
    have not_all : ¬ ctx.HoldsAll s.store := by
      intro hall
      refine alive ?_
      simp [Store.isAlive, hall id hid]
    refine .ofEnd gone hs (.refl s) (List.append_nil _).symm (by simp) (fun _ h => by cases h)
      (fun d h => ?_) fun hq => absurd told (hq.2 _ rfl)
    cases h
    exact ⟨⟨fun _ => rfl, fun _ => rfl⟩, fun hall => absurd hall not_all⟩

section

variable {force : Forcing} (hf : Forces force)

include hf

theorem forceFieldWith_works (hs : s.Sound) {id : NamespaceId} {key : FieldKey} {entry : FieldEntry}
    (he : (s.store.get id).field? key = some entry) (slot : Shape) :
    Works (fun a after => a.Sound after.block) (forceFieldWith force id key slot) ctx s := by
  refine .store ?_
  dsimp only
  rw [he]
  refine .bind (hf ctx s id _ _ slot hs (hs.store.field he)) fun found after sound _ forced => ?_
  exact .pure sound (forced.analysis after.block)

theorem readFieldWith?_works (hs : s.Sound) (id : NamespaceId) (key : FieldKey) (slot : Shape) :
    Works (fun a? after => ∀ a ∈ a?, a.Sound after.block) (readFieldWith? force id key slot) ctx s := by
  refine .store ?_
  split
  · next there =>
    obtain ⟨entry, he⟩ := Option.isSome_iff_exists.1 there
    refine .bind (forceFieldWith_works hf hs he slot) fun a after sound _ found => ?_
    exact .pure sound (by simpa using found)
  · exact .pure hs (by simp)

theorem resolveInWith_works (hs : s.Sound) (id : NamespaceId) (pos : Position) (name : String)
    (slot : Shape) :
    Works (fun a? after => ∀ a ∈ a?, a.Sound after.block) (resolveInWith force id pos name slot)
      ctx s := by
  refine .store ?_
  cases hd : (s.store.get id).definitions.get? name with
  | none => exact readFieldWith?_works hf hs id (.string name) slot
  | some found =>
    dsimp only
    split
    · have source := hs.store.definition hd
      refine .bind (hf ctx s id _ _ slot hs source) fun found after sound _ forced => ?_
      exact .pure sound (by simpa using forced.analysis after.block)
    · exact .error hs _ (by simp)

theorem resolveWith_works (hs : s.Sound) (pos : Position) (name : String) (slot : Shape)
    {scope : Scope} (hscope : Begun s.store.size scope) :
    Works (fun a after => a.Sound after.block) (resolveWith force pos name slot scope) ctx s := by
  induction scope generalizing s with
  | nil => exact .error hs _ (by simp)
  | cons id outer ih =>
    refine whileAlive_works hs (hscope id List.mem_cons_self) pos ?_
    refine .bind (resolveInWith_works hf hs id pos name slot) fun a? after sound grows found => ?_
    cases a? with
    | some a => exact .pure sound (found a rfl)
    | none =>
      refine ih sound fun id hm => ?_
      exact Nat.lt_of_lt_of_le (hscope id (List.mem_cons_of_mem _ hm)) grows.size

theorem readStringWith_works (hs : s.Sound) (target : NamespaceRef) (pos : Position)
    (name : String) :
    Works (fun a after => a.Sound after.block) (readStringWith force target pos name) ctx s := by
  cases target with
  | builtin =>
    unfold readStringWith
    cases Builtin.ofName? name with
    | none => exact .error hs _ (by simp)
    | some builtin =>
      exact .deferred hs (.makeKey builtin.key) trivial pos (by cases builtin; rfl) (by cases builtin; rfl)
  | declared id =>
    refine .store ?_
    dsimp only
    split
    · refine .bind (readFieldWith?_works hf hs id (.string name) .unknown)
        fun a? after sound _ found => ?_
      cases a? with
      | some a => exact .pure sound (found a rfl)
      | none =>
        refine .fail sound (Diagnostic.Usual.withNote ?_ (by simp [Diagnostic.error]) _ _)
        exact Diagnostic.usual_error _ (by simp)
    · exact .error hs _ (by simp)

theorem readSymbolWith_works (hs : s.Sound) (target : NamespaceRef) (builtin : Builtin)
    (slot : Shape) :
    Works (fun a? after => ∀ a ∈ a?, a.Sound after.block) (readSymbolWith force target builtin slot)
      ctx s := by
  cases target with
  | builtin => exact .pure hs (by simp)
  | declared id => exact readFieldWith?_works hf hs id (.symbol builtin) slot

theorem accessWith_works (hs : s.Sound) (left : Analysis) (pos : Position) (name : String) :
    Works (fun a after => a.Sound after.block) (accessWith force left pos name) ctx s := by
  unfold accessWith
  split
  · exact .holding (readStringWith_works hf hs _ pos name)
  · exact .error hs _ (by simp)
  · exact .error hs _ (by simp)

end

theorem call_works {P : Analysis → State → Prop} (hs : s.Sound) (pos : Position) {method : Analysis}
    (hm : method.shape.isFunction = false) (argument : Shape → Run Analysis) :
    Works P (call pos method argument) ctx s := by
  unfold call
  split
  · next hshape =>
    rw [hshape] at hm
    cases hm
  · exact .error hs _ (by simp)

end NamespaceLang

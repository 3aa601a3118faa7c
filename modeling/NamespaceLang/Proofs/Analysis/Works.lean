import NamespaceLang.Analysis.Run
import NamespaceLang.Proofs.Store.Sound

/-!
# Work that breaks no invariant

Work on a sound state leaves a sound one, with all that was there before. What
it tells is a problem of the text, or that a scope is gone, and never the latter
while all namespaces are held. Unless it tells so, holding more namespaces makes
no difference to it. All of this is kept when work is put together.
-/

set_option autoImplicit false

namespace NamespaceLang

/-- The one thing held to be impossible that can be told is that a scope is gone, and not even that
while all namespaces are held. -/
structure Diagnostic.Fine (allHeld : Prop) (d : Diagnostic) : Prop where
  unreachable : d.severity = .unreachable ↔ d.cause? = some .scopeGone
  held : allHeld → d.cause? ≠ some .scopeGone

namespace Diagnostic

theorem Usual.fine {d : Diagnostic} (h : d.Usual) (allHeld : Prop) : d.Fine allHeld :=
  ⟨⟨fun hs => absurd hs h.1, fun hc => absurd hc h.2⟩, fun _ => h.2⟩

theorem Fine.mono {earlier later : Prop} {d : Diagnostic} (h : d.Fine earlier)
    (hp : later → earlier) : d.Fine later := ⟨h.unreachable, fun hl => h.held (hp hl)⟩

theorem Usual.under {d : Diagnostic} (h : d.Usual) (trace : Trace) : (d.under trace).Usual := h

end Diagnostic

namespace State

structure Sound (s : State) : Prop where
  store : s.store.Sound
  block : s.block.Sound s.store.size

structure Grows (s after : State) : Prop where
  id : after.block.id = s.block.id
  instrs : s.block.instrs.toList <+: after.block.instrs.toList
  size : s.store.size ≤ after.store.size

theorem Grows.refl (s : State) : s.Grows s := ⟨rfl, List.prefix_refl _, Nat.le_refl _⟩

theorem Grows.trans {s mid after : State} (h : s.Grows mid) (h' : mid.Grows after) : s.Grows after :=
  ⟨h'.id.trans h.id, h.instrs.trans h'.instrs, Nat.le_trans h.size h'.size⟩

end State

namespace Context

def also (ctx : Context) (ids : List NamespaceId) : Context := { ctx with held := ctx.held ++ ids }

def HoldsAll (ctx : Context) (store : Store) : Prop := ∀ id < store.size, id ∈ ctx.held

end Context

namespace Run

def goOn {α β : Type} (next : β → Run α) (ctx : Context) : Outcome β × State → Outcome α × State
  | (.done b, s) => next b ctx s
  | (.failed d, s) => (.failed d, s)
  | (.exhausted, s) => (.exhausted, s)

theorem bind_eq_goOn {α β : Type} (act : Run β) (next : β → Run α) (ctx : Context) (s : State) :
    (act >>= next) ctx s = goOn next ctx (act ctx s) := by
  rw [bind_apply]
  rcases act ctx s with ⟨_ | _ | _, s⟩ <;> rfl

def tell : Outcome Unit × State → Outcome Unit × State
  | (.failed d, s) => (.done (), { s with store := s.store.record [d] })
  | (.done a, s) => (.done a, s)
  | (.exhausted, s) => (.exhausted, s)

theorem attempt_eq_tell (act : Run Unit) (ctx : Context) (s : State) :
    attempt act ctx s = tell (act ctx s) := by
  unfold attempt
  rcases act ctx s with ⟨_ | _ | _, s⟩ <;> rfl

end Run

/-- Neither what was told since `s` nor what the work fails with is that a scope is gone. -/
def Quiet {α : Type} (s : State) (r : Outcome α × State) : Prop :=
  (∀ d ∈ r.2.store.diagnostics.drop s.store.diagnostics.length, d.cause? ≠ some .scopeGone) ∧
    ∀ d, r.1 = .failed d → d.cause? ≠ some .scopeGone

theorem quiet_iff {α : Type} {s after : State} {outcome : Outcome α} {added : List Diagnostic}
    (told : after.store.diagnostics = s.store.diagnostics ++ added) :
    Quiet s (outcome, after) ↔ (∀ d ∈ added, d.cause? ≠ some .scopeGone) ∧
      ∀ d, outcome = .failed d → d.cause? ≠ some .scopeGone := by
  unfold Quiet
  rw [told, List.drop_left]

/-- The work leads from a sound state to a sound state with `P`. -/
structure Works {α : Type} (P : α → State → Prop) (act : Run α) (ctx : Context) (s : State) :
    Prop where
  sound : (act ctx s).2.Sound
  grows : s.Grows (act ctx s).2
  told : ∃ added, (act ctx s).2.store.diagnostics = s.store.diagnostics ++ added ∧
    ∀ d ∈ added, d.Fine (ctx.HoldsAll (act ctx s).2.store)
  done : ∀ a, (act ctx s).1 = .done a → P a (act ctx s).2
  failed : ∀ d, (act ctx s).1 = .failed d → d.Fine (ctx.HoldsAll (act ctx s).2.store)
  steady : Quiet s (act ctx s) → ∀ ids, act (ctx.also ids) s = act ctx s

namespace Works

variable {α β : Type} {P R : α → State → Prop} {Q : β → State → Prop} {ctx : Context} {s : State}

theorem mono {act : Run α} (h : Works R act ctx s) (hp : ∀ a after, R a after → P a after) :
    Works P act ctx s :=
  { h with done := fun a ha => hp _ _ (h.done a ha) }

theorem ofEnd {act : Run α} {outcome : Outcome α} {after : State} {added : List Diagnostic}
    (whole : act ctx s = (outcome, after)) (sound : after.Sound) (grows : s.Grows after)
    (told : after.store.diagnostics = s.store.diagnostics ++ added)
    (fine : ∀ d ∈ added, d.Fine (ctx.HoldsAll after.store))
    (done : ∀ a, outcome = .done a → P a after)
    (failed : ∀ d, outcome = .failed d → d.Fine (ctx.HoldsAll after.store))
    (steady : Quiet s (outcome, after) → ∀ ids, act (ctx.also ids) s = (outcome, after)) :
    Works P act ctx s := by
  constructor
  all_goals rw [whole]
  · exact sound
  · exact grows
  · exact ⟨added, told, fine⟩
  · exact done
  · exact failed
  · exact steady

theorem congr {act other : Run α} (h : Works P other ctx s)
    (same : ∀ ids, act (ctx.also ids) s = other (ctx.also ids) s) : Works P act ctx s := by
  have here : act ctx s = other ctx s := by simpa [Context.also] using same []
  obtain ⟨sound, grows, told, done, failed, steady⟩ := h
  rw [← here] at sound grows told done failed steady
  exact ⟨sound, grows, told, done, failed, fun hq ids => (same ids).trans (steady hq ids)⟩

theorem plain {act : Run α} (same : ∀ ctx', act ctx' s = act ctx s) (sound : (act ctx s).2.Sound)
    (grows : s.Grows (act ctx s).2) (told : (act ctx s).2.store.diagnostics = s.store.diagnostics)
    (done : ∀ a, (act ctx s).1 = .done a → P a (act ctx s).2)
    (failed : ∀ d, (act ctx s).1 ≠ .failed d) : Works P act ctx s where
  sound := sound
  grows := grows
  told := ⟨[], by rw [told, List.append_nil], by simp⟩
  done := done
  failed d hd := absurd hd (failed d)
  steady _ ids := same _

theorem pure (hs : s.Sound) {a : α} (ha : P a s) : Works P (Pure.pure a) ctx s :=
  plain (fun _ => rfl) hs (.refl s) rfl (fun _ h => by cases h; exact ha) (fun _ h => by cases h)

theorem exhausted (hs : s.Sound) : Works P Run.exhausted ctx s :=
  plain (fun _ => rfl) hs (.refl s) rfl (fun _ h => by cases h) (fun _ h => by cases h)

theorem fail (hs : s.Sound) {d : Diagnostic} (hd : d.Usual) : Works P (Run.fail d) ctx s where
  sound := hs
  grows := .refl s
  told := ⟨[], (List.append_nil _).symm, by simp⟩
  done _ h := by cases h
  failed _ h := by
    cases h
    exact (hd.under _).fine _
  steady _ _ := rfl

theorem error (hs : s.Sound) (pos : Position) {cause : Cause} (hc : cause ≠ .scopeGone) :
    Works P (Run.fail (.error pos cause)) ctx s := fail hs (Diagnostic.usual_error pos hc)

theorem ofExcept (hs : s.Sound) {found : Except Diagnostic α} (ok : ∀ a, found = .ok a → P a s)
    (error : ∀ d, found = .error d → d.Usual) : Works P (Run.ofExcept found) ctx s := by
  cases found with
  | ok a => exact .pure hs (ok a rfl)
  | error d => exact .fail hs (error d rfl)

theorem store {next : Store → Run α} (h : Works P (next s.store) ctx s) :
    Works P (Run.store >>= next) ctx s :=
  ⟨h.sound, h.grows, h.told, h.done, h.failed, h.steady⟩

theorem context {next : Context → Run α} (h : Works P (next ctx) ctx s)
    (same : ∀ ids, next (ctx.also ids) = next ctx) : Works P (Run.context >>= next) ctx s where
  sound := h.sound
  grows := h.grows
  told := h.told
  done := h.done
  failed := h.failed
  steady hq ids := by
    show next (ctx.also ids) (ctx.also ids) s = next ctx ctx s
    rw [same]
    exact h.steady hq ids

theorem bind {act : Run β} {next : β → Run α} (h : Works Q act ctx s)
    (hn : ∀ b after, after.Sound → s.Grows after → Q b after → Works P (next b) ctx after) :
    Works P (act >>= next) ctx s := by
  have step := Run.bind_eq_goOn act next ctx s
  obtain ⟨sound, grows, ⟨added, told, fine⟩, done, failed, steady⟩ := h
  cases hr : act ctx s with
  | mk outcome mid =>
    rw [hr] at sound grows told fine done failed steady step
    have also_step : Quiet s (outcome, mid) → ∀ ids,
        (act >>= next) (ctx.also ids) s = Run.goOn next (ctx.also ids) (outcome, mid) := by
      intro hq ids
      rw [Run.bind_eq_goOn, steady hq ids]
    cases outcome with
    | done b =>
      have later := hn b mid sound grows (done b rfl)
      obtain ⟨sound', grows', ⟨more, told', fine'⟩, done', failed', steady'⟩ := later
      have held : ctx.HoldsAll (next b ctx mid).2.store → ctx.HoldsAll mid.store :=
        fun hall id hid => hall id (Nat.lt_of_lt_of_le hid grows'.size)
      have all_told : (next b ctx mid).2.store.diagnostics = s.store.diagnostics ++ (added ++ more) := by
        rw [told', told, List.append_assoc]
      have all_fine := List.forall_mem_append.2 ⟨fun d hd => (fine d hd).mono held, fine'⟩
      refine ofEnd step sound' (grows.trans grows') all_told all_fine done' failed' fun hq ids => ?_
      obtain ⟨quiet, ending⟩ := (quiet_iff all_told).1 hq
      rw [List.forall_mem_append] at quiet
      rw [also_step ((quiet_iff told).2 ⟨quiet.1, fun d hd => by cases hd⟩) ids]
      exact steady' ((quiet_iff told').2 ⟨quiet.2, ending⟩) ids
    | failed d =>
      refine ofEnd step sound grows told fine (fun _ ha => by cases ha) (fun d' hd => ?_) fun hq => ?_
      · cases hd
        exact failed d rfl
      · exact also_step ⟨hq.1, fun d' hd => hq.2 d' (by cases hd; rfl)⟩
    | exhausted =>
      refine ofEnd step sound grows told fine (fun _ ha => by cases ha) (fun _ hd => by cases hd)
        fun hq => ?_
      exact also_step ⟨hq.1, fun _ hd => by cases hd⟩

theorem inContext {act : Run α} (f : Context → Context) (h : Works P act (f ctx) s)
    (held : ctx.held ⊆ (f ctx).held) (also : ∀ ids, f (ctx.also ids) = (f ctx).also ids) :
    Works P (fun ctx s => act (f ctx) s) ctx s where
  sound := h.sound
  grows := h.grows
  told := by
    obtain ⟨added, told, fine⟩ := h.told
    exact ⟨added, told, fun d hd => (fine d hd).mono fun hall id hid => held (hall id hid)⟩
  done := h.done
  failed d hd := (h.failed d hd).mono fun hall id hid => held (hall id hid)
  steady hq ids := by
    show act (f (ctx.also ids)) s = act (f ctx) s
    rw [also]
    exact h.steady hq ids

theorem within {act : Run α} {label : String} {pos : Position}
    (h : Works P act { ctx with trace := ctx.trace ++ [⟨label, pos⟩] } s) :
    Works P (Run.within label pos act) ctx s :=
  inContext (fun ctx => { ctx with trace := ctx.trace ++ [⟨label, pos⟩] }) h
    (List.Subset.refl _) fun _ => rfl

theorem holding {act : Run α} {ids : List NamespaceId}
    (h : Works P act { ctx with held := ids ++ ctx.held } s) :
    Works P (Run.holding ids act) ctx s :=
  inContext (fun ctx => { ctx with held := ids ++ ctx.held }) h (List.subset_append_right _ _)
    fun _ => by simp [Context.also]

theorem entering {act : Run α} {id : NamespaceId} {binding : Binding}
    (h : Works P act { ctx with forcing := (id, binding) :: ctx.forcing } s) :
    Works P (Run.entering id binding act) ctx s :=
  inContext (fun ctx => { ctx with forcing := (id, binding) :: ctx.forcing }) h
    (List.Subset.refl _) fun _ => rfl

theorem inNewBlock {act : Run α} (hs : s.Sound)
    (h : ∀ new : State, new.Sound → new.store.size = s.store.size → Works R act ctx new)
    (hp : ∀ a after, R a after → P a { after with block := s.block }) :
    Works P (Run.inNewBlock act) ctx s := by
  have begun := h ⟨s.store.newBlock.2, s.store.newBlock.1⟩ ⟨hs.store, Block.sound_new _ _⟩ rfl
  exact {
    sound := ⟨begun.sound.store, hs.block.mono begun.grows.size⟩
    grows := ⟨rfl, List.prefix_refl _, begun.grows.size⟩
    told := begun.told
    done := fun a ha => hp a _ (begun.done a ha)
    failed := begun.failed
    steady := fun hq ids => by
      have same := begun.steady hq ids
      unfold Run.inNewBlock
      dsimp only
      rw [same] }

theorem modifyStore (hs : s.Sound) {f : Store → Store} (sound : (f s.store).Sound)
    (size : (f s.store).size = s.store.size)
    (told : (f s.store).diagnostics = s.store.diagnostics) :
    Works (fun _ after => after.store.size = s.store.size) (Run.modifyStore f) ctx s :=
  plain (fun _ => rfl) ⟨sound, hs.block.mono (Nat.le_of_eq size.symm)⟩
    ⟨rfl, List.prefix_refl _, Nat.le_of_eq size.symm⟩ told (fun _ _ => size) (fun _ h => by cases h)

theorem record (hs : s.Sound) {ds : List Diagnostic} (hd : ∀ d ∈ ds, d.Usual) :
    Works (fun _ after => after.block = s.block ∧ after.store.size = s.store.size) (Run.record ds)
      ctx s where
  sound := ⟨hs.store, hs.block⟩
  grows := ⟨rfl, List.prefix_refl _, Nat.le_refl _⟩
  told := by
    refine ⟨ds.map (·.under ctx.trace), rfl, ?_⟩
    intro d hm
    obtain ⟨own, ho, rfl⟩ := List.mem_map.1 hm
    exact ((hd own ho).under _).fine _
  done _ _ := ⟨rfl, rfl⟩
  failed _ h := by cases h
  steady _ _ := rfl

theorem begin (hs : s.Sound) (pos : Position) {outer : Scope} {definitions : Definitions}
    (ho : Begun s.store.size outer) (hd : ∀ found ∈ definitions.values, Orderly found.value) :
    Works (fun id after => id < after.store.size) (Run.begin pos outer definitions) ctx s := by
  have size : (s.store.begin pos outer definitions).2.size = s.store.size + 1 := by
    simp [Store.begin, Store.size]
  have grown : s.store.size ≤ (s.store.begin pos outer definitions).2.size := by omega
  have begun : ∀ id, (Run.begin pos outer definitions ctx s).1 = .done id →
      id < (s.store.begin pos outer definitions).2.size := by
    intro id h
    cases h
    exact Nat.lt_of_lt_of_eq (Nat.lt_succ_self _) size.symm
  exact plain (fun _ => rfl) ⟨hs.store.begin pos ho hd, hs.block.mono grown⟩
    ⟨rfl, List.prefix_refl _, grown⟩ rfl begun (fun _ h => by cases h)

theorem attempt {act : Run Unit} {P : Unit → State → Prop} (h : Works P act ctx s) :
    Works (fun _ _ => True) (Run.attempt act) ctx s := by
  have step := Run.attempt_eq_tell act ctx s
  obtain ⟨sound, grows, ⟨added, told, fine⟩, -, failed, steady⟩ := h
  cases hr : act ctx s with
  | mk outcome mid =>
    rw [hr] at sound grows told fine failed steady step
    have also_step : Quiet s (outcome, mid) → ∀ ids,
        Run.attempt act (ctx.also ids) s = Run.attempt act ctx s := by
      intro hq ids
      rw [Run.attempt_eq_tell, steady hq ids, step]
    cases outcome with
    | done a =>
      exact ofEnd step sound grows told fine (fun _ _ => trivial) (fun _ hd => by cases hd)
        fun hq ids => (also_step hq ids).trans step
    | failed d =>
      have all_told : (mid.store.record [d]).diagnostics = s.store.diagnostics ++ (added ++ [d]) := by
        rw [← List.append_assoc, ← told]
        rfl
      refine ofEnd step ⟨sound.store, sound.block⟩ ⟨grows.id, grows.instrs, grows.size⟩ all_told
        (List.forall_mem_append.2 ⟨fine, ?_⟩) (fun _ _ => trivial) (fun _ hd => by cases hd)
        fun hq ids => ?_
      · intro d' hd
        rw [List.mem_singleton.1 hd]
        exact failed d rfl
      · obtain ⟨quiet, -⟩ := (quiet_iff all_told).1 hq
        rw [List.forall_mem_append] at quiet
        refine (also_step ((quiet_iff told).2 ⟨quiet.1, fun d' hd => ?_⟩) ids).trans step
        cases hd
        exact quiet.2 d (List.mem_singleton_self d)
    | exhausted =>
      exact ofEnd step sound grows told fine (fun _ _ => trivial) (fun _ hd => by cases hd)
        fun hq ids => (also_step hq ids).trans step

end Works

end NamespaceLang

import NamespaceLang.Compile
import NamespaceLang.Proofs.Analysis.Expression

/-!
# What compiling holds to be impossible

Of all that is held to be impossible one thing alone is ever told when a text is
compiled: that a scope is gone. It is told of the very texts of which something
else would be told if somebody kept all namespaces.
-/

set_option autoImplicit false

namespace NamespaceLang

theorem runEntry_works {ctx : Context} {s : State} (hs : s.Sound) (pos : Position)
    {nodes : List Tree} (hn : Orderly nodes) :
    Works (fun _ _ => True) (runEntry pos nodes) ctx s := by
  refine .bind (declare_works hs pos hn fun _ hm => by cases hm) fun root after sound _ _ => ?_
  refine .holding (.inNewBlock (R := fun _ _ => True) sound (fun new sound _ => ?_) fun _ _ h => h)
  refine .bind (.within (readSymbol_works sound _ _ _)) fun main? found sound _ hmain => ?_
  cases main? with
  | none => exact .error sound _ (by simp)
  | some main =>
    refine .bind (.attempt (P := fun _ _ => True) ?_) fun _ _ sound _ _ => .pure sound trivial
    refine .bind (Q := fun _ _ => True) (call_works sound pos (hmain main rfl).noFunction _)
      fun _ _ sound _ _ => ?_
    exact .bind (.evaluate sound) fun _ _ sound _ _ => .pure sound trivial

def Compiled.ofRun (nodes : List Tree) : Outcome Shape × State → Compiled
  | (.done shape, s) => ⟨nodes, s.store, some shape, true⟩
  | (.failed d, s) => ⟨nodes, s.store.record [d], none, true⟩
  | (.exhausted, s) => ⟨nodes, s.store, none, false⟩

def State.opening (found : List Diagnostic) : State :=
  ⟨.ofDiagnostics found, .new (Store.ofDiagnostics found).nextBlock⟩

theorem State.sound_opening (found : List Diagnostic) : (opening found).Sound :=
  ⟨Store.sound_ofDiagnostics found, Block.sound_new _ _⟩

/-- Compiles a text while somebody outside holds namespaces. -/
def compileHolding (ids : List NamespaceId) (label : String) (text : List Char) : Compiled :=
  let read := tokenize label text
  .ofRun read.nodes
    (runEntry (.start label) read.nodes (Context.start.also ids) (.opening read.diagnostics))

theorem compileHolding_nil (label : String) (text : List Char) :
    compileHolding [] label text = compile label text := by
  simp only [compileHolding, compile, Store.perform]
  show Compiled.ofRun _ (runEntry _ _ Context.start (State.opening _)) = _
  unfold State.opening
  rcases runEntry _ _ _ _ with ⟨_ | _ | _, s⟩ <;> rfl

theorem Compiled.ofRun_told {P : Shape → State → Prop} {act : Run Shape} {ctx : Context} {s : State}
    (h : Works P act ctx s) (nodes : List Tree) :
    ∃ added, (ofRun nodes (act ctx s)).diagnostics = s.store.diagnostics ++ added ∧
      (∀ d ∈ added, d.Fine (ctx.HoldsAll (ofRun nodes (act ctx s)).store)) ∧
      ((∀ d ∈ added, d.cause? ≠ some .scopeGone) → Quiet s (act ctx s)) := by
  obtain ⟨-, -, ⟨added, told, fine⟩, -, failed, -⟩ := h
  cases hr : act ctx s with
  | mk outcome after =>
    rw [hr] at told fine failed
    cases outcome with
    | done shape =>
      exact ⟨added, told, fine, fun quiet => (quiet_iff told).2 ⟨quiet, fun _ h => by cases h⟩⟩
    | failed d =>
      refine ⟨added ++ [d], ?_, List.forall_mem_append.2 ⟨fine, ?_⟩, fun quiet => ?_⟩
      · rw [← List.append_assoc, ← told]
        rfl
      · intro d' hd
        rw [List.mem_singleton.1 hd]
        exact failed d rfl
      · rw [List.forall_mem_append] at quiet
        refine (quiet_iff told).2 ⟨quiet.1, fun d' h => ?_⟩
        cases h
        exact quiet.2 d (List.mem_singleton_self d)
    | exhausted =>
      exact ⟨added, told, fine, fun quiet => (quiet_iff told).2 ⟨quiet, fun _ h => by cases h⟩⟩

theorem compileHolding_works (ids : List NamespaceId) (label : String) (text : List Char) :
    Works (fun _ _ => True) (runEntry (.start label) (tokenize label text).nodes)
      (Context.start.also ids) (.opening (tokenize label text).diagnostics) :=
  runEntry_works (State.sound_opening _) _ (tokenize_orderly label text)

theorem compileHolding_all (ids : List NamespaceId) (label : String) (text : List Char)
    (h : ∀ id < (compileHolding ids label text).store.size, id ∈ ids) :
    ∃ added, (compileHolding ids label text).diagnostics =
      (tokenize label text).diagnostics ++ added ∧ ∀ d ∈ added, d.severity ≠ .unreachable := by
  obtain ⟨added, told, fine, -⟩ := Compiled.ofRun_told (compileHolding_works ids label text)
    (tokenize label text).nodes
  refine ⟨added, told, fun d hd hsev => ?_⟩
  exact (fine d hd).held h ((fine d hd).unreachable.1 hsev)

/-- Beyond what reading it has told, something held to be impossible is told of a text if and only
if a scope is gone; and none of that is told if and only if it makes no difference to the text
whether namespaces are held from outside. -/
theorem impossible_iff_holding_matters (label : String) (text : List Char) :
    ∃ added, (compile label text).diagnostics = (tokenize label text).diagnostics ++ added ∧
      (∀ d ∈ added, d.severity = .unreachable ↔ d.cause? = some .scopeGone) ∧
      ((∀ d ∈ added, d.severity ≠ .unreachable) ↔
        ∀ ids, compileHolding ids label text = compile label text) := by
  have works := compileHolding_works [] label text
  obtain ⟨added, told, fine, quiet⟩ := Compiled.ofRun_told works (tokenize label text).nodes
  have told : (compileHolding [] label text).diagnostics =
    (tokenize label text).diagnostics ++ added := told
  rw [compileHolding_nil] at told
  refine ⟨added, told, fun d hd => (fine d hd).unreachable, ?_, ?_⟩
  · intro possible ids
    have no_scope_gone : ∀ d ∈ added, d.cause? ≠ some .scopeGone :=
      fun d hd hgone => possible d hd ((fine d hd).unreachable.2 hgone)
    have same := works.steady (quiet no_scope_gone) ids
    rw [← compileHolding_nil]
    exact congrArg (Compiled.ofRun _) same
  · intro same
    have all := same (List.range (compile label text).store.size)
    obtain ⟨added', told', possible⟩ := compileHolding_all _ label text fun id hid => by
      rw [all] at hid
      exact List.mem_range.2 hid
    rw [all, told] at told'
    rwa [List.append_cancel_left told']

/-- The namespace of `.r` stands inside a namespace that nobody holds once `.p` has been read. -/
theorem access_outlives_scope :
    ∃ d ∈ (compile "t.cvl" "ns [.p := ns [.r := q]].p.r".toList).diagnostics.drop
        (tokenize "t.cvl" "ns [.p := ns [.r := q]].p.r".toList).diagnostics.length,
      d.severity = .unreachable := by
  decide +kernel

end NamespaceLang

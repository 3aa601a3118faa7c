import NamespaceLang.Proofs.Analysis.Agreement
import NamespaceLang.Proofs.Analysis.Keeps
import NamespaceLang.Proofs.Compile
import NamespaceLang.Proofs.Store.Census

/-!
# Asking in different orders

What a binding is found to be depends on what it was first asked under, and on
what had been found before: findings are kept, failures are not. History makes
no difference but by them. The binding that a name stands for does not depend on
it; and once that has been looked into, everybody finds the same, whatever was
asked since.
-/

set_option autoImplicit false

namespace NamespaceLang

inductive Request where
  | resolve (id : NamespaceId) (pos : Position) (name : String) (slot : Shape)
  | field (id : NamespaceId) (pos : Position) (name : String)
  | main (id : NamespaceId) (slot : Shape)

/-- Where the request leaves off, whatever comes of it. -/
def Request.run (ctx : Context) (s : State) : Request → State
  | .resolve id pos name slot => (NamespaceLang.resolve (s.store.scopeOf id) pos name slot ctx s).2
  | .field id pos name => (readString (.declared id) pos name ctx s).2
  | .main id slot => (readSymbol (.declared id) .main slot ctx s).2

abbrev History := List (Context × Request)

def State.after (s : State) (h : History) : State :=
  h.foldl (fun s asked => asked.2.run asked.1 s) s

theorem force_keeps (depth : Nat) (id : NamespaceId) (binding : Binding) (thunk : Thunk)
    (slot : Shape) (ctx : Context) (s : State) :
    Keeps True (fun _ => true) ctx s (forceWithin depth id binding thunk slot ctx s) :=
  (Moment.minds ⟨depth, .force id binding thunk slot, ctx, s⟩).mono (fun _ => trivial) fun _ _ => rfl

theorem Request.learns (r : Request) (ctx : Context) (s : State) :
    s.store.Learns (r.run ctx s).store := by
  cases r with
  | resolve id pos name slot =>
    exact (Moment.minds ⟨s.store.bindingBound + 1, .resolve (s.store.scopeOf id) slot pos name, ctx,
      s⟩).learns
  | field id pos name =>
    exact (Keeps.readString fun entry _ => force_keeps _ id _ entry.thunk .unknown ctx s).learns
  | main id slot =>
    exact (Keeps.readField fun entry _ => force_keeps _ id _ entry.thunk slot ctx s).learns

theorem State.after_learns (s : State) (h : History) : s.store.Learns (s.after h).store := by
  induction h generalizing s with
  | nil => exact .refl _
  | cons asked rest ih => exact (asked.2.learns asked.1 s).trans (ih _)

namespace Store

variable {s later : Store} {name : String}

theorem Learns.binds? (h : s.Learns later) {id : NamespaceId} (begun : id < s.size) :
    later.binds? name id = s.binds? name id := by
  have own := h.each id begun
  rw [Store.binds?, Store.binds?, own.definitions, own.field?]

theorem Learns.lookUp (h : s.Learns later) {scope : Scope} (begun : Begun s.size scope) :
    later.lookUp name scope = s.lookUp name scope := by
  induction scope with
  | nil => rfl
  | cons id outer ih =>
    rw [Store.lookUp, Store.lookUp, h.binds? (begun id List.mem_cons_self),
      ih fun o ho => begun o (List.mem_cons_of_mem id ho)]

theorem Learns.scopeOf (h : s.Learns later) {id : NamespaceId} (begun : id < s.size) :
    later.scopeOf id = s.scopeOf id := by
  rw [Store.scopeOf, Store.scopeOf, (h.each id begun).outer]

theorem mem_of_lookUp {scope : Scope} {p : NamespaceId × Binding}
    (h : s.lookUp name scope = some p) : p.1 ∈ scope := by
  induction scope with
  | nil => cases h
  | cons id outer ih =>
    rw [Store.lookUp] at h
    split at h
    · cases h
      exact List.mem_cons_self
    · exact List.mem_cons_of_mem id (ih h)

end Store

/-- The binding that a name stands for, and its source if it has one of its own. -/
def Store.denotes (s : Store) (name : String) (scope : Scope) : Option (Place × Option Thunk) :=
  (s.lookUp name scope).map fun p => (p, s.source? p.1 p.2)

namespace Store

variable {s later : Store} {name : String}

theorem Learns.denotes (h : s.Learns later) {scope : Scope} (begun : Begun s.size scope) :
    later.denotes name scope = s.denotes name scope := by
  rw [Store.denotes, Store.denotes, h.lookUp begun]
  cases found : s.lookUp name scope with
  | none => rfl
  | some p =>
    have own := begun p.1 (mem_of_lookUp found)
    rw [Option.map_some, Option.map_some, (h.each p.1 own).source?]

end Store

theorem force_found {depth : Nat} {id : NamespaceId} {binding : Binding} {thunk : Thunk}
    {slot : Shape} {ctx : Context} {s after : State} {found : Forced} (begun : id < s.store.size)
    (h : forceWithin depth id binding thunk slot ctx s = (.done found, after)) :
    after.store.finding? (id, binding) = some found := by
  have learns := (force_keeps depth id binding thunk slot ctx s).learns
  rw [h] at learns
  cases depth with
  | zero => cases h
  | succ depth =>
    rw [show forceWithin (depth + 1) id binding thunk slot ctx s = _ from
      forceBy_apply ctx s (analyzeWith (forceWithin depth)) id binding thunk slot] at h
    cases first : (s.store.get id).findings.get? binding with
    | some known =>
      rw [first] at h
      cases h
      exact first
    | none =>
      rw [first] at h
      dsimp only at h
      by_cases entered : (id, binding) ∈ ctx.forcing
      · rw [if_pos entered] at h
        cases h
      · rw [if_neg entered, Run.bind_apply] at h
        rcases worked : workOut (analyzeWith (forceWithin depth)) thunk slot
          (ctx.inside id binding thunk.pos) s with ⟨known | d | _, mid⟩
        · rw [worked] at h
          cases h
          refine Store.finding?_keep (p := (id, binding)) ?_ _
          have grown : s.store.size ≤ (mid.store.keep id binding found).size := learns.size
          rw [Store.keep, Store.size_modify] at grown
          exact Nat.lt_of_lt_of_le begun grown
        · rw [worked] at h
          cases h
        · rw [worked] at h
          cases h

variable {scope : Scope} {pos : Position} {name : String} {slot : Shape} {ctx : Context}
  {s after : State}

theorem resolve_found {a : Analysis} (begun : Begun s.store.size scope)
    (h : resolve scope pos name slot ctx s = (.done a, after)) :
    ∃ p thunk found, s.store.denotes name scope = some (p, some thunk) ∧
      after.store.finding? p = some found ∧ a = found.analysis := by
  rw [show resolve scope pos name slot ctx s = _ from resolveWith_apply _ pos name slot scope ctx s] at h
  cases way : s.store.reach ctx.held name scope with
  | binding id binding =>
    have bound := Store.lookUp_of_reach.1 id binding way
    rw [way] at h
    unfold useReached at h
    dsimp only at h
    cases source : s.store.source? id binding with
    | none =>
      rw [source] at h
      cases h
    | some thunk =>
      rw [source] at h
      dsimp only at h
      rw [Run.bind_apply] at h
      rcases forced : forceWithin (s.store.bindingBound + Tree.weightAll [] + 1) id binding thunk
        slot ctx s with ⟨found | d | _, mid⟩
      · rw [forced] at h
        cases h
        have own : id < s.store.size := begun id (Store.mem_of_lookUp bound)
        refine ⟨(id, binding), thunk, found, ?_, force_found own forced, rfl⟩
        rw [Store.denotes, bound, Option.map_some, source]
      · rw [forced] at h
        cases h
      · rw [forced] at h
        cases h
  | nothing =>
    rw [way] at h
    cases h
  | gone =>
    rw [way] at h
    cases h

theorem resolve_of_finding {p : Place} {thunk : Thunk} {found : Forced}
    (alive : ∀ o ∈ scope, s.store.isAlive ctx.held o = true)
    (stands : s.store.denotes name scope = some (p, some thunk))
    (known : s.store.finding? p = some found) :
    (resolve scope pos name slot ctx s).1 = .done found.analysis := by
  obtain ⟨own, bound, same⟩ := Option.map_eq_some_iff.1 stands
  obtain ⟨rfl, source⟩ := Prod.mk.inj same
  rw [show resolve scope pos name slot ctx s = _ from resolveWith_apply _ pos name slot scope ctx s,
    Store.reach_of_alive alive, bound]
  show (useReached _ pos name slot s.store (.binding own.1 own.2) ctx s).1 = _
  unfold useReached
  dsimp only
  rw [source]
  dsimp only
  rw [Run.bind_apply, show forceWithin (s.store.bindingBound + Tree.weightAll [] + 1) own.1 own.2
    thunk slot ctx s = _ from forceBy_apply ctx s _ own.1 own.2 thunk slot,
    show (s.store.get own.1).findings.get? own.2 = some found from known]
  rfl

theorem resolve_of_no_source (pos : Position) (slot : Shape)
    (alive : ∀ o ∈ scope, s.store.isAlive ctx.held o = true)
    (stands : ∀ p thunk, s.store.denotes name scope ≠ some (p, some thunk)) :
    (resolve scope pos name slot ctx s).1 = .failed (Diagnostic.under ctx.trace (.error pos
      (if (s.store.denotes name scope).isSome then .destructuredDefinition name
        else .unknownName name))) := by
  rw [show resolve scope pos name slot ctx s = _ from resolveWith_apply _ pos name slot scope ctx s,
    Store.reach_of_alive alive]
  unfold Store.denotes at stands ⊢
  cases bound : s.store.lookUp name scope with
  | none => rfl
  | some p =>
    rw [bound] at stands
    show (useReached _ pos name slot s.store (.binding p.1 p.2) ctx s).1 = _
    unfold useReached
    dsimp only
    cases source : s.store.source? p.1 p.2 with
    | none => rfl
    | some thunk => exact absurd (by rw [Option.map_some, source]) (stands p thunk)

/-- What a name is resolved to inside a namespace. -/
def State.resolved (s : State) (id : NamespaceId) (pos : Position) (name : String) (slot : Shape)
    (ctx : Context) : Outcome Analysis :=
  (resolve (s.store.scopeOf id) pos name slot ctx s).1

def History.Resolves (h : History) (s : State) (id : NamespaceId) (name : String) (a : Analysis) :
    Prop :=
  ∃ before ctx pos slot rest, h = before ++ (ctx, .resolve id pos name slot) :: rest ∧
    (s.after before).resolved id pos name slot ctx = .done a

theorem State.after_append (s : State) (h rest : History) :
    s.after (h ++ rest) = (s.after h).after rest := List.foldl_append

theorem Store.Sound.begun_scopeOf {s : Store} (sound : s.Sound) {id : NamespaceId}
    (begun : id < s.size) : Begun s.size (s.scopeOf id) := by
  intro o ho
  rcases List.mem_cons.1 ho with rfl | ho
  · exact begun
  · exact (sound.get id).outer o ho

variable {id : NamespaceId}

/-- A name that was resolved is resolved again, to the same, whatever has been asked since. -/
theorem History.Resolves.again {h : History} {a : Analysis} (sound : s.store.Sound)
    (begun : id < s.store.size) (resolved : h.Resolves s id name a)
    (alive : ∀ o ∈ (s.after h).store.scopeOf id, (s.after h).store.isAlive ctx.held o = true) :
    (s.after h).resolved id pos name slot ctx = .done a := by
  unfold State.resolved
  rw [(s.after_learns h).scopeOf begun] at alive ⊢
  obtain ⟨before, ctx', pos', slot', rest, rfl, first⟩ := resolved
  have till := s.after_learns before
  have there : Begun (s.after before).store.size (s.store.scopeOf id) :=
    (sound.begun_scopeOf begun).mono till.size
  have asked : resolve (s.store.scopeOf id) pos' name slot' ctx' (s.after before) =
      (.done a, Request.run ctx' (s.after before) (.resolve id pos' name slot')) := by
    rw [State.resolved, till.scopeOf begun] at first
    rw [Request.run, till.scopeOf begun]
    exact Prod.ext first rfl
  obtain ⟨p, thunk, found, stands, known, rfl⟩ := resolve_found there asked
  have step := Request.learns (.resolve id pos' name slot') ctx' (s.after before)
  have since := State.after_learns (Request.run ctx' (s.after before) (.resolve id pos' name slot'))
    rest
  rw [State.after_append] at alive ⊢
  have own : p.1 < (s.after before).store.size := by
    obtain ⟨_, bound, same⟩ := Option.map_eq_some_iff.1 stands
    obtain ⟨rfl, -⟩ := Prod.mk.inj same
    exact there _ (Store.mem_of_lookUp bound)
  have still : Store.denotes _ name _ = _ := (step.trans since).denotes there
  have kept := (since.each p.1 (Nat.lt_of_lt_of_le own step.size)).findings p.2 found known
  exact resolve_of_finding alive (still.trans stands) kept

def State.ofFile (label : String) (text : List Char) : State :=
  (declare [] (.start label) (tokenize label text).nodes .start
    (.opening (tokenize label text).diagnostics)).2

theorem State.ofFile_sound (label : String) (text : List Char) :
    (State.ofFile label text).store.Sound :=
  (declare_works (State.sound_opening _) _ (tokenize_orderly label text)
    fun _ none_outer => by cases none_outer).sound.store

/-- Names are resolved in the body of the file, which is held from outside. -/
def History.inFile (asked : List (String × Shape)) : History :=
  asked.map fun p => (Context.start.holding [0], .resolve 0 (.start "t.cvl") p.1 p.2)

def State.shapeInFile? (s : State) (name : String) (slot : Shape) : Option String :=
  match s.resolved 0 (.start "t.cvl") name slot (Context.start.holding [0]) with
  | .done a => some a.shape.shown
  | _ => none

/-- A name stands for the same after all histories. One that has no source to be looked into fails
in the same way after all of them. Any other one is resolved to the same, or not at all, after
histories that leave the same namespaces, about which the same has been found; and once it has been
resolved, to that same after any history, and under any shape. -/
theorem resolve_after_histories (sound : s.store.Sound) (begun : id < s.store.size)
    (h₁ h₂ : History) (name : String) (pos : Position) (slot : Shape) {ctx₁ ctx₂ : Context}
    (alive₁ : ∀ o ∈ (s.after h₁).store.scopeOf id, (s.after h₁).store.isAlive ctx₁.held o = true)
    (alive₂ : ∀ o ∈ (s.after h₂).store.scopeOf id, (s.after h₂).store.isAlive ctx₂.held o = true) :
    (s.after h₁).store.denotes name ((s.after h₁).store.scopeOf id) =
        (s.after h₂).store.denotes name ((s.after h₂).store.scopeOf id) ∧
      ((∀ p thunk, s.store.denotes name (s.store.scopeOf id) ≠ some (p, some thunk)) →
        ∃ d : Diagnostic,
          (s.after h₁).resolved id pos name slot ctx₁ = .failed (d.under ctx₁.trace) ∧
          (s.after h₂).resolved id pos name slot ctx₂ = .failed (d.under ctx₂.trace)) ∧
      ((s.after h₂).store.namespaces = (s.after h₁).store.namespaces → ctx₁.Alike ctx₂ → ∀ a,
        (s.after h₁).resolved id pos name slot ctx₁ = .done a ↔
          (s.after h₂).resolved id pos name slot ctx₂ = .done a) ∧
      (∀ a, h₁.Resolves s id name a → (s.after h₁).resolved id pos name slot ctx₁ = .done a) ∧
      ∀ a, h₂.Resolves s id name a → (s.after h₂).resolved id pos name slot ctx₂ = .done a := by
  have there := sound.begun_scopeOf begun
  have scope₁ := (s.after_learns h₁).scopeOf begun
  have scope₂ := (s.after_learns h₂).scopeOf begun
  have same₁ : (s.after h₁).store.denotes name _ = _ := (s.after_learns h₁).denotes there
  have same₂ : (s.after h₂).store.denotes name _ = _ := (s.after_learns h₂).denotes there
  refine ⟨?_, fun no_source => ?_, fun same hc a => ?_, fun a resolved => ?_, fun a resolved => ?_⟩
  · rw [scope₁, scope₂, same₁, same₂]
  · unfold State.resolved
    rw [scope₁] at alive₁ ⊢
    rw [scope₂] at alive₂ ⊢
    rw [← same₁] at no_source
    have failed := resolve_of_no_source pos slot alive₁ no_source
    rw [same₁, ← same₂] at no_source
    have failed' := resolve_of_no_source pos slot alive₂ no_source
    rw [same₂, ← same₁] at failed'
    exact ⟨_, failed, failed'⟩
  · unfold State.resolved
    rw [scope₁, scope₂]
    exact resolve_congr hc same a
  · exact resolved.again sound begun alive₁
  · exact resolved.again sound begun alive₂

/-- A field's name is a key to whoever asks for a key first, and to everybody after that. -/
theorem resolve_after_histories_key :
    ∃ s, s = State.ofFile "t.cvl" "x :: .a".toList ∧
      (s.after (.inFile [("x", .key)])).store.denotes "x"
          ((s.after (.inFile [("x", .key)])).store.scopeOf 0) =
        (s.after []).store.denotes "x" ((s.after []).store.scopeOf 0) ∧
      ∃ a, (s.after (.inFile [("x", .key)])).resolved 0 (.start "t.cvl") "x" .unknown
        (Context.start.holding [0]) = .done a := by
  have told : ((State.ofFile "t.cvl" "x :: .a".toList).shapeInFile? "x" .key).isSome := by
    decide +kernel
  have begun : 0 < (State.ofFile "t.cvl" "x :: .a".toList).store.size := by decide +kernel
  have alive : ∀ h : History, h ∈ [History.inFile [("x", .key)], []] →
      ∀ o ∈ ((State.ofFile "t.cvl" "x :: .a".toList).after h).store.scopeOf 0,
        ((State.ofFile "t.cvl" "x :: .a".toList).after h).store.isAlive
          (Context.start.holding [0]).held o = true := by
    decide +kernel
  have whole := resolve_after_histories (State.ofFile_sound "t.cvl" "x :: .a".toList) begun
    (.inFile [("x", .key)]) [] "x" (.start "t.cvl") .unknown
    (alive _ (by simp)) (alive _ (by simp))
  refine ⟨_, rfl, whole.1, ?_⟩
  rw [State.shapeInFile?] at told
  split at told
  · next a first =>
    exact ⟨a, whole.2.2.2.1 a ⟨[], _, _, _, [], rfl, first⟩⟩
  · cases told

/-- The shape that was first asked for decides in the first file; in the second, where two names
need each other through a third, the one that was asked for first does. -/
theorem history_decides :
    (∃ s, s = State.ofFile "t.cvl" "x :: .a".toList ∧
      (s.after []).shapeInFile? "x" .unknown = none ∧
      (s.after (.inFile [("x", .key)])).shapeInFile? "x" .unknown = some "key(.a)") ∧
    ∃ s, s = State.ofFile "t.cvl"
        ("p :: .s\np := #builtin\na :: ns [.g := p, b.g := #builtin]\n" ++
          "b :: ns [.g := p, a.g := #builtin]\nx :: a.s").toList ∧
      (s.after (.inFile [("a", .unknown)])).shapeInFile? "x" .unknown = some "namespace" ∧
      (s.after (.inFile [("b", .unknown)])).shapeInFile? "x" .unknown = none :=
  ⟨⟨_, rfl, by decide +kernel, by decide +kernel⟩, _, rfl, by decide +kernel, by decide +kernel⟩

end NamespaceLang

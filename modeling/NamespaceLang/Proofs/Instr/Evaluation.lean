import NamespaceLang.Instr.Evaluate
import NamespaceLang.Proofs.Body.Orderly

/-!
# Blocks that run

An instruction that appends a field names three earlier ones of the same block:
one that begins a namespace, one that makes a key and one that keeps source. In
a block without calls where this holds of all, each instruction has the result
that its kind promises, and the pass comes to its end.
-/

set_option autoImplicit false

namespace NamespaceLang

def Begun (n : Nat) (scope : Scope) : Prop := ∀ id ∈ scope, id < n

theorem Begun.mono {n m : Nat} {scope : Scope} (h : Begun n scope) (hn : n ≤ m) : Begun m scope :=
  fun id hm => Nat.lt_of_lt_of_le (h id hm) hn

structure Thunk.Sound (n : Nat) (t : Thunk) : Prop where
  nodes : Orderly t.nodes
  scope : Begun n t.scope

theorem Thunk.Sound.mono {n m : Nat} {t : Thunk} (h : t.Sound n) (hn : n ≤ m) : t.Sound m :=
  ⟨h.nodes, h.scope.mono hn⟩

def Registry.Open (n : Nat) (r : Registry) : Prop :=
  r.locked = false ∧ ∀ entry ∈ r.entries, entry.thunk.Sound n

namespace Op

def beginsNamespace : Op → Bool
  | .nsInit => true
  | _ => false

def makesKey : Op → Bool
  | .makeKey _ => true
  | _ => false

def keepsSource : Op → Bool
  | .captureAst _ => true
  | _ => false

def Gives (n : Nat) : Op → Value → Prop
  | .makeKey _, value => ∃ key, value = .key key
  | .captureAst _, value => ∃ thunk, value = .ast thunk ∧ thunk.Sound n
  | .nsInit, value => ∃ registry, value = .aggregate registry ∧ registry.Open n
  | _, _ => True

end Op

/-- The reference names an instruction of a kind among those of a block. -/
def Names (id : BlockId) (instrs : List Instr) (ref : InstrRef) (kind : Op → Bool) : Prop :=
  ref.block = id ∧ ∃ instr, instrs[ref.index]? = some instr ∧ kind instr.op = true

theorem Names.more {id : BlockId} {instrs more : List Instr} {ref : InstrRef} {kind : Op → Bool}
    (h : Names id instrs ref kind) (hp : instrs <+: more) : Names id more ref kind := by
  obtain ⟨hb, instr, hi, hk⟩ := h
  obtain ⟨rest, rfl⟩ := hp
  obtain ⟨lt, -⟩ := List.getElem?_eq_some_iff.1 hi
  exact ⟨hb, instr, by rw [List.getElem?_append_left lt, hi], hk⟩

theorem Names.imp {id : BlockId} {instrs : List Instr} {ref : InstrRef} {kind other : Op → Bool}
    (h : Names id instrs ref kind) (hk : ∀ op, kind op = true → other op = true) :
    Names id instrs ref other := by
  obtain ⟨hb, instr, hi, hkind⟩ := h
  exact ⟨hb, instr, hi, hk _ hkind⟩

/-- What an instruction needs of those before it. -/
def Op.SoundAfter (n : Nat) (id : BlockId) (before : List Instr) : Op → Prop
  | .nsAppend list key value =>
    Names id before list Op.beginsNamespace ∧ Names id before key Op.makesKey ∧
      Names id before value Op.keepsSource
  | .captureAst thunk => thunk.Sound n
  | .call .. | .leave _ => False
  | _ => True

def Block.Sound (n : Nat) (b : Block) : Prop :=
  ∀ before instr rest, b.instrs.toList = before ++ instr :: rest → instr.op.SoundAfter n b.id before

theorem Op.SoundAfter.mono {n m : Nat} {id : BlockId} {before : List Instr} {op : Op}
    (h : op.SoundAfter n id before) (hn : n ≤ m) : op.SoundAfter m id before := by
  cases op with
  | captureAst thunk => exact Thunk.Sound.mono h hn
  | _ => exact h

namespace Block

theorem sound_new (n : Nat) (id : BlockId) : (Block.new id).Sound n := by
  intro before instr rest h
  simp [new] at h

theorem Sound.mono {n m : Nat} {b : Block} (h : b.Sound n) (hn : n ≤ m) : b.Sound m :=
  fun before instr rest hs => (h before instr rest hs).mono hn

theorem Sound.push {n : Nat} {b : Block} (h : b.Sound n) {op : Op}
    (ho : op.SoundAfter n b.id b.instrs.toList) (pos : Position) : (b.push op pos).2.Sound n := by
  intro before instr rest hs
  simp only [Block.push, Array.toList_push] at hs
  rcases List.eq_nil_or_concat rest with rfl | ⟨init, last, rfl⟩
  · obtain ⟨rfl, hi⟩ := List.append_inj' hs rfl
    obtain rfl := List.singleton_inj.1 hi
    exact ho
  · rw [List.concat_eq_append, ← List.cons_append, ← List.append_assoc] at hs
    exact h before instr init (List.append_inj' hs rfl).1

end Block

namespace Results

/-- The results of some instructions are what their kinds promise. -/
structure Fits (n : Nat) (id : BlockId) (instrs : List Instr) (r : Results) : Prop where
  block : r.block = id
  size : r.values.size = instrs.length
  gives : ∀ (i : Nat) (instr : Instr) (value : Value), instrs[i]? = some instr →
    r.values[i]? = some value → instr.op.Gives n value

variable {n : Nat} {id : BlockId} {instrs : List Instr} {r : Results}

theorem Fits.push (h : r.Fits n id instrs) (instr : Instr) {value : Value}
    (hv : instr.op.Gives n value) : (r.push value).Fits n id (instrs ++ [instr]) where
  block := h.block
  size := by simp [Results.push, h.size]
  gives := by
    intro i instr' value' hi hval
    simp only [Results.push, Array.getElem?_push, h.size] at hval
    by_cases last : i = instrs.length
    · subst last
      simp at hi hval
      exact hi ▸ hval ▸ hv
    · rw [if_neg last] at hval
      rw [List.getElem?_append_left] at hi
      · exact h.gives i instr' value' hi hval
      · have := (List.getElem?_eq_some_iff.1 hi).1
        rw [List.length_append, List.length_singleton] at this
        omega

theorem Fits.operand (h : r.Fits n id instrs) {ref : InstrRef} {kind : Op → Bool}
    (hn : Names id instrs ref kind) (pos : Position) :
    ∃ instr value, instrs[ref.index]? = some instr ∧ kind instr.op = true ∧
      r.operand pos ref = .ok value ∧ r.get? ref = some value ∧ instr.op.Gives n value := by
  obtain ⟨hb, instr, hi, hk⟩ := hn
  have lt : ref.index < r.values.size := by
    rw [h.size]
    exact (List.getElem?_eq_some_iff.1 hi).1
  have hv : r.values[ref.index]? = some r.values[ref.index] := Array.getElem?_eq_getElem lt
  have same : ref.block = r.block := hb.trans h.block.symm
  refine ⟨instr, r.values[ref.index], hi, hk, ?_, ?_, h.gives _ _ _ hi hv⟩
  · simp [Results.operand, same, lt]
  · simp [Results.get?, same, hv]

theorem Fits.key (h : r.Fits n id instrs) {ref : InstrRef} (hn : Names id instrs ref Op.makesKey)
    (pos : Position) :
    ∃ key, r.operand pos ref = .ok (.key key) ∧ r.get? ref = some (.key key) := by
  obtain ⟨⟨op, at_⟩, value, -, hk, ho, hg, hv⟩ := h.operand hn pos
  cases op with
  | makeKey known =>
    obtain ⟨key, rfl⟩ := hv
    exact ⟨key, ho, hg⟩
  | _ => cases hk

theorem Fits.source (h : r.Fits n id instrs) {ref : InstrRef}
    (hn : Names id instrs ref Op.keepsSource) (pos : Position) :
    ∃ thunk, r.operand pos ref = .ok (.ast thunk) ∧ thunk.Sound n := by
  obtain ⟨⟨op, at_⟩, value, -, hk, ho, -, hv⟩ := h.operand hn pos
  cases op with
  | captureAst kept =>
    obtain ⟨thunk, rfl, ht⟩ := hv
    exact ⟨thunk, ho, ht⟩
  | _ => cases hk

theorem Fits.namespace (h : r.Fits n id instrs) {ref : InstrRef}
    (hn : Names id instrs ref Op.beginsNamespace) (pos : Position) :
    ∃ registry, r.operand pos ref = .ok (.aggregate registry) ∧
      r.get? ref = some (.aggregate registry) ∧ registry.Open n := by
  obtain ⟨⟨op, at_⟩, value, -, hk, ho, hg, hv⟩ := h.operand hn pos
  cases op with
  | nsInit =>
    obtain ⟨registry, rfl, hr⟩ := hv
    exact ⟨registry, ho, hg, hr⟩
  | _ => cases hk

theorem Fits.set (h : r.Fits n id instrs) {ref : InstrRef}
    (hn : Names id instrs ref Op.beginsNamespace) {registry : Registry} (hr : registry.Open n) :
    ({ r with values := r.values.setIfInBounds ref.index (.aggregate registry) } : Results).Fits n id
      instrs where
  block := h.block
  size := by simp [h.size]
  gives := by
    intro i instr value hi hval
    obtain ⟨-, first, hf, hk⟩ := hn
    rw [Array.getElem?_setIfInBounds] at hval
    split at hval
    · next same =>
      subst same
      obtain rfl : first = instr := by
        rw [hf] at hi
        exact Option.some.inj hi
      split at hval
      · cases hval
        obtain ⟨op, at_⟩ := first
        cases op with
        | nsInit => exact ⟨registry, rfl, hr⟩
        | _ => cases hk
      · cases hval
    · exact h.gives i instr value hi hval

theorem append_fits (h : r.Fits n id instrs) {list key value : InstrRef}
    (hl : Names id instrs list Op.beginsNamespace) (hk : Names id instrs key Op.makesKey)
    (hv : Names id instrs value Op.keepsSource) (pos : Position) :
    ∃ after found, r.append pos list key value = .ok (after, found) ∧ after.Fits n id instrs ∧
      ∀ d ∈ found, d.Usual := by
  obtain ⟨registry, hlist, -, hopen, hentries⟩ := h.namespace hl pos
  obtain ⟨known, hkey, -⟩ := h.key hk pos
  obtain ⟨thunk, hvalue, hthunk⟩ := h.source hv pos
  cases hins : registry.insert ⟨known, thunk, pos⟩ with
  | ok more =>
    obtain ⟨-, rfl⟩ := (registry.insert_eq_ok_iff more ⟨known, thunk, pos⟩).1 hins
    have grown : ({ registry with entries := registry.entries ++ [⟨known, thunk, pos⟩] } :
        Registry).Open n :=
      ⟨hopen, List.forall_mem_append.2 ⟨hentries, by simpa using hthunk⟩⟩
    refine ⟨_, [], ?_, h.set hl grown, by simp⟩
    simp [append, hlist, hkey, hvalue, hopen, hins, bind, Except.bind, pure, Except.pure]
  | error taken =>
    refine ⟨r, [(Diagnostic.error pos (.alreadyDeclared known.field)).withNote taken.pos
      .previousField], ?_, h, ?_⟩
    · simp [append, hlist, hkey, hvalue, hopen, hins, bind, Except.bind, pure, Except.pure]
    · intro d hd
      rw [List.mem_singleton.1 hd]
      exact (Diagnostic.usual_error _ (by simp)).withNote (by simp [Diagnostic.error]) _ _

theorem step_fits (h : r.Fits n id instrs) {instr : Instr}
    (hs : instr.op.SoundAfter n id instrs) :
    ∃ after found, r.step instr = .ok (after, found) ∧ after.Fits n id (instrs ++ [instr]) ∧
      ∀ d ∈ found, d.Usual := by
  obtain ⟨op, pos⟩ := instr
  cases op with
  | void => exact ⟨_, [], rfl, h.push ⟨.void, pos⟩ trivial, by simp⟩
  | comptimeOnly => exact ⟨_, [], rfl, h.push ⟨.comptimeOnly, pos⟩ trivial, by simp⟩
  | captureAst thunk => exact ⟨_, [], rfl, h.push ⟨.captureAst thunk, pos⟩ ⟨thunk, rfl, hs⟩, by simp⟩
  | makeKey key => exact ⟨_, [], rfl, h.push ⟨.makeKey key, pos⟩ ⟨key, rfl⟩, by simp⟩
  | nsInit =>
    exact ⟨_, [], rfl, h.push ⟨.nsInit, pos⟩ ⟨.empty, rfl, rfl, by simp [Registry.empty]⟩, by simp⟩
  | nsAppend list key value =>
    obtain ⟨hl, hk, hv⟩ := hs
    obtain ⟨after, found, ha, hf, hu⟩ := append_fits h hl hk hv pos
    exact ⟨after.push .void, found, by simp [step, ha, Except.map],
      hf.push ⟨.nsAppend list key value, pos⟩ trivial, hu⟩
  | call method arg => exact hs.elim
  | leave value => exact hs.elim

theorem run_fits (rest : List Instr) (h : r.Fits n id instrs)
    (hs : ∀ before instr later, instrs ++ rest = before ++ instr :: later →
      instr.op.SoundAfter n id before) :
    ∃ after found, r.run rest = (found, .ok after) ∧ after.Fits n id (instrs ++ rest) ∧
      ∀ d ∈ found, d.Usual := by
  induction rest generalizing r instrs with
  | nil => exact ⟨r, [], rfl, by rwa [List.append_nil], by simp⟩
  | cons instr rest ih =>
    obtain ⟨next, found, hn, hf, hu⟩ := step_fits h (hs instrs instr rest rfl)
    have same : instrs ++ [instr] ++ rest = instrs ++ instr :: rest := by simp
    obtain ⟨after, more, hr, ha, hm⟩ := ih hf (by rwa [same])
    refine ⟨after, found ++ more, by simp [run, hn, hr], same ▸ ha, ?_⟩
    exact List.forall_mem_append.2 ⟨hu, hm⟩

end Results

theorem Block.evaluate_fits {n : Nat} {b : Block} (h : b.Sound n) :
    ∃ results found, b.evaluate = (found, .ok results) ∧ results.Fits n b.id b.instrs.toList ∧
      ∀ d ∈ found, d.Usual := by
  have start : (⟨b.id, #[]⟩ : Results).Fits n b.id [] := ⟨rfl, rfl, by simp⟩
  exact Results.run_fits b.instrs.toList start h

end NamespaceLang

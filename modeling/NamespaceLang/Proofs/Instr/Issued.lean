import Mathlib.Algebra.Group.Nat.Defs
import Mathlib.Data.List.Nodup
import NamespaceLang.Proofs.Instr.Specification

/-!
# References for good

Blocks are taken from one store and filled in turns. Each push gives the reference
that the new instruction has from then on: what the blocks answer for a reference is
what was pushed when it was given, in its own block, and the results of a block
answer for what was pushed to that block before it was run, and for nothing else.
-/

set_option autoImplicit false

namespace NamespaceLang

/-- A reference that a push has given: the place of the block among all that were taken, and the
instruction that it stands for. -/
structure Issue where
  home : Nat
  ref : InstrRef
  instr : Instr

namespace Block

theorem get?_eq_some_iff {b : Block} {ref : InstrRef} {instr : Instr} :
    b.get? ref = some instr ↔ ref.block = b.id ∧ b.instrs.toList[ref.index]? = some instr := by
  by_cases own : ref.block = b.id <;> simp [get?, own]

theorem get?_of_grown {b larger : Block} (same : larger.id = b.id)
    (grown : b.instrs.toList <+: larger.instrs.toList) {ref : InstrRef} {instr : Instr}
    (here : b.get? ref = some instr) : larger.get? ref = some instr := by
  obtain ⟨own, there⟩ := get?_eq_some_iff.1 here
  obtain ⟨more, split⟩ := grown
  have inside := (List.getElem?_eq_some_iff.1 there).1
  exact get?_eq_some_iff.2
    ⟨own.trans same.symm, by rw [← split, List.getElem?_append_left inside, there]⟩

def issues (b : Block) (home : Nat) : List Issue :=
  b.instrs.toList.mapIdx fun index instr => ⟨home, ⟨b.id, index⟩, instr⟩

theorem issues_new (id : BlockId) (home : Nat) : (Block.new id).issues home = [] := rfl

theorem issues_push (b : Block) (home : Nat) (op : Op) (pos : Position) :
    (b.push op pos).2.issues home = b.issues home ++ [⟨home, b.next, ⟨op, pos⟩⟩] := by
  simp [issues, push, next, size]

theorem mem_issues {b : Block} {home : Nat} {i : Issue} :
    i ∈ b.issues home ↔ i.home = home ∧ b.get? i.ref = some i.instr := by
  rw [issues, List.mem_mapIdx, get?_eq_some_iff]
  constructor
  · rintro ⟨index, inside, rfl⟩
    exact ⟨rfl, rfl, List.getElem?_eq_getElem inside⟩
  · obtain ⟨home, ⟨block, index⟩, instr⟩ := i
    rintro ⟨rfl, rfl, there⟩
    obtain ⟨inside, same⟩ := List.getElem?_eq_some_iff.1 there
    exact ⟨index, inside, by rw [same]⟩

theorem refs_eq (b : Block) (home : Nat) : b.refs = (b.issues home).map Issue.ref := by
  refine List.ext_getElem? fun index => ?_
  by_cases inside : index < b.instrs.size <;> simp [refs, issues, size, inside]

theorem instrs_eq (b : Block) (home : Nat) :
    b.instrs.toList = (b.issues home).map Issue.instr := by
  refine List.ext_getElem? fun index => ?_
  simp [issues, Function.comp_def]

end Block

namespace Results

structure Answers (r : Results) (ref : InstrRef) (value : Value) : Prop where
  get : r.get? ref = some value
  resolve : ∀ pos, r.resolve pos (.deferred ref) = .ok value

/-- There is nothing for the reference, and an error where something is needed. -/
structure Silent (r : Results) (ref : InstrRef) : Prop where
  get : r.get? ref = none
  resolve : ∀ pos, r.resolve pos (.deferred ref) = .error (.unreachable pos (.noResult ref))
  aggregate : ∀ pos,
    r.aggregate pos ref = .error (.unreachable pos (.notAggregate ref "nothing"))

theorem answers_of_get? {r : Results} {ref : InstrRef} {value : Value}
    (found : r.get? ref = some value) : r.Answers ref value where
  get := found
  resolve pos := by rw [resolve, found]

theorem silent_of_get? {r : Results} {ref : InstrRef} (nothing : r.get? ref = none) :
    r.Silent ref where
  get := nothing
  resolve pos := by rw [resolve, nothing]
  aggregate pos := by rw [aggregate, nothing]; rfl

theorem get?_lock_isSome (r : Results) (ref other : InstrRef) :
    ((r.lock ref).get? other).isSome = (r.get? other).isSome := by
  rw [lock]
  split
  · next registry found =>
    have inside : ref.index < r.values.size := by
      unfold get? at found
      split at found
      · exact (Array.getElem?_eq_some_iff.1 found).1
      · cases found
    by_cases own : other.block = r.block
    · by_cases same : ref.index = other.index
      · simp [get?, own, ← same, inside]
      · simp [get?, own, same]
    · simp [get?, own]
  · rfl

theorem get?_locked_isSome (r : Results) (locked : List InstrRef) (ref : InstrRef) :
    ((locked.foldl lock r).get? ref).isSome = (r.get? ref).isSome := by
  induction locked generalizing r with
  | nil => rfl
  | cons own rest ih => rw [List.foldl_cons, ih, get?_lock_isSome]

theorem get?_isSome_of_evaluate {b : Block} {found : List Diagnostic} {r : Results}
    (ran : b.evaluate = (found, .ok r)) (ref : InstrRef) :
    (r.get? ref).isSome = (b.get? ref).isSome := by
  obtain ⟨-, rfl, -⟩ := run_results ran
  by_cases own : ref.block = b.id <;> simp [get?, Block.get?, resultsOf, own]

end Results

structure Bench where
  store : Store
  blocks : Array Block
  issued : List Issue

inductive Job where
  | takeBlock
  | push (home : Nat) (op : Op) (pos : Position)
  | tell (found : List Diagnostic)

namespace Bench

def start (store : Store) : Bench := ⟨store, #[], []⟩

/-- One job. Nothing is pushed where no block was taken. -/
def job (s : Bench) : Job → Bench
  | .takeBlock =>
    let (block, store) := s.store.newBlock
    { s with store, blocks := s.blocks.push block }
  | .push home op pos =>
    match s.blocks[home]? with
    | some b =>
      let (ref, larger) := b.push op pos
      { s with
        blocks := s.blocks.setIfInBounds home larger
        issued := s.issued ++ [⟨home, ref, ⟨op, pos⟩⟩] }
    | none => s
  | .tell found => { s with store := s.store.record found }

def work (s : Bench) (jobs : List Job) : Bench := jobs.foldl job s

def issuedBy (s : Bench) (home : Nat) : List Issue := s.issued.filter (·.home = home)

variable {s t : Bench}

theorem job_push {home : Nat} {b : Block} (there : s.blocks[home]? = some b) (op : Op)
    (pos : Position) : s.job (.push home op pos) =
      { s with
        blocks := s.blocks.setIfInBounds home (b.push op pos).2
        issued := s.issued ++ [⟨home, b.next, ⟨op, pos⟩⟩] } := by
  rw [job, there]
  rfl

/-- Each block has an id of its own, which the store does not give again, and every reference was
given once, by a push to the block that it names. -/
structure Kept (s : Bench) : Prop where
  once : ∀ (home other : Nat) (b c : Block), s.blocks[home]? = some b → s.blocks[other]? = some c →
    b.id = c.id → home = other
  older : ∀ (home : Nat) (b : Block), s.blocks[home]? = some b → b.id < s.store.nextBlock
  housed : ∀ i ∈ s.issued, i.home < s.blocks.size
  filled : ∀ (home : Nat) (b : Block), s.blocks[home]? = some b → s.issuedBy home = b.issues home
  apart : (s.issued.map Issue.ref).Nodup

theorem Kept.mem_issued (h : s.Kept) {i : Issue} :
    i ∈ s.issued ↔ ∃ b, s.blocks[i.home]? = some b ∧ b.get? i.ref = some i.instr := by
  constructor
  · intro given
    have own := Array.getElem?_eq_getElem (h.housed i given)
    have there : i ∈ s.issuedBy i.home := List.mem_filter.2 ⟨given, decide_eq_true rfl⟩
    rw [h.filled _ _ own] at there
    exact ⟨_, own, (Block.mem_issues.1 there).2⟩
  · rintro ⟨b, own, known⟩
    have there : i ∈ s.issuedBy i.home := by
      rw [h.filled _ _ own]
      exact Block.mem_issues.2 ⟨rfl, known⟩
    exact (List.mem_filter.1 there).1

theorem Kept.home_eq (h : s.Kept) {i : Issue} (given : i ∈ s.issued) {home : Nat} {b : Block}
    (there : s.blocks[home]? = some b) (named : i.ref.block = b.id) : home = i.home := by
  obtain ⟨c, own, known⟩ := h.mem_issued.1 given
  exact h.once home i.home b c there own
    (named.symm.trans (Block.get?_eq_some_iff.1 known).1)

theorem start_kept (store : Store) : (start store).Kept where
  once home other b c hb := by simp [start] at hb
  older home b hb := by simp [start] at hb
  housed i hi := by simp [start] at hi
  filled home b hb := by simp [start] at hb
  apart := .nil

theorem takeBlock_cases {home : Nat} {b : Block}
    (there : (s.job .takeBlock).blocks[home]? = some b) :
    s.blocks[home]? = some b ∨ home = s.blocks.size ∧ b = .new s.store.nextBlock := by
  simp only [job, Store.newBlock, Array.getElem?_push] at there
  split at there
  · next last => exact .inr ⟨last, (Option.some.inj there).symm⟩
  · exact .inl there

theorem push_cases {home place : Nat} {b c : Block} (here : s.blocks[home]? = some b) {op : Op}
    {pos : Position} (there : (s.job (.push home op pos)).blocks[place]? = some c) :
    (place = home ∧ c = (b.push op pos).2) ∨ (place ≠ home ∧ s.blocks[place]? = some c) := by
  have inside := (Array.getElem?_eq_some_iff.1 here).1
  simp only [job_push here, Array.getElem?_setIfInBounds, inside, if_true] at there
  split at there
  · next same => exact .inl ⟨same.symm, (Option.some.inj there).symm⟩
  · next other => exact .inr ⟨Ne.symm other, there⟩

theorem Kept.takeBlock (h : s.Kept) : (s.job .takeBlock).Kept where
  once home other b c hb hc same := by
    rcases takeBlock_cases hb with old | ⟨rfl, rfl⟩ <;> rcases takeBlock_cases hc with old' | ⟨rfl, rfl⟩
    · exact h.once home other b c old old' same
    · exact absurd same (Nat.ne_of_lt (h.older home b old))
    · exact absurd same.symm (Nat.ne_of_lt (h.older other c old'))
    · rfl
  older home b hb := by
    rcases takeBlock_cases hb with old | ⟨rfl, rfl⟩
    · exact Nat.lt_succ_of_lt (h.older home b old)
    · exact Nat.lt_succ_self _
  housed i given := Nat.lt_of_lt_of_le (h.housed i given) (by simp [job])
  filled home b hb := by
    rcases takeBlock_cases hb with old | ⟨rfl, rfl⟩
    · exact h.filled home b old
    · -- So far nothing can have been given by a block that is only taken now.
      rw [Block.issues_new]
      refine List.filter_eq_nil_iff.2 fun i given last => ?_
      exact Nat.ne_of_lt (h.housed i given) (of_decide_eq_true last)
  apart := h.apart

/-- What the next push gives was never given. -/
theorem Kept.next_fresh (h : s.Kept) {home : Nat} {b : Block} (here : s.blocks[home]? = some b) :
    b.next ∉ s.issued.map Issue.ref := by
  intro given
  obtain ⟨i, given, same⟩ := List.mem_map.1 given
  obtain rfl : home = i.home := h.home_eq given here (by rw [same]; rfl)
  obtain ⟨c, own, known⟩ := h.mem_issued.1 given
  obtain rfl := Option.some.inj (here.symm.trans own)
  rw [same, Block.get?_next] at known
  cases known

theorem Kept.push (h : s.Kept) {home : Nat} {b : Block} (here : s.blocks[home]? = some b) (op : Op)
    (pos : Position) : (s.job (.push home op pos)).Kept := by
  have same_id : ∀ {place : Nat} {c : Block}, (s.job (.push home op pos)).blocks[place]? = some c →
      ∃ old : Block, s.blocks[place]? = some old ∧ c.id = old.id := by
    intro place c there
    rcases push_cases here there with ⟨rfl, rfl⟩ | ⟨-, old⟩
    · exact ⟨b, here, rfl⟩
    · exact ⟨c, old, rfl⟩
  have issued : (s.job (.push home op pos)).issued = s.issued ++ [⟨home, b.next, ⟨op, pos⟩⟩] := by
    rw [job_push here]
  constructor
  · intro place other c d hc hd same
    obtain ⟨old, hold, id⟩ := same_id hc
    obtain ⟨old', hold', id'⟩ := same_id hd
    exact h.once place other old old' hold hold' (id.symm.trans (same.trans id'))
  · intro place c hc
    obtain ⟨old, hold, id⟩ := same_id hc
    rw [id, job_push here]
    exact h.older place old hold
  · intro i given
    rw [job_push here, Array.size_setIfInBounds]
    rw [issued] at given
    rcases List.mem_append.1 given with old | new
    · exact h.housed i old
    · obtain rfl := List.mem_singleton.1 new
      exact (Array.getElem?_eq_some_iff.1 here).1
  · intro place c there
    rw [issuedBy, issued, List.filter_append]
    rcases push_cases here there with ⟨rfl, rfl⟩ | ⟨away, old⟩
    · rw [Block.issues_push, ← h.filled place b here]
      simp [issuedBy]
    · rw [← h.filled place c old]
      simp [issuedBy, Ne.symm away]
  · rw [issued, List.map_append, List.map_singleton, ← List.concat_eq_append]
    exact h.apart.concat (h.next_fresh here)

theorem Kept.job (h : s.Kept) (j : Job) : (s.job j).Kept := by
  cases j with
  | takeBlock => exact h.takeBlock
  | push home op pos =>
    cases here : s.blocks[home]? with
    | some b => exact h.push here op pos
    | none =>
      rw [Bench.job, here]
      exact h
  | tell found => exact ⟨h.once, h.older, h.housed, h.filled, h.apart⟩

def Grows (s t : Bench) : Prop :=
  ∀ (home : Nat) (b : Block), s.blocks[home]? = some b →
    ∃ larger, t.blocks[home]? = some larger ∧ larger.id = b.id ∧
      b.instrs.toList <+: larger.instrs.toList

theorem Grows.refl (s : Bench) : s.Grows s := fun _ b here => ⟨b, here, rfl, List.prefix_rfl⟩

theorem Grows.trans {last : Bench} (h : s.Grows t) (h' : t.Grows last) : s.Grows last := by
  intro home b here
  obtain ⟨mid, there, id, grown⟩ := h home b here
  obtain ⟨larger, there', id', grown'⟩ := h' home mid there
  exact ⟨larger, there', id'.trans id, grown.trans grown'⟩

theorem job_grows (s : Bench) (j : Job) : s.Grows (s.job j) := by
  intro place c there
  have inside := (Array.getElem?_eq_some_iff.1 there).1
  cases j with
  | takeBlock =>
    refine ⟨c, ?_, rfl, List.prefix_rfl⟩
    simp only [job, Array.getElem?_push, if_neg (Nat.ne_of_lt inside), there]
  | push home op pos =>
    cases here : s.blocks[home]? with
    | none => exact ⟨c, by rw [job, here]; exact there, rfl, List.prefix_rfl⟩
    | some b =>
      rw [job_push here]
      by_cases same : home = place
      · subst same
        obtain rfl := Option.some.inj (here.symm.trans there)
        exact ⟨(b.push op pos).2, by simp [inside], rfl, by simp [Block.push]⟩
      · exact ⟨c, by simp [same, there], rfl, List.prefix_rfl⟩
  | tell found => exact ⟨c, there, rfl, List.prefix_rfl⟩

theorem Kept.work (h : s.Kept) (jobs : List Job) : (s.work jobs).Kept := by
  induction jobs generalizing s with
  | nil => exact h
  | cons j rest ih => exact ih (h.job j)

theorem work_grows (s : Bench) (jobs : List Job) : s.Grows (s.work jobs) := by
  induction jobs generalizing s with
  | nil => exact .refl s
  | cons j rest ih => exact (job_grows s j).trans (ih _)

theorem Kept.get?_issued (hs : s.Kept) (ht : t.Kept) (grows : s.Grows t) {i : Issue}
    (given : i ∈ s.issued) {home : Nat} {b : Block} (there : t.blocks[home]? = some b) :
    b.get? i.ref = if home = i.home then some i.instr else none := by
  obtain ⟨old, own, known⟩ := hs.mem_issued.1 given
  obtain ⟨larger, own', id, grown⟩ := grows i.home old own
  have known' : larger.get? i.ref = some i.instr := Block.get?_of_grown id grown known
  split
  · next same =>
    subst same
    obtain rfl := Option.some.inj (there.symm.trans own')
    exact known'
  · next other =>
    have given' : i ∈ t.issued := ht.mem_issued.2 ⟨larger, own', known'⟩
    rw [Option.eq_none_iff_forall_ne_some]
    intro instr here
    exact other (ht.home_eq given' there (Block.get?_eq_some_iff.1 here).1)

theorem Kept.issued_of_get? (hs : s.Kept) (ht : t.Kept) (grows : s.Grows t) {i : Issue}
    (given : i ∈ t.issued) {home : Nat} {b : Block} (here : s.blocks[home]? = some b)
    {instr : Instr} (known : b.get? i.ref = some instr) : i.home = home ∧ i ∈ s.issued := by
  obtain ⟨larger, there, id, grown⟩ := grows home b here
  have named : i.ref.block = larger.id := (Block.get?_eq_some_iff.1 known).1.trans id.symm
  obtain rfl : home = i.home := ht.home_eq given there named
  have later : larger.get? i.ref = some instr := Block.get?_of_grown id grown known
  rw [ht.get?_issued ht (.refl t) given there, if_pos rfl] at later
  exact ⟨rfl, hs.mem_issued.2 ⟨b, here, later ▸ known⟩⟩

end Bench

open Bench in
/-- Whatever blocks are taken from a store, and in whatever order they are pushed to, no two pushes
give the same reference, and a block goes through the references that it gave, and the instructions
that were pushed, in the order of the pushes. At every later moment what was given stands for its
instruction in its own block, and every other block knows nothing of it. The results of running a
block at any moment are for what had been given by this block, and for nothing that other blocks
ever give or that it gives itself later, also after fields among them have been locked. 32 bits are
enough for the numbers of a reference while the store has given fewer than 2^32 ids and no block has
as many instructions. -/
theorem issued_for_good (store : Store) (earlier later : List Job) :
    let s := (Bench.start store).work earlier
    let t := s.work later
    (t.issued.map Issue.ref).Nodup ∧
    (∀ (home : Nat) (b : Block), t.blocks[home]? = some b →
      b.refs = (t.issuedBy home).map Issue.ref ∧
      b.instrs.toList = (t.issuedBy home).map Issue.instr) ∧
    (∀ i ∈ s.issued, i.home < t.blocks.size ∧
      ∀ (home : Nat) (b : Block), t.blocks[home]? = some b →
        b.get? i.ref = if home = i.home then some i.instr else none) ∧
    (∀ (home : Nat) (b : Block) (found : List Diagnostic) (r : Results) (locked : List InstrRef),
      s.blocks[home]? = some b → b.evaluate = (found, .ok r) → ∀ i ∈ t.issued,
        (i.home = home ∧ i ∈ s.issued → ∃ value, (locked.foldl Results.lock r).Answers i.ref value) ∧
        (¬ (i.home = home ∧ i ∈ s.issued) → (locked.foldl Results.lock r).Silent i.ref)) ∧
    (t.store.nextBlock < 2 ^ 32 → (∀ b ∈ t.blocks, b.size < 2 ^ 32) →
      ∀ i ∈ t.issued, i.ref.block < 2 ^ 32 ∧ i.ref.index < 2 ^ 32) := by
  intro s t
  have hs : s.Kept := (start_kept store).work earlier
  have ht : t.Kept := hs.work later
  have grows : s.Grows t := work_grows s later
  refine ⟨ht.apart, fun home b there => ?_, fun i given => ?_, ?_, fun ids sizes i given => ?_⟩
  · rw [ht.filled home b there]
    exact ⟨b.refs_eq home, b.instrs_eq home⟩
  · obtain ⟨b, own, -⟩ := hs.mem_issued.1 given
    obtain ⟨larger, own', -⟩ := grows i.home b own
    exact ⟨(Array.getElem?_eq_some_iff.1 own').1, fun home b there =>
      hs.get?_issued ht grows given there⟩
  · intro home b found r locked here ran i given
    have known : ((locked.foldl Results.lock r).get? i.ref).isSome = (b.get? i.ref).isSome := by
      rw [Results.get?_locked_isSome, Results.get?_isSome_of_evaluate ran]
    constructor
    · rintro ⟨rfl, before⟩
      rw [hs.get?_issued hs (.refl s) before here, if_pos rfl] at known
      obtain ⟨value, there⟩ := Option.isSome_iff_exists.1 known
      exact ⟨value, Results.answers_of_get? there⟩
    · intro apart
      refine Results.silent_of_get? (Option.not_isSome_iff_eq_none.1 fun some_there => ?_)
      obtain ⟨instr, there⟩ := Option.isSome_iff_exists.1 (known ▸ some_there)
      exact apart (hs.issued_of_get? ht grows given here there)
  · obtain ⟨b, own, known⟩ := ht.mem_issued.1 given
    obtain ⟨named, there⟩ := Block.get?_eq_some_iff.1 known
    have inside : i.ref.index < b.size := by
      simpa [Block.size] using (List.getElem?_eq_some_iff.1 there).1
    exact ⟨named ▸ Nat.lt_trans (ht.older i.home b own) ids,
      Nat.lt_trans inside (sizes b (Array.mem_of_getElem? own))⟩

example (pos : Position) :
    ((Bench.start .empty).work [.takeBlock, .takeBlock, .push 1 .nsInit pos, .push 0 .void pos,
      .push 1 .void pos]).issued.map Issue.ref = [⟨1, 0⟩, ⟨0, 0⟩, ⟨1, 1⟩] := rfl

end NamespaceLang

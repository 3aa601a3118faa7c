import NamespaceLang.Proofs.Tree.Nesting

/-!
# How deep a tree gets

Only openers are counted against the nesting limit. A bracket holds up to three
chains, one in the other, and a wrapper puts a block around what stands before
it however often it comes up. So the limit bounds the brackets on a way down
from the root, and the levels in terms of the brackets and the wrapped operands
on that way; nothing bounds the number of wrapped operands.
-/

set_option autoImplicit false

namespace NamespaceLang

open OpenScope NamespaceLang.Tree

/-- The forms on a way down from a list to one of the nodes below. -/
inductive Along : List Form → List Tree → Prop
  | stop (nodes : List Tree) : Along [] nodes
  | down {pos : Position} {form : Form} {items nodes : List Tree} {path : List Form}
      (here : Tree.group pos form items ∈ nodes) (rest : Along path items) : Along (form :: path) nodes

theorem along_nil {path : List Form} (h : Along path []) : path = [] := by
  cases h with
  | stop => rfl
  | down here => cases here

theorem along_leaf {path : List Form} {pos : Position} {content : Leaf}
    (h : Along path [.leaf pos content]) : path = [] := by
  cases h with
  | stop => rfl
  | down here => simp at here

theorem along_group {path : List Form} {pos : Position} {form : Form} {items : List Tree}
    (h : Along path [.group pos form items]) :
    path = [] ∨ ∃ rest, path = form :: rest ∧ Along rest items := by
  cases h with
  | stop => exact Or.inl rfl
  | down here rest =>
    simp only [List.mem_singleton, Tree.group.injEq] at here
    obtain ⟨-, rfl, rfl⟩ := here
    exact Or.inr ⟨_, rfl, rest⟩

theorem along_mono {path : List Form} {part nodes : List Tree} (h : Along path part)
    (hp : part ⊆ nodes) : Along path nodes := by
  cases h with
  | stop => exact .stop nodes
  | down here rest => exact .down (hp here) rest

theorem along_append {path : List Form} {left right : List Tree} (h : Along path (left ++ right)) :
    Along path left ∨ Along path right := by
  cases h with
  | stop => exact Or.inl (.stop left)
  | down here rest => exact (List.mem_append.1 here).imp (.down · rest) (.down · rest)

namespace Form

def isWrapped : Form → Bool
  | .block .colonCall _ _ | .block .arrowFunction _ _ => true
  | _ => false

def isBracket : Form → Bool
  | .block tag opening closing => !(block tag opening closing).isWrapped
  | _ => false

def isLevel : Form → Bool
  | .segment => false
  | _ => true

end Form

def brackets (path : List Form) : Nat := path.countP Form.isBracket

def wraps (path : List Form) : Nat := path.countP Form.isWrapped

def levels (path : List Form) : Nat := path.countP Form.isLevel

/-- The levels that brackets and wrapped operands account for, with `around` brackets around them.
An operand that is wrapped inside a bracket can bring a chain along. -/
def accounted (around brackets wraps : Nat) : Nat :=
  if around + brackets = 0 then wraps else 4 * brackets + 2 * wraps

/-- The chains that can stand one in the other in a scope of a tier. -/
def spare (tier : Nat) : Nat :=
  if tier < TokenGroup.sep.tier then 3
  else if tier < TokenGroup.bind.tier then 2
  else if tier < TokenGroup.equals.tier then 1
  else 0

theorem spare_le (tier : Nat) : spare tier ≤ 3 := by
  unfold spare
  repeat' split
  all_goals omega

theorem spare_joiner (j : Joiner) {tier : Nat} (h : tier < j.tier) :
    spare j.tier + 1 ≤ spare tier := by
  have sep : TokenGroup.sep.tier = 1 := rfl
  have bind : TokenGroup.bind.tier = 2 := rfl
  have equals : TokenGroup.equals.tier = 4 := rfl
  have tiers : j.tier = 1 ∨ j.tier = 2 ∨ j.tier = 4 := by cases j <;> decide
  unfold spare
  rw [sep, bind, equals]
  rcases tiers with ht | ht | ht <;> rw [ht] at h ⊢ <;> repeat' split
  all_goals omega

/-- No way down from a list that stands inside `around` brackets breaks the limit, or has more than
`extra` levels beyond those accounted for. -/
def Within (around extra : Nat) (nodes : List Tree) : Prop :=
  ∀ path, Along path nodes → around + brackets path ≤ nestingLimit ∧
    levels path ≤ extra + accounted around (brackets path) (wraps path)

section

variable {around extra : Nat}

theorem Within.around_le {nodes : List Tree} (h : Within around extra nodes) :
    around ≤ nestingLimit := (h [] (.stop nodes)).1

theorem within_stop (ha : around ≤ nestingLimit) :
    around + brackets [] ≤ nestingLimit ∧
      levels [] ≤ extra + accounted around (brackets []) (wraps []) := ⟨ha, Nat.zero_le _⟩

theorem within_nil (ha : around ≤ nestingLimit) : Within around extra [] := by
  intro path h
  rw [along_nil h]
  exact within_stop ha

theorem within_leaf (ha : around ≤ nestingLimit) (pos : Position) (content : Leaf) :
    Within around extra [.leaf pos content] := by
  intro path h
  rw [along_leaf h]
  exact within_stop ha

theorem within_append {left right : List Tree} (hl : Within around extra left)
    (hr : Within around extra right) : Within around extra (left ++ right) :=
  fun path h => (along_append h).elim (hl path) (hr path)

theorem Within.part {part nodes : List Tree} (h : Within around extra nodes) (hp : part ⊆ nodes) :
    Within around extra part := fun path ha => h path (along_mono ha hp)

theorem Within.more {nodes : List Tree} (h : Within around extra nodes) {more : Nat}
    (hm : extra ≤ more) : Within around more nodes := by
  intro path ha
  obtain ⟨hb, hl⟩ := h path ha
  exact ⟨hb, Nat.le_trans hl (Nat.add_le_add_right hm _)⟩

theorem within_segment {items : List Tree} (h : Within around extra items) (fallback : Position) :
    Within around extra [segment items fallback] := by
  intro path ha
  rcases along_group ha with rfl | ⟨rest, rfl, hr⟩
  · exact within_stop h.around_le
  · exact h rest hr

theorem within_chain {items : List Tree} (h : Within around extra items) (pos : Position)
    (tag : ChainTag) (tier : Nat) :
    Within around (extra + 1) [.group pos (.chain tag tier) items] := by
  intro path ha
  rcases along_group ha with rfl | ⟨rest, rfl, hr⟩
  · exact within_stop h.around_le
  · obtain ⟨hb, hl⟩ := h rest hr
    have step : levels (.chain tag tier :: rest) = levels rest + 1 := List.countP_cons_of_pos rfl
    refine ⟨hb, ?_⟩
    rw [step, Nat.add_right_comm]
    exact Nat.add_le_add_right hl 1

theorem within_bracket {items : List Tree} (h : Within (around + 1) 3 items) (pos : Position)
    (d : Delimiter) :
    Within around 0 [.group pos (.block d.blockTag d.opening d.closing) items] := by
  intro path ha
  rcases along_group ha with rfl | ⟨rest, rfl, hr⟩
  · exact within_stop (Nat.le_of_succ_le h.around_le)
  · obtain ⟨hb, hl⟩ := h rest hr
    have bracket : brackets (.block d.blockTag d.opening d.closing :: rest) = brackets rest + 1 :=
      List.countP_cons_of_pos (by cases d <;> rfl)
    have wrapped : wraps (.block d.blockTag d.opening d.closing :: rest) = wraps rest :=
      List.countP_cons_of_neg (by cases d <;> simp [Delimiter.blockTag, Form.isWrapped])
    have level : levels (.block d.blockTag d.opening d.closing :: rest) = levels rest + 1 :=
      List.countP_cons_of_pos rfl
    rw [accounted, if_neg (by omega)] at hl
    rw [bracket, wrapped, level, accounted, if_neg (by omega)]
    omega

theorem within_wrapped {items : List Tree} (h : Within around extra items) (he : extra ≤ 1)
    (ho : around = 0 → extra = 0) (pos : Position) (w : Wrapper) (opening closing : String) :
    Within around 0 [.group pos (.block w.blockTag opening closing) items] := by
  intro path ha
  rcases along_group ha with rfl | ⟨rest, rfl, hr⟩
  · exact within_stop h.around_le
  · obtain ⟨hb, hl⟩ := h rest hr
    have bracket : brackets (.block w.blockTag opening closing :: rest) = brackets rest :=
      List.countP_cons_of_neg (by cases w <;> simp [Wrapper.blockTag, Form.isBracket, Form.isWrapped])
    have wrapped : wraps (.block w.blockTag opening closing :: rest) = wraps rest + 1 :=
      List.countP_cons_of_pos (by cases w <;> rfl)
    have level : levels (.block w.blockTag opening closing :: rest) = levels rest + 1 :=
      List.countP_cons_of_pos rfl
    refine ⟨bracket ▸ hb, ?_⟩
    rw [bracket, wrapped, level]
    unfold accounted at hl ⊢
    split at hl
    · next h0 =>
      have := ho (by omega)
      rw [if_pos h0]
      omega
    · next h0 =>
      rw [if_neg h0]
      omega

end

namespace OpenScope

def opened (scopes : List OpenScope) : Nat := scopes.countP isBlock

theorem opened_le (scopes : List OpenScope) : opened scopes ≤ scopes.length := List.countP_le_length

theorem indent_unopened {scopes : List OpenScope} (hn : Nested scopes) (ho : opened scopes = 0) :
    topIndent scopes = -1 := by
  induction scopes with
  | nil => rfl
  | cons s outer ih =>
    obtain ⟨pos, indent, kind, before⟩ := s
    rcases kind with d | c
    · simp [opened, isBlock] at ho
    · obtain ⟨⟨-, hi, -⟩, hn⟩ := hn
      have below : opened outer = 0 := by simpa [opened, isBlock] using ho
      exact hi.trans (ih hn below)

def WithinAll : List OpenScope → Prop
  | [] => True
  | s :: outer =>
    Within (opened outer) 0 s.before.toList ∧
      (∀ c, s.kind = .chain c → Within (opened outer) (spare c.tier) c.done.toList) ∧
      WithinAll outer

end OpenScope

namespace Builder

/-- The nodes are within bounds where they stand, with some levels more for the last items. -/
structure Shallow (extra : Nat) (b : Builder) : Prop where
  items : Within (opened b.scopes) extra b.items.toList
  scopes : WithinAll b.scopes

theorem empty_shallow : Builder.empty.Shallow 0 := ⟨within_nil (Nat.zero_le _), trivial⟩

theorem Shallow.frame {extra : Nat} {b later : Builder} (h : b.Shallow extra)
    (hi : later.items = b.items) (hs : later.scopes = b.scopes) : later.Shallow extra :=
  ⟨by rw [hi, hs]; exact h.items, by rw [hs]; exact h.scopes⟩

theorem Shallow.more {extra more : Nat} {b : Builder} (h : b.Shallow extra) (hm : extra ≤ more) :
    b.Shallow more := ⟨h.items.more hm, h.scopes⟩

theorem add_shallow {b : Builder} (h : b.Shallow 0) (pos : Position) (content : Leaf) :
    (b.add (.leaf pos content)).Shallow 0 where
  items := by
    simp only [add, Array.toList_push]
    exact within_append h.items (within_leaf h.items.around_le pos content)
  scopes := h.scopes

theorem fold_bracket {b : Builder} {s : OpenScope} {outer : List OpenScope} {d : Delimiter}
    (hs : b.scopes = s :: outer) (hk : s.kind = .block d) {extra : Nat} (he : extra ≤ 3)
    (h : b.Shallow extra) : (b.fold s outer).Shallow 0 := by
  obtain ⟨hbefore, -, houter⟩ := hs ▸ h.scopes
  have inside : Within (opened outer + 1) 3 b.items.toList := by
    have hi := h.items
    rw [hs, opened, List.countP_cons_of_pos (by simp [isBlock, hk])] at hi
    exact hi.more he
  refine ⟨?_, houter⟩
  simp only [fold, tree, hk, Array.toList_push]
  exact within_append hbefore (within_bracket inside s.pos d)

theorem fold_chain {b : Builder} {s : OpenScope} {outer : List OpenScope} {c : OpenChain}
    (hs : b.scopes = s :: outer) (hk : s.kind = .chain c) (hb : s.before = #[])
    (h : b.Shallow (spare c.tier)) : (b.fold s outer).Shallow (spare c.tier + 1) := by
  obtain ⟨-, hdone, houter⟩ := hs ▸ h.scopes
  have inside : Within (opened outer) (spare c.tier) b.items.toList := by
    have hi := h.items
    rwa [hs, opened, List.countP_cons_of_neg (by simp [isBlock, hk])] at hi
  refine ⟨?_, houter⟩
  simp only [fold, tree, hk, hb]
  refine within_chain ?_ _ _ _
  rw [Array.toList_push]
  exact within_append (hdone c hk) (within_segment inside _)

/-- After unwinding nothing is left to account for, unless the last fold was one of a chain. -/
theorem unwind_filled {b : Builder} (h : b.Shallow 0) (sound : b.Sound) (stays : OpenScope → Bool)
    (complaint : OpenScope → Diagnostic) :
    (b.unwind stays complaint).Shallow 0 ∨
      ∃ s c, s.kind = .chain c ∧ s.Fits (b.unwind stays complaint).scopes ∧ stays s = false ∧
        (b.unwind stays complaint).Shallow (spare c.tier + 1) := by
  refine (unwind_rule (P := fun later => Nested later.scopes ∧ (later.Shallow 0 ∨
    ∃ s c, s.kind = .chain c ∧ s.Fits later.scopes ∧ stays s = false ∧
      later.Shallow (spare c.tier + 1))) ?_ ⟨sound.nested, Or.inl h⟩).1.2
  rintro later s outer hs leaves ⟨nested, filled⟩
  rw [hs] at nested
  have full : later.Shallow (spare s.tier) := by
    rcases filled with hsh | ⟨s', c', hk', hf', -, hfill⟩
    · exact hsh.more (Nat.zero_le _)
    · rw [Fits, hk', hs] at hf'
      obtain ⟨-, -, tighter, j, hj⟩ := hf'
      rw [hj] at tighter hfill
      exact hfill.more (spare_joiner j tighter)
  refine ⟨by unfold foldOnce; split <;> exact nested.2, ?_⟩
  cases hk : s.kind with
  | block d =>
    left
    have told : (later.report (complaint s)).Shallow (spare s.tier) := full.frame rfl rfl
    unfold foldOnce
    rw [if_pos (by simp [isBlock, hk])]
    exact fold_bracket hs hk (spare_le _) told
  | chain c =>
    right
    have fits := nested.1
    have empty : s.before = #[] := by
      rw [Fits, hk] at fits
      exact fits.1
    rw [OpenScope.tier, hk] at full
    unfold foldOnce
    rw [if_neg (by simp [isBlock, hk])]
    exact ⟨s, c, hk, fits, leaves, fold_chain hs hk empty full⟩

theorem openBlock_shallow {b : Builder} (h : b.Shallow 0) (d : Delimiter) (start : Position)
    (indent : Int) : (b.openBlock d start indent).Shallow 0 := by
  unfold openBlock
  split
  · exact h.frame rfl rfl
  · next room =>
    have count : opened (⟨start, indent, .block d, b.items⟩ :: b.scopes) = opened b.scopes + 1 :=
      List.countP_cons_of_pos rfl
    have few := opened_le b.scopes
    refine ⟨within_nil ?_, h.items, (fun c hc => by cases hc), h.scopes⟩
    show opened (⟨start, indent, .block d, b.items⟩ :: b.scopes) ≤ nestingLimit
    omega

theorem close_shallow {b : Builder} (h : b.Shallow 0) (sound : b.Sound) (d : Delimiter)
    (start : Position) (indent : Nat) : (b.close d start indent).Shallow 0 := by
  have filled := unwind_filled h sound
    (fun s => s.closedBy d indent || s.holds indent d.tier) (unclosedAt start d.closing indent)
  apply close_rule (P := Shallow 0)
  · intro s outer hs closed
    obtain ⟨own, hk⟩ : ∃ own, s.kind = .block own := by
      cases hk : s.kind with
      | block own => exact ⟨own, rfl⟩
      | chain c => simp [closedBy, hk] at closed
    have folded : ((b.foldToCloser d start indent).fold s outer).Shallow 0 := by
      rcases filled with hsh | ⟨s', c', hk', hf', -, hfill⟩
      · exact fold_bracket hs hk (Nat.zero_le _) hsh
      · rw [Fits, hk'] at hf'
        obtain ⟨-, -, tighter, j, hj⟩ := hf'
        rw [hj] at tighter hfill
        exact fold_bracket hs hk (Nat.le_trans (spare_joiner j tighter) (spare_le _)) hfill
    exact folded.frame rfl rfl
  · intro extra
    rcases filled with hsh | ⟨s', c', hk', hf', leaves, -⟩
    · exact hsh.frame rfl rfl
    · exfalso
      rw [Fits, hk'] at hf'
      obtain ⟨-, at_top, -, j, hj⟩ := hf'
      simp only [Bool.or_eq_false_iff, holds, OpenScope.tier, hk', decide_eq_false_iff_not] at leaves
      have bracket : d.tier = 0 := by
        have := j.tier_le
        cases d with
        | quote =>
          have : Delimiter.quote.tier = 5 := rfl
          omega
        | round | square | curly => rfl
      cases hsc : (b.foldToCloser d start indent).scopes with
      | nil =>
        have : s'.indent = -1 := at_top.trans (congrArg topIndent hsc)
        omega
      | cons t outer =>
        have stays := unwind_head b t outer hsc
        have open_ := extra t (by rw [hsc]; rfl)
        have : s'.indent = t.indent := at_top.trans (congrArg topIndent hsc)
        simp [open_, holds, bracket] at stays
        omega

theorem wrap_shallow {b : Builder} (h : b.Shallow 0) (sound : b.Sound) (w : Wrapper)
    (start : Position) (indent : Nat) : (b.wrap w start indent).Shallow 0 := by
  have wrapped : ∀ (later : Builder) (extra : Nat), later.Shallow extra → extra ≤ 1 →
      (opened later.scopes = 0 → extra = 0) → (later.wrapItems w start).Shallow 0 := by
    intro later extra hl he ho
    refine ⟨?_, hl.scopes⟩
    simp only [wrapItems, Array.toList_push]
    apply within_append
    · intro path hp
      cases hp with
      | stop => exact within_stop hl.items.around_le
      | down here rest =>
        have blank := List.all_eq_true.1 (List.all_takeWhile (l := later.items.toList)) _ here
        cases blank
    · have part : trimStart later.items.toList ⊆ later.items.toList :=
        (List.dropWhile_sublist _).subset
      exact within_wrapped (hl.items.part part) he ho _ w _ _
  have filled := unwind_filled h sound (·.holds indent w.tier) (unclosedAt start w.spelling indent)
  rcases filled with hsh | ⟨s, c, hk, hf, leaves, hfill⟩
  · exact wrapped _ 0 hsh (Nat.zero_le _) fun _ => rfl
  · have nested := (sound.unwind (·.holds indent w.tier) (unclosedAt start w.spelling indent)).nested
    rw [Fits, hk] at hf
    obtain ⟨-, at_top, -, j, hj⟩ := hf
    simp only [holds, OpenScope.tier, hk, Bool.or_eq_false_iff, decide_eq_false_iff_not] at leaves
    have last : spare c.tier + 1 = 1 := by
      rw [hj, show w.tier = 3 from rfl] at leaves
      rw [hj]
      cases j <;> first | rfl | exact absurd leaves.2 (by decide)
    rw [last] at hfill
    refine wrapped _ 1 hfill (Nat.le_refl 1) fun outside => ?_
    have := indent_unopened nested outside
    omega

theorem extend_within {around extra : Nat} {c : OpenChain} {items : List Tree}
    (hd : Within around extra c.done.toList) (hi : Within around extra items) (j : Joiner)
    (start next : Position) : Within around extra (c.extend items j start next).done.toList := by
  simp only [OpenChain.extend]
  rw [Array.toList_push, Array.toList_push]
  exact within_append (within_append hd (within_segment hi _)) (within_leaf hd.around_le _ _)

theorem startChain_shallow {b : Builder} {j : Joiner} (h : b.Shallow (spare j.tier))
    (start next : Position) : (b.startChain j start next).Shallow 0 := by
  have same : opened (b.startChain j start next).scopes = opened b.scopes :=
    List.countP_cons_of_neg (by simp [isBlock])
  have room := h.items.around_le
  refine ⟨within_nil (same ▸ room), within_nil room, ?_, h.scopes⟩
  rintro c hc
  cases hc
  exact extend_within (within_nil room) h.items j start next

theorem extendChain_shallow {b : Builder} {s : OpenScope} {c : OpenChain} {outer : List OpenScope}
    {j : Joiner} (h : b.Shallow (spare j.tier)) (hs : b.scopes = s :: outer)
    (hk : s.kind = .chain c) (ht : c.tier = j.tier) (start next : Position) :
    (b.extendChain s c outer j start next).Shallow 0 := by
  obtain ⟨hbefore, hdone, houter⟩ := hs ▸ h.scopes
  have same : opened b.scopes = opened outer := by
    rw [hs]
    exact List.countP_cons_of_neg (by simp [isBlock, hk])
  have inside : Within (opened outer) (spare c.tier) b.items.toList := by
    rw [← same, ht]
    exact h.items
  have extended := extend_within (hdone c hk) inside j start next
  have all : WithinAll ({ s with kind := .chain (c.extend b.items.toList j start next) } :: outer) :=
    ⟨hbefore, fun c' hc' => by cases hc'; exact extended, houter⟩
  have none_left : Within (opened ({ s with kind := .chain (c.extend b.items.toList j start next) } ::
      outer)) 0 [] := by
    apply within_nil
    rw [opened, List.countP_cons_of_neg (by simp [isBlock]), ← opened, ← same]
    exact h.items.around_le
  unfold extendChain
  split
  · exact ⟨none_left, all⟩
  · exact ⟨none_left, all⟩

theorem join_shallow {b : Builder} (h : b.Shallow 0) (sound : b.Sound) (j : Joiner)
    (start next : Position) : (b.join j start next).Shallow 0 := by
  have filled : (b.foldTighter j start).Shallow (spare j.tier) := by
    rcases unwind_filled h sound (·.tier ≤ j.tier)
      (fun s => (Diagnostic.error s.pos .neverClosed).withNote start .closedHere)
      with hsh | ⟨s, c, hk, hf, leaves, hfill⟩
    · exact hsh.more (Nat.zero_le _)
    · rw [Fits, hk] at hf
      obtain ⟨-, -, -, k, hck⟩ := hf
      have tighter : j.tier < k.tier := by simpa [OpenScope.tier, hk, hck] using leaves
      rw [hck] at hfill
      exact hfill.more (spare_joiner k tighter)
  apply join_rule (P := Shallow 0)
  · exact fun _ => startChain_shallow filled start next
  · intro s c outer hs hk ht
    exact extendChain_shallow filled hs hk ht start next

theorem place_shallow {b : Builder} {l : Lexeme} {start : Position} {after : Cursor}
    (hl : l.occursIn b.mode) (sound : b.Sound) (h : b.Shallow 0) :
    (b.place l start after).Shallow 0 := by
  apply place_rule (P := Shallow 0) hl
  · exact fun _ _ => add_shallow h _ _
  · exact fun _ => add_shallow h _ _
  · exact fun _ _ => add_shallow (b := b.report _) (h.frame rfl rfl) _ _
  · exact fun _ _ => add_shallow (b := b.report _) (h.frame rfl rfl) _ _
  · exact fun d _ => openBlock_shallow h d _ _
  · exact fun d _ _ => close_shallow h sound d _ _
  · exact fun _ => close_shallow h sound .quote _ _
  · exact fun w _ => wrap_shallow h sound w _ _
  · exact fun j _ => join_shallow h sound j _ _

theorem finish_within {b : Builder} (h : b.Shallow 0) (sound : b.Sound) (stop : Position) :
    Within 0 3 (b.finish stop).items.toList := by
  have outside : opened (b.finish stop).scopes = 0 := by
    rw [finish_scopes]
    rfl
  have filled : (b.finish stop).Shallow 3 := by
    rcases unwind_filled h sound (fun _ => false)
      (fun s => (Diagnostic.error s.pos .unclosedBracket).withNote stop .endOfInput)
      with hsh | ⟨s, c, hk, hf, -, hfill⟩
    · exact hsh.more (Nat.zero_le _)
    · rw [Fits, hk] at hf
      obtain ⟨-, -, tighter, j, hj⟩ := hf
      rw [hj] at tighter hfill
      exact hfill.more (Nat.le_trans (spare_joiner j tighter) (spare_le _))
  exact outside ▸ filled.items

end Builder

/-- The limit holds for the brackets on every way down from the root, and these and the wrapped
operands on it account for all levels but three. -/
theorem tokenize_within (file : String) (text : List Char) :
    Within 0 3 (tokenize file text).nodes := by
  obtain ⟨b, c, read, -, nodes, -⟩ := tokenize_reading file text
  have kept : b.Sound ∧ b.Shallow 0 :=
    reading_invariant (P := fun b => b.Sound ∧ b.Shallow 0)
      ⟨Builder.empty_sound, Builder.empty_shallow⟩
      (fun _ _ _ _ hl _ h => ⟨Builder.place_sound hl h.1, Builder.place_shallow hl h.1 h.2⟩) read
  rw [nodes]
  exact Builder.finish_within kept.2 kept.1 _

end NamespaceLang

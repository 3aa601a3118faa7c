import NamespaceLang.Proofs.Tree.Nesting
import NamespaceLang.Proofs.Tree.Resuming
import NamespaceLang.Proofs.Tree.Splitting

/-!
# The builder refines the reference parser

The scopes that are open while a text is read are, body by body, the splits of
the pieces read so far. A lexeme that nothing is told about takes the scopes
and the rest of the reference parser's work one step further. So a text whose
brackets are all in order, and which wraps nothing, has the tree that the
reference parser gives.
-/

set_option autoImplicit false

namespace NamespaceLang

open OpenScope

def Cause.ofBrackets : Cause → Bool
  | .unclosedBracket | .extraCloser | .nestingTooDeep => true
  | _ => false

/-- Nothing is told about the brackets. -/
def Balanced (ds : List Diagnostic) : Prop :=
  ∀ d ∈ ds, ∀ e ∈ d.entries.head?, e.cause.ofBrackets = false

theorem balanced_nil : Balanced [] := fun _ hm => by cases hm

theorem Balanced.before {earlier later : List Diagnostic} (h : Balanced later)
    (hp : earlier <+: later) : Balanced earlier := fun d hd => h d (hp.subset hd)

theorem not_balanced_report {b : Builder} {d : Diagnostic} {e : Entry} (h : d.entries.head? = some e)
    (he : e.cause.ofBrackets = true) : ¬ Balanced (b.report d).diagnostics := by
  intro hb
  have := hb d (by simp [Builder.report]) e h
  rw [he] at this
  cases this

theorem joinTiers_sorted : joinTiers.Pairwise (· < ·) := by decide

theorem tier_mem_joinTiers (j : Joiner) : j.tier ∈ joinTiers := by
  cases j <;> decide

namespace OpenScope

/-- Scopes that are chains and nothing else. -/
def Bare (chains : List OpenScope) : Prop :=
  ∀ s ∈ chains, (∃ c, s.kind = .chain c) ∧ s.before = #[]

theorem bare_of_nested {inner base : List OpenScope} (hn : Nested (inner ++ base))
    (hc : ∀ s ∈ inner, ∃ c, s.kind = .chain c) : ∀ s ∈ inner, s.before = #[] := by
  induction inner with
  | nil => simp
  | cons s rest ih =>
    obtain ⟨hf, hn⟩ := hn
    obtain ⟨c, hk⟩ := hc s List.mem_cons_self
    rw [Fits, hk] at hf
    exact List.forall_mem_cons.2 ⟨hf.1, ih hn fun t ht => hc t (List.mem_cons_of_mem s ht)⟩

theorem bare_of_holds {pieces : List Piece} {chains base : List OpenScope} {items : List Tree}
    (h : Holds joinTiers pieces chains items) (hn : Nested (chains.reverse ++ base)) : Bare chains := by
  have kinds : ∀ s ∈ chains.reverse, ∃ c, s.kind = ScopeKind.chain c :=
    fun s hs => (h.chain s (List.mem_reverse.1 hs)).1
  exact fun s hs => ⟨(h.chain s hs).1, bare_of_nested hn kinds s (List.mem_reverse.2 hs)⟩

theorem Bare.reverse {chains : List OpenScope} (h : Bare chains) : Bare chains.reverse :=
  fun s hs => h s (List.mem_reverse.1 hs)

theorem Bare.tail {s : OpenScope} {rest : List OpenScope} (h : Bare (s :: rest)) : Bare rest :=
  fun t ht => h t (List.mem_cons_of_mem s ht)

end OpenScope

namespace Builder

def folded (b : Builder) (chains base : List OpenScope) : Builder :=
  { b with items := (foldChains chains b.items.toList).toArray, scopes := base }

theorem folded_nil (b : Builder) : b.folded [] b.scopes = b := by
  simp [folded, foldChains]

theorem foldOnce_chain (complaint : OpenScope → Diagnostic) {b : Builder} {s : OpenScope} {outer : List OpenScope}
    (hc : ∃ c, s.kind = .chain c) (hb : s.before = #[]) :
    b.foldOnce complaint s outer = b.folded [s] outer := by
  obtain ⟨c, hk⟩ := hc
  unfold foldOnce
  rw [if_neg (by simp [isBlock, hk])]
  simp [fold, folded, foldChains, hb]

theorem folded_folded (b : Builder) (outer : List OpenScope) (s : OpenScope)
    (mid base : List OpenScope) :
    (b.folded [s] mid).folded outer base = b.folded (outer ++ [s]) base := by
  simp [folded, foldChains_append, foldChains]

theorem unwind_bare (stays : OpenScope → Bool) (complaint : OpenScope → Diagnostic) {b : Builder}
    {inner base : List OpenScope} (hs : b.scopes = inner ++ base) (hc : Bare inner)
    (leaves : ∀ s ∈ inner, stays s = false) :
    b.unwind stays complaint = (b.folded inner.reverse base).unwind stays complaint := by
  induction inner generalizing b with
  | nil =>
    rw [List.nil_append] at hs
    rw [List.reverse_nil, ← hs, folded_nil]
  | cons s rest ih =>
    have first := hc s List.mem_cons_self
    rw [unwind_folds stays complaint b s _ hs (leaves s List.mem_cons_self),
      foldOnce_chain complaint first.1 first.2, ih rfl hc.tail fun t ht => leaves t (List.mem_cons_of_mem s ht),
      folded_folded, List.reverse_cons]

theorem foldTighter_bare {b : Builder} {outer inner base : List OpenScope} {j : Joiner}
    (hs : b.scopes = (outer ++ inner).reverse ++ base) (hc : Bare (outer ++ inner))
    (tighter : ∀ s ∈ inner, j.tier < s.tier) (top : topTier (outer.reverse ++ base) ≤ j.tier)
    (start : Position) : b.foldTighter j start = b.folded inner (outer.reverse ++ base) := by
  rw [List.reverse_append, List.append_assoc] at hs
  have bare : Bare inner := fun s hm => hc s (List.mem_append_right outer hm)
  have leaves : ∀ s ∈ inner.reverse, decide (s.tier ≤ j.tier) = false := by
    intro s hm
    have := tighter s (List.mem_reverse.1 hm)
    exact decide_eq_false (by omega)
  rw [foldTighter, unwind_bare _ _ hs bare.reverse leaves, List.reverse_reverse]
  cases ho : outer.reverse ++ base with
  | nil => exact unwind_nil _ rfl
  | cons s rest =>
    rw [ho] at top
    exact unwind_stays _ s rest rfl (decide_eq_true top)

def LeavesChains (b : Builder) (P : List OpenScope → Prop) (base : List OpenScope)
    (later : Builder) : Prop :=
  ∃ chains, P chains ∧ later.scopes = chains.reverse ++ base ∧ later.items = #[] ∧
    later.mode = b.mode ∧ later.stopped = b.stopped

theorem join_begins {b : Builder} {outer inner base : List OpenScope} {op : Operator}
    {P : List OpenScope → Prop} (hs : b.scopes = (outer ++ inner).reverse ++ base)
    (hc : Bare (outer ++ inner)) (tighter : ∀ s ∈ inner, op.joiner.tier < s.tier)
    (top : topTier (outer.reverse ++ base) < op.joiner.tier)
    (later : ∀ s : OpenScope, s.kind = .chain (begun op (foldChains inner b.items.toList)) →
      P (outer ++ [s])) :
    LeavesChains b P base (b.join op.joiner op.start op.next) := by
  have hf := foldTighter_bare hs hc tighter (Nat.le_of_lt top) op.start
  apply join_rule (P := LeavesChains b P base)
  · intro _
    rw [hf]
    exact ⟨_, later ⟨op.start, (b.folded inner (outer.reverse ++ base)).indent,
      .chain (begun op (foldChains inner b.items.toList)), #[]⟩ rfl,
      by simp [startChain, folded, begun], rfl, rfl, rfl⟩
  · intro s c rest hsc hk ht
    rw [hf] at hsc
    have : topTier (outer.reverse ++ base) = op.joiner.tier :=
      (congrArg topTier hsc).trans ((tier_chain hk).trans ht)
    omega

theorem join_goesOn {b : Builder} {outer inner base : List OpenScope} {s : OpenScope}
    {c : OpenChain} {op : Operator} {P : List OpenScope → Prop}
    (hs : b.scopes = (outer ++ s :: inner).reverse ++ base) (hc : Bare (outer ++ s :: inner))
    (tighter : ∀ s ∈ inner, op.joiner.tier < s.tier) (kind : s.kind = .chain c)
    (tier : c.tier = op.joiner.tier)
    (later : ∀ s : OpenScope, s.kind = .chain
        (c.extend (foldChains inner b.items.toList) op.joiner op.start op.next) → P (outer ++ [s])) :
    LeavesChains b P base (b.join op.joiner op.start op.next) := by
  have same : outer ++ s :: inner = outer ++ [s] ++ inner := by simp
  have stack : (outer ++ [s]).reverse ++ base = s :: (outer.reverse ++ base) := by simp
  have top : topTier ((outer ++ [s]).reverse ++ base) = op.joiner.tier := by
    rw [stack]
    exact (tier_chain kind).trans tier
  rw [same] at hs hc
  have hf := foldTighter_bare hs hc tighter (Nat.le_of_eq top) op.start
  rw [stack] at hf top
  apply join_rule (P := LeavesChains b P base)
  · intro ht
    rw [hf] at ht
    have : topTier (s :: (outer.reverse ++ base)) < op.joiner.tier := ht
    omega
  · intro s' c' rest hsc hk _
    rw [hf] at hsc ⊢
    cases hsc
    obtain rfl : c = c' := by
      rw [kind] at hk
      cases hk
      rfl
    have next := later { s with
      kind := .chain (c.extend (foldChains inner b.items.toList) op.joiner op.start op.next) } rfl
    unfold extendChain
    split
    · exact ⟨_, next, by simp [folded], rfl, rfl, rfl⟩
    · exact ⟨_, next, by simp [folded, report], rfl, rfl, rfl⟩

theorem join_joins {b : Builder} {chains base : List OpenScope} {op : Operator}
    {P : List OpenScope → Prop} (hs : b.scopes = chains.reverse ++ base) (hc : Bare chains)
    (loose : topTier base = 0) (h : Joins op b.items.toList chains P) :
    LeavesChains b P base (b.join op.joiner op.start op.next) := by
  have positive := op.joiner.tier_pos
  cases h with
  | begins outer inner tighter looser later =>
    have top : topTier (outer.reverse ++ base) < op.joiner.tier := by
      cases ho : outer.reverse with
      | nil => rwa [List.nil_append, loose]
      | cons s rest => exact looser s (List.mem_reverse.1 (ho ▸ List.mem_cons_self))
    exact join_begins hs hc tighter top later
  | goesOn outer inner tighter kind tier later => exact join_goesOn hs hc tighter kind tier later

def closeTop (b : Builder) (d : Delimiter) (start : Position) (indent : Int) : Builder :=
  match b.scopes with
  | s :: outer =>
    if s.closedBy d indent then (b.fold s outer).enter d.closingMode?
    else b.report (.error start .extraCloser)
  | [] => b.report (.error start .extraCloser)

theorem close_eq (b : Builder) (d : Delimiter) (start : Position) (indent : Int) :
    b.close d start indent = (b.foldToCloser d start indent).closeTop d start indent := rfl

theorem closeTop_diagnostics (b : Builder) (d : Delimiter) (start : Position) (indent : Int) :
    b.diagnostics <+: (b.closeTop d start indent).diagnostics := by
  unfold closeTop
  split
  · split
    · exact List.prefix_refl _
    · exact report_diagnostics b _
  · exact report_diagnostics b _

theorem closeTop_balanced {b : Builder} {d : Delimiter} {start : Position} {indent : Int}
    (h : Balanced (b.closeTop d start indent).diagnostics) :
    ∃ s outer, b.scopes = s :: outer ∧ s.closedBy d indent = true := by
  unfold closeTop at h
  split at h
  · next s outer hs =>
    split at h
    · next hc => exact ⟨s, outer, hs, hc⟩
    · exact absurd h (not_balanced_report rfl rfl)
  · exact absurd h (not_balanced_report rfl rfl)

theorem foldOnce_block {b : Builder} {s : OpenScope} {outer : List OpenScope}
    {complaint : OpenScope → Diagnostic} (hb : s.isBlock = true) :
    (b.foldOnce complaint s outer).diagnostics = (b.report (complaint s)).diagnostics := by
  unfold foldOnce
  rw [if_pos hb]
  rfl

theorem foldToCloser_bare {b : Builder} {inner base : List OpenScope} {d : Delimiter}
    {start : Position} {indent : Int} (hs : b.scopes = inner ++ base) (hc : Bare inner)
    (h : Balanced (b.close d start indent).diagnostics) :
    b.foldToCloser d start indent = (b.folded inner.reverse base).foldToCloser d start indent := by
  induction inner generalizing b with
  | nil =>
    rw [List.nil_append] at hs
    rw [List.reverse_nil, ← hs, folded_nil]
  | cons s rest ih =>
    obtain ⟨⟨c, hk⟩, empty⟩ := hc s List.mem_cons_self
    have chain : s.closedBy d indent = false := by simp [closedBy, hk]
    cases hst : s.closedBy d indent || s.holds indent d.tier with
    | true =>
      have stays : b.foldToCloser d start indent = b := unwind_stays b s _ hs hst
      rw [close_eq, stays] at h
      obtain ⟨s', outer, hs', closed⟩ := closeTop_balanced h
      rw [hs] at hs'
      cases hs'
      rw [chain] at closed
      cases closed
    | false =>
      have step : b.foldToCloser d start indent =
          (b.folded [s] (rest ++ base)).foldToCloser d start indent := by
        rw [foldToCloser, unwind_folds _ _ b s _ hs hst, foldOnce_chain _ ⟨c, hk⟩ empty]
        rfl
      rw [close_eq, step, ← close_eq] at h
      rw [step, ih rfl hc.tail h, folded_folded, List.reverse_cons]

theorem close_balanced {b : Builder} {chains base : List OpenScope} {d : Delimiter} {start : Position}
    {indent : Int} (hs : b.scopes = chains.reverse ++ base) (hc : Bare chains)
    (hb : ∀ s ∈ base.head?, s.isBlock = true)
    (h : Balanced (b.close d start indent).diagnostics) :
    ∃ s outer, base = s :: outer ∧ s.closedBy d indent = true ∧
      b.close d start indent = ((b.folded chains base).fold s outer).enter d.closingMode? := by
  have folds := foldToCloser_bare hs hc.reverse h
  rw [List.reverse_reverse] at folds
  rw [close_eq, folds] at h ⊢
  cases base with
  | nil =>
    rw [foldToCloser, unwind_nil _ rfl] at h
    obtain ⟨s, outer, hs', -⟩ := closeTop_balanced h
    cases hs'
  | cons s outer =>
    cases hst : s.closedBy d indent || s.holds indent d.tier with
    | true =>
      have stays : (b.folded chains (s :: outer)).foldToCloser d start indent =
          b.folded chains (s :: outer) := unwind_stays _ s outer rfl hst
      rw [stays] at h ⊢
      obtain ⟨s', outer', hs', closed⟩ := closeTop_balanced h
      cases hs'
      exact ⟨s, outer, rfl, closed, if_pos closed⟩
    | false =>
      rw [foldToCloser, unwind_folds _ _ _ s outer rfl hst] at h
      have told := h.before ((unwind_diagnostics _).trans (closeTop_diagnostics _ _ _ _))
      rw [foldOnce_block (hb s rfl)] at told
      exact absurd told (not_balanced_report rfl rfl)

theorem finish_balanced {b : Builder} {chains base : List OpenScope} {stop : Position}
    (hs : b.scopes = chains.reverse ++ base) (hc : Bare chains)
    (hb : ∀ s ∈ base.head?, s.isBlock = true) (h : Balanced (b.finish stop).diagnostics) :
    base = [] ∧ (b.finish stop).items.toList = foldChains chains b.items.toList := by
  have folds := unwind_bare (fun _ => false)
    (fun s => (Diagnostic.error s.pos .unclosedBracket).withNote stop .endOfInput) hs hc.reverse
    fun _ _ => rfl
  rw [List.reverse_reverse] at folds
  rw [finish, folds] at h ⊢
  cases base with
  | nil =>
    rw [unwind_nil _ rfl]
    exact ⟨rfl, rfl⟩
  | cons s outer =>
    rw [unwind_folds _ _ _ s outer rfl rfl] at h
    have told := h.before (unwind_diagnostics _)
    rw [foldOnce_block (hb s rfl)] at told
    exact absurd told (not_balanced_report rfl rfl)

end Builder

/-- The brackets around a body are open, and what stands before each is grouped as far as it goes. -/
def StandsAround : List Around → List OpenScope → Prop
  | [], base => base = []
  | a :: outer, base =>
    ∃ s chains rest, base = s :: (chains.reverse ++ rest) ∧ s.kind = .block a.delimiter ∧
      s.pos = a.start ∧ s.indent = a.indent ∧ Holds joinTiers a.before chains s.before.toList ∧
      StandsAround outer rest

theorem StandsAround.block {around : List Around} {base : List OpenScope}
    (h : StandsAround around base) : ∀ s ∈ base.head?, s.isBlock = true := by
  cases around with
  | nil =>
    obtain rfl : base = [] := h
    simp
  | cons a outer =>
    obtain ⟨s, chains, rest, rfl, hk, -⟩ := h
    simp [isBlock, hk]

/-- What the builder has is what the reference parser has read in the bodies that are open. -/
structure Agree (around : List Around) (pieces : List Piece) (b : Builder) : Prop where
  sound : b.Sound
  fresh : freshAfter pieces = b.items.toList.all Tree.isBlank
  stands : ∃ chains base, b.scopes = chains.reverse ++ base ∧
    Holds joinTiers pieces chains b.items.toList ∧ StandsAround around base

theorem agree_empty : Agree [] [] .empty :=
  ⟨Builder.empty_sound, rfl, [], [], rfl, holds_nil _, rfl⟩

section

variable {around : List Around} {pieces : List Piece} {b : Builder}

theorem Agree.add (h : Agree around pieces b) (node : Tree) {later : Builder}
    (hi : later.items = b.items.push node) (hm : later.mode = b.mode) (hs : later.scopes = b.scopes) :
    Agree around (pieces ++ [.item node]) later where
  sound := h.sound.frame hm (hs ▸ List.suffix_refl _)
  fresh := by
    rw [freshAfter_snoc, h.fresh, hi, Array.toList_push, List.all_append]
    simp [Piece.fresh]
  stands := by
    obtain ⟨chains, base, hsc, hh, ha⟩ := h.stands
    refine ⟨chains, base, hs ▸ hsc, ?_, ha⟩
    rw [hi, Array.toList_push]
    exact hh.snoc_item node

theorem StandsAround.loose {base : List OpenScope} (h : StandsAround around base)
    (plain : ∀ s ∈ base, s.isString = false) : topTier base = 0 := by
  cases around with
  | nil =>
    obtain rfl : base = [] := h
    rfl
  | cons a outer =>
    obtain ⟨s, chains, rest, rfl, hk, -⟩ := h
    have := plain s List.mem_cons_self
    show s.tier = 0
    rw [isString, hk] at this
    rw [OpenScope.tier, hk]
    cases hd : a.delimiter with
    | quote =>
      rw [hd] at this
      cases this
    | round | square | curly => rfl

theorem Agree.join (h : Agree around pieces b) (hr : b.mode = .regular) (op : Operator) :
    Agree around (pieces ++ [.operator op]) (b.join op.joiner op.start op.next) ∧
      (b.join op.joiner op.start op.next).mode = .regular ∧
      (b.join op.joiner op.start op.next).stopped = b.stopped := by
  obtain ⟨chains, base, hs, hh, ha⟩ := h.stands
  have bare := bare_of_holds hh (hs ▸ h.sound.nested)
  have loose : topTier base = 0 := by
    apply ha.loose
    intro s hm
    exact h.sound.plain hr s (hs ▸ List.mem_append_right _ hm)
  have joins := hh.snoc_operator joinTiers_sorted op (tier_mem_joinTiers op.joiner)
  obtain ⟨later, hl, hsc, hi, hm, ht⟩ := Builder.join_joins hs bare loose joins
  refine ⟨⟨Builder.join_sound h.sound hr _ _ _, ?_, later, base, hsc, ?_, ha⟩, hm.trans hr, ht⟩
  · rw [freshAfter_snoc, hi]
    rfl
  · rw [hi]
    exact hl

theorem Agree.open (h : Agree around pieces b) (hr : b.mode = .regular) (d : Delimiter)
    (start : Position) (indent : Int)
    (hb : Balanced (b.openBlock d start indent).diagnostics) :
    Agree (⟨pieces, d, start, indent⟩ :: around) [] (b.openBlock d start indent) ∧
      (b.openBlock d start indent).mode = d.openingMode?.getD b.mode ∧
      (b.openBlock d start indent).stopped = b.stopped := by
  have sound := Builder.openBlock_sound h.sound hr d start indent
  obtain ⟨chains, base, hs, hh, ha⟩ := h.stands
  unfold Builder.openBlock at sound hb ⊢
  split at sound
  · next deep =>
    rw [if_pos deep] at hb
    exact absurd hb (not_balanced_report rfl rfl)
  · next room =>
    rw [if_neg room]
    refine ⟨⟨sound, rfl, [], _, rfl, holds_nil _, ⟨start, indent, .block d, b.items⟩, chains, base, ?_,
      rfl, rfl, rfl, hh, ha⟩, rfl, rfl⟩
    exact congrArg _ hs

theorem Agree.close (h : Agree around pieces b) (d : Delimiter) (start : Position) (indent : Int)
    (hb : Balanced (b.close d start indent).diagnostics) :
    ∃ a outer, around = a :: outer ∧ a.delimiter = d ∧ a.indent = indent ∧
      Agree outer (a.before ++ [a.block pieces]) (b.close d start indent) ∧
      (b.close d start indent).mode = d.closingMode?.getD b.mode ∧
      (b.close d start indent).stopped = b.stopped := by
  obtain ⟨chains, base, hs, hh, ha⟩ := h.stands
  have bare := bare_of_holds hh (hs ▸ h.sound.nested)
  obtain ⟨s, outer, rfl, closed, he⟩ := Builder.close_balanced hs bare ha.block hb
  cases around with
  | nil => cases ha
  | cons a around =>
    obtain ⟨s', chains', rest, hsc, hk, hp, hi, hbefore, hout⟩ := ha
    cases hsc
    simp only [closedBy, hk, Bool.and_eq_true, beq_iff_eq] at closed
    have sound := Builder.close_sound h.sound d start indent
    have node : s.tree (foldChains chains b.items.toList) =
        .group a.start (.block a.delimiter.blockTag a.delimiter.opening a.delimiter.closing)
          (group joinTiers pieces) := by
      rw [OpenScope.tree, hk, hh.folds, hp]
    refine ⟨a, around, rfl, closed.1, hi.symm.trans closed.2, ?_, ?_, ?_⟩
    · rw [he] at sound ⊢
      refine ⟨sound, ?_, chains', rest, rfl, ?_, hout⟩
      · rw [freshAfter_snoc]
        simp [Around.block, Piece.fresh, Tree.isBlank, Builder.enter, Builder.fold, Builder.folded, node]
      · have snoc := hbefore.snoc_item (s.tree (foldChains chains b.items.toList))
        simp only [Builder.enter, Builder.fold, Builder.folded, Array.toList_push]
        rw [node] at snoc
        simpa [node, Around.block] using snoc
    · rw [he]
      rfl
    · rw [he]
      rfl

end

theorem endsBody_eq (next? : Option Char) (fresh : Bool) (b : Builder)
    (h : fresh = b.items.toList.all Tree.isBlank) :
    b.isSoft next? = (fresh || endsBody next?) := by
  unfold Builder.isSoft
  rw [← h]
  cases next? with
  | none => rfl
  | some c =>
    congr 1
    by_cases hc : c = ')' ∨ c = ']' ∨ c = '\x7d'
    · rcases hc with rfl | rfl | rfl <;> decide
    · have other : endsBody (some c) = false := by
        simp only [not_or] at hc
        simp [endsBody, hc]
      rw [other]
      dsimp only
      split
      · next d hd =>
        exfalso
        apply hc
        have spelled := congrArg String.toList (Punctuator.spelling_of_ofSpelling? hd)
        cases d <;> simp [Punctuator.spelling, Delimiter.closingSpelling, Delimiter.closing,
          inStringMark] at spelled <;> simp [← spelled]
      · rfl

def Advances (around : List Around) (pieces : List Piece) (b : Builder) (t : Token) : Prop :=
  ∃ around' pieces', Agree around' pieces' (b.place t.lexeme t.start t.after) ∧
    (b.place t.lexeme t.start t.after).mode = t.lexeme.modeAfter b.mode ∧
    (b.place t.lexeme t.start t.after).stopped = false ∧
    ∀ rest, resume around pieces (t :: rest) = resume around' pieces' rest

section

variable {around : List Around} {pieces : List Piece} {b : Builder} {t : Token}

theorem Agree.operator (h : Agree around pieces b) (going : b.stopped = false)
    (hr : b.mode = .regular) (op : Operator)
    (hp : t.piece? (freshAfter pieces) = some (.operator op))
    (he : b.place t.lexeme t.start t.after = b.join op.joiner op.start op.next)
    (hm : t.lexeme.modeAfter b.mode = b.mode) : Advances around pieces b t := by
  obtain ⟨agree, mode, stopped⟩ := h.join hr op
  rw [Advances, he, hm, hr]
  exact ⟨around, _, agree, mode, stopped.trans going, fun _ => resume_piece hp⟩

theorem Agree.item (h : Agree around pieces b) (going : b.stopped = false) (node : Tree)
    (hp : t.piece? (freshAfter pieces) = some (.item node))
    (hi : (b.place t.lexeme t.start t.after).items = b.items.push node)
    (hm : (b.place t.lexeme t.start t.after).mode = b.mode)
    (hs : (b.place t.lexeme t.start t.after).scopes = b.scopes)
    (ht : (b.place t.lexeme t.start t.after).stopped = b.stopped)
    (hmode : t.lexeme.modeAfter b.mode = b.mode) : Advances around pieces b t :=
  ⟨around, _, h.add node hi hm hs, hm.trans hmode.symm, ht.trans going,
    fun _ => resume_piece hp⟩

end

/-- A lexeme that wraps nothing, and of whose brackets nothing is told, is one step of the
reference parser. -/
theorem place_agree {around : List Around} {pieces : List Piece} {b : Builder} {l : Lexeme}
    {start : Position} {after : Cursor} (h : Agree around pieces b) (hl : l.occursIn b.mode)
    (going : b.stopped = false) (hw : Token.wraps ⟨l, start, after⟩ = false)
    (hb : Balanced (b.place l start after).diagnostics) :
    Advances around pieces b ⟨l, start, after⟩ := by
  have regular := Lexeme.regular_of_occurs hl
  rcases l with content | _ | p | found | spelling
  · exact h.item going (.leaf start content) rfl rfl rfl rfl rfl rfl
  · have soft := endsBody_eq after.peek? (freshAfter pieces) b h.fresh
    cases hs : b.isSoft after.peek? with
    | true =>
      apply h.item going (.leaf start (.whitespace true)) <;>
        first | rfl | simp [Token.piece?, Builder.place, Builder.add, ← soft, hs]
    | false =>
      apply h.operator going (regular rfl) ⟨.lineBreak, start, after.position⟩ <;>
        first | rfl | simp [Token.piece?, Builder.place, ← soft, hs]
  · rcases p with d | d | w | j
    · have hr := regular rfl
      obtain ⟨agree, mode, stopped⟩ := h.open hr d start after.indent hb
      exact ⟨_, _, agree, mode, stopped.trans going, fun rest => resume_open rfl⟩
    · obtain ⟨a, outer, rfl, hd, hi, agree, mode, stopped⟩ := h.close d start after.indent hb
      exact ⟨_, _, agree, mode, stopped.trans going, fun rest => resume_close rfl hd hi⟩
    · cases hw
    · exact h.operator going (regular rfl) ⟨j, start, after.position⟩ rfl rfl rfl
  · exact h.item going (.leaf start .error) rfl rfl rfl rfl rfl rfl
  · exact h.item going (.leaf start .error) rfl rfl rfl rfl rfl rfl

theorem tokensFrom_next (mode : Mode) {c after : Cursor} {first : Char}
    (h : c.take? = some (first, after)) :
    tokensFrom mode c =
      ⟨(Lexeme.next mode first after).1, c.position, (Lexeme.next mode first after).2⟩ ::
        tokensFrom ((Lexeme.next mode first after).1.modeAfter mode) (Lexeme.next mode first after).2 := by
  rw [tokensFrom.eq_def]
  split
  · next hn =>
    rw [h] at hn
    cases hn
  · next first' after' hs =>
    rw [h] at hs
    cases hs
    rfl

theorem tokensFrom_end (mode : Mode) {c : Cursor} (h : c.take? = none) : tokensFrom mode c = [] := by
  rw [tokensFrom.eq_def]
  split
  · rfl
  · next hs =>
    rw [h] at hs
    cases hs

theorem run_agree (b : Builder) (c : Cursor) (going : b.stopped = false)
    (hw : ∀ t ∈ tokensFrom b.mode c, t.wraps = false)
    (hb : Balanced ((b.run c).1.finish (b.run c).2.position).diagnostics) :
    ∀ around pieces, Agree around pieces b →
      resume around pieces (tokensFrom b.mode c) =
        some ((b.run c).1.finish (b.run c).2.position).items.toList := by
  fun_induction Builder.run b c with
  | case1 b c ht =>
    intro around pieces h
    obtain ⟨chains, base, hs, hh, ha⟩ := h.stands
    have bare := bare_of_holds hh (hs ▸ h.sound.nested)
    obtain ⟨rfl, hi⟩ := Builder.finish_balanced hs bare ha.block hb
    cases around with
    | cons a outer =>
      obtain ⟨_, _, _, hn, -⟩ := ha
      cases hn
    | nil => rw [tokensFrom_end b.mode ht, resume_end, hi, hh.folds]
  | case2 b c first after ht lexed placed hs =>
    intro around pieces h
    have told : Balanced placed.diagnostics := hb.before (Builder.finish_diagnostics _ _)
    rw [tokensFrom_next b.mode ht] at hw
    obtain ⟨_, _, -, -, stopped, -⟩ := place_agree h (Lexeme.next_occurs _ _ _) going
      (hw _ List.mem_cons_self) told
    exact absurd (hs.symm.trans stopped) (by simp)
  | case3 b c first after ht lexed placed hs ih =>
    intro around pieces h
    have told : Balanced placed.diagnostics :=
      hb.before ((Builder.run_diagnostics _ _).trans (Builder.finish_diagnostics _ _))
    rw [tokensFrom_next b.mode ht] at hw ⊢
    obtain ⟨around', pieces', agree, mode, stopped, step⟩ := place_agree h (Lexeme.next_occurs _ _ _)
      going (hw _ List.mem_cons_self) told
    rw [step, ← mode]
    apply ih stopped _ hb around' pieces' agree
    intro t hm
    apply hw
    rw [← mode]
    exact List.mem_cons_of_mem _ hm

/-- A text that wraps nothing, and of whose brackets nothing is told, has the tree of the reference
parser. -/
theorem tokenize_refines_reference (file : String) (text : List Char)
    (unwrapped : ∀ t ∈ tokens file text, t.wraps = false)
    (balanced : Balanced (tokenize file text).diagnostics) :
    reference? file text = some (tokenize file text).nodes := by
  rw [reference_eq_resume]
  exact run_agree .empty (.start file text) rfl unwrapped balanced [] [] agree_empty

/-- Two lines in a bracket, operators of all tiers, and a string with an operator in it. -/
theorem tokenize_refines_reference_lines :
    reference? "t.cvl" "x := (a = 1\nb :: \"c, d\"), y".toList =
      some (tokenize "t.cvl" "x := (a = 1\nb :: \"c, d\"), y".toList).nodes := by
  apply tokenize_refines_reference
  · decide +kernel
  · unfold Balanced
    decide +kernel

end NamespaceLang

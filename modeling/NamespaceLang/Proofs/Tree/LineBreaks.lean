import NamespaceLang.Proofs.Tree.Alone
import NamespaceLang.Proofs.Tree.Brackets

/-!
# Where lines are broken

A line break is an operator only where something stands on the line before it:
the operand to its left is never blank. Where it is a mere blank, no line is
complete: nothing but blanks stand before it, or it is the last item, because a
closing bracket or the end of the text comes next. The bracket then ends the
list, unless it is one too many, which is told.
-/

set_option autoImplicit false

namespace NamespaceLang

open OpenScope NamespaceLang.Tree

namespace Tree

def endsLine : Tree → Bool
  | .leaf _ (.whitespace newline) => newline
  | _ => false

def breaksLine : Tree → Bool
  | .leaf _ (.operator spelling) => spelling == Joiner.lineBreak.spelling
  | _ => false

def Solid (items : List Tree) : Prop := ∃ item ∈ items, item.isBlank = false

/-- Just left of each line break stands an operand that is not all blank. -/
def Parted (items : List Tree) : Prop :=
  ∀ before operator after, items = before ++ operator :: after → operator.breaksLine = true →
    ∃ earlier operand, before = earlier ++ [operand] ∧ operand.isOperand = true ∧
      Solid operand.items

/-- A line ends in a blank only at the start of the items, blanks apart, or at their end. -/
def Rested (items : List Tree) : Prop :=
  ∀ before node after, items = before ++ node :: after → node.endsLine = true →
    (∀ item ∈ before, item.isBlank = true) ∨ after = []

/-- A line ends in a blank only at the start of the items, so that there may be more of them. -/
def Steady (items : List Tree) : Prop :=
  items.Pairwise fun left right => right.endsLine = true → left.isBlank = true

theorem parted_nil : Parted [] := fun before _ _ h => by cases before <;> cases h

theorem steady_nil : Steady [] := List.Pairwise.nil

theorem snoc_split {α : Type} {items before after : List α} {last node : α}
    (h : items ++ [last] = before ++ node :: after) :
    (before = items ∧ node = last ∧ after = []) ∨
      ∃ inner, after = inner ++ [last] ∧ items = before ++ node :: inner := by
  rcases List.eq_nil_or_concat after with rfl | ⟨inner, other, rfl⟩
  · obtain ⟨same, single⟩ := List.append_inj' h rfl
    cases single
    exact Or.inl ⟨same.symm, rfl, rfl⟩
  · have shifted : items ++ [last] = (before ++ node :: inner) ++ [other] := by simpa using h
    obtain ⟨same, single⟩ := List.append_inj' shifted rfl
    cases single
    exact Or.inr ⟨inner, List.concat_eq_append, same⟩

theorem Parted.snoc {items : List Tree} (h : Parted items) {node : Tree}
    (parts : node.breaksLine = true →
      ∃ earlier operand, items = earlier ++ [operand] ∧ operand.isOperand = true ∧
        Solid operand.items) : Parted (items ++ [node]) := by
  intro before operator after split breaks
  rcases snoc_split split with ⟨rfl, rfl, -⟩ | ⟨inner, -, inside⟩
  · exact parts breaks
  · exact h before operator inner inside breaks

theorem Steady.snoc {items : List Tree} (h : Steady items) {node : Tree}
    (blank : node.endsLine = true → ∀ item ∈ items, item.isBlank = true) :
    Steady (items ++ [node]) := by
  refine List.pairwise_append.2 ⟨h, List.pairwise_singleton _ _, fun item hi other ho ends => ?_⟩
  rw [List.mem_singleton.1 ho] at ends
  exact blank ends item hi

theorem Steady.before {before after : List Tree} {node : Tree}
    (h : Steady (before ++ node :: after)) (ends : node.endsLine = true) :
    ∀ item ∈ before, item.isBlank = true :=
  fun item hi => (List.pairwise_append.1 h).2.2 item hi node List.mem_cons_self ends

theorem Steady.rested {items : List Tree} (h : Steady items) : Rested items := by
  rintro before node after rfl ends
  exact Or.inl (h.before ends)

theorem Steady.rested_snoc {items : List Tree} (h : Steady items) (last : Tree) :
    Rested (items ++ [last]) := by
  intro before node after split ends
  rcases snoc_split split with ⟨-, -, none_left⟩ | ⟨inner, -, rfl⟩
  · exact Or.inr none_left
  · exact Or.inl (h.before ends)

theorem Steady.part {part items : List Tree} (h : Steady items) (hp : part.Sublist items) :
    Steady part := List.Pairwise.sublist hp h

/-- The items of a chain are parted, and those of any group are rested if the text is `quiet`. -/
structure InLines (quiet : Prop) (node : Tree) : Prop where
  parted : node.chainTier?.isSome = true → Parted node.items
  rested : quiet → Rested node.items

def Lined (quiet : Prop) (nodes : List Tree) : Prop := ∀ node ∈ preorderAll nodes, node.InLines quiet

variable {quiet : Prop}

theorem lined_nil : Lined quiet [] := by simp [Lined, preorderAll]

theorem lined_append (left right : List Tree) :
    Lined quiet (left ++ right) ↔ Lined quiet left ∧ Lined quiet right := by
  simp only [Lined, preorderAll_append, List.mem_append, or_imp, forall_and]

theorem lined_leaf (pos : Position) (content : Leaf) : Lined quiet [.leaf pos content] := by
  intro node hm
  have same : node = .leaf pos content := by simpa [preorderAll, preorder] using hm
  subst same
  exact ⟨(fun chain => by cases chain), fun _ => steady_nil.rested⟩

theorem lined_group (pos : Position) {form : Form} {items : List Tree} (h : Lined quiet items)
    (parted : ∀ tag tier, form = .chain tag tier → Parted items) (rested : quiet → Rested items) :
    Lined quiet [.group pos form items] := by
  intro node hm
  have inside : node = .group pos form items ∨ node ∈ preorderAll items := by
    simpa [preorderAll, preorder] using hm
  rcases inside with rfl | below
  · refine ⟨fun chain => ?_, rested⟩
    cases form with
    | chain tag tier => exact parted tag tier rfl
    | segment | block => cases chain
  · exact h node below

theorem Lined.part {part nodes : List Tree} (h : Lined quiet nodes) (hp : part ⊆ nodes) :
    Lined quiet part := fun node hn => h node (preorderAll_mono hp hn)

end Tree

namespace Lexeme

def hidesBreak : Lexeme → Bool
  | .leaf (.whitespace newline) => newline
  | .mark (.joiner .lineBreak) => true
  | _ => false

theorem ofSpelling_hides_none {first : Char} (run : List Char) (solid : Text.isBlank first = false) :
    (ofSpelling (first :: run)).hidesBreak = false := by
  cases hl : ofSpelling (first :: run) with
  | mark p =>
    have spelled := congrArg String.toList (spelling_of_ofSpelling hl)
    rw [String.toList_ofList] at spelled
    rcases p with d | d | w | j
    · rfl
    · rfl
    · rfl
    · cases j with
      | lineBreak =>
        cases spelled
        exact absurd solid (by decide)
      | _ => rfl
  | leaf content =>
    unfold ofSpelling at hl
    dsimp only at hl
    split at hl
    · cases hl
    · split at hl <;> cases hl
      rfl
  | _ => rfl

theorem next_hides_none (mode : Mode) (first : Char) (after : Cursor) :
    (next mode first after).1.hidesBreak = false := by
  cases mode with
  | inString =>
    have allowed := in_string_occurs first after
    show (nextInString first after).1.hidesBreak = false
    revert allowed
    cases (nextInString first after).1 with
    | leaf content => cases content <;> simp [occursIn, hidesBreak]
    | mark p => rcases p with d | d | w | j <;> simp [occursIn, hidesBreak]
    | _ => simp [hidesBreak]
  | regular =>
    show (nextRegular first after).1.hidesBreak = false
    unfold nextRegular
    split
    · next named hn =>
      unfold name? at hn
      split at hn
      · cases hn
        rfl
      · split at hn
        · cases hn
        · dsimp only at hn
          split at hn <;> cases hn
          rfl
    · split
      · show (ofBlanks _).hidesBreak = false
        unfold ofBlanks
        split <;> rfl
      · next solid =>
        split <;> exact ofSpelling_hides_none _ (by simpa using solid)

end Lexeme

structure OpenChain.Lined (quiet : Prop) (c : OpenChain) : Prop where
  done : Tree.Lined quiet c.done.toList
  parted : Parted c.done.toList
  steady : Steady c.done.toList

structure OpenScope.Lined (quiet : Prop) (s : OpenScope) : Prop where
  before : Tree.Lined quiet s.before.toList
  steady : quiet → Steady s.before.toList
  chain : ∀ c, s.kind = .chain c → c.Lined quiet

structure Builder.Lined (quiet : Prop) (b : Builder) : Prop where
  items : Tree.Lined quiet b.items.toList
  rested : quiet → Rested b.items.toList
  scopes : ∀ s ∈ b.scopes, s.Lined quiet

section

variable {quiet : Prop}

theorem segment_lined {items : List Tree} (h : Tree.Lined quiet items)
    (rested : quiet → Rested items) (fallback : Position) :
    Tree.Lined quiet [segment items fallback] :=
  lined_group _ h (fun _ _ form => by cases form) rested

namespace OpenChain.Lined

variable {c : OpenChain} {items : List Tree}

theorem operand (h : c.Lined quiet) (hi : Tree.Lined quiet items) (rested : quiet → Rested items) :
    Tree.Lined quiet (c.done.toList ++ [segment items c.operandStart]) ∧
      Parted (c.done.toList ++ [segment items c.operandStart]) ∧
      Steady (c.done.toList ++ [segment items c.operandStart]) :=
  ⟨(lined_append _ _).2 ⟨h.done, segment_lined hi rested _⟩, h.parted.snoc (fun breaks => by cases breaks),
    h.steady.snoc (fun ends => by cases ends)⟩

theorem extend (h : c.Lined quiet) (hi : Tree.Lined quiet items) (rested : quiet → Rested items)
    {j : Joiner} (solid : j = .lineBreak → Solid items) (start next : Position) :
    (c.extend items j start next).Lined quiet := by
  obtain ⟨lined, parted, steady⟩ := h.operand hi rested
  have done : (c.extend items j start next).done.toList =
      c.done.toList ++ [segment items c.operandStart] ++ [.leaf start (.operator j.spelling)] := by
    rw [OpenChain.done_extend, List.append_cons]
  have breaks : Tree.breaksLine (.leaf start (.operator j.spelling)) = true → j = .lineBreak := by
    cases j <;> simp [breaksLine, Joiner.spelling]
  refine ⟨?_, ?_, ?_⟩ <;> rw [done]
  · exact (lined_append _ _).2 ⟨lined, lined_leaf _ _⟩
  · exact parted.snoc fun hb => ⟨_, _, rfl, rfl, solid (breaks hb)⟩
  · exact steady.snoc (fun ends => by cases ends)

end OpenChain.Lined

theorem OpenScope.Lined.tree {s : OpenScope} {items : List Tree} (h : s.Lined quiet)
    (hi : Tree.Lined quiet items) (rested : quiet → Rested items) :
    Tree.Lined quiet [s.tree items] := by
  unfold OpenScope.tree
  cases hk : s.kind with
  | block d => exact lined_group _ hi (fun _ _ form => by cases form) rested
  | chain c =>
    obtain ⟨lined, parted, steady⟩ := (h.chain c hk).operand hi rested
    dsimp only
    rw [Array.toList_push]
    exact lined_group _ lined (fun _ _ _ => parted) fun _ => steady.rested

namespace Builder

variable {b : Builder}

theorem empty_lined : Builder.empty.Lined quiet :=
  ⟨lined_nil, fun _ => steady_nil.rested, by simp [empty]⟩

theorem Lined.frame {later : Builder} (h : b.Lined quiet) (hi : later.items = b.items)
    (hs : later.scopes = b.scopes) : later.Lined quiet :=
  ⟨hi ▸ h.items, hi ▸ h.rested, hs ▸ h.scopes⟩

structure LinedOn (quiet : Prop) (b : Builder) : Prop extends Builder.Lined quiet b where
  steady : quiet → Steady b.items.toList

theorem Lined.linedOn (h : b.Lined quiet) (steady : quiet → Steady b.items.toList) :
    b.LinedOn quiet := ⟨h, steady⟩

theorem LinedOn.frame {later : Builder} (h : b.LinedOn quiet) (hi : later.items = b.items)
    (hs : later.scopes = b.scopes) : later.LinedOn quiet :=
  ⟨h.toLined.frame hi hs, hi ▸ h.steady⟩

theorem Lined.fold (h : b.Lined quiet) {s : OpenScope} {outer : List OpenScope}
    (hs : b.scopes = s :: outer) : (b.fold s outer).LinedOn quiet ∧ Solid (b.fold s outer).items.toList := by
  have own : s.Lined quiet := h.scopes s (hs ▸ List.mem_cons_self)
  have plain : ∀ items, (s.tree items).isBlank = false ∧ (s.tree items).endsLine = false := by
    intro items
    unfold OpenScope.tree
    split <;> exact ⟨rfl, rfl⟩
  have steady : quiet → Steady (s.before.push (s.tree b.items.toList)).toList := by
    intro hq
    rw [Array.toList_push]
    exact (own.steady hq).snoc fun ends => by simp [(plain _).2] at ends
  refine ⟨⟨⟨?_, fun hq => (steady hq).rested, ?_⟩, steady⟩, ?_⟩
  · simp only [Builder.fold, Array.toList_push]
    exact (lined_append _ _).2 ⟨own.before, own.tree h.items h.rested⟩
  · exact fun t ht => h.scopes t (hs ▸ List.mem_cons_of_mem s ht)
  · exact ⟨_, by simp [Builder.fold], (plain b.items.toList).1⟩

theorem Lined.foldOnce (h : b.Lined quiet) {s : OpenScope} {outer : List OpenScope}
    (hs : b.scopes = s :: outer) (complaint : OpenScope → Diagnostic) :
    (b.foldOnce complaint s outer).LinedOn quiet ∧
      Solid (b.foldOnce complaint s outer).items.toList := by
  unfold Builder.foldOnce
  split
  · exact Lined.fold (b := b.report (complaint s)) (h.frame rfl rfl) hs
  · exact h.fold hs

variable {stays : OpenScope → Bool} {complaint : OpenScope → Diagnostic}

theorem Lined.unwind (h : b.Lined quiet) : (b.unwind stays complaint).Lined quiet :=
  (unwind_rule (P := Builder.Lined quiet)
    (fun _ _ _ hs _ hl => (hl.foldOnce hs complaint).1.toLined) h).1

theorem LinedOn.unwind (h : b.LinedOn quiet) : (b.unwind stays complaint).LinedOn quiet :=
  (unwind_rule (P := LinedOn quiet)
    (fun _ _ _ hs _ hl => (hl.toLined.foldOnce hs complaint).1) h).1

theorem Lined.unwind_solid (h : b.Lined quiet) (solid : Solid b.items.toList) :
    Solid (b.unwind stays complaint).items.toList :=
  (unwind_rule (P := fun later => later.Lined quiet ∧ Solid later.items.toList)
    (fun _ _ _ hs _ hl => ⟨(hl.1.foldOnce hs complaint).1.toLined, (hl.1.foldOnce hs complaint).2⟩)
    ⟨h, solid⟩).1.2

theorem LinedOn.add (h : b.LinedOn quiet) (pos : Position) (content : Leaf)
    (blank : Tree.endsLine (.leaf pos content) = true → ∀ item ∈ b.items.toList, item.isBlank = true) :
    (b.add (.leaf pos content)).LinedOn quiet := by
  have steady : quiet → Steady (b.add (.leaf pos content)).items.toList := by
    intro hq
    rw [Builder.add, Array.toList_push]
    exact (h.steady hq).snoc blank
  refine ⟨⟨?_, fun hq => (steady hq).rested, h.scopes⟩, steady⟩
  rw [Builder.add, Array.toList_push]
  exact (lined_append _ _).2 ⟨h.items, lined_leaf _ _⟩

theorem LinedOn.add_last (h : b.LinedOn quiet) (pos : Position) (content : Leaf) :
    (b.add (.leaf pos content)).Lined quiet := by
  refine ⟨?_, fun hq => ?_, h.scopes⟩ <;> rw [Builder.add, Array.toList_push]
  · exact (lined_append _ _).2 ⟨h.items, lined_leaf _ _⟩
  · exact (h.steady hq).rested_snoc _

theorem LinedOn.openBlock (h : b.LinedOn quiet) (d : Delimiter) (start : Position) (indent : Int) :
    (b.openBlock d start indent).LinedOn quiet := by
  unfold Builder.openBlock
  split
  · exact h.frame rfl rfl
  · refine ⟨⟨lined_nil, fun _ => steady_nil.rested, ?_⟩, fun _ => steady_nil⟩
    intro s hm
    rcases List.mem_cons.1 hm with rfl | hm
    · exact ⟨h.items, h.steady, fun c hc => by cases hc⟩
    · exact h.scopes s hm

theorem LinedOn.wrap (h : b.LinedOn quiet) (w : Wrapper) (start : Position) (indent : Int) :
    (b.wrap w start indent).LinedOn quiet := by
  have folded : (b.unwind (·.holds indent w.tier) (unclosedAt start w.spelling indent)).LinedOn quiet :=
    h.unwind
  rw [Builder.wrap]
  generalize b.unwind _ _ = u at folded
  have steady : quiet → Steady (u.wrapItems w start).items.toList := by
    intro hq
    rw [wrapItems, Array.toList_push]
    exact ((folded.steady hq).part (List.takeWhile_sublist _)).snoc fun ends => by cases ends
  have wrapped : quiet → Steady (trimStart u.items.toList) := fun hq =>
    (folded.steady hq).part (List.dropWhile_sublist _)
  refine ⟨⟨?_, fun hq => (steady hq).rested, folded.scopes⟩, steady⟩
  rw [wrapItems, Array.toList_push]
  refine (lined_append _ _).2 ⟨folded.items.part (List.takeWhile_sublist _).subset, ?_⟩
  exact lined_group _ (folded.items.part (List.dropWhile_sublist _).subset)
    (fun _ _ form => by cases form) fun hq => (wrapped hq).rested

theorem LinedOn.join (h : b.LinedOn quiet) {j : Joiner}
    (solid : j = .lineBreak → Solid b.items.toList) (start next : Position) :
    (b.join j start next).LinedOn quiet := by
  have folded : (b.foldTighter j start).LinedOn quiet := h.unwind
  have still : j = .lineBreak → Solid (b.foldTighter j start).items.toList :=
    fun line => h.toLined.unwind_solid (solid line)
  apply join_rule (P := LinedOn quiet)
  · intro _
    have fresh : (⟨j.tag, j.tier, #[], start, start⟩ : OpenChain).Lined quiet :=
      ⟨lined_nil, parted_nil, steady_nil⟩
    refine ⟨⟨lined_nil, fun _ => steady_nil.rested, ?_⟩, fun _ => steady_nil⟩
    intro s hm
    rcases List.mem_cons.1 hm with rfl | hm
    · refine ⟨lined_nil, fun _ => steady_nil, fun c hc => ?_⟩
      cases hc
      exact fresh.extend folded.items folded.rested still start next
    · exact folded.scopes s hm
  · intro s c outer hs hk _
    have own : s.Lined quiet := folded.scopes s (hs ▸ List.mem_cons_self)
    have grown : ∀ t ∈ { s with kind := .chain (c.extend (b.foldTighter j start).items.toList j
        start next) } :: outer, t.Lined quiet := by
      intro t hm
      rcases List.mem_cons.1 hm with rfl | hm
      · refine ⟨own.before, own.steady, fun c' hc => ?_⟩
        cases hc
        exact (own.chain c hk).extend folded.items folded.rested still start next
      · exact folded.scopes t (hs ▸ List.mem_cons_of_mem s hm)
    unfold extendChain
    split <;>
    exact ⟨⟨lined_nil, fun _ => steady_nil.rested, grown⟩, fun _ => steady_nil⟩

end Builder

/-- Nothing is told of a closing bracket or quote that closes nothing. -/
def NoneExtra (ds : List Diagnostic) : Prop := ∀ d ∈ ds, d.message ≠ Cause.extraCloser.message

namespace Builder

variable {b : Builder}

theorem Lined.close (h : b.Lined quiet) (d : Delimiter) (start : Position) (indent : Int)
    (told : quiet → NoneExtra (b.close d start indent).diagnostics) :
    (b.close d start indent).LinedOn quiet := by
  have folded : (b.foldToCloser d start indent).Lined quiet := h.unwind
  revert told
  apply close_rule (P := fun later => (quiet → NoneExtra later.diagnostics) → later.LinedOn quiet)
  · intro s outer hs _ _
    exact (folded.fold hs).1.frame rfl rfl
  · intro _ told
    refine ⟨folded.frame rfl rfl, fun hq => absurd rfl (told hq (.error start .extraCloser) ?_)⟩
    exact List.mem_append_right _ List.mem_cons_self

def endsNext (next? : Option Char) : Bool :=
  match next? with
  | none => true
  | some c =>
    match Punctuator.ofSpelling? (String.singleton c) with
    | some (.closer _) => true
    | _ => false

theorem isSoft_eq (b : Builder) (next? : Option Char) :
    b.isSoft next? = (b.items.toList.all Tree.isBlank || endsNext next?) := rfl

/-- The list may go on, or the lexeme that comes next is sure to end it. -/
def Poised (b : Builder) (next? : Option Char) : Prop :=
  Steady b.items.toList ∨ b.mode = .regular ∧ endsNext next? = true

theorem solid_of_not_all {items : List Tree} (h : items.all Tree.isBlank ≠ true) : Solid items := by
  obtain ⟨item, hm, solid⟩ := List.all_eq_false.1 (Bool.eq_false_iff.2 h)
  exact ⟨item, hm, by simpa using solid⟩

theorem LinedOn.poised (h : b.LinedOn quiet) (next? : Option Char) :
    b.Lined quiet ∧ (quiet → b.Poised next?) :=
  ⟨h.toLined, fun hq => Or.inl (h.steady hq)⟩

/-- A line break is a blank where nothing or the end of the list comes before the next line. -/
theorem LinedOn.lineBreak (h : b.LinedOn quiet) (regular : b.mode = .regular) (start : Position)
    (after : Cursor) :
    (b.place .lineBreak start after).Lined quiet ∧
      (quiet → (b.place .lineBreak start after).Poised after.peek?) := by
  simp only [place]
  split
  · next soft =>
    rw [isSoft_eq, Bool.or_eq_true] at soft
    rcases soft with blank | ends
    · exact (h.add start (.whitespace true) fun _ => List.all_eq_true.1 blank).poised after.peek?
    · exact ⟨h.add_last start (.whitespace true), fun _ => Or.inr ⟨regular, ends⟩⟩
  · next hard =>
    rw [isSoft_eq, Bool.or_eq_true, not_or] at hard
    have solid := solid_of_not_all hard.1
    exact (h.join (fun _ => solid) start after.position).poised after.peek?

theorem place_lined {l : Lexeme} {start : Position} {after : Cursor} (hl : l.occursIn b.mode)
    (told_apart : l.hidesBreak = false) (h : b.Lined quiet)
    (steady : quiet → Steady b.items.toList ∨ ∃ d, l = .mark (.closer d))
    (told : quiet → NoneExtra (b.place l start after).diagnostics) :
    (b.place l start after).Lined quiet ∧ (quiet → (b.place l start after).Poised after.peek?) := by
  have goes_on : (∀ d, l ≠ .mark (.closer d)) → b.LinedOn quiet := fun other =>
    h.linedOn fun hq => (steady hq).resolve_right fun ⟨d, closer⟩ => other d closer
  have reported : ∀ d, b.LinedOn quiet → (b.report d).LinedOn quiet := fun _ h => h.frame rfl rfl
  rcases l with content | _ | (d | d | w | j) | found | spelling
  · refine ((goes_on (by simp)).add start content fun ends => ?_).poised _
    cases content with
    | whitespace newline => exact absurd (told_apart.symm.trans ends) Bool.false_ne_true
    | _ => cases ends
  · exact (goes_on (by simp)).lineBreak (Lexeme.regular_of_occurs hl rfl) start after
  · exact ((goes_on (by simp)).openBlock d start after.indent).poised _
  · exact (h.close d start after.indent told).poised _
  · exact ((goes_on (by simp)).wrap w start after.indent).poised _
  · have other : j ≠ .lineBreak := by
      rintro rfl
      cases told_apart
    exact ((goes_on (by simp)).join (fun line => absurd line other) start after.position).poised _
  · exact ((reported _ (goes_on (by simp))).add start .error fun ends => by cases ends).poised _
  · exact ((reported _ (goes_on (by simp))).add start .error fun ends => by cases ends).poised _

theorem Poised.next {first : Char} (h : b.Poised (some first)) (after : Cursor) :
    Steady b.items.toList ∨ ∃ d, (Lexeme.next b.mode first after).1 = .mark (.closer d) := by
  refine h.imp_right fun ⟨regular, ends⟩ => ?_
  obtain ⟨d, closes⟩ : ∃ d, Punctuator.ofSpelling? (String.singleton first) = some (.closer d) := by
    unfold endsNext at ends
    dsimp only at ends
    split at ends
    · next d closes => exact ⟨d, closes⟩
    · cases ends
  have spelled := congrArg String.toList (Punctuator.spelling_of_ofSpelling? closes)
  rw [String.toList_singleton] at spelled
  have single : first ∈ Letters.singles ∧ first ≠ Letters.accessSign := by
    cases d with
    | quote => simp [Punctuator.spelling, Delimiter.closingSpelling, inStringMark] at spelled
    | round | square | curly => cases spelled; decide
  rw [regular]
  refine ⟨d, ?_⟩
  show (Lexeme.nextRegular first after).1 = _
  rw [Lexeme.nextRegular_single single.1 single.2]
  unfold Lexeme.ofSpelling
  dsimp only
  rw [← String.singleton_eq_ofList, closes]

end Builder

end

section

variable {file : String} {text : List Char}

theorem reading_lined {b : Builder} {c : Cursor} (h : Reading file text b c) :
    b.Lined (NoneExtra (tokenize file text).diagnostics) ∧
      (NoneExtra (tokenize file text).diagnostics → b.Poised c.peek?) := by
  induction h with
  | start => exact ⟨Builder.empty_lined, fun _ => Or.inl steady_nil⟩
  | @next b c after first before going taken ih =>
    have comes : c.peek? = some first := by
      obtain ⟨rest, -, hr⟩ := Cursor.rest_of_take? taken
      rw [Cursor.peek?, hr]
      rfl
    refine Builder.place_lined (Lexeme.next_occurs _ _ _) (Lexeme.next_hides_none _ _ _) ih.1 ?_ ?_
    · exact fun quiet => Builder.Poised.next (comes ▸ ih.2 quiet) after
    · intro quiet d hm
      exact quiet d ((reading_diagnostics (before.next going taken)).subset hm)

end

/-- In every chain of a text a line break stands right of an operand that is not all blank. If no
closing bracket or quote is told to be one too many, a blank that a line ends in has only blanks
before it in its list, or is the last item there: in the file, and in each node of its tree. -/
theorem tokenize_line_breaks (file : String) (text : List Char) :
    (∀ chain ∈ preorderAll (tokenize file text).nodes, chain.chainTier?.isSome = true →
      Parted chain.items) ∧
    ((∀ d ∈ (tokenize file text).diagnostics, d.message ≠ "extra close bracket") →
      ∀ items, ListOf (tokenize file text).nodes items → Rested items) := by
  obtain ⟨b, c, read, -, nodes, -⟩ := tokenize_reading file text
  have finished : (b.finish c.position).Lined (NoneExtra (tokenize file text).diagnostics) :=
    (reading_lined read).1.unwind
  rw [nodes]
  refine ⟨fun chain hm => (finished.items chain hm).parted, fun quiet items hl => ?_⟩
  rcases hl with rfl | ⟨node, hm, rfl⟩
  · exact finished.rested quiet
  · exact (finished.items node hm).rested quiet

end NamespaceLang

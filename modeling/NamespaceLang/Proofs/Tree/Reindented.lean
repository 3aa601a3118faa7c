import NamespaceLang.Proofs.Tree.Bracketed
import NamespaceLang.Proofs.Tree.Glyphs
import NamespaceLang.Proofs.Tree.Indented

/-!
# The tree of a text that is indented further

Closers, wrappers and complaints compare indentations only with one another and
with the file, which is further out than any line. So where all lines are as much
further in, a builder does the same. What it has read differs by one blank at most:
that before the first line, which is the first of all items, or of the first
operand of the first chain, until it is the first of the tree.
-/

set_option autoImplicit false

namespace NamespaceLang

open OpenScope NamespaceLang.Tree

namespace Tree

/-- At the very beginning there is one more blank: no spelling stands before it. -/
inductive Led : List Tree → List Tree → Prop
  | blank (pos : Position) (nodes : List Tree) :
      Led nodes (.leaf pos (.whitespace false) :: nodes)
  | inside {pos : Position} {form : Form} {items items' : List Tree} (rest : List Tree)
      (unspelled : form.openingGlyphs pos = []) (h : Led items items') :
      Led (.group pos form items :: rest) (.group pos form items' :: rest)

/-- The nodes are the same up to positions, but for a blank at their beginning if `lead` says so. -/
def Alike (lead : Bool) (nodes nodes' : List Tree) : Prop :=
  match lead with
  | true => Led (unplaced nodes) (unplaced nodes')
  | false => unplaced nodes' = unplaced nodes

theorem unplaced_append (left right : List Tree) :
    unplaced (left ++ right) = unplaced left ++ unplaced right := by
  simp [unplaced, moveAll_eq_map]

theorem unplaced_group (pos : Position) (form : Form) (items : List Tree) :
    unplaced [.group pos form items] = [.group default form (unplaced items)] := by
  simp [unplaced, moveAll, move]

theorem unplaced_leaf (pos : Position) (content : Leaf) :
    unplaced [.leaf pos content] = [.leaf default content] := by
  simp [unplaced, moveAll, move]

theorem unplaced_segment (items : List Tree) (fallback : Position) :
    unplaced [segment items fallback] = [.group default .segment (unplaced items)] :=
  unplaced_group _ _ items

theorem all_isBlank_unplaced (nodes : List Tree) :
    (unplaced nodes).all isBlank = nodes.all isBlank := by
  rw [unplaced, moveAll_eq_map, List.all_map]
  exact congrArg nodes.all (funext (isBlank_move _))

theorem takeWhile_unplaced (nodes : List Tree) :
    (unplaced nodes).takeWhile isBlank = unplaced (nodes.takeWhile isBlank) := by
  rw [unplaced, unplaced, moveAll_eq_map, moveAll_eq_map, List.takeWhile_map]
  exact congrArg (fun p => List.map _ (List.takeWhile p nodes)) (funext (isBlank_move _))

theorem trimStart_unplaced (nodes : List Tree) :
    trimStart (unplaced nodes) = unplaced (trimStart nodes) := by
  rw [trimStart, trimStart, unplaced, unplaced, moveAll_eq_map, moveAll_eq_map, List.dropWhile_map]
  exact congrArg (fun p => List.map _ (List.dropWhile p nodes)) (funext (isBlank_move _))

theorem Led.append {nodes nodes' : List Tree} (h : Led nodes nodes') (more : List Tree) :
    Led (nodes ++ more) (nodes' ++ more) := by
  cases h with
  | blank pos => exact .blank pos _
  | inside rest unspelled h => exact .inside _ unspelled h

theorem Led.all_isBlank {nodes nodes' : List Tree} (h : Led nodes nodes') :
    nodes'.all isBlank = nodes.all isBlank := by
  cases h with
  | blank pos => exact Bool.true_and _
  | inside rest unspelled h => rfl

theorem Led.wrapped {nodes nodes' : List Tree} (h : Led nodes nodes') (tag : BlockTag)
    (closing : String) :
    Led (nodes.takeWhile isBlank ++ [.group default (.block tag "" closing) (trimStart nodes)])
      (nodes'.takeWhile isBlank ++ [.group default (.block tag "" closing) (trimStart nodes')]) := by
  cases h with
  | blank pos => exact .blank pos _
  | inside rest unspelled h => exact .inside [] rfl (.inside rest unspelled h)

variable {lead : Bool} {nodes nodes' more more' : List Tree}

theorem Alike.append (h : Alike lead nodes nodes') (same : unplaced more' = unplaced more) :
    Alike lead (nodes ++ more) (nodes' ++ more') := by
  cases lead with
  | true =>
    rw [Alike, unplaced_append, unplaced_append, same]
    exact Led.append h _
  | false =>
    rw [Alike] at h ⊢
    rw [unplaced_append, unplaced_append, h, same]

theorem Alike.all_isBlank (h : Alike lead nodes nodes') : nodes'.all isBlank = nodes.all isBlank := by
  rw [← all_isBlank_unplaced, ← all_isBlank_unplaced nodes]
  cases lead with
  | true => exact Led.all_isBlank h
  | false => exact congrArg (List.all · isBlank) h

theorem Alike.group (h : Alike lead nodes nodes') (pos pos' : Position) {form : Form}
    (unspelled : form.openingGlyphs default = []) :
    Alike lead [.group pos form nodes] [.group pos' form nodes'] := by
  cases lead with
  | true =>
    rw [Alike, unplaced_group, unplaced_group]
    exact .inside [] unspelled h
  | false =>
    rw [Alike] at h ⊢
    rw [unplaced_group, unplaced_group, h]

theorem Alike.wrapped (h : Alike lead nodes nodes') (pos pos' : Position) (tag : BlockTag)
    (closing : String) :
    Alike lead (nodes.takeWhile isBlank ++ [.group pos (.block tag "" closing) (trimStart nodes)])
      (nodes'.takeWhile isBlank ++ [.group pos' (.block tag "" closing) (trimStart nodes')]) := by
  cases lead with
  | true =>
    simp only [Alike, unplaced_append, unplaced_group, ← takeWhile_unplaced, ← trimStart_unplaced]
    exact Led.wrapped h tag closing
  | false =>
    simp only [Alike, unplaced_append, unplaced_group, ← takeWhile_unplaced,
      ← trimStart_unplaced] at h ⊢
    rw [h]

end Tree

/-- The cause on lines that are `k` further in. -/
def Cause.deeper (k : Int) : Cause → Cause
  | .expectedCloser expected indent found foundIndent =>
    .expectedCloser expected (indent + k) found (foundIndent + k)
  | cause => cause

def Diagnostic.deeper (k : Int) (d : Diagnostic) : Diagnostic where
  entries := d.entries.map fun e => ⟨e.pos?.map fun _ => default, e.severity, e.cause.deeper k⟩
  trace := d.trace.map fun step => { step with pos := default }

theorem deeper_error (k : Int) (pos : Position) {cause : Cause} (h : cause.deeper k = cause) :
    (Diagnostic.error pos cause).deeper k = .error default cause := by
  simp [Diagnostic.deeper, Diagnostic.error, h]

namespace OpenScope

def Deeper (k : Nat) (indent indent' : Int) : Prop :=
  (indent = -1 ∧ indent' = -1) ∨ (0 ≤ indent ∧ indent' = indent + k)

/-- The second scope is the same on lines that are `k` further in, with another blank at the
beginning of all it holds if `lead` says so. -/
inductive Indents (k : Nat) (lead : Bool) : OpenScope → OpenScope → Prop
  | block {pos pos' : Position} {indent : Int} {d : Delimiter} {before before' : Array Tree}
      (line : 0 ≤ indent) (same : Alike lead before.toList before'.toList) :
      Indents k lead ⟨pos, indent, .block d, before⟩ ⟨pos', indent + k, .block d, before'⟩
  | chain {pos pos' : Position} {indent indent' : Int} {c c' : OpenChain}
      (level : Deeper k indent indent') (tag : c'.tag = c.tag) (tier : c'.tier = c.tier)
      (same : Alike lead c.done.toList c'.done.toList) :
      Indents k lead ⟨pos, indent, .chain c, #[]⟩ ⟨pos', indent', .chain c', #[]⟩

section

variable {k : Nat} {lead : Bool} {s s' : OpenScope}

theorem Indents.level (h : s.Indents k lead s') : Deeper k s.indent s'.indent := by
  cases h with
  | block line => exact Or.inr ⟨line, rfl⟩
  | chain level => exact level

theorem Indents.tier_eq (h : s.Indents k lead s') : s'.tier = s.tier := by
  cases h with
  | block => rfl
  | chain _ _ tier => exact tier

theorem Indents.isBlock_eq (h : s.Indents k lead s') : s'.isBlock = s.isBlock := by
  cases h <;> rfl

theorem Indents.closedBy_eq (h : s.Indents k lead s') (d : Delimiter) (indent : Int) :
    s'.closedBy d (indent + k) = s.closedBy d indent := by
  cases h with
  | @block _ _ own =>
    have same : (own + k == indent + k) = (own == indent) := by
      rw [Bool.eq_iff_iff, beq_iff_eq, beq_iff_eq]
      omega
    simp only [closedBy, same]
  | chain => rfl

theorem Indents.holds_eq (h : s.Indents k lead s') {indent : Int} (line : 0 ≤ indent) (tier : Nat) :
    s'.holds (indent + k) tier = s.holds indent tier := by
  have same : s'.indent < indent + k ↔ s.indent < indent := by
    rcases h.level with ⟨file, file'⟩ | ⟨_, own⟩ <;> omega
  simp only [holds, h.tier_eq, same]

theorem Indents.folded (h : s.Indents k lead s') {items items' : List Tree}
    (inner : unplaced items' = unplaced items) :
    Alike lead (s.before.push (s.tree items)).toList (s'.before.push (s'.tree items')).toList := by
  cases h with
  | @block pos pos' indent d before before' line same =>
    simp only [Array.toList_push]
    refine same.append ?_
    simp only [tree, unplaced_group, inner]
  | @chain pos pos' indent indent' c c' level tag tier same =>
    have parts : Alike lead (c.done.push (segment items c.operandStart)).toList
        (c'.done.push (segment items' c'.operandStart)).toList := by
      simp only [Array.toList_push]
      exact same.append (by rw [unplaced_segment, unplaced_segment, inner])
    simp only [tree, tag, tier]
    exact parts.group _ _ rfl

end

/-- All scopes are as much further in. Only the outermost one holds the beginning of the text. -/
def AllIndent (k : Nat) (lead : Bool) : List OpenScope → List OpenScope → Prop
  | [], [] => True
  | s :: outer, s' :: outer' => s.Indents k (lead && outer.isEmpty) s' ∧ AllIndent k lead outer outer'
  | _, _ => False

section

variable {k : Nat} {lead : Bool}

theorem AllIndent.length_eq : {scopes scopes' : List OpenScope} → AllIndent k lead scopes scopes' →
    scopes'.length = scopes.length
  | [], [], _ => rfl
  | _ :: _, _ :: _, h => congrArg (· + 1) (AllIndent.length_eq h.2)

theorem AllIndent.topIndent : {scopes scopes' : List OpenScope} → AllIndent k lead scopes scopes' →
    Deeper k (OpenScope.topIndent scopes) (OpenScope.topIndent scopes')
  | [], [], _ => Or.inl ⟨rfl, rfl⟩
  | _ :: _, _ :: _, h => h.1.level

theorem AllIndent.nil_iff {scopes scopes' : List OpenScope} (h : AllIndent k lead scopes scopes') :
    scopes' = [] ↔ scopes = [] := by
  rw [← List.length_eq_zero_iff, h.length_eq, List.length_eq_zero_iff]

theorem AllIndent.cons {s : OpenScope} {outer scopes' : List OpenScope}
    (h : AllIndent k lead (s :: outer) scopes') : ∃ s' outer', scopes' = s' :: outer' ∧
      s.Indents k (lead && outer.isEmpty) s' ∧ AllIndent k lead outer outer' := by
  cases scopes' with
  | nil => cases h
  | cons s' outer' => exact ⟨s', outer', rfl, h.1, h.2⟩

end

end OpenScope

namespace Builder

structure Indents (k : Nat) (lead : Bool) (b b' : Builder) : Prop where
  items : Alike (lead && b.scopes.isEmpty) b.items.toList b'.items.toList
  scopes : AllIndent k lead b.scopes b'.scopes
  regular : b.mode = .regular
  regular' : b'.mode = .regular
  stopped : b'.stopped = b.stopped
  told : b'.diagnostics.map (Diagnostic.deeper 0) = b.diagnostics.map (Diagnostic.deeper k)

namespace Indents

variable {k : Nat} {lead : Bool} {b b' : Builder}

theorem add (h : b.Indents k lead b') {node node' : Tree} (same : unplaced [node'] = unplaced [node]) :
    (b.add node).Indents k lead (b'.add node') :=
  { h with
    items := by
      simp only [Builder.add, Array.toList_push]
      exact h.items.append same }

theorem addLeaf (h : b.Indents k lead b') (pos pos' : Position) (content : Leaf) :
    (b.add (.leaf pos content)).Indents k lead (b'.add (.leaf pos' content)) :=
  h.add (by rw [unplaced_leaf, unplaced_leaf])

theorem report (h : b.Indents k lead b') {d d' : Diagnostic} (same : d'.deeper 0 = d.deeper k) :
    (b.report d).Indents k lead (b'.report d') :=
  { h with
    told := by
      simp only [Builder.report, List.map_append, h.told, List.map_cons, List.map_nil, same] }

theorem reportError (h : b.Indents k lead b') (pos pos' : Position) (cause : Cause)
    (plain : ∀ n, cause.deeper n = cause) :
    (b.report (.error pos cause)).Indents k lead (b'.report (.error pos' cause)) :=
  h.report (by rw [deeper_error _ _ (plain _), deeper_error _ _ (plain _)])

theorem fold (h : b.Indents k lead b') {s s' : OpenScope} {outer outer' : List OpenScope}
    (hs : b.scopes = s :: outer) (hi : s.Indents k (lead && outer.isEmpty) s')
    (ho : AllIndent k lead outer outer') : (b.fold s outer).Indents k lead (b'.fold s' outer') :=
  { h with
    items := by
      have inner := h.items
      rw [hs, List.isEmpty_cons, Bool.and_false] at inner
      exact hi.folded inner
    scopes := ho }

theorem unwind (h : b.Indents k lead b') {stays stays' : OpenScope → Bool}
    {complaint complaint' : OpenScope → Diagnostic}
    (stay : ∀ l s s', s.Indents k l s' → stays' s' = stays s)
    (complain : ∀ l s s', s.Indents k l s' → s.isBlock = true →
      (complaint' s').deeper 0 = (complaint s).deeper k) :
    (b.unwind stays complaint).Indents k lead (b'.unwind stays' complaint') := by
  generalize hn : b.scopes = scopes
  induction scopes generalizing b b' with
  | nil =>
    have none_left : b'.scopes = [] := h.scopes.nil_iff.2 hn
    rwa [unwind_nil b hn, unwind_nil b' none_left]
  | cons s outer ih =>
    obtain ⟨s', outer', hs', hi, ho⟩ := (hn ▸ h.scopes).cons
    cases hst : stays s with
    | true =>
      rwa [unwind_stays b s outer hn hst, unwind_stays b' s' outer' hs' ((stay _ _ _ hi).trans hst)]
    | false =>
      rw [unwind_folds _ _ b s outer hn hst,
        unwind_folds _ _ b' s' outer' hs' ((stay _ _ _ hi).trans hst)]
      refine ih ?_ rfl
      unfold foldOnce
      rw [hi.isBlock_eq]
      split
      · next block => exact (h.report (complain _ _ _ hi block)).fold hn hi ho
      · exact h.fold hn hi ho

theorem openBlock (h : b.Indents k lead b') {d : Delimiter} (plain : d ≠ .quote)
    (start start' : Position) {indent : Int} (line : 0 ≤ indent) :
    (b.openBlock d start indent).Indents k lead (b'.openBlock d start' (indent + k)) := by
  have mode : d.openingMode? = none := by
    cases d with
    | quote => exact absurd rfl plain
    | round | square | curly => rfl
  unfold Builder.openBlock
  rw [h.scopes.length_eq]
  split
  · exact { h.reportError start start' .nestingTooDeep fun _ => rfl with stopped := rfl }
  · refine ⟨?_, ⟨.block line h.items, h.scopes⟩, ?_, ?_, h.stopped, h.told⟩
    · simp [Alike, Builder.enter]
    · simp [enter, mode, h.regular]
    · simp [enter, mode, h.regular']

theorem unclosedAt (start start' : Position) (found : String) (indent : Int) {l : Bool}
    {s s' : OpenScope} (h : s.Indents k l s') (block : s.isBlock = true) :
    (Builder.unclosedAt start' found (indent + k) s').deeper 0 =
      (Builder.unclosedAt start found indent s).deeper k := by
  cases h with
  | block =>
    simp [Builder.unclosedAt, Diagnostic.deeper, Diagnostic.error, Diagnostic.withNote, Cause.deeper,
      closing]
  | chain => cases block

theorem enter (h : b.Indents k lead b') (d : Delimiter) :
    (b.enter d.closingMode?).Indents k lead (b'.enter d.closingMode?) := by
  have regular : ∀ own : Builder, own.mode = .regular → (own.enter d.closingMode?).mode = .regular := by
    intro own mode
    cases d <;> simp [Builder.enter, Delimiter.closingMode?, mode]
  exact { h with regular := regular b h.regular, regular' := regular b' h.regular' }

theorem closeTop (h : b.Indents k lead b') (d : Delimiter) (start start' : Position) (indent : Int) :
    (b.closeTop d start indent).Indents k lead (b'.closeTop d start' (indent + k)) := by
  have extra := h.reportError start start' .extraCloser fun _ => rfl
  unfold Builder.closeTop
  cases hs : b.scopes with
  | nil =>
    rw [h.scopes.nil_iff.2 hs]
    exact extra
  | cons s outer =>
    obtain ⟨s', outer', hs', hi, ho⟩ := (hs ▸ h.scopes).cons
    rw [hs']
    dsimp only
    rw [hi.closedBy_eq]
    split
    · exact (h.fold hs hi ho).enter d
    · exact extra

theorem close (h : b.Indents k lead b') (d : Delimiter) (start start' : Position) {indent : Int}
    (line : 0 ≤ indent) :
    (b.close d start indent).Indents k lead (b'.close d start' (indent + k)) := by
  have folded : (b.foldToCloser d start indent).Indents k lead
      (b'.foldToCloser d start' (indent + k)) :=
    h.unwind (fun l s s' hi => by rw [hi.closedBy_eq, hi.holds_eq line])
      fun l s s' hi block => unclosedAt start start' d.closing indent hi block
  rw [close_eq, close_eq]
  exact folded.closeTop d start start' indent

theorem wrap (h : b.Indents k lead b') (w : Wrapper) (start start' : Position) {indent : Int}
    (line : 0 ≤ indent) :
    (b.wrap w start indent).Indents k lead (b'.wrap w start' (indent + k)) := by
  have folded :
      (b.unwind (·.holds indent w.tier) (Builder.unclosedAt start w.spelling indent)).Indents k lead
        (b'.unwind (·.holds (indent + k) w.tier)
          (Builder.unclosedAt start' w.spelling (indent + k))) :=
    h.unwind (fun l s s' hi => hi.holds_eq line w.tier)
      fun l s s' hi block => unclosedAt start start' w.spelling indent hi block
  refine { folded with items := ?_ }
  simp only [Builder.wrap, wrapItems, Array.toList_push]
  exact folded.items.wrapped _ _ w.blockTag w.spelling

theorem startChain (h : b.Indents k lead b') (j : Joiner) (start start' next next' : Position) :
    (b.startChain j start next).Indents k lead (b'.startChain j start' next') where
  items := by simp [Alike, Builder.startChain]
  scopes := by
    refine ⟨.chain h.scopes.topIndent rfl rfl ?_, h.scopes⟩
    simp only [OpenChain.extend, Array.toList_push]
    exact (h.items.group _ _ rfl).append (by rw [unplaced_leaf, unplaced_leaf])
  regular := h.regular
  regular' := h.regular'
  stopped := h.stopped
  told := h.told

theorem extendChain (h : b.Indents k lead b') {pos pos' : Position} {indent indent' : Int}
    {c c' : OpenChain} {before before' : Array Tree} {outer outer' : List OpenScope}
    (hs : b.scopes = ⟨pos, indent, .chain c, before⟩ :: outer)
    (hi : OpenScope.Indents k (lead && outer.isEmpty) ⟨pos, indent, .chain c, before⟩
      ⟨pos', indent', .chain c', before'⟩)
    (ho : AllIndent k lead outer outer') (j : Joiner) (start start' next next' : Position) :
    (b.extendChain ⟨pos, indent, .chain c, before⟩ c outer j start next).Indents k lead
      (b'.extendChain ⟨pos', indent', .chain c', before'⟩ c' outer' j start' next') := by
  have inner := h.items
  rw [hs, List.isEmpty_cons, Bool.and_false] at inner
  cases hi with
  | chain level tag tier same =>
    have mixed : ((Diagnostic.error start' .mixedOperators).withNote c'.firstOperator
          .previousOperator).deeper 0 =
        ((Diagnostic.error start .mixedOperators).withNote c.firstOperator
          .previousOperator).deeper k := by
      simp [Diagnostic.deeper, Diagnostic.error, Diagnostic.withNote, Cause.deeper]
    have extended : OpenScope.Indents k (lead && outer.isEmpty)
        ⟨pos, indent, .chain (c.extend b.items.toList j start next), #[]⟩
        ⟨pos', indent', .chain (c'.extend b'.items.toList j start' next'), #[]⟩ := by
      refine .chain level tag tier ?_
      simp only [OpenChain.extend, Array.toList_push]
      refine (same.append ?_).append ?_
      · rw [unplaced_segment, unplaced_segment, inner]
      · rw [unplaced_leaf, unplaced_leaf]
    unfold Builder.extendChain
    rw [tag]
    split
    · exact { h with items := by simp [Alike], scopes := ⟨extended, ho⟩ }
    · exact { h.report mixed with items := by simp [Alike], scopes := ⟨extended, ho⟩ }

theorem joinTop (h : b.Indents k lead b') (j : Joiner) (start start' next next' : Position) :
    (b.joinTop j start next).Indents k lead (b'.joinTop j start' next') := by
  unfold Builder.joinTop
  cases hs : b.scopes with
  | nil =>
    rw [h.scopes.nil_iff.2 hs]
    exact h.startChain j start start' next next'
  | cons s outer =>
    obtain ⟨s', outer', hs', hi, ho⟩ := (hs ▸ h.scopes).cons
    rw [hs']
    dsimp only
    rw [hi.tier_eq]
    split
    · exact h.startChain j start start' next next'
    · cases id hi with
      | block =>
        have shared : ∀ n pos, (Diagnostic.unreachable pos .sharedTier).deeper n =
            .unreachable default .sharedTier := fun _ _ => by
          simp [Diagnostic.deeper, Diagnostic.unreachable, Cause.deeper]
        exact { h.report ((shared 0 start').trans (shared k start).symm) with stopped := rfl }
      | chain => exact h.extendChain hs hi ho j start start' next next'

theorem join (h : b.Indents k lead b') (j : Joiner) (start start' next next' : Position) :
    (b.join j start next).Indents k lead (b'.join j start' next') := by
  rw [join_eq, join_eq]
  have folded : (b.foldTighter j start).Indents k lead (b'.foldTighter j start') :=
    h.unwind (fun l s s' hi => by rw [hi.tier_eq]) fun l s s' _ _ => by
      simp [Diagnostic.deeper, Diagnostic.error, Diagnostic.withNote, Cause.deeper]
  exact folded.joinTop j start start' next next'

theorem finish (h : b.Indents k lead b') (stop stop' : Position) :
    (b.finish stop).Indents k lead (b'.finish stop') :=
  h.unwind (fun _ _ _ _ => rfl) fun l s s' _ _ => by
    simp [Diagnostic.deeper, Diagnostic.error, Diagnostic.withNote, Cause.deeper]

theorem isSoft_eq (h : b.Indents k lead b') (next? : Option Char) :
    b'.isSoft next? = b.isSoft next? := by
  simp only [Builder.isSoft, h.items.all_isBlank]

theorem place (h : b.Indents k lead b') {last : Bool} {l : Lexeme} (plain : l ≠ .mark (.opener .quote))
    (start start' : Position) {after after' : Cursor} (indents : after.Indents last k after')
    (level : ∀ p, l = .mark p → after'.indent = after.indent + k) :
    (b.place l start after).Indents k lead (b'.place l start' after') := by
  cases l with
  | leaf content => exact h.addLeaf start start' content
  | lineBreak =>
    have next : after'.peek? = after.peek? := by
      rw [Cursor.peek?, Cursor.peek?, indents.rest, head?_indentLater]
    simp only [Builder.place, next, h.isSoft_eq]
    split
    · exact h.addLeaf start start' _
    · exact h.join .lineBreak start start' _ _
  | mark p =>
    have line : (0 : Int) ≤ after.indent := Int.natCast_nonneg _
    have further : (after'.indent : Int) = after.indent + k := by
      rw [level p rfl, Int.natCast_add]
    cases p with
    | opener d =>
      have block : d ≠ .quote := by
        rintro rfl
        exact plain rfl
      simp only [Builder.place, further]
      exact h.openBlock block start start' line
    | closer d =>
      simp only [Builder.place, further]
      exact h.close d start start' line
    | wrapper w =>
      simp only [Builder.place, further]
      exact h.wrap w start start' line
    | joiner j => exact h.join j start start' _ _
  | badEscape found =>
    have told := h.reportError start start' (.badEscape found) fun _ => rfl
    exact told.addLeaf start start' .error
  | badToken spelling =>
    have told := h.reportError start start' (.badToken spelling) fun _ => rfl
    exact told.addLeaf start start' .error

end Indents

end Builder

theorem Lexeme.nextRegular_ne_quote {first : Char} (plain : first ≠ '\"') (after : Cursor) :
    (nextRegular first after).1 ≠ .mark (.opener .quote) := by
  have spelled : ∀ run, ofSpelling (first :: run) ≠ .mark (.opener .quote) := by
    intro run quote
    have spelling := congrArg String.toList (spelling_of_ofSpelling quote)
    rw [String.toList_ofList] at spelling
    exact plain (List.cons.inj spelling).1.symm
  unfold nextRegular
  split
  · next named hn =>
    obtain ⟨content, leaf⟩ := (name?_run hn).1
    rw [leaf]
    exact fun h => by cases h
  · split
    · exact ofBlanks_ne_mark _ _
    · split <;> exact spelled _

theorem Lexeme.next_plain (mode : Mode) (first : Char) (after : Cursor) (plain : '\"' ∉ after.rest) :
    '\"' ∉ (next mode first after).2.rest := by
  refine next_rule (P := fun c => '\"' ∉ c.rest) ?_ mode first plain
  intro c ch rest hr none_here
  rw [hr, List.mem_cons, not_or] at none_here
  rw [Cursor.past_rest]
  exact none_here.2

namespace Builder

variable {k : Nat} {last lead : Bool} {b b' : Builder} {c c' : Cursor}

theorem next_indents (h : b.Indents k lead b') (indents : c.Indents last k c') (plain : '\"' ∉ c.rest)
    {first : Char} {after : Cursor} (taken : c.take? = some (first, after)) :
    ∃ after', c'.take? = some (first, after') ∧
      (b.place (Lexeme.next b.mode first after).1 c.position (Lexeme.next b.mode first after).2).Indents
        k lead (b'.place (Lexeme.next b'.mode first after').1 c'.position
          (Lexeme.next b'.mode first after').2) ∧
      (Lexeme.next b.mode first after).2.Indents last k (Lexeme.next b'.mode first after').2 ∧
      '\"' ∉ (Lexeme.next b.mode first after).2.rest := by
  obtain ⟨after', taken', same, later, level⟩ := Lexeme.nextRegular_indents indents taken
  obtain ⟨rest, rfl, hr⟩ := Cursor.rest_of_take? taken
  rw [hr, List.mem_cons, not_or] at plain
  have behind := Lexeme.next_plain .regular first (c.past first rest) (by simpa using plain.2)
  have quote := Lexeme.nextRegular_ne_quote (Ne.symm plain.1) (c.past first rest)
  rw [h.regular, h.regular']
  refine ⟨after', taken', ?_, later, behind⟩
  rw [Lexeme.next, same]
  exact h.place quote c.position c'.position later level

theorem run_indents (h : b.Indents k lead b') (indents : c.Indents last k c') (plain : '\"' ∉ c.rest) :
    (b.run c).1.Indents k lead (b'.run c').1 := by
  fun_induction Builder.run b c generalizing b' c'
  case case1 b c ht =>
    have ended : c'.take? = none := by
      unfold Cursor.take? at ht ⊢
      rw [indents.rest]
      split at ht
      · next hr => rw [hr]; rfl
      · cases ht
    rwa [run_end b' ended]
  case case2 b c first after ht lexed placed hs =>
    obtain ⟨after', taken', same, -, -⟩ := next_indents h indents plain ht
    rw [run_next b' taken', if_pos (same.stopped.trans hs)]
    exact same
  case case3 b c first after ht lexed placed hs ih =>
    obtain ⟨after', taken', same, later, behind⟩ := next_indents h indents plain ht
    have going : ¬ (b'.place (Lexeme.next b'.mode first after').1 c'.position
        (Lexeme.next b'.mode first after').2).stopped = true := by
      rw [same.stopped]
      exact hs
    rw [run_next b' taken', if_neg going]
    exact ih same later behind

theorem run_indents_next {first first' : Char} {after after' : Cursor}
    (taken : c.take? = some (first, after)) (taken' : c'.take? = some (first', after'))
    (same : (b.place (Lexeme.next b.mode first after).1 c.position
        (Lexeme.next b.mode first after).2).Indents k lead
      (b'.place (Lexeme.next b'.mode first' after').1 c'.position (Lexeme.next b'.mode first' after').2))
    (later : (Lexeme.next b.mode first after).2.Indents last k (Lexeme.next b'.mode first' after').2)
    (plain : '\"' ∉ (Lexeme.next b.mode first after).2.rest) :
    (b.run c).1.Indents k lead (b'.run c').1 := by
  rw [run_next b taken, run_next b' taken', same.stopped]
  split
  · exact same
  · exact run_indents same later plain

theorem empty_indents : empty.Indents k false empty :=
  ⟨rfl, trivial, rfl, rfl, rfl, rfl⟩

theorem empty_indents_blank (pos : Position) :
    empty.Indents k true (empty.add (.leaf pos (.whitespace false))) :=
  ⟨.blank default [], trivial, rfl, rfl, rfl, rfl⟩

/-- The margin of the first line is read with the blanks that the line begins with. If it begins with
none, the margin is one more blank. -/
theorem run_margin {later : Cursor} {n : Nat} (indents : c.Indents last k later) (plain : '\"' ∉ c.rest)
    (split : c'.rest = List.replicate (n + 1) ' ' ++ indentLater last k c.rest)
    (run : c'.takeWhile Text.isBlank =
      (List.replicate (n + 1) ' ' ++ (Cursor.takeRun Text.isBlank (indentLater last k c.rest) later).1,
        (Cursor.takeRun Text.isBlank (indentLater last k c.rest) later).2)) :
    ∃ lead, (empty.run c).1.Indents k lead (empty.run c').1 := by
  have taken' : c'.take? =
      some (' ', c'.past ' ' (List.replicate n ' ' ++ indentLater last k c.rest)) := by
    rw [Cursor.take?, split]
    rfl
  have lexed' : Lexeme.next empty.mode ' '
      (c'.past ' ' (List.replicate n ' ' ++ indentLater last k c.rest)) =
      (Lexeme.ofBlanks (c'.takeWhile Text.isBlank).1, (c'.takeWhile Text.isBlank).2) :=
    Lexeme.nextRegular_of_blank taken' (by decide)
  rw [run] at lexed'
  by_cases solid : ∀ ch ∈ c.rest.head?, Text.isBlank ch = false
  · rw [Cursor.takeRun_solid solid] at lexed'
    have blank : Lexeme.ofBlanks (List.replicate (n + 1) ' ' ++ []) = .leaf (.whitespace false) :=
      Lexeme.ofBlanks_of_not_mem (by simp)
    rw [blank] at lexed'
    refine ⟨true, ?_⟩
    rw [run_next empty taken', lexed']
    exact run_indents (empty_indents_blank c'.position) indents plain
  · obtain ⟨first, rest, hr, blank⟩ :
        ∃ first rest, c.rest = first :: rest ∧ Text.isBlank first = true := by
      cases hr : c.rest with
      | nil => simp [hr] at solid
      | cons first rest => exact ⟨first, rest, rfl, by simpa [hr] using solid⟩
    have taken : c.take? = some (first, c.past first rest) := by rw [Cursor.take?, hr]
    have lexed : Lexeme.next empty.mode first (c.past first rest) =
        (Lexeme.ofBlanks (c.takeWhile Text.isBlank).1, (c.takeWhile Text.isBlank).2) :=
      Lexeme.nextRegular_of_blank taken blank
    obtain ⟨ends, behind⟩ := indents.takeRun c.rest rfl
    have same : Lexeme.ofBlanks (List.replicate (n + 1) ' ' ++
        (Cursor.takeRun Text.isBlank (indentLater last k c.rest) later).1) =
          Lexeme.ofBlanks (c.takeWhile Text.isBlank).1 := by
      rw [Cursor.takeWhile]
      simp only [Lexeme.ofBlanks, ← ends]
      simp
    have none_later := Lexeme.next_plain empty.mode first (c.past first rest)
      (by rw [Cursor.past_rest]; exact fun quote => plain (hr ▸ List.mem_cons_of_mem _ quote))
    refine ⟨false, run_indents_next taken taken' ?_ (?_ : Cursor.Indents last k _ _) none_later⟩
    · rw [lexed, lexed', same]
      exact empty_indents.place (Lexeme.ofBlanks_ne_mark _ _) c.position c'.position behind
        fun p mark => absurd mark (Lexeme.ofBlanks_ne_mark _ p)
    · rw [lexed, lexed']
      exact behind

theorem run_reindent (file : String) (last : Bool) (k : Nat) {text : List Char} (plain : '\"' ∉ text) :
    ∃ lead, (empty.run (.start file text)).1.Indents k lead
      (empty.run (.start file (reindent last k text))).1 := by
  have rest : (Cursor.start file text).rest = text := rfl
  have rest' : (Cursor.start file (reindent last k text)).rest = reindent last k text := rfl
  obtain ⟨n, later, indents, first, split, run⟩ := Cursor.indents_line last k rest rfl rest' rfl
  cases n with
  | zero =>
    rw [← first rfl]
    exact ⟨false, run_indents empty_indents indents plain⟩
  | succ n => exact run_margin indents plain split run

end Builder

/-- Where each line of a text is as much further in, it has the same tree, positions apart, but for
one blank at its very beginning. The same is told of it, with the same numbers more for all
indentations. -/
theorem tokenize_reindent (file : String) (last : Bool) (k : Nat) {text : List Char}
    (plain : '\"' ∉ text) :
    (unplaced (tokenize file (reindent last k text)).nodes = unplaced (tokenize file text).nodes ∨
        Led (unplaced (tokenize file text).nodes)
          (unplaced (tokenize file (reindent last k text)).nodes)) ∧
      (tokenize file (reindent last k text)).diagnostics.map (Diagnostic.deeper 0) =
        (tokenize file text).diagnostics.map (Diagnostic.deeper k) := by
  obtain ⟨lead, same⟩ := Builder.run_reindent file last k plain
  have ends := same.finish (Builder.empty.run (.start file text)).2.position
    (Builder.empty.run (.start file (reindent last k text))).2.position
  refine ⟨?_, ends.told⟩
  have items := ends.items
  rw [Builder.finish_scopes] at items
  cases lead with
  | false => exact Or.inl items
  | true => exact Or.inr items

/-- The parenthesis is not closed, and what is told of it names the indentations. -/
theorem tokenize_reindent_unclosed :
    '\"' ∉ "(a\n]: b".toList ∧
      (unplaced (tokenize "t.cvl" "   (a\n   ]: b".toList).nodes =
          unplaced (tokenize "t.cvl" "(a\n]: b".toList).nodes ∨
        Led (unplaced (tokenize "t.cvl" "(a\n]: b".toList).nodes)
          (unplaced (tokenize "t.cvl" "   (a\n   ]: b".toList).nodes)) ∧
      (tokenize "t.cvl" "   (a\n   ]: b".toList).diagnostics.map (Diagnostic.deeper 0) =
        (tokenize "t.cvl" "(a\n]: b".toList).diagnostics.map (Diagnostic.deeper 3) := by
  have plain : '\"' ∉ "(a\n]: b".toList := by decide
  have lines : reindent true 3 "(a\n]: b".toList = "   (a\n   ]: b".toList := by decide
  have same := tokenize_reindent "t.cvl" true 3 plain
  rw [lines] at same
  exact ⟨plain, same⟩

end NamespaceLang

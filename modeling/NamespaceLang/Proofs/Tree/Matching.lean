import Mathlib.Data.List.Pairwise
import NamespaceLang.Proofs.Tree.Seams

/-!
# Which closer ends which bracket

Of each bracket either it is told, once, that it is not closed, or one closer
ends it: of its own kind, on a line of the same indentation, behind all that the
bracket holds and before all that follows it. Of each closer either it is told,
once, that it is one too many, or it ends one bracket. No two tokens begin at
one place, and no two brackets, so that all of this can be read off the two
rows of tokens and of seams.
-/

set_option autoImplicit false

namespace NamespaceLang

open NamespaceLang.Tree

/-- How often it is told of this place. -/
def toldAt (cause : Cause) (pos : Position) (ds : List Diagnostic) : Nat :=
  ds.countP fun d => d.cause? == some cause && d.pos? == some pos

theorem toldAt_eq_count {cause : Cause} (h : cause.ofBrackets = true) (pos : Position)
    (ds : List Diagnostic) : toldAt cause pos ds = (verdicts ds).count (cause, pos) := by
  rw [verdicts, List.count_filterMap]
  refine List.countP_congr fun d _ => ?_
  obtain ⟨entries, trace⟩ := d
  cases entries with
  | nil => simp [Diagnostic.cause?, Diagnostic.verdict?]
  | cons e rest =>
    by_cases same : e.cause = cause
    · simp [Diagnostic.cause?, Diagnostic.pos?, Diagnostic.verdict?, same, h]
    · have other : ∀ verdict, (Diagnostic.mk (e :: rest) trace).verdict? = some verdict →
          verdict.1 = e.cause := by
        intro verdict hv
        simp only [Diagnostic.verdict?, List.head?_cons] at hv
        split at hv
        · obtain ⟨_, -, rfl⟩ := Option.map_eq_some_iff.1 hv
          rfl
        · cases hv
      have apart : (Diagnostic.mk (e :: rest) trace).verdict? ≠ some (cause, pos) := fun hv =>
        same (other _ hv).symm
      simp [Diagnostic.cause?, same, apart]

namespace Seam

def begins? : Seam → Option Position
  | .leaf begun _ | .opening begun _ => some begun
  | .closing .. => none

def opening? : Seam → Option Position
  | .opening begun _ => some begun
  | _ => none

def ended? : Seam → Option Position
  | .closing begun (.block _ spelled _) => if spelled = "" then none else some begun
  | _ => none

end Seam

namespace Tree

/-- Whether the node is a block with an opening spelling. -/
def isBracket (node : Tree) : Bool :=
  match node.form? with
  | some (.block _ spelled _) => spelled != ""
  | _ => false

mutual

theorem openings_seams : (node : Tree) →
    node.seams.filterMap Seam.opening? = (node.preorder.filter isBracket).map Tree.pos
  | .leaf .. => rfl
  | .group at_ form items => by
    have inner := openings_seamsAll items
    cases form with
    | block tag opening closing =>
      by_cases none_spelled : opening = ""
      · simp [seams, preorder, Form.openingSeams, Form.closingSeams, none_spelled, inner, isBracket,
          form?, Seam.opening?, List.filterMap_cons]
      · simp [seams, preorder, Form.openingSeams, Form.closingSeams, none_spelled, inner, isBracket,
          form?, Seam.opening?, Tree.pos, List.filterMap_cons, List.filter_cons]
    | _ => simp [seams, preorder, Form.openingSeams, Form.closingSeams, inner, isBracket, form?]

theorem openings_seamsAll : (nodes : List Tree) →
    (seamsAll nodes).filterMap Seam.opening? = ((preorderAll nodes).filter isBracket).map Tree.pos
  | [] => rfl
  | node :: rest => by
    simp only [seamsAll, preorderAll, List.filterMap_append, List.filter_append, List.map_append,
      openings_seams node, openings_seamsAll rest]

end

mutual

theorem ends_seams : (node : Tree) →
    (node.seams.filterMap Seam.ended?).Perm (node.seams.filterMap Seam.opening?)
  | .leaf .. => by simp [seams, Seam.ended?, Seam.opening?, List.filterMap_cons]
  | .group at_ form items => by
    have inner := ends_seamsAll items
    cases form with
    | block tag opening closing =>
      by_cases none_spelled : opening = ""
      · simpa [seams, Form.openingSeams, Form.closingSeams, none_spelled, Seam.opening?,
          Seam.ended?, List.filterMap_cons] using inner
      · simp only [seams, Form.openingSeams, Form.closingSeams, none_spelled, if_false,
          List.filterMap_append, List.filterMap_cons, List.filterMap_nil, Seam.opening?, Seam.ended?,
          List.append_nil, List.nil_append]
        exact (List.perm_append_singleton at_ _).trans (inner.cons at_)
    | _ => simpa [seams, Form.openingSeams, Form.closingSeams] using inner

theorem ends_seamsAll : (nodes : List Tree) →
    ((seamsAll nodes).filterMap Seam.ended?).Perm ((seamsAll nodes).filterMap Seam.opening?)
  | [] => .refl _
  | node :: rest => by
    simp only [seamsAll, List.filterMap_append]
    exact (ends_seams node).append (ends_seamsAll rest)

end

mutual

theorem seams_within {block : Tree} : (node : Tree) → block ∈ node.preorder →
    block.seams <:+: node.seams
  | .leaf at_ content, h => by
    obtain rfl := List.mem_singleton.1 h
    exact List.infix_refl _
  | .group at_ form items, h => by
    rcases List.mem_cons.1 h with rfl | below
    · exact List.infix_refl _
    · refine (seamsAll_within items below).trans ?_
      exact ⟨form.openingSeams at_, form.closingSeams at_, rfl⟩

theorem seamsAll_within {block : Tree} : (nodes : List Tree) → block ∈ preorderAll nodes →
    block.seams <:+: seamsAll nodes
  | [], h => by cases h
  | node :: rest, h => by
    rcases List.mem_append.1 h with here | later
    · exact (seams_within node here).trans ⟨[], seamsAll rest, rfl⟩
    · exact (seamsAll_within rest later).trans ⟨node.seams, [], by simp [seamsAll]⟩

end

mutual

theorem exists_of_closing {begun : Position} {own : Form} : (node : Tree) →
    Seam.closing begun own ∈ node.seams →
      ∃ block ∈ node.preorder, block.pos = begun ∧ block.form? = some own
  | .leaf at_ content, h => by simp [seams] at h
  | .group at_ form items, h => by
    have below : Seam.closing begun own ∈ seamsAll items →
        ∃ block ∈ (Tree.group at_ form items).preorder, block.pos = begun ∧ block.form? = some own := by
      intro inside
      obtain ⟨block, hm, found⟩ := exists_of_closing_all items inside
      exact ⟨block, List.mem_cons_of_mem _ hm, found⟩
    cases form with
    | block tag opening closing =>
      simp only [seams, List.mem_append] at h
      rcases h with (first | inside) | last
      · unfold Form.openingSeams at first
        dsimp only at first
        split at first <;> simp at first
      · exact below inside
      · obtain ⟨rfl, rfl⟩ : begun = at_ ∧ own = .block tag opening closing := by
          simpa [Form.closingSeams] using last
        exact ⟨_, List.mem_cons_self, rfl, rfl⟩
    | _ => exact below (by simpa [seams, Form.openingSeams, Form.closingSeams] using h)

theorem exists_of_closing_all {begun : Position} {own : Form} : (nodes : List Tree) →
    Seam.closing begun own ∈ seamsAll nodes →
      ∃ block ∈ preorderAll nodes, block.pos = begun ∧ block.form? = some own
  | [], h => by cases h
  | node :: rest, h => by
    rcases List.mem_append.1 h with here | later
    · obtain ⟨block, hm, found⟩ := exists_of_closing node here
      exact ⟨block, List.mem_append_left _ hm, found⟩
    · obtain ⟨block, hm, found⟩ := exists_of_closing_all rest later
      exact ⟨block, List.mem_append_right _ hm, found⟩

end

end Tree

theorem Delimiter.opening_spelled (d : Delimiter) : d.opening ≠ "" := by cases d <;> decide

theorem Delimiter.ended_form (d : Delimiter) (begun : Position) :
    (Seam.closing begun d.form).ended? = some begun := if_neg d.opening_spelled

namespace Stitch

def isMade : Stitch → Bool
  | .made .. => true
  | _ => false

def ended? (stitch : Stitch) : Option Position := stitch.seam?.bind Seam.ended?

structure Apart (a b : Stitch) : Prop where
  tokens : ∀ t ∈ a.token?, ∀ u ∈ b.token?, t.start ≠ u.start
  ends : ∀ p ∈ a.ended?, ∀ q ∈ b.ended?, p ≠ q

instance : Std.Symm Apart where
  symm _ _ h :=
    ⟨fun t ht u hu => (h.tokens u hu t ht).symm, fun p hp q hq => (h.ends q hq p hp).symm⟩

theorem Apart.verdicts {a b : Stitch} (h : a.Apart b) :
    ∀ v ∈ a.verdict?, ∀ w ∈ b.verdict?, v ≠ w := by
  rintro v hv w hw rfl
  cases a <;> cases b <;> simp [verdict?] at hv hw <;> try simp [← hv] at hw
  · next begun d begun' d' =>
    refine h.ends begun (d.ended_form begun) begun' (d'.ended_form begun') hw.symm
  · exact h.tokens _ rfl _ rfl hw.symm
  · exact h.tokens _ rfl _ rfl hw.symm

end Stitch

theorem openings_sublist {text : List Char} {stitches : List Stitch}
    (h : ∀ stitch ∈ stitches, stitch.Sound text) :
    ((stitches.filterMap Stitch.seam?).filterMap Seam.opening?).Sublist
      ((stitches.filterMap Stitch.token?).map (·.start)) := by
  induction stitches with
  | nil => exact .slnil
  | cons stitch rest ih =>
    obtain ⟨here, later⟩ := List.forall_mem_cons.1 h
    have ih := ih later
    cases stitch with
    | made t seam =>
      simp only [List.filterMap_cons, Stitch.seam?, Stitch.token?, List.map_cons]
      cases (show t.Makes text seam from here) with
      | opener start after d => exact ih.cons_cons _
      | leaf shown => exact ih.cons _
      | closer => exact ih.cons _
      | wrapper => exact ih.cons _
    | unclosed begun d => simpa [Stitch.seam?, Stitch.token?, List.filterMap_cons, Seam.opening?] using ih
    | extra start after d =>
      simp only [List.filterMap_cons, Stitch.seam?, Stitch.token?, List.map_cons]
      exact ih.cons _
    | refused start after d =>
      simp only [List.filterMap_cons, Stitch.seam?, Stitch.token?, List.map_cons]
      exact ih.cons _

/-- The two rows of a text, place by place, no two of them the same, and what is told of them. -/
structure Sewn (text : List Char) (ds : List Diagnostic) (stitches : List Stitch) : Prop where
  sound : ∀ stitch ∈ stitches, stitch.Sound text
  told : stitches.filterMap Stitch.verdict? = verdicts ds
  apart : stitches.Pairwise Stitch.Apart

theorem lexed_starts (file : String) (text : List Char) : ((lexed file text).map (·.start)).Nodup := by
  refine List.pairwise_map.2 ((Builder.empty.lexed_sorted (.start file text)).2.imp ?_)
  intro t u lt same
  rw [same] at lt
  exact Nat.lt_irrefl _ lt

theorem exists_sewn (file : String) (text : List Char) :
    ∃ stitches, Sewn text (tokenize file text).diagnostics stitches ∧
      stitches.filterMap Stitch.token? = lexed file text ∧
      stitches.filterMap Stitch.seam? = seamsAll (tokenize file text).nodes := by
  obtain ⟨stitches, sound, tokens, seams, told⟩ := tokenize_sewn file text
  have starts := lexed_starts file text
  have begins : ((seamsAll (tokenize file text).nodes).filterMap Seam.opening?).Nodup := by
    have some_of := openings_sublist sound
    rw [tokens, seams] at some_of
    exact starts.sublist some_of
  have ends : (stitches.filterMap Stitch.ended?).Nodup := by
    have once := (ends_seamsAll (tokenize file text).nodes).nodup_iff.2 begins
    rwa [← seams, List.filterMap_filterMap] at once
  refine ⟨stitches, ⟨sound, told, ?_⟩, tokens, seams⟩
  rw [← tokens] at starts
  have by_tokens := List.pairwise_filterMap.1 (List.pairwise_map.1 starts)
  have by_ends := List.pairwise_filterMap.1 ends
  exact (by_tokens.and by_ends).imp fun ⟨h, h'⟩ => ⟨h, h'⟩

theorem brackets_apart (file : String) (text : List Char) {block block' : Tree}
    (hm : block ∈ preorderAll (tokenize file text).nodes)
    (hm' : block' ∈ preorderAll (tokenize file text).nodes) (hb : block.isBracket = true)
    (hb' : block'.isBracket = true) (same : block.pos = block'.pos) : block = block' := by
  obtain ⟨stitches, sewn, tokens, seams⟩ := exists_sewn file text
  have some_of := openings_sublist sewn.sound
  rw [tokens, seams, openings_seamsAll] at some_of
  exact List.inj_on_of_nodup_map ((lexed_starts file text).sublist some_of)
    (List.mem_filter.2 ⟨hm, hb⟩) (List.mem_filter.2 ⟨hm', hb'⟩) same

namespace Sewn

variable {text : List Char} {ds : List Diagnostic} {stitches : List Stitch}

theorem unique (h : Sewn text ds stitches) {a b : Stitch} (ha : a ∈ stitches) (hb : b ∈ stitches)
    (share : ¬ a.Apart b) : a = b :=
  Classical.byContradiction fun other => share (h.apart.forall ha hb other)

theorem same_token (h : Sewn text ds stitches) {a b : Stitch} (ha : a ∈ stitches)
    (hb : b ∈ stitches) {t u : Token} (ht : a.token? = some t) (hu : b.token? = some u)
    (same : t.start = u.start) : a = b :=
  h.unique ha hb fun apart => apart.tokens t ht u hu same

theorem same_end (h : Sewn text ds stitches) {a b : Stitch} (ha : a ∈ stitches)
    (hb : b ∈ stitches) {begun : Position} {d d' : Delimiter}
    (hd : a.seam? = some (.closing begun d.form)) (hd' : b.seam? = some (.closing begun d'.form)) :
    a = b := by
  have ended : ∀ {c : Stitch} {d : Delimiter}, c.seam? = some (.closing begun d.form) →
      c.ended? = some begun := by
    intro c d hc
    rw [Stitch.ended?, hc]
    exact d.ended_form begun
  exact h.unique ha hb fun apart => apart.ends begun (ended hd) begun (ended hd') rfl

theorem verdicts_nodup (h : Sewn text ds stitches) : (verdicts ds).Nodup := by
  rw [← h.told]
  exact List.pairwise_filterMap.2 (h.apart.imp fun apart => apart.verdicts)

theorem toldAt_one (h : Sewn text ds stitches) {stitch : Stitch} (hm : stitch ∈ stitches)
    {cause : Cause} (hc : cause.ofBrackets = true) {pos : Position}
    (hv : stitch.verdict? = some (cause, pos)) : toldAt cause pos ds = 1 := by
  rw [toldAt_eq_count hc]
  refine List.count_eq_one_of_mem h.verdicts_nodup ?_
  rw [← h.told]
  exact List.mem_filterMap.2 ⟨stitch, hm, hv⟩

theorem toldAt_zero (h : Sewn text ds stitches) {cause : Cause} (hc : cause.ofBrackets = true)
    {pos : Position} (none_tells : ∀ stitch ∈ stitches, stitch.verdict? ≠ some (cause, pos)) :
    toldAt cause pos ds = 0 := by
  rw [toldAt_eq_count hc, List.count_eq_zero, ← h.told]
  intro hm
  obtain ⟨stitch, hs, hv⟩ := List.mem_filterMap.1 hm
  exact none_tells stitch hs hv

end Sewn

def Token.dropped (ds : List Diagnostic) (t : Token) : Bool :=
  match t.lexeme with
  | .mark (.closer _) => toldAt .extraCloser t.start ds != 0
  | .mark (.opener _) => toldAt .nestingTooDeep t.start ds != 0
  | _ => false

def Seam.dropped (ds : List Diagnostic) : Seam → Bool
  | .closing begun (.block _ spelled _) => spelled != "" && toldAt .unclosedBracket begun ds != 0
  | _ => false

/-- The tokens are where the seams are, one by one, apart from those that it is told of. -/
def Match (text : List Char) (ds : List Diagnostic) (tokens : List Token) (seams : List Seam) : Prop :=
  List.Forall₂ (Token.Makes text) (tokens.filter (!·.dropped ds)) (seams.filter (!·.dropped ds))

theorem Token.Makes.begins {text : List Char} {t : Token} {seam : Seam} (h : t.Makes text seam)
    {pos : Position} (hp : seam.begins? = some pos) : t.start = pos := by
  cases h with
  | leaf shown =>
    cases hp
    cases shown <;> rfl
  | opener => exact Option.some.inj hp
  | closer | wrapper => cases hp

theorem exists_beside {α β : Type} {R : α → β → Prop} {left : List α} {right : List β}
    (h : List.Forall₂ R left right) {b : β} (hm : b ∈ right) : ∃ a ∈ left, R a b := by
  induction h with
  | nil => cases hm
  | cons here _ ih =>
    rcases List.mem_cons.1 hm with rfl | later
    · exact ⟨_, List.mem_cons_self, here⟩
    · obtain ⟨a, ha, beside⟩ := ih later
      exact ⟨a, List.mem_cons_of_mem _ ha, beside⟩

theorem Match.begins {text : List Char} {ds : List Diagnostic} {tokens : List Token}
    {seams : List Seam} (h : Match text ds tokens seams) {seam : Seam} (hm : seam ∈ seams)
    {pos : Position} (hp : seam.begins? = some pos) : ∃ t ∈ tokens, t.start = pos := by
  have kept : seam.dropped ds = false := by
    cases seam with
    | closing => cases hp
    | _ => rfl
  have stays : seam ∈ seams.filter (!·.dropped ds) := List.mem_filter.2 ⟨hm, by simp [kept]⟩
  obtain ⟨t, ht, makes⟩ := exists_beside h stays
  exact ⟨t, (List.mem_filter.1 ht).1, makes.begins hp⟩

theorem dropped_of_shows {t : Token} {pos : Position} {content : Leaf} (ds : List Diagnostic)
    (h : t.Shows (.leaf pos content)) : t.dropped ds = false := by
  cases h <;> rfl

theorem Delimiter.dropped_form (d : Delimiter) (begun : Position) (ds : List Diagnostic) :
    (Seam.closing begun d.form).dropped ds = (toldAt .unclosedBracket begun ds != 0) := by
  cases d <;> rfl

namespace Sewn

variable {text : List Char} {ds : List Diagnostic} {stitches : List Stitch}

theorem untold (h : Sewn text ds stitches) {t : Token} {d : Delimiter} {begun : Position}
    (hm : .made t (.closing begun d.form) ∈ stitches) :
    toldAt .unclosedBracket begun ds = 0 ∧ toldAt .extraCloser t.start ds = 0 := by
  refine ⟨h.toldAt_zero rfl fun stitch hs hv => ?_, h.toldAt_zero rfl fun stitch hs hv => ?_⟩
  · cases stitch with
    | unclosed begun' d' =>
      obtain rfl : begun' = begun := by simpa [Stitch.verdict?] using hv
      have seam : (Stitch.unclosed begun' d').seam? = some (.closing begun' d'.form) := rfl
      cases h.same_end hm hs rfl seam
    | _ => simp [Stitch.verdict?] at hv
  · cases stitch with
    | extra start after d' =>
      have there : start = t.start := by simpa [Stitch.verdict?] using hv
      have same := h.same_token hm hs rfl rfl there.symm
      cases same
    | _ => simp [Stitch.verdict?] at hv

theorem dropped_iff (h : Sewn text ds stitches) {stitch : Stitch} (hm : stitch ∈ stitches) :
    (∀ t ∈ stitch.token?, t.dropped ds = !stitch.isMade) ∧
      ∀ seam ∈ stitch.seam?, seam.dropped ds = !stitch.isMade := by
  cases stitch with
  | made t seam =>
    suffices t.dropped ds = false ∧ seam.dropped ds = false by simpa [Stitch.token?, Stitch.seam?, Stitch.isMade]
    cases (show t.Makes text seam from h.sound _ hm) with
    | leaf shown => exact ⟨dropped_of_shows ds shown, rfl⟩
    | opener start after d =>
      have none_told : toldAt .nestingTooDeep start ds = 0 := by
        refine h.toldAt_zero rfl fun stitch hs hv => ?_
        cases stitch with
        | refused start' after' d' =>
          have there : start' = start := by simpa [Stitch.verdict?] using hv
          have same := h.same_token hm hs rfl rfl there.symm
          cases same
        | _ => simp [Stitch.verdict?] at hv
      exact ⟨by simp [Token.dropped, none_told], rfl⟩
    | closer start after d begun level =>
      obtain ⟨closed, counted⟩ := h.untold hm
      rw [d.dropped_form]
      exact ⟨by simpa [Token.dropped] using counted, by simp [closed]⟩
    | wrapper start after w begun => exact ⟨rfl, rfl⟩
  | unclosed begun d =>
    have told := h.toldAt_one hm rfl rfl
    refine ⟨by simp [Stitch.token?], fun seam hs => ?_⟩
    cases hs
    rw [d.dropped_form, told]
    rfl
  | extra start after d =>
    have told := h.toldAt_one hm rfl rfl
    refine ⟨fun t ht => ?_, by simp [Stitch.seam?]⟩
    cases ht
    simp [Token.dropped, told, Stitch.isMade]
  | refused start after d =>
    have told := h.toldAt_one hm rfl rfl
    refine ⟨fun t ht => ?_, by simp [Stitch.seam?]⟩
    cases ht
    simp [Token.dropped, told, Stitch.isMade]

theorem matches_part (h : Sewn text ds stitches) {part : List Stitch} (hp : part ⊆ stitches) :
    Match text ds (part.filterMap Stitch.token?) (part.filterMap Stitch.seam?) ∧
      ((part.filterMap Stitch.token?).filter (!·.dropped ds)).length = part.countP Stitch.isMade := by
  induction part with
  | nil => exact ⟨.nil, rfl⟩
  | cons stitch rest ih =>
    obtain ⟨here, later⟩ := List.cons_subset.1 hp
    obtain ⟨matched, count⟩ := ih later
    obtain ⟨tokens, seams⟩ := h.dropped_iff here
    unfold Match at matched ⊢
    cases stitch with
    | made t seam =>
      have kept : t.dropped ds = false := tokens t rfl
      have kept' : seam.dropped ds = false := seams seam rfl
      simp only [List.filterMap_cons, Stitch.token?, Stitch.seam?, List.filter_cons, kept, kept',
        Bool.not_false, if_true]
      refine ⟨.cons (h.sound _ here) matched, ?_⟩
      rw [List.length_cons, count, List.countP_cons_of_pos rfl]
    | unclosed begun d =>
      have gone := seams _ rfl
      simp only [List.filterMap_cons, Stitch.token?, Stitch.seam?, List.filter_cons, gone, Stitch.isMade]
      exact ⟨matched, count.trans (List.countP_cons_of_neg (by simp [Stitch.isMade])).symm⟩
    | extra start after d =>
      have gone := tokens _ rfl
      simp only [List.filterMap_cons, Stitch.token?, Stitch.seam?, List.filter_cons, gone, Stitch.isMade]
      exact ⟨matched, count.trans (List.countP_cons_of_neg (by simp [Stitch.isMade])).symm⟩
    | refused start after d =>
      have gone := tokens _ rfl
      simp only [List.filterMap_cons, Stitch.token?, Stitch.seam?, List.filter_cons, gone, Stitch.isMade]
      exact ⟨matched, count.trans (List.countP_cons_of_neg (by simp [Stitch.isMade])).symm⟩

end Sewn

/-- The token ends the block. It is a closer of the block's kind, of which nothing is told, and its line
begins with as many spaces as the line that the block begins on. The tokens before it are those of
all seams up to the end of the block's items, the tokens behind it those of all that follows the
block, apart from those that it is told of. -/
structure Closes (file : String) (text : List Char) (d : Delimiter) (t : Token) (block : Tree) :
    Prop where
  token : t.lexeme = .mark (.closer d)
  form : block.form? = some d.form
  indent : lineIndent text t.start.offset = lineIndent text block.pos.offset
  untold : toldAt .extraCloser t.start (tokenize file text).diagnostics = 0
  place : ∃ before after left right,
    lexed file text = before ++ t :: after ∧
    seamsAll (tokenize file text).nodes = left ++ .opening block.pos d.form ::
      (seamsAll block.items ++ .closing block.pos d.form :: right) ∧
    Match text (tokenize file text).diagnostics before
      (left ++ .opening block.pos d.form :: seamsAll block.items) ∧
    Match text (tokenize file text).diagnostics after right

theorem filterMap_split {α β : Type} {f : α → Option β} {l : List α} {before after : List β} {b : β}
    (h : l.filterMap f = before ++ b :: after) :
    ∃ left x right, l = left ++ x :: right ∧ left.filterMap f = before ∧ f x = some b ∧
      right.filterMap f = after := by
  obtain ⟨left, rest, rfl, hl, hr⟩ := List.filterMap_eq_append_iff.1 h
  obtain ⟨skipped, x, right, rfl, none_there, hx, after_⟩ := List.filterMap_eq_cons_iff.1 hr
  refine ⟨left ++ skipped, x, right, by simp, ?_, hx, after_⟩
  rw [List.filterMap_append, hl, List.filterMap_eq_nil_iff.2 none_there, List.append_nil]

theorem split_unique {left left' right right' : List Stitch} {x x' : Stitch}
    (h : left ++ x :: right = left' ++ x' :: right') (hx : x.isMade = true) (hx' : x'.isMade = true)
    (count : left.countP Stitch.isMade = left'.countP Stitch.isMade) : x = x' := by
  rcases List.append_eq_append_iff.1 h with ⟨more, rfl, rest⟩ | ⟨more, rfl, rest⟩
  · cases more with
    | nil => exact (List.cons.inj rest).1
    | cons y more =>
      obtain ⟨rfl, -⟩ := List.cons.inj rest
      rw [List.countP_append, List.countP_cons_of_pos hx] at count
      omega
  · cases more with
    | nil => exact (List.cons.inj rest).1.symm
    | cons y more =>
      obtain ⟨rfl, -⟩ := List.cons.inj rest
      rw [List.countP_append, List.countP_cons_of_pos hx'] at count
      omega

section

variable {file : String} {text : List Char} {stitches : List Stitch}

theorem Closes.stitch {d : Delimiter} {t : Token} {block : Tree} (h : Closes file text d t block)
    (sewn : Sewn text (tokenize file text).diagnostics stitches)
    (tokens : stitches.filterMap Stitch.token? = lexed file text)
    (seams : stitches.filterMap Stitch.seam? = seamsAll (tokenize file text).nodes) :
    .made t (.closing block.pos d.form) ∈ stitches := by
  obtain ⟨before, after, left, right, ht, hs, matched, matched'⟩ := h.place
  rw [← List.cons_append, ← List.append_assoc] at hs
  obtain ⟨here, y, behind, parted, rfl, taken, rfl⟩ := filterMap_split (tokens.trans ht)
  obtain ⟨here', x, behind', parted', shown, ended, shown'⟩ := filterMap_split (seams.trans hs)
  rw [← shown] at matched
  rw [← shown'] at matched'
  have inside : here ⊆ stitches ∧ y ∈ stitches ∧ behind ⊆ stitches := by
    rw [parted]
    exact ⟨List.subset_append_left _ _, by simp, fun _ hm => by simp [hm]⟩
  have inside' : here' ⊆ stitches ∧ x ∈ stitches ∧ behind' ⊆ stitches := by
    rw [parted']
    exact ⟨List.subset_append_left _ _, by simp, fun _ hm => by simp [hm]⟩
  have made : y.isMade = true := by
    have kept := (sewn.dropped_iff inside.2.1).1 t taken
    rw [Token.dropped, h.token] at kept
    simpa [h.untold] using kept
  -- both rows have as many places before the closer, and as many behind it
  have count : here.countP Stitch.isMade = here'.countP Stitch.isMade := by
    have own := sewn.matches_part inside.1
    have own' := sewn.matches_part inside'.1
    rw [← own.2, ← own'.2, List.Forall₂.length_eq matched, ← List.Forall₂.length_eq own'.1]
  have count' : behind.countP Stitch.isMade = behind'.countP Stitch.isMade := by
    have own := sewn.matches_part inside.2.2
    have own' := sewn.matches_part inside'.2.2
    rw [← own.2, ← own'.2, List.Forall₂.length_eq matched', ← List.Forall₂.length_eq own'.1]
  have made' : x.isMade = true := by
    have whole := congrArg (List.countP Stitch.isMade) (parted.symm.trans parted')
    rw [List.countP_append, List.countP_append, List.countP_cons_of_pos made, List.countP_cons] at whole
    cases hx : x.isMade with
    | true => rfl
    | false =>
      rw [hx] at whole
      simp only [Bool.false_eq_true, if_false] at whole
      omega
  have same := split_unique (parted.symm.trans parted') made made' count
  rw [same] at taken
  cases x with
  | made u seam =>
    cases taken
    cases ended
    exact inside'.2.1
  | _ => cases made'

theorem bracket_split (sewn : Sewn text (tokenize file text).diagnostics stitches)
    (seams : stitches.filterMap Stitch.seam? = seamsAll (tokenize file text).nodes) {block : Tree}
    (hm : block ∈ preorderAll (tokenize file text).nodes) (hb : block.isBracket = true) :
    ∃ (d : Delimiter) (here : List Stitch) (x : Stitch) (behind : List Stitch) (left : List Seam),
      block.form? = some d.form ∧ stitches = here ++ x :: behind ∧
      here.filterMap Stitch.seam? = left ++ .opening block.pos d.form :: seamsAll block.items ∧
      x.seam? = some (.closing block.pos d.form) := by
  obtain ⟨left, right, parted⟩ := seamsAll_within _ hm
  cases block with
  | leaf at_ content => cases hb
  | group at_ form items =>
    cases form with
    | segment | chain => cases hb
    | block tag spelled closing =>
      have opens : spelled ≠ "" := by simpa [isBracket, form?] using hb
      have own : (Tree.group at_ (.block tag spelled closing) items).seams =
          .opening at_ (.block tag spelled closing) ::
            (seamsAll items ++ [.closing at_ (.block tag spelled closing)]) := by
        simp [Tree.seams, Form.openingSeams, Form.closingSeams, opens]
      have row : stitches.filterMap Stitch.seam? =
          (left ++ .opening at_ (.block tag spelled closing) :: seamsAll items) ++
            .closing at_ (.block tag spelled closing) :: right := by
        rw [seams, ← parted, own]
        simp
      obtain ⟨here, x, behind, split, shown, ended, -⟩ := filterMap_split row
      obtain ⟨d, hd⟩ : ∃ d : Delimiter, Form.block tag spelled closing = d.form := by
        have hx : x ∈ stitches := split ▸ by simp
        cases x with
        | made t seam =>
          cases ended
          cases (show t.Makes text _ from sewn.sound _ hx) with
          | closer start after d => exact ⟨d, rfl⟩
          | wrapper => exact absurd rfl opens
        | unclosed begun d =>
          cases ended
          exact ⟨d, rfl⟩
        | _ => cases ended
      rw [hd] at shown ended
      exact ⟨d, here, x, behind, left, congrArg some hd, split, shown, ended⟩

theorem closes_of_stitch (sewn : Sewn text (tokenize file text).diagnostics stitches)
    (tokens : stitches.filterMap Stitch.token? = lexed file text)
    (seams : stitches.filterMap Stitch.seam? = seamsAll (tokenize file text).nodes) {block : Tree}
    {d : Delimiter} {t : Token} {here behind : List Stitch} {left : List Seam}
    (form : block.form? = some d.form)
    (split : stitches = here ++ .made t (.closing block.pos d.form) :: behind)
    (shown : here.filterMap Stitch.seam? =
      left ++ .opening block.pos d.form :: seamsAll block.items) :
    Closes file text d t block := by
  have inside : .made t (.closing block.pos d.form) ∈ stitches := by rw [split]; simp
  have matched := (sewn.matches_part (show here ⊆ stitches from
    split ▸ List.subset_append_left _ _)).1
  have matched' := (sewn.matches_part (show behind ⊆ stitches from
    split ▸ fun _ hm => by simp [hm])).1
  have own : t.Makes text (.closing block.pos d.form) := sewn.sound _ inside
  have kind : t.lexeme = .mark (.closer d) ∧
      lineIndent text t.start.offset = lineIndent text block.pos.offset := by
    generalize hf : d.form = form at own
    cases own with
    | closer start after d' begun level => exact ⟨by rw [Delimiter.form_inj hf], level⟩
    | wrapper start after w begun => exact absurd hf (d.form_ne_wrapper w)
  refine ⟨kind.1, form, kind.2, (sewn.untold inside).2, here.filterMap Stitch.token?,
    behind.filterMap Stitch.token?, left, behind.filterMap Stitch.seam?, ?_, ?_, ?_, matched'⟩
  · rw [← tokens, split, List.filterMap_append]
    rfl
  · rw [← seams, split, List.filterMap_append, shown]
    simp [Stitch.seam?]
  · rwa [shown] at matched

end

theorem Closes.between {file : String} {text : List Char} {d : Delimiter} {t : Token} {block : Tree}
    (h : Closes file text d t block) :
    (∀ seam ∈ seamsAll block.items, ∀ pos ∈ seam.begins?, pos.offset < t.start.offset) ∧
    ∃ left right, seamsAll (tokenize file text).nodes = left ++ .opening block.pos d.form ::
        (seamsAll block.items ++ .closing block.pos d.form :: right) ∧
      ∀ seam ∈ right, ∀ pos ∈ seam.begins?, t.start.offset < pos.offset := by
  obtain ⟨before, after, left, right, ht, hs, matched, matched'⟩ := h.place
  have sorted := (Builder.empty.lexed_sorted (.start file text)).2
  rw [show Builder.empty.lexed (.start file text) = before ++ t :: after from ht] at sorted
  obtain ⟨-, behind, across⟩ := List.pairwise_append.1 sorted
  refine ⟨fun seam hm pos hp => ?_, left, right, hs, fun seam hm pos hp => ?_⟩
  · obtain ⟨u, hu, rfl⟩ := matched.begins (List.mem_append_right _ (List.mem_cons_of_mem _ hm)) hp
    exact across u hu t List.mem_cons_self
  · obtain ⟨u, hu, rfl⟩ := matched'.begins hm hp
    exact (List.pairwise_cons.1 behind).1 u hu

theorem Token.Makes.closing {text : List Char} {t : Token} {seam : Seam} {d : Delimiter}
    (makes : t.Makes text seam) (closer : t.lexeme = .mark (.closer d)) :
    ∃ begun, seam = .closing begun d.form := by
  cases makes with
  | leaf shown => cases shown <;> cases closer
  | opener => cases closer
  | closer start after d' begun level =>
    cases closer
    exact ⟨begun, rfl⟩
  | wrapper => cases closer

/-- A bracket is told of as unclosed, or one token closes it. -/
theorem bracket_closed_or_told (file : String) (text : List Char) {block : Tree}
    (hm : block ∈ preorderAll (tokenize file text).nodes) (hb : block.isBracket = true) :
    (toldAt .unclosedBracket block.pos (tokenize file text).diagnostics = 1 ∧
      ∀ d t, ¬ Closes file text d t block) ∨
    (toldAt .unclosedBracket block.pos (tokenize file text).diagnostics = 0 ∧
      ∃! t, ∃ d, Closes file text d t block) := by
  obtain ⟨stitches, sewn, tokens, seams⟩ := exists_sewn file text
  obtain ⟨d, here, x, behind, left, form, split, shown, ended⟩ := bracket_split sewn seams hm hb
  have inside : x ∈ stitches := split ▸ by simp
  cases x with
  | made t seam =>
    cases ended
    have closes := closes_of_stitch sewn tokens seams form split shown
    refine Or.inr ⟨(sewn.untold inside).1, t, ⟨d, closes⟩, ?_⟩
    rintro u ⟨d', other⟩
    exact (Stitch.made.inj (sewn.same_end (other.stitch sewn tokens seams) inside rfl rfl)).1
  | unclosed begun d' =>
    obtain ⟨rfl, -⟩ : begun = block.pos ∧ d'.form = d.form := by simpa [Stitch.seam?] using ended
    refine Or.inl ⟨sewn.toldAt_one inside rfl rfl, fun d'' t other => ?_⟩
    have same := sewn.same_end (other.stitch sewn tokens seams) inside rfl rfl
    cases same
  | _ => cases ended

/-- A closer is told of as extra, or closes one bracket. -/
theorem closer_closes_or_told (file : String) (text : List Char) {t : Token}
    (ht : t ∈ lexed file text) {d : Delimiter} (closer : t.lexeme = .mark (.closer d)) :
    (toldAt .extraCloser t.start (tokenize file text).diagnostics = 1 ∧
      ∀ block, ¬ Closes file text d t block) ∨
    (toldAt .extraCloser t.start (tokenize file text).diagnostics = 0 ∧
      ∃! block, block ∈ preorderAll (tokenize file text).nodes ∧ Closes file text d t block) := by
  obtain ⟨stitches, sewn, tokens, seams⟩ := exists_sewn file text
  rw [← tokens] at ht
  obtain ⟨stitch, inside, taken⟩ := List.mem_filterMap.1 ht
  cases stitch with
  | extra start after d' =>
    cases taken
    have told : toldAt .extraCloser start _ = 1 := sewn.toldAt_one inside rfl rfl
    refine Or.inl ⟨told, fun block closes => ?_⟩
    rw [closes.untold] at told
    cases told
  | made u seam =>
    cases taken
    obtain ⟨begun, rfl⟩ := Token.Makes.closing (sewn.sound _ inside) closer
    have there : Seam.closing begun d.form ∈ seamsAll (tokenize file text).nodes := by
      rw [← seams]
      exact List.mem_filterMap.2 ⟨_, inside, rfl⟩
    obtain ⟨block, hm, rfl, form⟩ := exists_of_closing_all _ there
    have hb : ∀ {node : Tree}, node.form? = some d.form → node.isBracket = true := by
      intro node hf
      rw [isBracket, hf]
      exact bne_iff_ne.2 d.opening_spelled
    obtain ⟨d', here, x, behind, left, form', split, shown, ended⟩ := bracket_split sewn seams hm (hb form)
    obtain rfl := Delimiter.form_inj (Option.some.inj (form'.symm.trans form))
    obtain rfl := sewn.same_end (split ▸ by simp) inside ended rfl
    have closes := closes_of_stitch sewn tokens seams form split shown
    refine Or.inr ⟨(sewn.untold inside).2, block, ⟨hm, closes⟩, ?_⟩
    rintro other ⟨hm', closes'⟩
    have same := sewn.same_token (closes'.stitch sewn tokens seams) inside rfl rfl rfl
    simp only [Stitch.made.injEq, Seam.closing.injEq, true_and, and_true] at same
    exact brackets_apart file text hm' hm (hb closes'.form) (hb form) same
  | unclosed => cases taken
  | refused =>
    cases taken
    cases closer

/-- The tokens of a text come in order. Of each block of its tree that has an opening spelling it is
told once that it is not closed, and no token closes it; or nothing is told, and one token closes
it. Of each closing bracket or quote among the tokens it is told once that it is one too many, and
it closes nothing; or nothing is told, and it closes one block. -/
theorem brackets_accounted (file : String) (text : List Char) :
    (lexed file text).Pairwise (·.start.offset < ·.start.offset) ∧
    (∀ block ∈ preorderAll (tokenize file text).nodes, block.isBracket = true →
      (toldAt .unclosedBracket block.pos (tokenize file text).diagnostics = 1 ∧
        ∀ d t, ¬ Closes file text d t block) ∨
      (toldAt .unclosedBracket block.pos (tokenize file text).diagnostics = 0 ∧
        ∃! t, ∃ d, Closes file text d t block)) ∧
    ∀ t ∈ lexed file text, ∀ d, t.lexeme = .mark (.closer d) →
      (toldAt .extraCloser t.start (tokenize file text).diagnostics = 1 ∧
        ∀ block, ¬ Closes file text d t block) ∨
      (toldAt .extraCloser t.start (tokenize file text).diagnostics = 0 ∧
        ∃! block, block ∈ preorderAll (tokenize file text).nodes ∧ Closes file text d t block) :=
  ⟨(Builder.empty.lexed_sorted (.start file text)).2,
    fun _ hm hb => bracket_closed_or_told file text hm hb,
    fun _ ht _ closer => closer_closes_or_told file text ht closer⟩

end NamespaceLang

import NamespaceLang.Proofs.Tree.Folding

/-!
# How open scopes nest

A chain begins at the indentation of the scope around it, binds tighter than
that scope and leaves it no items. A string is never open around another scope,
and none is open while lexemes are read in the regular mode. Every state of a
reading is sound in this sense.
-/

set_option autoImplicit false

namespace NamespaceLang

namespace OpenScope

def isString (s : OpenScope) : Bool :=
  match s.kind with
  | .block .quote => true
  | _ => false

def Fits (s : OpenScope) (outer : List OpenScope) : Prop :=
  match s.kind with
  | .block _ => True
  | .chain c =>
    s.before = #[] ∧ s.indent = topIndent outer ∧ topTier outer < c.tier ∧ ∃ j : Joiner, c.tier = j.tier

def Nested : List OpenScope → Prop
  | [] => True
  | s :: outer => s.Fits outer ∧ Nested outer

theorem nested_suffix {inner outer : List OpenScope} (h : outer <:+ inner) (hn : Nested inner) :
    Nested outer := by
  induction inner with
  | nil => rwa [List.suffix_nil.1 h]
  | cons s rest ih =>
    rcases List.suffix_cons_iff.1 h with rfl | h
    · exact hn
    · exact ih h hn.2

theorem tail_suffix {inner outer : List OpenScope} (h : outer <:+ inner) :
    outer.tail <:+ inner.tail := by
  cases inner with
  | nil => exact List.suffix_nil.1 h ▸ List.suffix_refl _
  | cons s rest =>
    rcases List.suffix_cons_iff.1 h with rfl | h
    · exact List.suffix_refl _
    · exact (List.tail_suffix outer).trans h

end OpenScope

open OpenScope

namespace Builder

structure Sound (b : Builder) : Prop where
  nested : Nested b.scopes
  /-- No string is open while the mode is regular. -/
  plain : b.mode = .regular → ∀ s ∈ b.scopes, s.isString = false
  lone : ∀ s ∈ b.scopes.tail, s.isString = false

theorem empty_sound : Builder.empty.Sound :=
  ⟨trivial, fun _ s h => by simp [empty] at h, fun s h => by simp [empty] at h⟩

theorem Sound.frame {b later : Builder} (h : b.Sound) (hm : later.mode = b.mode)
    (hs : later.scopes <:+ b.scopes) : later.Sound where
  nested := nested_suffix hs h.nested
  plain := fun hr s hmem => h.plain (hm ▸ hr) s (hs.subset hmem)
  lone := fun s hmem => h.lone s ((tail_suffix hs).subset hmem)

theorem Sound.unwind {b : Builder} (h : b.Sound) (stays : OpenScope → Bool)
    (complaint : OpenScope → Diagnostic) : (b.unwind stays complaint).Sound :=
  h.frame (unwind_mode b) (unwind_scopes b)

theorem Sound.push {b : Builder} (h : b.Sound) (hr : b.mode = .regular) (s : OpenScope)
    (hf : s.Fits b.scopes) {later : Builder} (hs : later.scopes = s :: b.scopes)
    (hm : s.isString = true → later.mode ≠ .regular) : later.Sound where
  nested := hs ▸ ⟨hf, h.nested⟩
  plain := by
    intro hl t ht
    rw [hs] at ht
    rcases List.mem_cons.1 ht with rfl | ht
    · cases hi : t.isString
      · rfl
      · exact absurd hl (hm hi)
    · exact h.plain hr t ht
  lone := by
    rw [hs]
    exact h.plain hr

theorem openBlock_sound {b : Builder} (h : b.Sound) (hr : b.mode = .regular) (d : Delimiter)
    (start : Position) (indent : Int) : (b.openBlock d start indent).Sound := by
  unfold openBlock
  split
  · exact h.frame rfl (List.suffix_refl _)
  · refine h.push hr ⟨start, indent, .block d, b.items⟩ trivial rfl ?_
    cases d <;> simp [OpenScope.isString, enter, Delimiter.openingMode?]

theorem close_sound {b : Builder} (h : b.Sound) (d : Delimiter) (start : Position)
    (indent : Int) : (b.close d start indent).Sound := by
  have hu : (b.foldToCloser d start indent).Sound := h.unwind _ _
  apply close_rule (P := Sound)
  · intro s outer hs _
    have inner : outer <:+ (b.foldToCloser d start indent).scopes := hs ▸ List.suffix_cons s outer
    have plain : ∀ t ∈ outer, t.isString = false := by
      have hl := hu.lone
      rwa [hs] at hl
    exact ⟨nested_suffix inner hu.nested, fun _ => plain, fun t ht => plain t (List.mem_of_mem_tail ht)⟩
  · exact fun _ => hu.frame rfl (List.suffix_refl _)

theorem startChain_sound {b : Builder} (h : b.Sound) (hr : b.mode = .regular) (j : Joiner)
    (ht : topTier b.scopes < j.tier) (start next : Position) :
    (b.startChain j start next).Sound := by
  unfold startChain
  refine h.push hr _ ?_ rfl (fun hs => by simp [OpenScope.isString] at hs)
  exact ⟨rfl, rfl, ht, j, rfl⟩

theorem extendChain_sound {b : Builder} (h : b.Sound) (hr : b.mode = .regular) {s : OpenScope}
    {c : OpenChain} {outer : List OpenScope} (hs : b.scopes = s :: outer) (hc : s.kind = .chain c)
    (j : Joiner) (start next : Position) : (b.extendChain s c outer j start next).Sound := by
  obtain ⟨hf, hn⟩ := hs ▸ h.nested
  have hb : ({ b with scopes := outer } : Builder).Sound :=
    h.frame rfl (hs ▸ List.suffix_cons s outer)
  refine hb.push hr { s with kind := .chain (c.extend b.items.toList j start next) } ?_ ?_ ?_
  · simpa only [Fits, hc, OpenChain.extend] using hf
  · unfold extendChain
    split <;> rfl
  · simp [OpenScope.isString]

theorem join_sound {b : Builder} (h : b.Sound) (hr : b.mode = .regular) (j : Joiner)
    (start next : Position) : (b.join j start next).Sound := by
  have hu : (b.foldTighter j start).Sound := h.unwind _ _
  have hm : (b.foldTighter j start).mode = .regular := (unwind_mode b).trans hr
  apply join_rule (P := Sound)
  · exact fun ht => startChain_sound hu hm j ht _ _
  · exact fun s c outer hs hc _ => extendChain_sound hu hm hs hc j _ _

theorem place_sound {b : Builder} {l : Lexeme} {start : Position} {after : Cursor}
    (hl : l.occursIn b.mode) (h : b.Sound) : (b.place l start after).Sound := by
  have same : ∀ later : Builder, later.mode = b.mode → later.scopes = b.scopes → later.Sound :=
    fun later hm hs => h.frame hm (hs ▸ List.suffix_refl _)
  refine place_rule (P := Sound) hl ?_ ?_ ?_ ?_ ?_ ?_ ?_ ?_ ?_
  · exact fun _ _ => same _ rfl rfl
  · exact fun _ => same _ rfl rfl
  · exact fun _ _ => same _ rfl rfl
  · exact fun _ _ => same _ rfl rfl
  · exact fun d hr => openBlock_sound h hr d _ _
  · exact fun d _ _ => close_sound h d _ _
  · exact fun _ => close_sound h .quote _ _
  · exact fun w _ => (h.unwind (·.holds after.indent w.tier) _).frame rfl (List.suffix_refl _)
  · exact fun j hr => join_sound h hr j _ _

end Builder

theorem reading_sound {file : String} {text : List Char} {b : Builder} {c : Cursor}
    (h : Reading file text b c) : b.Sound :=
  reading_invariant Builder.empty_sound (fun _ _ _ _ hl _ h => Builder.place_sound hl h) h

end NamespaceLang

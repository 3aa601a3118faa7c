import NamespaceLang.Proofs.Tree.Deepest

/-!
# How many scopes are open

Only an opener asks whether another scope may be opened. A joiner that begins a
chain opens one without asking, so that the limit is kept exactly while no chain
is begun at it. The brackets keep to it always, and inside the innermost of them
at most three chains are open: three scopes are the most that a text can have
open beyond the limit, and some texts have.
-/

set_option autoImplicit false

namespace NamespaceLang

open OpenScope

namespace OpenScope

def Roomy (scopes : List OpenScope) : Prop :=
  ∀ s outer, s :: outer <:+ scopes → s.isBlock = true → outer.length < nestingLimit

theorem Roomy.part {inner outer : List OpenScope} (h : Roomy inner) (hp : outer <:+ inner) :
    Roomy outer := fun s rest hs => h s rest (hs.trans hp)

theorem Roomy.push {s : OpenScope} {outer : List OpenScope} (h : Roomy outer)
    (room : s.isBlock = true → outer.length < nestingLimit) : Roomy (s :: outer) := by
  intro t rest hs block
  rcases List.suffix_cons_iff.1 hs with same | inside
  · obtain ⟨rfl, rfl⟩ := List.cons.inj same
    exact room block
  · exact h t rest inside block

/-- Chains take the places that the innermost bracket has to spare, one after the other. -/
theorem Roomy.length_le {scopes : List OpenScope} (h : Roomy scopes) (hn : Nested scopes) :
    scopes.length + spare (topTier scopes) ≤ nestingLimit + 3 := by
  induction scopes with
  | nil => exact Nat.add_le_add (Nat.zero_le _) (spare_le _)
  | cons s outer ih =>
    obtain ⟨fits, nested⟩ := hn
    cases hk : s.kind with
    | block d =>
      have room := h s outer (List.suffix_refl _) (by rw [isBlock, hk])
      exact Nat.add_le_add room (spare_le _)
    | chain c =>
      rw [Fits, hk] at fits
      obtain ⟨-, -, tighter, j, hj⟩ := fits
      have around := ih (h.part (List.suffix_cons s outer)) nested
      have own : topTier (s :: outer) = j.tier := by rw [topTier, OpenScope.tier, hk]; exact hj
      have taken := spare_joiner j (hj ▸ tighter)
      rw [own, List.length_cons]
      omega

theorem Roomy.opened_le {scopes : List OpenScope} (h : Roomy scopes) :
    opened scopes ≤ nestingLimit := by
  induction scopes with
  | nil => exact Nat.zero_le _
  | cons s outer ih =>
    cases hb : s.isBlock with
    | true =>
      have room := h s outer (List.suffix_refl _) hb
      have fewer := OpenScope.opened_le outer
      rw [opened, List.countP_cons_of_pos hb]
      exact Nat.le_trans (Nat.succ_le_succ fewer) room
    | false =>
      rw [opened, List.countP_cons_of_neg (by simp [hb])]
      exact ih (h.part (List.suffix_cons s outer))

end OpenScope

namespace Builder

/-- The joiner that a lexeme takes effect as. A soft line break is none. -/
def joiner? (b : Builder) (after : Cursor) : Lexeme → Option Joiner
  | .mark (.joiner j) => some j
  | .lineBreak => if b.isSoft after.peek? then none else some .lineBreak
  | _ => none

/-- The joiner begins a chain where as many scopes stay open as the limit allows. -/
def ChainsAtLimit (b : Builder) (j : Joiner) (start : Position) : Prop :=
  topTier (b.foldTighter j start).scopes < j.tier ∧
    nestingLimit ≤ (b.foldTighter j start).scopes.length

theorem openBlock_scopes (b : Builder) (d : Delimiter) (start : Position) (indent : Int) :
    (b.openBlock d start indent).scopes = b.scopes ∨
      b.scopes.length < nestingLimit ∧
        ∃ s : OpenScope, (b.openBlock d start indent).scopes = s :: b.scopes := by
  unfold openBlock
  split
  · exact Or.inl rfl
  · next room => exact Or.inr ⟨Nat.lt_of_not_le room, _, rfl⟩

theorem join_length (b : Builder) (j : Joiner) (start next : Position) :
    (b.join j start next).scopes.length = (b.foldTighter j start).scopes.length +
      if topTier (b.foldTighter j start).scopes < j.tier then 1 else 0 := by
  apply join_rule (P := fun later => later.scopes.length = (b.foldTighter j start).scopes.length +
    if topTier (b.foldTighter j start).scopes < j.tier then 1 else 0)
  · intro begins
    rw [if_pos begins]
    rfl
  · intro s c outer hs hk same
    have goes_on : ¬ topTier (b.foldTighter j start).scopes < j.tier := by
      rw [hs, topTier, OpenScope.tier, hk]
      exact Nat.not_lt.2 (Nat.le_of_eq same.symm)
    rw [if_neg goes_on, extendChain_scopes, hs]
    rfl

theorem join_within_iff {b : Builder} (h : b.scopes.length ≤ nestingLimit) (j : Joiner)
    (start next : Position) :
    (b.join j start next).scopes.length ≤ nestingLimit ↔ ¬ b.ChainsAtLimit j start := by
  have left : (b.foldTighter j start).scopes.length ≤ b.scopes.length := (unwind_scopes b).length_le
  rw [join_length, ChainsAtLimit]
  split
  · next begins => simp only [begins, true_and]; omega
  · next goes_on => simp only [goes_on, false_and, not_false_iff, iff_true]; omega

theorem place_within_iff {b : Builder} (h : b.scopes.length ≤ nestingLimit) (l : Lexeme)
    (start : Position) (after : Cursor) :
    (b.place l start after).scopes.length ≤ nestingLimit ↔
      ∀ j ∈ b.joiner? after l, ¬ b.ChainsAtLimit j start := by
  have none_joined : ∀ later : Builder, later.scopes.length ≤ nestingLimit →
      (later.scopes.length ≤ nestingLimit ↔ ∀ j ∈ (none : Option Joiner), ¬ b.ChainsAtLimit j start) :=
    fun later hl => by simp [hl]
  rcases l with content | _ | (d | d | w | j) | found | spelling
  · exact none_joined _ h
  · simp only [place, joiner?]
    split
    · exact none_joined _ h
    · simpa using join_within_iff h .lineBreak start after.position
  · apply none_joined
    rcases openBlock_scopes b d start after.indent with same | ⟨room, s, more⟩
    · exact same ▸ h
    · exact more ▸ room
  · exact none_joined _ (Nat.le_trans (close_scopes b d start after.indent).length_le h)
  · exact none_joined _ (Nat.le_trans (wrap_scopes b w start after.indent).length_le h)
  · simpa [joiner?, place] using join_within_iff h j start after.position
  · exact none_joined _ h
  · exact none_joined _ h

theorem join_roomy {b : Builder} (h : Roomy b.scopes) (j : Joiner) (start next : Position) :
    Roomy (b.join j start next).scopes := by
  have left : Roomy (b.foldTighter j start).scopes := h.part (unwind_scopes b)
  apply join_rule (P := fun later => Roomy later.scopes)
  · exact fun _ => left.push (fun block => by cases block)
  · intro s c outer hs _ _
    rw [extendChain_scopes]
    exact (left.part (hs ▸ List.suffix_cons s outer)).push (fun block => by cases block)

theorem place_roomy {b : Builder} {l : Lexeme} {start : Position} {after : Cursor}
    (hl : l.occursIn b.mode) (h : Roomy b.scopes) : Roomy (b.place l start after).scopes := by
  refine place_rule (P := fun later => Roomy later.scopes) hl (fun _ _ => h) (fun _ => h)
    (fun _ _ => h) (fun _ _ => h) ?_ ?_ ?_ ?_ ?_
  · intro d _
    rcases openBlock_scopes b d start after.indent with same | ⟨room, s, more⟩
    · exact same ▸ h
    · exact more ▸ h.push (fun _ => room)
  · exact fun d _ _ => h.part (close_scopes b d _ _)
  · exact fun _ => h.part (close_scopes b .quote _ _)
  · exact fun w _ => h.part (wrap_scopes b w _ _)
  · exact fun j _ => join_roomy h j _ _

end Builder

/-- Some joiner of the text begins a chain where as many scopes stay open as the limit allows. -/
def ChainsPastLimit (file : String) (text : List Char) : Prop :=
  ∃ b c first after, Reading file text b c ∧ b.stopped = false ∧
    c.take? = some (first, after) ∧
    ∃ j ∈ b.joiner? (Lexeme.next b.mode first after).2 (Lexeme.next b.mode first after).1,
      b.ChainsAtLimit j c.position

section

variable {file : String} {text : List Char}

theorem reading_roomy {b : Builder} {c : Cursor} (h : Reading file text b c) : Roomy b.scopes :=
  reading_invariant (P := fun b => Roomy b.scopes)
    (fun s outer hs => by cases List.suffix_nil.1 hs)
    (fun _ _ _ _ hl _ h => Builder.place_roomy hl h) h

theorem reading_within (quiet : ¬ ChainsPastLimit file text) {b : Builder} {c : Cursor}
    (h : Reading file text b c) : b.scopes.length ≤ nestingLimit := by
  induction h with
  | start => exact Nat.zero_le _
  | next before going taken ih =>
    refine (Builder.place_within_iff ih _ _ _).2 fun j hj past => quiet ?_
    exact ⟨_, _, _, _, before, going, taken, j, hj, past⟩

end

/-- The limit holds for all open scopes of a text, chains included, in all states in which it is read,
if and only if none of its joiners begins a chain while as many scopes stay open as the limit allows.
In every state of every text the open brackets keep to the limit, and all open scopes to three more;
fewer than three, as chains are open that bind tighter. -/
theorem open_scopes_within_iff (file : String) (text : List Char) :
    ((∀ b c, Reading file text b c → b.scopes.length ≤ nestingLimit) ↔
        ¬ ChainsPastLimit file text) ∧
      ∀ b c, Reading file text b c → opened b.scopes ≤ nestingLimit ∧
        b.scopes.length + spare (topTier b.scopes) ≤ nestingLimit + 3 := by
  refine ⟨⟨?_, fun quiet b c read => reading_within quiet read⟩, fun b c read => ?_⟩
  · rintro within ⟨b, c, first, after, read, going, taken, j, hj, past⟩
    have later := within _ _ (read.next going taken)
    exact (Builder.place_within_iff (within b c read) _ _ _).1 later j hj past
  · have roomy := reading_roomy read
    exact ⟨roomy.opened_le, roomy.length_le (reading_sound read).nested⟩

def chainsInChains : List Char := ",:= = ".toList

/-- As many brackets as may be open, and as many chains inside them as there are tiers for. -/
def crowdedText : List Char := List.replicate nestingLimit '(' ++ chainsInChains

def Visits (file : String) (text : List Char) (P : Builder → Prop) (rest : List Char) : Prop :=
  ∃ b c, Reading file text b c ∧ P b ∧ c.At rest

theorem Visits.lexeme {file : String} {text now rest : List Char} {P Q : Builder → Prop}
    {l : Lexeme} (h : Visits file text P now) (lexes : Lexes l now rest)
    (going : ∀ b, P b → b.mode = .regular ∧ b.stopped = false)
    (placed : ∀ b start after, P b → after.indent = 0 → Q (b.place l start after)) :
    Visits file text Q rest := by
  obtain ⟨b, c, read, hp, hc⟩ := h
  obtain ⟨first, after, later, taken, next, hl⟩ := lexes c hc
  have state := read.next (going b hp).2 taken
  rw [(going b hp).1, next] at state
  exact ⟨_, later, state, placed b c.position later hp hl.2, hl⟩

namespace Builder

structure Crowded (n tier : Nat) (b : Builder) : Prop where
  regular : b.mode = .regular
  going : b.stopped = false
  length : b.scopes.length = n
  top : topTier b.scopes = tier

variable {b : Builder} {n tier : Nat}

theorem openBlock_crowded (h : b.Crowded n tier) (room : n < nestingLimit) (start : Position)
    (indent : Int) : (b.openBlock .round start indent).Crowded (n + 1) 0 := by
  unfold openBlock
  rw [h.length, if_neg (Nat.not_le.2 room)]
  exact ⟨h.regular, h.going, congrArg (· + 1) h.length, rfl⟩

theorem join_crowded (h : b.Crowded n tier) (j : Joiner) (tighter : tier < j.tier)
    (start next : Position) : (b.join j start next).Crowded (n + 1) j.tier := by
  have kept : b.foldTighter j start = b := by
    cases hs : b.scopes with
    | nil => exact unwind_nil b hs
    | cons s outer =>
      have own : s.tier = tier := by
        rw [← h.top, hs]
        rfl
      exact unwind_stays b s outer hs (decide_eq_true (own ▸ Nat.le_of_lt tighter))
  apply join_rule (P := Crowded (n + 1) j.tier)
  · intro _
    rw [kept]
    exact ⟨h.regular, h.going, congrArg (· + 1) h.length, rfl⟩
  · intro s c outer hs hk same
    have own : s.tier = tier := by
      rw [← h.top, ← kept, hs]
      rfl
    simp only [OpenScope.tier, hk] at own
    omega

theorem add_crowded (h : b.Crowded n tier) (node : Tree) : (b.add node).Crowded n tier :=
  ⟨h.regular, h.going, h.length, h.top⟩

end Builder

open Builder

theorem visits_opens (file : String) (n : Nat) : ∀ more, n + more = nestingLimit →
    Visits file crowdedText (Crowded n 0) (List.replicate more '(' ++ chainsInChains) := by
  induction n with
  | zero =>
    intro more hm
    rw [Nat.zero_add] at hm
    subst hm
    exact ⟨.empty, .start file crowdedText, .start, ⟨rfl, rfl, rfl, rfl⟩, rfl, rfl⟩
  | succ n ih =>
    intro more hm
    exact (ih (more + 1) (by omega)).lexeme (lexes_open _) (fun _ h => ⟨h.regular, h.going⟩)
      fun _ start after h _ => openBlock_crowded h (by omega) start _

theorem visits_joiner {file : String} {text now rest : List Char} {n tier : Nat} (j : Joiner)
    (h : Visits file text (Crowded n tier) now) (lexes : Lexes (.mark (.joiner j)) now rest)
    (tighter : tier < j.tier) : Visits file text (Crowded (n + 1) j.tier) rest :=
  h.lexeme lexes (fun _ h => ⟨h.regular, h.going⟩)
    fun _ start after h _ => join_crowded h j tighter start after.position

theorem crowdedText_crowded (file : String) :
    ∃ b c, Reading file crowdedText b c ∧ b.scopes.length = nestingLimit + 3 := by
  have brackets := visits_opens file nestingLimit 0 rfl
  have items := visits_joiner .comma brackets (lexes_comma _) (by decide)
  have bindings := visits_joiner .variableBinding items (lexes_binding _) (by decide)
  have blank : Visits file crowdedText (Crowded (nestingLimit + 2) Joiner.variableBinding.tier)
      ('=' :: ' ' :: []) :=
    bindings.lexeme (lexes_blank _ '=' (by decide)) (fun _ h => ⟨h.regular, h.going⟩)
      fun _ _ _ h _ => add_crowded h _
  obtain ⟨b, c, read, full, -⟩ := visits_joiner .assignment blank (lexes_assignment []) (by decide)
  exact ⟨b, c, read, full.length⟩

theorem open_scopes_bound_exact (bound : Nat) :
    (∀ file text b c, Reading file text b c → b.scopes.length ≤ bound) ↔
      nestingLimit + 3 ≤ bound := by
  constructor
  · intro h
    obtain ⟨b, c, read, full⟩ := crowdedText_crowded ""
    exact full ▸ h _ _ b c read
  · intro h file text b c read
    have within := (reading_roomy read).length_le (reading_sound read).nested
    omega

/-- Chains that are begun inside as many brackets as may be open exceed the limit. -/
theorem chains_exceed_limit :
    ¬ ∀ b c, Reading "t.cvl" crowdedText b c → b.scopes.length ≤ nestingLimit := by
  intro within
  obtain ⟨b, c, read, full⟩ := crowdedText_crowded "t.cvl"
  have := within b c read
  omega

end NamespaceLang

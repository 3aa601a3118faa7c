import NamespaceLang.Proofs.Body.Spelled
import NamespaceLang.Proofs.Tree.Deepest

/-!
# Reading a pattern that was written

Where there is room for its brackets, reading a pattern that was written adds one
node to the builder, which spells the pattern: a name is one lexeme, and what is
complete in an open list waits in the bracket or in a chain of commas. So the line
that binds the pattern to a value is read without anything being told, and it binds
each name to the element that the pattern's path leads to.
-/

set_option autoImplicit false

namespace NamespaceLang

open OpenScope NamespaceLang.Tree Pattern

theorem Pattern.printed_starts {p : Pattern} (named : ∀ word ∈ p.words, IsWord word) :
    ∃ first tail, p.printed = first :: tail ∧ Text.isBlank first = false := by
  cases p with
  | bind name pos =>
    obtain ⟨some_letter, letters⟩ := named name (by simp [words])
    rw [printed]
    cases spelled : name.toList with
    | nil => exact absurd (String.toList_inj.1 (spelled.trans String.toList_empty.symm)) some_letter
    | cons first tail =>
      rw [spelled] at letters
      exact ⟨first, tail, rfl, Text.isBlank_of_isAlphanum (letters first List.mem_cons_self)⟩
  | list parts => exact ⟨'[', _, by rw [printed]; rfl, by decide⟩

theorem Pattern.printedEach_starts {part : Pattern} {parts : List Pattern}
    (named : ∀ word ∈ wordsAll (part :: parts), IsWord word) :
    ∃ first tail, List.intercalate ", ".toList (printedEach (part :: parts)) = first :: tail ∧
      Text.isBlank first = false := by
  obtain ⟨first, tail, hp, solid⟩ := printed_starts (p := part) fun word hw =>
    named word (by rw [wordsAll]; exact List.mem_append_left _ hw)
  have begins : part.printed <+: List.intercalate ", ".toList (printedEach (part :: parts)) := by
    rw [printedEach]
    cases parts <;> simp [printedEach, List.intercalate]
  obtain ⟨others, ht⟩ := begins
  exact ⟨first, tail ++ others, by rw [← ht, hp]; rfl, solid⟩

section

variable (rest : List Char)

theorem lexes_openSquare : Lexes (.mark (.opener .square)) ('[' :: rest) rest := by
  rintro ⟨⟩ ⟨rfl, rfl⟩
  exact ⟨_, _, _, rfl, rfl, rfl, rfl⟩

theorem lexes_closeSquare : Lexes (.mark (.closer .square)) (']' :: rest) rest := by
  rintro ⟨⟩ ⟨rfl, rfl⟩
  exact ⟨_, _, _, rfl, rfl, rfl, rfl⟩

theorem lexes_definition :
    Lexes (.mark (.joiner .definition)) (':' :: ':' :: ' ' :: rest) (' ' :: rest) := by
  rintro ⟨⟩ ⟨rfl, rfl⟩
  exact ⟨_, _, _, rfl, rfl, rfl, rfl⟩

variable {rest}

theorem lexes_word {word : String} (named : IsWord word)
    (ends : ∀ c ∈ rest.head?, Letters.isIdentifier c = false) :
    Lexes (.leaf (.identifier .plain word)) (word.toList ++ rest) rest := by
  obtain ⟨some_letter, letters⟩ := named
  cases spelled : word.toList with
  | nil => exact absurd (String.toList_inj.1 (spelled.trans String.toList_empty.symm)) some_letter
  | cons first run =>
    rw [spelled] at letters
    obtain ⟨own, others⟩ : Letters.isIdentifier first = true ∧
        ∀ c ∈ run, Letters.isIdentifier c = true := List.forall_mem_cons.1 letters
    intro c hc
    have within : ∀ c, Letters.isIdentifier c = true → Letters.isIdentifier c = true ∧ c ≠ '\n' := by
      rintro c letter
      refine ⟨letter, ?_⟩
      rintro rfl
      cases letter
    have past : (c.past first (run ++ rest)).Faces 0 (run ++ rest) :=
      Cursor.Faces.past hc (within first own).2
    obtain ⟨run_eq, later⟩ := past.takeWhile (fun c hm => within c (others c hm)) ends
    have name : Lexeme.name? first (c.past first (run ++ rest)) =
        some (.leaf (.identifier .plain word),
          ((c.past first (run ++ rest)).takeWhile Letters.isIdentifier).2) := by
      rw [Lexeme.name?, if_pos own]
      dsimp only
      rw [run_eq, ← spelled, String.ofList_toList]
    refine ⟨first, c.past first (run ++ rest), _, ?_, ?_, later⟩
    · rw [Cursor.take?, hc.1]
      rfl
    · rw [Lexeme.next, Lexeme.nextRegular, name]

end

namespace Builder

/-- Reading on comes to a bracket too many. -/
def HitsLimit (b : Builder) (c : Cursor) : Prop :=
  ∃ d ∈ (b.run c).1.diagnostics, d.cause? = some .nestingTooDeep

/-- Reading on hits the limit, or comes to a builder with `P` and so much text to come. -/
def Tries (b : Builder) (c : Cursor) (P : Builder → Prop) (text : List Char) : Prop :=
  b.HitsLimit c ∨ Reaches b c P text

namespace Tries

variable {P Q : Builder → Prop} {text rest : List Char} {b : Builder} {c : Cursor}

theorem andThen (h : b.Tries c P text)
    (later : ∀ b c, P b → c.At text → b.Tries c Q rest) : b.Tries c Q rest := by
  rcases h with limit | ⟨b', c', hp, hc, run⟩
  · exact Or.inl limit
  · rcases later b' c' hp hc with limit | ⟨b'', c'', hq, hc', run'⟩
    · exact Or.inl (by rwa [HitsLimit, run])
    · exact Or.inr ⟨b'', c'', hq, hc', run.trans run'⟩

theorem imp (h : b.Tries c P text) (weaker : ∀ b, P b → Q b) : b.Tries c Q text :=
  h.andThen fun _ _ hp hc => Or.inr (.done (weaker _ hp) hc)

end Tries

section

variable {b later : Builder} {start at_ : Position} {done : List Pattern} {p : Pattern} {node : Tree}

def squareAt (b : Builder) (start : Position) : OpenScope := ⟨start, 0, .block .square, b.items⟩

/-- In the list that was opened at `start` so many parts are complete. -/
structure InList (b : Builder) (start : Position) (done : List Pattern) (later : Builder) : Prop where
  mode : later.mode = b.mode
  stopped : later.stopped = b.stopped
  diagnostics : later.diagnostics = b.diagnostics
  scopes : (done = [] ∧ later.scopes = b.squareAt start :: b.scopes) ∨
    done ≠ [] ∧ ∃ pos c, later.scopes = ⟨pos, 0, .chain c, #[]⟩ :: b.squareAt start :: b.scopes ∧
      c.tag = .separator ∧ c.tier = TokenGroup.sep.tier ∧ SpelledBy done c.done.toList

theorem InList.add (h : b.InList start done later) (node : Tree) :
    b.InList start done (later.add node) := ⟨h.mode, h.stopped, h.diagnostics, h.scopes⟩

theorem openBlock_inList (room : b.scopes.length < nestingLimit) (start : Position) :
    b.InList start [] (b.openBlock .square start 0) ∧ (b.openBlock .square start 0).items = #[] := by
  unfold openBlock
  rw [if_neg (Nat.not_le.2 room)]
  exact ⟨⟨rfl, rfl, rfl, Or.inl ⟨rfl, rfl⟩⟩, rfl⟩

theorem join_inList (h : b.InList start done later) (alone : trim later.items.toList = [node])
    (spelled : p.Spells node) (next : Position) :
    b.InList start (done ++ [p]) (later.join .comma at_ next) ∧
      (later.join .comma at_ next).items = #[] := by
  rcases h.scopes with ⟨rfl, hs⟩ | ⟨-, pos, c, hs, tag, tier, read⟩
  · have begins : later.join .comma at_ next = later.startChain .comma at_ next := by
      rw [join, unwind_stays later _ _ hs rfl, hs]
      rfl
    obtain ⟨fresh, hf⟩ : ∃ c : OpenChain,
      c = ⟨.separator, TokenGroup.sep.tier, #[], at_, at_⟩ := ⟨_, rfl⟩
    rw [begins]
    refine ⟨⟨h.mode, h.stopped, h.diagnostics,
      Or.inr ⟨by simp, at_, fresh.extend later.items.toList .comma at_ next, ?_, ?_, ?_, ?_⟩⟩, rfl⟩
    · rw [startChain, indent, hs, hf]
      rfl
    · rw [hf]
      rfl
    · rw [hf]
      rfl
    · have grown := (spelledBy_nil.operand alone spelled at_).operator at_ Joiner.comma.spelling
      simpa [OpenChain.extend, hf] using grown
  · have goesOn : later.join .comma at_ next =
        later.extendChain ⟨pos, 0, .chain c, #[]⟩ c (b.squareAt start :: b.scopes) .comma at_ next := by
      have same : (⟨pos, 0, .chain c, #[]⟩ : OpenScope).tier = Joiner.comma.tier := tier
      rw [join, unwind_stays later _ _ hs (by rw [same]; decide), hs]
      dsimp only
      rw [if_neg (by rw [same]; exact Nat.lt_irrefl _)]
    rw [goesOn, extendChain, if_pos (show c.tag = Joiner.comma.tag from tag)]
    refine ⟨⟨h.mode, h.stopped, h.diagnostics, Or.inr ⟨by simp, pos, _, rfl, tag, tier, ?_⟩⟩, rfl⟩
    have grown := (read.operand alone spelled c.operandStart).operator at_ Joiner.comma.spelling
    simpa [OpenChain.extend] using grown

theorem close_squareAt (mode : later.mode = b.mode)
    (stopped : later.stopped = b.stopped) (diagnostics : later.diagnostics = b.diagnostics)
    (scopes : later.scopes = b.squareAt start :: b.scopes) :
    later.close .square at_ 0 =
      b.add (.group start (.block .list "[" "]") later.items.toList) := by
  have own : (b.squareAt start).closedBy .square 0 = true := rfl
  rw [close, unwind_stays later _ _ scopes (by rw [own]; rfl), scopes]
  dsimp only
  rw [if_pos own]
  simp [fold, enter, add, mode, stopped, diagnostics, squareAt, tree, Delimiter.blockTag,
    Delimiter.opening, Delimiter.closing, Delimiter.closingMode?]

theorem close_inList (h : b.InList start done later) (alone : trim later.items.toList = [node])
    (spelled : p.Spells node) :
    ∃ whole, later.close .square at_ 0 = b.add whole ∧ (Pattern.list (done ++ [p])).Spells whole := by
  rcases h.scopes with ⟨rfl, hs⟩ | ⟨-, pos, c, hs, -, tier, read⟩
  · exact ⟨_, close_squareAt h.mode h.stopped h.diagnostics hs, spells_single alone spelled⟩
  · obtain ⟨chain, hc⟩ : ∃ chain : OpenScope, chain = ⟨pos, 0, .chain c, #[]⟩ := ⟨_, rfl⟩
    have left : (chain.closedBy .square 0 || chain.holds 0 Delimiter.square.tier) = false := by
      rw [hc]
      rfl
    have folded : later.close .square at_ 0 =
        (later.fold chain (b.squareAt start :: b.scopes)).close .square at_ 0 := by
      have block : ¬ chain.isBlock = true := by
        rw [hc]
        exact Bool.false_ne_true
      rw [close, unwind_folds _ _ later chain _ (hc ▸ hs) left, foldOnce, if_neg block, ← close]
    rw [folded]
    refine ⟨_, close_squareAt h.mode h.stopped h.diagnostics rfl, ?_⟩
    have operands := read.operand alone spelled c.operandStart
    have items : (later.fold chain (b.squareAt start :: b.scopes)).items.toList =
        [.group (((c.done.toList ++ [segment later.items.toList c.operandStart]).head?.map
          Tree.pos).getD pos) (.chain c.tag TokenGroup.sep.tier)
          (c.done.toList ++ [segment later.items.toList c.operandStart])] := by
      simp [fold, tree, hc, tier]
    rw [items]
    exact spells_chain operands

theorem close_empty (h : b.InList start [] later) (empty : later.items = #[]) :
    ∃ whole, later.close .square at_ 0 = b.add whole ∧ (Pattern.list []).Spells whole := by
  rcases h.scopes with ⟨-, hs⟩ | ⟨begun, -⟩
  · refine ⟨_, close_squareAt h.mode h.stopped h.diagnostics hs, ?_⟩
    rw [empty]
    exact spells_empty
  · exact absurd rfl begun

end

section

variable {b later : Builder} {c : Cursor} {start : Position} {done : List Pattern}

theorem reads_openSquare {rest : List Char} (going : b.stopped = false) (regular : b.mode = .regular)
    (hc : c.At ('[' :: rest)) :
    b.Tries c (fun later => ∃ start, b.InList start [] later ∧ later.items = #[]) rest := by
  by_cases room : b.scopes.length < nestingLimit
  · refine Or.inr (Reaches.lexeme (lexes_openSquare rest) hc regular ?_ ?_)
    · rintro later ⟨start, inside, -⟩
      exact inside.stopped.trans going
    · intro start after hi
      simp only [place, hi]
      exact ⟨start, openBlock_inList room start⟩
  · obtain ⟨first, after, next, taken, lexed, -⟩ := lexes_openSquare rest c hc
    have full : (b.place (.mark (.opener .square)) c.position next) =
        b.stop (.error c.position .nestingTooDeep) := by
      rw [place, openBlock, if_pos (Nat.not_lt.1 room)]
    refine Or.inl ⟨.error c.position .nestingTooDeep, ?_, rfl⟩
    rw [run_next b taken, regular, lexed]
    dsimp only
    rw [full, if_pos (show (b.stop (.error c.position .nestingTooDeep)).stopped = true from rfl)]
    exact List.mem_append_right _ List.mem_cons_self

theorem reads_blank {first : Char} {tail : List Char} (going : b.stopped = false)
    (regular : b.mode = .regular) (solid : Text.isBlank first = false)
    (hc : c.At (' ' :: first :: tail)) :
    Reaches b c (fun later => ∃ blank, later = b.add (.leaf blank (.whitespace false)))
      (first :: tail) :=
  Reaches.lexeme (lexes_blank tail first solid) hc regular
    (by rintro _ ⟨blank, rfl⟩; exact going) fun start _ _ => ⟨start, rfl⟩

theorem reads_separator {part : Pattern} {node : Tree} {first : Char} {tail : List Char}
    (going : later.stopped = false) (regular : later.mode = .regular)
    (inside : b.InList start done later) (alone : trim later.items.toList = [node])
    (spelled : part.Spells node) (solid : Text.isBlank first = false)
    (hc : c.At (',' :: ' ' :: first :: tail)) :
    later.Tries c (fun last => b.InList start (done ++ [part]) last ∧
      ∀ item ∈ last.items.toList, item.isBlank = true) (first :: tail) := by
  have comma : Reaches later c
      (fun last => b.InList start (done ++ [part]) last ∧ last.items = #[])
      (' ' :: first :: tail) :=
    Reaches.lexeme (lexes_comma _) hc regular
      (fun _ h => h.1.stopped.trans (inside.stopped.symm.trans going))
      fun _ after _ => join_inList inside alone spelled after.position
  apply Tries.andThen (Or.inr comma)
  rintro last c ⟨joined, empty⟩ hc
  have quiet := inside.stopped.symm.trans going
  have plain := inside.mode.symm.trans regular
  apply Tries.imp (Or.inr (reads_blank (joined.stopped.trans quiet) (joined.mode.trans plain) solid hc))
  rintro _ ⟨blank, rfl⟩
  refine ⟨joined.add _, ?_⟩
  simp [Builder.add, empty, isBlank, Leaf.isBlank]

theorem trim_part {node : Tree} (blank : ∀ item ∈ later.items.toList, item.isBlank = true)
    (solid : node.isBlank = false) : trim (later.add node).items.toList = [node] := by
  simp [Builder.add, trim, trimStart, List.dropWhile_append_of_pos blank, solid]

mutual

/-- Reading a pattern adds a node that spells it. -/
theorem reads_pattern : (p : Pattern) → (∀ word ∈ p.words, IsWord word) →
    ∀ {b : Builder} {c : Cursor} {rest : List Char}, b.stopped = false → b.mode = .regular →
      (∀ ch ∈ rest.head?, Letters.isIdentifier ch = false) → c.At (p.printed ++ rest) →
        b.Tries c (fun later => ∃ node, later = b.add node ∧ p.Spells node) rest
  | .bind name _, named, b, c, rest, going, regular, ends, hc => by
    have word : IsWord name := named name (by simp [words])
    rw [printed] at hc
    refine Or.inr (Reaches.lexeme (lexes_word word ends) hc regular ?_ ?_)
    · rintro _ ⟨node, rfl, -⟩
      exact going
    · exact fun start _ _ => ⟨_, rfl, spells_bind name _ start⟩
  | .list [], _, b, c, rest, going, regular, _, hc => by
    have text : c.At ('[' :: ']' :: rest) := by simpa [printed, printedEach] using hc
    apply (reads_openSquare going regular text).andThen
    rintro later c ⟨start, inside, empty⟩ hc
    refine Or.inr (Reaches.lexeme (lexes_closeSquare rest) hc (inside.mode.trans regular) ?_ ?_)
    · rintro _ ⟨node, rfl, -⟩
      exact going
    · intro at_ after hi
      simp only [place, hi]
      exact close_empty inside empty
  | .list (part :: parts), named, b, c, rest, going, regular, _, hc => by
    have text : c.At
        ('[' :: (List.intercalate ", ".toList (printedEach (part :: parts)) ++ ']' :: rest)) := by
      simpa [printed] using hc
    apply (reads_openSquare going regular text).andThen
    rintro later c ⟨start, inside, empty⟩ hc
    have blank : ∀ item ∈ later.items.toList, item.isBlank = true := by simp [empty]
    have read := reads_parts (part :: parts) named (by simp) going regular inside blank hc
    simpa using read

theorem reads_parts : (parts : List Pattern) → (∀ word ∈ wordsAll parts, IsWord word) → parts ≠ [] →
    ∀ {b later : Builder} {c : Cursor} {start : Position} {done : List Pattern} {rest : List Char},
      b.stopped = false → b.mode = .regular → b.InList start done later →
        (∀ item ∈ later.items.toList, item.isBlank = true) →
          c.At (List.intercalate ", ".toList (printedEach parts) ++ ']' :: rest) →
            later.Tries c (fun last => ∃ node, last = b.add node ∧
              (Pattern.list (done ++ parts)).Spells node) rest
  | [part], named, _, b, later, c, start, done, rest, going, regular, inside, blank, hc => by
    have own : ∀ word ∈ part.words, IsWord word := fun word hm => named word (by simp [wordsAll, hm])
    have text : c.At (part.printed ++ ']' :: rest) := by simpa [printedEach] using hc
    apply (reads_pattern part own (inside.stopped.trans going) (inside.mode.trans regular)
      (by rintro ch ⟨⟩; rfl) text).andThen
    rintro _ c ⟨node, rfl, spelled⟩ hc
    have grown := inside.add node
    have alone := trim_part blank spelled.solid
    refine Or.inr (Reaches.lexeme (lexes_closeSquare rest) hc (grown.mode.trans regular) ?_ ?_)
    · rintro _ ⟨whole, rfl, -⟩
      exact going
    · intro at_ after hi
      simp only [place, hi]
      exact close_inList grown alone spelled
  | part :: next :: parts, named, _, b, later, c, start, done, rest, going, regular, inside, blank,
      hc => by
    have own : ∀ word ∈ part.words, IsWord word := fun word hm => named word (by simp [wordsAll, hm])
    have others : ∀ word ∈ wordsAll (next :: parts), IsWord word := fun word hm =>
      named word (by rw [wordsAll]; exact List.mem_append_right _ hm)
    obtain ⟨first, tail, begins, solid⟩ := printedEach_starts others
    have text : c.At (part.printed ++ ',' :: ' ' ::
        (List.intercalate ", ".toList (printedEach (next :: parts)) ++ ']' :: rest)) := by
      simpa [printedEach, List.intercalate] using hc
    rw [begins] at text
    apply (reads_pattern part own (inside.stopped.trans going) (inside.mode.trans regular)
      (by rintro ch ⟨⟩; rfl) text).andThen
    rintro _ c ⟨node, rfl, spelled⟩ hc
    have grown := inside.add node
    have alone := trim_part blank spelled.solid
    apply (reads_separator (grown.stopped.trans going) (grown.mode.trans regular) grown alone spelled
      solid hc).andThen
    rintro last c ⟨inside, blank⟩ hc
    have following : c.At (List.intercalate ", ".toList (printedEach (next :: parts)) ++ ']' :: rest) :=
      begins ▸ hc
    have read := reads_parts (next :: parts) others (by simp) going regular inside blank following
    simpa using read

end

def marked (node : Tree) (blank mark next : Position) : Builder :=
  ((empty.add node).add (.leaf blank (.whitespace false))).startChain .definition mark next

def bindsV (node : Tree) (blank mark next blank' name : Position) : Builder :=
  ((marked node blank mark next).add (.leaf blank' (.whitespace false))).add
    (.leaf name (.identifier .plain "v"))

theorem reads_definitionText {p : Pattern} (named : ∀ word ∈ p.words, IsWord word) (file : String) :
    empty.Tries (.start file p.definitionText) (fun later => ∃ node blank mark next blank' name,
      p.Spells node ∧ later = bindsV node blank mark next blank' name) [] := by
  have text : (Cursor.start file p.definitionText).At (p.printed ++ " :: v".toList) := by
    refine ⟨rfl, ?_⟩
    obtain ⟨first, tail, hp, solid⟩ := printed_starts named
    have plain : first ≠ ' ' := by
      rintro rfl
      cases solid
    simp [Cursor.start, leadingSpaces, definitionText, hp, plain]
  apply (reads_pattern p named rfl rfl (by rintro ch ⟨⟩; rfl) text).andThen
  rintro _ c ⟨node, rfl, spelled⟩ hc
  apply Tries.andThen (Or.inr (reads_blank rfl rfl (by decide) hc))
  rintro _ c ⟨blank, rfl⟩ hc
  have joined : Reaches ((empty.add node).add (.leaf blank (.whitespace false))) c
      (fun later => ∃ mark next, later = marked node blank mark next) " v".toList :=
    Reaches.lexeme (lexes_definition _) hc rfl (by rintro _ ⟨mark, next, rfl⟩; rfl)
      fun start after _ => ⟨start, after.position, rfl⟩
  refine Tries.andThen (Or.inr joined) ?_
  rintro _ c ⟨mark, next, rfl⟩ hc
  apply Tries.andThen (Or.inr (reads_blank rfl rfl (by decide) hc))
  rintro _ c ⟨blank', rfl⟩ hc
  have word : Lexes (.leaf (.identifier .plain "v")) ("v".toList ++ []) [] :=
    lexes_word (by decide) (by simp)
  exact Or.inr (Reaches.lexeme word hc rfl
    (by rintro _ ⟨_, _, _, _, _, _, -, rfl⟩; rfl)
    fun start _ _ => ⟨node, blank, mark, next, blank', start, spelled, rfl⟩)

theorem finish_bindsV (node : Tree) (blank mark next blank' name stop : Position) :
    ((bindsV node blank mark next blank' name).finish stop).diagnostics = [] ∧
      ((bindsV node blank mark next blank' name).finish stop).items.toList =
        [.group node.pos (.chain .definition TokenGroup.bind.tier)
          [.group node.pos .segment [node, .leaf blank (.whitespace false)],
            .leaf mark (.operator "::"),
            .group blank' .segment
              [.leaf blank' (.whitespace false), .leaf name (.identifier .plain "v")]]] :=
  ⟨rfl, rfl⟩

theorem Tries.tokenize {file : String} {text : List Char} {P : Builder → Prop}
    (h : empty.Tries (.start file text) P [])
    (shallow : ∀ d ∈ (tokenize file text).diagnostics, d.cause? ≠ some .nestingTooDeep) :
    ∃ b stop, P b ∧
      tokenize file text = ⟨(b.finish stop).items.toList, (b.finish stop).diagnostics⟩ := by
  rcases h with ⟨d, told, deep⟩ | ⟨b, c, hp, hc, run⟩
  · exact absurd deep (shallow d ((finish_diagnostics _ _).subset told))
  · refine ⟨b, c.position, hp, ?_⟩
    rw [NamespaceLang.tokenize, run, run_end b (Cursor.take?_of_nil hc.1)]

end

end Builder

namespace Body

/-- The names of a pattern that is written are bound without anything being told, if there is room
for its brackets: each to the element of the value that its path in the pattern leads to. -/
theorem read_definitionText {p : Pattern} (distinct : p.words.Nodup)
    (named : ∀ word ∈ p.words, IsWord word) (file : String) (pos : Position)
    (shallow : ∀ d ∈ (tokenize file p.definitionText).diagnostics, d.cause? ≠ some .nestingTooDeep) :
    (tokenize file p.definitionText).diagnostics = [] ∧
      ∃ definitions mark blank at_,
        read pos (tokenize file p.definitionText).nodes = .ok (⟨definitions, []⟩, []) ∧
        definitions.keys = p.words ∧
        (∀ name d, definitions.get? name = some d ↔
          (∃ place, p.at? d.path = some (.bind name place)) ∧ d.pos = mark ∧
            d.value = [.leaf blank (.whitespace false), .leaf at_ (.identifier .plain "v")]) ∧
        ∀ name d, definitions.get? name = some d → (d.path = [] ↔ ∃ place, p = .bind name place) := by
  obtain ⟨b, stop, ⟨node, blank, mark, next, blank', at_, spelled, rfl⟩, tokenized⟩ :=
    (Builder.reads_definitionText named file).tokenize shallow
  obtain ⟨quiet, nodes⟩ := Builder.finish_bindsV node blank mark next blank' at_ stop
  have alone : trim [node, .leaf blank (.whitespace false)] = [node] := by
    have behind : (Tree.leaf blank (.whitespace false)).isBlank = true := rfl
    simp [trim, trimStart, spelled.solid, behind]
  have bound := read_definition pos (by decide) alone spelled distinct nodes
  rw [tokenized]
  exact ⟨quiet, _, mark, blank', at_, bound, Pattern.keys_bindings, Pattern.get?_bindings distinct,
    fun name d found => Pattern.path_nil_iff ((Pattern.get?_bindings distinct name d).1 found).1⟩

/-- The line `[a, [b, c], [[]], [d]] :: v`, in which the second element of the second element of the
value is bound to `c`. -/
theorem read_definitionText_nested :
    ["a", "b", "c", "d"].Nodup ∧ (∀ word ∈ ["a", "b", "c", "d"], IsWord word) ∧
      (∀ d ∈ (tokenize "t.cvl" "[a, [b, c], [[]], [d]] :: v".toList).diagnostics,
        d.cause? ≠ some .nestingTooDeep) ∧
      ∃ definitions mark blank at_,
        read default (tokenize "t.cvl" "[a, [b, c], [[]], [d]] :: v".toList).nodes =
          .ok (⟨definitions, []⟩, []) ∧
        definitions.keys = ["a", "b", "c", "d"] ∧
        definitions.get? "c" = some ⟨mark,
          [.leaf blank (.whitespace false), .leaf at_ (.identifier .plain "v")], [1, 1]⟩ := by
  have distinct : ["a", "b", "c", "d"].Nodup := by decide
  have named : ∀ word ∈ ["a", "b", "c", "d"], IsWord word := by decide
  have shallow : ∀ d ∈ (tokenize "t.cvl" "[a, [b, c], [[]], [d]] :: v".toList).diagnostics,
      d.cause? ≠ some .nestingTooDeep := by decide +kernel
  obtain ⟨-, definitions, mark, blank, at_, bound, keys, entries, -⟩ := read_definitionText
    (p := .list [.bind "a" default, .list [.bind "b" default, .bind "c" default], .list [.list []],
      .list [.bind "d" default]]) distinct named "t.cvl" default shallow
  exact ⟨distinct, named, shallow, definitions, mark, blank, at_, bound, keys,
    (entries _ _).2 ⟨⟨default, rfl⟩, rfl, rfl⟩⟩

end Body

end NamespaceLang

import Mathlib.Data.List.TakeWhile
import NamespaceLang.Proofs.Tree.Seams

/-!
# Cursors on their way

A cursor takes characters and runs of them, and goes to positions that it has had,
back or on. Its line, its column and the indentation that it keeps are carried along
step by step, and worked out again where it goes back; either way they are those of
the place in the text, which the offset alone determines.
-/

set_option autoImplicit false

namespace NamespaceLang

theorem leadingSpaces_line (before after : List Char) :
    leadingSpaces (before ++ after.takeWhile (· != '\n')) = leadingSpaces (before ++ after) := by
  have inside : ∀ text : List Char,
      (text.takeWhile (· != '\n')).takeWhile (· == ' ') = text.takeWhile (· == ' ') := by
    intro text
    rw [List.takeWhile_takeWhile]
    congr 1
    funext c
    by_cases h : c = ' ' <;> simp [h]
  unfold leadingSpaces
  rw [List.takeWhile_append, List.takeWhile_append, inside]

theorem lineLength_le (text : List Char) : (lastLine text).length ≤ text.length := by
  rw [lastLine, List.length_reverse]
  exact Nat.le_trans (List.takeWhile_sublist _).length_le (Nat.le_of_eq text.length_reverse)

theorem byteLength_eq_zero {text : List Char} (h : byteLength text = 0) : text = [] := by
  cases text with
  | nil => rfl
  | cons c rest =>
    have := c.utf8Size_pos
    simp only [byteLength] at h
    omega

theorem append_of_byteLength_le {before after earlier later : List Char}
    (same : before ++ after = earlier ++ later) (le : byteLength earlier ≤ byteLength before) :
    ∃ passed, before = earlier ++ passed := by
  rcases List.append_eq_append_iff.1 same with ⟨more, rfl, -⟩ | ⟨passed, rfl, -⟩
  · have none_more : more = [] := by
      rw [byteLength_append] at le
      exact byteLength_eq_zero (by omega)
    exact ⟨[], by simp [none_more]⟩
  · exact ⟨passed, rfl⟩

theorem length_le_byteLength (text : List Char) : text.length ≤ byteLength text := by
  induction text with
  | nil => exact Nat.le_refl _
  | cons c rest ih =>
    have := c.utf8Size_pos
    simp only [List.length_cons, byteLength]
    omega

namespace Cursor

/-- The cursor between two parts of a text, worked out from these alone. The line that it is on
begins behind the last line feed before it, and ends before the next one. -/
def between (label : String) (before after : List Char) : Cursor where
  file := label
  text := before ++ after
  rest := after
  offset := byteLength before
  line := 1 + before.count '\n'
  col := 1 + (lastLine before).length
  indent := leadingSpaces (lastLine before ++ after.takeWhile (· != '\n'))

def atOffset (label : String) (text : List Char) (offset : Nat) : Cursor :=
  between label (takeBytes offset text) (dropBytes offset text)

variable {label : String} {before after : List Char}

theorem start_eq_between (label : String) (text : List Char) :
    start label text = between label [] text := by
  have indent := leadingSpaces_line [] text
  simp only [List.nil_append] at indent
  simp [start, between, lastLine, byteLength, indent]

theorem between_eq_atOffset :
    between label before after = atOffset label (before ++ after) (byteLength before) := by
  rw [atOffset, takeBytes_append, dropBytes_append]

theorem position_between : (between label before after).position = .behind label before := rfl

theorem past_between (label : String) (before rest : List Char) (ch : Char) :
    (between label before (ch :: rest)).past ch rest = between label (before ++ [ch]) rest := by
  unfold past between
  split
  · next feed =>
    subst feed
    have indent := leadingSpaces_line [] rest
    simp only [List.nil_append] at indent
    simp [lastLine_feed, byteLength, indent, Nat.add_assoc]
  · next other =>
    simp [lastLine_other before other, byteLength, other, Nat.add_assoc]

theorem takeRun_between (p : Char → Bool) (label : String) (before after : List Char) :
    takeRun p after (between label before after) =
      (after.takeWhile p, between label (before ++ after.takeWhile p) (after.dropWhile p)) := by
  induction after generalizing before with
  | nil => simp [takeRun]
  | cons ch rest ih =>
    by_cases hp : p ch
    · simp [takeRun, hp, past_between, ih]
    · simp [takeRun, hp]

theorem takeWhile_between (p : Char → Bool) (label : String) (before after : List Char) :
    (between label before after).takeWhile p =
      (after.takeWhile p, between label (before ++ after.takeWhile p) (after.dropWhile p)) :=
  takeRun_between p label before after

/-- Whatever place the cursor comes from, it is where the position says. -/
theorem moveTo_between {before' after' : List Char} (same : before ++ after = before' ++ after') :
    (between label before after).moveTo (.behind label before') = between label before' after' := by
  have offset : (Position.behind label before').offset = byteLength before' := rfl
  have text : (between label before after).text = before' ++ after' := same
  simp only [moveTo, offset, text, takeBytes_append, dropBytes_append]
  simp [between, Position.behind, leadingSpaces_line]

theorem since_between (earlier passed : List Char) :
    (between label (earlier ++ passed) after).since (.behind label earlier) = passed := by
  show dropBytes (byteLength earlier)
    (takeBytes (byteLength (earlier ++ passed)) ((earlier ++ passed) ++ after)) = passed
  rw [takeBytes_append, dropBytes_append]

/-- No counter is ahead of the bytes before the cursor. -/
theorem counters_between (label : String) (before after : List Char) :
    (between label before after).line ≤ 1 + byteLength before ∧
      (between label before after).col ≤ 1 + byteLength before := by
  have bytes := length_le_byteLength before
  exact ⟨Nat.add_le_add_left (Nat.le_trans List.count_le_length bytes) 1,
    Nat.add_le_add_left (Nat.le_trans (lineLength_le before) bytes) 1⟩

inductive Move where
  | take
  | takeWhile (p : Char → Bool)
  | moveTo (index : Nat)

structure Trip where
  cursor : Cursor
  seen : List Position

namespace Trip

def start (label : String) (text : List Char) : Trip :=
  ⟨.start label text, [(Cursor.start label text).position]⟩

def reach (t : Trip) (c : Cursor) : Trip := ⟨c, t.seen ++ [c.position]⟩

/-- One move. At the end of the text no character is taken, and a position that the cursor has not
had moves nothing. -/
def go (t : Trip) : Move → Trip
  | .take => t.reach ((t.cursor.take?.map (·.2)).getD t.cursor)
  | .takeWhile p => t.reach (t.cursor.takeWhile p).2
  | .moveTo index => t.reach ((t.seen[index]?.map t.cursor.moveTo).getD t.cursor)

def travel (t : Trip) (moves : List Move) : Trip := moves.foldl go t

structure Within (label : String) (text : List Char) (t : Trip) : Prop where
  cursor : ∃ before after, text = before ++ after ∧ t.cursor = between label before after
  seen : ∀ pos ∈ t.seen, pos.In label text

variable {label : String} {text : List Char} {t : Trip}

theorem Within.reach (h : t.Within label text) {before after : List Char}
    (parted : text = before ++ after) : (t.reach (between label before after)).Within label text where
  cursor := ⟨before, after, parted, rfl⟩
  seen := List.forall_mem_append.2 ⟨h.seen, by
    simpa using ⟨before, after, parted, position_between⟩⟩

theorem start_within : (Trip.start label text).Within label text where
  cursor := ⟨[], text, rfl, start_eq_between label text⟩
  seen := by simpa [Trip.start] using ⟨[], text, rfl, rfl⟩

theorem Within.go (h : t.Within label text) (move : Move) : (t.go move).Within label text := by
  obtain ⟨before, after, parted, here⟩ := h.cursor
  cases move with
  | take =>
    simp only [Trip.go, here]
    cases after with
    | nil => exact h.reach parted
    | cons ch rest =>
      have taken : (between label before (ch :: rest)).take? =
          some (ch, between label (before ++ [ch]) rest) := by
        rw [← past_between]
        rfl
      rw [taken]
      exact h.reach (by rw [parted]; simp)
  | takeWhile p =>
    simp only [Trip.go, here, takeWhile_between]
    exact h.reach (by rw [parted, List.append_assoc, List.takeWhile_append_dropWhile])
  | moveTo index =>
    simp only [Trip.go, here]
    cases there : t.seen[index]? with
    | none => exact h.reach parted
    | some pos =>
      obtain ⟨before', after', parted', rfl⟩ := h.seen pos (List.mem_of_getElem? there)
      rw [Option.map_some, Option.getD_some, moveTo_between (parted.symm.trans parted')]
      exact h.reach parted'

theorem Within.travel (h : t.Within label text) (moves : List Move) :
    (t.travel moves).Within label text := by
  induction moves generalizing t with
  | nil => exact h
  | cons move rest ih => exact ih (h.go move)

end Trip

/-- The longest run of characters with `p` at the beginning of a text. -/
structure LongestRun (p : Char → Bool) (text run : List Char) : Prop where
  begins : run <+: text
  all : ∀ ch ∈ run, p ch = true
  longest : ∀ other, other <+: text → (∀ ch ∈ other, p ch = true) → other <+: run

theorem longestRun_takeWhile (p : Char → Bool) (text : List Char) :
    LongestRun p text (text.takeWhile p) where
  begins := List.takeWhile_prefix p
  all := List.all_eq_true.1 List.all_takeWhile
  longest := by
    rintro other ⟨rest, rfl⟩ all
    rw [List.takeWhile_append_of_pos all]
    exact List.prefix_append _ _

end Cursor

open Cursor in
/-- Whatever moves a cursor makes in a text, to a position that it has had among them, it comes to
stand between two parts of the text. All that it knows is what can be worked out from these, and so
from its offset; 32 bits are enough for its counters in a text of less than 2^31 bytes. From there a
run is the longest one that the text goes on with, and leaves the cursor behind it; and what lies
between the cursor and a position that it has had, no further on, is the text between the two. -/
theorem travel_place (label : String) (text : List Char) (moves : List Move) :
    let trip := (Trip.start label text).travel moves
    let c := trip.cursor
    (∃ before after, text = before ++ after ∧ c.offset = byteLength before ∧
      c = between label before after) ∧
    c = atOffset label text c.offset ∧
    (byteLength text < 2 ^ 31 → c.line < 2 ^ 32 ∧ c.col < 2 ^ 32) ∧
    (∀ p, LongestRun p c.rest (c.takeWhile p).1 ∧
      (c.takeWhile p).2 = atOffset label text (c.offset + byteLength (c.takeWhile p).1) ∧
      (c.takeWhile p).2.since c.position = (c.takeWhile p).1) ∧
    ∀ pos ∈ trip.seen, (c.moveTo pos).position = pos ∧ c.moveTo pos = atOffset label text pos.offset ∧
      (pos.offset ≤ c.offset → ∃ earlier, text = earlier ++ c.since pos ++ c.rest ∧
        pos.offset = byteLength earlier) := by
  intro trip c
  obtain ⟨⟨before, after, parted, here⟩, seen⟩ : trip.Within label text :=
    Trip.start_within.travel moves
  have here : c = between label before after := here
  rw [here]
  refine ⟨⟨before, after, parted, rfl, rfl⟩, ?_, fun short => ?_, fun p => ?_, fun pos hm => ?_⟩
  · rw [parted]
    exact between_eq_atOffset
  · have whole : byteLength text = byteLength before + byteLength after := by
      rw [parted, byteLength_append]
    obtain ⟨line, col⟩ := counters_between label before after
    constructor <;> omega
  · have parts : text = (before ++ after.takeWhile p) ++ after.dropWhile p := by
      rw [parted, List.append_assoc, List.takeWhile_append_dropWhile]
    rw [takeWhile_between]
    refine ⟨longestRun_takeWhile p after, ?_, since_between before _⟩
    rw [between_eq_atOffset, ← parts, byteLength_append]
    rfl
  · obtain ⟨before', after', parted', rfl⟩ := seen pos hm
    have there : (between label before after).moveTo (.behind label before') =
        between label before' after' := moveTo_between (parted.symm.trans parted')
    refine ⟨by rw [there]; rfl, ?_, fun le => ?_⟩
    · rw [there, parted']
      exact between_eq_atOffset
    · obtain ⟨passed, rfl⟩ := append_of_byteLength_le (parted.symm.trans parted') le
      refine ⟨before', ?_, rfl⟩
      rw [since_between]
      exact parted

end NamespaceLang

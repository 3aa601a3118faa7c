import NamespaceLang.Proofs.Tree.Folding

/-!
# String literals

Between quotes a backslash, a quote, a line feed and a tab are written with a backslash
before them, and every other character as it is. A string that is written so is read
back: what needs no backslash is read run by run, every other character by itself, and
the closing quote ends the string where it began, on the line where it began.
-/

set_option autoImplicit false

namespace NamespaceLang

namespace Literal

def escape (c : Char) : List Char :=
  if c = '\\' then ['\\', '\\']
  else if c = '\"' then ['\\', '\"']
  else if c = '\n' then ['\\', 'n']
  else if c = '\t' then ['\\', 't']
  else [c]

def escaped (chars : List Char) : List Char := chars.flatMap escape

def written (s : String) : List Char := '\"' :: (escaped s.toList ++ ['\"'])

def isPlain (c : Char) : Bool := c != '\\' && c != '\"' && c != '\n' && c != '\t'

/-- The runs of plain characters, and every other character by itself. -/
def pieces : List Char → List (List Char)
  | [] => []
  | c :: rest =>
    if isPlain c then (c :: rest.takeWhile isPlain) :: pieces (rest.dropWhile isPlain)
    else [c] :: pieces rest
termination_by chars => chars.length
decreasing_by
  · exact Nat.lt_succ_of_le (List.dropWhile_sublist _).length_le
  · exact Nat.lt_succ_self _

theorem flatten_pieces (chars : List Char) : (pieces chars).flatten = chars := by
  fun_induction pieces chars with
  | case1 => rfl
  | case2 c rest plain ih => rw [List.flatten_cons, ih, List.cons_append, List.takeWhile_append_dropWhile]
  | case3 c rest plain ih => rw [List.flatten_cons, ih, List.singleton_append]

theorem special_cases {c : Char} (h : isPlain c = false) :
    c = '\\' ∨ c = '\"' ∨ c = '\n' ∨ c = '\t' := by
  simpa only [isPlain, Bool.and_eq_false_iff, bne_eq_false_iff_eq, or_assoc] using h

theorem escape_plain {c : Char} (h : isPlain c = true) : escape c = [c] := by
  simp only [isPlain, Bool.and_eq_true, bne_iff_ne] at h
  simp [escape, h]

theorem escaped_plain {run : List Char} (h : ∀ c ∈ run, isPlain c = true) : escaped run = run := by
  induction run with
  | nil => rfl
  | cons c run ih =>
    obtain ⟨own, others⟩ := List.forall_mem_cons.1 h
    rw [escaped, List.flatMap_cons, escape_plain own, ← escaped, ih others, List.singleton_append]

theorem escaped_append (left right : List Char) :
    escaped (left ++ right) = escaped left ++ escaped right := List.flatMap_append

theorem escaped_stops {chars : List Char} (h : ∀ c ∈ chars.head?, isPlain c = false) (tail : List Char) :
    ∀ c ∈ (escaped chars ++ '\"' :: tail).head?, Lexeme.isLiteral c = false := by
  cases chars with
  | nil => simp [escaped, Lexeme.isLiteral]
  | cons first rest =>
    rcases special_cases (h first rfl) with rfl | rfl | rfl | rfl <;> simp [escaped, escape, Lexeme.isLiteral]

theorem isLiteral_of_isPlain {c : Char} (h : isPlain c = true) : Lexeme.isLiteral c = true ∧ c ≠ '\n' := by
  simp only [isPlain, Bool.and_eq_true, bne_iff_ne] at h
  simp [Lexeme.isLiteral, h]

end Literal

open Literal

namespace Lexeme

variable {indent : Nat} {c : Cursor}

theorem reads_escape {ch : Char} {rest : List Char} (special : isPlain ch = false)
    (h : c.Faces indent (escape ch ++ rest)) : ∃ first after later, c.take? = some (first, after) ∧
      next .inString first after = (.leaf (.text (String.ofList [ch])), later) ∧
      later.Faces indent rest := by
  have written : ∃ letter, escape ch = ['\\', letter] ∧ letter ≠ '\n' ∧
      ∀ after : Cursor, after.Faces indent (letter :: rest) →
        nextEscape after = (.leaf (.text (String.ofList [ch])), after.past letter rest) := by
    rcases special_cases special with rfl | rfl | rfl | rfl
    all_goals
      refine ⟨_, rfl, by decide, fun after ha => ?_⟩
      rw [nextEscape, ha.take]
      rfl
  obtain ⟨letter, spelled, line, reads⟩ := written
  rw [spelled] at h
  have behind := Cursor.Faces.past h (by decide)
  exact ⟨'\\', _, _, h.take, reads _ behind, behind.past line⟩

theorem reads_plain {first : Char} {run rest : List Char}
    (plain : ∀ ch ∈ first :: run, isPlain ch = true) (ends : ∀ ch ∈ rest.head?, isLiteral ch = false)
    (h : c.Faces indent (first :: run ++ rest)) : ∃ first' after later, c.take? = some (first', after) ∧
      next .inString first' after = (.leaf (.text (String.ofList (first :: run))), later) ∧
      later.Faces indent rest := by
  obtain ⟨own, others⟩ := List.forall_mem_cons.1 plain
  obtain ⟨literal, line⟩ := isLiteral_of_isPlain own
  have behind := Cursor.Faces.past h line
  obtain ⟨taken, later⟩ := behind.takeWhile (fun ch hc => isLiteral_of_isPlain (others ch hc)) ends
  refine ⟨first, _, _, h.take, ?_, later⟩
  simp only [isLiteral, Bool.and_eq_true, bne_iff_ne] at literal
  simp only [next, nextInString, literal, if_false, taken]

end Lexeme

def literals (segments : List (Position × String)) : List Tree :=
  segments.map fun segment => .leaf segment.1 (.text segment.2)

namespace Builder

variable {indent : Nat} {b : Builder} {c : Cursor}

def addAll (b : Builder) (nodes : List Tree) : Builder := { b with items := b.items ++ nodes }

theorem addAll_nil (b : Builder) : b.addAll [] = b := by simp [addAll]

theorem add_addAll (b : Builder) (node : Tree) (nodes : List Tree) :
    (b.add node).addAll nodes = b.addAll (node :: nodes) := by
  simp [addAll, add]

theorem run_escaped (chars tail : List Char) (inside : b.mode = .inString) (going : b.stopped = false)
    (h : c.Faces indent (escaped chars ++ '\"' :: tail)) :
    ∃ segments later, segments.map (·.2) = (pieces chars).map String.ofList ∧
      later.Faces indent ('\"' :: tail) ∧ b.run c = (b.addAll (literals segments)).run later := by
  fun_induction pieces chars generalizing b c with
  | case1 => exact ⟨[], c, rfl, h, by rw [literals, List.map_nil, addAll_nil]⟩
  | case2 first rest plain ih =>
    have run : ∀ ch ∈ first :: rest.takeWhile isPlain, isPlain ch = true :=
      List.forall_mem_cons.2 ⟨plain, List.all_eq_true.1 List.all_takeWhile⟩
    have parted : first :: rest = (first :: rest.takeWhile isPlain) ++ rest.dropWhile isPlain := by
      rw [List.cons_append, List.takeWhile_append_dropWhile]
    have stops : ∀ ch ∈ (rest.dropWhile isPlain).head?, isPlain ch = false := by
      intro ch hc
      have outside := List.head?_dropWhile_not isPlain rest
      rwa [Option.mem_def.1 hc] at outside
    rw [parted, escaped_append, escaped_plain run, List.append_assoc] at h
    obtain ⟨_, _, later, taken, lexed, hl⟩ := Lexeme.reads_plain run (escaped_stops stops tail) h
    rw [← inside] at lexed
    obtain ⟨segments, last, texts, hlast, onward⟩ := ih (b := b.add _) inside going hl
    refine ⟨⟨c.position, _⟩ :: segments, last, congrArg (_ :: ·) texts, hlast, ?_⟩
    rw [run_lexeme taken lexed rfl going]
    exact onward.trans (congrArg (·.run last) (add_addAll b _ _))
  | case3 first rest special ih =>
    rw [escaped, List.flatMap_cons, ← escaped, List.append_assoc] at h
    obtain ⟨_, _, later, taken, lexed, hl⟩ := Lexeme.reads_escape (by simpa using special) h
    rw [← inside] at lexed
    obtain ⟨segments, last, texts, hlast, onward⟩ := ih (b := b.add _) inside going hl
    refine ⟨⟨c.position, _⟩ :: segments, last, congrArg (_ :: ·) texts, hlast, ?_⟩
    rw [run_lexeme taken lexed rfl going]
    exact onward.trans (congrArg (·.run last) (add_addAll b _ _))

def quoting (b : Builder) (start : Position) (indent : Int) : Builder :=
  { b with items := #[], scopes := ⟨start, indent, .block .quote, b.items⟩ :: b.scopes, mode := .inString }

theorem run_opening {rest : List Char} (regular : b.mode = .regular) (going : b.stopped = false)
    (room : b.scopes.length < nestingLimit) (h : c.Faces indent ('\"' :: rest)) :
    ∃ after, after.Faces indent rest ∧ b.run c = (b.quoting c.position indent).run after := by
  have behind := h.past (by decide)
  have opened : b.place (.mark (.opener .quote)) c.position (c.past '\"' rest) =
      b.quoting c.position indent := by
    rw [place, openBlock, if_neg (Nat.not_le.2 room), behind.2]
    rfl
  have lexed : Lexeme.next b.mode '\"' (c.past '\"' rest) =
      (.mark (.opener .quote), c.past '\"' rest) := by
    rw [regular]
    rfl
  exact ⟨_, behind, run_lexeme h.take lexed opened going⟩

theorem close_quoting (regular : b.mode = .regular) (start at_ : Position) (indent : Int)
    (nodes : List Tree) : ((b.quoting start indent).addAll nodes).close .quote at_ indent =
      b.add (.group start (.block .string "\"" "\"") nodes) := by
  have own : OpenScope.closedBy ⟨start, indent, .block .quote, b.items⟩ .quote indent = true := by
    simp [OpenScope.closedBy]
  rw [close, unwind_stays _ _ _ rfl (by rw [own]; rfl)]
  simp [quoting, addAll, own, fold, enter, add, OpenScope.tree, Delimiter.blockTag, Delimiter.opening,
    Delimiter.closing, Delimiter.closingMode?, regular]

theorem run_closing {rest : List Char} (regular : b.mode = .regular) (going : b.stopped = false)
    (start : Position) (nodes : List Tree) (h : c.Faces indent ('\"' :: rest)) :
    ∃ after, after.Faces indent rest ∧ ((b.quoting start indent).addAll nodes).run c =
      (b.add (.group start (.block .string "\"" "\"") nodes)).run after := by
  have behind := h.past (by decide)
  have closed : ((b.quoting start indent).addAll nodes).place (.mark (.closer .quote)) c.position
      (c.past '\"' rest) = b.add (.group start (.block .string "\"" "\"") nodes) := by
    rw [place, behind.2]
    exact close_quoting regular _ _ _ _
  have lexed : Lexeme.next ((b.quoting start indent).addAll nodes).mode '\"' (c.past '\"' rest) =
      (.mark (.closer .quote), c.past '\"' rest) := rfl
  exact ⟨_, behind, run_lexeme h.take lexed closed going⟩

/-- A string that is written anywhere between lexemes, with room for one more scope, is read as one
node, and nothing else comes of it. -/
theorem run_written (s : String) (tail : List Char) (regular : b.mode = .regular)
    (going : b.stopped = false) (room : b.scopes.length < nestingLimit)
    (h : c.Faces indent (written s ++ tail)) :
    ∃ segments later, segments.map (·.2) = (pieces s.toList).map String.ofList ∧
      later.Faces indent tail ∧
      b.run c = (b.add (.group c.position (.block .string "\"" "\"") (literals segments))).run later := by
  have text : c.Faces indent ('\"' :: (escaped s.toList ++ '\"' :: tail)) := by
    simpa [written] using h
  obtain ⟨inside, hi, opening⟩ := run_opening regular going room text
  obtain ⟨segments, last, texts, hl, middle⟩ :=
    run_escaped (b := b.quoting c.position indent) s.toList tail rfl going hi
  obtain ⟨later, behind, closing⟩ := run_closing regular going c.position (literals segments) hl
  exact ⟨segments, later, texts, behind, opening.trans (middle.trans closing)⟩

end Builder

/-- Every string reads back from how it is written between quotes. Nothing is told, and the text is one
string between quotes that holds nothing but literal text, the pieces of which make up the string. -/
theorem tokenize_written (label : String) (s : String) :
    ∃ segments : List (Position × String),
      tokenize label (written s) =
        ⟨[.group (.start label) (.block .string "\"" "\"")
          (segments.map fun segment => .leaf segment.1 (.text segment.2))], []⟩ ∧
      String.join (segments.map (·.2)) = s := by
  have text : (Cursor.start label (written s)).Faces 0 (written s ++ []) :=
    ⟨(List.append_nil _).symm, rfl⟩
  obtain ⟨segments, last, texts, ends, run⟩ :=
    Builder.empty.run_written s [] rfl rfl (by decide) text
  refine ⟨segments, ?_, ?_⟩
  · rw [tokenize, run, Builder.run_end _ (Cursor.take?_of_nil ends.1)]
    rfl
  · have inside : String.toList ∘ String.ofList = id := funext fun _ => String.toList_ofList
    rw [texts, ← String.toList_inj, String.toList_join, List.flatMap_def, List.map_map, inside,
      List.map_id, flatten_pieces]

end NamespaceLang

import NamespaceLang.Proofs.Tree.Reference

/-!
# Reading on inside a body

A body that is read in part is what the recursion of the reference parser has
on its call stack: the pieces so far, and for each bracket around them what
stood before it. What is left to do with the rest of the tokens changes with
each token by one step.
-/

set_option autoImplicit false

namespace NamespaceLang

def read (closing? : Option (Delimiter × Int)) (fresh : Bool) (tokens : List Token) :
    Option (List Piece × List Token) :=
  (readBody closing? fresh tokens).map fun body => (body.1, body.2)

/-- A bracket that is open, with the pieces before it in the body around it. -/
structure Around where
  before : List Piece
  delimiter : Delimiter
  start : Position
  indent : Int

def Around.block (a : Around) (body : List Piece) : Piece :=
  .item (.group a.start (.block a.delimiter.blockTag a.delimiter.opening a.delimiter.closing)
    (group joinTiers body))

section

variable {closing? : Option (Delimiter × Int)} {fresh : Bool} {t : Token} {rest : List Token}

theorem read_end : read none fresh [] = some ([], []) := by
  rw [read, readBody]
  rfl

theorem read_piece {p : Piece} (h : t.piece? fresh = some p) :
    read closing? fresh (t :: rest) =
      (read closing? (p.fresh fresh) rest).map fun body => (p :: body.1, body.2) := by
  rw [read, readBody, h, read]
  cases hr : readBody closing? (p.fresh fresh) rest <;> simp [hr]

theorem read_open {d : Delimiter} (h : t.lexeme = .mark (.opener d)) (before : List Piece) :
    read closing? fresh (t :: rest) =
      (read (some (d, (t.after.indent : Int))) true rest).bind fun body =>
        (read closing? false body.2).map fun later =>
          ((⟨before, d, t.start, t.after.indent⟩ : Around).block body.1 :: later.1, later.2) := by
  have none_ : t.piece? fresh = none := by rw [Token.piece?, h]
  rw [read, readBody, none_, h, read]
  cases hb : readBody (some (d, (t.after.indent : Int))) true rest with
  | none => simp [hb]
  | some body =>
    obtain ⟨body, after⟩ := body
    simp only [hb, Option.map_some, Option.bind_some, read]
    cases readBody closing? false after.val <;> simp [Around.block]

theorem read_close {d : Delimiter} (h : t.lexeme = .mark (.closer d)) :
    read (some (d, (t.after.indent : Int))) fresh (t :: rest) = some ([], rest) := by
  have none_ : t.piece? fresh = none := by rw [Token.piece?, h]
  rw [read, readBody, none_, h]
  simp

end

/-- Whether nothing but blanks stands after the last operator. -/
def freshAfter (pieces : List Piece) : Bool := pieces.foldl Piece.fresh true

theorem freshAfter_snoc (pieces : List Piece) (p : Piece) :
    freshAfter (pieces ++ [p]) = p.fresh (freshAfter pieces) := by
  simp [freshAfter]

def closingOf : List Around → Option (Delimiter × Int)
  | [] => none
  | a :: _ => some (a.delimiter, a.indent)

/-- Reads on in the innermost body, and then in those around it. -/
def resume : List Around → List Piece → List Token → Option (List Tree)
  | [], pieces, tokens =>
    (read none (freshAfter pieces) tokens).map fun body => group joinTiers (pieces ++ body.1)
  | a :: outer, pieces, tokens =>
    (read (some (a.delimiter, a.indent)) (freshAfter pieces) tokens).bind fun body =>
      resume outer (a.before ++ [a.block (pieces ++ body.1)]) body.2

def deliver : List Around → List Piece → List Token → Option (List Tree)
  | [], pieces, _ => some (group joinTiers pieces)
  | a :: outer, pieces, rest => resume outer (a.before ++ [a.block pieces]) rest

theorem resume_eq (around : List Around) (pieces : List Piece) (tokens : List Token) :
    resume around pieces tokens =
      (read (closingOf around) (freshAfter pieces) tokens).bind fun body =>
        deliver around (pieces ++ body.1) body.2 := by
  cases around with
  | nil =>
    rw [resume, closingOf]
    cases read none (freshAfter pieces) tokens <;> rfl
  | cons a outer => rfl

section

variable {around : List Around} {pieces : List Piece} {t : Token} {rest : List Token}

theorem resume_end : resume [] pieces [] = some (group joinTiers pieces) := by
  rw [resume, read_end, Option.map_some, List.append_nil]

theorem resume_piece {p : Piece} (h : t.piece? (freshAfter pieces) = some p) :
    resume around pieces (t :: rest) = resume around (pieces ++ [p]) rest := by
  rw [resume_eq, resume_eq, read_piece h, freshAfter_snoc]
  cases read (closingOf around) (p.fresh (freshAfter pieces)) rest with
  | none => rfl
  | some body => simp

theorem resume_open {d : Delimiter} (h : t.lexeme = .mark (.opener d)) :
    resume around pieces (t :: rest) =
      resume (⟨pieces, d, t.start, t.after.indent⟩ :: around) [] rest := by
  rw [resume_eq, read_open h pieces, resume, freshAfter, List.foldl_nil]
  cases read (some (d, (t.after.indent : Int))) true rest with
  | none => rfl
  | some body =>
    have worn : freshAfter (pieces ++ [(⟨pieces, d, t.start, t.after.indent⟩ : Around).block body.1]) =
        false := by
      rw [freshAfter_snoc]
      exact Bool.and_false _
    simp only [Option.bind_some, List.nil_append]
    rw [resume_eq, worn]
    cases read (closingOf around) false body.2 with
    | none => rfl
    | some later => simp

theorem resume_close {a : Around} {outer : List Around} {d : Delimiter}
    (h : t.lexeme = .mark (.closer d)) (hd : a.delimiter = d) (hi : a.indent = t.after.indent) :
    resume (a :: outer) pieces (t :: rest) = resume outer (a.before ++ [a.block pieces]) rest := by
  rw [resume, hd, hi, read_close h]
  simp

end

theorem reference_eq_resume (file : String) (text : List Char) :
    reference? file text = resume [] [] (tokens file text) := by
  rw [reference?, resume, read, Option.map_map]
  rfl

end NamespaceLang

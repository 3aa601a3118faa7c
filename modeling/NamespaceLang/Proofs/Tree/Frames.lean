import NamespaceLang.Proofs.Tree.Nesting

/-!
# A stack of frames

The scopes of a builder as frames on a stack, with the file itself at the bottom.
A frame has its own items; it says what closes it, or that it closes itself. Such
a machine has to check what goes without saying for a builder: that there is an
innermost frame, that the file is not closed, that a frame stands for a node, that
an operator comes into a chain. Each check has a diagnostic, which ends the
reading. None of them is ever told: the frames of a builder take each turn that
the builder takes, and so the machine finds the same tree with the same
diagnostics in every text.
-/

set_option autoImplicit false

namespace NamespaceLang

inductive FrameKind where
  | root
  | block (opening : String) (tag : BlockTag)
  | chain (tag : ChainTag) (done : Array Tree) (operandStart firstOperator : Position)
  deriving Repr

structure Frame where
  pos : Position
  closing? : Option String
  indent : Int
  tier : Nat
  /-- Whether the frame may be closed by something else without a complaint. -/
  autoClose : Bool
  items : Array Tree
  kind : FrameKind
  deriving Repr

namespace Frame

def root (pos : Position) : Frame := ⟨pos, none, -1, 0, false, #[], .root⟩

def block (pos : Position) (d : Delimiter) (indent : Int) : Frame :=
  ⟨pos, some d.closingSpelling, indent, d.tier, false, #[], .block d.opening d.blockTag⟩

def chain (j : Joiner) (indent : Int) (first : Array Tree) (pos : Position) : Frame :=
  ⟨pos, none, indent, j.tier, true, first, .chain j.tag #[] pos pos⟩

def isRoot (f : Frame) : Bool :=
  match f.kind with
  | .root => true
  | _ => false

def chain? (f : Frame) : Option (ChainTag × Position) :=
  match f.kind with
  | .chain tag _ _ firstOperator => some (tag, firstOperator)
  | _ => none

def fill (f : Frame) (items : Array Tree) : Frame := { f with items }

def add (f : Frame) (node : Tree) : Frame := f.fill (f.items.push node)

def extend? (f : Frame) (j : Joiner) (start next : Position) : Option Frame :=
  match f.kind with
  | .chain tag done operandStart firstOperator =>
    let done := (done.push (segment f.items.toList operandStart)).push
      (.leaf start (.operator j.spelling))
    some { f with items := #[], kind := .chain tag done next firstOperator }
  | _ => none

def shownClosing (f : Frame) : String := (f.closing?.map Punctuator.shown).getD ""

def node? (f : Frame) : Option Tree :=
  match f.kind with
  | .root => none
  | .block opening tag =>
    some (.group f.pos (.block tag opening f.shownClosing) f.items.toList)
  | .chain tag done operandStart _ =>
    let parts := (done.push (segment f.items.toList operandStart)).toList
    some (.group ((parts.head?.map Tree.pos).getD f.pos) (.chain tag f.tier) parts)

def closedBy (f : Frame) (closer : Punctuator) (indent : Int) : Bool :=
  f.closing? == some closer.spelling && f.indent == indent

def holds (f : Frame) (indent : Int) (tier : Nat) : Bool := f.indent < indent || f.tier < tier

def isSoft (f : Frame) (next? : Option Char) : Bool :=
  { Builder.empty with items := f.items }.isSoft next?

end Frame

structure FrameMachine where
  stack : List Frame
  mode : Mode
  diagnostics : List Diagnostic
  deriving Repr

inductive Turn where
  | on (m : FrameMachine)
  | halt (m : FrameMachine) (d : Diagnostic)

def Turn.andThen (t : Turn) (next : FrameMachine → Turn) : Turn :=
  match t with
  | .on m => next m
  | .halt m d => .halt m d

@[simp] theorem Turn.andThen_on (m : FrameMachine) (next : FrameMachine → Turn) :
    (Turn.on m).andThen next = next m := rfl

namespace FrameMachine

def start (file : String) : FrameMachine := ⟨[.root ⟨file, 0, 1, 1⟩], .regular, []⟩

def report (m : FrameMachine) (d : Diagnostic) : FrameMachine :=
  { m with diagnostics := m.diagnostics ++ [d] }

def enter (m : FrameMachine) (mode? : Option Mode) : FrameMachine :=
  { m with mode := mode?.getD m.mode }

def atTop (m : FrameMachine) (here : Position) (go : Frame → List Frame → Turn) : Turn :=
  match m.stack with
  | [] => .halt m (.unreachable here (.said "tokenizer stack is empty"))
  | f :: outer => go f outer

def add (m : FrameMachine) (here : Position) (node : Tree) : Turn :=
  m.atTop here fun f outer => .on { m with stack := f.add node :: outer }

def pop (m : FrameMachine) (here : Position) : Turn :=
  match m.stack with
  | f :: below :: outer =>
    match f.node? with
    | some node => { m with stack := below :: outer }.add here node
    | none =>
      .halt { m with stack := below :: outer }
        (.unreachable here (.said "popped a frame that produces no node"))
  | _ => .halt m (.unreachable here (.said "attempted to close the root scope"))

theorem pop_shorter {m later : FrameMachine} {here : Position} (h : m.pop here = .on later) :
    later.stack.length < m.stack.length := by
  unfold pop at h
  split at h
  · next hs =>
    split at h
    · cases h
      simp [hs]
    · cases h
  · cases h

/-- Pops frames until `stays` holds of the innermost one and those around it. A frame that does
not close itself is complained about. -/
def popUntil (stays : Frame → List Frame → Bool) (complaint : Frame → Diagnostic)
    (here : Position) (m : FrameMachine) : Turn :=
  match m.stack with
  | [] => .halt m (.unreachable here (.said "tokenizer stack is empty"))
  | f :: outer =>
    if stays f outer then .on m
    else
      match _h : (if f.autoClose then m else m.report (complaint f)).pop here with
      | .halt last d => .halt last d
      | .on later => later.popUntil stays complaint here
termination_by m.stack.length
decreasing_by
  refine Nat.lt_of_lt_of_eq (pop_shorter _h) ?_
  split <;> rfl

def openBlock (m : FrameMachine) (d : Delimiter) (start : Position) (indent : Int) : Turn :=
  if nestingLimit < m.stack.length then .halt m (.error start .nestingTooDeep)
  else .on ({ m with stack := .block start d indent :: m.stack }.enter d.openingMode?)

def wrapOperand (m : FrameMachine) (closer : Punctuator) (tag : BlockTag)
    (start here : Position) : Turn :=
  m.atTop here fun f outer =>
    let wrapped := Tree.trimStart f.items.toList
    let pos := (wrapped.head?.map Tree.pos).getD start
    let block := .group pos (.block tag "" (Punctuator.shown closer.spelling)) wrapped
    let blanks := f.items.toList.takeWhile Tree.isBlank
    .on { m with stack := f.fill (blanks.toArray.push block) :: outer }

def unclosed (closer : Punctuator) (start : Position) (indent : Int) (f : Frame) : Diagnostic :=
  (Diagnostic.error f.pos .unclosedBracket).withNote start
    (.expectedCloser f.shownClosing f.indent (Punctuator.shown closer.spelling) indent)

/-- Pops up to the frame that is closed. A closer that closes none is one too many, unless it
makes a block of the operand before it. -/
def close (m : FrameMachine) (closer : Punctuator) (wraps? : Option BlockTag)
    (start here : Position) (indent : Int) : Turn :=
  (m.popUntil (fun f _ => f.closedBy closer indent || f.holds indent closer.tier)
    (unclosed closer start indent) here).andThen fun m =>
      m.atTop here fun f _ =>
        if f.closedBy closer indent then
          (m.pop here).andThen fun m => .on (m.enter closer.mode?)
        else
          match wraps? with
          | some tag => m.wrapOperand closer tag start here
          | none => .on (m.report (.error start .extraCloser))

def popTighter (m : FrameMachine) (j : Joiner) (start here : Position) : Turn :=
  m.popUntil (fun f _ => f.tier ≤ j.tier)
    (fun f => (Diagnostic.error f.pos .neverClosed).withNote start .closedHere) here

def pushOperator (m : FrameMachine) (j : Joiner) (start here : Position) : Turn :=
  m.atTop here fun f outer =>
    match f.extend? j start here with
    | some f => .on { m with stack := f :: outer }
    | none => .halt m (.unreachable start (.said "operator landed outside a chain"))

/-- Makes sure that the innermost frame is a chain that the joiner belongs to. -/
def reachChain (m : FrameMachine) (j : Joiner) (start here : Position) : Turn :=
  m.atTop here fun f outer =>
    if f.tier = j.tier then
      match f.chain? with
      | none => .halt m (.unreachable start .sharedTier)
      | some (tag, firstOperator) =>
        .on (if tag = j.tag then m
          else m.report ((Diagnostic.error start .mixedOperators).withNote firstOperator
            .previousOperator))
    else
      .on { m with stack := .chain j f.indent f.items start :: f.fill #[] :: outer }

def join (m : FrameMachine) (j : Joiner) (start here : Position) : Turn :=
  ((m.popTighter j start here).andThen (·.reachChain j start here)).andThen
    (·.pushOperator j start here)

def place (m : FrameMachine) (l : Lexeme) (start : Position) (after : Cursor) : Turn :=
  match l with
  | .leaf content => m.add after.position (.leaf start content)
  | .badEscape found =>
    (m.report (.error start (.badEscape found))).add after.position (.leaf start .error)
  | .badToken spelling =>
    (m.report (.error start (.badToken spelling))).add after.position (.leaf start .error)
  | .lineBreak =>
    m.atTop after.position fun f _ =>
      if f.isSoft after.peek? then m.add after.position (.leaf start (.whitespace true))
      else m.join .lineBreak start after.position
  | .mark (.opener d) => m.openBlock d start after.indent
  | .mark (.closer d) => m.close (.closer d) none start after.position after.indent
  | .mark (.wrapper w) =>
    m.close (.wrapper w) (some w.blockTag) start after.position after.indent
  | .mark (.joiner j) => m.join j start after.position

def finish (m : FrameMachine) (here : Position) : Turn :=
  if m.stack.length ≤ 1 then .on m
  else
    m.popUntil (fun _ outer => outer.isEmpty)
      (fun f => (Diagnostic.error f.pos .unclosedBracket).withNote here .endOfInput) here

def run (m : FrameMachine) (c : Cursor) : FrameMachine × Cursor :=
  match _h : c.take? with
  | none => (m, c)
  | some (first, after) =>
    let lexed := Lexeme.next m.mode first after
    match m.place lexed.1 c.position lexed.2 with
    | .halt last d => (last.report d, lexed.2)
    | .on later => later.run lexed.2
termination_by c.rest.length
decreasing_by
  exact Nat.lt_of_le_of_lt (Lexeme.next_shorter m.mode first after) (c.take?_shorter after first _h)

def tokenize (file : String) (text : List Char) : Tokenized :=
  let (m, c) := (start file).run (.start file text)
  let m :=
    match m.finish c.position with
    | .on m => m
    | .halt m d => m.report d
  ⟨(m.stack.getLast?.map (·.items.toList)).getD [], m.diagnostics⟩

end FrameMachine

def OpenScope.frame (s : OpenScope) (items : Array Tree) : Frame :=
  match s.kind with
  | .block d => (Frame.block s.pos d s.indent).fill items
  | .chain c =>
    ⟨s.pos, none, s.indent, c.tier, true, items,
      .chain c.tag c.done c.operandStart c.firstOperator⟩

namespace Frame

def innermost (file : String) (items : Array Tree) : List OpenScope → Frame
  | [] => (Frame.root ⟨file, 0, 1, 1⟩).fill items
  | s :: _ => s.frame items

def around (file : String) : List OpenScope → List Frame
  | [] => []
  | s :: outer => innermost file s.before outer :: around file outer

variable {file : String} {items : Array Tree} {s : OpenScope} {scopes : List OpenScope}

@[simp] theorem frame_pos : (s.frame items).pos = s.pos := by
  rcases s with ⟨_, _, _ | _, _⟩ <;> rfl

@[simp] theorem frame_indent : (s.frame items).indent = s.indent := by
  rcases s with ⟨_, _, _ | _, _⟩ <;> rfl

@[simp] theorem frame_tier : (s.frame items).tier = s.tier := by
  rcases s with ⟨_, _, _ | _, _⟩ <;> rfl

@[simp] theorem frame_autoClose : (s.frame items).autoClose = !s.isBlock := by
  rcases s with ⟨_, _, _ | _, _⟩ <;> rfl

@[simp] theorem frame_items : (s.frame items).items = items := by
  rcases s with ⟨_, _, _ | _, _⟩ <;> rfl

theorem frame_fill (later : Array Tree) :
    (s.frame items).fill later = s.frame later := by
  rcases s with ⟨_, _, _ | _, _⟩ <;> rfl

@[simp] theorem frame_isRoot : (s.frame items).isRoot = false := by
  rcases s with ⟨_, _, _ | _, _⟩ <;> rfl

theorem shown_closingSpelling (d : Delimiter) :
    Punctuator.shown (Punctuator.closer d).spelling = d.closing := by
  cases d <;> decide +kernel

theorem shown_wrapper (w : Wrapper) : Punctuator.shown (Punctuator.wrapper w).spelling = w.spelling := by
  cases w <;> decide +kernel

@[simp] theorem frame_shownClosing : (s.frame items).shownClosing = s.closing := by
  rcases s with ⟨_, _, d | _, _⟩
  · exact shown_closingSpelling d
  · rfl

@[simp] theorem frame_node? : (s.frame items).node? = some (s.tree items.toList) := by
  have shown : (s.frame items).shownClosing = s.closing := frame_shownClosing
  rcases s with ⟨pos, indent, d | c, before⟩
  · exact congrArg (fun closing => some (Tree.group pos (.block d.blockTag d.opening closing) items.toList))
      shown
  · rfl

theorem closingSpelling_inj (own d : Delimiter) :
    (own.closingSpelling == d.closingSpelling) = (own == d) := by
  cases own <;> cases d <;> decide

@[simp] theorem frame_closedBy (d : Delimiter) (indent : Int) :
    (s.frame items).closedBy (.closer d) indent = s.closedBy d indent := by
  rcases s with ⟨pos, own, kind | _, _⟩
  · exact congrArg (· && own == indent) (closingSpelling_inj kind d)
  · rfl

@[simp] theorem frame_not_closedBy (w : Wrapper) (indent : Int) :
    (s.frame items).closedBy (.wrapper w) indent = false := by
  rcases s with ⟨pos, own, kind | _, _⟩
  · have apart : (kind.closingSpelling == w.spelling) = false := by
      cases kind <;> cases w <;> decide
    exact congrArg (· && own == indent) apart
  · rfl

@[simp] theorem frame_holds (indent : Int) (tier : Nat) :
    (s.frame items).holds indent tier = s.holds indent tier := by
  simp [holds, OpenScope.holds]

@[simp] theorem innermost_items : (innermost file items scopes).items = items := by
  cases scopes with
  | nil => rfl
  | cons s outer => exact frame_items

theorem innermost_fill (later : Array Tree) :
    (innermost file items scopes).fill later = innermost file later scopes := by
  cases scopes with
  | nil => rfl
  | cons s outer => exact frame_fill later

theorem innermost_push (node : Tree) :
    innermost file (items.push node) scopes = (innermost file items scopes).add node := by
  rw [add, innermost_items, innermost_fill]

@[simp] theorem innermost_tier :
    (innermost file items scopes).tier = OpenScope.topTier scopes := by
  cases scopes with
  | nil => rfl
  | cons s outer => exact frame_tier

@[simp] theorem innermost_indent :
    (innermost file items scopes).indent = OpenScope.topIndent scopes := by
  cases scopes with
  | nil => rfl
  | cons s outer => exact frame_indent

theorem around_length : (around file scopes).length = scopes.length := by
  induction scopes with
  | nil => rfl
  | cons s outer ih => simp [around, ih]

end Frame

open NamespaceLang.Frame

def Builder.frames (file : String) (b : Builder) : FrameMachine :=
  ⟨innermost file b.items b.scopes :: around file b.scopes, b.mode, b.diagnostics⟩

namespace FrameMachine

variable {file : String} {b : Builder} {here start : Position}

theorem frames_atTop (go : Frame → List Frame → Turn) :
    (b.frames file).atTop here go = go (innermost file b.items b.scopes) (around file b.scopes) := rfl

theorem frames_add (node : Tree) : (b.frames file).add here node = .on ((b.add node).frames file) := by
  rw [add, frames_atTop, ← innermost_push]
  rfl

theorem frames_pop {s : OpenScope} {outer : List OpenScope} (h : b.scopes = s :: outer) :
    (b.frames file).pop here = .on ((b.fold s outer).frames file) := by
  have stack : (b.frames file).stack =
      s.frame b.items :: innermost file s.before outer :: around file outer := by
    rw [Builder.frames, h]
    rfl
  unfold pop
  rw [stack]
  dsimp only
  rw [frame_node?]
  exact frames_add (b := { b with items := s.before, scopes := outer }) _

theorem frames_popUntil {stays : OpenScope → Bool} {complaint : OpenScope → Diagnostic}
    {framesStay : Frame → List Frame → Bool} {told : Frame → Diagnostic}
    (root : ∀ items, framesStay ((Frame.root ⟨file, 0, 1, 1⟩).fill items) [] = true)
    (same : ∀ s items f outer, framesStay (s.frame items) (f :: outer) = stays s)
    (alike : ∀ s items, s.isBlock = true → told (s.frame items) = complaint s) :
    (b.frames file).popUntil framesStay told here =
      .on ((b.unwind stays complaint).frames file) := by
  generalize hn : b.scopes = scopes
  induction scopes generalizing b with
  | nil =>
    rw [Builder.unwind_nil b hn, popUntil, Builder.frames, hn]
    exact if_pos (root b.items)
  | cons s outer ih =>
    have stack : (b.frames file).stack = s.frame b.items :: innermost file s.before outer ::
        around file outer := by
      rw [Builder.frames, hn]
      rfl
    rw [popUntil, stack]
    dsimp only
    rw [same]
    cases hs : stays s with
    | true =>
      rw [Builder.unwind_stays b s outer hn hs]
      rfl
    | false =>
      have popped : (if (s.frame b.items).autoClose then b.frames file
          else (b.frames file).report (told (s.frame b.items))).pop here =
            .on ((b.foldOnce complaint s outer).frames file) := by
        rw [frame_autoClose, Builder.foldOnce]
        cases hk : s.isBlock with
        | true =>
          rw [alike s _ hk]
          exact frames_pop (b := b.report (complaint s)) hn
        | false => exact frames_pop hn
      rw [Builder.unwind_folds _ _ b s outer hn hs, ← ih (b := b.foldOnce complaint s outer) rfl]
      simp only [Bool.false_eq_true, if_false]
      split
      · next halted => rw [popped] at halted; cases halted
      · next later went => rw [popped] at went; cases went; rfl

theorem frames_openBlock (d : Delimiter) (indent : Int) :
    (b.frames file).openBlock d start indent =
      if nestingLimit ≤ b.scopes.length then
        .halt (b.frames file) (.error start .nestingTooDeep)
      else .on ((b.openBlock d start indent).frames file) := by
  have depth : (b.frames file).stack.length = b.scopes.length + 1 :=
    congrArg (· + 1) around_length
  unfold openBlock Builder.openBlock
  rw [depth]
  by_cases deep : nestingLimit ≤ b.scopes.length
  · rw [if_pos (Nat.lt_succ_of_le deep), if_pos deep]
  · rw [if_neg (by omega), if_neg deep, if_neg deep]
    rfl

theorem root_holds (items : Array Tree) (indent tier : Nat) :
    ((Frame.root ⟨file, 0, 1, 1⟩).fill items).holds indent tier = true := by
  have below : (-1 : Int) < indent := by omega
  simp [holds, fill, Frame.root, below]

theorem frames_close (d : Delimiter) (indent : Nat) :
    (b.frames file).close (.closer d) none start here indent =
      .on ((b.close d start indent).frames file) := by
  have popped : (b.frames file).popUntil
      (fun f _ => f.closedBy (.closer d) indent || f.holds indent (Punctuator.closer d).tier)
      (unclosed (.closer d) start indent) here =
        .on ((b.foldToCloser d start indent).frames file) := by
    refine frames_popUntil (fun items => ?_) (fun s items _ _ => ?_) (fun s items _ => ?_)
    · rw [root_holds, Bool.or_true]
    · simp [Punctuator.tier, Punctuator.group, Delimiter.tier]
    · simp [unclosed, Builder.unclosedAt, shown_closingSpelling]
  unfold close
  rw [popped, Turn.andThen_on, frames_atTop]
  apply Builder.close_rule (P := fun later => _ = Turn.on (later.frames file))
  · intro s outer hs closed
    rw [hs, innermost, frame_closedBy, if_pos closed, frames_pop hs]
    rfl
  · intro stays
    have open_still : (innermost file (b.foldToCloser d start indent).items
        (b.foldToCloser d start indent).scopes).closedBy (.closer d) indent = false := by
      cases hs : (b.foldToCloser d start indent).scopes with
      | nil => rfl
      | cons s outer => exact (frame_closedBy d indent).trans (stays s (by rw [hs]; rfl))
    rw [open_still]
    rfl

theorem frames_wrap (w : Wrapper) (indent : Nat) :
    (b.frames file).close (.wrapper w) (some w.blockTag) start here indent =
      .on ((b.wrap w start indent).frames file) := by
  have popped : (b.frames file).popUntil
      (fun f _ => f.closedBy (.wrapper w) indent || f.holds indent (Punctuator.wrapper w).tier)
      (unclosed (.wrapper w) start indent) here =
        .on ((b.unwind (·.holds indent w.tier)
          (Builder.unclosedAt start w.spelling indent)).frames file) := by
    refine frames_popUntil (fun items => ?_) (fun s items _ _ => ?_) (fun s items _ => ?_)
    · rw [root_holds, Bool.or_true]
    · simp [Punctuator.tier, Punctuator.group, Wrapper.tier]
    · simp [unclosed, Builder.unclosedAt, shown_wrapper]
  unfold close
  rw [popped]
  generalize hu : b.unwind (·.holds indent w.tier) (Builder.unclosedAt start w.spelling indent) = u
  have open_still : (innermost file u.items u.scopes).closedBy (.wrapper w) indent = false := by
    cases hs : u.scopes with
    | nil => rfl
    | cons s outer => exact frame_not_closedBy w indent
  rw [Turn.andThen_on, frames_atTop, open_still]
  show wrapOperand (u.frames file) (.wrapper w) w.blockTag start here = _
  rw [wrapOperand, frames_atTop]
  simp only [innermost_items, innermost_fill, shown_wrapper]
  rw [Builder.wrap, hu]
  rfl

theorem frames_popTighter (j : Joiner) :
    (b.frames file).popTighter j start here = .on ((b.foldTighter j start).frames file) := by
  refine frames_popUntil (fun items => ?_) (fun s items _ _ => ?_) (fun s items _ => ?_)
  · exact decide_eq_true (Nat.zero_le _)
  · rw [frame_tier]
  · rw [frame_pos]

theorem frames_join (j : Joiner) :
    (b.frames file).join j start here = .on ((b.join j start here).frames file) := by
  unfold join
  rw [frames_popTighter, Turn.andThen_on]
  generalize hu : b.foldTighter j start = u
  apply Builder.join_rule (P := fun later => Turn.andThen _ _ = .on (later.frames file)) <;>
    rw [hu]
  · intro looser
    have other : (innermost file u.items u.scopes).tier ≠ j.tier := by
      rw [innermost_tier]
      exact Nat.ne_of_lt looser
    rw [reachChain, frames_atTop, if_neg other, innermost_items, innermost_indent,
      innermost_fill]
    rfl
  · intro s c outer hs hk same
    have own : (innermost file u.items u.scopes).tier = j.tier := by
      rw [innermost_tier, hs, ← same]
      exact congrArg (fun kind => OpenScope.tier ⟨s.pos, s.indent, kind, s.before⟩) hk
    rw [reachChain, frames_atTop, if_pos own]
    rcases s with ⟨pos, indent, kind, before⟩
    cases hk
    rw [hs]
    show Turn.andThen (.on (if c.tag = j.tag then u.frames file else _)) _ = _
    rw [Turn.andThen_on, apply_ite (fun m : FrameMachine => m.pushOperator j start here)]
    unfold Builder.extendChain
    split <;>
    · unfold pushOperator atTop
      simp only [Builder.frames, hs, report]
      rfl

/-- The turn that a builder takes, or its stop at the limit of nesting. -/
def Follows (file : String) (b later : Builder) (start : Position) (t : Turn) : Prop :=
  (t = .on (later.frames file) ∧ later.stopped = false) ∨
    (t = .halt (b.frames file) (.error start .nestingTooDeep) ∧
      later = b.stop (.error start .nestingTooDeep))

theorem close_going (d : Delimiter) (indent : Int) (going : b.stopped = false) :
    (b.close d start indent).stopped = false := by
  apply Builder.close_rule (P := fun later => later.stopped = false)
  · exact fun _ _ _ _ => (Builder.unwind_stopped b).trans going
  · exact fun _ => (Builder.unwind_stopped b).trans going

theorem join_going (j : Joiner) (going : b.stopped = false) :
    (b.join j start here).stopped = false := by
  have folded : (b.foldTighter j start).stopped = false := (Builder.unwind_stopped b).trans going
  apply Builder.join_rule (P := fun later => later.stopped = false)
  · exact fun _ => folded
  · intro s c outer _ _ _
    unfold Builder.extendChain
    split <;> exact folded

theorem frames_place (file : String) (l : Lexeme) (start : Position) (after : Cursor)
    (going : b.stopped = false) :
    Follows file b (b.place l start after) start ((b.frames file).place l start after) := by
  rcases l with content | _ | p | found | spelling
  · exact .inl ⟨frames_add _, going⟩
  · have soft : (innermost file b.items b.scopes).isSoft after.peek? = b.isSoft after.peek? := by
      rw [isSoft, innermost_items]
      rfl
    unfold place Builder.place
    dsimp only
    rw [frames_atTop, soft]
    split
    · exact .inl ⟨frames_add _, going⟩
    · exact .inl ⟨frames_join _, join_going _ going⟩
  · rcases p with d | d | w | j
    · unfold place Builder.place
      dsimp only
      rw [frames_openBlock]
      unfold Builder.openBlock
      split
      · exact .inr ⟨rfl, rfl⟩
      · exact .inl ⟨rfl, going⟩
    · exact .inl ⟨frames_close d _, close_going d _ going⟩
    · exact .inl ⟨frames_wrap w _, (Builder.unwind_stopped b).trans going⟩
    · exact .inl ⟨frames_join j, join_going j going⟩
  · exact .inl ⟨frames_add (b := b.report _) _, going⟩
  · exact .inl ⟨frames_add (b := b.report _) _, going⟩

theorem run_end (m : FrameMachine) {c : Cursor} (h : c.take? = none) : m.run c = (m, c) := by
  rw [run.eq_def]
  split
  · rfl
  · next hs =>
    rw [h] at hs
    cases hs

theorem run_next (m : FrameMachine) {c after : Cursor} {first : Char}
    (h : c.take? = some (first, after)) {l : Lexeme} {behind : Cursor}
    (lexed : Lexeme.next m.mode first after = (l, behind)) :
    (∀ later, m.place l c.position behind = .on later → m.run c = later.run behind) ∧
      ∀ last d, m.place l c.position behind = .halt last d → m.run c = (last.report d, behind) := by
  rw [run.eq_def]
  split
  · next hn =>
    rw [h] at hn
    cases hn
  · next first' after' hs =>
    rw [h] at hs
    cases hs
    rw [lexed]
    dsimp only
    constructor
    · intro later turn
      rw [turn]
    · intro last d turn
      rw [turn]

theorem frames_run (file : String) (b : Builder) (c : Cursor) (going : b.stopped = false) :
    (b.frames file).run c = ((b.run c).1.frames file, (b.run c).2) := by
  fun_induction Builder.run b c with
  | case1 b c ht => exact run_end _ ht
  | case2 b c first after ht lexed placed hs =>
    obtain ⟨-, goes⟩ | ⟨turn, stops⟩ :=
      frames_place file lexed.1 c.position lexed.2 going
    · rw [show placed.stopped = false from goes] at hs
      cases hs
    · refine ((run_next (b.frames file) ht rfl).2 _ _ turn).trans ?_
      rw [show placed = _ from stops]
      rfl
  | case3 b c first after ht lexed placed hs ih =>
    obtain ⟨turn, goes⟩ | ⟨-, stops⟩ :=
      frames_place file lexed.1 c.position lexed.2 going
    · exact ((run_next (b.frames file) ht rfl).1 _ turn).trans (ih goes)
    · rw [show placed = _ from stops] at hs
      exact absurd rfl hs

theorem frames_finish (stop : Position) :
    (b.frames file).finish stop = .on ((b.finish stop).frames file) := by
  have depth : (b.frames file).stack.length = b.scopes.length + 1 :=
    congrArg (· + 1) around_length
  unfold finish
  rw [depth]
  split
  · next shallow =>
    have none_open : b.scopes = [] := List.length_eq_zero_iff.1 (by omega)
    rw [Builder.finish_eq, Builder.unwind_nil b none_open]
  · refine frames_popUntil (fun items => rfl) (fun s items _ _ => rfl) (fun s items _ => ?_)
    rw [frame_pos]

/-- The machine finds the tree and the diagnostics that the builder finds. -/
theorem tokenize_eq (file : String) (text : List Char) :
    tokenize file text = NamespaceLang.tokenize file text := by
  have ran : (start file).run (.start file text) = _ :=
    frames_run file Builder.empty (.start file text) rfl
  unfold tokenize NamespaceLang.tokenize
  rw [ran]
  dsimp only
  rw [frames_finish]
  simp only [Builder.frames, Builder.finish_scopes, around, List.getLast?_singleton,
    Option.map_some, Option.getD_some, innermost_items]

end FrameMachine

end NamespaceLang

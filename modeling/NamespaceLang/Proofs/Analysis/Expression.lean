import NamespaceLang.Analysis.Basic
import NamespaceLang.Proofs.Analysis.Lookup

/-!
# Expressions and namespaces break no invariant

The functions that read expressions and bodies call one another on lighter
source, so one induction on a bound of the weight takes them together. The
depth to which bindings are looked into is a second induction around it.
-/

set_option autoImplicit false

namespace NamespaceLang

variable {ctx : Context} {s : State} {force : Forcing} {n : Nat}

theorem capture_works (hs : s.Sound) {scope : Scope} (pos : Position) {nodes : List Tree}
    (hn : Orderly nodes) (hb : Begun s.store.size scope) :
    Works (fun a after => ∃ ref, a = .deferred ref .ast ∧
      Names after.block.id after.block.instrs.toList ref Op.keepsSource)
      (capture scope pos nodes) ctx s := by
  refine .bind (.push hs (.captureAst ⟨nodes, pos, scope⟩) ⟨hn, hb⟩ pos) fun ref after sound _ named => ?_
  exact .pure sound ⟨ref, rfl, named Op.keepsSource rfl⟩

theorem analyzeLeafWith_works (hf : Forces force) (hs : s.Sound) {scope : Scope}
    (hb : Begun s.store.size scope) (slot : Shape) (pos : Position) (leaf : Leaf) :
    Works (fun a after => a.Sound after.block) (analyzeLeafWith force scope slot pos leaf) ctx s := by
  unfold analyzeLeafWith
  split
  · split
    · refine .bind (.push hs .comptimeOnly trivial pos) fun _ after sound _ _ => ?_
      exact .pure sound (Analysis.sound_ofNamespace _ _)
    · exact .error hs _ (by simp)
  · next name =>
    split
    · exact .deferred hs (.makeKey (.string name)) trivial pos rfl rfl
    · exact .error hs _ (by simp)
  · exact resolveWith_works hf hs pos _ slot hb
  · exact .error hs _ (by simp)
  · exact .error hs _ (by simp)

/-- Accesses and calls break no invariant; what stands between the brackets of a call is never read. -/
theorem analyzeSuffixesWith_works (hf : Forces force) (scope : Scope) (hs : s.Sound) {left : Analysis}
    (hl : left.Sound s.block) (nodes : List Tree) :
    Works (fun a after => a.Sound after.block) (analyzeSuffixesWith force scope left nodes) ctx s := by
  induction nodes generalizing s left with
  | nil =>
    rw [analyzeSuffixesWith]
    exact .pure hs hl
  | cons node rest ih =>
    have others : ∀ next after, after.Sound → s.Grows after → Analysis.Sound after.block next →
        Works (fun a after => a.Sound after.block) (analyzeSuffixesWith force scope next rest) ctx
          after := fun next after sound _ hnext => ih sound hnext
    rw [analyzeSuffixesWith.eq_def]
    dsimp only
    split
    · exact .bind (.pure hs hl) others
    · exact .bind (.error hs _ (by simp)) others
    · exact .bind (accessWith_works hf hs left _ _) others
    · exact .bind (accessWith_works hf hs left _ _) others
    · exact .bind (call_works hs _ hl.noFunction _) others
    · exact .bind (.error hs _ (by simp)) others

/-- What is lighter than `n` is read without breaking an invariant. -/
structure Reads (force : Forcing) (n : Nat) : Prop where
  expression (ctx : Context) (s : State) (scope : Scope) (slot : Shape) (pos : Position)
    (nodes : List Tree) : 3 * Tree.weightAll nodes + 1 < n → s.Sound → Orderly nodes →
      Begun s.store.size scope →
      Works (fun a after => a.Sound after.block) (analyzeWith force scope slot pos nodes) ctx s
  base (ctx : Context) (s : State) (scope : Scope) (slot : Shape) (node : Tree) :
    3 * node.weight < n → s.Sound → Orderly [node] → Begun s.store.size scope →
      Works (fun a after => a.Sound after.block) (analyzeBaseWith force scope slot node) ctx s
  body (ctx : Context) (s : State) (outer : Scope) (pos : Position) (nodes : List Tree) :
    3 * Tree.weightAll nodes + 4 < n → s.Sound → Orderly nodes → Begun s.store.size outer →
      Works (fun _ _ => True) (declareWith force outer pos nodes) ctx s
  lines (ctx : Context) (s : State) (scope : Scope) (list : InstrRef) (lines : List Line) :
    lineWeight lines < n → s.Sound → (∀ line ∈ lines, Orderly line.items) →
      Begun s.store.size scope → Names s.block.id s.block.instrs.toList list Op.beginsNamespace →
      Works (fun _ _ => True) (declareLinesWith force scope list lines) ctx s
  line (ctx : Context) (s : State) (scope : Scope) (list : InstrRef) (line : Line) :
    3 * Tree.weightAll line.items + 2 < n → s.Sound → Orderly line.items →
      Begun s.store.size scope → Names s.block.id s.block.instrs.toList list Op.beginsNamespace →
      Works (fun _ _ => True) (declareLineWith force scope list line) ctx s

namespace Reads

variable {scope : Scope}

theorem expression_next (hf : Forces force) (ih : Reads force n) (slot : Shape) (pos : Position) {nodes : List Tree}
    (hw : 3 * Tree.weightAll nodes + 1 < n + 1) (hs : s.Sound) (hn : Orderly nodes)
    (hb : Begun s.store.size scope) :
    Works (fun a after => a.Sound after.block) (analyzeWith force scope slot pos nodes) ctx s := by
  have light := Tree.weightAll_filter (!·.isBlank) nodes
  have orderly : Orderly (nodes.filter (!·.isBlank)) := hn.part (List.filter_sublist.subset)
  rw [analyzeWith.eq_def]
  split
  · refine (capture_works hs pos hn hb).mono ?_
    rintro a after ⟨ref, rfl, named⟩
    exact ⟨rfl, named.imp fun _ _ => rfl⟩
  · split
    · exact .error hs _ (by simp)
    · next start bodyPos _ _ body rest hfilter =>
      rw [hfilter] at light orderly
      simp only [Tree.weightAll, Tree.weight] at light
      have begin_body := ih.body ctx s scope bodyPos body (by omega) hs orderly.tail.items hb
      refine .bind begin_body fun id _ sound _ _ => ?_
      refine .bind (.push sound .comptimeOnly trivial start) fun _ _ sound _ _ => ?_
      exact analyzeSuffixesWith_works hf scope sound (Analysis.sound_ofNamespace _ _) rest
    · next first rest _ hfilter =>
      rw [hfilter] at light orderly
      simp only [Tree.weightAll] at light
      refine .bind (ih.base ctx s scope _ first (by omega) hs orderly.head hb)
        fun base _ sound _ hbase => ?_
      exact analyzeSuffixesWith_works hf scope sound hbase rest

theorem base_next (hf : Forces force) (ih : Reads force n) (slot : Shape) {node : Tree}
    (hw : 3 * node.weight < n + 1) (hs : s.Sound) (hn : Orderly [node])
    (hb : Begun s.store.size scope) :
    Works (fun a after => a.Sound after.block) (analyzeBaseWith force scope slot node) ctx s := by
  rw [analyzeBaseWith.eq_def]
  split
  · exact analyzeLeafWith_works hf hs hb slot _ _
  · next pos _ _ items =>
    simp only [Tree.weight] at hw
    exact ih.expression ctx s scope slot pos items (by omega) hs hn.items hb
  · next pos _ _ items =>
    have read : Works (fun _ _ => True) (Run.ofExcept (Pattern.read pos items)) ctx s :=
      .ofExcept hs (fun _ _ => trivial) fun d hd => Pattern.read_usual hn.items hd
    exact .bind read fun _ after sound _ _ => .error sound _ (by simp)
  · exact .error hs _ (by simp)

theorem body_next (ih : Reads force n) (pos : Position) {nodes : List Tree}
    (hw : 3 * Tree.weightAll nodes + 4 < n + 1) (hs : s.Sound) (hn : Orderly nodes)
    (hb : Begun s.store.size scope) :
    Works (fun _ _ => True) (declareWith force scope pos nodes) ctx s := by
  have orderly := Body.read_orderly pos hn
  rw [declareWith.eq_def]
  split
  · next d hread => exact .fail hs (orderly.2 d hread)
  · next body found hread =>
    have light := Body.read_weight pos nodes body found hread
    obtain ⟨hbody, usual⟩ := orderly.1 body found hread
    refine .bind (.record hs usual) fun _ begun sound grows _ => ?_
    have outer := hb.mono grows.size
    refine .bind (.begin sound pos outer hbody.definitions) fun id s' sound grows' hid => ?_
    have inner : Begun s'.store.size (id :: scope) :=
      List.forall_mem_cons.2 ⟨hid, outer.mono grows'.size⟩
    refine .bind (Q := fun registry after => Registry.Open after.store.size registry) ?_
      fun registry filled sound _ fields => ?_
    · refine .holding (.inNewBlock (R := fun registry after => registry.Open after.store.size)
        sound (fun new sound size => ?_) fun _ _ h => h)
      refine .bind (.push sound .nsInit trivial pos) fun list empty sound grows named => ?_
      have list_named := named Op.beginsNamespace rfl
      refine .bind (ih.lines _ empty (id :: scope) list body.lines (by omega) sound hbody.lines
        (inner.mono (size ▸ grows.size)) list_named) fun _ full sound grows _ => ?_
      refine .bind (.evaluate sound) fun results ended sound grows' ran => ?_
      obtain ⟨-, size, fits⟩ := ran
      have still_named : Names full.block.id full.block.instrs.toList list Op.beginsNamespace :=
        grows.id ▸ list_named.more grows.instrs
      obtain ⟨registry, -, there, fields⟩ := fits.namespace still_named pos
      have aggregate : results.aggregate pos list = .ok registry := by
        rw [Results.aggregate, there]
      rw [aggregate]
      exact .pure sound (size ▸ fields)
    · have finished := sound.store.finish id fields
      refine .bind (.modifyStore sound finished (Store.size_modify _ _) rfl)
        fun _ _ sound _ _ => ?_
      exact .pure sound trivial

theorem lines_next (ih : Reads force n) {list : InstrRef} {lines : List Line}
    (hw : lineWeight lines < n + 1) (hs : s.Sound) (hl : ∀ line ∈ lines, Orderly line.items)
    (hb : Begun s.store.size scope)
    (hn : Names s.block.id s.block.instrs.toList list Op.beginsNamespace) :
    Works (fun _ _ => True) (declareLinesWith force scope list lines) ctx s := by
  rw [declareLinesWith.eq_def]
  split
  · exact .pure hs trivial
  · next line rest =>
    obtain ⟨first, others⟩ := List.forall_mem_cons.1 hl
    simp only [lineWeight] at hw
    have line_works := ih.line ctx s scope list line (by omega) hs first hb hn
    refine .bind (.attempt line_works) fun _ after sound grows _ => ?_
    exact ih.lines ctx after scope list rest (by omega) sound others (hb.mono grows.size)
      (grows.id ▸ hn.more grows.instrs)

theorem field_works (hs : s.Sound) {list : InstrRef} {key : Analysis} (mark pos : Position)
    {nodes : List Tree} (hn : Names s.block.id s.block.instrs.toList list Op.beginsNamespace)
    (hk : key.Sound s.block) (known : key.shape.isKnownKey = true) (ho : Orderly nodes)
    (hb : Begun s.store.size scope) :
    Works (fun _ _ => True) (do
      let keyRef ← Run.materialize key.value mark
      let body ← capture scope pos nodes
      let bodyRef ← Run.materialize body.value mark
      let _ ← Run.push (.nsAppend list keyRef bodyRef) mark) ctx s := by
  have is_key : ∀ value, key.value = .known value →
      ∃ own, value = .key own ∧ Op.makesKey (.makeKey own) = true := by
    intro value hv
    have sound := hk.value
    rw [hv] at sound
    cases value with
    | key own => exact ⟨own, rfl, rfl⟩
    | _ => cases sound known
  have makes_key : ∀ ref, key.value = .deferred ref →
      Names s.block.id s.block.instrs.toList ref Op.makesKey := by
    intro ref hv
    have sound := hk.value
    rw [hv] at sound
    exact Names.imp sound fun op ha => by simpa [Shape.admits, known] using ha
  refine .bind (.materialize hs mark is_key makes_key) fun keyRef s₁ sound grows₁ key_named => ?_
  refine .bind (capture_works sound pos ho (hb.mono grows₁.size))
    fun body s₂ sound grows₂ captured => ?_
  obtain ⟨bodyRef, rfl, body_named⟩ := captured
  refine .bind (.materialize sound mark (fun _ hv => by cases hv) fun ref hv => by
    cases hv
    exact body_named) fun bodyRef s₃ sound grows₃ body_named => ?_
  have sofar := (grows₁.trans grows₂).trans grows₃
  have later := grows₂.trans grows₃
  have appends : (Op.nsAppend list keyRef bodyRef).SoundAfter s₃.store.size s₃.block.id
      s₃.block.instrs.toList :=
    ⟨sofar.id ▸ hn.more sofar.instrs, later.id ▸ key_named.more later.instrs, body_named⟩
  exact .bind (.push sound _ appends mark) fun _ _ sound _ _ => .pure sound trivial

theorem line_next (ih : Reads force n) {list : InstrRef} {line : Line}
    (hw : 3 * Tree.weightAll line.items + 2 < n + 1) (hs : s.Sound) (hl : Orderly line.items)
    (hb : Begun s.store.size scope)
    (hn : Names s.block.id s.block.instrs.toList list Op.beginsNamespace) :
    Works (fun _ _ => True) (declareLineWith force scope list line) ctx s := by
  have orderly := twoSided?_orderly ChainTag.bindsField line.pos hl
  rw [declareLineWith.eq_def]
  split
  · next d hsides => exact .fail hs (orderly.2 d hsides)
  · have whole := ih.expression ctx s scope .void line.pos line.items (by omega) hs hl hb
    exact .bind whole fun _ _ sound _ _ => .pure sound trivial
  · next sides hsides =>
    have light := twoSided?_weight _ _ _ _ hsides
    obtain ⟨left, right⟩ := orderly.1 sides hsides
    have key_works := ih.expression ctx s scope .key sides.left.pos sides.leftItems (by omega) hs left
      hb
    refine .bind key_works fun key after sound grows hkey => ?_
    have named := grows.id ▸ hn.more grows.instrs
    have begun := hb.mono grows.size
    split
    · next hshape => exact field_works sound _ _ named hkey (by rw [hshape]; rfl) right begun
    · next hshape => exact field_works sound _ _ named hkey (by rw [hshape]; rfl) right begun
    · exact .error sound _ (by simp)
    · exact .error sound _ (by simp)

end Reads

theorem reads (hf : Forces force) (n : Nat) : Reads force n := by
  induction n with
  | zero => constructor <;> (intros; omega)
  | succ n ih =>
    exact {
      expression := fun ctx s scope slot pos nodes hw hs hn hb =>
        ih.expression_next hf slot pos hw hs hn hb
      base := fun ctx s scope slot node hw hs hn hb => ih.base_next hf slot hw hs hn hb
      body := fun ctx s outer pos nodes hw hs hn hb => ih.body_next pos hw hs hn hb
      lines := fun ctx s scope list lines hw hs hl hb hn => ih.lines_next hw hs hl hb hn
      line := fun ctx s scope list line hw hs hl hb hn => ih.line_next hw hs hl hb hn }

theorem analyzeWith_analyzes (hf : Forces force) : Analyzes (analyzeWith force) :=
  fun ctx s scope slot pos nodes hs ht =>
    (reads hf (3 * Tree.weightAll nodes + 2)).expression ctx s scope slot pos nodes (by omega) hs
      ht.nodes ht.scope

theorem forceWithin_forces (depth : Nat) : Forces (forceWithin depth) := by
  induction depth with
  | zero => exact fun _ _ _ _ _ _ hs _ => .exhausted hs
  | succ depth ih => exact forceBy_forces (analyzeWith_analyzes ih)

theorem declare_works (hs : s.Sound) {outer : Scope} (pos : Position) {nodes : List Tree}
    (hn : Orderly nodes) (hb : Begun s.store.size outer) :
    Works (fun _ _ => True) (declare outer pos nodes) ctx s :=
  .store ((reads (forceWithin_forces _) (3 * Tree.weightAll nodes + 5)).body ctx s outer pos nodes
    (by omega) hs hn hb)

theorem readSymbol_works (hs : s.Sound) (target : NamespaceRef) (builtin : Builtin) (slot : Shape) :
    Works (fun a? after => ∀ a ∈ a?, a.Sound after.block) (readSymbol target builtin slot) ctx s :=
  .store (readSymbolWith_works (forceWithin_forces _) hs target builtin slot)

end NamespaceLang

import NamespaceLang.Proofs.Analysis.Chain

/-!
# Compiling comes to an end

The bindings that are being looked into have different lines, so that there are
no more of them than there are lines in the text, or bindings in the store. No
depth that the work is allowed is ever used up, and what is compiled does not
depend on there being a bound to it.
-/

set_option autoImplicit false

namespace NamespaceLang

theorem sourceBound_append (left right : List (List Tree)) :
    sourceBound (left ++ right) = sourceBound left + sourceBound right := by
  induction left with
  | nil => simp [sourceBound]
  | cons nodes left ih =>
    rw [List.cons_append, sourceBound, sourceBound, ih]
    omega

/-- The lines of some sources, and what stands in them. -/
def linesOf {α : Type} (pos : α → Position) (nodes : α → List Tree) (sources : List α) : List Site :=
  sources.flatMap fun a => .line (pos a) :: Tree.sites (nodes a)

theorem length_linesOf_le {α : Type} (pos : α → Position) (nodes : α → List Tree)
    (sources : List α) :
    ((linesOf pos nodes sources).filterMap Site.mark?).length ≤ sourceBound (sources.map nodes) := by
  induction sources with
  | nil => exact Nat.le_refl _
  | cons a rest ih =>
    have inner := Tree.length_lineMarks_le (nodes a)
    have split : (linesOf pos nodes (a :: rest)).filterMap Site.mark? =
        pos a :: (Tree.lineMarks (nodes a) ++ (linesOf pos nodes rest).filterMap Site.mark?) := by
      simp [linesOf, Tree.lineMarks, Site.mark?]
    rw [split, List.length_cons, List.length_append, List.map_cons, sourceBound]
    omega

namespace Namespace

def ground (n : Namespace) : List Site :=
  linesOf (·.pos) (·.value) n.definitions.values ++
    linesOf (·.pos) (·.thunk.nodes) ((n.fields?.map (·.entries)).getD [])

theorem length_ground_le (n : Namespace) :
    (n.ground.filterMap Site.mark?).length ≤ sourceBound n.sources := by
  have definitions := length_linesOf_le Definition.pos Definition.value n.definitions.values
  have fields := length_linesOf_le FieldEntry.pos (·.thunk.nodes) ((n.fields?.map (·.entries)).getD [])
  rw [ground, sources, sourceBound_append, List.filterMap_append, List.length_append]
  exact Nat.add_le_add definitions fields

end Namespace

namespace Store

def ground (s : Store) : List Site := s.namespaces.toList.flatMap Namespace.ground

theorem length_ground_le (s : Store) :
    (s.ground.filterMap Site.mark?).length ≤ s.bindingBound := by
  unfold ground bindingBound
  induction s.namespaces.toList with
  | nil => exact Nat.le_refl _
  | cons own rest ih =>
    have first := own.length_ground_le
    rw [List.flatMap_cons, List.flatMap_cons, sourceBound_append, List.filterMap_append,
      List.length_append]
    omega

theorem get_ground (s : Store) (id : NamespaceId) : (s.get id).ground ⊆ s.ground := by
  unfold get
  cases hid : s.namespaces[id]? with
  | none => exact List.nil_subset _
  | some own =>
    rw [← Array.getElem?_toList] at hid
    exact fun site hs => List.mem_flatMap.2 ⟨own, List.mem_of_getElem? hid, hs⟩

theorem line_of_source {s : Store} {p : Place} {t : Thunk} (h : s.source? p.1 p.2 = some t) :
    ∃ mark, s.mark? p = some mark ∧ .line mark :: Tree.sites t.nodes ⊆ s.ground := by
  obtain ⟨id, b⟩ := p
  cases b with
  | definition name =>
    obtain ⟨found, hf, rest⟩ := Option.bind_eq_some_iff.1 h
    refine ⟨found.pos, by rw [mark?, hf]; rfl, ?_⟩
    split at rest
    · cases rest
      have own := Table.mem_values_of_get? hf
      refine List.Subset.trans (fun site hs => ?_) (s.get_ground id)
      exact List.mem_append_left _ (List.mem_flatMap.2 ⟨found, own, hs⟩)
    · cases rest
  | field key =>
    obtain ⟨entry, he, rfl⟩ := Option.map_eq_some_iff.1 h
    obtain ⟨registry, hr, there⟩ := Option.bind_eq_some_iff.1 he
    refine ⟨entry.pos, by rw [mark?, he]; rfl, ?_⟩
    refine List.Subset.trans (fun site hs => ?_) (s.get_ground id)
    refine List.mem_append_right _ (List.mem_flatMap.2 ⟨entry, ?_, hs⟩)
    rw [hr]
    exact List.mem_of_find?_eq_some there

theorem within_ground (K : Plans) (s : Store) : K.Within s.ground s := by
  constructor
  · intro p _
    cases hs : s.source? p.1 p.2 with
    | none =>
      rw [region, hs]
      exact List.nil_subset _
    | some t =>
      obtain ⟨mark, -, sub⟩ := line_of_source hs
      rw [region_of_source hs]
      exact (List.cons_subset.1 sub).2
  · intro p mark _ there own
    obtain ⟨t, ht⟩ := Option.isSome_iff_exists.1 there
    obtain ⟨mark', own', sub⟩ := line_of_source ht
    obtain rfl := Option.some.inj (own.symm.trans own')
    exact sub List.mem_cons_self

end Store

variable {label : String} {text : List Char}

/-- The sites of a text, and that of the file itself. -/
def textSites (label : String) (text : List Char) : List Site :=
  .file :: Tree.sites (tokenize label text).nodes

theorem fits_file (depth : Nat) :
    Moment.Fits (fun _ => none) ⟨depth, .body [] (.start label) (tokenize label text).nodes, .start,
      .opening (tokenize label text).diagnostics⟩ where
  stands := by
    refine ⟨⟨.empty _, fun _ hp => (by cases hp), ?_⟩, .nil⟩
    rintro p - - i ⟨⟨own, hp⟩, -⟩
    cases hp
  apart := tokenize_sites_nodup label text
  rooms room hr := by
    obtain rfl := List.mem_singleton.1 hr
    constructor
    · intro i own hi
      cases hi
    · rintro p ⟨own, hp⟩
      cases hp
    · rintro p ⟨head, first, -⟩
      cases first
  visible o ho := by cases ho
  given n hn := by cases hn
  placed := trivial

theorem within_file (s : Store) : Plans.Within (fun _ => none) (textSites label text) s where
  region p hp := by
    obtain ⟨own, hp⟩ := hp
    cases hp
  mark p mark hp := by
    obtain ⟨own, hp⟩ := hp
    cases hp

theorem Opens.fits {m : Moment} (h : Opens label text m) : m.ctx.forcing = [] ∧
    ∃ K, m.Fits K ∧ m.task.here ⊆ textSites label text ∧
      K.Within (textSites label text) m.state.store := by
  cases h with
  | body => exact ⟨rfl, _, fits_file _, List.Subset.refl _, within_file _⟩
  | @entry root after entry before there =>
    refine ⟨rfl, ?_⟩
    have first := @fits_file label text
      ((State.opening (tokenize label text).diagnostics).store.bindingBound
          + Tree.weightAll (tokenize label text).nodes + 1)
    obtain ⟨K, g, stands, seen⟩ := first.ended before
    have within := g.within first.stands.ready stands.ready.census (within_file _)
      (List.Subset.refl _)
    refine ⟨K, ⟨?_, List.nodup_nil, fun room hr => ?_, fun _ ho => (by cases ho), seen,
      Store.source?_field there⟩, List.nil_subset _, ⟨within.region, within.mark⟩⟩
    · exact ⟨stands.ready.newBlock, .nil⟩
    · obtain rfl := List.mem_singleton.1 hr
      constructor
      · exact fun _ _ _ => Or.inl fun _ hs => by cases hs
      · exact fun _ _ _ hs => by cases hs
      · exact fun _ _ => List.nil_subset _

/-- What is looked into has a line in the text. -/
theorem Happens.chained {m : Moment} (h : Happens label text m) :
    ∃ K, m.Chained (textSites label text) K := by
  refine Happens.invariant (P := fun m => ∃ K, m.Chained (textSites label text) K)
    (fun first opens => ?_) (fun _ _ ⟨K, chained⟩ leads => leads.chained chained) h
  obtain ⟨nothing, K, fits, here, within⟩ := opens.fits
  exact ⟨K, fits, here, within, by rw [nothing]; exact List.nodup_nil,
    fun p hp => by rw [nothing] at hp; cases hp⟩

theorem Opens.deep {m : Moment} (h : Opens label text m) : ∃ ground K, m.Chained ground K ∧
    (ground.filterMap Site.mark?).length < m.depth + m.ctx.forcing.length := by
  obtain ⟨nothing, K, fits, here, within⟩ := h.fits
  have apart : (m.ctx.forcing.map m.state.store.mark?).Nodup := by
    rw [nothing]
    exact List.nodup_nil
  have sourced : ∀ p ∈ m.ctx.forcing, ∃ t, m.state.store.source? p.1 p.2 = some t ∧
      (t.Erroneous → m.task.Idle) := by
    rw [nothing]
    exact fun p hp => by cases hp
  cases h with
  | body =>
    refine ⟨textSites label text, K, ⟨fits, here, within, apart, sourced⟩, ?_⟩
    have lines := Tree.length_lineMarks_le (tokenize label text).nodes
    show (Tree.lineMarks (tokenize label text).nodes).length < _
    dsimp only [Context.start, List.length_nil]
    omega
  | @entry root after entry before there =>
    refine ⟨after.inNewBlock.store.ground, K, ⟨fits, List.nil_subset _, Store.within_ground K _, apart,
      sourced⟩, ?_⟩
    exact Nat.lt_succ_of_le (Store.length_ground_le _)

theorem Happens.depth_pos {m : Moment} (h : Happens label text m) : 0 < m.depth := by
  obtain ⟨first, opens, reaches⟩ := h
  obtain ⟨ground, K, chained, deep⟩ := opens.deep
  have inside : (∃ K, m.Chained ground K) ∧
      (ground.filterMap Site.mark?).length < m.depth + m.ctx.forcing.length := by
    induction reaches with
    | refl => exact ⟨⟨K, chained⟩, deep⟩
    | tail _ leads ih =>
      obtain ⟨⟨K, chained⟩, deep⟩ := ih
      exact ⟨leads.chained chained, by rw [leads.depth]; exact deep⟩
  obtain ⟨⟨K, chained⟩, deep⟩ := inside
  have short := chained.length
  omega

/-- Every call comes to its end. -/
theorem Happens.ends {m : Moment} (h : Happens label text m) : m.run.1 ≠ .exhausted := by
  intro exhausted
  obtain ⟨bottom, reaches, empty, -⟩ := (Moment.minds m).exhausted exhausted
  obtain ⟨first, opens, before⟩ := h
  have pos := Happens.depth_pos ⟨first, opens, before.trans reaches⟩
  omega

theorem Opens.keeps {m : Moment} (h : Opens label text m) :
    Keeps False m.task.mayPush m.ctx m.state m.run := by
  refine m.minds.mono (fun ⟨bottom, reaches, empty, _⟩ => ?_) fun _ allowed => allowed
  have pos := Happens.depth_pos ⟨m, h, reaches⟩
  omega

theorem readEntry_keeps {root : NamespaceId} {after : State}
    (before : declare [] (.start label) (tokenize label text).nodes .start
      (.opening (tokenize label text).diagnostics) = (.done root, after)) :
    Keeps False (fun _ => true) ⟨[⟨"entry point", .start label⟩], [root], []⟩ after.inNewBlock
      (readSymbol (.declared root) .main .mainEntry ⟨[⟨"entry point", .start label⟩], [root], []⟩
        after.inNewBlock) := by
  refine .readField fun entry there => ?_
  exact (Opens.entry before there).keeps.mono id fun _ _ => rfl

def callEntry (pos : Position) : Option Analysis → Run Shape
  | none => Run.fail (.error pos .noEntryPoint)
  | some main => do
    Run.attempt do
      let _ ← call pos main fun _ => Run.deferred .void pos .void
      let _ ← Run.evaluate
    return main.shape

theorem callEntry_keeps (pos : Position) (main? : Option Analysis) (ctx : Context) (s : State) :
    Keeps False (fun _ => true) ctx s (callEntry pos main? ctx s) := by
  cases main? with
  | none => exact .fail _
  | some main =>
    refine .bind (.attempt (.bind ?_ fun _ _ _ => .bind .evaluate fun _ _ _ => .done _))
      fun _ _ _ => .done _
    exact .call (fun _ _ => rfl) pos fun _ _ _ => .bind (.push rfl _) fun _ _ _ => .done _

def runFrom (pos : Position) (root : NamespaceId) : Run Shape :=
  Run.holding [root] <| Run.inNewBlock do
    let main? ← Run.within "entry point" pos (readSymbol (.declared root) .main .mainEntry)
    callEntry pos main?

theorem runEntry_eq (pos : Position) (nodes : List Tree) :
    runEntry pos nodes = declare [] pos nodes >>= runFrom pos := rfl

theorem runFrom_keeps {root : NamespaceId} {after : State}
    (before : declare [] (.start label) (tokenize label text).nodes .start
      (.opening (tokenize label text).diagnostics) = (.done root, after)) :
    Keeps False (fun _ => true) .start after (runFrom (.start label) root .start after) := by
  have entry : Keeps False (fun _ => true) (Context.start.holding [root]) after.inNewBlock
      (Run.within "entry point" (.start label) (readSymbol (.declared root) .main .mainEntry)
        (Context.start.holding [root]) after.inNewBlock) :=
    (readEntry_keeps before).inContext List.nil_prefix (List.Subset.refl _)
  exact .holding [root] (.leaving (.bind entry fun main? mid _ => callEntry_keeps _ main? _ mid))

theorem runEntry_keeps (label : String) (text : List Char) :
    Keeps False (fun _ => true) .start (.opening (tokenize label text).diagnostics)
      (runEntry (.start label) (tokenize label text).nodes .start
        (.opening (tokenize label text).diagnostics)) := by
  have first : Opens label text _ := .body
  rw [runEntry_eq]
  exact .bind (first.keeps.mono id fun _ _ => rfl) fun root after before => runFrom_keeps before

/-- Compiling comes to an end, whatever the text. At no time are two bindings looked into that come
from one line, even if they belong to namespaces that have come from one literal, so that there are
no more of them than there are lines of definitions and fields. -/
theorem compile_settles (label : String) (text : List Char) :
    (compile label text).settled = true ∧ ∀ m, Happens label text m →
      m.run.1 ≠ .exhausted ∧ ∃ marks : List Position,
        m.ctx.forcing.map m.state.store.mark? = marks.map some ∧ marks.Nodup ∧
        marks ⊆ Tree.lineMarks (tokenize label text).nodes ∧
        m.ctx.forcing.length ≤ (Tree.lineMarks (tokenize label text).nodes).length := by
  constructor
  · have kept := runEntry_keeps label text
    rw [← compileHolding_nil]
    show (Compiled.ofRun _ (runEntry (.start label) (tokenize label text).nodes .start
      (.opening (tokenize label text).diagnostics))).settled = true
    generalize runEntry (.start label) (tokenize label text).nodes .start
      (.opening (tokenize label text).diagnostics) = r at kept
    rcases r with ⟨_ | _ | _, after⟩
    · rfl
    · rfl
    · exact (kept.exhausted rfl).elim
  · intro m h
    obtain ⟨K, chained⟩ := h.chained
    obtain ⟨marks, same, apart, sub⟩ := chained.marks
    exact ⟨h.ends, marks, same, apart, sub, chained.length⟩

end NamespaceLang

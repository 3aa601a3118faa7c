import NamespaceLang.Proofs.Store.Bodies
import NamespaceLang.Proofs.Store.Growth

/-!
# The descent into source

Every call has sites of its own before it, where no namespace stands yet, and
passes each of them on to at most one of the calls that it makes. What it can
come to beyond them are the sources of bindings that nobody looks into. So in
the census no two namespaces ever come to stand at one site.
-/

set_option autoImplicit false

namespace NamespaceLang

/-- The census is ready, and the block at hand gives access to nobody that may not be come to. -/
structure Stands (K : Plans) (forcing : List Place) (s : State) : Prop where
  ready : Ready K forcing s.store
  block : K.Seen forcing s.store s.block.namespaces

theorem Stands.pushed {K : Plans} {forcing : List Place} {s : State} (h : Stands K forcing s)
    {op : Op} (pos : Position) (seen : K.Seen forcing s.store op.namespaces) :
    Stands K forcing (s.pushed op pos) := by
  refine ⟨h.ready, ?_⟩
  show K.Seen forcing s.store (s.block.push op pos).2.namespaces
  rw [Block.namespaces, Block.push, Array.toList_push, List.flatMap_append]
  exact h.block.append (by simpa using seen)

/-- Work that has begun at some sites has grown the census, and its result gives access to
nobody that may not be come to. -/
def Leaves {α : Type} (ids : α → List NamespaceId) (here : List Site) (K : Plans)
    (forcing : List Place) (s : State) (r : Outcome α × State) : Prop :=
  ∃ later, Grows forcing here K s.store later r.2.store ∧ Stands later forcing r.2 ∧
    ∀ a, r.1 = .done a → later.Seen forcing r.2.store (ids a)

namespace Leaves

variable {α β : Type} {ids : α → List NamespaceId} {here : List Site} {K : Plans} {ctx : Context}
  {forcing : List Place} {s : State}

theorem done (stands : Stands K forcing s) {a : α} (seen : K.Seen forcing s.store (ids a)) :
    Leaves ids here K forcing s (.done a, s) :=
  ⟨K, .refl _ _ _ _, stands, fun _ h => by cases h; exact seen⟩

theorem failed (stands : Stands K forcing s) (d : Diagnostic) :
    Leaves ids here K forcing s (.failed d, s) :=
  ⟨K, .refl _ _ _ _, stands, fun _ h => by cases h⟩

theorem mono {there : List Site} {r : Outcome α × State} (h : Leaves ids here K forcing s r)
    (sub : here ⊆ there) : Leaves ids there K forcing s r := by
  obtain ⟨later, grows, rest⟩ := h
  exact ⟨later, grows.mono sub, rest⟩

theorem bind {idsβ : β → List NamespaceId} {first : List Site} {act : Run β} {next : β → Run α}
    (h : Leaves idsβ first K forcing s (act ctx s)) (ready : Ready K forcing s.store)
    (sub : first ⊆ here)
    (hn : ∀ b mid later, act ctx s = (.done b, mid) → Grows forcing first K s.store later mid.store →
      Stands later forcing mid → later.Seen forcing mid.store (idsβ b) →
      Leaves ids here later forcing mid (next b ctx mid)) :
    Leaves ids here K forcing s ((act >>= next) ctx s) := by
  rw [Run.bind_apply]
  obtain ⟨later, grows, stands, seen⟩ := h
  rcases hr : act ctx s with ⟨b | d | _, mid⟩
  · rw [hr] at grows stands seen
    obtain ⟨last, grows', rest⟩ := hn b mid later hr grows stands (seen b rfl)
    exact ⟨last, (grows.mono sub).trans ready stands.ready.census grows', rest⟩
  · rw [hr] at grows stands
    exact ⟨later, grows.mono sub, stands, fun _ h => by cases h⟩
  · rw [hr] at grows stands
    exact ⟨later, grows.mono sub, stands, fun _ h => by cases h⟩

end Leaves

namespace Task

def bodySite : Scope → Position → Site
  | [], _ => .file
  | _ :: _, pos => .literal pos

def here : Task → List Site
  | .expression _ _ _ nodes | .suffixes _ _ nodes => Tree.sites nodes
  | .base _ _ node | .suffix _ _ node => Tree.sites [node]
  | .body outer pos nodes => bodySite outer pos :: Tree.sites nodes
  | .lines _ _ rest => rest.flatMap (·.part.read)
  | .line _ _ own => own.part.read
  | .resolve .. | .force .. => []

/-- The sites that belong together. The lines of a body are apart from one another. -/
def rooms : Task → List (List Site)
  | .lines _ _ rest => rest.map (·.part.read)
  | t => [t.here]

def given : Task → List NamespaceId
  | .suffixes _ left _ | .suffix _ left _ => left.namespaces
  | .force id .. => [id]
  | _ => []

def scope : Task → Scope
  | .expression scope .. | .base scope .. | .suffixes scope .. | .suffix scope .. => scope
  | .body scope .. | .lines scope .. | .line scope .. | .resolve scope .. => scope
  | .force .. => []

def gives : (t : Task) → t.Result → List NamespaceId
  | .body .., id => [id]
  | .lines .., _ | .line .., _ => []
  | .force .., found => found.namespaces
  | .expression .., found | .base .., found | .suffixes .., found | .suffix .., found
  | .resolve .., found => found.namespaces

def Placed (s : Store) : Task → Prop
  | .body .. => True
  | .force id binding thunk _ => s.source? id binding = some thunk
  | t => t.scope ≠ []

end Task

structure Moment.Fits (K : Plans) (m : Moment) : Prop where
  stands : Stands K m.ctx.forcing m.state
  apart : m.task.here.Nodup
  rooms : ∀ room ∈ m.task.rooms, K.Room m.ctx.forcing m.state.store room
  visible : K.Visible m.ctx.forcing m.state.store m.task.scope
  given : K.Seen m.ctx.forcing m.state.store m.task.given
  placed : m.task.Placed m.state.store

def Moment.Ends (K : Plans) (m : Moment) : Prop :=
  Leaves m.task.gives m.task.here K m.ctx.forcing m.state m.run

namespace Moment.Fits

variable {K later : Plans}

theorem free {m : Moment} (h : m.Fits K) : K.Free m.task.here := by
  have census := h.stands.ready.census
  cases ht : m.task with
  | lines scope list rest =>
    intro i own hi home
    obtain ⟨line, hl, home⟩ := List.mem_flatMap.1 home
    have room := h.rooms line.part.read
      (by rw [ht]; exact List.mem_map_of_mem hl)
    exact room.free census i own hi home
  | _ =>
    refine (h.rooms _ ?_).free census
    rw [ht]
    exact List.mem_singleton.2 rfl

theorem into {m : Moment} (h : m.Fits K) {t : Task} {ctx : Context} {depth : Nat}
    (forcing : ctx.forcing = m.ctx.forcing) (single : t.rooms = [t.here])
    {room : List Site} (hr : room ∈ m.task.rooms) (part : t.here.Sublist room)
    (whole : room.Nodup) (scope : t.scope ⊆ m.task.scope)
    (given : K.Seen m.ctx.forcing m.state.store t.given) (placed : t.Placed m.state.store) :
    Fits K ⟨depth, t, ctx, m.state⟩ := by
  constructor
  · rw [forcing]
    exact h.stands
  · exact part.nodup whole
  · intro own ho
    rw [single, List.mem_singleton] at ho
    rw [ho, forcing]
    exact (h.rooms room hr).mono part.subset
  · rw [forcing]
    exact fun o ho => h.visible o (scope ho)
  · rw [forcing]
    exact given
  · exact placed

theorem onward {m : Moment} (h : m.Fits K) {t : Task} {mid : State} {depth : Nat}
    {first : List Site} (g : Grows m.ctx.forcing first K m.state.store later mid.store)
    (stands : Stands later m.ctx.forcing mid) (single : t.rooms = [t.here])
    {room : List Site} (hr : room ∈ m.task.rooms) (part : (first ++ t.here).Sublist room)
    (whole : room.Nodup) (scope : t.scope = m.task.scope)
    (given : later.Seen m.ctx.forcing mid.store t.given) (placed : t.Placed mid.store) :
    Fits later ⟨depth, t, m.ctx, mid⟩ := by
  have ready := h.stands.ready
  have own := h.rooms room hr
  obtain ⟨-, apart, disjoint⟩ := List.nodup_append.1 (part.nodup whole)
  have free : K.Free first :=
    (own.mono fun _ hs => part.subset (List.mem_append_left _ hs)).free ready.census
  constructor
  · exact stands
  · exact apart
  · intro room' ho
    rw [single, List.mem_singleton] at ho
    subst ho
    refine g.room ready stands.ready.census free
      (own.mono fun _ hs => part.subset (List.mem_append_right _ hs)) ?_
    exact fun site hs hs' => disjoint site hs' site hs rfl
  · dsimp only
    rw [scope]
    exact g.visible ready stands.ready.census free h.visible
  · exact given
  · exact placed

variable {depth : Nat} {ctx : Context} {s mid : State} {scope : Scope} {slot : Shape}
  {pos : Position} {nodes : List Tree}

theorem literal_sites {l : Literal} (head : literal? (Tree.solid nodes) = some l)
    (inner : scope ≠ []) :
    ((Task.bodySite scope l.pos :: Tree.sites l.body) ++ Tree.sites l.rest).Sublist
      (Tree.sites nodes) := by
  obtain ⟨opening, closing, items⟩ := literal?_eq_some head
  have site : Task.bodySite scope l.pos = .literal l.pos := by
    cases scope with
    | nil => exact absurd rfl inner
    | cons => rfl
  have solid := Tree.sites_sublist (Tree.solid_sublist nodes)
  have split : Tree.sites (Tree.solid nodes) =
      .literal l.pos :: Tree.sites l.body ++ Tree.sites l.rest := by
    rw [items, Tree.sites_cons, Tree.sites_leaf, Tree.sites_cons, Tree.sites_group]
    rfl
  rw [site, ← split]
  exact solid

theorem items_sites {first : Tree} {rest : List Tree} (items : Tree.solid nodes = first :: rest) :
    (Tree.sites [first] ++ Tree.sites rest).Sublist (Tree.sites nodes) := by
  rw [← Tree.sites_cons, ← items]
  exact Tree.sites_sublist (Tree.solid_sublist nodes)

theorem cons_sites (node : Tree) (rest : List Tree) :
    (Tree.sites [node] ++ Tree.sites rest).Sublist (Tree.sites (node :: rest)) := by
  rw [← Tree.sites_cons]

theorem group_sites (pos : Position) (form : Form) (items : List Tree) :
    (Tree.sites items).Sublist (Tree.sites [.group pos form items]) := by
  rw [Tree.sites_group]
  exact List.sublist_append_right _ _

theorem literal {l : Literal} (h : Fits K ⟨depth, .expression scope slot pos nodes, ctx, s⟩)
    (head : literal? (Tree.solid nodes) = some l) :
    Fits K ⟨depth, .body scope l.pos l.body, ctx, s⟩ :=
  h.into rfl rfl (List.mem_singleton_self _)
    ((List.sublist_append_left _ _).trans (literal_sites head h.placed)) h.apart
    (List.Subset.refl _) .nil trivial

theorem afterLiteral {l : Literal} {id : NamespaceId}
    (h : Fits K ⟨depth, .expression scope slot pos nodes, ctx, s⟩)
    (head : literal? (Tree.solid nodes) = some l)
    (g : Grows ctx.forcing (Task.bodySite scope l.pos :: Tree.sites l.body) K s.store later mid.store)
    (stands : Stands later ctx.forcing mid) (seen : later.Seen ctx.forcing mid.store [id]) :
    Fits later ⟨depth, .suffixes scope (.ofNamespace (.declared id)) l.rest, ctx,
      mid.pushed .comptimeOnly l.start⟩ :=
  have pushed : Stands later ctx.forcing (mid.pushed .comptimeOnly l.start) :=
    stands.pushed l.start .nil
  h.onward g pushed rfl
    (List.mem_singleton_self _) (literal_sites head h.placed) h.apart rfl (seen.append seen) h.placed

theorem base {first : Tree} {rest : List Tree} {own : Shape}
    (h : Fits K ⟨depth, .expression scope slot pos nodes, ctx, s⟩)
    (items : Tree.solid nodes = first :: rest) : Fits K ⟨depth, .base scope own first, ctx, s⟩ :=
  h.into rfl rfl (List.mem_singleton_self _)
    ((List.sublist_append_left _ _).trans (items_sites items)) h.apart (List.Subset.refl _) .nil
    h.placed

theorem afterBase {first : Tree} {rest : List Tree} {found : Analysis}
    (h : Fits K ⟨depth, .expression scope slot pos nodes, ctx, s⟩)
    (items : Tree.solid nodes = first :: rest)
    (g : Grows ctx.forcing (Tree.sites [first]) K s.store later mid.store)
    (stands : Stands later ctx.forcing mid)
    (seen : later.Seen ctx.forcing mid.store found.namespaces) :
    Fits later ⟨depth, .suffixes scope found rest, ctx, mid⟩ :=
  h.onward g stands rfl (List.mem_singleton_self _) (items_sites items) h.apart rfl seen h.placed

theorem code {opening closing : String} {items : List Tree}
    (h : Fits K ⟨depth, .base scope slot (.group pos (.block .code opening closing) items), ctx, s⟩) :
    Fits K ⟨depth, .expression scope slot pos items, ctx, s⟩ :=
  h.into rfl rfl (List.mem_singleton_self _) (group_sites _ _ _) h.apart (List.Subset.refl _) .nil
    h.placed

theorem name {name : String}
    (h : Fits K ⟨depth, .base scope slot (.leaf pos (.identifier .plain name)), ctx, s⟩) :
    Fits K ⟨depth, .resolve scope slot pos name, ctx, s⟩ :=
  h.into rfl rfl (List.mem_singleton_self _) (List.nil_sublist _) h.apart (List.Subset.refl _) .nil
    h.placed

theorem suffix {left : Analysis} {node : Tree} {rest : List Tree}
    (h : Fits K ⟨depth, .suffixes scope left (node :: rest), ctx, s⟩) :
    Fits K ⟨depth, .suffix scope left node, ctx, s⟩ :=
  h.into rfl rfl (List.mem_singleton_self _)
    (Tree.sites_sublist (List.singleton_sublist.2 List.mem_cons_self)) h.apart (List.Subset.refl _)
    h.given h.placed

theorem afterSuffix {left next : Analysis} {node : Tree} {rest : List Tree}
    (h : Fits K ⟨depth, .suffixes scope left (node :: rest), ctx, s⟩)
    (g : Grows ctx.forcing (Tree.sites [node]) K s.store later mid.store)
    (stands : Stands later ctx.forcing mid)
    (seen : later.Seen ctx.forcing mid.store next.namespaces) :
    Fits later ⟨depth, .suffixes scope next rest, ctx, mid⟩ :=
  h.onward g stands rfl (List.mem_singleton_self _) (cons_sites node rest) h.apart rfl seen h.placed

theorem access {left : Analysis} {sigil : Sigil} {name : String} {id : NamespaceId}
    {entry : FieldEntry}
    (h : Fits K ⟨depth, .suffix scope left (.leaf pos (.identifier sigil name)), ctx, s⟩)
    (there : accessed? s.store left name = some (id, entry)) :
    Fits K ⟨depth, .force id (.field (.string name)) entry.thunk .unknown,
      ctx.holding left.namespaces, s⟩ := by
  unfold accessed? at there
  split at there
  · next shape =>
    obtain ⟨found, hf, same⟩ := Option.map_eq_some_iff.1 there
    cases same
    have own : [id] ⊆ left.namespaces := by
      rw [Analysis.namespaces, shape]
      exact List.subset_append_right _ _
    exact h.into rfl rfl (List.mem_singleton_self _) (List.nil_sublist _) h.apart
      (List.nil_subset _) (h.given.mono own) (Store.source?_field hf)
  · cases there

theorem argument {left : Analysis} {own : Shape} {opening closing : String} {items : List Tree}
    (h : Fits K ⟨depth, .suffix scope left (.group pos (.block .code opening closing) items), ctx, s⟩) :
    Fits K ⟨depth, .expression scope own pos items, ctx.holding left.namespaces, s⟩ :=
  h.into rfl rfl (List.mem_singleton_self _) (group_sites _ _ _) h.apart (List.Subset.refl _) .nil
    h.placed

theorem line {list : InstrRef} {line : Line} {rest : List Line}
    (h : Fits K ⟨depth, .lines scope list (line :: rest), ctx, s⟩) :
    Fits K ⟨depth, .line scope list line, ctx, s⟩ :=
  h.into rfl rfl List.mem_cons_self (List.Sublist.refl _)
    ((List.sublist_append_left _ _).nodup h.apart) (List.Subset.refl _) .nil h.placed

theorem afterLine {list : InstrRef} {line : Line} {rest : List Line}
    (h : Fits K ⟨depth, .lines scope list (line :: rest), ctx, s⟩)
    (g : Grows ctx.forcing line.part.read K s.store later mid.store)
    (stands : Stands later ctx.forcing mid) :
    Fits later ⟨depth, .lines scope list rest, ctx, mid⟩ := by
  have ready := h.stands.ready
  have free := (h.rooms _ List.mem_cons_self).free ready.census
  obtain ⟨-, apart, disjoint⟩ := List.nodup_append.1 h.apart
  constructor
  · exact stands
  · exact apart
  · intro room hr
    obtain ⟨own, ho, rfl⟩ := List.mem_map.1 hr
    refine g.room ready stands.ready.census free (h.rooms _ (List.mem_cons_of_mem _ hr)) ?_
    exact fun site hs hs' => disjoint site hs' site (List.mem_flatMap.2 ⟨own, ho, hs⟩) rfl
  · exact g.visible ready stands.ready.census free h.visible
  · exact .nil
  · exact h.placed

theorem whole {list : InstrRef} {line : Line} (h : Fits K ⟨depth, .line scope list line, ctx, s⟩)
    (read : twoSided? ChainTag.bindsField line.pos line.items = .ok none) :
    Fits K ⟨depth, .expression scope .void line.pos line.items, ctx, s⟩ := by
  have same : (Tree.sites line.items).Sublist line.part.read := by rw [Line.part, read]
  exact h.into rfl rfl (List.mem_singleton_self _) same h.apart (List.Subset.refl _) .nil h.placed

theorem key {list : InstrRef} {line : Line} {sides : TwoSided}
    (h : Fits K ⟨depth, .line scope list line, ctx, s⟩)
    (read : twoSided? ChainTag.bindsField line.pos line.items = .ok (some sides)) :
    Fits K ⟨depth, .expression scope .key sides.left.pos sides.leftItems, ctx, s⟩ := by
  have same : (Tree.sites sides.leftItems).Sublist line.part.read := by rw [Line.part, read]
  exact h.into rfl rfl (List.mem_singleton_self _) same h.apart (List.Subset.refl _) .nil h.placed

theorem reached {name : String} {id : NamespaceId} {binding : Binding} {thunk : Thunk}
    (h : Fits K ⟨depth, .resolve scope slot pos name, ctx, s⟩)
    (way : s.store.reach ctx.held name scope = .binding id binding)
    (source : s.store.source? id binding = some thunk) :
    Fits K ⟨depth, .force id binding thunk slot, ctx, s⟩ := by
  have there : [id] ⊆ scope := List.cons_subset.2 ⟨Store.mem_of_reach way, List.nil_subset _⟩
  exact h.into rfl rfl (List.mem_singleton_self _) (List.nil_sublist _) h.apart (List.nil_subset _)
    (h.visible.seen.mono there) source

theorem lines {outer : Scope} {body : Body} {parts : List DefinitionLine}
    (h : Fits K ⟨depth, .body outer pos nodes, ctx, s⟩) (found : List Diagnostic)
    (comes : body.ReadFrom parts (Tree.sites nodes)) :
    let own := body.plan (Task.bodySite outer pos) parts
    let next := s.declaring ctx outer pos body found
    Grows ctx.forcing (Task.bodySite outer pos :: Tree.sites nodes) K s.store
      (K.enter s.store.size own) next.store ∧
    Fits (K.enter s.store.size own) ⟨depth, .lines (s.store.namespaces.size :: outer) s.fieldList
      body.lines, ctx.holding [s.store.namespaces.size], next⟩ := by
  intro own next
  have apart := comes.plan_apart h.apart
  have sub : own.sites ⊆ Task.bodySite outer pos :: Tree.sites nodes := comes.plan_subset _
  let told := s.store.record (found.map (·.under ctx.trace))
  have ready : Ready K ctx.forcing told := h.stands.ready.record _
  have room : K.Room ctx.forcing told (Task.bodySite outer pos :: Tree.sites nodes) :=
    have room := h.rooms _ (List.mem_singleton_self _)
    ⟨room.nested, room.around, room.inner⟩
  have fits : own.Fits (told.begin pos outer body.definitions).2 told.size := comes.fits h.apart _ _ _
  have visible : K.Visible ctx.forcing told outer := h.visible
  have grown : Grows ctx.forcing _ K told _ _ :=
    .begin ready.census sub pos outer body.definitions
  have inside := Plans.Visible.begin ready room fits sub visible
  constructor
  · exact ⟨((Store.Learns.record _ _).trans grown.learns).trans (.newBlock _), grown.keeps,
      grown.placed⟩
  constructor
  · exact ⟨(ready.begin room fits sub visible).newBlock, .nil⟩
  · rw [Body.plan_sites] at apart
    exact (Body.reads_sublist body.lines).nodup
      (List.nodup_append.1 (List.nodup_cons.1 apart).2).2.1
  · intro here hr
    obtain ⟨line, hl, rfl⟩ := List.mem_map.1 hr
    have part : line.part ∈ own.parts := List.mem_append_right _ (List.mem_map_of_mem hl)
    have read := Plans.Room.begin ready room fits sub part
    exact ⟨read.nested, read.around, read.inner⟩
  · exact inside
  · exact .nil
  · exact List.cons_ne_nil _ _

theorem source {id : NamespaceId} {binding : Binding} {thunk : Thunk}
    (h : Fits K ⟨depth + 1, .force id binding thunk slot, ctx, s⟩)
    (first : s.store.finding? (id, binding) = none) (entered : (id, binding) ∉ ctx.forcing) :
    Fits K ⟨depth, .expression thunk.scope slot thunk.pos thunk.nodes,
      ctx.inside id binding thunk.pos, s.inNewBlock⟩ := by
  have known := (h.given id List.mem_cons_self).1
  have ready := h.stands.ready
  obtain ⟨own, hi⟩ := known
  have fits := ready.census.fits id own hi
  have region : s.store.region (id, binding) = Tree.sites thunk.nodes :=
    Store.region_of_source h.placed
  have scope := (fits.source binding thunk h.placed).1
  have room := ready.room ⟨own, hi⟩ first entered
  rw [region] at room
  constructor
  · exact ⟨(ready.enter ⟨own, hi⟩).newBlock, .nil⟩
  · show (Tree.sites thunk.nodes).Nodup
    rw [← region]
    exact fits.region_apart binding
  · intro here hr
    obtain rfl := List.mem_singleton.1 hr
    exact ⟨room.nested, room.around, room.inner⟩
  · show K.Visible _ s.store thunk.scope
    rw [scope]
    exact ready.visible ⟨own, hi⟩
  · exact .nil
  · show thunk.scope ≠ []
    rw [scope]
    exact List.cons_ne_nil _ _

end Moment.Fits

end NamespaceLang

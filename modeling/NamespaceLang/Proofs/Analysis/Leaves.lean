import NamespaceLang.Proofs.Analysis.Descent

/-!
# What every call leaves behind

A call that finds the sites before it free leaves a census behind in which the
namespaces that it has begun stand at those sites, or in bindings that it has
looked into. Nobody that its result gives access to stands anywhere else.
-/

set_option autoImplicit false

namespace NamespaceLang

theorem findOut_untouched {id : NamespaceId} {binding : Binding} {s : State}
    (first : (s.store.get id).findings.get? binding = none) (thunk : Thunk) (slot : Shape)
    (depth : Nat) (ctx : Context) :
    (findOut (analyzeWith (forceWithin depth)) thunk slot (ctx.inside id binding thunk.pos)
      s.inNewBlock).2.store.finding? (id, binding) = none := by
  have inner := Moment.minds ⟨depth, .expression thunk.scope slot thunk.pos thunk.nodes,
    ctx.inside id binding thunk.pos, s.inNewBlock⟩
  have worked : Keeps _ (fun _ => true) (ctx.inside id binding thunk.pos) s
      (workOut (analyzeWith (forceWithin depth)) thunk slot (ctx.inside id binding thunk.pos) s) :=
    .workOut inner
  exact (worked.untouched (id, binding) List.mem_cons_self).trans first

/-- Work in the block at hand alone. -/
structure Stays {α : Type} (K : Plans) (forcing : List Place) (s : State) (r : Outcome α × State) :
    Prop where
  store : r.2.store = s.store
  stands : Stands K forcing r.2

namespace Stays

variable {K : Plans} {forcing : List Place} {s : State}

theorem push (stands : Stands K forcing s) {op : Op} (pos : Position) (ctx : Context)
    (seen : K.Seen forcing s.store op.namespaces) :
    Stays K forcing s (Run.push op pos ctx s) := ⟨rfl, stands.pushed pos seen⟩

theorem materialize (stands : Stands K forcing s) {operand : Operand} (pos : Position)
    (ctx : Context) (seen : K.Seen forcing s.store operand.namespaces) :
    Stays K forcing s (Run.materialize operand pos ctx s) := by
  cases operand with
  | deferred ref =>
    unfold Run.materialize Block.materialize
    dsimp only
    by_cases own : ref.block = s.block.id
    · rw [if_pos own]
      exact ⟨rfl, stands⟩
    · rw [if_neg own]
      exact ⟨rfl, stands⟩
  | known value =>
    cases value with
    | void => exact push stands pos ctx .nil
    | key k => exact push stands pos ctx seen
    | ast t => exact push stands pos ctx .nil
    | _ => exact ⟨rfl, stands⟩

end Stays

theorem Grows.record {forcing : List Place} {here : List Site} {K later : Plans} {s after : Store}
    (g : Grows forcing here K s later after) (ds : List Diagnostic) :
    Grows forcing here K s later (after.record ds) :=
  ⟨g.learns.trans (.record _ _), g.keeps, g.placed⟩

theorem Stands.record {K : Plans} {forcing : List Place} {s : State} (h : Stands K forcing s)
    (ds : List Diagnostic) : Stands K forcing { s with store := s.store.record ds } :=
  ⟨h.ready.record ds, h.block⟩

namespace Leaves

variable {α : Type} {ids : α → List NamespaceId} {here : List Site} {K : Plans}
  {forcing : List Place} {s : State} {ctx : Context}

theorem deferred (stands : Stands K forcing s) (ctx : Context) {op : Op} (pos : Position)
    {shape : Shape} (seen : K.Seen forcing s.store op.namespaces)
    (seen' : K.Seen forcing s.store shape.namespaces) :
    Leaves Analysis.namespaces here K forcing s (Run.deferred op pos shape ctx s) :=
  ⟨K, .refl _ _ _ _, stands.pushed pos seen, fun _ h => by cases h; exact seen'⟩

theorem after {β : Type} {act : Run β} {next : β → Run α} (h : Stays K forcing s (act ctx s))
    (hn : ∀ b mid, act ctx s = (.done b, mid) → mid.store = s.store → Stands K forcing mid →
      Leaves ids here K forcing mid (next b ctx mid)) :
    Leaves ids here K forcing s ((act >>= next) ctx s) := by
  rw [Run.bind_apply]
  generalize act ctx s = r at h hn
  obtain ⟨store, stands⟩ := h
  rcases r with ⟨b | d | _, mid⟩
  · obtain ⟨later, grows, rest⟩ := hn b mid rfl store stands
    rw [show mid.store = s.store from store] at grows
    exact ⟨later, grows, rest⟩
  · exact ⟨K, by rw [store]; exact .refl _ _ _ _, stands, fun _ h => by cases h⟩
  · exact ⟨K, by rw [store]; exact .refl _ _ _ _, stands, fun _ h => by cases h⟩

theorem attempt {act : Run Unit} (h : Leaves (fun _ => []) here K forcing s (act ctx s)) :
    Leaves (fun _ => []) here K forcing s (Run.attempt act ctx s) := by
  rw [Run.attempt_eq_tell]
  generalize act ctx s = r at h
  obtain ⟨later, grows, stands, -⟩ := h
  rcases r with ⟨_ | d | _, after⟩
  · exact ⟨later, grows, stands, fun _ _ => .nil⟩
  · exact ⟨later, grows.record [d], stands.record [d], fun _ _ => .nil⟩
  · exact ⟨later, grows, stands, fun _ _ => .nil⟩

theorem evaluate (stands : Stands K forcing s) (ctx : Context) :
    Leaves (fun results => (results.values.toList.flatMap Value.namespaces)) here K forcing s
      (Run.evaluate ctx s) := by
  have told : ∃ ds, (Run.evaluate ctx s).2 = { s with store := s.store.record ds } := by
    unfold Run.evaluate
    rcases s.block.evaluate with ⟨found, d | results⟩
    · exact ⟨_, rfl⟩
    · exact ⟨_, rfl⟩
  obtain ⟨ds, after⟩ := told
  refine ⟨K, ?_, ?_, fun results done => ?_⟩
  · rw [after]
    exact (Grows.refl _ _ _ _).record ds
  · rw [after]
    exact stands.record ds
  · rw [after]
    have stems := (Run.evaluate_done (Prod.ext done rfl)).1
    refine stands.block.mono fun n hn => ?_
    obtain ⟨value, hv, hn⟩ := List.mem_flatMap.1 hn
    obtain ⟨i, there⟩ := List.mem_iff_getElem?.1 hv
    exact stems.namespaces i value (by rwa [Array.getElem?_toList] at there) hn

theorem findOut {analyze : Scope → Shape → Position → List Tree → Run Analysis} {thunk : Thunk}
    {slot : Shape} (stands : Stands K forcing s)
    (h : Leaves Analysis.namespaces here K forcing s
      (analyze thunk.scope slot thunk.pos thunk.nodes ctx s)) :
    Leaves Forced.namespaces here K forcing s (NamespaceLang.findOut analyze thunk slot ctx s) := by
  unfold NamespaceLang.findOut
  refine .bind h stands.ready (List.Subset.refl _) fun found mid later _ _ stands seen => ?_
  have nowhere : later.Free [] := fun _ _ _ home => by cases home
  refine .bind (.evaluate stands ctx) stands.ready (List.nil_subset _)
    fun results _ _ _ grows ended known => ?_
  have seen := grows.seen stands.ready ended.ready.census nowhere seen
  cases resolved : results.resolve thunk.pos found.value with
  | error d => exact .failed ended _
  | ok value =>
    refine .done ended (.append (fun n hn => ?_) (seen.mono (List.subset_append_right _ _)))
    unfold Results.resolve at resolved
    split at resolved
    · next own =>
      cases resolved
      refine seen n (List.mem_append_left _ ?_)
      rw [own]
      exact hn
    · split at resolved
      · next there =>
        cases resolved
        refine known n (List.mem_flatMap.2 ⟨value, ?_, hn⟩)
        have place := Results.get?_some there
        rw [← Array.getElem?_toList] at place
        exact List.mem_of_getElem? place
      · cases resolved

theorem fieldsOf (stands : Stands K forcing s) (ctx : Context) (pos : Position) (list : InstrRef) :
    Leaves (fun _ => []) here K forcing s (NamespaceLang.fieldsOf pos list ctx s) := by
  unfold NamespaceLang.fieldsOf
  refine .bind (.evaluate stands ctx) stands.ready (List.nil_subset _)
    fun results _ _ _ _ ended _ => ?_
  cases results.aggregate pos list with
  | ok registry => exact .done ended .nil
  | error d => exact .failed ended _

section

variable {p : Place} {later : Plans} {after : State} (stands : Stands K forcing s)
  (given : K.Seen forcing s.store [p.1]) (first : s.store.finding? p = none) (entered : p ∉ forcing)
  (g : Grows (p :: forcing) (s.store.region p) K s.store later after.store)
  (ended : Ready later (p :: forcing) after.store) (unknown : after.store.finding? p = none)

include stands given first entered g ended unknown

theorem found {found : Forced} (seen : later.Seen (p :: forcing) after.store found.namespaces) :
    Leaves Forced.namespaces [] K forcing s
      (.done found, ⟨after.store.keep p.1 p.2 found, s.block⟩) := by
  have known := (given p.1 List.mem_cons_self).1
  have outer := g.leave known first entered
  have kept := ended.keep unknown seen
  have nowhere : K.Free [] := fun _ _ _ home => by cases home
  have grows : Grows forcing [] K s.store later (after.store.keep p.1 p.2 found) :=
    ⟨outer.learns.trans (.keep _ unknown found), outer.keeps, outer.placed⟩
  refine ⟨later, grows, ⟨kept, ?_⟩, fun _ h => ?_⟩
  · exact grows.seen stands.ready kept.census nowhere stands.block
  · cases h
    have there := grows.seen stands.ready kept.census nowhere given
    exact kept.seen there (Store.finding?_keep (ended.census.begun (outer.knows known)) found)

theorem lost {o : Outcome Forced} (nothing : ∀ found, o ≠ .done found) :
    Leaves Forced.namespaces [] K forcing s (o, ⟨after.store, s.block⟩) := by
  have known := (given p.1 List.mem_cons_self).1
  have ready := stands.ready
  have free : K.Free (s.store.region p) := fun i own hi home =>
    ready.clean p first entered i ⟨known, own, hi, home⟩
  have nowhere : K.Free [] := fun _ _ _ home => by cases home
  have dropped := ended.drop unknown fun q hq inside => by
    have before := g.inside_before (ready.enter known) ended.census free (ready.entered q hq) inside
    exact ready.clean p first entered q.1 before
  have left : K.Free (after.store.region p) := by
    rwa [g.learns.region (ready.census.begun known)]
  have grows := (g.leave known first entered).without left
  refine ⟨_, grows, ⟨dropped, ?_⟩, fun found h => absurd h (nothing found)⟩
  exact grows.seen ready dropped.census nowhere stands.block

end

end Leaves

namespace Ends

open Moment (Fits)

variable {depth : Nat} {ctx : Context} {s : State} {K : Plans} {scope : Scope} {slot : Shape}
  {pos : Position}

theorem expression {nodes : List Tree}
    (fits : Fits K ⟨depth, .expression scope slot pos nodes, ctx, s⟩)
    (ih : ∀ next K, Leads ⟨depth, .expression scope slot pos nodes, ctx, s⟩ next → next.Fits K →
      next.Ends K) :
    Moment.Ends K ⟨depth, .expression scope slot pos nodes, ctx, s⟩ := by
  have stands := fits.stands
  show Leaves Analysis.namespaces (Tree.sites nodes) K ctx.forcing s
    (analyzeWith (forceWithin depth) scope slot pos nodes ctx s)
  by_cases kept : slot = .ast
  · subst kept
    rw [analyzeWith.eq_def]
    exact .deferred stands ctx pos .nil .nil
  · rw [analyzeWith_of_ne_ast _ _ kept]
    unfold analyzeHeadWith
    cases head : literal? (Tree.solid nodes) with
    | some l =>
      dsimp only
      have sub := (Fits.literal_sites head fits.placed).subset
      refine .bind (ih _ K (.literal kept head) (fits.literal head)) stands.ready
        (List.Subset.trans (List.subset_append_left _ _) sub) fun id mid later before grows stands seen => ?_
      have next := fits.afterLiteral head grows stands seen
      exact (ih _ later (.afterLiteral kept head before) next).mono
        (List.Subset.trans (List.subset_append_right _ _) sub)
    | none =>
      dsimp only
      cases items : Tree.solid nodes with
      | nil => exact .failed stands _
      | cons first rest =>
        dsimp only
        have sub := (Fits.items_sites items).subset
        refine .bind (ih _ K (.base kept head items) (fits.base items)) stands.ready
          (List.Subset.trans (List.subset_append_left _ _) sub) fun base mid later before grows stands seen => ?_
        have next := fits.afterBase items grows stands seen
        exact (ih _ later (.afterBase kept head items before) next).mono
          (List.Subset.trans (List.subset_append_right _ _) sub)

theorem base {node : Tree} (fits : Fits K ⟨depth, .base scope slot node, ctx, s⟩)
    (ih : ∀ next K, Leads ⟨depth, .base scope slot node, ctx, s⟩ next → next.Fits K →
      next.Ends K) : Moment.Ends K ⟨depth, .base scope slot node, ctx, s⟩ := by
  have stands := fits.stands
  show Leaves Analysis.namespaces (Tree.sites [node]) K ctx.forcing s
    (analyzeBaseWith (forceWithin depth) scope slot node ctx s)
  rw [analyzeBaseWith.eq_def]
  split
  · next pos leaf =>
    unfold analyzeLeafWith
    split
    · split
      · exact .after (.push stands pos ctx .nil) fun _ _ _ _ stands => .done stands .nil
      · exact .failed stands _
    · split
      · exact .deferred stands ctx pos .nil .nil
      · exact .failed stands _
    · exact (ih _ K .name fits.name).mono (List.nil_subset _)
    · exact .failed stands _
    · exact .failed stands _
  · exact (ih _ K .code fits.code).mono (Fits.group_sites _ _ _).subset
  · next pos opening closing items =>
    cases Pattern.read pos items with
    | ok pattern => exact .failed stands _
    | error d => exact .failed stands _
  · exact .failed stands _

theorem suffixes {left : Analysis} {nodes : List Tree}
    (fits : Fits K ⟨depth, .suffixes scope left nodes, ctx, s⟩)
    (ih : ∀ next K, Leads ⟨depth, .suffixes scope left nodes, ctx, s⟩ next → next.Fits K →
      next.Ends K) : Moment.Ends K ⟨depth, .suffixes scope left nodes, ctx, s⟩ := by
  have stands := fits.stands
  show Leaves Analysis.namespaces (Tree.sites nodes) K ctx.forcing s
    (analyzeSuffixesWith (forceWithin depth) scope left nodes ctx s)
  cases nodes with
  | nil =>
    rw [analyzeSuffixesWith.eq_def]
    exact .done stands fits.given
  | cons node rest =>
    rw [analyzeSuffixesWith_cons]
    have sub := (Fits.cons_sites node rest).subset
    refine .bind (ih _ K .suffix fits.suffix) stands.ready
      (List.Subset.trans (List.subset_append_left _ _) sub) fun next mid later before grows stands seen => ?_
    exact (ih _ later (.afterSuffix before) (fits.afterSuffix grows stands seen)).mono
      (List.Subset.trans (List.subset_append_right _ _) sub)

theorem access {left : Analysis} {sigil : Sigil} {name : String}
    (named : sigil = .plain ∨ sigil = .access)
    (fits : Fits K ⟨depth, .suffix scope left (.leaf pos (.identifier sigil name)), ctx, s⟩)
    (ih : ∀ next K, Leads ⟨depth, .suffix scope left (.leaf pos (.identifier sigil name)), ctx, s⟩
      next → next.Fits K → next.Ends K) :
    Moment.Ends K ⟨depth, .suffix scope left (.leaf pos (.identifier sigil name)), ctx, s⟩ := by
  have stands := fits.stands
  have reads : (Task.suffix scope left (.leaf pos (.identifier sigil name))).run
      (forceWithin depth) = accessWith (forceWithin depth) left pos name := by
    obtain rfl | rfl := named <;> rfl
  show Leaves Analysis.namespaces [] K ctx.forcing s
    ((Task.suffix scope left (.leaf pos (.identifier sigil name))).run (forceWithin depth) ctx s)
  rw [reads]
  unfold accessWith
  cases shape : left.shape with
  | namespaceOf target =>
    show Leaves Analysis.namespaces [] K ctx.forcing s
      (readStringWith (forceWithin depth) target pos name (ctx.holding left.namespaces) s)
    cases target with
    | builtin =>
      unfold readStringWith
      cases Builtin.ofName? name with
      | none => exact .failed stands _
      | some builtin =>
        cases builtin with
        | main => exact .deferred stands _ pos .nil .nil
    | declared id =>
      show Leaves _ _ K ctx.forcing s
        ((if (s.store.get id).fields?.isSome then _ else _ : Run Analysis) _ s)
      by_cases closed : (s.store.get id).fields?.isSome
      · rw [if_pos closed]
        have read : Leaves (fun found? : Option Analysis => (found?.map (·.namespaces)).getD []) [] K
            ctx.forcing s (readFieldWith? (forceWithin depth) id (.string name) .unknown
              (ctx.holding left.namespaces) s) := by
          rw [readFieldWith?_apply]
          cases there : (s.store.get id).field? (.string name) with
          | none => exact .done stands .nil
          | some entry =>
            have leads : accessed? s.store left name = some (id, entry) := by
              simp [accessed?, shape, there]
            exact .bind (ih _ K (.access named leads) (fits.access leads)) stands.ready
              (List.nil_subset _) fun _ _ _ _ _ stands seen => .done stands seen
        refine .bind read stands.ready (List.nil_subset _) fun found? mid later _ _ stands seen => ?_
        cases found? with
        | some found => exact .done stands seen
        | none => exact .failed stands _
      · rw [if_neg closed]
        exact .failed stands _
  | _ => exact .failed stands _

theorem argument {left : Analysis} {opening closing : String} {items : List Tree}
    (fits : Fits K ⟨depth, .suffix scope left (.group pos (.block .code opening closing) items), ctx, s⟩)
    (ih : ∀ next K, Leads ⟨depth, .suffix scope left (.group pos (.block .code opening closing) items),
      ctx, s⟩ next → next.Fits K → next.Ends K) :
    Moment.Ends K ⟨depth, .suffix scope left (.group pos (.block .code opening closing) items), ctx, s⟩ := by
  have stands := fits.stands
  show Leaves Analysis.namespaces (Tree.sites [.group pos (.block .code opening closing) items]) K
    ctx.forcing s (call pos left (argumentWith (forceWithin depth) scope pos items) ctx s)
  unfold call
  cases called : left.shape with
  | function slot ret =>
    have sub := (Fits.group_sites pos (.block .code opening closing) items).subset
    have given : Leaves Analysis.namespaces (Tree.sites items) K ctx.forcing s
        (argumentWith (forceWithin depth) scope pos items slot (ctx.holding left.namespaces) s) := by
      rcases given_or_nothing slot items with given | ⟨rfl, nothing⟩
      · rw [argumentWith_given _ _ pos given]
        exact ih _ K (.argument called given) fits.argument
      · rw [argumentWith_nothing _ _ pos nothing]
        exact .deferred stands _ pos .nil .nil
    have free : K.Free (Tree.sites items) := fun i own hi home => fits.free i own hi (sub home)
    refine .bind given stands.ready sub fun found mid later _ grows stands' seen => ?_
    have own : later.Seen ctx.forcing mid.store left.namespaces :=
      grows.seen stands.ready stands'.ready.census free fits.given
    rw [Analysis.namespaces, called] at own
    refine .after (.materialize stands' pos ctx (own.mono (List.subset_append_left _ _)))
      fun _ mid _ store stands' => ?_
    rw [← store] at own seen
    refine .after (.materialize stands' pos ctx (seen.mono (List.subset_append_left _ _)))
      fun _ mid _ store stands' => ?_
    rw [← store] at own
    refine .deferred stands' ctx pos .nil (own.mono fun _ hm => List.mem_append_right _ ?_)
    exact List.mem_append_right _ hm
  | _ => exact .failed stands _

theorem suffix {left : Analysis} {node : Tree}
    (fits : Fits K ⟨depth, .suffix scope left node, ctx, s⟩)
    (ih : ∀ next K, Leads ⟨depth, .suffix scope left node, ctx, s⟩ next → next.Fits K →
      next.Ends K) : Moment.Ends K ⟨depth, .suffix scope left node, ctx, s⟩ := by
  have stands := fits.stands
  cases node with
  | leaf pos content =>
    cases content with
    | identifier sigil name =>
      cases sigil with
      | plain => exact access (Or.inl rfl) fits ih
      | access => exact access (Or.inr rfl) fits ih
      | builtin => exact Leaves.failed stands _
    | bare tag spelling =>
      cases tag with
      | access => exact Leaves.done stands fits.given
      | _ => exact Leaves.failed stands _
    | _ => exact Leaves.failed stands _
  | group pos form items =>
    cases form with
    | block tag opening closing =>
      cases tag with
      | code => exact argument fits ih
      | _ => exact Leaves.failed stands _
    | _ => exact Leaves.failed stands _

theorem lines {list : InstrRef} {rest : List Line}
    (fits : Fits K ⟨depth, .lines scope list rest, ctx, s⟩)
    (ih : ∀ next K, Leads ⟨depth, .lines scope list rest, ctx, s⟩ next → next.Fits K →
      next.Ends K) : Moment.Ends K ⟨depth, .lines scope list rest, ctx, s⟩ := by
  have stands := fits.stands
  show Leaves (fun _ => []) (rest.flatMap (·.part.read)) K ctx.forcing s
    (declareLinesWith (forceWithin depth) scope list rest ctx s)
  rw [declareLinesWith.eq_def]
  cases rest with
  | nil => exact .done stands .nil
  | cons line rest =>
    refine .bind (.attempt (ih _ K .line fits.line)) stands.ready (List.subset_append_left _ _)
      fun _ mid later before grows stands _ => ?_
    exact (ih _ later (.afterLine before) (fits.afterLine grows stands)).mono
      (List.subset_append_right _ _)

theorem line {list : InstrRef} {line : Line} (fits : Fits K ⟨depth, .line scope list line, ctx, s⟩)
    (ih : ∀ next K, Leads ⟨depth, .line scope list line, ctx, s⟩ next → next.Fits K →
      next.Ends K) : Moment.Ends K ⟨depth, .line scope list line, ctx, s⟩ := by
  have stands := fits.stands
  show Leaves (fun _ => []) line.part.read K ctx.forcing s
    (declareLineWith (forceWithin depth) scope list line ctx s)
  rw [declareLineWith_apply]
  cases read : twoSided? ChainTag.bindsField line.pos line.items with
  | error d => exact .failed stands _
  | ok sides? =>
    cases sides? with
    | none =>
      have same : Tree.sites line.items ⊆ line.part.read := by
        rw [Line.part, read]
        exact List.Subset.refl _
      exact .bind (ih _ K (.whole read) (fits.whole read)) stands.ready same
        fun _ _ _ _ _ stands _ => .done stands .nil
    | some sides =>
      have same : Tree.sites sides.leftItems ⊆ line.part.read := by
        rw [Line.part, read]
        exact List.Subset.refl _
      refine .bind (ih _ K (.key read) (fits.key read)) stands.ready same
        fun key mid later _ _ stands seen => ?_
      have declares : Leaves (fun _ => []) line.part.read later ctx.forcing mid
          (declareField scope list sides key ctx mid) := by
        refine .after (.materialize stands _ ctx (seen.mono (List.subset_append_left _ _)))
          fun _ mid _ _ stands => ?_
        refine .after (⟨rfl, stands.pushed _ .nil⟩ : Stays later ctx.forcing mid
          (capture scope sides.right.pos sides.rightItems ctx mid)) fun body _ captured _ stands => ?_
        cases captured
        refine .after (.materialize stands _ ctx .nil) fun _ _ _ _ stands => ?_
        exact .after (.push stands _ ctx .nil) fun _ _ _ _ stands => .done stands .nil
      unfold declareUnder
      cases key.shape with
      | stringKey name => exact declares
      | symbolKey builtin child => exact declares
      | _ => exact .failed stands _

theorem resolve {name : String} (fits : Fits K ⟨depth, .resolve scope slot pos name, ctx, s⟩)
    (ih : ∀ next K, Leads ⟨depth, .resolve scope slot pos name, ctx, s⟩ next → next.Fits K →
      next.Ends K) : Moment.Ends K ⟨depth, .resolve scope slot pos name, ctx, s⟩ := by
  have stands := fits.stands
  show Leaves Analysis.namespaces [] K ctx.forcing s
    (resolveWith (forceWithin depth) pos name slot scope ctx s)
  rw [resolveWith_apply]
  cases way : s.store.reach ctx.held name scope with
  | binding id binding =>
    unfold useReached
    dsimp only
    cases source : s.store.source? id binding with
    | some thunk =>
      exact .bind (ih _ K (.reached way source) (fits.reached way source)) stands.ready
        (List.nil_subset _) fun _ _ _ _ _ stands seen => .done stands seen
    | none => exact .failed stands _
  | _ => exact .failed stands _

/-- A binding that was looked into is known from then on. If that has failed, nobody can come to
those that have begun in its source. -/
theorem force {id : NamespaceId} {binding : Binding} {thunk : Thunk}
    (fits : Fits K ⟨depth, .force id binding thunk slot, ctx, s⟩)
    (ih : ∀ next K, Leads ⟨depth, .force id binding thunk slot, ctx, s⟩ next → next.Fits K →
      next.Ends K) : Moment.Ends K ⟨depth, .force id binding thunk slot, ctx, s⟩ := by
  have stands := fits.stands
  have ready := stands.ready
  cases depth with
  | zero => exact ⟨K, .refl _ _ _ _, stands, fun _ h => by cases h⟩
  | succ depth =>
    show Leaves Forced.namespaces [] K ctx.forcing s
      (forceBy (analyzeWith (forceWithin depth)) id binding thunk slot ctx s)
    rw [forceBy_apply]
    cases first : (s.store.get id).findings.get? binding with
    | some found => exact .done stands (ready.seen (p := (id, binding)) fits.given first)
    | none =>
      dsimp only
      by_cases entered : (id, binding) ∈ ctx.forcing
      · rw [if_pos entered]
        exact .failed stands _
      · rw [if_neg entered]
        have inner := fits.source first entered
        have source : Leaves Forced.namespaces (Tree.sites thunk.nodes) K
            ((id, binding) :: ctx.forcing) s.inNewBlock (findOut (analyzeWith (forceWithin depth))
              thunk slot (ctx.inside id binding thunk.pos) s.inNewBlock) :=
          .findOut inner.stands (ih _ K (.source first entered) inner)
        rw [← Store.region_of_source (p := (id, binding)) fits.placed] at source
        obtain ⟨later, grows, ended, seen⟩ := source
        have g : Grows ((id, binding) :: ctx.forcing) (s.store.region (id, binding)) K s.store later
            _ := ⟨(Store.Learns.newBlock s.store).trans grows.learns, grows.keeps, grows.placed⟩
        have given : K.Seen ctx.forcing s.store [((id, binding) : Place).1] := fits.given
        have unknown := findOut_untouched first thunk slot depth ctx
        rw [Run.bind_apply, workOut_apply]
        generalize findOut (analyzeWith (forceWithin depth)) thunk slot
          (ctx.inside id binding thunk.pos) s.inNewBlock = r at g ended seen unknown
        rcases r with ⟨found | d | _, after⟩
        · exact .found stands given first entered g ended.ready unknown (seen found rfl)
        · exact .lost stands given first entered g ended.ready unknown fun _ h => by cases h
        · exact .lost stands given first entered g ended.ready unknown fun _ h => by cases h

theorem quiet {outer : Scope} {nodes : List Tree} {body : Body} {found : List Diagnostic}
    {parts : List DefinitionLine} {later : Plans} {after : Store}
    (fits : Fits K ⟨depth, .body outer pos nodes, ctx, s⟩)
    (comes : body.ReadFrom parts (Tree.sites nodes))
    (g : Grows ctx.forcing (body.lines.flatMap (·.part.read))
      (K.enter s.store.size (body.plan (Task.bodySite outer pos) parts))
      (s.declaring ctx outer pos body found).store later after)
    {line : Line} (hl : line ∈ body.lines) : later.Free line.part.kept := by
  have apart := comes.plan_apart fits.apart
  have part : line.part ∈ (body.plan (Task.bodySite outer pos) parts).parts :=
    List.mem_append_right _ (List.mem_map_of_mem hl)
  have here : line.part.kept ⊆ Task.bodySite outer pos :: Tree.sites nodes :=
    List.Subset.trans (List.Subset.trans line.part.kept_subset (Plan.part_subset part))
      (comes.plan_subset _)
  have ready := fits.stands.ready
  intro i own hi home
  rcases g.placed i own hi with old | read | ⟨⟨j, b⟩, ⟨other, hq⟩, unknown, unentered, sub⟩
  · rcases Plans.eq_some_of_enter old with ⟨-, rfl⟩ | old
    · exact Plan.home_not_mem apart (List.mem_flatMap.2 ⟨_, part, by simp [Part.rooms]⟩) home
    · exact fits.free i own old (here home)
  · exact Body.kept_not_read apart hl home (read List.mem_cons_self)
  · have there := sub List.mem_cons_self
    rcases Plans.eq_some_of_enter hq with ⟨new, -⟩ | old
    · dsimp only at new
      subst new
      exact comes.kept_not_defined fits.apart hl home (s.store.record _) pos outer b there
    · -- the work would go on within a binding that nobody looks into
      have known : K.Knows j := ⟨other, old⟩
      have learns := (fits.lines found comes).1.learns
      rw [learns.region (ready.census.begun known)] at there
      have before : s.store.finding? (j, b) = none := by
        by_contra ended
        exact learns.finding? (ready.census.begun known) ended unknown
      have room := fits.rooms _ (List.mem_singleton_self _)
      exact ready.not_around before unentered (room.around (j, b) known _ (here home) there)

theorem finished {outer : Scope} {nodes : List Tree} {body : Body} {found : List Diagnostic}
    {parts : List DefinitionLine} {later : Plans} {after : State} {registry : Registry}
    (fits : Fits K ⟨depth, .body outer pos nodes, ctx, s⟩)
    (comes : body.ReadFrom parts (Tree.sites nodes))
    (g : Grows ctx.forcing (body.lines.flatMap (·.part.read))
      (K.enter s.store.size (body.plan (Task.bodySite outer pos) parts))
      (s.declaring ctx outer pos body found).store later after.store)
    (ended : Ready later ctx.forcing after.store)
    (fields : registry.fields.Sublist
      (body.lines.filterMap (Line.field? (s.store.namespaces.size :: outer)))) :
    Leaves (fun id => [id]) (Task.bodySite outer pos :: Tree.sites nodes) K ctx.forcing s
      (.done s.store.size, ⟨after.store.finish s.store.size registry, s.block⟩) := by
  have stands := fits.stands
  obtain ⟨began, inner⟩ := fits.lines found comes
  have whole := began.trans stands.ready inner.stands.ready.census (g.mono (comes.reads_subset _))
  have own := g.learns.each s.store.size (inner.stands.ready.census.begun ⟨_, K.enter_self _ _⟩)
  have hid := g.keeps _ _ (K.enter_self s.store.size (body.plan (Task.bodySite outer pos) parts))
  rw [State.declaring_get] at own
  have fit := Body.fields_fit (comes.plan_apart fits.apart) comes.definitions fields own.definitions
    (by rw [Store.scopeOf, own.outer]; rfl)
  have free : ∀ entry ∈ registry.entries, later.Free (Tree.sites entry.thunk.nodes) := by
    intro entry he
    obtain ⟨line, hl, -, kept, -⟩ := Body.line_of_entry fields he
    rw [← kept]
    exact quiet fits comes g hl
  have grows : Grows ctx.forcing (Task.bodySite outer pos :: Tree.sites nodes) K s.store later
      (after.store.finish s.store.size registry) :=
    ⟨whole.learns.finish (Nat.le_refl _) registry, whole.keeps, whole.placed⟩
  refine ⟨later, grows, ⟨ended.finish hid own.fields free fit, ?_⟩, fun _ h => ?_⟩
  · have block := whole.seen stands.ready ended.census fits.free stands.block
    exact block.finish ended hid own.fields free
  · cases h
    have visible := g.visible inner.stands.ready ended.census inner.free inner.visible
    have there : later.Seen ctx.forcing after.store [s.store.size] :=
      visible.seen.mono (List.cons_subset.2 ⟨List.mem_cons_self, List.nil_subset _⟩)
    exact there.finish ended hid own.fields free

theorem body {outer : Scope} {nodes : List Tree}
    (fits : Fits K ⟨depth, .body outer pos nodes, ctx, s⟩)
    (ih : ∀ next K, Leads ⟨depth, .body outer pos nodes, ctx, s⟩ next → next.Fits K →
      next.Ends K) : Moment.Ends K ⟨depth, .body outer pos nodes, ctx, s⟩ := by
  have stands := fits.stands
  show Leaves (fun id => [id]) (Task.bodySite outer pos :: Tree.sites nodes) K ctx.forcing s
    (declareWith (forceWithin depth) outer pos nodes ctx s)
  rw [declareWith_apply]
  cases read : Body.read pos nodes with
  | error d => exact .failed stands _
  | ok found =>
    obtain ⟨body, found⟩ := found
    dsimp only
    obtain ⟨parts, comes⟩ := Body.read_readFrom read
    obtain ⟨began, inner⟩ := fits.lines found comes
    have lines : Leaves (fun _ => []) (body.lines.flatMap (·.part.read)) _ ctx.forcing
        (s.declaring ctx outer pos body found) ((do
          declareLinesWith (forceWithin depth) (s.store.namespaces.size :: outer) s.fieldList
            body.lines
          fieldsOf pos s.fieldList) (ctx.holding [s.store.namespaces.size])
            (s.declaring ctx outer pos body found)) :=
      .bind (ih _ _ (.lines read) inner) inner.stands.ready (List.Subset.refl _)
        fun _ mid later _ _ stands _ => .fieldsOf stands _ pos s.fieldList
    obtain ⟨later, g, ended, -⟩ := lines
    generalize worked : (do
      declareLinesWith (forceWithin depth) (s.store.namespaces.size :: outer) s.fieldList body.lines
      fieldsOf pos s.fieldList : Run Registry) (ctx.holding [s.store.namespaces.size])
        (s.declaring ctx outer pos body found) = r at g ended
    have whole := began.trans stands.ready inner.stands.ready.census (g.mono (comes.reads_subset _))
    have left : Stands later ctx.forcing { r.2 with block := s.block } :=
      ⟨ended.ready, whole.seen stands.ready ended.ready.census fits.free stands.block⟩
    rcases r with ⟨registry | d | _, after⟩
    · exact finished fits comes g ended.ready (declared_fields worked)
    · exact ⟨later, whole, left, fun _ h => by cases h⟩
    · exact ⟨later, whole, left, fun _ h => by cases h⟩

end Ends

theorem Moment.ends (m : Moment) : ∀ K, m.Fits K → m.Ends K := by
  induction m using Moment.induction with
  | step m ih =>
    intro K fits
    have ih : ∀ next K, Leads m next → next.Fits K → next.Ends K := fun next K h => ih next h K
    obtain ⟨depth, task, ctx, s⟩ := m
    cases task with
    | expression => exact Ends.expression fits ih
    | base => exact Ends.base fits ih
    | suffixes => exact Ends.suffixes fits ih
    | suffix => exact Ends.suffix fits ih
    | body => exact Ends.body fits ih
    | lines => exact Ends.lines fits ih
    | line => exact Ends.line fits ih
    | resolve => exact Ends.resolve fits ih
    | force => exact Ends.force fits ih

end NamespaceLang

import NamespaceLang.Proofs.Analysis.Shapes
import NamespaceLang.Proofs.Store.Dues

/-!
# What every call spends

A call that is given namespaces which nothing leads out of comes to know no others
but those that are begun on its behalf, and what is owed in all of them after it is
no more than what was owed before, with the worth of the nodes that the call has.
About namespaces that it is given nothing of, it changes nothing for the worse. So
what is begun and then lost again, as it is where a call fails, costs nobody
anything.
-/

set_option autoImplicit false

namespace NamespaceLang

open NamespaceLang.Tree

/-- What work that begins in `s` spends while the bindings of `entered` are being looked into: it
may be `given` namespaces, and has nodes of some worth before it, which are arranged if `whole`. -/
structure Spends {α : Type} (entered : List Place) (given : List NamespaceId) (charge : Nat)
    (whole : Prop) (gives : α → List NamespaceId) (s : State) (r : Outcome α × State) : Prop where
  size : s.store.size ≤ r.2.store.size
  told : s.store.diagnostics <+: r.2.store.diagnostics
  apart : ∀ C, s.store.Encloses C → ∃ D, s.store.Spreads C r.2.store D ∧
    r.2.store.owed entered D ≤ s.store.owed entered C
  inside : ∀ C, s.store.Encloses C → (∀ id ∈ given, id ∈ C) → ∀ a, r.1 = .done a →
    ∃ D, s.store.Spreads C r.2.store D ∧
      r.2.store.owed entered D ≤ s.store.owed entered C + charge ∧ ∀ id ∈ gives a, id ∈ D
  tame : s.store.Tame → whole → Begun s.store.size given →
    r.2.store.Tame ∧ ∀ a, r.1 = .done a → Begun r.2.store.size (gives a)

namespace Spends

variable {α β : Type} {entered : List Place} {given : List NamespaceId} {charge : Nat}
  {whole : Prop} {gives : α → List NamespaceId} {ctx : Context} {s : State}

theorem known {o : Outcome α} {after : State} (size : after.store.size = s.store.size)
    (get : after.store.get = s.store.get) (told : s.store.diagnostics <+: after.store.diagnostics)
    (hg : ∀ a, o = .done a → ∀ id ∈ gives a,
      id ∈ given ∨ ∃ own ∈ given, id ∈ (s.store.get own).keeps) :
    Spends entered given charge whole gives s (o, after) where
  size := Nat.le_of_eq size.symm
  told := told
  apart C hC := ⟨C, .congr hC size get, Nat.le_of_eq (Store.owed_congr get)⟩
  inside C hC inside a ha := by
    refine ⟨C, .congr hC size get, ?_, fun id hid => ?_⟩
    · rw [Store.owed_congr get]
      exact Nat.le_add_right _ _
    · rcases hg a ha id hid with hid | ⟨own, ho, hid⟩
      · exact inside id hid
      · exact hC.kept own (inside own ho) id hid
  tame tame _ begun := by
    refine ⟨tame.congr size get, fun a ha id hid => ?_⟩
    rw [size]
    rcases hg a ha id hid with hid | ⟨own, ho, hid⟩
    · exact begun id hid
    · exact Finset.mem_range.1 (tame.encloses.kept own (Finset.mem_range.2 (begun own ho)) id hid)

theorem still {o : Outcome α} {after : State} (same : after.store = s.store)
    (hg : ∀ a, o = .done a → ∀ id ∈ gives a, id ∈ given) :
    Spends entered given charge whole gives s (o, after) :=
  known (by rw [same]) (by rw [same]) (by rw [same]) fun a ha id hid => Or.inl (hg a ha id hid)

/-- Work that gives nothing is judged by what it leaves. -/
theorem fruitless {r : Outcome α × State} (nothing : ∀ a, r.1 ≠ .done a)
    (size : s.store.size ≤ r.2.store.size) (told : s.store.diagnostics <+: r.2.store.diagnostics)
    (apart : ∀ C, s.store.Encloses C → ∃ D, s.store.Spreads C r.2.store D ∧
      r.2.store.owed entered D ≤ s.store.owed entered C)
    (tame : s.store.Tame → whole → Begun s.store.size given → r.2.store.Tame) :
    Spends entered given charge whole gives s r where
  size := size
  told := told
  apart := apart
  inside _ _ _ a ha := absurd ha (nothing a)
  tame ht all begun := ⟨tame ht all begun, fun a ha => absurd ha (nothing a)⟩

theorem done {a : α} (hg : ∀ id ∈ gives a, id ∈ given) :
    Spends entered given charge whole gives s (.done a, s) :=
  still rfl fun _ e => by cases e; exact hg

theorem fail (d : Diagnostic) :
    Spends entered given charge whole gives s ((Run.fail d : Run α) ctx s) :=
  still rfl fun _ e => by cases e

theorem ofExcept (found : Except Diagnostic α) :
    Spends entered given charge whole (fun _ => []) s (Run.ofExcept found ctx s) := by
  cases found with
  | ok a => exact done (by simp)
  | error d => exact fail d

theorem push (op : Op) (pos : Position) :
    Spends entered given charge whole (fun _ => []) s (Run.push op pos ctx s) :=
  still rfl fun _ _ => by simp

theorem materialize (operand : Operand) (pos : Position) :
    Spends entered given charge whole (fun _ => []) s (Run.materialize operand pos ctx s) := by
  unfold Run.materialize
  split <;> exact still rfl (by simp)

theorem evaluate : Spends entered given charge whole (fun _ => []) s (Run.evaluate ctx s) := by
  have left := Run.evaluate_leaves ctx s
  rcases hr : Run.evaluate ctx s with ⟨o, after⟩
  rw [hr] at left
  dsimp only at left
  subst left
  exact known rfl rfl (List.prefix_append _ _) (by simp)

theorem deferred (op : Op) (pos : Position) {shape : Shape}
    (hs : ∀ id ∈ shape.namespaces, id ∈ given) :
    Spends entered given charge whole Analysis.namespaces s (Run.deferred op pos shape ctx s) :=
  still rfl fun a e => by
    cases e
    exact hs

theorem mono {less : List NamespaceId} {cheaper : Nat} {weaker : Prop} {more : α → List NamespaceId}
    {r : Outcome α × State} (h : Spends entered less cheaper weaker more s r)
    (hgiven : ∀ id ∈ less, id ∈ given) (hc : cheaper ≤ charge) (hw : whole → weaker)
    (hg : ∀ a, ∀ id ∈ gives a, id ∈ more a ∨ id ∈ given) :
    Spends entered given charge whole gives s r where
  size := h.size
  told := h.told
  apart := h.apart
  inside C hC inside a ha := by
    obtain ⟨D, spreads, cost, got⟩ := h.inside C hC (fun id hid => inside id (hgiven id hid)) a ha
    refine ⟨D, spreads, Nat.le_trans cost (Nat.add_le_add_left hc _), fun id hid => ?_⟩
    exact (hg a id hid).elim (got id) fun hid => spreads.sub (inside id hid)
  tame tame all begun := by
    obtain ⟨tame, got⟩ := h.tame tame (hw all) fun id hid => begun id (hgiven id hid)
    refine ⟨tame, fun a ha id hid => ?_⟩
    exact (hg a id hid).elim (got a ha id) fun hid => Nat.lt_of_lt_of_le (begun id hid) h.size

theorem bind {first : β → List NamespaceId} {one rest : Nat} {act : Run β} {next : β → Run α}
    (h : Spends entered given one whole first s (act ctx s))
    (hn : ∀ b mid, act ctx s = (.done b, mid) →
      Spends entered (given ++ first b) rest whole gives mid (next b ctx mid)) :
    Spends entered given (one + rest) whole gives s ((act >>= next) ctx s) := by
  rw [Run.bind_apply]
  obtain ⟨size, told, apart, inside, tame⟩ := h
  rcases hr : act ctx s with ⟨b | d | _, mid⟩
  · rw [hr] at size told apart inside tame
    have later := hn b mid hr
    refine ⟨Nat.le_trans size later.size, told.trans later.told, fun C hC => ?_,
      fun C hC hi a ha => ?_, fun ht all begun => ?_⟩
    · obtain ⟨D, spreads, cost⟩ := apart C hC
      obtain ⟨E, spreads', cost'⟩ := later.apart D spreads.encloses
      exact ⟨E, spreads.trans spreads' size, Nat.le_trans cost' cost⟩
    · obtain ⟨D, spreads, cost, got⟩ := inside C hC hi b rfl
      have both : ∀ id ∈ given ++ first b, id ∈ D := fun id hid =>
        (List.mem_append.1 hid).elim (fun hid => spreads.sub (hi id hid)) (got id)
      obtain ⟨E, spreads', cost', got'⟩ := later.inside D spreads.encloses both a ha
      refine ⟨E, spreads.trans spreads' size, Nat.le_trans cost' ?_, got'⟩
      exact Nat.le_trans (Nat.add_le_add_right cost rest) (Nat.le_of_eq (Nat.add_assoc _ _ _))
    · obtain ⟨mid_tame, got⟩ := tame ht all begun
      refine later.tame mid_tame all fun id hid => ?_
      exact (List.mem_append.1 hid).elim (fun hid => Nat.lt_of_lt_of_le (begun id hid) size)
        (got b rfl id)
  · rw [hr] at size told apart tame
    exact .fruitless (fun _ e => by cases e) size told apart fun ht all begun =>
      (tame ht all begun).1
  · rw [hr] at size told apart tame
    exact .fruitless (fun _ e => by cases e) size told apart fun ht all begun =>
      (tame ht all begun).1

theorem bind_free {first : β → List NamespaceId} {act : Run β} {next : β → Run α}
    (h : Spends entered given charge whole first s (act ctx s))
    (hn : ∀ b mid, act ctx s = (.done b, mid) →
      Spends entered (given ++ first b) 0 whole gives mid (next b ctx mid)) :
    Spends entered given charge whole gives s ((act >>= next) ctx s) := h.bind hn

theorem attempt {act : Run Unit}
    (h : Spends entered given charge whole (fun _ => []) s (act ctx s)) :
    Spends entered given charge whole (fun _ => []) s (Run.attempt act ctx s) := by
  rw [Run.attempt_eq_tell]
  obtain ⟨size, told, apart, inside, tame⟩ := h
  rcases hr : act ctx s with ⟨_ | d | _, after⟩
  all_goals rw [hr] at size told apart inside tame
  · exact ⟨size, told, apart, inside, tame⟩
  · refine ⟨size, told.trans (List.prefix_append _ _), fun C hC => ?_, fun C hC _ _ _ => ?_,
      fun ht all begun => ?_⟩
    · obtain ⟨D, spreads, cost⟩ := apart C hC
      exact ⟨D, ⟨spreads.encloses.congr rfl rfl, spreads.sub, spreads.old⟩, cost⟩
    · obtain ⟨D, spreads, cost⟩ := apart C hC
      exact ⟨D, ⟨spreads.encloses.congr rfl rfl, spreads.sub, spreads.old⟩,
        Nat.le_trans cost (Nat.le_add_right _ _), by simp⟩
    · exact ⟨(tame ht all begun).1.congr rfl rfl, fun _ _ _ hid => by cases hid⟩
  · exact ⟨size, told, apart, inside, tame⟩

theorem leaving {r : Outcome α × State}
    (h : Spends entered given charge whole gives s.inNewBlock r) :
    Spends entered given charge whole gives s (s.leaving r) where
  size := h.size
  told := h.told
  apart C hC := by
    obtain ⟨D, spreads, cost⟩ := h.apart C (hC.congr rfl rfl)
    exact ⟨D, ⟨spreads.encloses, spreads.sub, spreads.old⟩, cost⟩
  inside C hC inside a ha := by
    obtain ⟨D, spreads, cost, got⟩ := h.inside C (hC.congr rfl rfl) inside a ha
    exact ⟨D, ⟨spreads.encloses, spreads.sub, spreads.old⟩, cost, got⟩
  tame ht := h.tame (ht.congr rfl rfl)

theorem readField {force : Forcing} {id : NamespaceId} {key : FieldKey} {slot : Shape}
    (forced : ∀ entry, (s.store.get id).field? key = some entry →
      Spends entered given charge whole Forced.namespaces s
        (force id (.field key) entry.thunk slot ctx s)) :
    Spends entered given charge whole (fun found => found.elim [] Analysis.namespaces) s
      (readFieldWith? force id key slot ctx s) := by
  rw [readFieldWith?_apply]
  cases there : (s.store.get id).field? key with
  | none => exact .done (by simp)
  | some entry => exact .bind_free (forced entry there) fun f mid _ => .done fun _ hid =>
      List.mem_append_right _ hid

theorem readString {force : Forcing} {id : NamespaceId} {pos : Position} {name : String}
    (forced : ∀ entry, (s.store.get id).field? (.string name) = some entry →
      Spends entered given charge whole Forced.namespaces s
        (force id (.field (.string name)) entry.thunk .unknown ctx s)) :
    Spends entered given charge whole Analysis.namespaces s
      (readStringWith force (.declared id) pos name ctx s) := by
  show Spends entered given charge whole Analysis.namespaces s
    ((if (s.store.get id).fields?.isSome then _ else _ : Run Analysis) ctx s)
  by_cases closed : (s.store.get id).fields?.isSome
  · rw [if_pos closed]
    refine .bind_free (.readField forced) fun found? mid _ => ?_
    cases found? with
    | some found => exact .done fun _ hid => List.mem_append_right _ hid
    | none => exact .fail _
  · rw [if_neg closed]
    exact .fail _

theorem declareUnder (scope : Scope) (list : InstrRef) (sides : TwoSided) (key : Analysis) :
    Spends entered given charge whole (fun _ => []) s
      (declareUnder scope list sides key ctx s) := by
  have declares : Spends entered given charge whole (fun _ => []) s
      (declareField scope list sides key ctx s) := by
    refine .bind_free (.materialize _ _) fun _ mid _ => .bind_free (rest_free mid) fun _ mid _ => ?_
    exact .bind_free (.materialize _ _) fun _ mid _ => .bind_free (.push _ _) fun _ _ _ =>
      .done (by simp)
  unfold NamespaceLang.declareUnder
  cases key.shape with
  | stringKey name => exact declares
  | symbolKey builtin child => exact declares
  | _ => exact .fail _
where
  rest_free {given : List NamespaceId} (mid : State) :
      Spends entered given 0 whole (fun _ => []) mid
        (capture scope sides.right.pos sides.rightItems ctx mid) :=
    still rfl (by simp)

theorem workOut {analyze : Scope → Shape → Position → List Tree → Run Analysis} {thunk : Thunk}
    {slot : Shape} (h : Spends entered given charge whole Analysis.namespaces s.inNewBlock
      (analyze thunk.scope slot thunk.pos thunk.nodes ctx s.inNewBlock)) :
    Spends entered given charge whole (fun f : Forced => f.shape.namespaces) s
      (NamespaceLang.workOut analyze thunk slot ctx s) := by
  rw [workOut_apply]
  refine .leaving (.bind_free h fun found mid _ => ?_)
  refine .bind_free .evaluate fun results ran _ => .bind_free (.ofExcept _) fun value last _ => ?_
  refine .done fun id hid => ?_
  exact List.mem_append_left _ (List.mem_append_left _ (List.mem_append_right _
    (List.mem_append_right _ hid)))

end Spends

theorem Forced.Shaped.namespaces {f : Forced} (h : f.Shaped) :
    ∀ id ∈ f.namespaces, id ∈ f.shape.namespaces := by
  obtain ⟨value, shape⟩ := f
  intro id hid
  rcases List.mem_append.1 hid with hid | hid
  · cases value with
    | key known => cases h; exact hid
    | «namespace» target => cases h; exact hid
    | ast thunk => cases hid
    | _ => cases h
  · exact hid

namespace Task

def nodes : Task → List Tree
  | .expression _ _ _ nodes | .suffixes _ _ nodes | .body _ _ nodes => nodes
  | .base _ _ node | .suffix _ _ node => [node]
  | .lines _ _ rest => linesItems rest
  | .line _ _ own => own.items
  | .resolve .. | .force .. => []

/-- What a call may spend. -/
def charge : Task → Nat
  | .body _ _ nodes => weightAll nodes
  | .lines _ _ rest => weightAll (linesItems rest)
  | .line _ _ own => weightAll own.items
  | t => worth t.nodes

def Sourced (s : Store) : Task → Prop
  | .force id binding thunk _ => s.source? id binding = some thunk
  | _ => True

/-- The namespaces that a call has to do with. -/
def among (t : Task) : List NamespaceId := t.scope ++ t.given

end Task

def Moment.Spends (m : Moment) : Prop :=
  m.state.store.Shaped → m.task.Sourced m.state.store → ∀ entered, entered ⊆ m.ctx.forcing →
    NamespaceLang.Spends entered m.task.among m.task.charge (Whole m.task.nodes) m.task.gives
      m.state m.run

namespace Spends

variable {depth : Nat} {ctx : Context} {s : State}

theorem literal_group {nodes : List Tree} {l : Literal} (head : literal? (solid nodes) = some l)
    (whole : Whole nodes) :
    ∃ opening closing, Whole [.group l.pos (.block .list opening closing) l.body] := by
  obtain ⟨opening, closing, items⟩ := literal?_eq_some head
  have inner : (solid nodes).Sublist nodes := solid_sublist nodes
  rw [items] at inner
  exact ⟨opening, closing, (whole.sublist inner).part (by simp)⟩

theorem literal_worth {nodes : List Tree} {l : Literal} (head : literal? (solid nodes) = some l) :
    weightAll l.body + worth l.rest ≤ worth nodes ∧
      (Whole nodes → Whole l.body ∧ Whole l.rest) := by
  obtain ⟨opening, closing, items⟩ := literal?_eq_some head
  have inner : (solid nodes).Sublist nodes := solid_sublist nodes
  rw [items] at inner
  constructor
  · have all := worth_sublist inner
    have first := worth_append [.leaf l.start (.identifier .plain "ns"),
      .group l.pos (.block .list opening closing) l.body] l.rest
    have pair : worth [.leaf l.start (.identifier .plain "ns"),
      .group l.pos (.block .list opening closing) l.body] = 1 + (weightAll l.body + 1) := rfl
    simp only [List.cons_append, List.nil_append] at first
    omega
  · intro whole
    obtain ⟨_, _, group⟩ := literal_group head whole
    exact ⟨group.items, (whole.sublist inner).part (by simp)⟩

theorem items_worth {nodes rest : List Tree} {first : Tree} (items : solid nodes = first :: rest) :
    worth [first] + worth rest ≤ worth nodes ∧ (Whole nodes → Whole [first] ∧ Whole rest) := by
  have inner : (solid nodes).Sublist nodes := solid_sublist nodes
  rw [items] at inner
  refine ⟨Nat.le_trans (worth_cons first rest) (worth_sublist inner), fun whole => ?_⟩
  have parts := whole.sublist inner
  exact ⟨parts.part (by simp), parts.part (by simp)⟩

theorem expression {scope : Scope} {slot : Shape} {pos : Position} {nodes : List Tree}
    (ih : ∀ next, Leads ⟨depth, .expression scope slot pos nodes, ctx, s⟩ next → next.Spends) :
    Moment.Spends ⟨depth, .expression scope slot pos nodes, ctx, s⟩ := by
  intro shaped _ entered sub
  show Spends entered (scope ++ []) (worth nodes) (Whole nodes) Analysis.namespaces s
    (analyzeWith (forceWithin depth) scope slot pos nodes ctx s)
  by_cases kept : slot = .ast
  · subst kept
    rw [analyzeWith.eq_def]
    exact .deferred _ pos (by simp [Shape.namespaces])
  · rw [analyzeWith_of_ne_ast _ _ kept]
    cases head : literal? (solid nodes) with
    | some l =>
      obtain ⟨less, parts⟩ := literal_worth head
      rw [analyzeHeadWith_literal _ _ _ _ head]
      have begins : Spends entered (scope ++ []) (weightAll l.body) (Whole nodes) (fun id => [id]) s
          (declareWith (forceWithin depth) scope l.pos l.body ctx s) :=
        (ih _ (.literal kept head) shaped trivial entered sub).mono (fun _ => id) (Nat.le_refl _)
          (fun all => (parts all).1) fun _ _ => Or.inl
      refine .mono (.bind begins fun own mid before => ?_) (fun _ => id) less id fun _ _ => Or.inl
      have shaped' : mid.store.Shaped := (Leads.afterLiteral kept head before).shaped shaped
      have marks : Spends entered (scope ++ [] ++ [own]) 0 (Whole nodes) (fun _ => []) mid
          (Run.push .comptimeOnly l.start ctx mid) := .push _ _
      refine .mono (.bind marks fun _ pushed hp => ?_) (fun _ => id)
        (Nat.le_of_eq (Nat.zero_add _)) id fun _ _ => Or.inl
      cases hp
      refine (ih _ (.afterLiteral kept head before) shaped' trivial entered sub).mono
        (fun other ho => ?_)
        (Nat.le_refl _) (fun all => (parts all).2) fun _ _ => Or.inl
      refine List.mem_append_left _ ((List.mem_append.1 ho).elim (fun here => ?_) fun there => ?_)
      · exact List.mem_append_left _ (List.mem_append_left _ here)
      · have own_there : other ∈ [own, own] := there
        exact List.mem_append_right _ (by simpa using own_there)
    | none =>
      cases items : solid nodes with
      | nil =>
        unfold analyzeHeadWith
        exact .fail _
      | cons first rest =>
        obtain ⟨less, parts⟩ := items_worth items
        have head' := head
        rw [items] at head'
        rw [analyzeHeadWith_base _ _ _ _ head']
        have begins : Spends entered (scope ++ []) (worth [first]) (Whole nodes)
            Analysis.namespaces s
            (analyzeBaseWith (forceWithin depth) scope (if rest.isEmpty then slot else .unknown)
              first ctx s) :=
          (ih _ (.base kept head items) shaped trivial entered sub).mono (fun _ => id)
            (Nat.le_refl _) (fun all => (parts all).1) fun _ _ => Or.inl
        refine .mono (.bind begins fun base mid before => ?_) (fun _ => id) less id
          fun _ _ => Or.inl
        have shaped' : mid.store.Shaped := (Leads.afterBase kept head items before).shaped shaped
        refine (ih _ (.afterBase kept head items before) shaped' trivial entered sub).mono
          (fun other ho => ?_) (Nat.le_refl _) (fun all => (parts all).2) fun _ _ => Or.inl
        exact (List.mem_append.1 ho).elim
          (fun here => List.mem_append_left _ (List.mem_append_left _ here))
          fun there => List.mem_append_right _ there

theorem base {scope : Scope} {slot : Shape} {node : Tree}
    (ih : ∀ next, Leads ⟨depth, .base scope slot node, ctx, s⟩ next → next.Spends) :
    Moment.Spends ⟨depth, .base scope slot node, ctx, s⟩ := by
  intro shaped _ entered sub
  show Spends entered (scope ++ []) (worth [node]) (Whole [node]) Analysis.namespaces s
    (analyzeBaseWith (forceWithin depth) scope slot node ctx s)
  rw [analyzeBaseWith.eq_def]
  split
  · next pos leaf =>
    unfold analyzeLeafWith
    split
    · split
      · exact .bind_free (.push _ _) fun _ _ _ => .done (by
          simp [Analysis.ofNamespace, Analysis.known, Analysis.namespaces, Operand.namespaces,
            Value.namespaces, Shape.namespaces])
      · exact .fail _
    · split
      · exact .deferred _ _ (by simp [Shape.namespaces])
      · exact .fail _
    · exact (ih _ .name shaped trivial entered sub).mono (fun _ => id) (Nat.zero_le _)
        (fun _ => whole_nil) fun _ _ => Or.inl
    · exact .fail _
    · exact .fail _
  · next pos _ _ items =>
    exact (ih _ .code shaped trivial entered sub).mono (fun _ => id) (worth_group _ _ _)
      Whole.items fun _ _ => Or.inl
  · exact .bind_free (.ofExcept _) fun _ _ _ => .fail _
  · exact .fail _

theorem suffixes {scope : Scope} {left : Analysis} {nodes : List Tree}
    (ih : ∀ next, Leads ⟨depth, .suffixes scope left nodes, ctx, s⟩ next → next.Spends) :
    Moment.Spends ⟨depth, .suffixes scope left nodes, ctx, s⟩ := by
  intro shaped _ entered sub
  show Spends entered (scope ++ left.namespaces) (worth nodes) (Whole nodes) Analysis.namespaces s
    (analyzeSuffixesWith (forceWithin depth) scope left nodes ctx s)
  cases nodes with
  | nil =>
    rw [analyzeSuffixesWith.eq_def]
    exact .done fun _ there => List.mem_append_right _ there
  | cons node rest =>
    rw [analyzeSuffixesWith_cons]
    have begins : Spends entered (scope ++ left.namespaces) (worth [node]) (Whole (node :: rest))
        Analysis.namespaces s ((Task.suffix scope left node).run (forceWithin depth) ctx s) :=
      (ih _ .suffix shaped trivial entered sub).mono (fun _ => id) (Nat.le_refl _)
        (fun all => all.part (List.cons_subset_cons _ (List.nil_subset _))) fun _ _ => Or.inl
    refine .mono (.bind begins fun next mid before => ?_) (fun _ => id) (worth_cons node rest) id
      fun _ _ => Or.inl
    refine (ih _ (.afterSuffix before) ((Leads.afterSuffix before).shaped shaped) trivial entered
      sub).mono (fun other ho => ?_) (Nat.le_refl _)
        (fun all => all.part (List.subset_cons_self _ _))
      fun _ _ => Or.inl
    exact (List.mem_append.1 ho).elim
      (fun here => List.mem_append_left _ (List.mem_append_left _ here))
      fun there => List.mem_append_right _ there

theorem access {scope : Scope} {left : Analysis} {pos : Position} {sigil : Sigil} {name : String}
    (named : sigil = .plain ∨ sigil = .access)
    (ih : ∀ next, Leads ⟨depth, .suffix scope left (.leaf pos (.identifier sigil name)), ctx, s⟩
      next → next.Spends) :
    Moment.Spends ⟨depth, .suffix scope left (.leaf pos (.identifier sigil name)), ctx, s⟩ := by
  intro shaped _ entered sub
  have reads : (Task.suffix scope left (.leaf pos (.identifier sigil name))).run
      (forceWithin depth) = accessWith (forceWithin depth) left pos name := by
    obtain rfl | rfl := named <;> rfl
  rw [Moment.run, reads]
  show Spends entered (scope ++ left.namespaces) _ _ Analysis.namespaces s
    (accessWith (forceWithin depth) left pos name ctx s)
  unfold accessWith
  cases shape : left.shape with
  | namespaceOf target =>
    show Spends _ _ _ _ _ s (readStringWith (forceWithin depth) target pos name
      (ctx.holding left.namespaces) s)
    cases target with
    | builtin =>
      unfold readStringWith
      cases Builtin.ofName? name with
      | none => exact .fail _
      | some builtin =>
        refine .deferred _ pos ?_
        cases builtin
        simp [Shape.ofKey, Builtin.key, Key.main, Shape.mainEntry, Shape.namespaces]
    | declared id =>
      refine .readString fun entry there => ?_
      have leads : accessed? s.store left name = some (id, entry) := by
        simp [accessed?, shape, there]
      have source : s.store.source? id (.field (.string name)) = some entry.thunk :=
        Store.source?_field there
      refine (ih _ (.access named leads) shaped source entered sub).mono (fun other ho => ?_)
        (Nat.zero_le _) (fun _ => whole_nil) fun _ _ => Or.inl
      obtain rfl := List.mem_singleton.1 ho
      exact List.mem_append_right _ (List.mem_append_right _ (by simp [shape, Shape.namespaces]))
  | _ => exact .fail _

theorem suffix {scope : Scope} {left : Analysis} {node : Tree}
    (ih : ∀ next, Leads ⟨depth, .suffix scope left node, ctx, s⟩ next → next.Spends) :
    Moment.Spends ⟨depth, .suffix scope left node, ctx, s⟩ := by
  cases node with
  | leaf pos content =>
    cases content with
    | identifier sigil name =>
      cases sigil with
      | plain => exact access (Or.inl rfl) ih
      | access => exact access (Or.inr rfl) ih
      | builtin => exact fun _ _ _ _ => .fail _
    | bare tag spelling =>
      cases tag with
      | access => exact fun _ _ _ _ => .done fun _ there => List.mem_append_right _ there
      | _ => exact fun _ _ _ _ => .fail _
    | _ => exact fun _ _ _ _ => .fail _
  | group pos form items =>
    cases form with
    | block tag opening closing =>
      cases tag with
      | code =>
        intro shaped _ entered sub
        show Spends entered (scope ++ left.namespaces) _ _ Analysis.namespaces s
          (NamespaceLang.call pos left (argumentWith (forceWithin depth) scope pos items) ctx s)
        unfold NamespaceLang.call
        cases called : left.shape with
        | function slot ret =>
          have argued : Spends entered (scope ++ left.namespaces)
              (worth [.group pos (.block .code opening closing) items])
              (Whole [.group pos (.block .code opening closing) items]) Analysis.namespaces s
              (Run.holding left.namespaces
                (argumentWith (forceWithin depth) scope pos items slot) ctx s) := by
            show Spends _ _ _ _ _ s (argumentWith (forceWithin depth) scope pos items slot
              (ctx.holding left.namespaces) s)
            rcases given_or_nothing slot items with given | ⟨rfl, nothing⟩
            · rw [argumentWith_given _ _ pos given]
              exact (ih _ (.argument called given) shaped trivial entered sub).mono
                (fun _ ho => List.mem_append_left _
                  (by simpa [Task.among, Task.scope, Task.given] using ho))
                (worth_group _ _ _) Whole.items fun _ _ => Or.inl
            · rw [argumentWith_nothing _ _ pos nothing]
              exact .deferred _ pos (by simp [Shape.namespaces])
          refine .bind_free argued fun given mid _ => ?_
          refine .bind_free (.materialize _ _) fun _ mid _ => ?_
          refine .bind_free (.materialize _ _) fun _ mid _ => .deferred _ pos fun other ho => ?_
          have own : other ∈ left.namespaces :=
            List.mem_append_right _ (by rw [called]; exact List.mem_append_right _ ho)
          simp [own]
        | _ => exact .fail _
      | _ => exact fun _ _ _ _ => .fail _
    | _ => exact fun _ _ _ _ => .fail _

theorem lines {scope : Scope} {list : InstrRef} {lines : List Line}
    (ih : ∀ next, Leads ⟨depth, .lines scope list lines, ctx, s⟩ next → next.Spends) :
    Moment.Spends ⟨depth, .lines scope list lines, ctx, s⟩ := by
  intro shaped _ entered sub
  show Spends entered (scope ++ []) (weightAll (linesItems lines)) (Whole (linesItems lines))
    (fun _ => []) s (declareLinesWith (forceWithin depth) scope list lines ctx s)
  rw [declareLinesWith.eq_def]
  cases lines with
  | nil => exact .done (by simp)
  | cons line rest =>
    rw [linesItems_cons, weightAll_append, whole_append]
    have first : Spends entered (scope ++ []) (weightAll line.items)
        (Whole line.items ∧ Whole (linesItems rest)) (fun _ => []) s
        (Run.attempt (declareLineWith (forceWithin depth) scope list line) ctx s) :=
      (ih _ .line shaped trivial entered sub).attempt.mono (fun _ => id) (Nat.le_refl _) And.left
        fun _ _ => Or.inl
    refine .bind first fun _ mid before => ?_
    have shaped' : mid.store.Shaped := (Leads.afterLine before).shaped shaped
    exact (ih _ (.afterLine before) shaped' trivial entered sub).mono
      (fun _ ho => List.mem_append_left _ ho) (Nat.le_refl _) And.right fun _ _ => Or.inl

theorem line {scope : Scope} {list : InstrRef} {line : Line}
    (ih : ∀ next, Leads ⟨depth, .line scope list line, ctx, s⟩ next → next.Spends) :
    Moment.Spends ⟨depth, .line scope list line, ctx, s⟩ := by
  intro shaped _ entered sub
  show Spends entered (scope ++ []) (weightAll line.items) (Whole line.items) (fun _ => []) s
    (declareLineWith (forceWithin depth) scope list line ctx s)
  rw [declareLineWith_apply]
  cases read : twoSided? ChainTag.bindsField line.pos line.items with
  | error d => exact .fail d
  | ok sides? =>
    cases sides? with
    | none =>
      have all : Spends entered (scope ++ []) (weightAll line.items) (Whole line.items)
          Analysis.namespaces s
          (analyzeWith (forceWithin depth) scope .void line.pos line.items ctx s) :=
        (ih _ (.whole read) shaped trivial entered sub).mono (fun _ => id) (worth_le _) id
          fun _ _ => Or.inl
      exact .bind_free all fun _ _ _ => .done (by simp)
    | some sides =>
      have lighter := twoSided?_worth read
      have light := worth_le line.items
      have cheap : worth sides.leftItems ≤ weightAll line.items := by omega
      have named : Spends entered (scope ++ []) (weightAll line.items) (Whole line.items)
          Analysis.namespaces s
          (analyzeWith (forceWithin depth) scope .key sides.left.pos sides.leftItems ctx s) :=
        (ih _ (.key read) shaped trivial entered sub).mono (fun _ => id) cheap
          (fun all => (twoSided?_whole read all).1) fun _ _ => Or.inl
      exact .bind_free named fun key mid _ => .declareUnder scope list sides key

theorem resolve {scope : Scope} {slot : Shape} {pos : Position} {name : String}
    (ih : ∀ next, Leads ⟨depth, .resolve scope slot pos name, ctx, s⟩ next → next.Spends) :
    Moment.Spends ⟨depth, .resolve scope slot pos name, ctx, s⟩ := by
  intro shaped _ entered sub
  show Spends entered (scope ++ []) 0 (Whole []) Analysis.namespaces s
    (resolveWith (forceWithin depth) pos name slot scope ctx s)
  rw [resolveWith_apply]
  cases way : s.store.reach ctx.held name scope with
  | binding id binding =>
    unfold useReached
    dsimp only
    cases source : s.store.source? id binding with
    | some thunk =>
      have here : id ∈ scope := Store.mem_of_reach way
      have forced : Spends entered (scope ++ []) 0 (Whole []) Forced.namespaces s
          (forceWithin depth id binding thunk slot ctx s) :=
        (ih _ (.reached way source) shaped source entered sub).mono (fun other ho => by
          obtain rfl := List.mem_singleton.1 ho
          exact List.mem_append_left _ here) (Nat.le_refl _) (fun all => all) fun _ _ => Or.inl
      exact .bind_free forced fun f _ _ => .done fun _ hid => List.mem_append_right _ hid
    | none => exact .fail _
  | _ => exact .fail _

def settled (id : NamespaceId) (binding : Binding) : Outcome Forced × State → Outcome Forced × State
  | (.done found, after) => (.done found, { after with store := after.store.keep id binding found })
  | (.failed d, after) => (.failed d, after)
  | (.exhausted, after) => (.exhausted, after)

theorem settled_apply (id : NamespaceId) (binding : Binding) (act : Run Forced) (inner : Context) :
    (do
      let found ← act
      Run.modifyStore (·.keep id binding found)
      return found : Run Forced) inner s = settled id binding (act inner s) := by
  rw [Run.bind_apply]
  rcases act inner s with ⟨_ | _ | _, after⟩ <;> rfl

/-- Work on the source of a binding is paid for with what the binding is owed. -/
theorem paid {α : Type} {entered : List Place} {id : NamespaceId} {binding : Binding} {thunk : Thunk}
    {whole : Prop} {gives : α → List NamespaceId} {r : Outcome α × State}
    (source : s.store.source? id binding = some thunk)
    (first : s.store.finding? (id, binding) = none) (outside : (id, binding) ∉ entered)
    (worked : Spends ((id, binding) :: entered) thunk.scope (worth thunk.nodes) whole gives s r)
    {C : Finset NamespaceId} (hC : s.store.Encloses C) (hi : id ∈ C) {a : α} (ha : r.1 = .done a) :
    ∃ D, s.store.Spreads C r.2.store D ∧
      r.2.store.owed ((id, binding) :: entered) D ≤ s.store.owed entered C ∧
        ∀ other ∈ gives a, other ∈ D := by
  obtain ⟨D, spreads, cost, got⟩ := worked.inside C hC (hC.source id hi binding thunk source) a ha
  have freed := Store.owed_enter hi source first outside
  have price := worth_le_price thunk.nodes
  exact ⟨D, spreads, by omega, got⟩

theorem settles {entered : List Place} {id : NamespaceId} {binding : Binding} {thunk : Thunk}
    (source : s.store.source? id binding = some thunk)
    (first : s.store.finding? (id, binding) = none) (outside : (id, binding) ∉ entered)
    {r : Outcome Forced × State}
    (worked : ∀ more, more ⊆ (id, binding) :: entered →
      Spends more thunk.scope (worth thunk.nodes) (Whole thunk.nodes)
        (fun f : Forced => f.shape.namespaces) s r)
    (shaped : ∀ f, r.1 = .done f → f.Shaped) :
    Spends entered [id] 0 (Whole []) Forced.namespaces s (settled id binding r) := by
  have begun : id < s.store.size := Store.begun_of_source source
  have whole : s.store.Tame → r.2.store.Tame ∧
      ∀ f, r.1 = .done f → Begun r.2.store.size f.shape.namespaces := fun tame =>
    (worked entered (List.subset_cons_self _ _)).tame tame (tame.whole id binding thunk source)
      fun other ho => Finset.mem_range.1
        (tame.encloses.source id (Finset.mem_range.2 begun) binding thunk source other ho)
  obtain ⟨size, told, plain, -, -⟩ := worked entered (List.subset_cons_self _ _)
  rcases r with ⟨found | d | _, after⟩
  · have later : id < after.store.size := Nat.lt_of_lt_of_le begun size
    have kept : after.store.size = (after.store.keep id binding found).size :=
      (Store.size_modify id _).symm
    have among : ∀ C, s.store.Encloses C → id ∈ C → ∃ D,
        s.store.Spreads C (after.store.keep id binding found) D ∧
          (after.store.keep id binding found).owed entered D ≤ s.store.owed entered C ∧
          ∀ other ∈ found.namespaces, other ∈ D := by
      intro C hC hi
      obtain ⟨D, spreads, cost, got⟩ :=
        (worked _ (List.Subset.refl _)).paid source first outside hC hi rfl
      replace got : ∀ other ∈ found.namespaces, other ∈ D := fun other ho =>
        got other ((shaped found rfl).namespaces other ho)
      exact ⟨D, spreads.trans (.keep spreads.encloses binding fun _ => got) size,
        Nat.le_trans (Store.owed_keep later binding found) cost, got⟩
    refine ⟨kept ▸ size, told, fun C hC => ?_, fun C hC hi a ha => ?_, fun tame _ _ => ?_⟩
    · by_cases hi : id ∈ C
      · obtain ⟨D, spreads, cost, -⟩ := among C hC hi
        exact ⟨D, spreads, cost⟩
      · obtain ⟨D, spreads, cost⟩ := plain C hC
        have away : id ∉ D := fun there => hi (spreads.old id there begun)
        exact ⟨D,
          spreads.trans (.keep spreads.encloses binding fun there => absurd there away) size,
          Nat.le_trans (Store.owed_keep_apart away binding found) cost⟩
    · cases ha
      exact among C hC (hi id (List.mem_singleton_self id))
    · obtain ⟨tame, got⟩ := whole tame
      have inner : Begun after.store.size found.namespaces := fun other ho =>
        got found rfl other ((shaped found rfl).namespaces other ho)
      refine ⟨tame.keep id binding inner, fun a ha => ?_⟩
      cases ha
      exact kept ▸ inner
  · exact .fruitless (fun _ e => by cases e) size told plain fun tame _ _ => (whole tame).1
  · exact .fruitless (fun _ e => by cases e) size told plain fun tame _ _ => (whole tame).1

theorem force {id : NamespaceId} {binding : Binding} {thunk : Thunk} {slot : Shape}
    (ih : ∀ next, Leads ⟨depth, .force id binding thunk slot, ctx, s⟩ next → next.Spends) :
    Moment.Spends ⟨depth, .force id binding thunk slot, ctx, s⟩ := by
  intro shaped source entered sub
  cases depth with
  | zero => exact .still rfl fun _ e => by cases e
  | succ depth =>
    show Spends entered [id] 0 (Whole []) Forced.namespaces s
      (forceBy (analyzeWith (forceWithin depth)) id binding thunk slot ctx s)
    rw [forceBy_apply]
    cases first : (s.store.get id).findings.get? binding with
    | some found =>
      refine .known rfl rfl (List.prefix_refl _) fun a e other ho => ?_
      cases e
      exact Or.inr ⟨id, List.mem_singleton_self id,
        List.mem_flatMap.2 ⟨found, Table.mem_values_of_get? first, ho⟩⟩
    | none =>
      dsimp only
      by_cases inside : (id, binding) ∈ ctx.forcing
      · rw [if_pos inside]
        exact .fail _
      · rw [if_neg inside, settled_apply]
        have worked : Shapely True Op.alone (fun f _ => Forced.Shaped f) s
            (NamespaceLang.workOut (analyzeWith (forceWithin depth)) thunk slot
              (ctx.inside id binding thunk.pos) s) :=
          .workOut (Moment.shaped ⟨depth, .expression thunk.scope slot thunk.pos thunk.nodes,
            ctx.inside id binding thunk.pos, s.inNewBlock⟩ shaped)
        refine settles source first (fun there => inside (sub there)) (fun more hm => .workOut ?_)
          (worked.good trivial)
        refine (ih _ (.source first inside) shaped trivial more fun p hp => ?_).mono
          (fun other ho => ?_)
          (Nat.le_refl _) (fun all => all) fun _ _ => Or.inl
        · exact (List.mem_cons.1 (hm hp)).elim (fun same => same ▸ List.mem_cons_self)
            fun there => List.mem_cons_of_mem _ (sub there)
        · simpa [Task.among, Task.scope, Task.given] using ho

section

variable {C : Finset NamespaceId} {entered : List Place} (hC : s.store.Encloses C) (outer : Scope)
  (pos : Position) (body : Body) (found : List Diagnostic)

include hC

theorem declaring_apart :
    s.store.Spreads C (s.declaring ctx outer pos body found).store C ∧
      (s.declaring ctx outer pos body found).store.owed entered C ≤ s.store.owed entered C := by
  have told : (s.store.record (found.map (·.under ctx.trace))).Encloses C := hC.congr rfl rfl
  have began := Store.Spreads.begin_apart told pos outer body.definitions
  exact ⟨⟨began.encloses.congr rfl rfl, began.sub, began.old⟩,
    Store.owed_begin_apart told pos outer body.definitions⟩

theorem declaring_among (inside : ∀ id ∈ outer, id ∈ C) :
    s.store.Spreads C (s.declaring ctx outer pos body found).store (insert s.store.size C) ∧
      (s.declaring ctx outer pos body found).store.owed entered (insert s.store.size C) ≤
        s.store.owed entered C + pricesOf body.definitions.entries := by
  have told : (s.store.record (found.map (·.under ctx.trace))).Encloses C := hC.congr rfl rfl
  have began := Store.Spreads.begin_among told pos inside body.definitions
  exact ⟨⟨began.encloses.congr rfl rfl, began.sub, began.old⟩,
    Store.owed_begin_among told pos outer body.definitions⟩

end

theorem field_worth {scope : Scope} {line : Line} {field : Position × Thunk}
    (h : line.field? scope = some field) : price field.2.nodes ≤ weightAll line.items := by
  unfold Line.field? at h
  split at h
  · next sides read =>
    cases h
    have light := worth_le line.items
    have lighter := twoSided?_worth read
    dsimp only
    omega
  · cases h

theorem fields_worth (scope : Scope) (lines : List Line) :
    ((lines.filterMap (Line.field? scope)).map fun field => price field.2.nodes).sum ≤
      weightAll (linesItems lines) := by
  induction lines with
  | nil => exact Nat.le_refl _
  | cons line rest ih =>
    rw [linesItems_cons, weightAll_append]
    cases own : line.field? scope with
    | none =>
      rw [List.filterMap_cons_none own]
      exact Nat.le_trans ih (Nat.le_add_left _ _)
    | some field =>
      rw [List.filterMap_cons_some own, List.map_cons, List.sum_cons]
      exact Nat.add_le_add (field_worth own) ih

theorem fields_source {scope : Scope} {lines : List Line} {registry : Registry}
    (fields : registry.fields.Sublist (lines.filterMap (Line.field? scope))) {entry : FieldEntry}
    (he : entry ∈ registry.entries) :
    entry.thunk.scope = scope ∧ (Whole (linesItems lines) → Whole entry.thunk.nodes) := by
  have there : (entry.pos, entry.thunk) ∈ registry.fields := List.mem_map.2 ⟨entry, he, rfl⟩
  obtain ⟨line, hl, field⟩ := List.mem_filterMap.1 (fields.subset there)
  unfold Line.field? at field
  split at field
  · next sides read =>
    simp only [Option.some.injEq, Prod.mk.injEq] at field
    rw [← field.2]
    refine ⟨rfl, fun whole => (twoSided?_whole read (whole.part fun node hn => ?_)).2⟩
    exact List.mem_flatMap.2 ⟨line, hl, hn⟩
  · cases field

/-- The fields that lines have declared are owed no more than the lines are worth. -/
theorem registry_worth {scope : Scope} {lines : List Line} {registry : Registry}
    (fields : registry.fields.Sublist (lines.filterMap (Line.field? scope))) :
    (registry.entries.map fun entry => price entry.thunk.nodes).sum ≤
      weightAll (linesItems lines) := by
  have part := fields.map fun field => price field.2.nodes
  rw [Registry.fields, List.map_map] at part
  exact Nat.le_trans (part.sum_le_sum fun _ _ => Nat.zero_le _) (fields_worth scope lines)

theorem declared_away {α : Type} {entered : List Place} {given : List NamespaceId} {charge : Nat}
    {whole : Prop} {gives : α → List NamespaceId} {outer : Scope} {pos : Position} {body : Body}
    {found : List Diagnostic} {r : Outcome α × State}
    (declared : Spends entered given charge whole gives (s.declaring ctx outer pos body found) r)
    {C : Finset NamespaceId} (hC : s.store.Encloses C) :
    ∃ D, s.store.Spreads C r.2.store D ∧ r.2.store.owed entered D ≤ s.store.owed entered C ∧
      s.store.size ∉ D := by
  have grown : (s.declaring ctx outer pos body found).store.size = s.store.size + 1 :=
    Store.size_begin _ _ _ _
  obtain ⟨first, cost⟩ := declaring_apart hC outer pos body found
  obtain ⟨D, spreads, cost'⟩ := declared.apart C first.encloses
  refine ⟨D, first.trans spreads (grown ▸ Nat.le_succ _), Nat.le_trans cost' cost, fun there => ?_⟩
  exact Nat.lt_irrefl _ (hC.begun _ (spreads.old _ there (grown ▸ Nat.lt_succ_self _)))

theorem declared_among {α : Type} {entered : List Place} {given : List NamespaceId} {charge : Nat}
    {whole : Prop} {gives : α → List NamespaceId} {outer : Scope} {pos : Position} {body : Body}
    {found : List Diagnostic} {r : Outcome α × State}
    (declared : Spends entered given charge whole gives (s.declaring ctx outer pos body found) r)
    {C : Finset NamespaceId} (hC : s.store.Encloses C) (inside : ∀ id ∈ outer, id ∈ C) :
    ∃ D, s.store.Spreads C r.2.store D ∧
      r.2.store.owed entered D ≤ s.store.owed entered C + pricesOf body.definitions.entries ∧
      ∀ id ∈ s.store.size :: outer, id ∈ D := by
  have grown : (s.declaring ctx outer pos body found).store.size = s.store.size + 1 :=
    Store.size_begin _ _ _ _
  obtain ⟨first, cost⟩ := declaring_among hC outer pos body found inside
  obtain ⟨D, spreads, cost'⟩ := declared.apart _ first.encloses
  refine ⟨D, first.trans spreads (grown ▸ Nat.le_succ _), Nat.le_trans cost' cost, fun id hid => ?_⟩
  refine spreads.sub ?_
  rcases List.mem_cons.1 hid with rfl | hid
  · exact Finset.mem_insert_self _ _
  · exact Finset.mem_insert_of_mem (inside id hid)

theorem declared_tame {α : Type} {entered : List Place} {charge : Nat}
    {gives : α → List NamespaceId} {outer : Scope} {pos : Position} {nodes : List Tree} {body : Body}
    {found : List Diagnostic} {r : Outcome α × State} (worth : body.WorthOf nodes)
    (declared : Spends entered (s.store.size :: outer) charge (Whole (linesItems body.lines)) gives
      (s.declaring ctx outer pos body found) r)
    (tame : s.store.Tame) (whole : Whole nodes) (inside : Begun s.store.size outer) :
    r.2.store.Tame := by
  obtain ⟨definitions, lines⟩ := worth.whole whole
  have told : (s.store.record (found.map (·.under ctx.trace))).Tame := tame.congr rfl rfl
  have began : (s.declaring ctx outer pos body found).store.Tame :=
    (told.begin pos inside definitions).congr rfl rfl
  refine (declared.tame began lines fun id hid => ?_).1
  rw [show (s.declaring ctx outer pos body found).store.size = s.store.size + 1 from
    Store.size_begin _ _ _ _]
  rcases List.mem_cons.1 hid with rfl | hid
  · exact Nat.lt_succ_self _
  · exact Nat.lt_succ_of_lt (inside id hid)

def finished (s : State) (r : Outcome Registry × State) : Outcome NamespaceId × State :=
  match s.leaving r with
  | (.done registry, after) =>
    (.done s.store.size, { after with store := after.store.finish s.store.size registry })
  | (.failed d, after) => (.failed d, after)
  | (.exhausted, after) => (.exhausted, after)

theorem finishes {entered : List Place} {outer : Scope} {pos : Position} {nodes : List Tree}
    {body : Body} {found : List Diagnostic} (worth : body.WorthOf nodes)
    {r : Outcome Registry × State}
    (declared : Spends entered (s.store.size :: outer) (weightAll (linesItems body.lines))
      (Whole (linesItems body.lines)) (fun _ => []) (s.declaring ctx outer pos body found) r)
    (unread : (r.2.store.get s.store.size).fields? = none)
    (fields : ∀ registry, r.1 = .done registry →
      registry.fields.Sublist (body.lines.filterMap (Line.field? (s.store.size :: outer)))) :
    Spends entered outer (weightAll nodes) (Whole nodes) (fun id => [id]) s (finished s r) := by
  have grown : (s.declaring ctx outer pos body found).store.size = s.store.size + 1 :=
    Store.size_begin _ _ _ _
  have tame : s.store.Tame → Whole nodes → Begun s.store.size outer → r.2.store.Tame :=
    fun tame whole inside => declared_tame worth declared tame whole inside
  have size : s.store.size < r.2.store.size :=
    Nat.lt_of_lt_of_le (grown ▸ Nat.lt_succ_self _) declared.size
  have told : s.store.diagnostics <+: r.2.store.diagnostics :=
    (List.prefix_append _ _).trans declared.told
  have plain : ∀ C, s.store.Encloses C → ∃ D, s.store.Spreads C r.2.store D ∧
      r.2.store.owed entered D ≤ s.store.owed entered C := fun _ hC =>
    (declared_away declared hC).imp fun _ all => ⟨all.1, all.2.1⟩
  rcases r with ⟨registry | d | _, after⟩
  · have sources : ∀ entry ∈ registry.entries, entry.thunk.scope = s.store.size :: outer ∧
        (Whole (linesItems body.lines) → Whole entry.thunk.nodes) :=
      fun _ he => fields_source (fields registry rfl) he
    refine ⟨?_, told, fun C hC => ?_, fun C hC hi a ha => ?_, fun ht whole inside => ?_⟩
    · show s.store.size ≤ (after.store.finish s.store.size registry).size
      rw [Store.finish, Store.size_modify]
      exact Nat.le_of_lt size
    · obtain ⟨D, spreads, cost, apart⟩ := declared_away declared hC
      exact ⟨D, spreads.trans (.finish spreads.encloses fun there => absurd there apart)
        (Nat.le_of_lt size), Nat.le_trans (Store.owed_finish_apart apart registry) cost⟩
    · cases ha
      obtain ⟨D, spreads, cost, own⟩ := declared_among declared hC hi
      have scope : ∀ entry ∈ registry.entries, ∀ other ∈ entry.thunk.scope, other ∈ D := by
        intro entry he other ho
        rw [(sources entry he).1] at ho
        exact own other ho
      refine ⟨D, spreads.trans (.finish spreads.encloses fun _ => scope) (Nat.le_of_lt size), ?_,
        fun id hid => List.mem_singleton.1 hid ▸ own _ List.mem_cons_self⟩
      calc (after.store.finish s.store.size registry).owed entered D
          ≤ after.store.owed entered D +
              (registry.entries.map fun entry => price entry.thunk.nodes).sum :=
            Store.owed_finish_among (own _ List.mem_cons_self) unread registry
        _ ≤ s.store.owed entered C + pricesOf body.definitions.entries +
              weightAll (linesItems body.lines) :=
            Nat.add_le_add cost (registry_worth (fields registry rfl))
        _ ≤ s.store.owed entered C + weightAll nodes := by
            rw [Nat.add_assoc]
            exact Nat.add_le_add_left worth.worth _
    · have last := tame ht whole inside
      refine ⟨last.finish (fun entry he other ho => ?_) fun entry he =>
        (sources entry he).2 (worth.whole whole).2, fun a ha id hid => ?_⟩
      · rw [(sources entry he).1] at ho
        rcases List.mem_cons.1 ho with rfl | ho
        · exact size
        · exact Nat.lt_trans (inside other ho) size
      · cases ha
        rw [List.mem_singleton.1 hid]
        show s.store.size < (after.store.finish s.store.size registry).size
        rw [Store.finish, Store.size_modify]
        exact size
  · exact .fruitless (fun _ e => by cases e) (Nat.le_of_lt size) told plain tame
  · exact .fruitless (fun _ e => by cases e) (Nat.le_of_lt size) told plain tame

theorem body {outer : Scope} {pos : Position} {nodes : List Tree}
    (ih : ∀ next, Leads ⟨depth, .body outer pos nodes, ctx, s⟩ next → next.Spends) :
    Moment.Spends ⟨depth, .body outer pos nodes, ctx, s⟩ := by
  intro shaped _ entered sub
  show Spends entered (outer ++ []) (weightAll nodes) (Whole nodes) (fun id => [id]) s
    (declareWith (forceWithin depth) outer pos nodes ctx s)
  rw [declareWith_apply, List.append_nil]
  cases read : Body.read pos nodes with
  | error d => exact .fail d
  | ok found =>
    obtain ⟨body, found⟩ := found
    let id := s.store.size
    let reading : Run Registry := do
      declareLinesWith (forceWithin depth) (id :: outer) s.fieldList body.lines
      fieldsOf pos s.fieldList
    have begun : (s.declaring ctx outer pos body found).store.Shaped :=
      (Leads.lines read).shaped shaped
    have lines : Spends entered (id :: outer) (weightAll (linesItems body.lines))
        (Whole (linesItems body.lines)) (fun _ => []) (s.declaring ctx outer pos body found)
        (declareLinesWith (forceWithin depth) (id :: outer) s.fieldList body.lines
          (ctx.holding [id]) (s.declaring ctx outer pos body found)) :=
      (ih _ (.lines read) begun trivial entered sub).mono
        (fun other ho => (List.append_nil (id :: outer)) ▸ ho) (Nat.le_refl _) (fun all => all)
        fun _ _ => Or.inl
    have kept : Keeps True (fun _ => true) (ctx.holding [id]) (s.declaring ctx outer pos body found)
        (reading (ctx.holding [id]) (s.declaring ctx outer pos body found)) :=
      .thenFields ((Moment.minds ⟨depth, .lines (id :: outer) s.fieldList body.lines,
        ctx.holding [id], s.declaring ctx outer pos body found⟩).mono (fun _ => trivial)
          fun _ _ => rfl) _ _
    have unread : ((reading (ctx.holding [id]) (s.declaring ctx outer pos body found)).2.store.get
        id).fields? = none := State.declaring_open kept.learns
    have declared : Spends entered (id :: outer) (weightAll (linesItems body.lines))
        (Whole (linesItems body.lines)) (fun _ => []) (s.declaring ctx outer pos body found)
        (reading (ctx.holding [id]) (s.declaring ctx outer pos body found)) :=
      .bind_free lines fun _ mid _ => .bind_free .evaluate fun _ mid _ => .ofExcept _
    exact finishes (Body.read_worth read) declared unread fun registry done =>
      declared_fields (Prod.ext done rfl)

end Spends

theorem Moment.spends (m : Moment) : m.Spends := by
  induction m using Moment.induction with
  | step m ih =>
    obtain ⟨depth, task, ctx, s⟩ := m
    cases task with
    | expression => exact Spends.expression ih
    | base => exact Spends.base ih
    | suffixes => exact Spends.suffixes ih
    | suffix => exact Spends.suffix ih
    | body => exact Spends.body ih
    | lines => exact Spends.lines ih
    | line => exact Spends.line ih
    | resolve => exact Spends.resolve ih
    | force => exact Spends.force ih

end NamespaceLang

import SyntaxDrawing.Proofs.Graph.Description

/-!
# Skipping mappings contracts a graph

The graph that skips mappings is the full graph with the nodes of mappings contracted away. What is
left keeps its data and its order, and its parent is the nearest ancestor that is left. Only ids
with the tag of unnamed values may shift.
-/

namespace SyntaxDrawing

variable {α : Type}

def Graph.Leads (graph : Graph α) (source target : String) : Prop :=
  ∃ e ∈ graph.edges, e.source = source ∧ e.target = target

inductive Graph.NearestKept (graph : Graph α) (kept : List String) : String → String → Prop
  | parent {s u : String} (h : graph.Leads s u) (hs : s ∈ kept) : NearestKept graph kept s u
  | above {r s u : String} (h : graph.Leads s u) (hs : s ∉ kept)
      (hr : NearestKept graph kept r s) : NearestKept graph kept r u

/-- The nodes of `thin` are those of `full` that are kept, and each has the nearest of its kept
ancestors for a parent. -/
structure Graph.Contracts (keep : Node α → Bool) (full thin : Graph α) : Prop where
  nodes : thin.nodes.map (fun n => (n.label, n.span, n.source)) =
    (full.nodes.filter keep).map fun n => (n.label, n.span, n.source)
  parents : ∀ x ∈ thin.nodes.zip (full.nodes.filter keep),
    ∀ y ∈ thin.nodes.zip (full.nodes.filter keep), thin.Leads y.1.id x.1.id ↔
      full.NearestKept ((full.nodes.filter keep).map Node.id) y.2.id x.2.id
  tops : ∀ x ∈ thin.nodes.zip (full.nodes.filter keep), (∃ s, thin.Leads s x.1.id) ↔
    ∃ s, full.NearestKept ((full.nodes.filter keep).map Node.id) s x.2.id

section

variable [Coordinate α] {policy : Policy} {t : Tree}

theorem leads_described_iff {s : String} {p : Occurrence} (hp : p ∈ t.emitted policy) :
    (Graph.described policy none t : Graph α).Leads s (t.idAt policy p) ↔
      ∃ q, p.nearest? policy = some q ∧ t.idAt policy q = s := by
  simp only [Graph.Leads, Graph.described, Option.or_none, List.mem_filterMap,
    Option.map_eq_some_iff]
  constructor
  · rintro ⟨_, ⟨r, hr, _, ⟨q, hq, rfl⟩, rfl⟩, hSource, hTarget⟩
    obtain rfl := eq_of_idAt_eq hr hp hTarget
    exact ⟨q, hq, hSource⟩
  · rintro ⟨q, hq, rfl⟩
    exact ⟨_, ⟨p, hp, _, ⟨q, hq, rfl⟩, rfl⟩, rfl, rfl⟩

end

theorem emits_skip (p : Occurrence) :
    Policy.emits .skip p = (Policy.emits .emit p && !p.value.isMapping) := by
  simp [Policy.emits]

theorem emitted_skip (t : Tree) :
    t.emitted .skip = (t.emitted .emit).filter fun p => !p.value.isMapping := by
  rw [Tree.emitted, Tree.emitted, List.filter_filter]
  apply List.filter_congr
  intro p _
  rw [emits_skip, Bool.and_comm]

theorem mem_emitted_skip_iff {t : Tree} {p : Occurrence} :
    p ∈ t.emitted .skip ↔ p ∈ t.emitted .emit ∧ p.value.isMapping = false := by
  rw [emitted_skip, List.mem_filter, Bool.not_eq_true']

/-- On the way up without mappings, a mapping is passed over. -/
theorem nearest?_skip (p : Occurrence) :
    p.nearest? .skip = (p.nearest? .emit).bind fun q =>
      if q.value.isMapping then q.nearest? .skip else some q := by
  obtain ⟨t, steps⟩ := p
  simp only [Occurrence.nearest?, Occurrence.around]
  induction steps with
  | nil => rfl
  | cons step steps ih =>
    rw [Occurrence.aroundSteps, List.find?_cons, List.find?_cons, emits_skip]
    cases hEmits : Policy.emits .emit ⟨step.1, steps⟩ with
    | false => exact ih
    | true =>
      cases hMapping : step.1.isMapping with
      | false => simp [hMapping]
      | true => simp [hMapping]

theorem number_skip {t : Tree} {p : Occurrence} (hTag : p.value.tag ≠ unnamedTag) :
    t.number .skip p = t.number .emit p := by
  rw [Tree.number, Tree.number, emitted_skip, List.countP_filter]
  apply List.countP_congr
  intro q _
  have hMapping : q.value.tag = p.value.tag → q.value.isMapping = false := by
    intro hSame
    cases hValue : q.value with
    | mapping fields =>
      rw [← hSame, hValue] at hTag
      exact absurd rfl hTag
    | _ => rfl
  simp only [Bool.and_eq_true, decide_eq_true_eq, Bool.not_eq_true']
  constructor
  · exact And.left
  · exact fun h => ⟨h, hMapping h.1⟩

section

variable [Coordinate α] (t : Tree)

abbrev nodeAt (α : Type) [Coordinate α] (policy : Policy) (t : Tree) (p : Occurrence) : Node α :=
  .ofSource (t.idAt policy p) p.value.label p.value

theorem kept_described : (Graph.described .emit none t : Graph α).nodes.filter
    (fun n => !n.source.isMapping) = (t.emitted .skip).map (nodeAt α .emit t) := by
  rw [Graph.described, List.filter_map, emitted_skip]
  rfl

variable {t}

theorem idAt_mem_kept_iff {q : Occurrence} (hq : q ∈ t.emitted .emit) :
    t.idAt .emit q ∈ (t.emitted .skip).map (t.idAt .emit) ↔ q.value.isMapping = false := by
  rw [List.mem_map]
  constructor
  · rintro ⟨r, hr, hId⟩
    have hr := mem_emitted_skip_iff.mp hr
    rw [← eq_of_idAt_eq hr.1 hq hId]
    exact hr.2
  · exact fun hMapping => ⟨q, mem_emitted_skip_iff.mpr ⟨hq, hMapping⟩, rfl⟩

theorem nearestKept_of_nearest? {p q : Occurrence} (hp : p ∈ t.emitted .emit)
    (hq : p.nearest? .skip = some q) :
    (Graph.described .emit none t : Graph α).NearestKept ((t.emitted .skip).map (t.idAt .emit))
      (t.idAt .emit q) (t.idAt .emit p) := by
  -- Induction on the number of nodes around, which drops by one on the way to the nearest.
  induction hLevel : p.level .emit generalizing p with
  | zero =>
    rw [nearest?_skip, (Occurrence.level_eq_zero_iff .emit).mp hLevel] at hq
    cases hq
  | succ n ih =>
    rw [nearest?_skip] at hq
    obtain ⟨r, hr, hSkip⟩ := Option.bind_eq_some_iff.mp hq
    have hMem := Tree.mem_emitted_of_nearest? hp hr
    have hLeads := (leads_described_iff (α := α) hp).mpr ⟨r, hr, rfl⟩
    cases hMapping : r.value.isMapping with
    | false =>
      rw [hMapping] at hSkip
      cases hSkip
      exact .parent hLeads ((idAt_mem_kept_iff hMem).mpr hMapping)
    | true =>
      rw [hMapping] at hSkip
      rw [Occurrence.level_eq, hr] at hLevel
      refine .above hLeads ?_ (ih hMem hSkip (Nat.succ.inj hLevel))
      rw [idAt_mem_kept_iff hMem, hMapping]
      exact Bool.noConfusion

theorem nearest?_of_nearestKept {s u : String}
    (h : (Graph.described .emit none t : Graph α).NearestKept
      ((t.emitted .skip).map (t.idAt .emit)) s u)
    {p : Occurrence} (hp : p ∈ t.emitted .emit) (hu : u = t.idAt .emit p) :
    ∃ q, p.nearest? .skip = some q ∧ t.idAt .emit q = s := by
  induction h generalizing p with
  | parent hLeads hs =>
    subst hu
    obtain ⟨q, hq, rfl⟩ := (leads_described_iff hp).mp hLeads
    have hMapping := (idAt_mem_kept_iff (Tree.mem_emitted_of_nearest? hp hq)).mp hs
    exact ⟨q, by rw [nearest?_skip, hq, Option.bind_some, hMapping]; rfl, rfl⟩
  | above hLeads hs _ ih =>
    subst hu
    obtain ⟨r, hr, rfl⟩ := (leads_described_iff hp).mp hLeads
    have hMem := Tree.mem_emitted_of_nearest? hp hr
    rw [idAt_mem_kept_iff hMem, Bool.not_eq_false] at hs
    obtain ⟨q, hq, hId⟩ := ih hMem rfl
    exact ⟨q, by rw [nearest?_skip, hr, Option.bind_some, hs]; exact hq, hId⟩

theorem nearestKept_iff {s : String} {p : Occurrence} (hp : p ∈ t.emitted .emit) :
    (Graph.described .emit none t : Graph α).NearestKept ((t.emitted .skip).map (t.idAt .emit)) s
      (t.idAt .emit p) ↔ ∃ q, p.nearest? .skip = some q ∧ t.idAt .emit q = s := by
  constructor
  · exact fun h => nearest?_of_nearestKept h hp rfl
  · rintro ⟨q, hq, rfl⟩
    exact nearestKept_of_nearest? hp hq

theorem described_skip_contracts (t : Tree) :
    Graph.Contracts (fun n : Node α => !n.source.isMapping) (Graph.described .emit none t)
      (Graph.described .skip none t) := by
  have hPairs : ∀ x ∈ (Graph.described .skip none t : Graph α).nodes.zip
      ((t.emitted .skip).map (nodeAt α .emit t)),
      ∃ p ∈ t.emitted .skip, x = (nodeAt α .skip t p, nodeAt α .emit t p) := by
    intro x hx
    rw [Graph.described, List.zip_map', List.mem_map] at hx
    obtain ⟨p, hp, rfl⟩ := hx
    exact ⟨p, hp, rfl⟩
  have hIds : ((t.emitted .skip).map (nodeAt α .emit t)).map Node.id =
      (t.emitted .skip).map (t.idAt .emit) := by
    rw [List.map_map]
    rfl
  constructor
  · rw [kept_described, Graph.described, List.map_map, List.map_map]
    rfl
  · rw [kept_described, hIds]
    intro x hx y hy
    obtain ⟨p, hp, rfl⟩ := hPairs x hx
    obtain ⟨q, hq, rfl⟩ := hPairs y hy
    have hpFull := (mem_emitted_skip_iff.mp hp).1
    have hqFull := (mem_emitted_skip_iff.mp hq).1
    refine (leads_described_iff hp).trans (Iff.trans ?_ (nearestKept_iff hpFull).symm)
    constructor
    · rintro ⟨r, hr, hId⟩
      obtain rfl := eq_of_idAt_eq (Tree.mem_emitted_of_nearest? hp hr) hq hId
      exact ⟨r, hr, rfl⟩
    · rintro ⟨r, hr, hId⟩
      have hMem := mem_emitted_skip_iff.mp (Tree.mem_emitted_of_nearest? hp hr)
      obtain rfl := eq_of_idAt_eq hMem.1 hqFull hId
      exact ⟨r, hr, rfl⟩
  · rw [kept_described, hIds]
    intro x hx
    obtain ⟨p, hp, rfl⟩ := hPairs x hx
    have hpFull := (mem_emitted_skip_iff.mp hp).1
    constructor
    · rintro ⟨s, hs⟩
      obtain ⟨q, hq, -⟩ := (leads_described_iff hp).mp hs
      exact ⟨_, (nearestKept_iff hpFull).mpr ⟨q, hq, rfl⟩⟩
    · rintro ⟨s, hs⟩
      obtain ⟨q, hq, -⟩ := (nearestKept_iff hpFull).mp hs
      exact ⟨_, (leads_described_iff hp).mpr ⟨q, hq, rfl⟩⟩

/-- Skipping mappings contracts their nodes away, and a node whose kind is not the tag of unnamed
values keeps its id. -/
theorem build_skip_contracts (t : Tree) :
    let full : Graph α := Graph.build .emit t
    let thin : Graph α := Graph.build .skip t
    let keep : Node α → Bool := fun n => !n.source.isMapping
    Graph.Contracts keep full thin ∧
      ∀ x ∈ thin.nodes.zip (full.nodes.filter keep), ∀ kind, x.2.source.kind? = some kind →
        kind ≠ unnamedTag → x.1.id = x.2.id := by
  intro full thin keep
  have hFull : full = Graph.described .emit none t := visit_graph_eq_described .emit none t
  have hThin : thin = Graph.described .skip none t := visit_graph_eq_described .skip none t
  rw [hFull, hThin]
  refine ⟨described_skip_contracts t, ?_⟩
  intro x hx kind hKind hNamed
  rw [kept_described, Graph.described, List.zip_map', List.mem_map] at hx
  obtain ⟨p, _, rfl⟩ := hx
  have hTag : p.value.tag = kind := by
    rw [Tree.tag, show p.value.kind? = some kind from hKind, Option.getD_some]
  show t.idAt .skip p = t.idAt .emit p
  rw [Tree.idAt, Tree.idAt, number_skip (hTag ▸ hNamed)]

end

end SyntaxDrawing

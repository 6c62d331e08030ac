import ScriptEngine.Engine.Report
import ScriptEngine.Proofs.Conversions

/-! The table of edges.

A host builds edges of conversions, puts them together and takes them from registries. In a
reachable registry with such edges every edge stands under its two ends, its chain leads
from one to the other, and no two edges have the same ends (`Reachable.edgeTable`). So the
edges are listed in strictly ascending order, and neither the list nor the report of the
registry depends on the order in which the edges are kept. -/
namespace ScriptEngine

namespace TypeKey

/-- Of two different keys one has the smaller name. -/
theorem name_lt_or_gt {a b : TypeKey} (h : a ≠ b) : a.name < b.name ∨ b.name < a.name := by
  by_contra hn
  rw [not_or, String.not_lt, String.not_lt] at hn
  exact h (eq_of_name (String.le_antisymm hn.2 hn.1))

end TypeKey

/-! ### Edges that a host can build -/

namespace Edge
variable {σ : Type}

def ends (e : Edge σ) : TypeKey × TypeKey := (e.source, e.target)

/-- The chain of an edge begins with its source and ends with its target. -/
def Chained (e : Edge σ) : Prop := ∃ between, e.chain = e.source :: (between ++ [e.target])

/-- The edges that a host can build: of one conversion, of other edges, or by finding one in a
registry. -/
inductive Built : Edge σ → Prop where
  | direct (source target : TypeKey) (conversion : Conversion σ) :
      Built (.direct source target conversion)
  | followedBy {first second} : Built first → Built second → Built (first.followedBy second)
  | rebased {e} (source : TypeKey) : Built e → Built (e.rebased source)
  | found {r : TypeRegistry σ} {a b : TypeKey} {e} : r.Reachable →
      (∀ e ∈ r.registered, Built e) → r.edge? a b = some e → Built e

/-- One edge stands before another in the order of their ends. -/
def Ascends (a b : Edge σ) : Prop :=
  a.source.name < b.source.name ∨ a.source = b.source ∧ a.target.name < b.target.name

theorem direct_chained (source target : TypeKey) (conversion : Conversion σ) :
    (direct source target conversion).Chained := ⟨[], rfl⟩

theorem Chained.rebased {e : Edge σ} (h : e.Chained) (source : TypeKey) :
    (e.rebased source).Chained := by
  obtain ⟨between, hchain⟩ := h
  refine ⟨e.source :: between, ?_⟩
  simp [Edge.rebased, hchain]

theorem Chained.followedBy {first second : Edge σ} (hfirst : first.Chained)
    (hsecond : second.Chained) : (first.followedBy second).Chained := by
  obtain ⟨left, hleft⟩ := hfirst
  obtain ⟨right, hright⟩ := hsecond
  refine ⟨left ++ first.target :: right, ?_⟩
  simp [Edge.followedBy, hleft, hright]

end Edge

namespace TypeRegistry
variable {σ : Type} {r r' : TypeRegistry σ} {a b : TypeKey} {e : Edge σ}

/-- What registration and the closure make of chained edges is chained. -/
theorem Composite.chained (h : r.Composite a b e) (hchained : ∀ e ∈ r.registered, e.Chained) :
    e.Chained := by
  induction h with
  | registered he => exact hchained _ he
  | rebased _ hlast _ => exact (hchained _ hlast).rebased _
  | followedBy _ hlast _ ih => exact ih.followedBy (hchained _ hlast)

theorem Reachable.entry?_chained (hr : r.Reachable) (hchained : ∀ e ∈ r.registered, e.Chained)
    (he : r.entry? a b = some e) : e.Chained := by
  obtain ⟨r₀, through, _, hclosing⟩ := hr.exists_closing
  rw [hclosing.registered] at hchained
  exact (hclosing.entry he).2.chained hchained

end TypeRegistry

/-- The chain of every edge that a host can build leads from its source to its target. -/
theorem Edge.Built.chained {σ : Type} {e : Edge σ} (h : e.Built) : e.Chained := by
  induction h with
  | direct source target conversion => exact direct_chained source target conversion
  | followedBy _ _ hfirst hsecond => exact hfirst.followedBy hsecond
  | rebased source _ ih => exact ih.rebased source
  | found hr _ he ih =>
    obtain ⟨k, _, hk⟩ := List.exists_of_findSome?_eq_some he
    exact hr.entry?_chained ih hk

namespace TypeRegistry
variable {σ : Type} {r r' : TypeRegistry σ} {a b : TypeKey} {e e' : Edge σ}

/-! ### One edge between two types -/

/-- The edges in the order in which they are kept. -/
def keptEdges (r : TypeRegistry σ) : List (Edge σ) := r.registered ++ r.composed.values

/-- A step registers no edge, or one between two types that had none. -/
theorem Step.registered_cases (hs : r.Step r') : r'.registered = r.registered ∨
    ∃ e, r.entry? e.source e.target = none ∧ r'.registered = r.registered ++ [e] := by
  cases hs with
  | type h =>
    obtain ⟨_, _, _, rfl⟩ := registerType_ok.mp h
    exact .inl rfl
  | converter h =>
    obtain ⟨_, _, _, _, hnone, rfl⟩ := registerEdge_ok.mp (registerConverter_ok.mp h).2.2
    exact .inr ⟨_, hnone, rfl⟩
  | edge h =>
    obtain ⟨_, _, _, _, hnone, rfl⟩ := registerEdge_ok.mp h
    exact .inr ⟨_, hnone, rfl⟩
  | comparator h =>
    obtain ⟨_, _, _, _, rfl⟩ := registerComparator_ok.mp h
    exact .inl rfl
  | sealed h => exact .inl (sealed_extends h).registered

theorem Step.registered_subset (hs : r.Step r') : r.registered ⊆ r'.registered := by
  rcases hs.registered_cases with h | ⟨e, _, h⟩
  · exact h ▸ List.Subset.refl _
  · exact h ▸ List.subset_append_left _ _

/-- A registered edge stays under its ends, whatever is registered later, and after the seal. -/
theorem Reachable.entry?_registered (hr : r.Reachable) (he : e ∈ r.registered)
    (hsteps : Relation.ReflTransGen Step r r') : r'.entry? e.source e.target = some e := by
  have hlater : r'.Reachable ∧ e ∈ r'.registered := by
    induction hsteps with
    | refl => exact ⟨hr, he⟩
    | tail _ hstep ih => exact ⟨ih.1.step hstep, hstep.registered_subset ih.2⟩
  exact entry?_eq_some.mpr (.inl (hlater.1.wellFormed.unique e hlater.2))

theorem registeredEdge?_eq_none :
    r.registeredEdge? a b = none ↔ (a, b) ∉ r.registered.map Edge.ends := by
  simp [registeredEdge?, Edge.ends]

/-- An edge with ends that no registered edge has keeps the ends apart. -/
theorem nodup_ends_withEdge (h : (r.registered.map Edge.ends).Nodup)
    (hnone : r.entry? e.source e.target = none) :
    ((r.registered ++ [e]).map Edge.ends).Nodup := by
  have hnew : e.ends ∉ r.registered.map Edge.ends :=
    registeredEdge?_eq_none.mp (entry?_eq_none.mp hnone).1
  rw [List.map_append, List.map_singleton, List.nodup_append]
  refine ⟨h, List.nodup_singleton _, fun p hp q hq hpq => hnew ?_⟩
  rw [← List.mem_singleton.mp hq, ← hpq]
  exact hp

theorem Reachable.nodup_ends (hr : r.Reachable) : (r.registered.map Edge.ends).Nodup := by
  induction hr with
  | initial => exact List.nodup_nil
  | step _ hs ih =>
    rcases hs.registered_cases with h | ⟨e, hnone, h⟩
    · exact h ▸ ih
    · exact h ▸ nodup_ends_withEdge ih hnone

theorem WellFormed.nodup_composed (h : r.WellFormed) (hopen : r.isSealed = false) :
    r.composed.keys.Nodup := by
  rw [h.uncomposed hopen]
  exact List.nodup_nil

theorem nodup_composed_compose (h : r.composed.keys.Nodup) (source : TypeKey)
    (step : Search.Arrival TypeKey TypeKey) : (r.compose source step).composed.keys.Nodup := by
  unfold compose
  split
  · exact h
  · split
    · exact h
    · exact Table.nodup_keys_insert h _ _

theorem nodup_composed_closure (h : r.composed.keys.Nodup) : r.closure.composed.keys.Nodup :=
  closure_induction (P := fun r => r.composed.keys.Nodup) h
    fun _ source step hr => nodup_composed_compose hr source step

theorem Reachable.nodup_composed (hr : r.Reachable) : r.composed.keys.Nodup := by
  cases hsealed : r.isSealed with
  | false => exact hr.wellFormed.nodup_composed hsealed
  | true =>
    obtain ⟨r₀, hr₀, hs⟩ := hr.exists_open hsealed
    obtain ⟨hopen, rfl⟩ := sealed_ok.mp hs
    exact nodup_composed_closure (hr₀.wellFormed.nodup_composed hopen)

/-! ### What the table keeps to -/

/-- What the table of edges keeps to. -/
structure EdgeTable (r : TypeRegistry σ) : Prop where
  /-- An edge stands under its ends, two different registered types, and its chain leads from one to
  the other. -/
  entry : ∀ {a b e}, r.entry? a b = some e →
    e.source = a ∧ e.target = b ∧ a ≠ b ∧ a ∈ r.keys ∧ b ∈ r.keys ∧ e.Chained
  /-- A registered edge stays, whatever is registered later, and after the seal. -/
  registered : ∀ e ∈ r.registered, ∀ s, Relation.ReflTransGen Step r s →
    s.entry? e.source e.target = some e
  /-- Edges are composed for types that have no registered one and are not assignable. -/
  composed : ∀ {a b e}, r.composed.get? (a, b) = some e →
    r.registeredEdge? a b = none ∧ r.isAssignable a b = false
  /-- Counted by their ends, there are as many edges as were registered and composed. -/
  count : ∀ pairs : List (TypeKey × TypeKey), pairs.Nodup →
    (∀ p, p ∈ pairs ↔ ∃ e, r.entry? p.1 p.2 = some e) →
      pairs.length = r.registered.length + r.composedCount
  /-- The list of edges has all of them. -/
  listed : ∀ e, e ∈ r.edges ↔ r.entry? e.source e.target = some e
  /-- It is in strict order, so it has each of them once. -/
  ascending : r.edges.Pairwise Edge.Ascends
  /-- It is the same in whatever order the edges are kept. -/
  unordered : ∀ kept : List (Edge σ), kept.Perm r.keptEdges →
    kept.mergeSort listedBefore = r.edges
  /-- So is the report, with its fingerprint. -/
  report : ∀ (s : TypeRegistry σ) grammar, s.types = r.types → s.listing = r.listing →
    s.comparators = r.comparators → s.keptEdges.Perm r.keptEdges →
      Report.ofRegistries s grammar = Report.ofRegistries r grammar

namespace Reachable
variable (hr : r.Reachable)
include hr

theorem entry?_ends (he : r.entry? a b = some e) : e.source = a ∧ e.target = b := by
  obtain ⟨r₀, through, _, hclosing⟩ := hr.exists_closing
  exact (hclosing.entry he).2.ends

theorem entry?_proper (he : r.entry? a b = some e) : a ≠ b ∧ a ∈ r.keys ∧ b ∈ r.keys := by
  obtain ⟨r₀, through, h, hclosing⟩ := hr.exists_closing
  have hkeys := h.mem_keys_of_reaches (hclosing.entry he).1
  rw [← hclosing.keys] at hkeys
  refine ⟨?_, hkeys⟩
  rcases entry?_eq_some.mp he with he | ⟨_, he⟩
  · obtain ⟨hmem, rfl, rfl⟩ := registeredEdge?_mem he
    exact hr.wellFormed.proper e hmem
  · rintro rfl
    have hforeign := (hclosing.composed he).1.foreign
    rw [r₀.isAssignable_refl] at hforeign
    cases hforeign

theorem composed_foreign (he : r.composed.get? (a, b) = some e) :
    r.registeredEdge? a b = none ∧ r.isAssignable a b = false := by
  obtain ⟨r₀, through, _, hclosing⟩ := hr.exists_closing
  have hcomposes := (hclosing.composed he).1
  rw [hclosing.registeredEdge?, hclosing.isAssignable]
  exact ⟨hcomposes.unregistered, hcomposes.foreign⟩

theorem entry?_composed (he : r.composed.get? (a, b) = some e) : r.entry? a b = some e :=
  entry?_eq_some.mpr (.inr ⟨(hr.composed_foreign he).1, he⟩)

theorem mem_composed_values : e ∈ r.composed.values ↔ r.composed.get? e.ends = some e := by
  rw [Table.values, List.mem_map]
  constructor
  · rintro ⟨⟨⟨a, b⟩, e⟩, hmem, rfl⟩
    have he := (Table.mem_entries hr.nodup_composed).mp hmem
    obtain ⟨rfl, rfl⟩ := hr.entry?_ends (hr.entry?_composed he)
    exact he
  · exact fun he => ⟨(e.ends, e), (Table.mem_entries hr.nodup_composed).mpr he, rfl⟩

theorem mem_keptEdges : e ∈ r.keptEdges ↔ r.entry? e.source e.target = some e := by
  rw [keptEdges, List.mem_append, hr.mem_composed_values, entry?_eq_some]
  constructor
  · rintro (he | he)
    · exact .inl (hr.wellFormed.unique e he)
    · exact .inr ⟨(hr.composed_foreign he).1, he⟩
  · exact Or.imp (fun he => (registeredEdge?_mem he).1) fun he => he.2

theorem nodup_keptEdges : (r.keptEdges.map Edge.ends).Nodup := by
  have hcomposed : r.composed.values.map Edge.ends = r.composed.keys := by
    rw [Table.values, List.map_map, Table.keys]
    refine List.map_congr_left fun entry hentry => ?_
    have he := (Table.mem_entries hr.nodup_composed).mp hentry
    obtain ⟨hsource, htarget⟩ := hr.entry?_ends (hr.entry?_composed he)
    exact Prod.ext hsource htarget
  rw [keptEdges, List.map_append, hcomposed, List.nodup_append]
  refine ⟨hr.nodup_ends, hr.nodup_composed, fun p hp q hq hpq => ?_⟩
  obtain ⟨⟨⟨a, b⟩, e⟩, hentry, rfl⟩ := List.mem_map.mp hq
  have he := (Table.mem_entries hr.nodup_composed).mp hentry
  subst hpq
  exact registeredEdge?_eq_none.mp (hr.composed_foreign he).1 hp

end Reachable

/-! ### The order of edges -/

theorem listedBefore_iff {a b : Edge σ} : listedBefore a b = true ↔
    a.source.name < b.source.name ∨ a.source = b.source ∧ a.target.name ≤ b.target.name := by
  simp [listedBefore]

theorem listedBefore_trans (a b c : Edge σ) (hab : listedBefore a b = true)
    (hbc : listedBefore b c = true) : listedBefore a c = true := by
  rw [listedBefore_iff] at *
  rcases hab with hab | ⟨hab, htarget⟩ <;> rcases hbc with hbc | ⟨hbc, htarget'⟩
  · exact .inl (String.lt_trans hab hbc)
  · exact .inl (hbc ▸ hab)
  · exact .inl (hab ▸ hbc)
  · exact .inr ⟨hab.trans hbc, String.le_trans htarget htarget'⟩

theorem listedBefore_total (a b : Edge σ) : (listedBefore a b || listedBefore b a) = true := by
  rw [Bool.or_eq_true, listedBefore_iff, listedBefore_iff]
  by_cases h : a.source = b.source
  · rcases String.le_total a.target.name b.target.name with htarget | htarget
    · exact .inl (.inr ⟨h, htarget⟩)
    · exact .inr (.inr ⟨h.symm, htarget⟩)
  · exact (TypeKey.name_lt_or_gt h).imp .inl .inl

theorem ends_eq_of_listedBefore (hab : listedBefore e e' = true) (hba : listedBefore e' e = true) :
    e.ends = e'.ends := by
  rw [listedBefore_iff] at hab hba
  rcases hab with hab | ⟨hsource, hab⟩
  · rcases hba with hba | ⟨hsource, _⟩
    · exact absurd hba (String.lt_asymm hab)
    · rw [hsource] at hab
      exact absurd hab (String.lt_irrefl _)
  · rcases hba with hba | ⟨_, hba⟩
    · rw [hsource] at hba
      exact absurd hba (String.lt_irrefl _)
    · rw [Edge.ends, Edge.ends, hsource, TypeKey.eq_of_name (String.le_antisymm hab hba)]

/-- Edges with different ends that are listed in order ascend. -/
theorem ascends_of_listedBefore (hab : listedBefore e e' = true) (hne : e.ends ≠ e'.ends) :
    e.Ascends e' := by
  rw [listedBefore_iff] at hab
  rcases hab with hab | ⟨hsource, htarget⟩
  · exact .inl hab
  · refine .inr ⟨hsource, String.not_le.mp fun hback => hne ?_⟩
    rw [Edge.ends, Edge.ends, hsource, TypeKey.eq_of_name (String.le_antisymm htarget hback)]

theorem edges_perm (r : TypeRegistry σ) : r.edges.Perm r.keptEdges := List.mergeSort_perm ..

theorem pairwise_listedBefore (kept : List (Edge σ)) :
    (kept.mergeSort listedBefore).Pairwise fun a b => listedBefore a b = true :=
  List.pairwise_mergeSort listedBefore_trans listedBefore_total kept

namespace Reachable
variable (hr : r.Reachable)
include hr

theorem mem_edges : e ∈ r.edges ↔ r.entry? e.source e.target = some e :=
  r.edges_perm.mem_iff.trans hr.mem_keptEdges

theorem edges_ascending : r.edges.Pairwise Edge.Ascends := by
  have hends : (r.edges.map Edge.ends).Nodup :=
    (r.edges_perm.map Edge.ends).nodup_iff.mpr hr.nodup_keptEdges
  exact (pairwise_listedBefore r.keptEdges).imp₂ (fun _ _ => ascends_of_listedBefore)
    (List.pairwise_map.mp hends)

/-- Whatever order the edges are kept in, sorting them gives the same list. -/
theorem mergeSort_eq_edges {kept : List (Edge σ)} (hkept : kept.Perm r.keptEdges) :
    kept.mergeSort listedBefore = r.edges := by
  have hperm : (kept.mergeSort listedBefore).Perm r.edges :=
    (List.mergeSort_perm ..).trans (hkept.trans r.edges_perm.symm)
  refine hperm.eq_of_pairwise (fun a b ha hb hab hba => ?_) (pairwise_listedBefore kept)
    (pairwise_listedBefore r.keptEdges)
  have ha' : r.entry? a.source a.target = some a := hr.mem_edges.mp (hperm.mem_iff.mp ha)
  have hb' : r.entry? b.source b.target = some b := hr.mem_edges.mp hb
  obtain ⟨hsource, htarget⟩ := Prod.mk.inj (ends_eq_of_listedBefore hab hba)
  rw [hsource, htarget, hb'] at ha'
  exact (Option.some.inj ha').symm

/-- The pairs of types that have an edge, counted. -/
theorem length_of_entries {pairs : List (TypeKey × TypeKey)} (hnodup : pairs.Nodup)
    (hpairs : ∀ p, p ∈ pairs ↔ ∃ e, r.entry? p.1 p.2 = some e) :
    pairs.length = r.registered.length + r.composedCount := by
  have hmem : ∀ p, p ∈ pairs ↔ p ∈ r.keptEdges.map Edge.ends := by
    intro p
    rw [hpairs, List.mem_map]
    constructor
    · rintro ⟨e, he⟩
      obtain ⟨hsource, htarget⟩ := hr.entry?_ends he
      rw [← hsource, ← htarget] at he
      exact ⟨e, hr.mem_keptEdges.mpr he, Prod.ext hsource htarget⟩
    · rintro ⟨e, he, rfl⟩
      exact ⟨e, hr.mem_keptEdges.mp he⟩
  have hperm := (List.perm_ext_iff_of_nodup hnodup hr.nodup_keptEdges).mpr hmem
  rw [hperm.length_eq, List.length_map, keptEdges, List.length_append, Table.values,
    List.length_map]
  rfl

/-- The report of a registry is the same in whatever order its edges are kept. -/
theorem ofRegistries_eq {s : TypeRegistry σ} (htypes : s.types = r.types)
    (hlisting : s.listing = r.listing) (hcomparators : s.comparators = r.comparators)
    (hkept : s.keptEdges.Perm r.keptEdges) (grammar : Grammar σ) :
    Report.ofRegistries s grammar = Report.ofRegistries r grammar := by
  have hedges : s.edges = r.edges := hr.mergeSort_eq_edges hkept
  have hdescriptor : s.descriptor? = r.descriptor? := by
    funext key
    rw [descriptor?, descriptor?, htypes]
  rw [Report.ofRegistries, Report.ofRegistries, hedges, hdescriptor, hlisting, hcomparators]

/-- **The table of edges** of every registry that a host can reach. -/
theorem edgeTable (hbuilt : ∀ e ∈ r.registered, e.Built) : r.EdgeTable where
  entry {a b e} he := by
    obtain ⟨hsource, htarget⟩ := hr.entry?_ends he
    obtain ⟨hne, ha, hb⟩ := hr.entry?_proper he
    exact ⟨hsource, htarget, hne, ha, hb, hr.entry?_chained (fun e he => (hbuilt e he).chained) he⟩
  registered e he s hsteps := hr.entry?_registered he hsteps
  composed := hr.composed_foreign
  count _ := hr.length_of_entries
  listed _ := hr.mem_edges
  ascending := hr.edges_ascending
  unordered _ := hr.mergeSort_eq_edges
  report _ grammar htypes hlisting hcomparators hkept :=
    hr.ofRegistries_eq htypes hlisting hcomparators hkept grammar

end Reachable

/-- A player converts to a text by way of an integer, in one edge, and a text to an integer. -/
def spliced : TypeRegistry Unit :=
  players [(relabel "player" "integer").followedBy (relabel "integer" "text"),
    relabel "text" "integer"]

theorem spliced_reachable : spliced.Reachable :=
  players_reachable
    |>.step (.edge (e := (relabel "player" "integer").followedBy (relabel "integer" "text")) rfl)
    |>.step (.edge (e := relabel "text" "integer") rfl)

/-- The edge that was put together stays, and the one that is composed goes on from it. -/
theorem spliced_edgeTable : ∃ s, spliced.sealed = .ok s ∧ s.EdgeTable ∧
    (s.entry? ⟨"player"⟩ ⟨"text"⟩).map (·.chain) =
      some [⟨"player"⟩, ⟨"integer"⟩, ⟨"text"⟩] ∧
    (s.entry? ⟨"player"⟩ ⟨"integer"⟩).map (·.chain) =
      some [⟨"player"⟩, ⟨"integer"⟩, ⟨"text"⟩, ⟨"integer"⟩] := by
  obtain ⟨s, hs, hchains⟩ : ∃ s, spliced.sealed = .ok s ∧
      (s.entry? ⟨"player"⟩ ⟨"text"⟩).map (·.chain) =
        some [⟨"player"⟩, ⟨"integer"⟩, ⟨"text"⟩] ∧
      (s.entry? ⟨"player"⟩ ⟨"integer"⟩).map (·.chain) =
        some [⟨"player"⟩, ⟨"integer"⟩, ⟨"text"⟩, ⟨"integer"⟩] := ⟨_, rfl, by decide, by decide⟩
  have hbuilt : ∀ e ∈ s.registered, e.Built := by
    rw [(sealed_extends hs).registered]
    intro e he
    rcases List.mem_pair.mp he with rfl | rfl
    · exact .followedBy (.direct _ _ _) (.direct _ _ _)
    · exact .direct _ _ _
  exact ⟨s, hs, (spliced_reachable.step (.sealed hs)).edgeTable hbuilt, hchains⟩

end TypeRegistry

end ScriptEngine

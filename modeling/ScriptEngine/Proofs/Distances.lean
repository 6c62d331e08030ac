import ScriptEngine.Proofs.Traces

/-! How far a lookup goes.

Where a type has no registered edge to another, of its own or inherited, a lookup in the sealed
registry comes to an edge that was composed. It is the edge of the first type asked that
reaches the target while nothing above that one does. Its chain is a shortest way from there
(`found_edge_shortest`). The type that asked can go that way too, but may have a shorter one, which
sets out by a registered edge of its own: where a supertype converts already, the closure composes
no edge for the type. -/
namespace ScriptEngine.TypeRegistry
variable {σ : Type} {r s : TypeRegistry σ} {a b k : TypeKey} {e : Edge σ} {path : List TypeKey}

/-! ### Ways of a supertype -/

/-- A type can go the ways of its supertypes, setting out from itself. -/
theorem Inherits.route (hk : r.Inherits a k) (hne : k ≠ b) (h : Search.Route r.Leads k b path) :
    Search.Route r.Leads a b (a :: path.tail) := by
  rcases h.cases_first with ⟨_, hend⟩ | ⟨next, rest, hfirst, hrest, rfl⟩
  · exact absurd hend.symm hne
  · exact hrest.cons (hk.leads hfirst)

/-- No way of a type is shorter than a shortest way of another one, unless one is that sets out by
an edge which the other type has not. -/
theorem least_iff (ha : a ≠ b) (h : Search.Shortest r.Leads k b path) :
    (∀ other, Search.Route r.Leads a b other → path.length ≤ other.length) ↔
      ∀ next rest, r.Leads a next → ¬ r.Leads k next → Search.Route r.Leads next b rest →
        path.length ≤ rest.length + 1 := by
  constructor
  · intro hleast next rest hfirst _ hrest
    exact hleast _ (hrest.cons hfirst)
  · intro hothers other hother
    rcases hother.cases_first with ⟨_, hend⟩ | ⟨next, rest, hfirst, hrest, rfl⟩
    · exact absurd hend.symm ha
    · -- A way that sets out by an edge of the other type is a way of that type too.
      by_cases hshared : r.Leads k next
      · exact h.least (k :: rest) (hrest.cons hshared)
      · exact hothers next rest hfirst hshared hrest

/-! ### Lookups -/

/-- What a lookup comes to where no registered edge is found: the edge composed for the first type
that is asked and that an edge was composed for. -/
theorem WellFormed.edge_composed (h : r.WellFormed) (hs : r.sealed = .ok s)
    (hnone : ∀ k ∈ r.lineage a, r.registeredEdge? k b = none) (he : s.edge? a b = some e) :
    e.source ∈ r.lineage a ∧ r.Composes e.source b ∧ ∀ k ∈ r.askedBefore a e, ¬ r.Composes k b := by
  obtain ⟨hsource, hentry, hbefore⟩ := (h.edge_sealed hs).mp he
  refine ⟨hsource, ?_, fun k hk hcomposes => ?_⟩
  · rcases entry?_eq_some.mp hentry with hreg | ⟨_, hcomposed⟩
    · rw [(h.closing_sealed hs).registeredEdge?, hnone _ hsource] at hreg
      cases hreg
    · exact (h.composed_sealed hs).mp ⟨e, hcomposed⟩
  · obtain ⟨e', he'⟩ := (h.composed_sealed hs).mpr hcomposes
    rw [(entry?_eq_none.mp (hbefore k hk)).2] at he'
    cases he'

/-- **How far a lookup goes.** A lookup that comes to no registered edge finds the edge composed for
the first type asked that reaches the target and that has no supertype which does. Its chain is a
shortest way from that type, and a way from the type that asked as well. No way of the latter is
shorter if and only if none is that sets out by a registered edge which only the latter has or
inherits. -/
theorem found_edge_shortest (hr : r.Reachable) (hplain : r.Plain) (hs : r.sealed = .ok s)
    (hforeign : s.isAssignable a b = false)
    (hnone : ∀ k ∈ s.lineage a, s.registeredEdge? k b = none) (he : s.edge? a b = some e) :
    (e.source ∈ r.lineage a ∧ r.Composes e.source b ∧
      ∀ k ∈ r.askedBefore a e, ¬ r.Composes k b) ∧
    Search.Shortest r.Leads e.source b e.chain ∧
    Search.Route r.Leads a b (a :: e.chain.tail) ∧
    ((∀ path, Search.Route r.Leads a b path → e.chain.length ≤ path.length) ↔
      ∀ next rest, r.Leads a next → ¬ r.Leads e.source next → Search.Route r.Leads next b rest →
        e.chain.length ≤ rest.length + 1) := by
  have h := hr.wellFormed
  have hext := (h.closing_sealed hs).toExtends
  rw [hext.lineage, hext.registeredEdge?] at hnone
  rw [hext.isAssignable] at hforeign
  have hfound := h.edge_composed hs hnone he
  have hshortest : Search.Shortest r.Leads e.source b e.chain :=
    (h.sealed_traced hplain hs _ b e ((h.edge_sealed hs).mp he).2.1).shortest
  have hapart : ∀ {x}, r.isAssignable x b = false → x ≠ b := by
    rintro x hx rfl
    rw [r.isAssignable_refl] at hx
    cases hx
  exact ⟨hfound, hshortest, (h.mem_lineage.mp hfound.1).route (hapart hfound.2.1.foreign)
    hshortest.toRoute, least_iff (hapart hforeign) hshortest⟩

/-- A player is an entity. An entity converts to a text by way of a place and an integer, and a
player to an integer. -/
def detoured : TypeRegistry Unit :=
  { initial with
    types := [.object, numbered "entity" [], numbered "player" [⟨"entity"⟩], numbered "place" [],
      numbered "integer" [], numbered "text" []]
    registered := [relabel "entity" "place", relabel "place" "integer", relabel "integer" "text",
      relabel "player" "integer"] }

theorem detoured_reachable : detoured.Reachable :=
  Reachable.initial
    |>.step (.type (d := numbered "entity" []) rfl)
    |>.step (.type (d := numbered "player" [⟨"entity"⟩]) rfl)
    |>.step (.type (d := numbered "place" []) rfl)
    |>.step (.type (d := numbered "integer" []) rfl)
    |>.step (.type (d := numbered "text" []) rfl)
    |>.step (.edge (e := relabel "entity" "place") rfl)
    |>.step (.edge (e := relabel "place" "integer") rfl)
    |>.step (.edge (e := relabel "integer" "text") rfl)
    |>.step (.edge (e := relabel "player" "integer") rfl)

theorem detoured_plain : detoured.Plain := by
  constructor <;> simp [detoured, relabel, Edge.typed, Edge.direct, TypeKey.object]

/-- A player converts to a text by two edges, one of its own. -/
theorem player_shortcut : Search.Route detoured.Leads ⟨"player"⟩ ⟨"text"⟩
    [⟨"player"⟩, ⟨"integer"⟩, ⟨"text"⟩] := by
  have hown : detoured.Leads ⟨"player"⟩ ⟨"integer"⟩ :=
    leads_of_registered (e := relabel "player" "integer") (by simp [detoured])
  have hlast : detoured.Leads ⟨"integer"⟩ ⟨"text"⟩ :=
    leads_of_registered (e := relabel "integer" "text") (by simp [detoured])
  exact ((Search.Route.single _).cons hlast).cons hown

/-- The edge that a player is given: the one of entities. -/
def detour : Edge Unit :=
  ((relabel "entity" "place").followedBy (relabel "place" "integer")).followedBy
    (relabel "integer" "text")

/-- Players take the way of entities, and none is shorter for an entity. -/
theorem entity_detour : ∃ s, detoured.sealed = .ok s ∧
    s.edge? ⟨"player"⟩ ⟨"text"⟩ = some detour ∧
    detour.chain = [⟨"entity"⟩, ⟨"place"⟩, ⟨"integer"⟩, ⟨"text"⟩] ∧
    ∀ path, Search.Route detoured.Leads ⟨"entity"⟩ ⟨"text"⟩ path → 4 ≤ path.length := by
  obtain ⟨_, hshortest, _⟩ := found_edge_shortest (a := ⟨"player"⟩) (b := ⟨"text"⟩)
    (e := detour) detoured_reachable detoured_plain rfl (by decide) (by decide) rfl
  exact ⟨_, rfl, rfl, rfl, hshortest.least⟩

/-- That way is not the shortest one of a player. -/
theorem player_detour : ∃ s, detoured.Reachable ∧ detoured.Plain ∧ detoured.sealed = .ok s ∧
    s.isAssignable ⟨"player"⟩ ⟨"text"⟩ = false ∧
    (∀ k ∈ s.lineage ⟨"player"⟩, s.registeredEdge? k ⟨"text"⟩ = none) ∧
    s.edge? ⟨"player"⟩ ⟨"text"⟩ = some detour ∧
    ¬ ∀ path, Search.Route detoured.Leads ⟨"player"⟩ ⟨"text"⟩ path →
      detour.chain.length ≤ path.length :=
  ⟨_, detoured_reachable, detoured_plain, rfl, by decide, by decide, rfl,
    fun hleast => absurd (hleast _ player_shortcut) (by decide)⟩

end ScriptEngine.TypeRegistry

import ScriptEngine.Proofs.Conversions
import ScriptEngine.Proofs.Levels

/-! What composed edges compute.

The step from a type to another is made by the registered edge of the nearest type above the first
that has one (`nearestEdge?`). Where registered edges are direct and none leaves the universal type,
every edge between two types is `Traced`: its chain is a shortest route of such steps, and it
applies the edges of the steps in order. The closure keeps this, since an edge that is composed
takes one more step after the edge to the place that the search came from, and a search arrives by
shortest routes. -/
namespace ScriptEngine.TypeRegistry
variable {σ : Type} {r r₀ s : TypeRegistry σ} {a b c : TypeKey} {e first last : Edge σ}

/-! ### Steps -/

/-- The registered edge to a type of the nearest type above another that has one. -/
def nearestEdge? (r : TypeRegistry σ) (x y : TypeKey) : Option (Edge σ) :=
  (r.lineage x).findSome? fun k => r.registeredEdge? k y

/-- What the steps along a chain of types make of a value, failing as soon as one of them fails. -/
def along (r : TypeRegistry σ) : List TypeKey → Value → HostM σ (Option Value)
  | [], v => pure (some v)
  | [_], v => pure (some v)
  | x :: y :: rest, v => do
    match r.nearestEdge? x y with
    | none => return none
    | some e =>
      match ← e.apply v with
      | none => return none
      | some between => r.along (y :: rest) between

theorem nearestEdge?_own (h : r.registeredEdge? a b = some e) : r.nearestEdge? a b = some e := by
  rw [nearestEdge?, lineage, List.findSome?_cons, h]

theorem registeredEdge?_of_nearest (h : r.nearestEdge? a b = some e) :
    r.registeredEdge? e.source b = some e := by
  obtain ⟨k, _, hk⟩ := List.exists_of_findSome?_eq_some h
  rwa [(registeredEdge?_mem hk).2.1]

theorem WellFormed.arrow_eq_leads (h : r.WellFormed) : Search.Arrow r.departures = r.Leads :=
  funext fun _ => funext fun _ => propext h.arrow_departures

/-- The first departure to a type is by the nearest edge. -/
theorem find?_departures (x y : TypeKey) : ((r.departures x).find? fun d => d.2 == y) =
    (r.nearestEdge? x y).map fun e => (e.source, e.target) := by
  have hvia : ∀ via, (((r.registered.filter fun e => e.source == via).map fun e =>
      (via, e.target)).find? fun d => d.2 == y) =
      (r.registeredEdge? via y).map fun e => (e.source, e.target) := by
    intro via
    rw [List.find?_map, List.find?_filter, registeredEdge?]
    have hsame : (fun e : Edge σ => decide ((e.source == via) = true ∧
        ((fun d : TypeKey × TypeKey => d.2 == y) ∘ fun e => (via, e.target)) e = true)) =
        fun e => e.source == via && e.target == y := by
      funext e
      rw [Bool.decide_and, Bool.decide_eq_true, Bool.decide_eq_true]
      rfl
    rw [hsame]
    refine Option.map_congr fun e he => ?_
    rw [(registeredEdge?_mem he).2.1]
  rw [departures, List.find?_flatMap, nearestEdge?, List.map_findSome?]
  exact congrArg (fun f => (r.lineage x).findSome? f) (funext hvia)

theorem along_pair (h : r.nearestEdge? a b = some e) (v : Value) :
    r.along [a, b] v = e.apply v := by
  rw [along, h]
  refine Eq.trans (bind_congr fun out => ?_) (bind_pure (e.apply v))
  cases out <;> rfl

/-- One more step after the steps along a chain. -/
theorem along_concat {chain : List TypeKey} (hb : chain.getLast? = some b) (v : Value) :
    r.along (chain ++ [c]) v = (do
      match ← r.along chain v with
      | none => return none
      | some between => r.along [b, c] between) := by
  induction chain generalizing v with
  | nil => cases hb
  | cons x rest ih =>
    cases rest with
    | nil =>
      obtain rfl : x = b := by simpa using hb
      simp only [List.singleton_append, along.eq_2, pure_bind]
    | cons y rest =>
      have hrest : (y :: rest).getLast? = some b := by simpa using hb
      rw [List.cons_append, List.cons_append, along, along]
      cases r.nearestEdge? x y with
      | none => rw [pure_bind]
      | some e =>
        simp only [bind_assoc]
        refine bind_congr fun out => ?_
        cases out with
        | none => rw [pure_bind]
        | some between => exact ih hrest between

/-! ### Edges as their chains say -/

/-- An edge takes the steps of its chain, and its chain is a shortest one. -/
structure Traced (r : TypeRegistry σ) (a b : TypeKey) (e : Edge σ) : Prop where
  shortest : Search.Shortest r.Leads a b e.chain
  applies : ∀ v, e.apply v = r.along e.chain v

/-- An edge of one step only. -/
theorem WellFormed.traced_registered (h : r.WellFormed) (he : e ∈ r.registered)
    (hdirect : e.chain = [e.source, e.target]) : r.Traced e.source e.target e := by
  have hsingle : Search.Route r.Leads e.source e.target [e.source, e.target] :=
    (Search.Route.single e.source).concat (leads_of_registered he)
  refine ⟨hdirect ▸ ⟨hsingle, fun other hother => ?_⟩, fun v => ?_⟩
  · rcases hother.cases_last with ⟨_, hsame⟩ | ⟨_, before, hbefore, _, rfl⟩
    · exact absurd hsame.symm (h.proper e he)
    · have hpos := hbefore.length_pos
      rw [List.length_append]
      simp only [List.length_cons, List.length_nil]
      omega
  · rw [hdirect, along_pair (nearestEdge?_own (h.unique e he))]

/-- An edge of one step more, to a place that no route leads to but by a longer way. -/
theorem Traced.followedBy (h : r.Traced a b first) (hlast : r.nearestEdge? b c = some last)
    (hleads : r.Leads b c) (hchain : last.chain = [last.source, c])
    (hnearer : ∀ path, Search.Route r.Leads a c path →
      ∃ before, Search.Route r.Leads a b before ∧ before.length < path.length) :
    r.Traced a c (first.followedBy last) := by
  have hsteps : (first.followedBy last).chain = first.chain ++ [c] := by
    rw [Edge.followedBy, hchain, List.tail_cons]
  refine ⟨hsteps ▸ ⟨h.shortest.concat hleads, fun path hpath => ?_⟩, fun v => ?_⟩
  · obtain ⟨before, hbefore, hlength⟩ := hnearer path hpath
    have hleast := h.shortest.least before hbefore
    rw [List.length_append, List.length_singleton]
    omega
  · rw [hsteps, along_concat h.shortest.ends, ← h.applies v]
    refine bind_congr fun out => ?_
    cases out with
    | none => rfl
    | some between => exact (along_pair hlast between).symm

/-! ### The closure -/

theorem composeFrom_extends (r : TypeRegistry σ) (through : List TypeKey) :
    r.Extends (through.foldl (fun r source => r.composeFrom source) r) := by
  refine List.foldlRecOn (motive := r.Extends) _ _ (.refl r) fun r' hr' source _ => ?_
  exact List.foldlRecOn (motive := r.Extends) _ _ hr' fun r' hr' step _ =>
    hr'.trans (r'.compose_extends source step)

/-- What holds before the closure, and after each of its steps if before it, holds afterwards. -/
theorem midway_induction {P : TypeRegistry σ → Prop} (hstart : P r)
    (hstep : ∀ through source rest, r.keys = through ++ source :: rest →
      ∀ taken step left, r.journeys source = taken ++ step :: left →
        P (r.midway through source taken) →
        P ((r.midway through source taken).compose source step)) : P r.closure := by
  have hall : ∀ through rest, r.keys = through ++ rest →
      P (through.foldl (fun r source => r.composeFrom source) r) := by
    intro through
    induction through using List.reverseRecOn with
    | nil => exact fun _ _ => hstart
    | append_singleton through source ih =>
      intro rest hsplit
      rw [List.append_assoc, List.singleton_append] at hsplit
      have hjourney : ∀ taken left, r.journeys source = taken ++ left →
          P (r.midway through source taken) := by
        intro taken
        induction taken using List.reverseRecOn with
        | nil => exact fun _ _ => ih _ hsplit
        | append_singleton taken step iht =>
          intro left htaken
          rw [List.append_assoc, List.singleton_append] at htaken
          rw [midway, List.foldl_append, List.foldl_cons, List.foldl_nil]
          exact hstep through source rest hsplit taken step left htaken (iht _ htaken)
      rw [List.foldl_append, List.foldl_cons, List.foldl_nil, composeFrom,
        (r.composeFrom_extends through).journeys]
      exact hjourney _ [] (List.append_nil _).symm
  exact hall r.keys [] (List.append_nil _).symm

/-- The registered edges are each of a single step, and none leaves the universal type. -/
structure Plain (r : TypeRegistry σ) : Prop where
  direct : ∀ e ∈ r.registered, e.chain = [e.source, e.target]
  departs : ∀ e ∈ r.registered, e.source ≠ .object

/-- The edges between two types do what their chains say. -/
def AllTraced (r₀ r : TypeRegistry σ) : Prop :=
  ∀ a b e, r.entry? a b = some e → r₀.Traced a b e

namespace Closing
variable {through : List TypeKey} {source : TypeKey} {step : Search.Arrival TypeKey TypeKey}
  (h : Closing r₀ through r) (hw : r₀.WellFormed) (hd : Due r₀ through r source step)
  (hplain : r₀.Plain) (hnew : ¬ r.converts source step.target = true)
include h hw hd hplain hnew

/-- The edge that is missing takes one more step after the one to the place that the step sets out
from. -/
theorem composite_eq : ∃ first last, r.entry? source step.source = some first ∧
    last ∈ r₀.registered ∧ last.source = step.label ∧ last.target = step.target ∧
    r.composite? source step = some (first.followedBy last) := by
  obtain ⟨hvia, last, hlast, hsource, htarget, hentry⟩ := h.last_edge hw hd
  cases hfirst : r.edge? source step.source with
  | none =>
    obtain ⟨_, hobject⟩ := h.origin_object hw hd hnew hfirst
    have hlabel : step.label = .object := hw.object_inherits.mp (hobject ▸ hvia)
    exact absurd (hsource.trans hlabel) (hplain.departs last hlast)
  | some first =>
    refine ⟨first, last, h.first_edge hw hd hnew hfirst, hlast, hsource, htarget, ?_⟩
    simp only [composite?, hentry, hfirst]

omit hnew in
/-- One step of the closure keeps the edges to what their chains say. -/
theorem compose_traced (htraced : r₀.AllTraced r) (hstep : step ∈ r₀.journeys source) :
    r₀.AllTraced (r.compose source step) := by
  by_cases hnew : r.converts source step.target = true
  · rw [TypeRegistry.compose, if_pos hnew]
    exact htraced
  · obtain ⟨first, last, hfirst, hlast, hsource, htarget, hcomposite⟩ :=
      h.composite_eq hw hd hplain hnew
    have hnearest : r₀.nearestEdge? step.source step.target = some last := by
      have hlabel := Search.search_first hstep
      rw [find?_departures, Option.map_eq_some_iff] at hlabel
      obtain ⟨e, he, hends⟩ := hlabel
      obtain ⟨hesource, hetarget⟩ := Prod.mk.inj hends
      have hown := hw.unique last hlast
      rw [hsource, htarget, ← hesource, registeredEdge?_of_nearest he] at hown
      exact Option.some.inj hown ▸ he
    have hadded : r₀.Traced source step.target (first.followedBy last) := by
      refine (htraced _ _ _ hfirst).followedBy hnearest ?_ ?_ ?_
      · exact hw.arrow_departures.mp ⟨_, hd.arrow⟩
      · rw [hplain.direct last hlast, htarget]
      · exact fun path hpath => hw.arrow_eq_leads ▸
          Search.search_nearer hstep (hw.arrow_eq_leads ▸ hpath)
    intro a b e he
    rw [TypeRegistry.compose, if_neg hnew, hcomposite] at he
    rcases entry?_eq_some.mp he with hreg | ⟨hreg, hget⟩
    · exact htraced a b e (entry?_eq_some.mpr (.inl hreg))
    · rw [Table.get?_insert] at hget
      split at hget
      · rename_i hab
        cases hab
        cases hget
        exact hadded
      · exact htraced a b e (entry?_eq_some.mpr (.inr ⟨hreg, hget⟩))

end Closing

/-- At the seal every edge between two types does what its chain says. -/
theorem WellFormed.sealed_traced (h : r.WellFormed) (hplain : r.Plain) (hs : r.sealed = .ok s) :
    r.AllTraced s := by
  obtain ⟨hopen, rfl⟩ := sealed_ok.mp hs
  refine midway_induction (P := r.AllTraced) (fun a b e he => ?_) ?_
  · rw [h.entry_open hopen] at he
    obtain ⟨hmem, rfl, rfl⟩ := registeredEdge?_mem he
    exact h.traced_registered hmem (hplain.direct e hmem)
  · intro through source rest hsplit taken step left hjourney htraced
    obtain ⟨hclosing, hdue⟩ := h.due_midway hopen hsplit hjourney
    exact hclosing.compose_traced h hdue hplain htraced (by rw [hjourney]; simp)

/-- A pair of types that an edge is composed for is more than one step apart. -/
theorem WellFormed.far_of_composes (h : r.WellFormed) (hab : r.Composes a b)
    {path : List TypeKey} (hpath : Search.Route r.Leads a b path) : 3 ≤ path.length := by
  have hfar : ¬ r.Leads a b := by
    rintro ⟨e, he, hk, rfl⟩
    rcases Relation.reflTransGen_iff_eq_or_transGen.mp hk with hsame | hk
    · have hnone := hab.unregistered
      rw [← hsame, h.unique e he] at hnone
      cases hnone
    · exact hab.topmost _ hk (.single (leads_of_registered he))
  rcases hpath.cases_last with ⟨_, rfl⟩ | ⟨mid, before, hbefore, hlast, rfl⟩
  · exact absurd (r.isAssignable_refl b) (by rw [hab.foreign]; exact Bool.false_ne_true)
  · rcases hbefore.cases_last with ⟨_, rfl⟩ | ⟨earlier, start, hstart, _, rfl⟩
    · exact absurd hlast hfar
    · have hpos := hstart.length_pos
      simp only [List.length_append, List.length_singleton]
      omega

/-- **What a composed edge computes.** Its chain is a shortest route of registered edges, inherited
ones included, of two steps or more, and comes to no type twice. Applied to a value it takes the
steps of the chain in order, each by the registered edge of the nearest type that has one. -/
theorem composed_edge_traced (hr : r.Reachable) (hplain : r.Plain) (hs : r.sealed = .ok s)
    (he : s.composed.get? (a, b) = some e) :
    (Search.Route r.Leads a b e.chain ∧ 3 ≤ e.chain.length ∧ e.chain.Nodup) ∧
      (∀ path, Search.Route r.Leads a b path → e.chain.length ≤ path.length) ∧
      ∀ v, e.apply v = r.along e.chain v := by
  have h := hr.wellFormed
  have hcomposes : r.Composes a b := (h.composed_sealed hs).mp ⟨e, he⟩
  have hentry : s.entry? a b = some e := by
    refine entry?_eq_some.mpr (.inr ⟨?_, he⟩)
    rw [(h.closing_sealed hs).registeredEdge?]
    exact hcomposes.unregistered
  have htraced := h.sealed_traced hplain hs a b e hentry
  have hroute := htraced.shortest.toRoute
  exact ⟨⟨hroute, h.far_of_composes hcomposes hroute, htraced.shortest.nodup⟩,
    htraced.shortest.least, htraced.applies⟩

/-- An integer converts to a player, an entity to a text, and a text to an integer again. -/
def looped : TypeRegistry Unit :=
  players [relabel "integer" "player", relabel "entity" "text", relabel "text" "integer"]

theorem looped_reachable : looped.Reachable :=
  players_reachable
    |>.step (.edge (e := relabel "integer" "player") rfl)
    |>.step (.edge (e := relabel "entity" "text") rfl)
    |>.step (.edge (e := relabel "text" "integer") rfl)

/-- The edge from integers to texts goes by players, who are entities, and there is no shorter
way. -/
theorem looped_traced : ∃ s e, looped.sealed = .ok s ∧
    s.composed.get? (⟨"integer"⟩, ⟨"text"⟩) = some e ∧
    e.chain = [⟨"integer"⟩, ⟨"player"⟩, ⟨"text"⟩] ∧
    (∀ path, Search.Route looped.Leads ⟨"integer"⟩ ⟨"text"⟩ path → 3 ≤ path.length) ∧
    e.apply ⟨⟨"integer"⟩, .i64 7⟩ =
      looped.along [⟨"integer"⟩, ⟨"player"⟩, ⟨"text"⟩] ⟨⟨"integer"⟩, .i64 7⟩ := by
  have hplain : looped.Plain := by
    constructor <;> simp [looped, players, relabel, Edge.typed, Edge.direct, TypeKey.object]
  obtain ⟨_, hleast, happly⟩ := composed_edge_traced (a := ⟨"integer"⟩) (b := ⟨"text"⟩)
    (e := (relabel "integer" "player").followedBy (relabel "entity" "text"))
    looped_reachable hplain rfl rfl
  exact ⟨_, _, rfl, rfl, rfl, hleast, happly _⟩

end ScriptEngine.TypeRegistry

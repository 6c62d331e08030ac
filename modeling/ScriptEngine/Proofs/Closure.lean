import ScriptEngine.Proofs.Supertypes

/-! The closure of a registry under its converters.

A type `Leads` to another by a registered edge of something it inherits from, and
`Reaches` what a chain of such edges leads to. The closure goes through the types in the
order of registration and, for each, through the steps of its journey. `Closing` is what
holds in between: what was composed is composed right, and the types that are through
convert to everything they reach. One step keeps it (`Closing.compose`); for that, each
supertype must be through already, and the edge to the place the step sets out from must
be the type's own. -/
namespace ScriptEngine.TypeRegistry
variable {σ : Type} {r r₀ : TypeRegistry σ}

/-! ### What leads where -/

/-- A registered edge, of the first type or of one that it inherits from, ends in the second. -/
def Leads (r : TypeRegistry σ) (a b : TypeKey) : Prop :=
  ∃ e ∈ r.registered, r.Inherits a e.source ∧ e.target = b

/-- A chain of registered edges, inherited ones included, leads from the first type to the
second. -/
def Reaches (r : TypeRegistry σ) : TypeKey → TypeKey → Prop := Relation.TransGen r.Leads

theorem Inherits.leads {a k b : TypeKey} (h : r.Inherits a k) (hk : r.Leads k b) :
    r.Leads a b := by
  obtain ⟨e, he, hsource, htarget⟩ := hk
  exact ⟨e, he, h.trans hsource, htarget⟩

/-- A type reaches what its supertypes reach. -/
theorem Inherits.reaches {a k b : TypeKey} (h : r.Inherits a k) (hk : r.Reaches k b) :
    r.Reaches a b := by
  obtain ⟨next, hnext, hrest⟩ := Relation.TransGen.head'_iff.mp hk
  exact Relation.TransGen.head'_iff.mpr ⟨next, h.leads hnext, hrest⟩

theorem leads_of_registered {e : Edge σ} (he : e ∈ r.registered) : r.Leads e.source e.target :=
  ⟨e, he, .refl, rfl⟩

theorem registeredEdge?_mem {a b : TypeKey} {e : Edge σ} (h : r.registeredEdge? a b = some e) :
    e ∈ r.registered ∧ e.source = a ∧ e.target = b := by
  refine ⟨List.mem_of_find?_eq_some h, ?_⟩
  simpa using List.find?_some h

namespace WellFormed
variable (h : r.WellFormed) {a b via : TypeKey}
include h

theorem mem_departures : (via, b) ∈ r.departures a ↔
    r.Inherits a via ∧ ∃ e ∈ r.registered, e.source = via ∧ e.target = b := by
  simp only [departures, List.mem_flatMap, List.mem_map, List.mem_filter, h.mem_lineage,
    Prod.mk.injEq, beq_iff_eq]
  constructor
  · rintro ⟨_, hk, e, ⟨he, hsource⟩, rfl, htarget⟩
    exact ⟨hk, e, he, hsource, htarget⟩
  · rintro ⟨hk, e, he, hsource, htarget⟩
    exact ⟨via, hk, e, ⟨he, hsource⟩, rfl, htarget⟩

theorem arrow_departures : Search.Arrow r.departures a b ↔ r.Leads a b := by
  constructor
  · rintro ⟨via, hvia⟩
    obtain ⟨hk, e, he, rfl, htarget⟩ := h.mem_departures.mp hvia
    exact ⟨e, he, hk, htarget⟩
  · rintro ⟨e, he, hk, htarget⟩
    exact ⟨e.source, h.mem_departures.mpr ⟨hk, e, he, rfl, htarget⟩⟩

theorem departures_end (x y : TypeKey) (hxy : Search.Arrow r.departures x y) :
    y ∈ (r.registered.map (·.target)).toFinset := by
  obtain ⟨e, he, _, rfl⟩ := h.arrow_departures.mp hxy
  exact List.mem_toFinset.mpr (List.mem_map_of_mem he)

omit h in
theorem ends_card : (r.registered.map (·.target)).toFinset.card ≤ r.registered.length := by
  simpa using List.toFinset_card_le (r.registered.map (·.target))

theorem mem_journeys : b ∈ (r.journeys a).map (·.target) ↔ b ≠ a ∧ r.Reaches a b := by
  have harrow : Search.Arrow r.departures = r.Leads :=
    funext fun _ => funext fun _ => propext h.arrow_departures
  rw [journeys, Search.mem_search h.departures_end ends_card, harrow, Reaches]

/-- A journey has come to its end: more rounds would find nothing. -/
theorem journeys_saturated {n : Nat} (hn : r.registered.length ≤ n) :
    Search.search r.departures n a = r.journeys a :=
  Search.search_saturated h.departures_end ends_card hn

/-- Only registered types reach anything, and they reach registered types. -/
theorem mem_keys_of_reaches (hab : r.Reaches a b) : a ∈ r.keys ∧ b ∈ r.keys := by
  have hleads : ∀ {a b}, r.Leads a b → a ∈ r.keys ∧ b ∈ r.keys := by
    rintro a _ ⟨e, he, hk, rfl⟩
    refine ⟨?_, (h.endpoints e he).2⟩
    rcases Relation.ReflTransGen.cases_head hk with rfl | ⟨p, hp, _⟩
    · exact (h.endpoints e he).1
    · exact Declares.mem_keys hp
  obtain ⟨_, hfirst, _⟩ := Relation.TransGen.head'_iff.mp hab
  obtain ⟨_, _, hlast⟩ := Relation.TransGen.tail'_iff.mp hab
  exact ⟨(hleads hfirst).1, (hleads hlast).2⟩

end WellFormed

/-! ### What is composed -/

/-- The pairs of types that the closure composes an edge for: there is no conversion without one,
and the first type reaches the second while none of its supertypes does. -/
structure Composes (r : TypeRegistry σ) (a b : TypeKey) : Prop where
  foreign : r.isAssignable a b = false
  unregistered : r.registeredEdge? a b = none
  reaches : r.Reaches a b
  topmost : ∀ p, Relation.TransGen r.Declares a p → ¬ r.Reaches p b

/-- The edges between two types that registration and the closure make. An edge is rebased only
where every value goes, out of the universal type. -/
inductive Composite (r : TypeRegistry σ) : TypeKey → TypeKey → Edge σ → Prop where
  | registered {e} : e ∈ r.registered → Composite r e.source e.target e
  | rebased {a last} : r.Reaches a .object → last ∈ r.registered → last.source = .object →
      Composite r a last.target (last.rebased a)
  | followedBy {a b first last} : Composite r a b first → last ∈ r.registered →
      r.Inherits b last.source → Composite r a last.target (first.followedBy last)

theorem Composite.ends {a b : TypeKey} {e : Edge σ} (h : r.Composite a b e) :
    e.source = a ∧ e.target = b := by
  induction h with
  | registered => exact ⟨rfl, rfl⟩
  | rebased => exact ⟨rfl, rfl⟩
  | followedBy _ _ _ ih => exact ⟨ih.1, rfl⟩

/-! ### In the middle of the closure -/

/-- What holds in the middle of the closure of a registry, when some types are through. -/
structure Closing (r₀ : TypeRegistry σ) (through : List TypeKey) (r : TypeRegistry σ) : Prop
    extends Extends r₀ r where
  composed : ∀ {a b e}, r.composed.get? (a, b) = some e → r₀.Composes a b ∧ r₀.Composite a b e
  complete : ∀ a ∈ through, ∀ b, r₀.Reaches a b → r.converts a b = true

namespace Closing
variable {through : List TypeKey} (h : Closing r₀ through r)
include h

/-- Every edge between two types is one that registration or the closure makes. -/
theorem entry {a b : TypeKey} {e : Edge σ} (he : r.entry? a b = some e) :
    r₀.Reaches a b ∧ r₀.Composite a b e := by
  rcases entry?_eq_some.mp he with he | ⟨_, he⟩
  · obtain ⟨hmem, rfl, rfl⟩ := registeredEdge?_mem he
    rw [h.registered] at hmem
    exact ⟨.single (leads_of_registered hmem), .registered hmem⟩
  · exact ⟨(h.composed he).1.reaches, (h.composed he).2⟩

variable (hw : r₀.WellFormed)
include hw

/-- A type converts to what its supertypes convert to. -/
theorem converts_of_inherits {a k b : TypeKey} (hk : r₀.Inherits a k)
    (hb : r.converts k b = true) : r.converts a b = true := by
  rw [converts_iff, h.isAssignable, h.lineage] at hb ⊢
  rcases hb with hb | ⟨j, hj, he⟩
  · exact .inl (hw.isAssignable_trans (hw.isAssignable_of_inherits hk) hb)
  · exact .inr ⟨j, hw.mem_lineage.mpr (hk.trans (hw.mem_lineage.mp hj)), he⟩

/-- The pairs composed are those that the closure composes for. -/
theorem composed_iff {a b : TypeKey} (ha : a ∈ through) :
    (∃ e, r.composed.get? (a, b) = some e) ↔ r₀.Composes a b := by
  refine ⟨fun ⟨e, he⟩ => (h.composed he).1, fun hab => ?_⟩
  have hconv := h.complete a ha b hab.reaches
  rw [converts_iff, h.isAssignable, hab.foreign] at hconv
  obtain ⟨k, hk, e, he⟩ := hconv.resolve_left Bool.false_ne_true
  rw [h.lineage, hw.mem_lineage] at hk
  rcases Relation.reflTransGen_iff_eq_or_transGen.mp hk with rfl | hk
  · refine ⟨e, ((entry?_eq_some.mp he).resolve_left fun hreg => ?_).2⟩
    rw [h.registeredEdge?, hab.unregistered] at hreg
    cases hreg
  · exact absurd (h.entry he).1 (hab.topmost k hk)

end Closing

/-! ### One step -/

/-- A step may be taken for a type: the supertypes of the type are through, and the step sets out
from the type or from another that it converts to. -/
structure Due (r₀ : TypeRegistry σ) (through : List TypeKey) (r : TypeRegistry σ)
    (source : TypeKey) (step : Search.Arrival TypeKey TypeKey) : Prop where
  supertypes : ∀ p, Relation.TransGen r₀.Declares source p → p ∈ through
  arrow : (step.label, step.target) ∈ r₀.departures step.source
  origin : step.source = source ∨
    r₀.Reaches source step.source ∧ r.converts source step.source = true

namespace Closing
variable {through : List TypeKey} {source : TypeKey} {step : Search.Arrival TypeKey TypeKey}
  (h : Closing r₀ through r) (hw : r₀.WellFormed) (hd : Due r₀ through r source step)
include h hw hd

/-- The step follows a registered edge, which is found. -/
theorem last_edge : r₀.Inherits step.source step.label ∧
    ∃ last ∈ r₀.registered, last.source = step.label ∧ last.target = step.target ∧
      r.entry? step.label step.target = some last := by
  obtain ⟨hvia, last, hlast, hsource, htarget⟩ := hw.mem_departures.mp hd.arrow
  refine ⟨hvia, last, hlast, hsource, htarget, ?_⟩
  rw [← hsource, ← htarget]
  exact h.kept (entry?_eq_some.mpr (.inl (hw.unique last hlast)))

variable (hnew : ¬ r.converts source step.target = true)
include hnew

/-- The last edge is not one that the type inherits, or the type would convert already. -/
theorem last_edge_far : ¬ r₀.Inherits source step.label := by
  intro hk
  obtain ⟨_, last, _, _, _, hentry⟩ := h.last_edge hw hd
  refine hnew (converts_iff.mpr (.inr ⟨step.label, ?_, last, hentry⟩))
  rw [h.lineage]
  exact hw.mem_lineage.mpr hk

/-- So the step sets out from another type, which the type reaches. -/
theorem origin_reached :
    r₀.Reaches source step.source ∧ r.converts source step.source = true := by
  refine hd.origin.resolve_left fun he => h.last_edge_far hw hd hnew ?_
  rw [← he]
  exact (h.last_edge hw hd).1

theorem composes : r₀.Composes source step.target := by
  obtain ⟨hvia, last, hlast, hsource, htarget, _⟩ := h.last_edge hw hd
  have hnext : r₀.Leads step.source step.target := ⟨last, hlast, hsource ▸ hvia, htarget⟩
  refine ⟨?_, ?_, (h.origin_reached hw hd hnew).1.tail hnext, fun p hp hpt => ?_⟩
  · rw [← h.isAssignable, ← Bool.not_eq_true]
    exact fun ha => hnew (converts_iff.mpr (.inl ha))
  · rw [← h.registeredEdge?]
    refine Option.eq_none_iff_forall_ne_some.mpr fun e he => hnew (converts_iff.mpr (.inr ?_))
    exact ⟨source, r.mem_lineage_self source, e, entry?_eq_some.mpr (.inl he)⟩
  · exact hnew (h.converts_of_inherits hw hp.to_reflTransGen
      (h.complete p (hd.supertypes p hp) _ hpt))

/-- The edge to the place that the step sets out from is the type's own: a supertype that has an
edge to it would have been led on to the target as well. -/
theorem first_edge {first : Edge σ} (hfirst : r.edge? source step.source = some first) :
    r.entry? source step.source = some first := by
  obtain ⟨k, hk, he⟩ := List.exists_of_findSome?_eq_some hfirst
  rw [h.lineage, hw.mem_lineage] at hk
  rcases Relation.reflTransGen_iff_eq_or_transGen.mp hk with rfl | hk
  · exact he
  · obtain ⟨hvia, last, hlast, hsource, htarget, _⟩ := h.last_edge hw hd
    exact absurd ((h.entry he).1.tail ⟨last, hlast, hsource ▸ hvia, htarget⟩)
      ((h.composes hw hd hnew).topmost k hk)

/-- Where there is no edge to that place, it is the universal type. -/
theorem origin_object (hfirst : r.edge? source step.source = none) :
    r₀.isAssignable source step.source = true ∧ step.source = .object := by
  have hconv := (h.origin_reached hw hd hnew).2
  rw [converts_iff, h.isAssignable] at hconv
  have hassign := hconv.resolve_right fun ⟨k, hk, e, he⟩ => by
    rw [edge?_eq_none.mp hfirst k hk] at he
    cases he
  refine ⟨hassign, (hw.isAssignable_iff.mp hassign).resolve_right fun hk => ?_⟩
  exact h.last_edge_far hw hd hnew (hk.trans (h.last_edge hw hd).1)

/-- **The closure never gets stuck**: an edge that is missing can be composed, of edges that are
there. -/
theorem composite : ∃ e, r.composite? source step = some e ∧
    r₀.Composite source step.target e := by
  obtain ⟨hvia, last, hlast, hsource, htarget, hentry⟩ := h.last_edge hw hd
  cases hfirst : r.edge? source step.source with
  | none =>
    obtain ⟨hassign, hobject⟩ := h.origin_object hw hd hnew hfirst
    have hlabel : step.label = .object := hw.object_inherits.mp (hobject ▸ hvia)
    refine ⟨last.rebased source, ?_, ?_⟩
    · simp only [composite?, hentry, hfirst, h.isAssignable, hassign, if_true]
    · rw [← htarget]
      exact .rebased (hobject ▸ (h.origin_reached hw hd hnew).1) hlast (hsource.trans hlabel)
  | some first =>
    refine ⟨first.followedBy last, ?_, ?_⟩
    · simp only [composite?, hentry, hfirst]
    · rw [← htarget]
      exact .followedBy (h.entry (h.first_edge hw hd hnew hfirst)).2 hlast (hsource ▸ hvia)

omit hnew in
/-- **One step of the closure** keeps what holds in its middle, and the type converts to the target
of the step afterwards. -/
theorem compose : Closing r₀ through (r.compose source step) ∧
    (r.compose source step).converts source step.target = true := by
  by_cases hnew : r.converts source step.target = true
  · rw [TypeRegistry.compose, if_pos hnew]
    exact ⟨h, hnew⟩
  · obtain ⟨e, he, hcomposite⟩ := h.composite hw hd hnew
    have hcomposes := h.composes hw hd hnew
    have hext := r.compose_extends source step
    have hstep : r.compose source step =
        { r with composed := r.composed.insert (source, step.target) e } := by
      rw [TypeRegistry.compose, if_neg hnew, he]
    refine ⟨⟨h.toExtends.trans hext, ?_, fun a ha b hb => hext.converts (h.complete a ha b hb)⟩, ?_⟩
    · intro a b e' he'
      rw [hstep, Table.get?_insert] at he'
      split at he'
      · rename_i hab
        cases hab
        cases he'
        exact ⟨hcomposes, hcomposite⟩
      · exact h.composed he'
    · refine converts_iff.mpr (.inr ⟨source, mem_lineage_self _ source, e, entry?_eq_some.mpr ?_⟩)
      rw [hext.registeredEdge?, h.registeredEdge?, hstep, Table.get?_insert, if_pos rfl]
      exact .inr ⟨hcomposes.unregistered, rfl⟩

end Closing

/-! ### The whole closure -/

namespace Closing
variable {through : List TypeKey} {source : TypeKey} {seen : List TypeKey}
  {steps : List (Search.Arrival TypeKey TypeKey)}

/-- After some steps of a journey the type converts to all places they arrive at. -/
theorem journey (h : Closing r₀ through r) (hw : r₀.WellFormed)
    (hthrough : ∀ p, Relation.TransGen r₀.Declares source p → p ∈ through)
    (htrail : Search.Trail r₀.departures seen steps)
    (hseen : ∀ x ∈ seen, x = source ∨ r₀.Reaches source x ∧ r.converts source x = true) :
    Closing r₀ through (steps.foldl (fun r step => r.compose source step) r) ∧
      ∀ x, x ∈ steps.map (·.target) ∨ x ∈ seen → x = source ∨ r₀.Reaches source x ∧
        (steps.foldl (fun r step => r.compose source step) r).converts source x = true := by
  induction htrail generalizing r with
  | nil => exact ⟨h, fun x hx => hseen x (hx.resolve_left List.not_mem_nil)⟩
  | @cons seen step rest hsource harrow _ _ ih =>
    have hd : Due r₀ through r source step := ⟨hthrough, harrow, hseen _ hsource⟩
    obtain ⟨hstep, hconv⟩ := h.compose hw hd
    have hleads : r₀.Leads step.source step.target := hw.arrow_departures.mp ⟨_, harrow⟩
    have hreach : r₀.Reaches source step.target := by
      rcases hseen _ hsource with he | ⟨hr, _⟩
      · exact .single (he ▸ hleads)
      · exact hr.tail hleads
    obtain ⟨hrest, hall⟩ := ih hstep fun x hx => by
      rcases List.mem_cons.mp hx with rfl | hx
      · exact .inr ⟨hreach, hconv⟩
      · exact (hseen x hx).imp_right fun hr =>
          ⟨hr.1, (r.compose_extends source step).converts hr.2⟩
    refine ⟨hrest, fun x hx => hall x ?_⟩
    rw [List.map_cons, List.mem_cons] at hx
    rw [List.mem_cons]
    tauto

/-- After its journey a type is through. -/
theorem composeFrom (h : Closing r₀ through r) (hw : r₀.WellFormed)
    (hthrough : ∀ p, Relation.TransGen r₀.Declares source p → p ∈ through) :
    Closing r₀ (through ++ [source]) (r.composeFrom source) := by
  rw [TypeRegistry.composeFrom, h.journeys]
  obtain ⟨hjourney, hall⟩ := h.journey hw hthrough (Search.search_trail _ source)
    fun x hx => .inl (List.mem_singleton.mp hx)
  refine ⟨hjourney.toExtends, hjourney.composed, fun a ha b hb => ?_⟩
  rcases List.mem_append.mp ha with ha | ha
  · exact hjourney.complete a ha b hb
  · obtain rfl := List.mem_singleton.mp ha
    by_cases hab : b = a
    · exact converts_iff.mpr (.inl (hab ▸ isAssignable_refl _ b))
    · exact ((hall b (.inl (hw.mem_journeys.mpr ⟨hab, hb⟩))).resolve_left hab).2

end Closing

namespace WellFormed
variable (h : r.WellFormed)
include h

/-- After any number of types, those are through. -/
theorem closing (hopen : r.isSealed = false) (through rest : List TypeKey)
    (hsplit : r.keys = through ++ rest) :
    Closing r through (through.foldl (fun r source => r.composeFrom source) r) := by
  induction through using List.reverseRecOn generalizing rest with
  | nil =>
    refine ⟨.refl r, fun {a b e} he => ?_, fun a ha => absurd ha List.not_mem_nil⟩
    rw [List.foldl_nil, h.uncomposed hopen] at he
    cases he
  | append_singleton through source ih =>
    rw [List.append_assoc, List.singleton_append] at hsplit
    rw [List.foldl_append, List.foldl_cons, List.foldl_nil]
    exact (ih _ hsplit).composeFrom h fun p hp => h.supertype_before hsplit hp

/-- At the seal all types are through. -/
theorem closing_sealed {s : TypeRegistry σ} (hs : r.sealed = .ok s) : Closing r r.keys s := by
  have hext := sealed_extends hs
  obtain ⟨hopen, rfl⟩ := sealed_ok.mp hs
  have hclosing := h.closing hopen r.keys [] (List.append_nil _).symm
  exact ⟨hext, hclosing.composed, hclosing.complete⟩

end WellFormed

/-- Every reachable registry is an open one in the middle, or at the end, of its closure. -/
theorem Reachable.exists_closing (hr : r.Reachable) :
    ∃ r₀ through, r₀.WellFormed ∧ Closing r₀ through r := by
  cases hsealed : r.isSealed with
  | true =>
    obtain ⟨r₀, hr₀, hs⟩ := hr.exists_open hsealed
    exact ⟨r₀, r₀.keys, hr₀.wellFormed, hr₀.wellFormed.closing_sealed hs⟩
  | false => exact ⟨r, [], hr.wellFormed, hr.wellFormed.closing hsealed [] _ rfl⟩

end ScriptEngine.TypeRegistry

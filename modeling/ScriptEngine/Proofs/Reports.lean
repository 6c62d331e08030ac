import ScriptEngine.Proofs.EdgeTable
import ScriptEngine.Proofs.Listing

/-! What a report says of the registries that it is made of.

What an entry holds is said for one type, one conversion and one construct first
(`TypeEntry.Describes`, `ConverterEntry.Describes`, `ConstructEntry.Describes`). The types are listed
in an order of their own; whatever they ask of each other, also in circles, none of them is left out
or listed twice (`Listing.arrange_perm`). So the report of a sealed registry has each of its types
and edges once, and its comparators and constructs in the order in which they are kept
(`report_describes`). -/
namespace ScriptEngine

/-! ### Entries -/

section
variable {σ : Type}

/-- What an entry holds of a type. One without a name for users goes by its key. -/
structure TypeEntry.Describes (t : TypeEntry) (d : Descriptor σ) : Prop where
  key : t.key = d.key
  plural : t.plural = d.plural
  userName : t.userName = d.userName.getD d.key.name
  supertypes : t.supertypes = d.supertypes
  hasDefault : t.hasDefault = true ↔ ∃ supply, d.supplier = some supply
  hasChanger : t.hasChanger = true ↔ ∃ changer, d.changer = some changer

/-- What an entry holds of an edge. It is flagged if the chain goes beyond the two ends. -/
structure ConverterEntry.Describes (c : ConverterEntry) (e : Edge σ) : Prop where
  source : c.source = e.source
  target : c.target = e.target
  chain : c.chain = e.chain
  composed : c.composed = true ↔ 2 < e.chain.length

/-- What an entry holds of a construct, for each form that a construct has: only expressions have a
rank and a type, only matchers have events. -/
inductive ConstructEntry.Describes : ConstructEntry → Construct σ → Prop
  | condition (name : String) (patterns : List String) (produce : Producer σ) :
    Describes ⟨name, "condition", none, none, [], patterns⟩ ⟨name, .condition, patterns, produce⟩
  | effect (name : String) (patterns : List String) (produce : Producer σ) :
    Describes ⟨name, "effect", none, none, [], patterns⟩ ⟨name, .effect, patterns, produce⟩
  | expression (name : String) (rank : Rank) (type : TypeKey) (patterns : List String)
      (produce : Producer σ) :
    Describes ⟨name, "expression", some rank, some type, [], patterns⟩
      ⟨name, .expression rank type, patterns, produce⟩
  | event (name : String) (events patterns : List String) (produce : Producer σ) :
    Describes ⟨name, "event", none, none, events, patterns⟩
      ⟨name, .event events, patterns, produce⟩

namespace Report

theorem typeEntry_describes (d : Descriptor σ) : (typeEntry d).Describes d :=
  ⟨rfl, rfl, rfl, rfl, Option.isSome_iff_exists, Option.isSome_iff_exists⟩

theorem converterEntry_describes (e : Edge σ) : (converterEntry e).Describes e :=
  ⟨rfl, rfl, rfl, decide_eq_true_iff⟩

theorem constructEntry_describes (c : Construct σ) : (constructEntry c).Describes c := by
  obtain ⟨name, form, patterns, produce⟩ := c
  cases form with
  | condition => exact .condition name patterns produce
  | effect => exact .effect name patterns produce
  | expression rank type => exact .expression name rank type patterns produce
  | event events => exact .event name events patterns produce

end Report

/-- An edge has one entry. -/
theorem ConverterEntry.Describes.eq {c c' : ConverterEntry} {e : Edge σ} (h : c.Describes e)
    (h' : c'.Describes e) : c = c' := by
  obtain ⟨source, target, chain, composed⟩ := c
  obtain ⟨rfl, rfl, rfl, hcomposed⟩ := h
  obtain ⟨source', target', chain', composed'⟩ := c'
  obtain ⟨rfl, rfl, rfl, hcomposed'⟩ := h'
  have hflag : composed = composed' := Bool.eq_iff_iff.mpr (hcomposed.trans hcomposed'.symm)
  rw [hflag]

/-! ### Reporting -/

/-- A report has what two registries hold: each type and each edge once, comparators and constructs
as they stand there. -/
structure Report.Describes (report : Report) (r : TypeRegistry σ) (g : Grammar σ) : Prop where
  version : report.version = "1.0.0"
  /-- The types may be listed in another order than that of registration. -/
  types : ∃ listed, listed.Perm r.types ∧ List.Forall₂ TypeEntry.Describes report.types listed
  typesOnce : (report.types.map (·.key)).Nodup
  converters : ∀ c, c ∈ report.converters ↔ ∃ a b e, r.entry? a b = some e ∧ c.Describes e
  convertersOnce : (report.converters.map fun c => (c.source, c.target)).Nodup
  comparators : report.comparators = r.comparators.map fun c => (c.left, c.right)
  constructs : List.Forall₂ ConstructEntry.Describes report.constructs
    (g.events ++ g.statements ++ g.expressions)
  fingerprint : report.fingerprint = report.computeFingerprint

end

namespace TypeRegistry
variable {σ : Type} {r s : TypeRegistry σ} {d : Descriptor σ}

/-- A registered type is found under its key. -/
theorem WellFormed.descriptor?_of_mem (h : r.WellFormed) (hd : d ∈ r.types) :
    r.descriptor? d.key = some d := by
  have hkey : d.key ∈ r.keys := List.mem_map_of_mem hd
  obtain ⟨found, hfound⟩ := Option.isSome_iff_exists.mp (contains_iff.mpr hkey)
  have hsame : found.key = d.key := by simpa using List.find?_some hfound
  rw [hfound, List.inj_on_of_nodup_map h.keys_nodup (List.mem_of_find?_eq_some hfound) hd hsame]

/-- The types are found again under the keys that are listed. -/
theorem WellFormed.listed_types (h : r.WellFormed) :
    (r.sortedKeys.filterMap r.descriptor?).Perm r.types := by
  have hfound : r.keys.filterMap r.descriptor? = r.types := by
    rw [keys, List.filterMap_map]
    exact (List.filterMap_congr fun d hd => h.descriptor?_of_mem hd).trans List.filterMap_some
  exact hfound ▸ (Listing.arrange_perm h.keys_nodup).filterMap r.descriptor?

/-- **What the report of a sealed registry says.** -/
theorem Reachable.report_describes (hr : r.Reachable) (hs : r.sealed = .ok s)
    (grammar : Grammar σ) : (Report.ofRegistries s grammar).Describes s grammar := by
  have hsealed : s.Reachable := hr.step (.sealed hs)
  have hlisting : s.listing = s.sortedKeys := by
    obtain ⟨_, rfl⟩ := sealed_ok.mp hs
    rfl
  have hlisted : (s.listing.filterMap s.descriptor?).Perm s.types :=
    hlisting ▸ hsealed.wellFormed.listed_types
  refine ⟨rfl, ⟨_, hlisted, ?_⟩, ?_, fun c => ?_, ?_, rfl, ?_, rfl⟩
  · show List.Forall₂ _ ((s.listing.filterMap s.descriptor?).map Report.typeEntry) _
    rw [List.forall₂_map_left_iff, List.forall₂_same]
    exact fun d _ => Report.typeEntry_describes d
  · show (((s.listing.filterMap s.descriptor?).map Report.typeEntry).map (·.key)).Nodup
    rw [List.map_map]
    exact (hlisted.map Descriptor.key).nodup_iff.mpr hsealed.wellFormed.keys_nodup
  · show c ∈ s.edges.map Report.converterEntry ↔ _
    rw [List.mem_map]
    constructor
    · rintro ⟨e, he, rfl⟩
      exact ⟨_, _, e, hsealed.mem_edges.mp he, Report.converterEntry_describes e⟩
    · rintro ⟨a, b, e, he, hc⟩
      obtain ⟨rfl, rfl⟩ := hsealed.entry?_ends he
      exact ⟨e, hsealed.mem_edges.mpr he, (Report.converterEntry_describes e).eq hc⟩
  · show ((s.edges.map Report.converterEntry).map fun c => (c.source, c.target)).Nodup
    rw [List.map_map]
    exact (s.edges_perm.map Edge.ends).nodup_iff.mpr hsealed.nodup_keptEdges
  · show List.Forall₂ _ (grammar.constructs.map Report.constructEntry) grammar.constructs
    rw [List.forall₂_map_left_iff, List.forall₂_same]
    exact fun c _ => Report.constructEntry_describes c

end TypeRegistry

end ScriptEngine

import Mathlib.Logic.Relation
import ScriptEngine.Types.Seal

/-! What registering and sealing do to a registry of types.

Each accepted call is described once, guards included (`registerType_ok` and its
neighbours). A registry is `Reachable` if a host can get it: it comes from the initial one
by accepted calls. Every reachable registry is `WellFormed` (`Reachable.wellFormed`): keys
are distinct, supertypes were registered earlier, and edges lead between different
registered types, at most one between two. A sealed registry is the seal of an open one
(`Reachable.exists_open`). -/
namespace ScriptEngine

theorem Outcome.bind_eq_ok {α β : Type} {x : Outcome α} {f : α → Outcome β} {b : β} :
    (x >>= f) = .ok b ↔ ∃ a, x = .ok a ∧ f a = .ok b := by
  cases x <;> simp [bind, Except.bind]

theorem TypeKey.eq_of_name {a b : TypeKey} (h : a.name = b.name) : a = b := by
  cases a
  cases b
  exact congrArg TypeKey.mk h

namespace TypeRegistry
variable {σ : Type}

/-! ### The checks -/

/-- A type may be declared a subtype of another: the other is registered, and where it has a shape
the two share it. -/
def MayInherit (r : TypeRegistry σ) (d : Descriptor σ) (parent : TypeKey) : Prop :=
  ∃ p, r.descriptor? parent = some p ∧ ∀ shape, p.native = some shape → d.native = some shape

/-- A function on payloads of a shape may name a type: the type is registered, and has that shape
if it has one. -/
def Admits (r : TypeRegistry σ) (key : TypeKey) (shape : Shape) : Prop :=
  ∃ d, r.descriptor? key = some d ∧ ∀ held, d.native = some held → held = shape

theorem contains_iff {r : TypeRegistry σ} {key : TypeKey} :
    r.contains key = true ↔ key ∈ r.keys := by
  simp [contains, descriptor?, keys]

theorem Admits.mem {r : TypeRegistry σ} {key : TypeKey} {shape : Shape} (h : r.Admits key shape) :
    key ∈ r.keys := by
  obtain ⟨d, hd, _⟩ := h
  exact contains_iff.mp (by rw [contains, hd]; rfl)

theorem MayInherit.mem {r : TypeRegistry σ} {d : Descriptor σ} {parent : TypeKey}
    (h : r.MayInherit d parent) : parent ∈ r.keys := by
  obtain ⟨p, hp, _⟩ := h
  exact contains_iff.mp (by rw [contains, hp]; rfl)

theorem checkOpen_ok {r : TypeRegistry σ} {what : Registrand} {u : Unit} :
    r.checkOpen what = .ok u ↔ r.isSealed = false := by
  cases h : r.isSealed <;> simp [checkOpen, refuse, h]

theorem requireType_ok {r : TypeRegistry σ} {key : TypeKey} {d : Descriptor σ} :
    r.requireType key = .ok d ↔ r.descriptor? key = some d := by
  cases h : r.descriptor? key <;> simp [requireType, refuse, h]

theorem checkEndpoint_ok {r : TypeRegistry σ} {key : TypeKey} {shape : Shape} {u : Unit} :
    r.checkEndpoint key shape = .ok u ↔ r.Admits key shape := by
  simp only [checkEndpoint, Outcome.bind_eq_ok, requireType_ok, Admits]
  refine exists_congr fun d => and_congr_right fun _ => ?_
  cases d.native with
  | none => simp
  | some held => by_cases he : held = shape <;> simp [he, refuse]

theorem checkSupertype_ok {r : TypeRegistry σ} {d : Descriptor σ} {parent : TypeKey} {u : Unit} :
    r.checkSupertype d parent = .ok u ↔ r.MayInherit d parent := by
  simp only [checkSupertype, MayInherit]
  cases r.descriptor? parent with
  | none => simp [refuse]
  | some p =>
    cases hn : p.native with
    | none => simp [hn]
    | some shape => by_cases he : d.native = some shape <;> simp [hn, he, refuse]

theorem checkSupertypes_ok {r : TypeRegistry σ} {d : Descriptor σ} {parents : List TypeKey}
    {u : Unit} : r.checkSupertypes d parents = .ok u ↔ ∀ p ∈ parents, r.MayInherit d p := by
  induction parents with
  | nil => simp [checkSupertypes]
  | cons parent rest ih =>
    simp only [checkSupertypes, Outcome.bind_eq_ok, checkSupertype_ok, ih, List.forall_mem_cons,
      exists_const]

/-! ### Edges between two types -/

theorem entry?_eq_some {r : TypeRegistry σ} {a b : TypeKey} {e : Edge σ} :
    r.entry? a b = some e ↔ r.registeredEdge? a b = some e ∨
      r.registeredEdge? a b = none ∧ r.composed.get? (a, b) = some e := by
  unfold entry?
  cases r.registeredEdge? a b <;> simp

theorem entry?_eq_none {r : TypeRegistry σ} {a b : TypeKey} :
    r.entry? a b = none ↔ r.registeredEdge? a b = none ∧ r.composed.get? (a, b) = none := by
  unfold entry?
  cases r.registeredEdge? a b <;> simp

theorem edge?_eq_none {r : TypeRegistry σ} {a b : TypeKey} :
    r.edge? a b = none ↔ ∀ k ∈ r.lineage a, r.entry? k b = none := by
  rw [edge?, List.findSome?_eq_none_iff]

/-- Values convert as they are, or by an edge of a type that theirs inherits from. -/
theorem converts_iff {r : TypeRegistry σ} {a b : TypeKey} :
    r.converts a b = true ↔
      r.isAssignable a b = true ∨ ∃ k ∈ r.lineage a, ∃ e, r.entry? k b = some e := by
  rw [converts, edge?, Bool.or_eq_true, List.findSome?_isSome_iff]
  simp only [Option.isSome_iff_exists]

theorem mem_lineage_self (r : TypeRegistry σ) (a : TypeKey) : a ∈ r.lineage a :=
  List.mem_cons_self ..

/-! ### The calls -/

theorem registerType_ok {r r' : TypeRegistry σ} {d : Descriptor σ} :
    r.registerType d = .ok r' ↔ r.isSealed = false ∧ d.key ∉ r.keys ∧
      (∀ p ∈ d.supertypes, r.MayInherit d p) ∧ r' = { r with types := r.types ++ [d] } := by
  simp only [registerType, Outcome.bind_eq_ok, checkOpen_ok, exists_const]
  refine and_congr_right fun _ => ?_
  by_cases hc : r.contains d.key = true
  · simp [hc, refuse, contains_iff.mp hc]
  · rw [if_neg hc, Outcome.bind_eq_ok]
    simp only [checkSupertypes_ok, exists_const, ← contains_iff]
    simp [hc, pure, Except.pure, @eq_comm _ r']

theorem insertEdge_ok {r r' : TypeRegistry σ} {e : Edge σ} :
    r.insertEdge e = .ok r' ↔ e.source ≠ e.target ∧ r.entry? e.source e.target = none ∧
      r' = { r with registered := r.registered ++ [e] } := by
  by_cases hs : e.source = e.target
  · simp [insertEdge, hs, refuse]
  · by_cases ht : r.entry? e.source e.target = none
    · simp [insertEdge, hs, ht, eq_comm]
    · simp [insertEdge, hs, ht, Option.isSome_iff_ne_none, refuse]

theorem registerEdge_ok {r r' : TypeRegistry σ} {e : Edge σ} :
    r.registerEdge e = .ok r' ↔ r.isSealed = false ∧ e.source ∈ r.keys ∧ e.target ∈ r.keys ∧
      e.source ≠ e.target ∧ r.entry? e.source e.target = none ∧
      r' = { r with registered := r.registered ++ [e] } := by
  simp only [registerEdge, Outcome.bind_eq_ok, checkOpen_ok, requireType_ok, exists_const,
    insertEdge_ok, exists_and_right, ← contains_iff, contains, Option.isSome_iff_exists]

theorem registerConverter_ok {r r' : TypeRegistry σ} {source target : TypeKey}
    {input output : Shape} {convert : input.Carrier → HostM σ (Option output.Carrier)} :
    r.registerConverter source target input output convert = .ok r' ↔
      r.Admits source input ∧ r.Admits target output ∧
        r.registerEdge (.typed source target input output convert) = .ok r' := by
  simp only [registerConverter, Outcome.bind_eq_ok, checkOpen_ok, checkEndpoint_ok, exists_const,
    insertEdge_ok, registerEdge_ok]
  constructor
  · rintro ⟨hopen, hsource, htarget, hrest⟩
    exact ⟨hsource, htarget, hopen, hsource.mem, htarget.mem, hrest⟩
  · rintro ⟨hsource, htarget, hopen, _, _, hrest⟩
    exact ⟨hopen, hsource, htarget, hrest⟩

theorem registerComparator_ok {r r' : TypeRegistry σ} {c : Comparator σ} :
    r.registerComparator c = .ok r' ↔ r.isSealed = false ∧ r.Admits c.left c.leftShape ∧
      r.Admits c.right c.rightShape ∧ r.comparator? c.left c.right = none ∧
      r' = { r with comparators := r.comparators ++ [c] } := by
  simp only [registerComparator, Outcome.bind_eq_ok, checkOpen_ok, checkEndpoint_ok, exists_const]
  refine and_congr_right fun _ => and_congr_right fun _ => and_congr_right fun _ => ?_
  cases r.comparator? c.left c.right <;> simp [refuse, pure, Except.pure, eq_comm]

theorem sealed_ok {r s : TypeRegistry σ} :
    r.sealed = .ok s ↔ r.isSealed = false ∧
      s = { r.closure with listing := r.closure.sortedKeys, isSealed := true } := by
  cases h : r.isSealed <;> simp [sealed, refuse, h, eq_comm]

/-! ### What the seal leaves alone -/

theorem declared_of_types {r r' : TypeRegistry σ} (h : r'.types = r.types) :
    r'.declared = r.declared := by
  funext k
  simp only [declared, descriptor?, h]

theorem ancestors_of_types {r r' : TypeRegistry σ} (h : r'.types = r.types) :
    r'.ancestors = r.ancestors := by
  funext k
  simp only [ancestors, declared_of_types h, h]

/-- The second registry has the types and the registered edges of the first one, and every edge of
it between the same two types. -/
structure Extends (r r' : TypeRegistry σ) : Prop where
  types : r'.types = r.types
  registered : r'.registered = r.registered
  kept : ∀ {a b e}, r.entry? a b = some e → r'.entry? a b = some e

namespace Extends
variable {r r' r'' : TypeRegistry σ}

theorem refl (r : TypeRegistry σ) : r.Extends r := ⟨rfl, rfl, id⟩

theorem trans (h : r.Extends r') (h' : r'.Extends r'') : r.Extends r'' :=
  ⟨h'.types.trans h.types, h'.registered.trans h.registered, fun he => h'.kept (h.kept he)⟩

theorem keys (h : r.Extends r') : r'.keys = r.keys := by
  rw [TypeRegistry.keys, h.types, TypeRegistry.keys]

theorem declared (h : r.Extends r') : r'.declared = r.declared := declared_of_types h.types

theorem ancestors (h : r.Extends r') : r'.ancestors = r.ancestors := ancestors_of_types h.types

theorem lineage (h : r.Extends r') : r'.lineage = r.lineage := by
  funext k
  simp only [TypeRegistry.lineage, h.ancestors]

theorem isAssignable (h : r.Extends r') : r'.isAssignable = r.isAssignable := by
  funext a b
  simp only [TypeRegistry.isAssignable, h.ancestors]

theorem departures (h : r.Extends r') : r'.departures = r.departures := by
  funext k
  simp only [TypeRegistry.departures, h.lineage, h.registered]

theorem journeys (h : r.Extends r') : r'.journeys = r.journeys := by
  funext k
  simp only [TypeRegistry.journeys, h.departures, h.registered]

theorem registeredEdge? (h : r.Extends r') : r'.registeredEdge? = r.registeredEdge? := by
  funext a b
  simp only [TypeRegistry.registeredEdge?, h.registered]

end Extends

theorem Extends.converts {r r' : TypeRegistry σ} (h : r.Extends r') {a b : TypeKey}
    (hc : r.converts a b = true) : r'.converts a b = true := by
  rw [converts_iff] at hc ⊢
  rw [h.isAssignable, h.lineage]
  exact hc.imp_right fun ⟨k, hk, e, he⟩ => ⟨k, hk, e, h.kept he⟩

/-- An edge may be added between two types that had none. -/
theorem extends_insert {r : TypeRegistry σ} {a b : TypeKey} (h : r.entry? a b = none)
    (e : Edge σ) : r.Extends { r with composed := r.composed.insert (a, b) e } := by
  refine ⟨rfl, rfl, fun {a' b' e'} he => ?_⟩
  have hne : (a, b) ≠ (a', b') := by
    rintro ⟨⟩
    rw [h] at he
    cases he
  rw [entry?_eq_some] at he ⊢
  rw [Table.get?_insert, if_neg hne]
  exact he

/-- A conversion is composed only for types between which there is no edge. -/
theorem compose_extends (r : TypeRegistry σ) (source : TypeKey)
    (step : Search.Arrival TypeKey TypeKey) : r.Extends (r.compose source step) := by
  unfold compose
  split
  · exact .refl r
  · rename_i hc
    split
    · exact .refl r
    · refine extends_insert (Option.eq_none_iff_forall_ne_some.mpr fun e he => hc ?_) _
      exact converts_iff.mpr (.inr ⟨source, r.mem_lineage_self source, e, he⟩)

/-- What holds of a registry and of whatever one composition leaves holds of the closure. -/
theorem closure_induction {r : TypeRegistry σ} {P : TypeRegistry σ → Prop} (h : P r)
    (hstep : ∀ r' source step, P r' → P (r'.compose source step)) : P r.closure := by
  unfold closure
  refine List.foldlRecOn (motive := P) _ _ h fun r' hr' source _ => ?_
  unfold composeFrom
  exact List.foldlRecOn (motive := P) _ _ hr' fun r' hr' step _ => hstep r' source step hr'

theorem closure_extends (r : TypeRegistry σ) : r.Extends r.closure :=
  closure_induction (.refl r) fun r' source step hr' => hr'.trans (r'.compose_extends source step)

/-- The closure changes nothing but the composed edges. -/
theorem closure_eq (r : TypeRegistry σ) :
    ∃ composed, r.closure = { r with composed := composed } := by
  refine closure_induction (P := fun r' => ∃ composed, r' = { r with composed := composed })
    ⟨r.composed, rfl⟩ fun r' source step hr' => ?_
  obtain ⟨composed, rfl⟩ := hr'
  unfold compose
  split
  · exact ⟨composed, rfl⟩
  · split
    · exact ⟨composed, rfl⟩
    · exact ⟨_, rfl⟩

/-- The sealed registry has what the closure has. -/
theorem sealed_extends {r s : TypeRegistry σ} (h : r.sealed = .ok s) : r.Extends s := by
  obtain ⟨_, rfl⟩ := sealed_ok.mp h
  have hclosure := r.closure_extends
  exact ⟨hclosure.types, hclosure.registered, hclosure.kept⟩

theorem sealed_comparators {r s : TypeRegistry σ} (h : r.sealed = .ok s) :
    s.comparators = r.comparators := by
  obtain ⟨_, rfl⟩ := sealed_ok.mp h
  obtain ⟨composed, hclosure⟩ := r.closure_eq
  rw [hclosure]

/-! ### Reachable registries -/

/-- One accepted call. -/
inductive Step (r : TypeRegistry σ) : TypeRegistry σ → Prop where
  | type {d r'} : r.registerType d = .ok r' → Step r r'
  | converter {source target input output convert r'} :
      r.registerConverter source target input output convert = .ok r' → Step r r'
  | edge {e r'} : r.registerEdge e = .ok r' → Step r r'
  | comparator {c r'} : r.registerComparator c = .ok r' → Step r r'
  | sealed {s} : r.sealed = .ok s → Step r s

/-- What a host can get by accepted calls; a call that is refused leaves the registry as it is. -/
inductive Reachable : TypeRegistry σ → Prop where
  | initial : Reachable .initial
  | step {r r'} : Reachable r → Step r r' → Reachable r'

/-- A call leaves the types as they are, or puts a new one at the end. -/
theorem Step.types_cases {r r' : TypeRegistry σ} (hs : r.Step r') : r'.types = r.types ∨
    ∃ d, d.key ∉ r.keys ∧ r' = { r with types := r.types ++ [d] } := by
  cases hs with
  | type h =>
    obtain ⟨_, hnew, _, rfl⟩ := registerType_ok.mp h
    exact .inr ⟨_, hnew, rfl⟩
  | converter h =>
    obtain ⟨_, _, _, _, _, rfl⟩ := registerEdge_ok.mp (registerConverter_ok.mp h).2.2
    exact .inl rfl
  | edge h =>
    obtain ⟨_, _, _, _, _, rfl⟩ := registerEdge_ok.mp h
    exact .inl rfl
  | comparator h =>
    obtain ⟨_, _, _, _, rfl⟩ := registerComparator_ok.mp h
    exact .inl rfl
  | sealed h => exact .inl (sealed_extends h).types

theorem Step.types_prefix {r r' : TypeRegistry σ} (hs : r.Step r') : r.types <+: r'.types := by
  rcases hs.types_cases with hsame | ⟨d, _, rfl⟩
  · exact hsame ▸ List.prefix_rfl
  · exact List.prefix_append _ _

theorem Step.keys_subset {r r' : TypeRegistry σ} (hs : r.Step r') : r.keys ⊆ r'.keys :=
  List.map_subset _ hs.types_prefix.subset

/-- What every reachable registry keeps to. -/
structure WellFormed (r : TypeRegistry σ) : Prop where
  keys_nodup : r.keys.Nodup
  universal : TypeKey.object ∈ r.keys
  /-- Supertypes stand before their subtypes; the universal type, first of all, has none. -/
  declared_before : ∀ {before k after}, r.keys = before ++ k :: after →
    ∀ p ∈ r.declared k, p ∈ before
  object_declared : r.declared .object = []
  endpoints : ∀ e ∈ r.registered, e.source ∈ r.keys ∧ e.target ∈ r.keys
  proper : ∀ e ∈ r.registered, e.source ≠ e.target
  unique : ∀ e ∈ r.registered, r.registeredEdge? e.source e.target = some e
  /-- Nothing is composed before the seal. -/
  uncomposed : r.isSealed = false → r.composed = .empty

theorem initial_wellFormed : (initial : TypeRegistry σ).WellFormed where
  keys_nodup := by simp [keys, initial]
  universal := by simp [keys, initial, Descriptor.object]
  declared_before := by
    intro before k after h p hp
    have hk : k = .object := by
      have hmem : k ∈ (initial : TypeRegistry σ).keys := by rw [h]; simp
      simpa [keys, initial, Descriptor.object] using hmem
    subst hk
    exact absurd hp List.not_mem_nil
  object_declared := rfl
  endpoints := by simp [initial]
  proper := by simp [initial]
  unique := by simp [initial]
  uncomposed := fun _ => rfl

/-- A new type has the supertypes it declares, and the others have those they had. -/
theorem declared_withType {r : TypeRegistry σ} {d : Descriptor σ} (hd : d.key ∉ r.keys)
    (k : TypeKey) : ({ r with types := r.types ++ [d] } : TypeRegistry σ).declared k =
      if k = d.key then d.supertypes else r.declared k := by
  simp only [declared, descriptor?, List.find?_append]
  by_cases hk : k = d.key
  · subst hk
    have hnone : r.types.find? (fun d' => d'.key == d.key) = none := by
      simpa [keys] using hd
    simp [hnone]
  · have hne : (d.key == k) = false := by simpa using Ne.symm hk
    rw [if_neg hk, List.find?_singleton, hne]
    cases r.types.find? fun d' => d'.key == k <;> rfl

theorem registeredEdge?_withEdge {r : TypeRegistry σ} {e : Edge σ} {a b : TypeKey}
    {found : Edge σ} (h : r.registeredEdge? a b = some found) :
    ({ r with registered := r.registered ++ [e] } : TypeRegistry σ).registeredEdge? a b =
      some found := by
  simp only [registeredEdge?, List.find?_append] at h ⊢
  rw [h]
  rfl

namespace WellFormed
variable {r r' : TypeRegistry σ}

theorem registerType (h : r.WellFormed) {d : Descriptor σ} (hr : r.registerType d = .ok r') :
    r'.WellFormed := by
  obtain ⟨_, hnew, hparents, rfl⟩ := registerType_ok.mp hr
  have hkeys : ({ r with types := r.types ++ [d] } : TypeRegistry σ).keys = r.keys ++ [d.key] := by
    simp [keys]
  refine ⟨?_, ?_, ?_, ?_, ?_, h.proper, h.unique, h.uncomposed⟩
  · rw [hkeys, List.nodup_append]
    refine ⟨h.keys_nodup, by simp, fun a ha b hb hab => hnew ?_⟩
    rw [← List.mem_singleton.mp hb, ← hab]
    exact ha
  · rw [hkeys]
    exact List.mem_append_left _ h.universal
  · intro before k after hsplit p hp
    rw [declared_withType hnew] at hp
    rw [hkeys] at hsplit
    rcases List.eq_nil_or_concat after with rfl | ⟨after, last, rfl⟩
    · -- The new type stands last, after everything that was registered before it.
      obtain ⟨rfl, hk⟩ := List.append_inj' hsplit rfl
      obtain rfl : d.key = k := by simpa using hk
      rw [if_pos rfl] at hp
      exact (hparents p hp).mem
    · rw [List.concat_eq_append, ← List.cons_append, ← List.append_assoc] at hsplit
      obtain ⟨hold, _⟩ := List.append_inj' hsplit rfl
      have hk : k ≠ d.key := by
        rintro rfl
        exact hnew (by rw [hold]; simp)
      rw [if_neg hk] at hp
      exact h.declared_before hold p hp
  · have hne : TypeKey.object ≠ d.key := fun he => hnew (he ▸ h.universal)
    rw [declared_withType hnew, if_neg hne]
    exact h.object_declared
  · intro e he
    rw [hkeys]
    exact (h.endpoints e he).imp (List.mem_append_left _) (List.mem_append_left _)

theorem registerEdge (h : r.WellFormed) {e : Edge σ} (hr : r.registerEdge e = .ok r') :
    r'.WellFormed := by
  obtain ⟨hopen, hsource, htarget, hne, hnone, rfl⟩ := registerEdge_ok.mp hr
  refine ⟨h.keys_nodup, h.universal, h.declared_before, h.object_declared, ?_, ?_, ?_,
    h.uncomposed⟩
  · intro e' he'
    rcases List.mem_append.mp he' with he' | he'
    · exact h.endpoints e' he'
    · rw [List.mem_singleton.mp he']
      exact ⟨hsource, htarget⟩
  · intro e' he'
    rcases List.mem_append.mp he' with he' | he'
    · exact h.proper e' he'
    · rw [List.mem_singleton.mp he']
      exact hne
  · intro e' he'
    rcases List.mem_append.mp he' with he' | he'
    · exact registeredEdge?_withEdge (h.unique e' he')
    · rw [List.mem_singleton.mp he']
      have hnew := (entry?_eq_none.mp hnone).1
      simp only [registeredEdge?, List.find?_append] at hnew ⊢
      simp [hnew]

theorem sealed (h : r.WellFormed) {s : TypeRegistry σ} (hs : r.sealed = .ok s) : s.WellFormed := by
  have hext := sealed_extends hs
  obtain ⟨_, rfl⟩ := sealed_ok.mp hs
  refine ⟨?_, ?_, ?_, ?_, ?_, ?_, ?_, fun hopen => nomatch hopen⟩
  · rw [hext.keys]; exact h.keys_nodup
  · rw [hext.keys]; exact h.universal
  · rw [hext.keys, hext.declared]; exact h.declared_before
  · rw [hext.declared]; exact h.object_declared
  · rw [hext.registered, hext.keys]; exact h.endpoints
  · rw [hext.registered]; exact h.proper
  · rw [hext.registered, hext.registeredEdge?]; exact h.unique

theorem step (h : r.WellFormed) (hs : r.Step r') : r'.WellFormed := by
  cases hs with
  | type hr => exact h.registerType hr
  | converter hr => exact h.registerEdge (registerConverter_ok.mp hr).2.2
  | edge hr => exact h.registerEdge hr
  | comparator hr =>
    obtain ⟨_, _, _, _, rfl⟩ := registerComparator_ok.mp hr
    exact ⟨h.keys_nodup, h.universal, h.declared_before, h.object_declared, h.endpoints, h.proper,
      h.unique, h.uncomposed⟩
  | sealed hr => exact h.sealed hr

/-- Before the seal all edges are registered ones. -/
theorem entry_open (h : r.WellFormed) (hopen : r.isSealed = false) {a b : TypeKey} :
    r.entry? a b = r.registeredEdge? a b := by
  cases hreg : r.registeredEdge? a b with
  | some e => exact entry?_eq_some.mpr (.inl hreg)
  | none => exact entry?_eq_none.mpr ⟨hreg, by rw [h.uncomposed hopen]; rfl⟩

end WellFormed

theorem Reachable.wellFormed {r : TypeRegistry σ} (h : r.Reachable) : r.WellFormed := by
  induction h with
  | initial => exact initial_wellFormed
  | step _ hs ih => exact ih.step hs

/-- A sealed registry is the seal of an open one. -/
theorem Reachable.exists_open {s : TypeRegistry σ} (h : s.Reachable) (hs : s.isSealed = true) :
    ∃ r : TypeRegistry σ, r.Reachable ∧ r.sealed = .ok s := by
  cases h with
  | initial => exact nomatch hs
  | @step r _ hr hstep =>
    cases hstep with
    | type h =>
      obtain ⟨hopen, _, _, rfl⟩ := registerType_ok.mp h
      exact absurd hs (by simp [hopen])
    | converter h =>
      obtain ⟨hopen, _, _, _, _, rfl⟩ := registerEdge_ok.mp (registerConverter_ok.mp h).2.2
      exact absurd hs (by simp [hopen])
    | edge h =>
      obtain ⟨hopen, _, _, _, _, rfl⟩ := registerEdge_ok.mp h
      exact absurd hs (by simp [hopen])
    | comparator h =>
      obtain ⟨hopen, _, _, _, rfl⟩ := registerComparator_ok.mp h
      exact absurd hs (by simp [hopen])
    | sealed h => exact ⟨r, hr, h⟩

end TypeRegistry

end ScriptEngine

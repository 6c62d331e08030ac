import ScriptEngine.Proofs.Closure

/-! Conversions of a sealed registry.

`sealed_converts_iff` says what the seal comes to: a type converts to what it is assignable
to and to what a chain of registered edges leads to, and to nothing else. That relation is
not transitive. What a conversion arrives at is not followed on to its supertypes, and
conversions out of the universal type are not taken by the types that are assignable to
it; `sealed_transitive_iff` says that nothing else is missing.

A registered edge stays what it is. But the conversion of a type may be one that it
inherits, and the seal may give a conversion to a supertype that is asked earlier;
`sealed_edge_iff` says when. -/
namespace ScriptEngine.TypeRegistry
variable {σ : Type} {r s : TypeRegistry σ}

/-! ### Players, entities, integers and texts -/

/-- A type whose payloads are integers. -/
def numbered (name : String) (parents : List TypeKey) : Descriptor Unit :=
  { Descriptor.ofShape ⟨name⟩ .i64 with supertypes := parents }

def relabel (source target : String) : Edge Unit :=
  .typed ⟨source⟩ ⟨target⟩ .i64 .i64 fun n => pure (some n)

/-- Players are entities. -/
def players (edges : List (Edge Unit)) : TypeRegistry Unit :=
  { initial with
    types := [.object, numbered "entity" [], numbered "player" [⟨"entity"⟩], numbered "integer" [],
      numbered "text" []]
    registered := edges }

/-- A player converts to an integer, and an integer to a text. -/
def chained : TypeRegistry Unit := players [relabel "player" "integer", relabel "integer" "text"]

/-- An integer converts to a player, and everything to a text. -/
def gapped : TypeRegistry Unit := players [relabel "integer" "player", relabel "object" "text"]

theorem players_reachable : (players []).Reachable :=
  Reachable.initial
    |>.step (.type (d := numbered "entity" []) rfl)
    |>.step (.type (d := numbered "player" [⟨"entity"⟩]) rfl)
    |>.step (.type (d := numbered "integer" []) rfl)
    |>.step (.type (d := numbered "text" []) rfl)

theorem chained_reachable : chained.Reachable :=
  players_reachable
    |>.step (.edge (e := relabel "player" "integer") rfl)
    |>.step (.edge (e := relabel "integer" "text") rfl)

theorem gapped_reachable : gapped.Reachable :=
  players_reachable
    |>.step (.edge (e := relabel "integer" "player") rfl)
    |>.step (.edge (e := relabel "object" "text") rfl)

/-! ### What is converted -/

/-- The registry in the middle of the closure, after the journeys from some types and some steps of
the journey from one more. -/
def midway (r : TypeRegistry σ) (through : List TypeKey) (source : TypeKey)
    (taken : List (Search.Arrival TypeKey TypeKey)) : TypeRegistry σ :=
  taken.foldl (fun r step => r.compose source step)
    (through.foldl (fun r source => r.composeFrom source) r)

namespace WellFormed
variable (h : r.WellFormed)
include h

theorem due_midway (hopen : r.isSealed = false) {through rest : List TypeKey} {source : TypeKey}
    (hsplit : r.keys = through ++ source :: rest)
    {taken left : List (Search.Arrival TypeKey TypeKey)} {step : Search.Arrival TypeKey TypeKey}
    (hjourney : r.journeys source = taken ++ step :: left) :
    Closing r through (r.midway through source taken) ∧
      Due r through (r.midway through source taken) source step := by
  have htrail : Search.Trail r.departures [source] (taken ++ step :: left) :=
    hjourney ▸ Search.search_trail _ source
  obtain ⟨htaken, hfrom, harrow⟩ := htrail.split
  have hthrough : ∀ p, Relation.TransGen r.Declares source p → p ∈ through :=
    fun p hp => h.supertype_before hsplit hp
  obtain ⟨hclosing, hall⟩ := (h.closing hopen through _ hsplit).journey h hthrough htaken
    fun x hx => .inl (List.mem_singleton.mp hx)
  exact ⟨hclosing, hthrough, harrow, hall _ hfrom⟩

variable (hs : r.sealed = .ok s) {a b : TypeKey}
include hs

theorem entry_sealed {e : Edge σ} (he : s.entry? a b = some e) :
    r.Reaches a b ∧ r.Composite a b e :=
  (h.closing_sealed hs).entry he

theorem converts_sealed :
    s.converts a b = true ↔ s.isAssignable a b = true ∨ r.Reaches a b := by
  have hclosing := h.closing_sealed hs
  constructor
  · rw [converts_iff, hclosing.lineage]
    refine Or.imp_right ?_
    rintro ⟨k, hk, e, he⟩
    exact Inherits.reaches (h.mem_lineage.mp hk) (hclosing.entry he).1
  · rintro (ha | hab)
    · exact converts_iff.mpr (.inl ha)
    · exact hclosing.complete a (h.mem_keys_of_reaches hab).1 b hab

theorem composed_sealed : (∃ e, s.composed.get? (a, b) = some e) ↔ r.Composes a b :=
  ⟨fun ⟨_, he⟩ => ((h.closing_sealed hs).composed he).1, fun hab =>
    ((h.closing_sealed hs).composed_iff h (h.mem_keys_of_reaches hab.reaches).1).mpr hab⟩

end WellFormed

/-- **What a sealed registry converts.** A type converts to another if and only if it is assignable
to it or a chain of registered edges, inherited ones included, leads there. The journeys from which
this is computed have come to their end, and wherever the closure finds an edge missing it has the
edges to compose it of. -/
theorem sealed_converts_iff (hr : r.Reachable) (hs : r.sealed = .ok s) :
    (∀ a b, s.converts a b = true ↔ s.isAssignable a b = true ∨ r.Reaches a b) ∧
    (∀ source n, r.registered.length ≤ n →
      Search.search r.departures n source = r.journeys source) ∧
    (∀ through source rest, r.keys = through ++ source :: rest →
      ∀ taken step left, r.journeys source = taken ++ step :: left →
        ¬ (r.midway through source taken).converts source step.target = true →
          ∃ e, (r.midway through source taken).composite? source step = some e) := by
  have h := hr.wellFormed
  refine ⟨fun a b => h.converts_sealed hs, fun source n hn => h.journeys_saturated hn, ?_⟩
  intro through source rest hsplit taken step left hjourney hnew
  obtain ⟨hclosing, hdue⟩ := h.due_midway (sealed_ok.mp hs).1 hsplit hjourney
  obtain ⟨e, he, _⟩ := hclosing.composite h hdue hnew
  exact ⟨e, he⟩

/-- No chain of edges makes an entity of an integer. -/
theorem integer_not_entity : ¬ gapped.Reaches ⟨"integer"⟩ ⟨"entity"⟩ := by
  intro hreach
  have hconv := ((sealed_converts_iff gapped_reachable rfl).1 _ _).mpr (.inr hreach)
  exact absurd hconv (by decide)

/-! ### Transitivity -/

namespace WellFormed
variable (h : r.WellFormed) (hs : r.sealed = .ok s) {a b c : TypeKey}
include h hs

theorem converts_of_inherits (hab : r.Inherits a b) (hbc : s.converts b c = true) :
    s.converts a c = true :=
  (h.closing_sealed hs).converts_of_inherits h hab hbc

/-- What a type reaches is followed on, unless the next conversion is to a supertype. -/
theorem converts_of_reaches (hab : r.Reaches a b)
    (hup : ∀ p, Relation.TransGen r.Declares b p → s.converts a p = true)
    (hbc : s.converts b c = true) : s.converts a c = true := by
  rcases (h.converts_sealed hs).mp hbc with hassign | hreach
  · rw [(h.closing_sealed hs).isAssignable, h.isAssignable_iff] at hassign
    rcases hassign with rfl | hinherits
    · exact (h.converts_sealed hs).mpr (.inl (s.isAssignable_object a))
    · rcases Relation.reflTransGen_iff_eq_or_transGen.mp hinherits with rfl | hsuper
      · exact (h.converts_sealed hs).mpr (.inr hab)
      · exact hup c hsuper
  · exact (h.converts_sealed hs).mpr (.inr (hab.trans hreach))

/-- Where the registered edges are followed on to the supertypes of their targets, all chains
are. -/
theorem converts_supertype
    (hup : ∀ e ∈ r.registered, ∀ p, Relation.TransGen r.Declares e.target p →
      s.converts e.source p = true)
    (hab : r.Reaches a b) (hbc : Relation.TransGen r.Declares b c) : s.converts a c = true := by
  have hlast : ∀ {y b c}, r.Leads y b → Relation.TransGen r.Declares b c →
      s.converts y c = true := by
    rintro y _ c ⟨e, he, hy, rfl⟩ hc
    exact h.converts_of_inherits hs hy (hup e he c hc)
  induction hab generalizing c with
  | single hleads => exact hlast hleads hbc
  | tail hay hleads ih =>
    exact h.converts_of_reaches hs hay (fun _ hp => ih hp) (hlast hleads hbc)

/-- Where the registered edges out of the universal type are taken by all types, all chains are. -/
theorem converts_out_of_object
    (hup : ∀ e ∈ r.registered, ∀ p, Relation.TransGen r.Declares e.target p →
      s.converts e.source p = true)
    (hout : ∀ e ∈ r.registered, e.source = .object → ∀ a ∈ r.keys, s.converts a e.target = true)
    (ha : a ∈ r.keys) (hc : r.Reaches .object c) : s.converts a c = true := by
  obtain ⟨x, ⟨e, he, hsource, rfl⟩, hrest⟩ := Relation.TransGen.head'_iff.mp hc
  have hobject : e.source = .object := h.object_inherits.mp hsource
  have hconv := hout e he hobject a ha
  rcases Relation.reflTransGen_iff_eq_or_transGen.mp hrest with rfl | hrest
  · exact hconv
  · have hxc : s.converts e.target c = true := (h.converts_sealed hs).mpr (.inr hrest)
    rcases (h.converts_sealed hs).mp hconv with hassign | hreach
    · rw [(h.closing_sealed hs).isAssignable, h.isAssignable_iff] at hassign
      rcases hassign with htarget | hinherits
      · exact absurd (hobject.trans htarget.symm) (h.proper e he)
      · exact h.converts_of_inherits hs hinherits hxc
    · exact h.converts_of_reaches hs hreach (fun _ hp => h.converts_supertype hs hup hreach hp) hxc

end WellFormed

/-- **When the conversions of a sealed registry are transitive.** They are if and only if the source
of every registered edge converts to the supertypes of the edge's target, and every type converts to
the targets of the edges out of the universal type. -/
theorem sealed_transitive_iff (hr : r.Reachable) (hs : r.sealed = .ok s) :
    (∀ a ∈ s.keys, ∀ b ∈ s.keys, ∀ c ∈ s.keys,
      s.converts a b = true → s.converts b c = true → s.converts a c = true) ↔
    (∀ e ∈ r.registered, ∀ p, Relation.TransGen r.Declares e.target p →
      s.converts e.source p = true) ∧
    (∀ e ∈ r.registered, e.source = .object → ∀ a ∈ r.keys, s.converts a e.target = true) := by
  have h := hr.wellFormed
  have hext := (h.closing_sealed hs).toExtends
  have hedge : ∀ e ∈ r.registered, s.converts e.source e.target = true := fun e he =>
    (h.converts_sealed hs).mpr (.inr (.single (leads_of_registered he)))
  rw [hext.keys]
  constructor
  · intro htrans
    refine ⟨fun e he p hp => ?_, fun e he hobject a ha => ?_⟩
    · have hup : s.converts e.target p = true := converts_iff.mpr (.inl (by
        rw [hext.isAssignable]
        exact h.isAssignable_of_inherits hp.to_reflTransGen))
      exact htrans _ (h.endpoints e he).1 _ (h.endpoints e he).2 p (h.supertype_mem hp)
        (hedge e he) hup
    · have hall : s.converts a e.source = true := converts_iff.mpr (.inl (by
        rw [hobject]
        exact s.isAssignable_object a))
      exact htrans a ha _ (h.endpoints e he).1 _ (h.endpoints e he).2 hall (hedge e he)
  · rintro ⟨hup, hout⟩ a ha b _ c _ hab hbc
    rcases (h.converts_sealed hs).mp hab with hassign | hreach
    · rw [hext.isAssignable, h.isAssignable_iff] at hassign
      rcases hassign with rfl | hinherits
      · rcases (h.converts_sealed hs).mp hbc with hassign | hreach
        · rw [hext.isAssignable] at hassign
          refine converts_iff.mpr (.inl ?_)
          rw [hext.isAssignable]
          exact h.isAssignable_trans (r.isAssignable_object a) hassign
        · exact h.converts_out_of_object hs hup hout ha hreach
      · exact h.converts_of_inherits hs hinherits hbc
    · exact h.converts_of_reaches hs hreach (fun _ hp => h.converts_supertype hs hup hreach hp) hbc

/-- A player converts on to a text, and nothing is missing. -/
theorem chained_transitive : ∃ s, chained.sealed = .ok s ∧
    ∀ a ∈ s.keys, ∀ b ∈ s.keys, ∀ c ∈ s.keys,
      s.converts a b = true → s.converts b c = true → s.converts a c = true := by
  refine ⟨_, rfl, (sealed_transitive_iff chained_reachable rfl).mpr ⟨fun e he p hp => ?_, ?_⟩⟩
  · obtain ⟨q, hq, _⟩ := Relation.TransGen.head'_iff.mp hp
    rcases List.mem_pair.mp he with rfl | rfl <;> exact absurd hq List.not_mem_nil
  · decide

/-- An integer converts to a player, and a player is an entity; an integer is an object, and an
object converts to a text. The integer converts neither to an entity nor to a text. -/
theorem gapped_not_transitive : ∃ s, gapped.Reachable ∧ gapped.sealed = .ok s ∧
    (s.converts ⟨"integer"⟩ ⟨"player"⟩ = true ∧ s.converts ⟨"player"⟩ ⟨"entity"⟩ = true ∧
      s.converts ⟨"integer"⟩ ⟨"entity"⟩ = false) ∧
    (s.converts ⟨"integer"⟩ .object = true ∧ s.converts .object ⟨"text"⟩ = true ∧
      s.converts ⟨"integer"⟩ ⟨"text"⟩ = false) :=
  ⟨_, gapped_reachable, rfl, by decide, by decide⟩

/-! ### The seal and the edges that are there -/

/-- The types that a type asks for an edge before it asks the source of one. -/
def askedBefore (r : TypeRegistry σ) (a : TypeKey) (e : Edge σ) : List TypeKey :=
  (r.lineage a).takeWhile (· != e.source)

/-- The edge of a type is found at its own source, and nowhere before. -/
theorem edge?_eq_some {a b : TypeKey} {e : Edge σ}
    (hsource : ∀ k e, r.entry? k b = some e → e.source = k) : r.edge? a b = some e ↔
      e.source ∈ r.lineage a ∧ r.entry? e.source b = some e ∧
        ∀ k ∈ r.askedBefore a e, r.entry? k b = none := by
  have hfirst : ∀ {before rest}, (∀ k ∈ before, (k != e.source) = true) →
      (before ++ e.source :: rest).takeWhile (· != e.source) = before := by
    intro before rest hne
    rw [List.takeWhile_append_of_pos hne, List.takeWhile_cons, bne_self_eq_false]
    exact List.append_nil before
  rw [edge?, List.findSome?_eq_some_iff, askedBefore]
  constructor
  · rintro ⟨before, k, rest, hsplit, hk, hbefore⟩
    obtain rfl := hsource k e hk
    have hne : ∀ j ∈ before, (j != e.source) = true := fun j hj => bne_iff_ne.mpr fun he => by
      have hnone := hbefore j hj
      rw [he, hk] at hnone
      cases hnone
    rw [hsplit, hfirst hne]
    exact ⟨List.mem_append_right _ (List.mem_cons_self ..), hk, hbefore⟩
  · rintro ⟨hmem, hk, hbefore⟩
    obtain ⟨before, rest, hsplit, hnot⟩ := List.eq_append_cons_of_mem hmem
    have hne : ∀ j ∈ before, (j != e.source) = true := fun j hj =>
      bne_iff_ne.mpr fun he => hnot (he ▸ hj)
    rw [hsplit, hfirst hne] at hbefore
    exact ⟨before, e.source, rest, hsplit, hk, hbefore⟩

namespace WellFormed
variable (h : r.WellFormed) (hs : r.sealed = .ok s) {a b k : TypeKey} {e : Edge σ}
include h hs

/-- The seal adds an edge exactly where the closure composes one. -/
theorem entry_added (hnone : r.entry? a b = none) :
    (∃ e, s.entry? a b = some e) ↔ r.Composes a b := by
  rw [h.entry_open (sealed_ok.mp hs).1] at hnone
  rw [← h.composed_sealed hs]
  simp only [entry?_eq_some, (h.closing_sealed hs).registeredEdge?, hnone]
  simp

theorem edge_open : r.edge? a b = some e ↔ e.source ∈ r.lineage a ∧
    r.entry? e.source b = some e ∧ ∀ k ∈ r.askedBefore a e, r.entry? k b = none :=
  edge?_eq_some fun _ _ he => (registeredEdge?_mem (h.entry_open (sealed_ok.mp hs).1 ▸ he)).2.1

theorem edge_sealed : s.edge? a b = some e ↔ e.source ∈ r.lineage a ∧
    s.entry? e.source b = some e ∧ ∀ k ∈ r.askedBefore a e, s.entry? k b = none := by
  have hlineage := (h.closing_sealed hs).lineage
  rw [edge?_eq_some fun _ _ he => (h.entry_sealed hs he).2.ends.1, askedBefore, askedBefore,
    hlineage]

/-- Where the closure composes an edge, there was no conversion. -/
theorem converts_of_composes (hab : r.Composes a b) : r.converts a b = false := by
  refine Bool.eq_false_iff.mpr fun hconv => ?_
  rw [converts_iff, hab.foreign] at hconv
  obtain ⟨k, hk, e, he⟩ := hconv.resolve_left Bool.false_ne_true
  rw [h.entry_open (sealed_ok.mp hs).1] at he
  rcases Relation.reflTransGen_iff_eq_or_transGen.mp (h.mem_lineage.mp hk) with rfl | hk
  · rw [hab.unregistered] at he
    cases he
  · obtain ⟨hmem, rfl, rfl⟩ := registeredEdge?_mem he
    exact hab.topmost _ hk (.single (leads_of_registered hmem))

/-- A type that has no edge is given one if it reaches the target and none of its supertypes
does. -/
theorem entry_none_sealed (hnone : r.entry? k b = none) (hforeign : r.isAssignable k b = false) :
    s.entry? k b = none ↔
      (r.Reaches k b → ∃ p, Relation.TransGen r.Declares k p ∧ r.Reaches p b) := by
  rw [← not_iff_not, ← ne_eq, Option.ne_none_iff_exists', h.entry_added hs hnone]
  constructor
  · intro hk hup
    obtain ⟨p, hp, hpb⟩ := hup hk.reaches
    exact hk.topmost p hp hpb
  · intro hk
    rw [Classical.not_imp, not_exists] at hk
    exact ⟨hforeign, h.entry_open (sealed_ok.mp hs).1 ▸ hnone, hk.1,
      fun p hp hpb => hk.2 p ⟨hp, hpb⟩⟩

end WellFormed

theorem convert_of_edge (hext : r.Extends s) {b : TypeKey} {v : Value}
    (he : s.edge? v.type b = r.edge? v.type b) : s.convert v b = r.convert v b := by
  rw [convert, convert, convertBy, convertBy, hext.isAssignable, he]

/-- **What the seal leaves as it is.** Every edge stays, and edges are added only between types
that did not convert. The edge that a type has or inherits is still the one it has if and only if
every type that is asked before, if it reaches the target, has a supertype that does; then values
convert as they did. -/
theorem sealed_edge_iff (hr : r.Reachable) (hs : r.sealed = .ok s) :
    (∀ a b e, r.entry? a b = some e → s.entry? a b = some e) ∧
    (∀ a b, r.entry? a b = none → (∃ e, s.entry? a b = some e) → r.converts a b = false) ∧
    ∀ (v : Value) b e, r.isAssignable v.type b = false → r.edge? v.type b = some e →
      (s.edge? v.type b = some e ↔ ∀ k ∈ r.askedBefore v.type e,
        r.Reaches k b → ∃ p, Relation.TransGen r.Declares k p ∧ r.Reaches p b) ∧
      (s.edge? v.type b = some e → s.convert v b = r.convert v b) := by
  have h := hr.wellFormed
  have hext := (h.closing_sealed hs).toExtends
  refine ⟨fun a b e he => hext.kept he, fun a b hnone hsome => ?_, fun v b e hforeign he => ?_⟩
  · exact h.converts_of_composes hs ((h.entry_added hs hnone).mp hsome)
  · obtain ⟨hsource, hentry, hbefore⟩ := (h.edge_open hs).mp he
    have hstep : ∀ k ∈ r.askedBefore v.type e, s.entry? k b = none ↔
        (r.Reaches k b → ∃ p, Relation.TransGen r.Declares k p ∧ r.Reaches p b) := by
      intro k hk
      have hinherits : r.Inherits v.type k := h.mem_lineage.mp (List.takeWhile_subset _ hk)
      refine h.entry_none_sealed hs (hbefore k hk) (Bool.eq_false_iff.mpr fun hassign => ?_)
      rw [h.isAssignable_trans (h.isAssignable_of_inherits hinherits) hassign] at hforeign
      cases hforeign
    refine ⟨?_, fun hsame => convert_of_edge hext (hsame.trans he.symm)⟩
    rw [h.edge_sealed hs, ← forall₂_congr hstep]
    exact ⟨fun hsame => hsame.2.2, fun hnone => ⟨hsource, hext.kept hentry, hnone⟩⟩

/-- A player is an entity first and a sender second. A sender converts to a text; an entity converts
to a place, and a place to a text. -/
def senders (above : List TypeKey) : TypeRegistry Unit :=
  { initial with
    types := [.object, numbered "sender" [], numbered "entity" above, numbered "place" [],
      numbered "text" [], numbered "player" [⟨"entity"⟩, ⟨"sender"⟩]]
    registered := [relabel "entity" "place", relabel "place" "text", relabel "sender" "text"] }

theorem senders_reachable : (senders []).Reachable :=
  Reachable.initial
    |>.step (.type (d := numbered "sender" []) rfl)
    |>.step (.type (d := numbered "entity" []) rfl)
    |>.step (.type (d := numbered "place" []) rfl)
    |>.step (.type (d := numbered "text" []) rfl)
    |>.step (.type (d := numbered "player" [⟨"entity"⟩, ⟨"sender"⟩]) rfl)
    |>.step (.edge (e := relabel "entity" "place") rfl)
    |>.step (.edge (e := relabel "place" "text") rfl)
    |>.step (.edge (e := relabel "sender" "text") rfl)

/-- The same, where every entity is a sender. -/
theorem senders_reachable_above : (senders [⟨"sender"⟩]).Reachable :=
  Reachable.initial
    |>.step (.type (d := numbered "sender" []) rfl)
    |>.step (.type (d := numbered "entity" [⟨"sender"⟩]) rfl)
    |>.step (.type (d := numbered "place" []) rfl)
    |>.step (.type (d := numbered "text" []) rfl)
    |>.step (.type (d := numbered "player" [⟨"entity"⟩, ⟨"sender"⟩]) rfl)
    |>.step (.edge (e := relabel "entity" "place") rfl)
    |>.step (.edge (e := relabel "place" "text") rfl)
    |>.step (.edge (e := relabel "sender" "text") rfl)

/-- Where every entity is a sender, the seal leaves players their text. -/
theorem player_text_kept : ∃ s, (senders [⟨"sender"⟩]).sealed = .ok s ∧
    s.edge? ⟨"player"⟩ ⟨"text"⟩ = some (relabel "sender" "text") ∧
      s.convert ⟨⟨"player"⟩, .i64 7⟩ ⟨"text"⟩ =
        (senders [⟨"sender"⟩]).convert ⟨⟨"player"⟩, .i64 7⟩ ⟨"text"⟩ := by
  have hedge := (sealed_edge_iff senders_reachable_above rfl).2.2 ⟨⟨"player"⟩, .i64 7⟩ ⟨"text"⟩
    (relabel "sender" "text") (by decide) rfl
  have hup : (senders [⟨"sender"⟩]).Declares ⟨"entity"⟩ ⟨"sender"⟩ := List.mem_singleton.mpr rfl
  have hentity : (senders [⟨"sender"⟩]).Declares ⟨"player"⟩ ⟨"entity"⟩ := List.mem_cons_self ..
  have htext : (senders [⟨"sender"⟩]).Reaches ⟨"sender"⟩ ⟨"text"⟩ :=
    .single (leads_of_registered (e := relabel "sender" "text") (by simp [senders]))
  have hkept := hedge.1.mpr fun k hk _ => by
    have hasked : k ∈ [(⟨"player"⟩ : TypeKey), ⟨"entity"⟩] := hk
    rcases List.mem_pair.mp hasked with rfl | rfl
    · exact ⟨_, .tail (.single hentity) hup, htext⟩
    · exact ⟨_, .single hup, htext⟩
  exact ⟨_, rfl, hkept, hedge.2 hkept⟩

/-- Where it is not, players have their text from senders before the seal, and from the places of
entities after it. -/
theorem player_text_replaced : ∃ s, (senders []).Reachable ∧ (senders []).sealed = .ok s ∧
    (senders []).isAssignable ⟨"player"⟩ ⟨"text"⟩ = false ∧
    ((senders []).edge? ⟨"player"⟩ ⟨"text"⟩).map (·.chain) = some [⟨"sender"⟩, ⟨"text"⟩] ∧
    (s.edge? ⟨"player"⟩ ⟨"text"⟩).map (·.chain) =
      some [⟨"entity"⟩, ⟨"place"⟩, ⟨"text"⟩] :=
  ⟨_, senders_reachable, rfl, by decide, by decide, by decide⟩

end ScriptEngine.TypeRegistry

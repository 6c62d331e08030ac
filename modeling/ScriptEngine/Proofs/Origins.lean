import ScriptEngine.Proofs.EdgeTable
import ScriptEngine.Proofs.Reports

/-! Which conversions a report flags as composed.

A report flags the edges whose chain has more than two types. Every edge that is composed at
the seal has such a chain (`Reachable.isComposed_of_composed`). A registered edge has one as
well if the host put it together of other edges (`Edge.Built.isComposed_iff`). So the flags
tell registered edges from composed ones as long as every registered edge is of a single
conversion, and no longer (`Reachable.report_flags`). -/
namespace ScriptEngine

namespace Edge
variable {σ : Type} {e first second : Edge σ}

def IsDirect (e : Edge σ) : Prop := ∃ conversion, e = direct e.source e.target conversion

theorem IsDirect.not_isComposed (h : e.IsDirect) : e.isComposed = false := by
  obtain ⟨conversion, he⟩ := h
  rw [he]
  rfl

theorem Chained.two_le (h : e.Chained) : 2 ≤ e.chain.length := by
  obtain ⟨between, hchain⟩ := h
  simp [hchain]

theorem Chained.isComposed_rebased (h : e.Chained) (source : TypeKey) :
    (e.rebased source).isComposed = true := by
  have hlength := h.two_le
  refine decide_eq_true ?_
  rw [Edge.rebased, List.length_cons]
  omega

theorem Chained.isComposed_followedBy (hfirst : first.Chained) (hsecond : second.Chained) :
    (first.followedBy second).isComposed = true := by
  have hleft := hfirst.two_le
  have hright := hsecond.two_le
  refine decide_eq_true ?_
  rw [Edge.followedBy, List.length_append, List.length_tail]
  omega

end Edge

namespace TypeRegistry
variable {σ : Type} {r s : TypeRegistry σ} {a b : TypeKey} {e : Edge σ}

/-- What the closure makes of registered edges, unless it takes one as it is, is composed. -/
theorem Composite.registered_or_composed (h : r.Composite a b e)
    (hchained : ∀ e ∈ r.registered, e.Chained) : e ∈ r.registered ∨ e.isComposed = true := by
  cases h with
  | registered he => exact .inl he
  | rebased _ hlast _ => exact .inr ((hchained _ hlast).isComposed_rebased _)
  | followedBy hfirst hlast _ =>
    exact .inr ((hfirst.chained hchained).isComposed_followedBy (hchained _ hlast))

end TypeRegistry

/-- Of the edges that a host can build, those of a single conversion are not composed. -/
theorem Edge.Built.isComposed_iff {σ : Type} {e : Edge σ} (h : e.Built) :
    e.isComposed = false ↔ e.IsDirect := by
  refine ⟨fun hsingle => ?_, IsDirect.not_isComposed⟩
  induction h with
  | direct source target conversion => exact ⟨conversion, rfl⟩
  | followedBy hfirst hsecond =>
    rw [hfirst.chained.isComposed_followedBy hsecond.chained] at hsingle
    cases hsingle
  | rebased source he =>
    rw [he.chained.isComposed_rebased source] at hsingle
    cases hsingle
  | @found r _ _ e hr hbuilt he ih =>
    obtain ⟨k, _, hentry⟩ := List.exists_of_findSome?_eq_some he
    obtain ⟨r₀, _, _, hclosing⟩ := hr.exists_closing
    have hchained : ∀ e ∈ r₀.registered, e.Chained := fun e he =>
      (hbuilt e (hclosing.registered ▸ he)).chained
    rcases (hclosing.entry hentry).2.registered_or_composed hchained with hmem | hcomposed
    · exact ih e (hclosing.registered ▸ hmem) hsingle
    · rw [hcomposed] at hsingle
      cases hsingle

namespace TypeRegistry
variable {σ : Type} {r s : TypeRegistry σ} {a b : TypeKey} {e : Edge σ}

/-- An edge that was composed at the seal has a chain of more than two types. -/
theorem Reachable.isComposed_of_composed (hr : r.Reachable) (hbuilt : ∀ e ∈ r.registered, e.Built)
    (he : r.composed.get? (a, b) = some e) : e.isComposed = true := by
  obtain ⟨r₀, _, hr₀, hclosing⟩ := hr.exists_closing
  have hchained : ∀ e ∈ r₀.registered, e.Chained := fun e he =>
    (hbuilt e (hclosing.registered ▸ he)).chained
  obtain ⟨hcomposes, hcomposite⟩ := hclosing.composed he
  refine (hcomposite.registered_or_composed hchained).resolve_left fun hmem => ?_
  obtain ⟨rfl, rfl⟩ := hcomposite.ends
  have hnone := hcomposes.unregistered
  rw [hr₀.unique e hmem] at hnone
  cases hnone

/-- A registered edge is listed in the report as it is. -/
theorem Reachable.registered_listed (hr : r.Reachable) (hs : r.sealed = .ok s)
    (grammar : Grammar σ) (he : e ∈ r.registered) :
    Report.converterEntry e ∈ (Report.ofRegistries s grammar).converters := by
  have hentry : s.entry? e.source e.target = some e :=
    hr.entry?_registered he (.single (.sealed hs))
  exact ((hr.report_describes hs grammar).converters _).mpr
    ⟨e.source, e.target, e, hentry, Report.converterEntry_describes e⟩

/-- What the flags of a report say, for a registry before the seal and after it. -/
structure Flags (r s : TypeRegistry σ) (report : Report) : Prop where
  /-- A conversion is flagged unless a single conversion was registered for its two types. -/
  flagged : ∀ c ∈ report.converters, c.composed = false ↔
    ∃ e, r.registeredEdge? c.source c.target = some e ∧ e.IsDirect
  /-- Flagged are the edges that the seal composed, and the registered ones that were put together
  of others. -/
  count : report.converters.countP (·.composed) =
    s.composedCount + r.registered.countP (·.isComposed)
  /-- Flagged are the conversions that were not registered, and no others, if and only if nothing
  but single conversions was registered. -/
  exact : (∀ c ∈ report.converters,
    c.composed = true ↔ r.registeredEdge? c.source c.target = none) ↔ ∀ e ∈ r.registered, e.IsDirect
  /-- So many are flagged as the seal composed if and only if nothing but single conversions was
  registered. -/
  exact_count : report.converters.countP (·.composed) = s.composedCount ↔
    ∀ e ∈ r.registered, e.IsDirect

section Sealed
variable (hr : r.Reachable) (hbuilt : ∀ e ∈ r.registered, e.Built) (hs : r.sealed = .ok s)
include hr hbuilt hs

/-- An edge of the sealed registry is of a single conversion if it was registered so. -/
theorem entry?_isComposed (he : s.entry? a b = some e) :
    e.isComposed = false ↔ ∃ e', r.registeredEdge? a b = some e' ∧ e'.IsDirect := by
  have hsealed : s.Reachable := hr.step (.sealed hs)
  have hext := sealed_extends hs
  rw [← hext.registered] at hbuilt
  rw [← hext.registeredEdge?]
  rcases entry?_eq_some.mp he with hreg | ⟨hnone, hcomposed⟩
  · have hedge : e.Built := hbuilt e (registeredEdge?_mem hreg).1
    simp only [hreg, Option.some.injEq, exists_eq_left']
    exact hedge.isComposed_iff
  · have hflag := hsealed.isComposed_of_composed hbuilt hcomposed
    simp [hnone, hflag]

theorem countP_isComposed : s.edges.countP (·.isComposed) =
    s.composedCount + r.registered.countP (·.isComposed) := by
  have hsealed : s.Reachable := hr.step (.sealed hs)
  have hext := sealed_extends hs
  rw [← hext.registered] at hbuilt ⊢
  have hcomposed : s.composed.values.countP (·.isComposed) = s.composedCount := by
    have hall : ∀ e ∈ s.composed.values, e.isComposed = true := fun e he =>
      hsealed.isComposed_of_composed hbuilt (hsealed.mem_composed_values.mp he)
    rw [List.countP_eq_length.mpr hall, Table.values, List.length_map]
    rfl
  rw [s.edges_perm.countP_eq, keptEdges, List.countP_append, hcomposed, Nat.add_comm]

/-- **What the flags of a report say.** They tell registered conversions from composed ones, one by
one and in number, exactly as long as every registered edge is of a single conversion. -/
theorem Reachable.report_flags (grammar : Grammar σ) :
    r.Flags s (Report.ofRegistries s grammar) := by
  have hsealed : s.Reachable := hr.step (.sealed hs)
  have hext := sealed_extends hs
  have hentry : ∀ c ∈ (Report.ofRegistries s grammar).converters, ∃ e,
      s.entry? c.source c.target = some e ∧ c.composed = e.isComposed := by
    intro c hc
    obtain ⟨a, b, e, he, hdescribes⟩ := ((hr.report_describes hs grammar).converters c).mp hc
    obtain ⟨rfl, rfl⟩ := hsealed.entry?_ends he
    obtain rfl := hdescribes.eq (Report.converterEntry_describes e)
    exact ⟨e, he, rfl⟩
  have hcount : (Report.ofRegistries s grammar).converters.countP (·.composed) =
      s.composedCount + r.registered.countP (·.isComposed) := by
    rw [← countP_isComposed hr hbuilt hs]
    exact List.countP_map
  have hdirect : r.registered.countP (·.isComposed) = 0 ↔ ∀ e ∈ r.registered, e.IsDirect := by
    rw [List.countP_eq_zero]
    refine forall₂_congr fun e he => ?_
    rw [Bool.not_eq_true]
    exact (hbuilt e he).isComposed_iff
  have hflagged : ∀ c ∈ (Report.ofRegistries s grammar).converters, c.composed = false ↔
      ∃ e, r.registeredEdge? c.source c.target = some e ∧ e.IsDirect := by
    intro c hc
    obtain ⟨e, he, hflag⟩ := hentry c hc
    rw [hflag]
    exact entry?_isComposed hr hbuilt hs he
  refine ⟨hflagged, hcount, ⟨fun hexact e he => ?_, fun hall c hc => ?_⟩, ?_⟩
  · refine (hbuilt e he).isComposed_iff.mp (eq_false_of_ne_true fun hcomposed => ?_)
    have hnone : r.registeredEdge? e.source e.target = none :=
      (hexact _ (hr.registered_listed hs grammar he)).mp hcomposed
    rw [hr.wellFormed.unique e he] at hnone
    cases hnone
  · have hregistered : (∃ e, r.registeredEdge? c.source c.target = some e ∧ e.IsDirect) ↔
        r.registeredEdge? c.source c.target ≠ none := by
      rw [Option.ne_none_iff_exists']
      exact exists_congr fun e => and_iff_left_of_imp fun he => hall e (registeredEdge?_mem he).1
    rw [← Bool.not_eq_false, hflagged c hc, hregistered, not_not]
  · rw [hcount, ← hdirect]
    omega

end Sealed

/-! Of the conversions of players one is registered in one piece, though it goes by way of
integers. -/

theorem spliced_built : ∀ e ∈ spliced.registered, e.Built := by
  intro e he
  rcases List.mem_pair.mp he with rfl | rfl
  · exact .followedBy (.direct _ _ _) (.direct _ _ _)
  · exact .direct _ _ _

/-- It is flagged besides the one that the seal composes. -/
theorem spliced_flags : ∃ s, spliced.sealed = .ok s ∧
    spliced.Flags s (Report.ofRegistries s .initial) ∧
    (Report.ofRegistries s .initial).converters.countP (·.composed) = s.composedCount + 1 := by
  obtain ⟨s, hs⟩ : ∃ s, spliced.sealed = .ok s := ⟨_, rfl⟩
  have hflags := spliced_reachable.report_flags spliced_built hs .initial
  exact ⟨s, hs, hflags, hflags.count⟩

/-- So the flags do not tell what was registered from what was not. -/
theorem spliced_misflagged : ¬ ∀ r : TypeRegistry Unit, r.Reachable →
    (∀ e ∈ r.registered, e.Built) → ∀ s, r.sealed = .ok s → ∀ grammar,
      (∀ c ∈ (Report.ofRegistries s grammar).converters,
        c.composed = true ↔ r.registeredEdge? c.source c.target = none) ∧
      (Report.ofRegistries s grammar).converters.countP (·.composed) = s.composedCount := by
  intro h
  obtain ⟨s, hs⟩ : ∃ s, spliced.sealed = .ok s := ⟨_, rfl⟩
  let e : Edge Unit := (relabel "player" "integer").followedBy (relabel "integer" "text")
  have hlisted := spliced_reachable.registered_listed hs .initial (List.mem_cons_self (a := e))
  have hnone : spliced.registeredEdge? e.source e.target = none :=
    ((h spliced spliced_reachable spliced_built s hs .initial).1 _ hlisted).mp rfl
  cases hnone

end TypeRegistry
end ScriptEngine

import ScriptEngine.Proofs.TimeBinding

/-! The state that is in force.

A node is in the state of the event that its leaves are in: lists, conversions, properties and kept
values have no state of their own. It is in the past or the future only if all its leaves are
(`time_eq_iff`), and counts as in the present where they differ. But it accepts a state as soon as
one leaf has it: those leaves are bound, the others stay where they were (`time_of_leaf`). So a
state that was accepted need not be in force afterwards; `setTime_inForce` says when it is. -/
namespace ScriptEngine

namespace Node
variable {σ : Type} {n p : Node σ} {t u : Time} {b : Bindings}

/-! ### Leaves -/

mutual
/-- The nodes that a node takes its state from; an empty list stands for itself. -/
def leaves : Node σ → List (Node σ)
  | n@(.literal ..) => [n]
  | n@(.list _ _ [] _) => [n]
  | .list _ _ (first :: rest) _ => first.leaves ++ allLeaves rest
  | .converted _ source _ => source.leaves
  | .property _ owner _ => owner.leaves
  | n@(.eventValue ..) => [n]
  | n@(.snapshot ..) => [n]
  | .memoized _ inner => inner.leaves
  | n@(.host ..) => [n]
def allLeaves : List (Node σ) → List (Node σ)
  | [] => []
  | n :: rest => n.leaves ++ allLeaves rest
end

/-- A node that has a state without regard to other nodes. -/
inductive Leaf : Node σ → Prop where
  | literal {id type values q} : Leaf (.literal id type values q)
  | emptyList {id type q} : Leaf (.list id type [] q)
  | eventValue {id value} : Leaf (.eventValue id value)
  | snapshot {id taken} : Leaf (.snapshot id taken)
  | host {id node} : Leaf (.host id node)

theorem mem_allLeaves {children : List (Node σ)} :
    p ∈ allLeaves children ↔ ∃ c ∈ children, p ∈ c.leaves := by
  induction children with
  | nil => simp [allLeaves]
  | cons n rest ih => simp [allLeaves, ih]

theorem mem_leaves_list {id : NodeId} {type : TypeKey} {children : List (Node σ)}
    {q : Quantifier} (h : children ≠ []) :
    p ∈ (Node.list id type children q).leaves ↔ ∃ c ∈ children, p ∈ c.leaves := by
  obtain ⟨first, rest, rfl⟩ := List.exists_cons_of_ne_nil h
  rw [leaves, ← allLeaves, mem_allLeaves]

theorem leaf_of_mem (hp : p ∈ n.leaves) : Leaf p := by
  induction n with
  | list id type children q ih =>
    by_cases hnone : children = []
    · subst hnone
      rw [leaves, List.mem_singleton] at hp
      exact hp ▸ .emptyList
    · obtain ⟨c, hc, hp⟩ := (mem_leaves_list hnone).mp hp
      exact ih c hc hp
  | converted _ _ _ ih | property _ _ _ ih | memoized _ _ ih => exact ih hp
  | literal => exact List.mem_singleton.mp hp ▸ .literal
  | eventValue => exact List.mem_singleton.mp hp ▸ .eventValue
  | snapshot => exact List.mem_singleton.mp hp ▸ .snapshot
  | host => exact List.mem_singleton.mp hp ▸ .host

/-! ### The state of a node and those of its leaves -/

theorem commonTime_eq_iff (hu : u ≠ .default) {times : List Time} :
    commonTime times = u ↔ times ≠ [] ∧ ∀ t ∈ times, t = u := by
  constructor
  · rintro rfl
    exact ⟨fun hnone => hu (hnone ▸ rfl), eq_of_commonTime hu⟩
  · rintro ⟨hsome, hall⟩
    obtain ⟨first, rest, rfl⟩ := List.exists_cons_of_ne_nil hsome
    rw [List.forall_mem_cons] at hall
    rw [commonTime, if_pos (List.all_eq_true.mpr fun t ht => ?_), hall.1]
    rw [hall.1, hall.2 t ht, beq_self_eq_true]

theorem times_eq_map (children : List (Node σ)) : times b children = children.map (·.time b) := by
  induction children with
  | nil => rfl
  | cons n rest ih => rw [times, ih, List.map_cons]

/-- A node is in a state other than the present exactly if all its leaves are. -/
theorem time_eq_iff (hu : u ≠ .default) : n.time b = u ↔ ∀ p ∈ n.leaves, p.time b = u := by
  induction n with
  | list id type children q ih =>
    by_cases hnone : children = []
    · subst hnone
      rw [leaves, List.forall_mem_singleton]
    · rw [time, times_eq_map, commonTime_eq_iff hu, List.forall_mem_map]
      have hsome : children.map (·.time b) ≠ [] := by simpa using hnone
      simp only [hsome, ne_eq, not_false_eq_true, true_and, mem_leaves_list hnone]
      constructor
      · rintro h p ⟨c, hc, hp⟩
        exact (ih c hc).mp (h c hc) p hp
      · intro h c hc
        exact (ih c hc).mpr fun p hp => h p ⟨c, hc, hp⟩
  | converted _ _ _ ih | property _ _ _ ih | memoized _ _ ih => exact ih
  | literal | eventValue | snapshot | host => rw [leaves, List.forall_mem_singleton]

end Node

/-! ### Bindings that asking leads to -/

/-- A host's event values have the present, and each is bound to a state that it has. -/
structure Bindings.Possible {σ : Type} (sites : NodeId → EventValue σ) (b : Bindings) : Prop where
  present : ∀ id, (sites id).hasState .default = true
  bound : ∀ id, (sites id).hasState (b.get id) = true

namespace Node
variable {σ : Type} {sites : NodeId → EventValue σ} {n p : Node σ} {t u : Time} {b : Bindings}

/-- The event values that a node takes its state from are those that stand under their names. -/
def SitedBy (sites : NodeId → EventValue σ) (n : Node σ) : Prop :=
  ∀ id value, Node.eventValue id value ∈ n.leaves → value = sites id

theorem mem_takers {id : NodeId} : id ∈ n.takers t ↔
    ∃ value, Node.eventValue id value ∈ n.leaves ∧ value.hasState t = true := by
  induction n with
  | list _ _ children _ ih =>
    have hall : id ∈ allTakers t children ↔ ∃ c ∈ children, id ∈ c.takers t := by
      clear ih
      induction children with
      | nil => simp [allTakers]
      | cons n rest ih => simp [allTakers, ih]
    by_cases hnone : children = []
    · subst hnone
      simp [takers, allTakers, leaves]
    · simp only [takers, hall, mem_leaves_list hnone]
      constructor
      · rintro ⟨c, hc, hid⟩
        obtain ⟨value, hvalue, hstate⟩ := (ih c hc).mp hid
        exact ⟨value, ⟨c, hc, hvalue⟩, hstate⟩
      · rintro ⟨value, ⟨c, hc, hvalue⟩, hstate⟩
        exact ⟨c, hc, (ih c hc).mpr ⟨value, hvalue, hstate⟩⟩
  | converted _ _ _ ih | property _ _ _ ih | memoized _ _ ih => exact ih
  | eventValue _ value =>
    by_cases hstate : value.hasState t = true <;> simp [takers, leaves, hstate]
  | literal | snapshot | host => simp [takers, leaves]

/-- Values that were taken down in a state of the event. -/
def TakenIn (u : Time) (n : Node σ) : Prop := ∃ id taken, n = .snapshot id taken ∧ taken.time = u

namespace SitedBy
variable (h : n.SitedBy sites)
include h

theorem mem_takers_site {id : NodeId} (hid : id ∈ n.takers t) : (sites id).hasState t = true := by
  obtain ⟨value, hvalue, hstate⟩ := mem_takers.mp hid
  exact h id value hvalue ▸ hstate

/-- Binding a node keeps the bindings possible. -/
theorem possible_setAll (hb : b.Possible sites) : (b.setAll (n.takers t) t).Possible sites := by
  refine ⟨hb.present, fun id => ?_⟩
  rw [Bindings.get_setAll]
  split
  · rename_i hid
    exact h.mem_takers_site hid
  · exact hb.bound id

variable (hp : p ∈ n.leaves)
include hp

/-- The leaves with the state that a node is asked for are bound to it, the others stay. -/
theorem time_of_leaf : p.time (b.setAll (n.takers t) t) =
    if p.hasTime t = true then t else p.time b := by
  cases leaf_of_mem hp with
  | @eventValue id value =>
    rw [time, time, hasTime, Bindings.get_setAll]
    refine if_congr ⟨fun hid => ?_, fun hstate => mem_takers.mpr ⟨value, hp, hstate⟩⟩ rfl rfl
    exact h id value hp ▸ h.mem_takers_site hid
  | literal | host | snapshot =>
    rw [time, time, hasTime]
    split <;> simp_all
  | emptyList =>
    rw [time, time, hasTime, anyHasTime]
    split <;> simp_all [times, commonTime]

/-- A leaf has the state that it is in. -/
theorem hasTime_time (hb : b.Possible sites) : p.hasTime (p.time b) = true := by
  cases leaf_of_mem hp with
  | @eventValue id value =>
    rw [time, hasTime, h id value hp]
    exact hb.bound id
  | literal | host | snapshot => exact beq_self_eq_true _
  | emptyList => rfl

/-- Only what was taken down in another state lacks the present. -/
theorem lacks_present_iff (hb : b.Possible sites) (hu : u ≠ .default) :
    p.hasTime .default = false ∧ p.time b = u ↔ p.TakenIn u := by
  cases leaf_of_mem hp with
  | @eventValue id value =>
    have hpresent : (Node.eventValue id value).hasTime .default = true := by
      rw [hasTime, h id value hp]
      exact hb.present id
    simp [hpresent, TakenIn]
  | @snapshot id taken =>
    have htaken : (.snapshot id taken : Node σ).TakenIn u ↔ taken.time = u := by simp [TakenIn]
    rw [htaken, hasTime, time, and_iff_right_iff_imp]
    rintro rfl
    exact beq_false_of_ne hu.symm
  | literal | host | emptyList => simp [hasTime, TakenIn]

end SitedBy

/-! ### When what was accepted is in force -/

/-- What it comes to that a node accepted a state. -/
structure Accepted (t : Time) (n : Node σ) (w w' : World σ) : Prop where
  /-- The leaves that have the state are in it, and the others where they were. -/
  leaves : ∀ p ∈ n.leaves,
    p.time w'.bindings = if p.hasTime t = true then t else p.time w.bindings
  /-- The past and the future are in force if all leaves have them, -/
  apart : t ≠ .default → (n.time w'.bindings = t ↔ ∀ p ∈ n.leaves, p.hasTime t = true)
  /-- and the present unless all leaves were taken down in one and the same other state. -/
  present : t = .default →
    (n.time w'.bindings = t ↔ ¬ ∃ u, u ≠ .default ∧ ∀ p ∈ n.leaves, p.TakenIn u)

variable [HostCells σ] {w : World σ}

/-- **When an accepted state is in force.** -/
theorem setTime_inForce (hn : n.SitedBy sites) (hb : w.bindings.Possible sites)
    (h : ((n.setTime t).run w).1 = .ok ()) : Accepted t n w ((n.setTime t).run w).2 := by
  have hhas : n.hasTime t = true := by
    refine Bool.not_eq_false _ ▸ fun hlacks => ?_
    rw [setTime_of_lacks hlacks] at h
    cases h
  have hleaf : ∀ p ∈ n.leaves, p.time (w.bindings.setAll (n.takers t) t) =
      if p.hasTime t = true then t else p.time w.bindings := fun p hp => hn.time_of_leaf hp
  rw [setTime_of_has hhas]
  refine ⟨hleaf, fun ht => ?_, fun ht => ?_⟩
  · rw [time_eq_iff ht]
    refine forall₂_congr fun p hp => ?_
    rw [hleaf p hp]
    split
    · rename_i hstate
      exact iff_of_true rfl hstate
    · rename_i hstate
      exact iff_of_false (fun hsame => hstate (hsame ▸ hn.hasTime_time hp hb)) hstate
  · subst ht
    rw [← not_iff_not, not_not]
    have hother : ∀ u, u ≠ .default →
        (n.time (w.bindings.setAll (n.takers .default) .default) = u ↔
          ∀ p ∈ n.leaves, p.TakenIn u) := by
      intro u hu
      rw [time_eq_iff hu]
      refine forall₂_congr fun p hp => ?_
      rw [hleaf p hp, ← hn.lacks_present_iff hp hb hu]
      cases p.hasTime .default with
      | true => simp [hu.symm]
      | false => simp
    constructor
    · exact fun hne => ⟨_, hne, (hother _ hne).mp rfl⟩
    · rintro ⟨u, hu, hall⟩ hpresent
      exact hu (((hother u hu).mpr hall).symm.trans hpresent)

/-- Asking keeps the bindings possible. -/
theorem SitedBy.possible_setTime (hn : n.SitedBy sites) (hb : w.bindings.Possible sites) :
    ((n.setTime t).run w).2.bindings.Possible sites := by
  cases h : n.hasTime t with
  | true =>
    rw [setTime_of_has h]
    exact hn.possible_setAll hb
  | false =>
    rw [setTime_of_lacks h]
    exact hb

/-- The levels of two gauges, of which one is kept. -/
def bothLevels : Node Gauge :=
  ofChildren ⟨[4]⟩ [.eventValue ⟨[2]⟩ levelValue,
    .memoized ⟨[5]⟩ (.eventValue ⟨[6]⟩ levelValue)] .and

/-- The first level was bound to the past together with the number ten; then both are, and the past
is in force. -/
theorem bothLevels_inForce : ∃ w, ((levelAndTen.setTime .past).run lowered).2 = w ∧
    ((bothLevels.setTime .past).run w).1 = .ok () ∧
    bothLevels.time w.bindings = .default ∧
    bothLevels.time ((bothLevels.setTime .past).run w).2.bindings = .past := by
  have hfirst : levelAndTen.SitedBy fun _ => levelValue := by
    intro id value hvalue
    rcases List.mem_pair.mp hvalue with heq | heq <;> cases heq
    rfl
  have hboth : bothLevels.SitedBy fun _ => levelValue := by
    intro id value hvalue
    rcases List.mem_pair.mp hvalue with heq | heq <;> cases heq <;> rfl
  have hstart : lowered.bindings.Possible fun _ => levelValue := ⟨fun _ => rfl, fun _ => rfl⟩
  have haccepted := setTime_inForce (t := .past) hboth
    (hfirst.possible_setTime (t := .past) hstart) rfl
  refine ⟨_, rfl, rfl, by decide, (haccepted.apart (by decide)).mpr fun p hp => ?_⟩
  have hleaves : p ∈ [.eventValue ⟨[2]⟩ levelValue, .eventValue ⟨[6]⟩ levelValue] := hp
  rcases List.mem_pair.mp hleaves with rfl | rfl <;> rfl

/-- A level that was taken down in the past, in a list of its own. -/
def pastLevel : Node Gauge :=
  ofChildren ⟨[7]⟩ [.snapshot ⟨[8]⟩ ⟨⟨"integer"⟩, [], true, .and, .past, "level"⟩] .and

/-- A level in a list with the number ten accepts the past, and the list is in the present still; a
list of a level that was taken down in the past accepts the present, and is in the past still. -/
theorem levelAndTen_not_inForce :
    (¬ ∀ (n : Node Gauge) (t : Time) (w : World Gauge), ((n.setTime t).run w).1 = .ok () →
      n.time ((n.setTime t).run w).2.bindings = t) ∧
    levelAndTen.time ((levelAndTen.setTime .past).run lowered).2.bindings = .default ∧
    ((pastLevel.setTime .default).run lowered).1 = .ok () ∧
    pastLevel.time ((pastLevel.setTime .default).run lowered).2.bindings = .past := by
  have hlevel : levelAndTen.time ((levelAndTen.setTime .past).run lowered).2.bindings =
      .default := by decide
  refine ⟨fun h => ?_, hlevel, rfl, by decide⟩
  exact absurd (hlevel.symm.trans (h levelAndTen .past lowered rfl)) (by decide)

end Node

end ScriptEngine

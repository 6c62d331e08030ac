import ScriptEngine.Proofs.Abreast
import ScriptEngine.Proofs.Changes
import ScriptEngine.Proofs.Keeping

/-! When kept values are outdated.

A change that goes through a kept node drops what is kept for it, if the change is through.
If the change fails, the node has its old values still, though some of what they are made of
may have been changed before the failure. `memoized_change` says which values the node
gives after a change, and when they are not those that it would compute. -/
namespace ScriptEngine

/-! ### Dropping -/

namespace World
variable {σ : Type} {w w' : World σ} {ctx : ContextId} {node other : NodeId} {t : Time}
  {values : List Value}

theorem bindings_forget : (w.forget ctx node).bindings = w.bindings := by
  rw [forget]
  split <;> rfl

theorem kept?_forget (key : NodeId × Time) :
    (w.forget ctx node).kept? ctx key = if key.1 = node then none else w.kept? ctx key := by
  cases hmemo : w.memo? ctx with
  | none => simp [forget, kept?, hmemo]
  | some memo =>
    have hforget : (w.forget ctx node).memo? ctx = some (memo.filterKeys fun k => k.1 != node) := by
      rw [forget, hmemo, memo?, Table.get?_insert, if_pos rfl]
    rw [kept?, kept?, hforget, hmemo, Option.bind_some, Option.bind_some, Table.get?_filterKeys]
    by_cases hkey : key.1 = node <;> simp [hkey]

/-- Since an earlier moment no node was bound, and nothing was kept or dropped for one node. -/
structure Spares (ctx : ContextId) (node : NodeId) (earlier w : World σ) : Prop where
  bindings : w.bindings = earlier.bindings
  kept : ∀ t, w.kept? ctx (node, t) = earlier.kept? ctx (node, t)

namespace Spares
variable {earlier : World σ}

theorem refl (ctx : ContextId) (node : NodeId) (w : World σ) : Spares ctx node w w :=
  ⟨rfl, fun _ => rfl⟩

/-- The host has no hand in the caches. -/
theorem hostFree : HostFree (Spares ctx node earlier) := fun _ _ _ h => ⟨h.bindings, h.kept⟩

theorem remember (h : Spares ctx node earlier w) (hother : other ≠ node) (t : Time)
    (values : List Value) : Spares ctx node earlier (w.remember ctx other t values) := by
  refine ⟨bindings_remember.trans h.bindings, fun t' => ?_⟩
  cases hmemo : w.hasMemo ctx with
  | false =>
    rw [remember_of_no_memo (by simpa [hasMemo] using hmemo)]
    exact h.kept t'
  | true =>
    rw [kept?_remember hmemo, if_neg fun hkey => hother (Prod.mk.inj hkey).1]
    exact h.kept t'

theorem forget (h : Spares ctx node earlier w) (hother : other ≠ node) :
    Spares ctx node earlier (w.forget ctx other) := by
  refine ⟨bindings_forget.trans h.bindings, fun t' => ?_⟩
  rw [kept?_forget, if_neg hother.symm]
  exact h.kept t'

end Spares

end World

namespace Node
variable {σ : Type} {n e : Node σ} {id node : NodeId} {ctx : ContextId} {r : TypeRegistry σ}
  {delta : Option (List Value)} {mode : ChangeMode} {w w' : World σ}

/-! ### What is left alone -/

section
variable {earlier : World σ}

/-- To visit a node keeps values only for nodes that are kept below it. -/
theorem visit_spares {β : Type} {f : Value → β → Eval σ (ForInStep β)} {b : β}
    (hother : ∀ k, n.Keeps k → k.id ≠ node)
    (hf : Gathers (World.Spares ctx node earlier) (fun _ => True) (fun _ => True) f) :
    (n.visit ctx f b).Ensures (World.Spares ctx node earlier) fun _ => True := by
  induction n generalizing β with
  | literal | snapshot =>
    rw [visit]
    exact scan_ensures hf (fun _ _ => trivial) trivial
  | list _ _ children _ ih =>
    rw [visit]
    exact visitAll_ensures (J := fun _ => True)
      (fun c hc b _ => ih c hc (fun k hk => hother k (.list hc hk)) hf) trivial
  | converted _ _ _ ih =>
    rw [visit]
    refine ih (fun k hk => hother k (.converted hk)) (through_gathers World.Spares.hostFree hf ?_)
    exact fun _ => .mono .trivial fun _ _ _ _ => trivial
  | property _ _ _ ih =>
    rw [visit]
    refine ih (fun k hk => hother k (.property hk)) (through_gathers World.Spares.hostFree hf ?_)
    exact fun _ => .mono .trivial fun _ _ _ _ => trivial
  | eventValue =>
    rw [visit]
    refine .bind (readEvent_ensures (Q := fun _ => True) World.Spares.hostFree
      (fun _ _ _ _ => .mono .trivial fun _ _ _ _ => trivial) _ _) fun _ _ => ?_
    exact scan_ensures hf (fun _ _ => trivial) trivial
  | memoized _ inner ih =>
    rw [visit]
    have hgather := ih (fun k hk => hother k (.memoized hk)) (f := gather) (b := [])
      fun _ _ _ _ => .pure trivial
    refine .bind .get fun w hw => .bind (.memoized (P := fun _ => True) ?_ ?_ ?_ ?_) fun _ _ =>
      scan_ensures hf (fun _ _ => trivial) trivial
    · exact fun w _ hw => World.Spares.hostFree w w.host _ hw
    · exact fun _ _ _ _ _ _ => trivial
    · exact .bind hgather fun _ _ => .pure trivial
    · exact fun w values hw _ => hw.remember (hother inner .here) _ values
  | host =>
    rw [visit]
    exact .bind (.host World.Spares.hostFree .trivial) fun _ _ =>
      scan_ensures hf (fun _ _ => trivial) trivial

theorem array_spares (hother : ∀ k, n.Keeps k → k.id ≠ node) :
    (n.array ctx).Ensures (World.Spares ctx node earlier) fun _ => True :=
  .bind (visit_spares hother fun _ _ _ _ => .pure trivial) fun _ _ => .pure trivial

variable [HostCells σ]

theorem changeHere_spares (hother : ∀ k, n.Keeps k → k.id ≠ node) :
    (n.changeHere r ctx delta mode).Ensures (World.Spares ctx node earlier) fun _ => True := by
  unfold changeHere
  split
  · exact .pure trivial
  · split
    · refine .bind (P := fun _ => True) (fun w hw => ⟨trivial, ?_⟩) fun _ _ => .pure trivial
      rw [label_run]
      exact hw
    · refine .bind (.isRevoked ctx) fun revoked _ => ?_
      cases revoked with
      | true => exact .pure trivial
      | false =>
        exact .bind (array_spares hother) fun _ _ => .host World.Spares.hostFree .trivial

theorem changeAll_spares {children : List (Node σ)}
    (h : ∀ c ∈ children, (c.change r ctx delta mode).Ensures (World.Spares ctx node earlier)
      fun _ => True) :
    (changeAll r ctx delta mode children).Ensures (World.Spares ctx node earlier)
      fun _ => True := by
  induction children with
  | nil =>
    rw [changeAll]
    exact .pure trivial
  | cons n rest ih =>
    rw [List.forall_mem_cons] at h
    rw [changeAll]
    refine .bind h.1 fun out _ => ?_
    cases out with
    | error _ => exact .pure trivial
    | ok _ => exact ih h.2

/-- **A change drops values only for nodes that are kept below**, and binds none. -/
theorem change_spares (hother : ∀ k, n.Keeps k → k.id ≠ node) :
    (n.change r ctx delta mode).Ensures (World.Spares ctx node earlier) fun _ => True := by
  induction n with
  | literal | property | eventValue | snapshot | host =>
    unfold change
    exact changeHere_spares hother
  | list _ _ children _ ih =>
    rw [change]
    split
    · exact .pure trivial
    · exact changeAll_spares fun c hc => ih c hc fun k hk => hother k (.list hc hk)
  | converted _ _ _ ih =>
    rw [change]
    exact ih fun k hk => hother k (.converted hk)
  | memoized _ inner ih =>
    rw [change]
    refine .bind (ih fun k hk => hother k (.memoized hk)) fun out _ => ?_
    cases out with
    | error _ => exact .pure trivial
    | ok _ =>
      exact .bind (.modify fun w hw => hw.forget (hother inner .here)) fun _ _ => .pure trivial

end

/-! ### Kept or computed -/

/-- What is noted before the values are computed makes no difference to them. -/
theorem run_memoized_new (t : Time) (hnew : w.kept? ctx (node, t) = none) :
    ((Eval.memoized ctx node t (e.array ctx)).run w).1 = ((e.array ctx).run w).1 := by
  cases hmemo : w.memo? ctx with
  | none => rw [Eval.memoized_uncached hmemo]
  | some memo =>
    have hnote : Resembles ctx
        { w with journal := w.journal ++ [.recall ctx node t false] } w := by
      refine ⟨rfl, rfl, rfl, ?_⟩
      simp [World.isRevoked, Entry.revokes]
    have hcaches : w.hasMemo ctx = true := by rw [World.hasMemo, hmemo, Option.isSome_some]
    rw [← (hnote.array e).1]
    cases hrun : (e.array ctx).run
      { w with journal := w.journal ++ [.recall ctx node t false] } with
    | mk values w' => rw [Eval.memoized_new hcaches hnew hrun]

/-- What a kept node gives: what is kept, or else what the node below gives at the moment. -/
theorem array_memoized_eq (id : NodeId) (e : Node σ) (w : World σ) :
    (((Node.memoized id e).array ctx).run w).1 =
      (w.kept? ctx (e.id, e.time w.bindings)).getD ((e.array ctx).run w).1 := by
  rw [run_array_memoized]
  cases hkept : w.kept? ctx (e.id, e.time w.bindings) with
  | some values => rw [Eval.memoized_hit hkept, Option.getD_some]
  | none => rw [run_memoized_new _ hkept, Option.getD_none]

/-! ### After a change -/

/-- What a kept node gives after a change, next to what the node below gives at that moment. -/
structure AfterChange (r : TypeRegistry σ) (delta : Option (List Value)) (mode : ChangeMode)
    (id : NodeId) (e : Node σ) (ctx : ContextId) (w : World σ) (out : Outcome Unit)
    (w' : World σ) : Prop where
  /-- After a change that was through, the two are the same. -/
  done : out = .ok () →
    (((Node.memoized id e).array ctx).run w').1 = ((e.array ctx).run w').1
  /-- After one that failed, values that were kept before are given still. -/
  failed : ∀ x, out = .error x → (((Node.memoized id e).array ctx).run w').1 =
    (w.kept? ctx (e.id, e.time w.bindings)).getD ((e.array ctx).run w').1
  /-- So the two differ if the change failed and other values were kept before, and only then. -/
  outdated : (((Node.memoized id e).array ctx).run w').1 ≠ ((e.array ctx).run w').1 ↔
    ∃ x values, out = .error x ∧ w.kept? ctx (e.id, e.time w.bindings) = some values ∧
      values ≠ ((e.array ctx).run w').1
  /-- If no changer of the host refused, a change that failed has touched nothing. -/
  refused : e.BuiltIn → ∀ x, out = .error x →
    w' = w ∨ ∃ added, w'.journal = w.journal ++ added ∧ Refused r delta mode added x

theorem AfterChange.of_done (h : w'.kept? ctx (e.id, e.time w'.bindings) = none) :
    AfterChange r delta mode id e ctx w (.ok ()) w' := by
  have hsame : (((Node.memoized id e).array ctx).run w').1 = ((e.array ctx).run w').1 := by
    rw [array_memoized_eq, h, Option.getD_none]
  refine ⟨fun _ => hsame, fun _ hx => ?_, ⟨fun hne => absurd hsame hne, ?_⟩, fun _ _ hx => ?_⟩
  · cases hx
  · rintro ⟨_, _, hx, _⟩
    cases hx
  · cases hx

theorem AfterChange.of_failed {x : EngineError} (hspares : World.Spares ctx e.id w w')
    (hrefused : e.BuiltIn →
      w' = w ∨ ∃ added, w'.journal = w.journal ++ added ∧ Refused r delta mode added x) :
    AfterChange r delta mode id e ctx w (.error x) w' := by
  have hvalues : (((Node.memoized id e).array ctx).run w').1 =
      (w.kept? ctx (e.id, e.time w.bindings)).getD ((e.array ctx).run w').1 := by
    rw [array_memoized_eq, hspares.kept, hspares.bindings]
  refine ⟨fun hx => ?_, fun _ _ => hvalues, ?_, fun hbuilt _ hx => ?_⟩
  · cases hx
  · rw [hvalues]
    cases w.kept? ctx (e.id, e.time w.bindings) <;> simp
  · cases hx
    exact hrefused hbuilt

variable [HostCells σ]

/-- A change goes through a kept node to the node below, and what is kept is dropped if it is
through. -/
theorem run_change_memoized {out : Outcome Unit}
    (h : (e.change r ctx delta mode).run w = (out, w')) :
    ((Node.memoized id e).change r ctx delta mode).run w =
      match out with
      | .ok _ => (.ok (), w'.forget ctx e.id)
      | .error x => (.error x, w') := by
  rw [change]
  refine (Eval.run_bind h).trans ?_
  cases out <;> rfl

/-- **What a kept node gives after a change.** If the change is through, the values that the node
below gives; if it failed, the values that were kept before, if there were any. -/
theorem memoized_change (hnamed : (Node.memoized id e).Named) (r : TypeRegistry σ)
    (ctx : ContextId) (delta : Option (List Value)) (mode : ChangeMode) (w : World σ) :
    AfterChange r delta mode id e ctx w
      (((Node.memoized id e).change r ctx delta mode).run w).1
      (((Node.memoized id e).change r ctx delta mode).run w).2 := by
  have hspares : World.Spares ctx e.id w ((e.change r ctx delta mode).run w).2 :=
    (change_spares (fun _ => hnamed.ne_own) w (.refl ctx e.id w)).2
  cases hrun : (e.change r ctx delta mode).run w with
  | mk out w' =>
    rw [hrun] at hspares
    cases out with
    | ok _ =>
      rw [run_change_memoized hrun]
      exact .of_done (by rw [World.kept?_forget, if_pos rfl])
    | error x =>
      rw [run_change_memoized hrun]
      refine .of_failed hspares fun hbuilt => ?_
      cases hvalid : e.validate r delta mode with
      | error y =>
        rw [change_of_invalid hvalid] at hrun
        exact .inl (Prod.mk.inj hrun).2.symm
      | ok _ =>
        have hadds : (e.change r ctx delta mode).Adds fun added out =>
            ∀ x, out = .error x → Refused r delta mode added x := change_adds hbuilt hvalid
        obtain ⟨added, hadded, hrefused⟩ := hadds w
        rw [hrun] at hadded hrefused
        exact .inr ⟨added, hadded, hrefused x rfl⟩

/-! The level of a gauge stands in a list with the gauge. A gauge may be set to a number; the number
that is its level may not. -/

def setLevel : Changer Gauge where
  accepts mode := if mode = .set then some [⟨"integer"⟩] else none
  change _ delta _ := do
    modify fun gauge => { gauge with level := (numbers (delta.getD [])).sum }
    return .ok ()

def fixedLevel : Changer Gauge where
  accepts mode := if mode = .set then some [⟨"integer"⟩] else none
  change _ _ _ := return .error (.unsupported (.told "fixed"))

def gauges : TypeRegistry Gauge :=
  { TypeRegistry.initial with
    types := [.object,
      { Descriptor.ofShape ⟨"integer"⟩ .i64 with changer := some fixedLevel },
      { Descriptor.ofShape ⟨"gauge"⟩ (.host "gauge") with changer := some setLevel }] }

def theGauge : Node Gauge :=
  .literal ⟨[2]⟩ ⟨"gauge"⟩ [⟨⟨"gauge"⟩, .host "gauge" "the"⟩] .and

def gaugeAndLevel : Node Gauge :=
  ofChildren ⟨[1]⟩ [theGauge, .property ⟨[3]⟩ theGauge
    (.typed "level" ⟨"integer"⟩ (.host "gauge") .i64 fun _ => do return some (← get).level)] .and

theorem gaugeAndLevel_builtIn : gaugeAndLevel.BuiltIn := by
  refine .list fun c hc => ?_
  rcases List.mem_pair.mp hc with rfl | rfl
  · exact .literal
  · exact .property .literal

theorem gaugeAndLevel_named : (Node.memoized ⟨[0]⟩ gaugeAndLevel).Named := by
  have hown : ∀ k, (Node.memoized ⟨[0]⟩ gaugeAndLevel).Keeps k → k = gaugeAndLevel := by
    intro k hk
    cases hk with
    | here => rfl
    | memoized hk =>
      cases hk with
      | list hc hk =>
        rcases List.mem_pair.mp hc with rfl | rfl
        · cases hk
        · cases hk with
          | property hk => cases hk
  intro k k' hk hk' _
  rw [hown k hk, hown k' hk']

/-- The list, kept, was read once. -/
def gaugeRead : World Gauge :=
  (((Node.memoized ⟨[0]⟩ gaugeAndLevel).array ⟨0⟩).run lowered).2

/-- Set to five, the gauge has a new level when the change fails, and the list has the old one. -/
theorem gaugeAndLevel_changed : ∃ x w' values,
    ((Node.memoized ⟨[0]⟩ gaugeAndLevel).change gauges ⟨0⟩
      (some [⟨⟨"integer"⟩, .i64 5⟩]) .set).run gaugeRead = (.error x, w') ∧
    gaugeRead.kept? ⟨0⟩ (gaugeAndLevel.id, .default) = some values ∧ numbers values = [0, 2] ∧
    (((Node.memoized ⟨[0]⟩ gaugeAndLevel).array ⟨0⟩).run w').1 = values ∧
    numbers ((gaugeAndLevel.array ⟨0⟩).run w').1 = [0, 5] := by
  obtain ⟨x, w', values, hrun, hkept, hold, hnew⟩ : ∃ x w' values,
      ((Node.memoized ⟨[0]⟩ gaugeAndLevel).change gauges ⟨0⟩
        (some [⟨⟨"integer"⟩, .i64 5⟩]) .set).run gaugeRead = (.error x, w') ∧
      gaugeRead.kept? ⟨0⟩ (gaugeAndLevel.id, gaugeAndLevel.time gaugeRead.bindings) =
        some values ∧ numbers values = [0, 2] ∧
      numbers ((gaugeAndLevel.array ⟨0⟩).run w').1 = [0, 5] :=
    ⟨_, _, _, rfl, rfl, by decide, by decide⟩
  have hafter := memoized_change gaugeAndLevel_named gauges ⟨0⟩
    (some [⟨⟨"integer"⟩, .i64 5⟩]) .set gaugeRead
  rw [hrun] at hafter
  have hfailed := hafter.failed x rfl
  rw [hkept, Option.getD_some] at hfailed
  exact ⟨x, w', values, hrun, hkept, hold, hfailed, hnew⟩

/-- So a change may leave values that are outdated. -/
theorem gaugeAndLevel_outdated : gaugeAndLevel.BuiltIn ∧
    (Node.memoized ⟨[0]⟩ gaugeAndLevel).Named ∧ gaugeRead.isRevoked ⟨0⟩ = false ∧
    gaugeRead.hasMemo ⟨0⟩ = true ∧ ¬ ∀ delta mode out w',
      ((Node.memoized ⟨[0]⟩ gaugeAndLevel).change gauges ⟨0⟩ delta mode).run gaugeRead =
        (out, w') → w'.isRevoked ⟨0⟩ = false →
      (((Node.memoized ⟨[0]⟩ gaugeAndLevel).array ⟨0⟩).run w').1 =
        ((gaugeAndLevel.array ⟨0⟩).run w').1 := by
  refine ⟨gaugeAndLevel_builtIn, gaugeAndLevel_named, rfl, rfl, fun h => ?_⟩
  have hsame := h (some [⟨⟨"integer"⟩, .i64 5⟩]) .set _ _ rfl rfl
  exact absurd (congrArg numbers hsame) (by decide)

end Node

end ScriptEngine

import ScriptEngine.Proofs.TypedValues

/-! What all visits have in common.

Only the visitor can stop a visit: if it keeps an invariant as long as it goes on, a visit
that is through has kept it, and one that was stopped came to its end where the visitor
stopped (`visit_traverses`). So what the host and the visitor keep is kept by a visit, as
long as it is no matter of the caches (`visit_keeps`). -/
namespace ScriptEngine.Node
variable {σ β : Type} {n : Node σ} {ctx : ContextId}

/-! ### Caches -/

section
variable {I : World σ → Prop} (hmemos : ∀ w memos, I w → I { w with memos := memos })
include hmemos

theorem keeps_remember (ctx : ContextId) (node : NodeId) (t : Time) (values : List Value)
    {w : World σ} (hw : I w) : I (w.remember ctx node t values) := by
  unfold World.remember
  split
  · exact hw
  · exact hmemos w _ hw

theorem keeps_forget (ctx : ContextId) (node : NodeId) {w : World σ} (hw : I w) :
    I (w.forget ctx node) := by
  unfold World.forget
  split
  · exact hw
  · exact hmemos w _ hw

theorem keeps_memoized (hI : World.HostFree I) (ctx : ContextId) (node : NodeId) (t : Time)
    {compute : Eval σ (List Value)} (hcompute : compute.Ensures I fun _ => True) :
    (Eval.memoized ctx node t compute).Ensures I fun _ => True :=
  .memoized (fun w _ hw => hI w w.host _ hw) (fun _ _ _ _ _ _ => trivial) hcompute
    fun _ _ hw _ => keeps_remember hmemos _ _ _ _ hw

end

/-! ### One visit -/

section
variable {I : β → World σ → Prop} {f : Value → β → Eval σ (ForInStep β)} {b : β}

/-- A visitor keeps an invariant, of what it gathered and of the world, as long as it goes on. -/
def Continues (I : β → World σ → Prop) (f : Value → β → Eval σ (ForInStep β)) : Prop :=
  ∀ v b w, I b w → ∀ b' w', (f v b).run w = (.yield b', w') → I b' w'

/-- What a visit comes to if its visitor keeps an invariant: it is through, and the invariant holds,
or the visitor stopped it at a moment when the invariant did hold. -/
inductive Visited (I : β → World σ → Prop) (f : Value → β → Eval σ (ForInStep β)) :
    ForInStep β × World σ → Prop where
  | through {b w} : I b w → Visited I f (.yield b, w)
  | stopped {v b₁ w₁ b w} : I b₁ w₁ → (f v b₁).run w₁ = (.done b, w) → Visited I f (.done b, w)

theorem run_through (get : Value → HostM σ (Option Value)) (v : Value) (w : World σ) :
    (through get f v b).run w =
      match ((get v).run w.host).value with
      | none => (.yield b, ((Eval.host (get v)).run w).2)
      | some v' => (f v' b).run ((Eval.host (get v)).run w).2 := by
  have hrun : (Eval.host (get v)).run w =
      (((get v).run w.host).value, ((Eval.host (get v)).run w).2) := rfl
  refine (Eval.run_bind hrun).trans ?_
  cases ((get v).run w.host).value <;> rfl

theorem run_scan (v : Value) (rest : List Value) (w : World σ) :
    (scan f (v :: rest) b).run w =
      match (f v b).run w with
      | (.done b', w') => (.done b', w')
      | (.yield b', w') => (scan f rest b').run w' := by
  cases hstep : (f v b).run w with
  | mk step w' =>
    rw [scan]
    refine (Eval.run_bind hstep).trans ?_
    cases step <;> rfl

theorem run_visitAll (n : Node σ) (rest : List (Node σ)) (w : World σ) :
    (visitAll ctx f (n :: rest) b).run w =
      match (n.visit ctx f b).run w with
      | (.done b', w') => (.done b', w')
      | (.yield b', w') => (visitAll ctx f rest b').run w' := by
  cases hstep : (n.visit ctx f b).run w with
  | mk step w' =>
    rw [visitAll]
    refine (Eval.run_bind hstep).trans ?_
    cases step <;> rfl

theorem run_array (n : Node σ) (w : World σ) :
    (n.array ctx).run w =
      (gathered ((n.visit ctx gather []).run w).1, ((n.visit ctx gather []).run w).2) := rfl

theorem scan_traverses (hf : Continues I f) (values : List Value) {w : World σ} (hw : I b w) :
    Visited I f ((scan f values b).run w) := by
  induction values generalizing b w with
  | nil => exact .through hw
  | cons v rest ih =>
    rw [run_scan]
    cases hstep : (f v b).run w with
    | mk step w' =>
      cases step with
      | done b' => exact .stopped hw hstep
      | yield b' => exact ih (hf v b w hw b' w' hstep)

theorem visitAll_traverses {children : List (Node σ)}
    (h : ∀ c ∈ children, ∀ b w, I b w → Visited I f ((c.visit ctx f b).run w)) {w : World σ}
    (hw : I b w) : Visited I f ((visitAll ctx f children b).run w) := by
  induction children generalizing b w with
  | nil =>
    rw [visitAll]
    exact .through hw
  | cons n rest ih =>
    rw [List.forall_mem_cons] at h
    have hfirst := h.1 b w hw
    rw [run_visitAll]
    cases hstep : (n.visit ctx f b).run w with
    | mk step w' =>
      rw [hstep] at hfirst
      cases hfirst with
      | through hw' => exact ih h.2 hw'
      | stopped hw₁ hstop => exact .stopped hw₁ hstop

variable (hI : ∀ b, World.HostFree (I b))
include hI

theorem through_continues (hf : Continues I f) (get : Value → HostM σ (Option Value)) :
    Continues I (through get f) := by
  intro v b w hw b' w' hrun
  have hread : I b ((Eval.host (get v)).run w).2 := hI b w _ _ hw
  rw [run_through] at hrun
  cases hout : ((get v).run w.host).value with
  | none =>
    rw [hout] at hrun
    cases hrun
    exact hread
  | some v' =>
    rw [hout] at hrun
    exact hf v' b _ hread b' w' hrun

/-- A visitor that looks through another one stops only where that one does. -/
theorem Visited.of_through {get : Value → HostM σ (Option Value)} {result : ForInStep β × World σ}
    (h : Visited I (Node.through get f) result) : Visited I f result := by
  cases h with
  | through hw => exact .through hw
  | @stopped v b₁ w₁ b w hw hstop =>
    have hread : I b₁ ((Eval.host (get v)).run w₁).2 := hI b₁ w₁ _ _ hw
    rw [run_through] at hstop
    cases hout : ((get v).run w₁.host).value with
    | none =>
      rw [hout] at hstop
      cases hstop
    | some v' =>
      rw [hout] at hstop
      exact .stopped hread hstop

variable (hmemos : ∀ b w memos, I b w → I b { w with memos := memos })
include hmemos

/-- **Only the visitor stops a visit**, and until then what the visitor keeps is kept. -/
theorem visit_traverses (hf : Continues I f) {w : World σ} (hw : I b w) :
    Visited I f ((n.visit ctx f b).run w) := by
  induction n generalizing β w with
  | literal | snapshot =>
    rw [visit]
    exact scan_traverses hf _ hw
  | list _ _ children _ ih =>
    rw [visit]
    exact visitAll_traverses (fun c hc b w hw => ih c hc hI hmemos hf hw) hw
  | converted _ source edge ih =>
    rw [visit]
    exact (ih hI hmemos (through_continues hI hf edge.apply) hw).of_through hI
  | property id owner p ih =>
    rw [visit]
    exact (ih hI hmemos (through_continues hI hf (readProperty id p)) hw).of_through hI
  | eventValue id value =>
    rw [visit]
    have hread : (readEvent ctx id value).Ensures (I b) fun _ => True :=
      (readEvent_ensures (Q := fun _ => True) (hI b)
        (fun _ _ _ _ => .mono .trivial fun _ _ _ _ => trivial) ctx id).mono fun _ _ => trivial
    rw [StateT.run_bind]
    exact scan_traverses hf _ (hread w hw).2
  | memoized _ inner ih =>
    rw [visit]
    -- The values are gathered first; that touches the world, but not what the visitor has so far.
    have hgather : (inner.visit ctx gather []).Ensures (I b) fun _ => True := by
      intro w hw
      have hvisited := ih (I := fun _ w => I b w) (fun _ => hI b) (fun _ => hmemos b)
        (f := gather) (b := []) (fun v gathered w hw b' w' hrun => by cases hrun; exact hw) hw
      refine ⟨trivial, ?_⟩
      cases hrun : (inner.visit ctx gather []).run w with
      | mk step w' =>
        rw [hrun] at hvisited
        cases hvisited with
        | through hw' => exact hw'
        | stopped _ hstop => cases hstop
    have hcompute : (do return gathered (← inner.visit ctx gather []) : Eval σ _).Ensures (I b)
        fun _ => True := .bind hgather fun _ _ => .pure trivial
    have hkept := keeps_memoized (hmemos b) (hI b) ctx inner.id (inner.time w.bindings) hcompute
    rw [StateT.run_bind, StateT.run_get, pure_bind, StateT.run_bind]
    exact scan_traverses hf _ (hkept w hw).2
  | host id node =>
    rw [visit, StateT.run_bind]
    exact scan_traverses hf _ (hI b w _ _ hw)

end

/-! ### What a visit keeps -/

section
variable {I : World σ → Prop} (hmemos : ∀ w memos, I w → I { w with memos := memos })
  (hI : World.HostFree I)
include hmemos hI

/-- Visiting a node keeps what the host keeps and what is no matter of the caches, and of what is
gathered what the visitor keeps. -/
theorem visit_keeps {J : β → Prop} {f : Value → β → Eval σ (ForInStep β)} {b : β}
    (hf : Gathers I (fun _ => True) J f) (hb : J b) :
    (n.visit ctx f b).Ensures I fun step => J step.value := by
  intro w hw
  have hcontinues : Continues (fun b w => J b ∧ I w) f := by
    intro v b w h b' w' hrun
    have hstep := hf v trivial b h.1 w h.2
    rw [hrun] at hstep
    exact hstep
  have hvisited : Visited (fun b w => J b ∧ I w) f ((n.visit ctx f b).run w) :=
    visit_traverses (fun b w host added h => ⟨h.1, hI w host added h.2⟩)
      (fun b w memos h => ⟨h.1, hmemos w memos h.2⟩) hcontinues ⟨hb, hw⟩
  cases hrun : (n.visit ctx f b).run w with
  | mk step w' =>
    rw [hrun] at hvisited
    cases hvisited with
    | through h => exact h
    | @stopped v b₁ w₁ b' _ h hstop =>
      have hstep := hf v trivial b₁ h.1 w₁ h.2
      rw [hstop] at hstep
      exact hstep

theorem array_keeps : (n.array ctx).Ensures I fun _ => True :=
  .bind (visit_keeps (J := fun _ => True) hmemos hI (fun _ _ _ _ => .pure trivial) trivial)
    fun _ _ => .pure trivial

end

/-- Reading a node only adds to the journal. -/
theorem array_adds : (n.array ctx).Adds fun _ _ => True :=
  .of_ensures fun earlier => array_keeps (fun _ _ hw => hw) (World.after_hostFree earlier)

end ScriptEngine.Node

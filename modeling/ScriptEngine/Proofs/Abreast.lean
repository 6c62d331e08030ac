import ScriptEngine.Proofs.Visits

/-! Two visits of one node, side by side.

The one may be stopped before the other. As long as both go on they come to the same values
in the same order, and ask the host for the same, if a node cannot tell their worlds apart
and the functions of the host do the same in both. So what two visitors have to do with each
other has to be shown value by value only (`visit_abreast`).

With gathering beside gathering, a list contributes just the values of its nodes
(`array_list`). -/
namespace ScriptEngine.Node
variable {σ β γ : Type} {n : Node σ} {ctx : ContextId}

/-! ### Two worlds -/

section
variable {α : Type} {S : World σ → World σ → Prop} {m : HostM σ α}

/-- An entry that the engine makes while it reads a node. -/
def ofReading : Entry → Bool
  | .call _ => true
  | .recall .. => true
  | _ => false

/-- A relation between worlds that a node cannot tell apart, and that reading keeps up. -/
structure Twins (ctx : ContextId) (S : World σ → World σ → Prop) : Prop where
  revoked : ∀ {w w'}, S w w' → w.isRevoked ctx = w'.isRevoked ctx
  bindings : ∀ {w w'}, S w w' → w.bindings = w'.bindings
  memo : ∀ {w w'}, S w w' → w.memo? ctx = w'.memo? ctx
  note : ∀ {w w'} e, ofReading e = true → S w w' →
    S { w with journal := w.journal ++ [e] } { w' with journal := w'.journal ++ [e] }
  remember : ∀ {w w'} node t values, S w w' →
    S (w.remember ctx node t values) (w'.remember ctx node t values)

theorem Twins.constrain (hS : Twins ctx S) (p : Prop) : Twins ctx fun w w' => p ∧ S w w' where
  revoked h := hS.revoked h.2
  bindings h := hS.bindings h.2
  memo h := hS.memo h.2
  note e he h := ⟨h.1, hS.note e he h.2⟩
  remember node t values h := ⟨h.1, hS.remember node t values h.2⟩

/-- In related worlds a run comes to the same, and leaves related worlds. -/
def Alike (S : World σ → World σ → Prop) (m : Eval σ α) : Prop :=
  ∀ w w', S w w' → ∃ a w₁ w₁', m.run w = (a, w₁) ∧ m.run w' = (a, w₁') ∧ S w₁ w₁'

namespace Alike

theorem constrain {m : Eval σ α} (hm : Alike S m) (p : Prop) :
    Alike (fun w w' => p ∧ S w w') m := by
  intro w w' h
  obtain ⟨a, w₁, w₁', hrun, hrun', h₁⟩ := hm w w' h.2
  exact ⟨a, w₁, w₁', hrun, hrun', h.1, h₁⟩

theorem pure {a : α} : Alike S (Pure.pure a) := fun w w' h => ⟨a, w, w', rfl, rfl, h⟩

theorem bind {m : Eval σ α} {k : α → Eval σ β} (hm : Alike S m) (hk : ∀ a, Alike S (k a)) :
    Alike S (m >>= k) := by
  intro w w' h
  obtain ⟨a, w₁, w₁', hrun, hrun', h₁⟩ := hm w w' h
  obtain ⟨b, w₂, w₂', hrest, hrest', h₂⟩ := hk a w₁ w₁' h₁
  exact ⟨b, w₂, w₂', (Eval.run_bind hrun).trans hrest, (Eval.run_bind hrun').trans hrest', h₂⟩

/-- A run may look at the world, as long as it looks at what related worlds have in common. -/
theorem get_bind {k : World σ → Eval σ α} (hsame : ∀ w w', S w w' → k w' = k w)
    (hk : ∀ w, Alike S (k w)) : Alike S (MonadState.get >>= k) := by
  intro w w' h
  obtain ⟨a, w₁, w₁', hrun, hrun', h₁⟩ := hk w w w' h
  have hget : (MonadState.get >>= k : Eval σ α).run w' = (k w').run w' := Eval.run_bind rfl
  rw [hsame w w' h] at hget
  exact ⟨a, w₁, w₁', (Eval.run_bind rfl).trans hrun, hget.trans hrun', h₁⟩

variable (hS : Twins ctx S)
include hS

theorem note {e : Entry} (he : ofReading e = true) : Alike S (Eval.note e) :=
  fun _ _ h => ⟨(), _, _, rfl, rfl, hS.note e he h⟩

theorem isRevoked : Alike S (Eval.isRevoked ctx) :=
  fun w w' h => ⟨w.isRevoked ctx, w, w', rfl, congrArg (·, w') (hS.revoked h).symm, h⟩

theorem called (hm : Alike S (Eval.host m)) (call : HostCall) :
    Alike S (Eval.host (HostM.called call m)) := by
  have hrun : ∀ w : World σ, (Eval.host (HostM.called call m)).run w =
      (Eval.host m).run { w with journal := w.journal ++ [.call call] } := by
    intro w
    have hjournal : w.journal ++ .call call :: (m.run w.host).journal =
        w.journal ++ [.call call] ++ (m.run w.host).journal := by simp
    show (_, _) = (_, _)
    rw [HostM.run_called]
    exact congrArg (fun journal => (_, ({ w with host := _, journal := journal } : World σ)))
      hjournal
  intro w w' h
  rw [hrun, hrun]
  exact hm _ _ (hS.note (.call call) rfl h)

theorem readEvent {id : NodeId} {value : EventValue σ}
    (hget : ∀ t get, value.getter? t = some get → Alike S (Eval.host (get ctx))) :
    Alike S (Node.readEvent ctx id value) := by
  refine get_bind (fun w w' h => ?_) fun w => ?_
  · simp only [hS.revoked h, hS.bindings h]
  · dsimp only
    split
    · exact pure
    · cases hgetter : value.getter? (w.bindings.get id) with
      | none => exact pure
      | some get => exact (hget _ get hgetter).called hS _

theorem memoized (node : NodeId) (t : Time) {compute : Eval σ (List Value)}
    (hcompute : Alike S compute) : Alike S (Eval.memoized ctx node t compute) := by
  refine get_bind (fun w w' h => ?_) fun w => ?_
  · simp only [hS.memo h]
  · cases w.memo? ctx with
    | none => exact hcompute
    | some memo =>
      dsimp only
      cases memo.get? (node, t) with
      | some values => exact (note hS rfl).bind fun _ => pure
      | none =>
        refine (note hS rfl).bind fun _ => hcompute.bind fun values => ?_
        refine (isRevoked hS).bind fun revoked => ?_
        cases revoked with
        | true => exact pure
        | false =>
          have hremember : Alike S
              (modifyGet fun w => (PUnit.unit, w.remember ctx node t values) : Eval σ PUnit) :=
            fun _ _ h => ⟨_, _, _, rfl, rfl, hS.remember node t values h⟩
          exact hremember.bind fun _ => pure

end Alike

end

/-! ### Two visits -/

/-- All functions of the host that a tree asks in a running event are of a kind. -/
inductive Uses (P : ∀ {α : Type}, HostM σ α → Prop) (ctx : ContextId) : Node σ → Prop where
  | literal {id type values q} : Uses P ctx (.literal id type values q)
  | list {id type children q} : (∀ c ∈ children, Uses P ctx c) →
      Uses P ctx (.list id type children q)
  | converted {id source edge} : Uses P ctx source → (∀ v, P (edge.apply v)) →
      Uses P ctx (.converted id source edge)
  | property {id owner p} : Uses P ctx owner → (∀ v, P (p.get v)) →
      Uses P ctx (.property id owner p)
  | eventValue {id value} : (∀ t get, value.getter? t = some get → P (get ctx)) →
      Uses P ctx (.eventValue id value)
  | snapshot {id taken} : Uses P ctx (.snapshot id taken)
  | memoized {id inner} : Uses P ctx inner → Uses P ctx (.memoized id inner)
  | host {id node} : P (node.compute ctx) → Uses P ctx (.host id node)

/-- What two visits come to that go side by side: both are through, or the first was stopped, and
the second may have gone on. -/
inductive Abreast (S : β → γ → World σ → World σ → Prop)
    (K : β → World σ → γ → World σ → Prop) :
    ForInStep β × World σ → ForInStep γ × World σ → Prop where
  | both {b c w w'} : S b c w w' → Abreast S K (.yield b, w) (.yield c, w')
  | ahead {b w step w'} : K b w step.value w' → Abreast S K (.done b, w) (step, w')

/-- Two visitors go side by side, whatever a function of the host of some kind does: as long as both
go on, `S` holds of what they gathered and of their worlds, and from when the first one stops, `K`
does. -/
structure SideBySide (P : ∀ {α : Type}, HostM σ α → Prop) (ctx : ContextId)
    (f : Value → β → Eval σ (ForInStep β)) (g : Value → γ → Eval σ (ForInStep γ))
    (S : β → γ → World σ → World σ → Prop) (K : β → World σ → γ → World σ → Prop) : Prop where
  twins : ∀ b c, Twins ctx (S b c)
  alike : ∀ {α : Type} {m : HostM σ α}, P m → ∀ b c, Alike (S b c) (Eval.host m)
  step : ∀ v b c w w', S b c w w' → Abreast S K ((f v b).run w) ((g v c).run w')
  hostFree : ∀ b w c, World.HostFree (K b w c)
  memos : ∀ b w c w' memos, K b w c w' → K b w c { w' with memos := memos }
  after : ∀ b w v c w', K b w c w' → K b w ((g v c).run w').1.value ((g v c).run w').2

namespace SideBySide
variable {P : ∀ {α : Type}, HostM σ α → Prop} {f : Value → β → Eval σ (ForInStep β)}
  {g : Value → γ → Eval σ (ForInStep γ)} {S : β → γ → World σ → World σ → Prop}
  {K : β → World σ → γ → World σ → Prop} {b : β} {c : γ} {w w' : World σ}

section
variable (h : SideBySide P ctx f g S K)
include h

theorem continues (b : β) (w : World σ) : Continues (K b w) g := by
  intro v c w' hK c' w'' hrun
  have hafter := h.after b w v c w' hK
  rw [hrun] at hafter
  exact hafter

/-- What the second visit comes to when the first one was stopped before. -/
theorem ahead {result : ForInStep γ × World σ} (hvisited : Visited (K b w) g result) :
    Abreast S K (.done b, w) result := by
  cases hvisited with
  | through hK => exact .ahead hK
  | @stopped v c₁ w₁ c w' hK hstop =>
    have hafter := h.after b w v c₁ w₁ hK
    rw [hstop] at hafter
    exact .ahead hafter

theorem through {get : Value → HostM σ (Option Value)}
    (hget : ∀ v b c, Alike (S b c) (Eval.host (get v))) :
    SideBySide P ctx (through get f) (through get g) S K where
  twins := h.twins
  alike := h.alike
  hostFree := h.hostFree
  memos := h.memos
  step v b c w w' hS := by
    obtain ⟨out, w₁, w₁', hrun, hrun', h₁⟩ := hget v b c w w' hS
    rw [Node.through, Node.through, Eval.run_bind hrun, Eval.run_bind hrun']
    cases out with
    | none => exact .both h₁
    | some v' => exact h.step v' b c w₁ w₁' h₁
  after b w v c w' hK := by
    have hread : K b w c ((Eval.host (get v)).run w').2 := h.hostFree b w c w' _ _ hK
    rw [run_through]
    cases ((get v).run w'.host).value with
    | none => exact hread
    | some v' => exact h.after b w v' c _ hread

theorem scan (values : List Value) (hS : S b c w w') :
    Abreast S K ((scan f values b).run w) ((scan g values c).run w') := by
  induction values generalizing b c w w' with
  | nil => exact .both hS
  | cons v rest ih =>
    have hfirst := h.step v b c w w' hS
    rw [run_scan, run_scan]
    cases hf : (f v b).run w with
    | mk step w₁ =>
      cases hg : (g v c).run w' with
      | mk step' w₁' =>
        rw [hf, hg] at hfirst
        cases hfirst with
        | both h₁ => exact ih h₁
        | ahead hK =>
          cases step' with
          | done c' => exact .ahead hK
          | yield c' => exact h.ahead (scan_traverses (h.continues _ _) rest hK)

theorem visitAll {children : List (Node σ)}
    (hchildren : ∀ n ∈ children, ∀ b c w w', S b c w w' →
      Abreast S K ((n.visit ctx f b).run w) ((n.visit ctx g c).run w')) (hS : S b c w w') :
    Abreast S K ((visitAll ctx f children b).run w) ((visitAll ctx g children c).run w') := by
  induction children generalizing b c w w' with
  | nil =>
    rw [Node.visitAll, Node.visitAll]
    exact .both hS
  | cons n rest ih =>
    rw [List.forall_mem_cons] at hchildren
    have hfirst := hchildren.1 b c w w' hS
    rw [run_visitAll, run_visitAll]
    cases hf : (n.visit ctx f b).run w with
    | mk step w₁ =>
      cases hg : (n.visit ctx g c).run w' with
      | mk step' w₁' =>
        rw [hf, hg] at hfirst
        cases hfirst with
        | both h₁ => exact ih hchildren.2 h₁
        | ahead hK =>
          cases step' with
          | done c' => exact .ahead hK
          | yield c' =>
            refine h.ahead (visitAll_traverses (fun n _ c w hw => ?_) hK)
            exact visit_traverses (h.hostFree _ _) (h.memos _ _) (h.continues _ _) hw

end

/-- Gathering goes side by side with itself, also where the one had gathered values before. -/
theorem gather {S : World σ → World σ → Prop} (hS : Twins ctx S)
    (hP : ∀ {α : Type} {m : HostM σ α}, P m → Alike S (Eval.host m)) (before : List Value) :
    SideBySide P ctx Node.gather Node.gather (fun b c w w' => b = c ++ before ∧ S w w')
      fun _ _ _ _ => False where
  twins b c := hS.constrain (b = c ++ before)
  alike hm b c := (hP hm).constrain (b = c ++ before)
  step v _ _ _ _ h := .both ⟨congrArg (v :: ·) h.1, h.2⟩
  hostFree _ _ _ _ _ _ h := h
  memos _ _ _ _ _ h := h
  after _ _ _ _ _ h := h

end SideBySide

/-- What two visits gather side by side is the same. -/
theorem Alike.gathered {S : World σ → World σ → Prop} {m : Eval σ (ForInStep (List Value))}
    (h : ∀ w w', S w w' → Abreast (fun b c w w' => b = c ++ [] ∧ S w w')
      (fun _ _ _ _ => False) (m.run w) (m.run w')) :
    Alike S (do return Node.gathered (← m)) := by
  intro w w' hS
  have hgather := h w w' hS
  cases hrun : m.run w with
  | mk step w₁ =>
    cases hrun' : m.run w' with
    | mk step' w₁' =>
      rw [hrun, hrun'] at hgather
      cases hgather with
      | both h₁ =>
        obtain ⟨hsame, h₁⟩ := h₁
        rw [List.append_nil] at hsame
        subst hsame
        exact ⟨_, w₁, w₁', Eval.run_bind hrun, Eval.run_bind hrun', h₁⟩
      | ahead hK => exact hK.elim

/-- **Two visits of one node go side by side as long as their visitors do.** -/
theorem visit_abreast {P : ∀ {α : Type}, HostM σ α → Prop} (hn : n.Uses P ctx)
    {f : Value → β → Eval σ (ForInStep β)} {g : Value → γ → Eval σ (ForInStep γ)}
    {S : β → γ → World σ → World σ → Prop} {K : β → World σ → γ → World σ → Prop}
    (h : SideBySide P ctx f g S K) {b : β} {c : γ} {w w' : World σ} (hS : S b c w w') :
    Abreast S K ((n.visit ctx f b).run w) ((n.visit ctx g c).run w') := by
  induction hn generalizing β γ b c w w' with
  | literal | snapshot =>
    rw [visit, visit]
    exact h.scan _ hS
  | list _ ih =>
    rw [visit, visit]
    exact h.visitAll (fun n hn b c w w' hS => ih n hn h hS) hS
  | converted _ hedge ih =>
    rw [visit, visit]
    exact ih (h.through fun v b c => h.alike (hedge v) b c) hS
  | property _ hget ih =>
    rw [visit, visit]
    exact ih (h.through fun v b c => (h.alike (hget v) b c).called (h.twins b c) _) hS
  | eventValue hget =>
    obtain ⟨out, w₁, w₁', hrun, hrun', h₁⟩ := Alike.readEvent (h.twins b c)
      (fun t get hgetter => h.alike (hget t get hgetter) b c) w w' hS
    rw [visit, visit, Eval.run_bind hrun, Eval.run_bind hrun']
    exact h.scan _ h₁
  | @memoized _ inner _ ih =>
    have hcompute : Alike (S b c) (do return gathered (← inner.visit ctx gather [])) :=
      .gathered fun w w' hS => ih (SideBySide.gather (h.twins b c) (fun hm => h.alike hm b c) [])
        ⟨rfl, hS⟩
    obtain ⟨values, w₁, w₁', hrun, hrun', h₁⟩ := Alike.memoized (h.twins b c) inner.id
      (inner.time w.bindings) hcompute w w' hS
    have hbindings := (h.twins b c).bindings hS
    rw [visit, visit, Eval.run_bind (m := MonadState.get) rfl,
      Eval.run_bind (m := MonadState.get) rfl, ← hbindings, Eval.run_bind hrun,
      Eval.run_bind hrun']
    exact h.scan _ h₁
  | host hcompute =>
    obtain ⟨values, w₁, w₁', hrun, hrun', h₁⟩ :=
      (h.alike hcompute b c).called (h.twins b c) (.evaluate _ ctx) w w' hS
    rw [visit, visit, evaluate, Eval.run_bind hrun, Eval.run_bind hrun']
    exact h.scan _ h₁

/-! ### Reading a list -/

theorem Twins.eq (ctx : ContextId) : Twins ctx (Eq : World σ → World σ → Prop) where
  revoked h := congrArg (·.isRevoked ctx) h
  bindings h := congrArg (·.bindings) h
  memo h := congrArg (·.memo? ctx) h
  note e _ h := congrArg (fun w : World σ => { w with journal := w.journal ++ [e] }) h
  remember node t values h := congrArg (·.remember ctx node t values) h

theorem Alike.eq {α : Type} (m : Eval σ α) : Alike Eq m := by
  rintro w _ rfl
  exact ⟨(m.run w).1, (m.run w).2, (m.run w).2, rfl, rfl, rfl⟩

theorem uses_all {P : ∀ {α : Type}, HostM σ α → Prop} (hP : ∀ {α : Type} (m : HostM σ α), P m)
    (n : Node σ) : n.Uses P ctx := by
  induction n with
  | literal => exact .literal
  | list _ _ _ _ ih => exact .list ih
  | converted _ _ _ ih => exact .converted ih fun _ => hP _
  | property _ _ _ ih => exact .property ih fun _ => hP _
  | eventValue => exact .eventValue fun _ _ _ => hP _
  | snapshot => exact .snapshot
  | memoized _ _ ih => exact .memoized ih
  | host => exact .host (hP _)

theorem uses_any (n : Node σ) : n.Uses (fun _ => True) ctx := uses_all (fun _ => trivial) n

/-- Reading a node comes to the same in two worlds if all functions of the host do. -/
theorem array_alike {S : World σ → World σ → Prop} (hS : Twins ctx S)
    (hhost : ∀ {α : Type} (m : HostM σ α), Alike S (Eval.host m)) (n : Node σ) :
    Alike S (n.array ctx) :=
  .gathered fun _ _ h => visit_abreast (uses_any n) (SideBySide.gather hS (fun _ => hhost _) [])
    ⟨rfl, h⟩

/-- Values that were gathered before a visit make no difference to it. -/
theorem run_visit_gather (n : Node σ) (before : List Value) (w : World σ) :
    (n.visit ctx gather before).run w =
      (.yield (((n.array ctx).run w).1.reverse ++ before), ((n.array ctx).run w).2) := by
  have hvisits := visit_abreast (uses_any n)
    (SideBySide.gather (Twins.eq ctx) (fun _ => .eq _) before) (b := before) (c := []) (w := w)
    ⟨rfl, rfl⟩
  rw [run_array]
  cases hrun : (n.visit ctx gather before).run w with
  | mk step w₁ =>
    cases hrun' : (n.visit ctx gather []).run w with
    | mk step' w₁' =>
      rw [hrun, hrun'] at hvisits
      cases hvisits with
      | both h =>
        obtain ⟨rfl, rfl⟩ := h
        rw [gathered, List.reverse_reverse, ForInStep.value]
      | ahead h => exact h.elim

theorem run_mapM_array (n : Node σ) (rest : List (Node σ)) (w : World σ) :
    ((n :: rest).mapM (array ctx)).run w =
      (((n.array ctx).run w).1 :: ((rest.mapM (array ctx)).run ((n.array ctx).run w).2).1,
        ((rest.mapM (array ctx)).run ((n.array ctx).run w).2).2) := by
  rw [List.mapM_cons]
  rfl

theorem run_visitAll_gather (ctx : ContextId) (children : List (Node σ)) (before : List Value)
    (w : World σ) :
    (visitAll ctx gather children before).run w =
      (.yield (((children.mapM (array ctx)).run w).1.flatten.reverse ++ before),
        ((children.mapM (array ctx)).run w).2) := by
  induction children generalizing before w with
  | nil =>
    rw [visitAll]
    rfl
  | cons n rest ih =>
    rw [run_visitAll, run_visit_gather, run_mapM_array]
    dsimp only
    rw [ih, List.flatten_cons, List.reverse_append, List.append_assoc]

/-- **A list contributes the values of its nodes**, one node after the other. -/
theorem array_list {id : NodeId} {type : TypeKey} {children : List (Node σ)} {q : Quantifier}
    (w : World σ) : ((Node.list id type children q).array ctx).run w =
      (((children.mapM (array ctx)).run w).1.flatten, ((children.mapM (array ctx)).run w).2) := by
  rw [run_array, visit, run_visitAll_gather, gathered, ForInStep.value, List.append_nil,
    List.reverse_reverse]

/-! ### Worlds that differ in the journal -/

/-- Two worlds differ in the journal only, and in both the event has been revoked or in neither. -/
structure Resembles (ctx : ContextId) (w w' : World σ) : Prop where
  host : w.host = w'.host
  memos : w.memos = w'.memos
  bindings : w.bindings = w'.bindings
  revoked : w.isRevoked ctx = w'.isRevoked ctx

namespace Resembles

theorem append {w w' : World σ} (h : Resembles ctx w w') (host : σ) (added : List Entry) :
    Resembles ctx { w with host := host, journal := w.journal ++ added }
      { w' with host := host, journal := w'.journal ++ added } := by
  refine ⟨rfl, h.memos, h.bindings, ?_⟩
  have hrevoked := h.revoked
  rw [World.isRevoked, World.isRevoked] at hrevoked ⊢
  rw [List.any_append, List.any_append, hrevoked]

theorem twins (ctx : ContextId) : Twins ctx (Resembles ctx : World σ → World σ → Prop) where
  revoked h := h.revoked
  bindings h := h.bindings
  memo h := congrArg (·.get? ctx) h.memos
  note {w w'} e _ h := by
    obtain ⟨hhost, hmemos, hbindings, hrevoked⟩ := h.append w.host [e]
    exact ⟨h.host, hmemos, hbindings, hrevoked⟩
  remember {w w'} node t values h := by
    obtain ⟨_, _, memos, _⟩ := w
    obtain ⟨_, _, memos', _⟩ := w'
    obtain ⟨rfl, rfl, rfl, hrevoked⟩ := h
    unfold World.remember World.memo?
    cases memos.get? ctx with
    | none => exact ⟨rfl, rfl, rfl, hrevoked⟩
    | some memo => exact ⟨rfl, rfl, rfl, hrevoked⟩

theorem host_alike {α : Type} (m : HostM σ α) :
    Alike (Resembles ctx : World σ → World σ → Prop) (Eval.host m) := by
  intro w w' h
  have hsame := h.append (m.run w.host).state (m.run w.host).journal
  refine ⟨(m.run w.host).value, _, _, rfl, ?_, hsame⟩
  rw [h.host]
  rfl

/-- To such worlds a node makes no difference. -/
theorem array {w w' : World σ} (h : Resembles ctx w w') (n : Node σ) :
    ((n.array ctx).run w).1 = ((n.array ctx).run w').1 ∧
      Resembles ctx ((n.array ctx).run w).2 ((n.array ctx).run w').2 := by
  obtain ⟨values, w₁, w₁', hrun, hrun', h₁⟩ := array_alike (twins ctx) host_alike n w w' h
  rw [hrun, hrun']
  exact ⟨rfl, h₁⟩

end Resembles

end ScriptEngine.Node

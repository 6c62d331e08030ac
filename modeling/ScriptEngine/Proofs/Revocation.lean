import ScriptEngine.Proofs.Changes
import ScriptEngine.Proofs.Verdicts

/-! What an event that is revoked puts an end to.

Any function of the host may revoke the event that it runs in, at any moment. The engine
asks at certain moments only whether the event still goes on.

A condition asks before every test and when all values are through, but not after the test
that decides. So a condition of a revoked event is false, unless it was made true by the
very test that revoked the event (`check_revoked`).

A change asks before it reads the values of a node, and hands them to the changer
afterwards. So a changer may be called in a revoked event, if the event was revoked while
just these values were read; it is the last one that is called (`change_performs`). -/
namespace ScriptEngine

namespace World
variable {σ : Type} {ctx : ContextId} {w w' : World σ}

/-- An event once revoked stays revoked. -/
theorem isRevoked_of_prefix (h : w.journal <+: w'.journal) (hrevoked : w.isRevoked ctx = true) :
    w'.isRevoked ctx = true := by
  obtain ⟨added, hadded⟩ := h
  rw [isRevoked] at hrevoked
  rw [isRevoked, ← hadded, List.any_append, hrevoked, Bool.true_or]

@[simp] theorem isRevoked_forget {node : NodeId} :
    (w.forget ctx node).isRevoked ctx = w.isRevoked ctx := by
  rw [forget]
  split <;> rfl

end World

/-! ### Conditions -/

namespace Check
variable {σ : Type} {ctx : ContextId} {q : Quantifier} {test : Test σ} {negated : Bool} {v : Value}
  {w w' : World σ} {b b' : Option Bool}

/-- A test that decided a condition, and made it true, began in a running event. -/
inductive MadeTrue (ctx : ContextId) (q : Quantifier) (test : Test σ) (negated : Bool)
    (w : World σ) : Bool × World σ → Prop where
  | intro {v : Value} {w₁ : World σ} : w.journal <+: w₁.journal → w₁.isRevoked ctx = false →
      q.leavesOpen ((test v).run w₁.host).value = false → q.undecided negated = false →
      MadeTrue ctx q test negated w (true, w₁.tested test v)

theorem journal_tested (w : World σ) (test : Test σ) (v : Value) :
    (w.tested test v).journal = w.journal ++ .test v :: ((test v).run w.host).journal :=
  List.append_assoc ..

/-- If the event was revoked by then, the test itself revoked it. -/
theorem MadeTrue.revokes {checked : Bool × World σ} (h : MadeTrue ctx q test negated w checked)
    (hrevoked : checked.2.isRevoked ctx = true) :
    w.isRevoked ctx = false ∧ q.undecided negated = false ∧
      ∃ v s, ∃ e ∈ ((test v).run s).journal, e.revokes ctx = true := by
  cases h with
  | @intro v w₁ hprefix hrunning _ hundecided =>
    have hbefore : w.isRevoked ctx = false := by
      by_contra h
      rw [World.isRevoked_of_prefix hprefix (eq_true_of_ne_false h)] at hrunning
      cases hrunning
    rw [World.isRevoked] at hrunning hrevoked
    rw [journal_tested, List.any_append, hrunning, Bool.false_or, List.any_cons] at hrevoked
    obtain ⟨e, he, hrevokes⟩ := List.any_eq_true.mp hrevoked
    exact ⟨hbefore, hundecided, v, w₁.host, e, he, hrevokes⟩

/-- As long as a condition is not decided there is no verdict, and the journal grows. -/
theorem judge_continues (earlier : List Entry) :
    Node.Continues (fun b w => b = none ∧ World.After earlier w) (judge ctx q test negated) := by
  rintro v b w ⟨_, hw⟩ b' w' hrun
  cases hrevoked : w.isRevoked ctx with
  | true =>
    rw [run_judge_revoked hrevoked] at hrun
    cases hrun
  | false =>
    rw [run_judge hrevoked, Quantifier.decided?_eq] at hrun
    split at hrun
    · cases hrun
    · cases hrun
      refine ⟨rfl, hw.trans ?_⟩
      rw [journal_tested]
      exact List.prefix_append ..

/-- A condition stops since the event was revoked before a test, or since the test decided. -/
theorem judge_stops (h : (judge ctx q test negated v b).run w = (.done b', w')) :
    b' = some false ∨ w.isRevoked ctx = false ∧
      q.leavesOpen ((test v).run w.host).value = false ∧ b' = some (!q.undecided negated) ∧
      w' = w.tested test v := by
  cases hrevoked : w.isRevoked ctx with
  | true =>
    rw [run_judge_revoked hrevoked] at h
    cases h
    exact .inl rfl
  | false =>
    rw [run_judge hrevoked, Quantifier.decided?_eq] at h
    cases hopen : q.leavesOpen ((test v).run w.host).value with
    | true =>
      rw [hopen] at h
      cases h
    | false =>
      rw [hopen] at h
      cases h
      exact .inr ⟨rfl, rfl, rfl, rfl⟩

end Check

namespace Node
variable {σ : Type} {n : Node σ} {ctx : ContextId}

/-- If the event is revoked when a condition is through, the condition is false, or the last test
made it true. -/
theorem check_cases (n : Node σ) {ctx : ContextId} (test : Test σ) (negated : Bool) {w : World σ}
    (hrevoked : ((n.check ctx test negated).run w).2.isRevoked ctx = true) :
    ((n.check ctx test negated).run w).1 = false ∨
      Check.MadeTrue ctx n.reading test negated w ((n.check ctx test negated).run w) := by
  have hvisited : Visited (fun b w' => b = none ∧ World.After w.journal w')
      (Check.judge ctx n.reading test negated)
      ((n.visit ctx (Check.judge ctx n.reading test negated) none).run w) :=
    visit_traverses (fun b w' host added h => ⟨h.1, World.after_hostFree _ w' host added h.2⟩)
      (fun _ _ _ h => h) (Check.judge_continues w.journal) ⟨rfl, List.prefix_rfl⟩
  rw [run_check] at hrevoked ⊢
  generalize (n.visit ctx (Check.judge ctx n.reading test negated) none).run w = visited
    at hvisited hrevoked ⊢
  cases hvisited with
  | through h =>
    left
    dsimp only at hrevoked
    simp only [ForInStep.value, h.1, Option.getD_none, hrevoked, Bool.not_true, Bool.false_and]
  | stopped h hstop =>
    rcases Check.judge_stops hstop with rfl | ⟨hrunning, hdecides, rfl, rfl⟩
    · exact .inl rfl
    · cases hundecided : n.reading.undecided negated with
      | true => exact .inl rfl
      | false => exact .inr (.intro h.2 hrunning hdecides hundecided)

/-- **A condition of a revoked event** is false, unless the test that decided it revoked the event
itself. So it is false if the event was revoked beforehand, if a value that decides makes it false
anyway, and if tests never revoke the event. -/
theorem check_revoked (n : Node σ) {ctx : ContextId} (test : Test σ) (negated : Bool) {w : World σ}
    (hrevoked : ((n.check ctx test negated).run w).2.isRevoked ctx = true) :
    let checked := (n.check ctx test negated).run w
    (checked.1 = false ∨ Check.MadeTrue ctx n.reading test negated w checked) ∧
    (w.isRevoked ctx = true ∨ n.reading.undecided negated = true ∨
      (∀ v s, ∀ e ∈ ((test v).run s).journal, e.revokes ctx = false) → checked.1 = false) := by
  have hcases := check_cases n test negated hrevoked
  refine ⟨hcases, fun hwhen => hcases.resolve_right fun hmade => ?_⟩
  obtain ⟨hrunning, hundecided, v, s, e, he, hrevokes⟩ := hmade.revokes hrevoked
  rcases hwhen with hbefore | hanyway | htests
  · simp [hrunning] at hbefore
  · simp [hundecided] at hanyway
  · simp [htests v s e he] at hrevokes

/-! The second value of a list cannot be had without the event being revoked. -/

def lastValue : Property Unit where
  name := "last value"
  type := ⟨"integer"⟩
  get v := do
    HostM.revoke ⟨7⟩
    return some v

def one : Node Unit := .literal ⟨[1]⟩ ⟨"integer"⟩ [⟨⟨"integer"⟩, .i64 1⟩] .and

def oneAndLast : Node Unit := ofChildren ⟨[0]⟩ [one, .property ⟨[2]⟩ one lastValue] .and

theorem oneAndLast_revoked :
    ((oneAndLast.check ⟨7⟩ (fun _ => pure true) false).run (World.start ())).2.isRevoked ⟨7⟩ =
      true ∧
    ((oneAndLast.check ⟨7⟩ (fun _ => pure true) false).run (World.start ())).1 = false := by
  have hrevoked : ((oneAndLast.check ⟨7⟩ (fun _ => pure true) false).run
      (World.start ())).2.isRevoked ⟨7⟩ = true := rfl
  have hquiet : ∀ (v : Value) (s : Unit),
      ∀ e ∈ ((pure true : HostM Unit Bool).run s).journal, e.revokes ⟨7⟩ = false :=
    fun _ _ _ he => nomatch he
  exact ⟨hrevoked, (check_revoked oneAndLast _ false hrevoked).2 (.inr (.inr hquiet))⟩

/-- A test that passes a value and revokes the event makes the condition true. -/
theorem one_passes_revoked : ¬ ∀ n : Node Unit, n.BuiltIn → ∀ ctx test negated w,
    ((n.check ctx test negated).run w).2.isRevoked ctx = true →
      ((n.check ctx test negated).run w).1 = false := by
  intro h
  have hfalse := h one .literal ⟨7⟩ (fun _ => do HostM.revoke ⟨7⟩; return true) false
    (World.start ()) rfl
  exact absurd hfalse (by decide)

/-! ### Changes -/

/-- One call of a changer: for which node, and the world in which it was asked whether the event
still goes on. -/
structure ChangeCall (σ : Type) where
  node : Node σ
  asked : World σ

namespace ChangeCall
variable {r : TypeRegistry σ} {delta : Option (List Value)} {mode : ChangeMode}
  {c : ChangeCall σ}

/-- The values that are handed to the changer. -/
def values (c : ChangeCall σ) (ctx : ContextId) : List Value := ((c.node.array ctx).run c.asked).1

/-- The world in which the changer is called: the values were read since. -/
def started (c : ChangeCall σ) (ctx : ContextId) : World σ := ((c.node.array ctx).run c.asked).2

/-- The world after the changer is through. -/
def ended (c : ChangeCall σ) (ctx : ContextId) (delta : Option (List Value)) (mode : ChangeMode)
    (changer : Changer σ) : World σ :=
  ((Eval.host (changer.apply (c.values ctx) delta mode)).run (c.started ctx)).2

/-- What was revoked before the changer was called stays revoked. -/
theorem ended_revoked {changer : Changer σ} (h : (c.started ctx).isRevoked ctx = true) :
    (c.ended ctx delta mode changer).isRevoked ctx = true :=
  World.isRevoked_of_prefix (List.prefix_append ..) h

end ChangeCall

/-- From one world to another, changers were called one after the other, each for the values that
were read just before, after it was asked whether the event goes on. Besides, nothing was done but
that kept values were dropped. -/
inductive Performs (r : TypeRegistry σ) (ctx : ContextId) (delta : Option (List Value))
    (mode : ChangeMode) : World σ → List (ChangeCall σ) → World σ → Prop where
  | nothing {w} : Performs r ctx delta mode w [] w
  | call {c : ChangeCall σ} {changer calls w'} : c.asked.isRevoked ctx = false →
      r.changer? c.node.type = some changer →
      Performs r ctx delta mode (c.ended ctx delta mode changer) calls w' →
      Performs r ctx delta mode c.asked (c :: calls) w'
  | forget {w : World σ} {id calls w'} : Performs r ctx delta mode (w.forget ctx id) calls w' →
      Performs r ctx delta mode w calls w'

namespace Performs
variable {r : TypeRegistry σ} {delta : Option (List Value)} {mode : ChangeMode} {w w' w'' : World σ}
  {calls calls' : List (ChangeCall σ)}

theorem append (h : Performs r ctx delta mode w calls w')
    (h' : Performs r ctx delta mode w' calls' w'') :
    Performs r ctx delta mode w (calls ++ calls') w'' := by
  induction h with
  | nothing => exact h'
  | call hasked hchanger _ ih => exact .call hasked hchanger (ih h')
  | forget _ ih => exact .forget (ih h')

theorem asked_running (h : Performs r ctx delta mode w calls w') :
    ∀ c ∈ calls, c.asked.isRevoked ctx = false := by
  induction h with
  | nothing => exact fun _ hc => absurd hc List.not_mem_nil
  | call hasked _ _ ih => exact List.forall_mem_cons.mpr ⟨hasked, ih⟩
  | forget _ ih => exact ih

/-- In a revoked event no changer is called. -/
theorem eq_nil_of_revoked (h : Performs r ctx delta mode w calls w')
    (hrevoked : w.isRevoked ctx = true) : calls = [] := by
  induction h with
  | nothing => rfl
  | call hasked =>
    rw [hasked] at hrevoked
    cases hrevoked
  | forget _ ih => exact ih (World.isRevoked_forget.trans hrevoked)

/-- Only the last call can start in a revoked event. -/
theorem started_running (h : Performs r ctx delta mode w calls w') :
    calls.Pairwise fun c _ => (c.started ctx).isRevoked ctx = false := by
  induction h with
  | nothing => exact .nil
  | @call c changer calls _ _ _ hrest ih =>
    refine .cons (fun later hlater => ?_) ih
    cases hstarted : (c.started ctx).isRevoked ctx with
    | false => rfl
    | true =>
      rw [hrest.eq_nil_of_revoked (ChangeCall.ended_revoked hstarted)] at hlater
      exact absurd hlater List.not_mem_nil
  | forget _ ih => exact ih

end Performs

/-- From one world to another, changers were called for nodes of some kind. -/
def Calls (r : TypeRegistry σ) (ctx : ContextId) (delta : Option (List Value)) (mode : ChangeMode)
    (P : Node σ → Prop) (w w' : World σ) : Prop :=
  ∃ calls, Performs r ctx delta mode w calls w' ∧ ∀ c ∈ calls, P c.node

namespace Calls
variable {r : TypeRegistry σ} {delta : Option (List Value)} {mode : ChangeMode} {w w' w'' : World σ}
  {P Q : Node σ → Prop}

theorem refl (w : World σ) : Calls r ctx delta mode P w w :=
  ⟨[], .nothing, fun _ hc => absurd hc List.not_mem_nil⟩

theorem trans (h : Calls r ctx delta mode P w w') (h' : Calls r ctx delta mode P w' w'') :
    Calls r ctx delta mode P w w'' := by
  obtain ⟨calls, hcalls, hP⟩ := h
  obtain ⟨calls', hcalls', hP'⟩ := h'
  refine ⟨calls ++ calls', hcalls.append hcalls', fun c hc => ?_⟩
  exact (List.mem_append.mp hc).elim (hP c) (hP' c)

theorem mono (h : Calls r ctx delta mode P w w') (hPQ : ∀ n, P n → Q n) :
    Calls r ctx delta mode Q w w' := by
  obtain ⟨calls, hcalls, hP⟩ := h
  exact ⟨calls, hcalls, fun c hc => hPQ c.node (hP c hc)⟩

theorem forget (w : World σ) (id : NodeId) : Calls r ctx delta mode P w (w.forget ctx id) :=
  ⟨[], .forget .nothing, fun _ hc => absurd hc List.not_mem_nil⟩

end Calls

section Changing
variable [HostCells σ] {r : TypeRegistry σ} {delta : Option (List Value)} {mode : ChangeMode}

/-- The changer of a node is called once, unless the change is refused or the event was revoked. -/
theorem changeHere_calls (n : Node σ) (w : World σ) :
    Calls r ctx delta mode (· = n) w ((n.changeHere r ctx delta mode).run w).2 := by
  have hasked : (Eval.isRevoked ctx).run w = (w.isRevoked ctx, w) := rfl
  rw [changeHere]
  cases r.validateDelta (n.accepts r mode) delta mode with
  | error => exact .refl w
  | ok =>
    cases hchanger : r.changer? n.type with
    | none =>
      have hlabel : n.label.run w = ((n.label.run w).1, w) := Prod.ext rfl (label_run n w)
      dsimp only
      rw [Eval.run_bind hlabel]
      exact .refl w
    | some changer =>
      dsimp only
      rw [Eval.run_bind hasked]
      cases hrunning : w.isRevoked ctx with
      | true => exact .refl w
      | false =>
        let c : ChangeCall σ := ⟨n, w⟩
        have hread : (n.array ctx).run w = (c.values ctx, c.started ctx) := rfl
        rw [if_neg Bool.false_ne_true, Eval.run_bind hread]
        refine ⟨[c], .call (c := c) hrunning hchanger .nothing, fun c' hc' => ?_⟩
        rw [List.mem_singleton.mp hc']

theorem changeAll_calls {children : List (Node σ)} {P : Node σ → Prop}
    (h : ∀ c ∈ children, ∀ w, Calls r ctx delta mode P w ((c.change r ctx delta mode).run w).2)
    (w : World σ) : Calls r ctx delta mode P w ((changeAll r ctx delta mode children).run w).2 := by
  induction children generalizing w with
  | nil =>
    rw [changeAll]
    exact .refl w
  | cons n rest ih =>
    rw [List.forall_mem_cons] at h
    have hfirst := h.1 w
    rw [changeAll]
    cases hrun : (n.change r ctx delta mode).run w with
    | mk out w' =>
      rw [hrun] at hfirst
      rw [Eval.run_bind hrun]
      cases out with
      | error => exact hfirst
      | ok => exact hfirst.trans (ih h.2 w')

/-- Changers are called for the nodes that a change is passed on to. -/
theorem change_calls (n : Node σ) (w : World σ) :
    Calls r ctx delta mode (Relation.ReflTransGen Passes n) w
      ((n.change r ctx delta mode).run w).2 := by
  induction n generalizing w with
  | literal | property | eventValue | snapshot | host =>
    unfold change
    exact (changeHere_calls _ w).mono fun m hm => hm ▸ .refl
  | list id type children q ih =>
    rw [change]
    cases r.validateDelta ((Node.list id type children q).accepts r mode) delta mode with
    | error => exact .refl w
    | ok =>
      refine changeAll_calls (fun c hc w => ?_) w
      exact (ih c hc w).mono fun m hm => .head (.list hc) hm
  | converted _ source _ ih =>
    rw [change]
    exact (ih w).mono fun m hm => .head .converted hm
  | memoized id inner ih =>
    have hinner : Calls r ctx delta mode (Relation.ReflTransGen Passes (.memoized id inner)) w
        ((inner.change r ctx delta mode).run w).2 := (ih w).mono fun m hm => .head .memoized hm
    rw [change]
    cases hrun : (inner.change r ctx delta mode).run w with
    | mk out w' =>
      rw [hrun] at hinner
      rw [Eval.run_bind hrun]
      cases out with
      | error => exact hinner
      | ok => exact hinner.trans (.forget w' inner.id)

/-- **A change and a revoked event.** Changers are called one after the other, each for a node that
the change is passed on to, and each is asked for in a running event. Only the last of them can be
called in a revoked event, if the event was revoked while the values for it were read. None is
called if the event was revoked beforehand; and if reading never revokes the event, none is called
in a revoked event. -/
theorem change_performs (n : Node σ) (r : TypeRegistry σ) (ctx : ContextId)
    (delta : Option (List Value)) (mode : ChangeMode) (w : World σ) :
    ∃ calls, Performs r ctx delta mode w calls ((n.change r ctx delta mode).run w).2 ∧
      (∀ c ∈ calls, Relation.ReflTransGen Passes n c.node ∧ c.asked.isRevoked ctx = false) ∧
      (calls.Pairwise fun c _ => (c.started ctx).isRevoked ctx = false) ∧
      (w.isRevoked ctx = true → calls = []) ∧
      ((∀ m, Relation.ReflTransGen Passes n m → ∀ w, w.isRevoked ctx = false →
          ((m.array ctx).run w).2.isRevoked ctx = false) →
        ∀ c ∈ calls, (c.started ctx).isRevoked ctx = false) := by
  obtain ⟨calls, hcalls, hbelow⟩ : Calls r ctx delta mode (Relation.ReflTransGen Passes n) w
    ((n.change r ctx delta mode).run w).2 := change_calls n w
  have hasked : ∀ c ∈ calls, Relation.ReflTransGen Passes n c.node ∧
      c.asked.isRevoked ctx = false := fun c hc => ⟨hbelow c hc, hcalls.asked_running c hc⟩
  refine ⟨calls, hcalls, hasked, hcalls.started_running, hcalls.eq_nil_of_revoked, ?_⟩
  exact fun hreads c hc => hreads c.node (hasked c hc).1 c.asked (hasked c hc).2

end Changing

/-! The value that is to be changed first cannot be had without the event being revoked. -/

def lastTally : Property Tally where
  name := "last value"
  type := ⟨"integer"⟩
  get v := do
    HostM.revoke ⟨7⟩
    return some v

def oneTally : Node Tally := .literal ⟨[1]⟩ ⟨"integer"⟩ [⟨⟨"integer"⟩, .i64 1⟩] .and

def lastAndOne : Node Tally := ofChildren ⟨[0]⟩ [.property ⟨[2]⟩ oneTally lastTally, oneTally] .and

/-- The changer is called for the first node, and not for the second. -/
theorem lastAndOne_performs :
    ∃ calls, Performs settable ⟨7⟩ (some [⟨⟨"integer"⟩, .i64 3⟩]) .set (World.start ⟨0⟩) calls
        ((lastAndOne.change settable ⟨7⟩ (some [⟨⟨"integer"⟩, .i64 3⟩]) .set).run
          (World.start ⟨0⟩)).2 ∧
      (∀ c ∈ calls, c.asked.isRevoked ⟨7⟩ = false) ∧
      (calls.Pairwise fun c _ => (c.started ⟨7⟩).isRevoked ⟨7⟩ = false) ∧
      ((lastAndOne.change settable ⟨7⟩ (some [⟨⟨"integer"⟩, .i64 3⟩]) .set).run
        (World.start ⟨0⟩)).2.host.changes = 1 := by
  obtain ⟨calls, hcalls, hasked, hstarted, _⟩ := change_performs lastAndOne settable ⟨7⟩
    (some [⟨⟨"integer"⟩, .i64 3⟩]) .set (World.start ⟨0⟩)
  exact ⟨calls, hcalls, fun c hc => (hasked c hc).2, hstarted, rfl⟩

/-- The event was revoked by then. -/
theorem last_changed_revoked : ¬ ∀ n : Node Tally, n.BuiltIn → ∀ r ctx delta mode w,
    ∀ before mode' values delta' after,
      ((n.change r ctx delta mode).run w).2.journal =
        before ++ .call (.change mode' values delta') :: after →
      before.any (·.revokes ctx) = false := by
  intro h
  have hrunning := h (.property ⟨[2]⟩ oneTally lastTally) (.property .literal) settable ⟨7⟩
    (some [⟨⟨"integer"⟩, .i64 3⟩]) .set (World.start ⟨0⟩)
    [.call (.readProperty ⟨[2]⟩ ⟨⟨"integer"⟩, .i64 1⟩), .revoke ⟨7⟩] _ _ _ [] rfl
  exact absurd hrunning (by decide)

end Node

end ScriptEngine

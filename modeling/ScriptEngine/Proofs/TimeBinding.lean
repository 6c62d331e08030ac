import ScriptEngine.Proofs.Keeping

/-! Asking for a state of the event.

A node has a state of the event if it takes values from a node that has it (`hasTime`). Asked for a
state, a node binds the event values it is built on that have the state, and leaves all others as
they are (`rebind_run`). A list asks each of its nodes and does not mind those that refuse; if it
refuses itself, none of its nodes had the state, and so none was bound. `timeBinding` says that a
refusal changes nothing, whether the node lacks the state or the element comes after a delay. -/
namespace ScriptEngine

/-! ### Several bindings -/

namespace Bindings

/-- The bindings with some nodes bound to a state. -/
def setAll (b : Bindings) (ids : List NodeId) (t : Time) : Bindings :=
  ids.foldl (fun b id => b.set id t) b

theorem setAll_append (b : Bindings) (ids more : List NodeId) (t : Time) :
    b.setAll (ids ++ more) t = (b.setAll ids t).setAll more t := List.foldl_append

theorem get_setAll (b : Bindings) (ids : List NodeId) (id : NodeId) (t : Time) :
    (b.setAll ids t).get id = if id ∈ ids then t else b.get id := by
  induction ids generalizing b with
  | nil => rfl
  | cons first rest ih =>
    have hrest : (b.setAll (first :: rest) t).get id = ((b.set first t).setAll rest t).get id := rfl
    rw [hrest, ih, get_set]
    by_cases hmem : id ∈ rest
    · simp [hmem]
    · simp [hmem, eq_comm]

end Bindings

namespace Node
variable {σ : Type} {t : Time} {n : Node σ} {w : World σ} {delay : Kleenean}

/-! ### Who has a state -/

mutual
def hasTime (t : Time) : Node σ → Bool
  | .literal .. => t == .default
  | .list _ _ children _ => anyHasTime t children || t == .default
  | .converted _ source _ => source.hasTime t
  | .property _ owner _ => owner.hasTime t
  | .eventValue _ value => value.hasState t
  | .snapshot _ taken => t == taken.time
  | .memoized _ inner => inner.hasTime t
  | .host .. => t == .default
def anyHasTime (t : Time) : List (Node σ) → Bool
  | [] => false
  | n :: rest => n.hasTime t || anyHasTime t rest
end

mutual
/-- The event values that a node is built on and that have a state. -/
def takers (t : Time) : Node σ → List NodeId
  | .list _ _ children _ => allTakers t children
  | .converted _ source _ => source.takers t
  | .property _ owner _ => owner.takers t
  | .eventValue id value => if value.hasState t then [id] else []
  | .memoized _ inner => inner.takers t
  | _ => []
/-- The event values that several nodes are built on and that have a state. -/
def allTakers (t : Time) : List (Node σ) → List NodeId
  | [] => []
  | n :: rest => n.takers t ++ allTakers t rest
end

theorem allTakers_of_lacks {children : List (Node σ)}
    (hchildren : ∀ c ∈ children, c.hasTime t = false → c.takers t = [])
    (h : anyHasTime t children = false) : allTakers t children = [] := by
  induction children with
  | nil => rfl
  | cons n rest ih =>
    rw [List.forall_mem_cons] at hchildren
    rw [anyHasTime, Bool.or_eq_false_iff] at h
    rw [allTakers, hchildren.1 h.1, ih hchildren.2 h.2, List.append_nil]

/-- Where a node lacks a state, so does every event value that it is built on. -/
theorem takers_of_lacks (h : n.hasTime t = false) : n.takers t = [] := by
  induction n with
  | list _ _ children _ ih =>
    rw [hasTime, Bool.or_eq_false_iff] at h
    exact allTakers_of_lacks ih h.1
  | converted _ _ _ ih => exact ih h
  | property _ _ _ ih => exact ih h
  | memoized _ _ ih => exact ih h
  | eventValue _ value =>
    rw [hasTime] at h
    rw [takers, h]
    rfl
  | literal | snapshot | host => rfl

/-! ### What is bound -/

theorem rebindAny_run {children : List (Node σ)}
    (h : ∀ c ∈ children, ∀ b, (c.rebind t).run b = (c.hasTime t, b.setAll (c.takers t) t))
    (b : Bindings) : (rebindAny t children).run b =
      (anyHasTime t children, b.setAll (allTakers t children) t) := by
  induction children generalizing b with
  | nil => rfl
  | cons n rest ih =>
    rw [List.forall_mem_cons] at h
    have hfirst : (rebindAny t (n :: rest)).run b =
        let later := (rebindAny t rest).run (b.setAll (n.takers t) t)
        (n.hasTime t || later.1, later.2) := by
      rw [rebindAny, StateT.run_bind, h.1]
      rfl
    rw [hfirst, ih h.2, anyHasTime, allTakers, Bindings.setAll_append]

/-- A node binds the event values with the state that it is asked for, and says whether it has it. -/
theorem rebind_run (t : Time) (n : Node σ) (b : Bindings) :
    (n.rebind t).run b = (n.hasTime t, b.setAll (n.takers t) t) := by
  induction n generalizing b with
  | list _ _ children _ ih =>
    rw [rebind, StateT.run_bind, rebindAny_run ih]
    rfl
  | converted _ _ _ ih => exact ih b
  | property _ _ _ ih => exact ih b
  | memoized _ _ ih => exact ih b
  | eventValue _ value =>
    rw [rebind, hasTime, takers]
    cases value.hasState t <;> rfl
  | literal | snapshot | host => rfl

/-! ### Accepted and refused -/

/-- A refusal leaves the world as it was: every node is bound to the state that it was bound to. -/
def Harmless (w : World σ) (reply : Outcome Unit × World σ) : Prop :=
  ∀ e, reply.1 = .error e → reply.2 = w ∧ ∀ m : Node σ, m.time reply.2.bindings = m.time w.bindings

theorem harmless_error {reply : Outcome Unit × World σ} {e : EngineError}
    (h : reply = (.error e, w)) : Harmless w reply :=
  fun _ _ => ⟨congrArg Prod.snd h, fun _ => by rw [congrArg Prod.snd h]⟩

theorem harmless_ok {reply : Outcome Unit × World σ} (h : reply.1 = .ok ()) : Harmless w reply :=
  fun _ he => nomatch h.symm.trans he

variable [HostCells σ]

/-- A node in the world in which it is asked, in words. -/
def blamed (w : World σ) (n : Node σ) : String := (n.label.run w).1

theorem rejectTime_run (t : Time) (n : Node σ) (w : World σ) :
    (n.rejectTime t).run w = (.error (.timeRejected (n.blamed w) t), w) := by
  have hlabel : n.label.run w = (n.blamed w, w) := Prod.ext rfl (label_run n w)
  rw [rejectTime, Eval.run_bind hlabel]
  rfl

theorem setTime_of_has (h : n.hasTime t = true) : (n.setTime t).run w =
    (.ok (), { w with bindings := w.bindings.setAll (n.takers t) t }) := by
  simp only [setTime, StateT.run_bind, StateT.run_get, pure_bind, rebind_run, h]
  rfl

theorem setTime_of_lacks (h : n.hasTime t = false) : (n.setTime t).run w =
    (.error (.timeRejected (n.boundNode.blamed w) t), w) := by
  simp only [setTime, StateT.run_bind, StateT.run_get, pure_bind, rebind_run, h,
    takers_of_lacks h]
  exact rejectTime_run t n.boundNode w

theorem bindTime_late (ht : t ≠ .default) (hdelay : delay.isTrue = true) :
    (n.bindTime t delay).run w = (.error (.timeRejected (n.blamed w) t), w) := by
  rw [bindTime, if_pos (by simp [ht, hdelay])]
  exact rejectTime_run t n w

theorem bindTime_early (h : ¬(t ≠ .default ∧ delay.isTrue = true)) :
    n.bindTime t delay = n.setTime t := by
  rw [bindTime, if_neg (by simpa using h)]

theorem setTime_harmless (t : Time) (n : Node σ) (w : World σ) :
    Harmless w ((n.setTime t).run w) := by
  cases h : n.hasTime t with
  | true => exact harmless_ok (by rw [setTime_of_has h])
  | false => exact harmless_error (setTime_of_lacks h)

theorem setTime_refuses (t : Time) (n : Node σ) (w : World σ) :
    (∃ e, ((n.setTime t).run w).1 = .error e) ↔ n.hasTime t = false := by
  cases h : n.hasTime t with
  | true =>
    rw [setTime_of_has h]
    exact ⟨(fun ⟨_, he⟩ => nomatch he), fun hfalse => nomatch hfalse⟩
  | false =>
    rw [setTime_of_lacks h]
    exact ⟨fun _ => rfl, fun _ => ⟨_, rfl⟩⟩

/-- What it comes to that a node is asked for a state of the event, at once or after a delay. -/
structure TimeBinding (t : Time) (n : Node σ) (w : World σ) : Prop where
  /-- A refusal changes nothing. -/
  harmless : Harmless w ((n.setTime t).run w)
  harmlessLate : ∀ delay, Harmless w ((n.bindTime t delay).run w)
  /-- A node refuses the states that it lacks, and after a certain delay all but the present. -/
  refuses : (∃ e, ((n.setTime t).run w).1 = .error e) ↔ n.hasTime t = false
  refusesLate : ∀ delay, (∃ e, ((n.bindTime t delay).run w).1 = .error e) ↔
    n.hasTime t = false ∨ t ≠ .default ∧ delay.isTrue = true
  /-- Else the event values that have the state are bound to it, and all others as they were. -/
  bound : n.hasTime t = true → ∀ id, ((n.setTime t).run w).2.bindings.get id =
    if id ∈ n.takers t then t else w.bindings.get id

/-- **A refused binding changes nothing.** A node that is asked for a state that it lacks, or after
the event, leaves itself and all other nodes bound as they were. -/
theorem timeBinding (t : Time) (n : Node σ) (w : World σ) : n.TimeBinding t w where
  harmless := n.setTime_harmless t w
  harmlessLate delay := by
    by_cases hlate : t ≠ .default ∧ delay.isTrue = true
    · exact harmless_error (bindTime_late hlate.1 hlate.2)
    · rw [bindTime_early hlate]
      exact n.setTime_harmless t w
  refuses := n.setTime_refuses t w
  refusesLate delay := by
    by_cases hlate : t ≠ .default ∧ delay.isTrue = true
    · rw [bindTime_late hlate.1 hlate.2]
      exact ⟨fun _ => .inr hlate, fun _ => ⟨_, rfl⟩⟩
    · rw [bindTime_early hlate, n.setTime_refuses t w, or_iff_left hlate]
  bound h id := by
    rw [setTime_of_has h]
    exact Bindings.get_setAll ..

/-- A list of the level of a gauge and a constant, beside the level once more, which is kept. The
level has a state before the event and none after it. -/
def levelTwice : Node Gauge :=
  ofChildren ⟨[4]⟩ [levelAndTen, .memoized ⟨[5]⟩ (.eventValue ⟨[6]⟩ levelValue)] .and

/-- Both levels are bound to the past, and stay so where the future is asked for, or anything but
the present after a delay. -/
theorem levelTwice_bound : ∃ w, ((levelTwice.setTime .past).run lowered).2 = w ∧
    w.bindings.get ⟨[2]⟩ = .past ∧ w.bindings.get ⟨[6]⟩ = .past ∧
    (∃ e, ((levelTwice.setTime .future).run w).1 = .error e) ∧
    ((levelTwice.setTime .future).run w).2 = w ∧
    (∃ e, ((levelTwice.bindTime .past .true).run w).1 = .error e) ∧
    ((levelTwice.bindTime .past .true).run w).2 = w := by
  have hpast := (timeBinding .past levelTwice lowered).bound (by decide)
  refine ⟨_, rfl, by rw [hpast]; decide, by rw [hpast]; decide, ?_⟩
  generalize ((levelTwice.setTime .past).run lowered).2 = w
  have hfuture := timeBinding .future levelTwice w
  have hlate := timeBinding .past levelTwice w
  obtain ⟨e, he⟩ := hfuture.refuses.mpr (by decide)
  obtain ⟨e', he'⟩ := (hlate.refusesLate .true).mpr (.inr (by decide))
  exact ⟨⟨e, he⟩, (hfuture.harmless e he).1, ⟨e', he'⟩, (hlate.harmlessLate .true e' he').1⟩

end Node

end ScriptEngine

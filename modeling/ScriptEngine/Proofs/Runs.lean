import ScriptEngine.World

/-! What runs come to.

A run in the host's state `Yields` a kind of result if it does so in every state. A run in
a world `Ensures` a kind of result if it comes to one in every world that keeps to an
invariant, and leaves a world that keeps to it. -/
namespace ScriptEngine
variable {σ α β : Type}

/-! ### Runs in the host's state -/

/-- In every state of the host, the result of a run has a property. -/
def HostM.Yields (m : HostM σ α) (P : α → Prop) : Prop := ∀ s, P (m.run s).value

namespace HostM.Yields
variable {m : HostM σ α} {f : α → HostM σ β} {P P' : α → Prop} {Q : β → Prop}

theorem pure {a : α} (h : P a) : (Pure.pure a : HostM σ α).Yields P := fun _ => h

theorem bind (hm : m.Yields P) (hf : ∀ a, P a → (f a).Yields Q) : (m >>= f).Yields Q :=
  fun s => hf _ (hm s) (m.run s).state

theorem mono (hm : m.Yields P) (h : ∀ a, P a → P' a) : m.Yields P' := fun s => h _ (hm s)

theorem trivial : m.Yields fun _ => True := fun _ => True.intro

theorem called {call : HostCall} (hm : m.Yields P) : (HostM.called call m).Yields P := hm

end HostM.Yields

/-! ### Runs in a world -/

/-- A run goes on from what the first part of it comes to. -/
theorem Eval.run_bind {m : Eval σ α} {f : α → Eval σ β} {w w' : World σ} {a : α}
    (h : m.run w = (a, w')) : (m >>= f).run w = (f a).run w' := by
  rw [StateT.run_bind, h]
  rfl

/-- In every world that keeps to an invariant, the result of a run has a property, and the world
that the run leaves keeps to the invariant. -/
def Eval.Ensures (I : World σ → Prop) (m : Eval σ α) (P : α → Prop) : Prop :=
  ∀ w, I w → P (m.run w).1 ∧ I (m.run w).2

/-- An invariant that the host keeps, whatever it does, and that outlasts what the journal is
given. -/
def World.HostFree (I : World σ → Prop) : Prop :=
  ∀ w host added, I w → I { w with host := host, journal := w.journal ++ added }

namespace Eval.Ensures
variable {I : World σ → Prop} {m : Eval σ α} {f : α → Eval σ β} {P P' : α → Prop} {Q : β → Prop}

theorem pure {a : α} (h : P a) : Ensures I (Pure.pure a : Eval σ α) P := fun _ hw => ⟨h, hw⟩

theorem bind (hm : Ensures I m P) (hf : ∀ a, P a → Ensures I (f a) Q) : Ensures I (m >>= f) Q :=
  fun w hw => hf _ (hm w hw).1 _ (hm w hw).2

theorem mono (hm : Ensures I m P) (h : ∀ a, P a → P' a) : Ensures I m P' :=
  fun w hw => (hm w hw).imp_left (h _)

/-- The world that is read keeps to the invariant. -/
theorem get : Ensures I (MonadState.get : Eval σ (World σ)) I := fun _ hw => ⟨hw, hw⟩

theorem modify {g : World σ → World σ} (hg : ∀ w, I w → I (g w)) :
    Ensures I (modifyGet fun w => (PUnit.unit, g w) : Eval σ PUnit) fun _ => True :=
  fun w hw => ⟨trivial, hg w hw⟩

theorem host {m : HostM σ α} (hI : World.HostFree I) (hm : m.Yields P) :
    Ensures I (Eval.host m) P :=
  fun w hw => ⟨hm w.host, hI w _ _ hw⟩

theorem isRevoked (ctx : ContextId) : Ensures I (Eval.isRevoked ctx) fun _ => True :=
  fun _ hw => ⟨trivial, hw⟩

theorem render [HostCells σ] (v : Value) : Ensures I (Eval.render v) fun _ => True :=
  fun _ hw => ⟨trivial, hw⟩

/-- What the cache gives has a property if what was kept has it, and so has what is computed. -/
theorem memoized {ctx : ContextId} {node : NodeId} {t : Time} {compute : Eval σ (List Value)}
    {P : List Value → Prop}
    (hnote : ∀ w found, I w → I { w with journal := w.journal ++ [.recall ctx node t found] })
    (hkept : ∀ w memo values, I w → w.memo? ctx = some memo → memo.get? (node, t) = some values →
      P values)
    (hcompute : Ensures I compute P)
    (hremember : ∀ w values, I w → P values → I (w.remember ctx node t values)) :
    Ensures I (Eval.memoized ctx node t compute) P := by
  refine .bind .get fun w hw => ?_
  cases hmemo : w.memo? ctx with
  | none => exact hcompute
  | some memo =>
    dsimp only
    cases hvalues : memo.get? (node, t) with
    | some values =>
      have hrecall : Ensures I (Eval.note (.recall ctx node t true)) fun _ => True :=
        fun w hw => ⟨trivial, hnote w true hw⟩
      exact hrecall.bind fun _ _ => .pure (hkept w memo values hw hmemo hvalues)
    | none =>
      have hrecall : Ensures I (Eval.note (.recall ctx node t false)) fun _ => True :=
        fun w hw => ⟨trivial, hnote w false hw⟩
      refine hrecall.bind fun _ _ => .bind hcompute fun values hnew => ?_
      refine .bind (.isRevoked ctx) fun revoked _ => ?_
      cases revoked with
      | true => exact .pure hnew
      | false =>
        exact .bind (.modify fun w hw => hremember w values hw hnew) fun _ _ => .pure hnew

end Eval.Ensures

/-! ### What a run adds to the journal -/

/-- The journal begins with what stood in it at some time. -/
def World.After (earlier : List Entry) (w : World σ) : Prop := earlier <+: w.journal

theorem World.after_hostFree (earlier : List Entry) :
    HostFree (After earlier : World σ → Prop) := fun _ _ _ hw => hw.trans (List.prefix_append ..)

/-- A run only adds to the journal; what it adds and what it comes to have a property. -/
def Eval.Adds (m : Eval σ α) (P : List Entry → α → Prop) : Prop :=
  ∀ w, ∃ added, (m.run w).2.journal = w.journal ++ added ∧ P added (m.run w).1

namespace Eval.Adds
variable {m : Eval σ α} {f : α → Eval σ β} {P P' : List Entry → α → Prop}
  {Q : List Entry → β → Prop}

theorem pure {a : α} (h : P [] a) : Adds (Pure.pure a : Eval σ α) P :=
  fun _ => ⟨[], (List.append_nil _).symm, h⟩

theorem bind (hm : Adds m P)
    (hf : ∀ first a, P first a → Adds (f a) fun second b => Q (first ++ second) b) :
    Adds (m >>= f) Q := by
  intro w
  obtain ⟨first, hfirst, ha⟩ := hm w
  obtain ⟨second, hsecond, hb⟩ := hf first _ ha (m.run w).2
  exact ⟨first ++ second, by rw [← List.append_assoc, ← hfirst]; exact hsecond, hb⟩

theorem mono (hm : Adds m P) (h : ∀ added a, P added a → P' added a) : Adds m P' := fun w =>
  have ⟨added, hadded, ha⟩ := hm w
  ⟨added, hadded, h added _ ha⟩

theorem host {m : HostM σ α} (h : ∀ s, P (m.run s).journal (m.run s).value) :
    Adds (Eval.host m) P := fun w => ⟨_, rfl, h w.host⟩

/-- A run that strikes nothing from any journal only adds. -/
theorem of_ensures {P : α → Prop} (h : ∀ earlier, Ensures (World.After earlier) m P) :
    Adds m fun _ a => P a := by
  intro w
  obtain ⟨ha, added, hadded⟩ := h w.journal w List.prefix_rfl
  exact ⟨added, hadded.symm, ha⟩

end Eval.Adds

end ScriptEngine

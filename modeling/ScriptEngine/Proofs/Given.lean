import ScriptEngine.Proofs.Keeping

/-! What is given of a node when the host only looks.

A world in which the host only looks fixes what is given of every node (`gives`): what the cache
holds where it holds something, and no value of a revoked event. A visitor that needs no world is
put to just those values, whatever it makes of them and wherever it stops (`visit_steps`); so the
first values and the only one are the front of what reading in full comes to. The visit leaves what
is given as it was: of the world it changes the journal, and what the cache held nothing for
(`Grown`). -/
namespace ScriptEngine

theorem World.isRevoked_quiet {σ : Type} {w : World σ} {ctx : ContextId} {added : List Entry}
    (host : σ) (hadded : ∀ entry ∈ added, entry.revokes ctx = false) :
    ({ w with host := host, journal := w.journal ++ added } : World σ).isRevoked ctx =
      w.isRevoked ctx := by
  have hnone : added.any (·.revokes ctx) = false :=
    List.any_eq_false.mpr fun entry hentry => by simp [hadded entry hentry]
  rw [isRevoked, isRevoked, List.any_append, hnone, Bool.or_false]

namespace Node
variable {σ : Type} {n root : Node σ} {ctx : ContextId}

/-! ### What is given -/

mutual
/-- What a node gives in a world as long as the host only looks. -/
def gives (w : World σ) (ctx : ContextId) : Node σ → List Value
  | .literal _ _ values _ => values
  | .list _ _ children _ => givesAll w ctx children
  | .converted _ source edge =>
    (source.gives w ctx).filterMap fun v => ((edge.apply v).run w.host).value
  | .property _ owner p => (owner.gives w ctx).filterMap fun v => ((p.get v).run w.host).value
  | .eventValue id value =>
    if w.isRevoked ctx then []
    else
      match value.getter? (w.bindings.get id) with
      | none => []
      | some get => ((get ctx).run w.host).value.toList
  | .snapshot _ taken => taken.values
  | .memoized _ inner =>
    (w.kept? ctx (inner.id, inner.time w.bindings)).getD (inner.gives w ctx)
  | .host _ node => ((node.compute ctx).run w.host).value
def givesAll (w : World σ) (ctx : ContextId) : List (Node σ) → List Value
  | [] => []
  | n :: rest => n.gives w ctx ++ givesAll w ctx rest
end

/-- What has become of the world since an earlier moment, if nodes were read that are parts of a
root and the host only looked: for nodes that the root keeps, and for which nothing was kept, the
cache may hold what they gave. -/
structure Grown (root : Node σ) (ctx : ContextId) (earlier w : World σ) : Prop where
  host : w.host = earlier.host
  bindings : w.bindings = earlier.bindings
  revoked : w.isRevoked ctx = earlier.isRevoked ctx
  kept : ∀ key, w.kept? ctx key = earlier.kept? ctx key ∨
    earlier.kept? ctx key = none ∧ ∃ k, root.Keeps k ∧ key = (k.id, k.time earlier.bindings) ∧
      w.kept? ctx key = some (k.gives earlier ctx)

namespace Grown
variable {earlier w : World σ}

theorem refl : Grown root ctx w w := ⟨rfl, rfl, rfl, fun _ => .inl rfl⟩

theorem note (h : Grown root ctx earlier w) {added : List Entry}
    (hadded : ∀ entry ∈ added, entry.revokes ctx = false) :
    Grown root ctx earlier { w with journal := w.journal ++ added } :=
  ⟨h.host, h.bindings, (World.isRevoked_quiet w.host hadded).trans h.revoked, h.kept⟩

theorem looks {α : Type} {m : HostM σ α} (hm : m.Looks) :
    (Eval.host m).Ensures (Grown root ctx earlier) (· = (m.run earlier.host).value) := by
  intro w hw
  have hstate : (m.run w.host).state = earlier.host := (hm w.host).1.trans hw.host
  have hrevoked := World.isRevoked_quiet (w := w) (m.run w.host).state
    fun entry hentry => (hm w.host).2 entry hentry ctx
  exact ⟨by rw [← hw.host]; rfl, hstate, hw.bindings, hrevoked.trans hw.revoked, hw.kept⟩

/-- The cache holds for a node that the root keeps what it held earlier or, if it held nothing, what
the node gave. -/
theorem kept_cases (h : Grown root ctx earlier w) (hnamed : root.Named) {k : Node σ}
    (hk : root.Keeps k) {t : Time} :
    w.kept? ctx (k.id, t) = earlier.kept? ctx (k.id, t) ∨
      earlier.kept? ctx (k.id, t) = none ∧ t = k.time earlier.bindings ∧
        w.kept? ctx (k.id, t) = some (k.gives earlier ctx) := by
  rcases h.kept (k.id, t) with hold | ⟨hnone, k', hk', hkey, hnew⟩
  · exact .inl hold
  · obtain ⟨hid, rfl⟩ := Prod.mk.inj hkey
    obtain rfl := hnamed k k' hk hk' hid
    exact .inr ⟨hnone, rfl, hnew⟩

theorem remember (h : Grown root ctx earlier w) {k : Node σ} (hk : root.Keeps k)
    (hnone : earlier.kept? ctx (k.id, k.time earlier.bindings) = none) :
    Grown root ctx earlier
      (w.remember ctx k.id (k.time earlier.bindings) (k.gives earlier ctx)) := by
  refine ⟨by simp [h.host], by simp [h.bindings], by simp [h.revoked], fun key => ?_⟩
  cases hcaches : w.hasMemo ctx with
  | false =>
    rw [World.remember_of_no_memo (by simpa [World.hasMemo] using hcaches)]
    exact h.kept key
  | true =>
    rw [World.kept?_remember hcaches]
    split
    case isTrue hkey => exact .inr ⟨hkey ▸ hnone, k, hk, hkey.symm, rfl⟩
    case isFalse => exact h.kept key

end Grown

/-! ### Visits -/

section Visits
variable {earlier : World σ} {β : Type} {f : Value → β → Eval σ (ForInStep β)}
  {step : Value → β → ForInStep β}

/-- What comes of handing values to a step until it stops. -/
def scanned (step : Value → β → ForInStep β) : List Value → β → ForInStep β
  | [], b => .yield b
  | v :: rest, b =>
    match step v b with
    | .done b => .done b
    | .yield b => scanned step rest b

theorem scanned_append (vs ws : List Value) (b : β) : scanned step (vs ++ ws) b =
    match scanned step vs b with
    | .done b => .done b
    | .yield b => scanned step ws b := by
  induction vs generalizing b with
  | nil => rfl
  | cons v rest ih =>
    rw [List.cons_append, scanned, scanned]
    cases step v b with
    | done b => rfl
    | yield b => exact ih b

theorem scanned_filterMap (get : Value → Option Value) (vs : List Value) (b : β) :
    scanned step (vs.filterMap get) b =
      scanned (fun v b => (get v).elim (.yield b) (step · b)) vs b := by
  induction vs generalizing b with
  | nil => rfl
  | cons v rest ih =>
    rw [List.filterMap_cons, scanned]
    cases get v with
    | none => exact ih b
    | some v' =>
      rw [scanned, Option.elim_some]
      cases step v' b with
      | done b => rfl
      | yield b => exact ih b

/-- A visitor makes of every value what a step does, and needs no world for it. -/
def Steps (I : World σ → Prop) (f : Value → β → Eval σ (ForInStep β))
    (step : Value → β → ForInStep β) : Prop := ∀ v b, (f v b).Ensures I (· = step v b)

theorem scan_steps {I : World σ → Prop} (hf : Steps I f step) (values : List Value) (b : β) :
    (scan f values b).Ensures I (· = scanned step values b) := by
  induction values generalizing b with
  | nil => exact .pure rfl
  | cons v rest ih =>
    rw [scan, scanned]
    refine .bind (hf v b) fun made hmade => ?_
    rw [hmade]
    cases step v b with
    | done b => exact .pure rfl
    | yield b => exact ih b

theorem through_steps (hf : Steps (Grown root ctx earlier) f step)
    {get : Value → HostM σ (Option Value)} (hget : ∀ v, (get v).Looks) :
    Steps (Grown root ctx earlier) (through get f) fun v b =>
      ((get v).run earlier.host).value.elim (.yield b) (step · b) := by
  intro v b
  refine .bind (Grown.looks (hget v)) fun out hout => ?_
  rw [hout]
  dsimp only
  cases ((get v).run earlier.host).value with
  | none => exact .pure rfl
  | some v' => exact hf v' b

theorem readEvent_gives {id : NodeId} {value : EventValue σ}
    (h : ∀ t get, value.getter? t = some get → ∀ ctx, (get ctx).Looks) :
    (readEvent ctx id value).Ensures (Grown root ctx earlier) fun out =>
      out.toList = (Node.eventValue id value).gives earlier ctx := by
  refine .bind .get fun w hw => ?_
  simp only [hw.revoked, hw.bindings, gives]
  split
  · exact .pure rfl
  · cases hgetter : value.getter? (earlier.bindings.get id) with
    | none => exact .pure rfl
    | some get =>
      refine (Grown.looks ((h _ get hgetter ctx).called _)).mono fun out hout => ?_
      rw [hout]
      rfl

theorem visitAll_steps {I : World σ → Prop} {children : List (Node σ)}
    (h : ∀ c ∈ children, ∀ b,
      (c.visit ctx f b).Ensures I (· = scanned step (c.gives earlier ctx) b)) (b : β) :
    (visitAll ctx f children b).Ensures I
      (· = scanned step (givesAll earlier ctx children) b) := by
  induction children generalizing b with
  | nil =>
    rw [visitAll, givesAll]
    exact .pure rfl
  | cons n rest ih =>
    rw [List.forall_mem_cons] at h
    rw [visitAll, givesAll, scanned_append]
    refine .bind (h.1 b) fun made hmade => ?_
    rw [hmade]
    cases scanned step (n.gives earlier ctx) b with
    | done b => exact .pure rfl
    | yield b => exact ih h.2 b

theorem gather_steps {I : World σ → Prop} : Steps I (gather : Value → List Value →
    Eval σ (ForInStep (List Value))) fun v gathered => .yield (v :: gathered) :=
  fun _ _ => .pure rfl

theorem scanned_gather (values before : List Value) :
    scanned (fun v gathered => .yield (v :: gathered)) values before =
      .yield (values.reverse ++ before) := by
  induction values generalizing before with
  | nil => rfl
  | cons v rest ih =>
    rw [scanned, List.reverse_cons, List.append_assoc]
    exact ih (v :: before)

/-- Gathers a number of values and stops with the last of them. -/
def upTo (count : Nat) (v : Value) (gathered : List Value) : ForInStep (List Value) :=
  if gathered.length + 1 < count then .yield (v :: gathered) else .done (v :: gathered)

theorem gatherUpTo_steps {I : World σ → Prop} (count : Nat) : Steps I (gatherUpTo count :
    Value → List Value → Eval σ (ForInStep (List Value))) (upTo count) := by
  intro v gathered
  rw [gatherUpTo, upTo]
  split <;> exact .pure rfl

theorem scanned_upTo {count : Nat} (values before : List Value) (h : before.length < count) :
    gathered (scanned (upTo count) values before) =
      before.reverse ++ values.take (count - before.length) := by
  induction values generalizing before with
  | nil => simp [scanned, gathered, ForInStep.value]
  | cons v rest ih =>
    rw [scanned, upTo]
    have hreverse : (v :: before).reverse = before.reverse ++ [v] := List.reverse_cons
    split_ifs with hmore
    · have hleft : count - before.length = count - (v :: before).length + 1 := by
        rw [List.length_cons]
        omega
      rw [hleft, List.take_succ_cons]
      refine (ih (v :: before) hmore).trans ?_
      rw [hreverse, List.append_assoc]
      rfl
    · have hlast : count - before.length = 1 := by omega
      rw [hlast, List.take_succ_cons, List.take_zero]
      exact hreverse

variable (hnamed : root.Named)
include hnamed

/-- Reading a kept node gives what the cache holds, or what the node gives. -/
theorem memoized_gives {inner : Node σ} (hkept : root.Keeps inner)
    {compute : Eval σ (List Value)}
    (hcompute : compute.Ensures (Grown root ctx earlier) (· = inner.gives earlier ctx)) :
    (Eval.memoized ctx inner.id (inner.time earlier.bindings) compute).Ensures
      (Grown root ctx earlier)
      (· = (earlier.kept? ctx (inner.id, inner.time earlier.bindings)).getD
        (inner.gives earlier ctx)) := by
  cases hearlier : earlier.kept? ctx (inner.id, inner.time earlier.bindings) with
  | some values =>
    intro w hw
    have hheld : w.kept? ctx (inner.id, inner.time earlier.bindings) = some values := by
      rcases hw.kept_cases hnamed hkept with hold | ⟨hnone, _⟩
      · exact hold.trans hearlier
      · cases hearlier.symm.trans hnone
    rw [Eval.memoized_hit hheld]
    exact ⟨rfl, hw.note (by simp [Entry.revokes])⟩
  | none =>
    refine .memoized (P := (· = inner.gives earlier ctx)) ?_ ?_ hcompute ?_
    · intro w found hw
      exact hw.note (by simp [Entry.revokes])
    · intro w memo values hw hmemo hvalues
      have hheld : w.kept? ctx (inner.id, inner.time earlier.bindings) = some values := by
        rw [World.kept?, hmemo]
        exact hvalues
      rcases hw.kept_cases hnamed hkept with hold | ⟨_, _, hnew⟩
      · cases hheld.symm.trans (hold.trans hearlier)
      · exact Option.some.inj (hheld.symm.trans hnew)
    · intro w values hw hvalues
      rw [hvalues]
      exact hw.remember hkept hearlier

/-- **A visit puts its visitor to what the node gives**, until the visitor stops. -/
theorem visit_steps (hlooks : n.Looks) (hroot : ∀ k, n.Keeps k → root.Keeps k)
    (hf : Steps (Grown root ctx earlier) f step) (b : β) :
    (n.visit ctx f b).Ensures (Grown root ctx earlier)
      (· = scanned step (n.gives earlier ctx) b) := by
  induction hlooks generalizing β with
  | literal | snapshot =>
    rw [visit, gives]
    exact scan_steps hf _ b
  | @list id type children q _ ih =>
    rw [visit, gives]
    exact visitAll_steps (fun c hc b => ih c hc (fun k hk => hroot k (.list hc hk)) hf b) b
  | @converted _ source edge _ hedge ih =>
    rw [visit, gives, scanned_filterMap]
    exact ih (fun k hk => hroot k (.converted hk)) (through_steps hf hedge) b
  | @property id owner p _ hget ih =>
    rw [visit, gives, scanned_filterMap]
    have hread : ∀ v, (readProperty id p v).Looks := fun v => (hget v).called _
    exact ih (fun k hk => hroot k (.property hk)) (through_steps hf hread) b
  | eventValue hget =>
    rw [visit]
    refine .bind (readEvent_gives hget) fun out hout => ?_
    rw [← hout]
    exact scan_steps hf _ b
  | @memoized _ inner _ ih =>
    rw [visit, gives]
    have hinner := ih (fun k hk => hroot k (.memoized hk)) gather_steps []
    have hcompute : (do return gathered (← inner.visit ctx gather []) :
        Eval σ (List Value)).Ensures (Grown root ctx earlier) (· = inner.gives earlier ctx) := by
      refine .bind hinner fun made hmade => .pure ?_
      rw [hmade, scanned_gather, gathered, ForInStep.value, List.append_nil, List.reverse_reverse]
    refine .bind .get fun w hw => ?_
    rw [hw.bindings]
    refine .bind (memoized_gives hnamed (hroot inner .here) hcompute) fun values hvalues => ?_
    rw [hvalues]
    exact scan_steps hf _ b
  | host hcompute =>
    rw [visit, gives]
    refine .bind (Grown.looks ((hcompute ctx).called _)) fun out hout => ?_
    rw [hout]
    exact scan_steps hf _ b

/-! ### Accesses -/

theorem array_gives (hlooks : n.Looks) (hroot : ∀ k, n.Keeps k → root.Keeps k) :
    (n.array ctx).Ensures (Grown root ctx earlier) (· = n.gives earlier ctx) := by
  refine .bind (visit_steps hnamed hlooks hroot gather_steps []) fun made hmade => .pure ?_
  rw [hmade, scanned_gather, gathered, ForInStep.value, List.append_nil, List.reverse_reverse]

theorem first_gives (hlooks : n.Looks) (hroot : ∀ k, n.Keeps k → root.Keeps k) :
    (n.first ctx).Ensures (Grown root ctx earlier) (· = (n.gives earlier ctx).head?) := by
  have hstop : Steps (Grown root ctx earlier)
      (fun v _ => pure (.done (some v)) : Value → Option Value → Eval σ (ForInStep (Option Value)))
      fun v _ => .done (some v) := fun _ _ => .pure rfl
  refine .bind (visit_steps hnamed hlooks hroot hstop none) fun made hmade => .pure ?_
  rw [hmade]
  cases n.gives earlier ctx <;> rfl

theorem single_gives (hlooks : n.Looks) (hroot : ∀ k, n.Keeps k → root.Keeps k) :
    (n.single ctx).Ensures (Grown root ctx earlier) (· = (n.gives earlier ctx).head?) := by
  unfold single
  split
  · exact .bind (array_gives hnamed hlooks hroot) fun values hvalues => .pure (hvalues ▸ rfl)
  · exact first_gives hnamed hlooks hroot

theorem prepare_gives (hlooks : n.Looks) (hroot : ∀ k, n.Keeps k → root.Keeps k) :
    (n.prepare ctx).Ensures (Grown root ctx earlier) fun _ => True := by
  induction hlooks with
  | literal | list | snapshot =>
    rw [prepare]
    exact .pure trivial
  | converted _ _ ih =>
    rw [prepare]
    exact ih fun k hk => hroot k (.converted hk)
  | property _ _ ih =>
    rw [prepare]
    exact ih fun k hk => hroot k (.property hk)
  | eventValue hget =>
    rw [prepare]
    exact .bind (readEvent_gives hget) fun _ _ => .pure trivial
  | memoized hinner =>
    rw [prepare, ← array_memoized]
    exact .bind (array_gives hnamed (.memoized hinner) hroot) fun _ _ => .pure trivial
  | host hcompute =>
    rw [prepare]
    exact .bind (Grown.looks ((hcompute ctx).called _)) fun _ _ => .pure trivial

theorem take_gives (count : Nat) (hlooks : n.Looks) (hroot : ∀ k, n.Keeps k → root.Keeps k) :
    (n.take ctx count).Ensures (Grown root ctx earlier) (· = (n.gives earlier ctx).take count) := by
  unfold take
  split
  case isTrue hzero =>
    rw [hzero, List.take_zero]
    exact .bind (prepare_gives hnamed hlooks hroot) fun _ _ => .pure rfl
  case isFalse hsome =>
    refine .bind (visit_steps hnamed hlooks hroot (gatherUpTo_steps count) []) fun made hmade => ?_
    rw [hmade, scanned_upTo _ _ (Nat.pos_of_ne_zero hsome)]
    exact .pure rfl

end Visits

end Node

end ScriptEngine

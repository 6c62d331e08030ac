import ScriptEngine.Expr.Snapshot
import ScriptEngine.Proofs.Conversions
import ScriptEngine.Proofs.Typing

/-! The types of values.

The caches of a world are `Typed` if what is kept for a node is of the node's type. In such
a world a well-typed node hands only values of its type to a visitor, and it leaves such a
world (`WellTyped.visit`); so it is with everything that reads a node (`Delivers`). With
the types of nodes this makes `convertTo_sound`. -/
namespace ScriptEngine
variable {σ : Type} {r : TypeRegistry σ} {names : NodeId → TypeKey}

/-! ### Worlds with typed caches -/

/-- What is cached for a node is of the type of the node. -/
def World.Typed (r : TypeRegistry σ) (names : NodeId → TypeKey) (w : World σ) : Prop :=
  ∀ ctx memo node t values, w.memo? ctx = some memo → memo.get? (node, t) = some values →
    ∀ v ∈ values, r.isAssignable v.type (names node) = true

namespace World

theorem typed_start (host : σ) : (start host).Typed r names := fun _ _ _ _ _ h => nomatch h

/-- What the host does and what stands in the journal is no matter of the caches. -/
theorem typed_hostFree : HostFree (Typed r names : World σ → Prop) := fun _ _ _ hw => hw

namespace Typed
variable {w : World σ} (hw : w.Typed r names)
include hw

theorem withMemo (ctx : ContextId) : (w.withMemo ctx).Typed r names := by
  intro ctx' memo node t values hmemo hvalues
  rw [memo?, World.withMemo, Table.get?_insert] at hmemo
  split at hmemo
  · cases hmemo
    rw [Table.get?_empty] at hvalues
    cases hvalues
  · exact hw ctx' memo node t values hmemo hvalues

theorem remember {node : NodeId} {values : List Value}
    (hnew : ∀ v ∈ values, r.isAssignable v.type (names node) = true) (ctx : ContextId) (t : Time) :
    (w.remember ctx node t values).Typed r names := by
  unfold World.remember
  cases hold : w.memo? ctx with
  | none => exact hw
  | some old =>
    intro ctx' memo node' t' values' hmemo hvalues
    rw [memo?, Table.get?_insert] at hmemo
    split at hmemo
    · cases hmemo
      rw [Table.get?_insert] at hvalues
      split at hvalues
      · rename_i hkey
        cases hkey
        cases hvalues
        exact hnew
      · exact hw ctx old node' t' values' hold hvalues
    · exact hw ctx' memo node' t' values' hmemo hvalues

theorem forget (ctx : ContextId) (node : NodeId) : (w.forget ctx node).Typed r names := by
  unfold World.forget
  cases hold : w.memo? ctx with
  | none => exact hw
  | some old =>
    intro ctx' memo node' t' values' hmemo hvalues
    rw [memo?, Table.get?_insert] at hmemo
    split at hmemo
    · cases hmemo
      rw [Table.get?_filterKeys] at hvalues
      split at hvalues
      · exact hw ctx old node' t' values' hold hvalues
      · cases hvalues
    · exact hw ctx' memo node' t' values' hmemo hvalues

end Typed

end World

/-- Where values of the right type are computed, the cache gives such values and is given such. -/
theorem Eval.memoized_ensures {ctx : ContextId} {node : NodeId} {t : Time}
    {compute : Eval σ (List Value)} (hcompute : compute.Ensures (World.Typed r names)
      fun values => ∀ v ∈ values, r.isAssignable v.type (names node) = true) :
    (Eval.memoized ctx node t compute).Ensures (World.Typed r names)
      fun values => ∀ v ∈ values, r.isAssignable v.type (names node) = true :=
  .memoized (fun w _ hw => World.typed_hostFree w w.host _ hw)
    (fun _ memo values hw => hw ctx memo node t values) hcompute
    fun _ _ hw hnew => hw.remember hnew ctx t

/-! ### Visiting -/

namespace Node
variable {β : Type} {I : World σ → Prop} {Q Q' : Value → Prop} {J : β → Prop}
  {f : Value → β → Eval σ (ForInStep β)} {b : β}

/-- Given values of a kind, a visitor gathers only what it should. -/
def Gathers (I : World σ → Prop) (Q : Value → Prop) (J : β → Prop)
    (f : Value → β → Eval σ (ForInStep β)) : Prop :=
  ∀ v, Q v → ∀ b, J b → (f v b).Ensures I fun step => J step.value

theorem scan_ensures (hf : Gathers I Q J f) {values : List Value} (hvalues : ∀ v ∈ values, Q v)
    (hb : J b) : (scan f values b).Ensures I fun step => J step.value := by
  induction values generalizing b with
  | nil => exact .pure hb
  | cons v rest ih =>
    rw [List.forall_mem_cons] at hvalues
    refine .bind (hf v hvalues.1 b hb) fun step hstep => ?_
    cases step with
    | done b => exact .pure hstep
    | yield b => exact ih hvalues.2 hstep

theorem through_gathers (hI : World.HostFree I) (hf : Gathers I Q' J f)
    {get : Value → HostM σ (Option Value)}
    (hget : ∀ v, (get v).Yields fun out => ∀ v' ∈ out, Q' v') :
    Gathers I Q J (through get f) := by
  intro v _ b hb
  refine .bind (.host hI (hget v)) fun out hout => ?_
  cases out with
  | none => exact .pure hb
  | some v' => exact hf v' (hout v' rfl) b hb

theorem gather_gathers : Gathers I Q (fun values => ∀ v ∈ values, Q v) gather :=
  fun _ hv _ hvalues => .pure (List.forall_mem_cons.mpr ⟨hv, hvalues⟩)

theorem gatherUpTo_gathers (count : Nat) :
    Gathers I Q (fun values => ∀ v ∈ values, Q v) (gatherUpTo count) := by
  intro v hv values hvalues
  unfold gatherUpTo
  split <;> exact .pure (List.forall_mem_cons.mpr ⟨hv, hvalues⟩)

theorem gathered_ensures {m : Eval σ (ForInStep (List Value))}
    (hm : m.Ensures I fun step => ∀ v ∈ step.value, Q v) :
    (do return gathered (← m) : Eval σ (List Value)).Ensures I fun values => ∀ v ∈ values, Q v :=
  .bind hm fun _ hstep => .pure fun v hv => hstep v (List.mem_reverse.mp hv)

theorem visitAll_ensures {ctx : ContextId} {children : List (Node σ)}
    (h : ∀ c ∈ children, ∀ b, J b → (c.visit ctx f b).Ensures I fun step => J step.value)
    (hb : J b) : (visitAll ctx f children b).Ensures I fun step => J step.value := by
  induction children generalizing b with
  | nil =>
    unfold visitAll
    exact .pure hb
  | cons n rest ih =>
    rw [List.forall_mem_cons] at h
    unfold visitAll
    refine .bind (h.1 b hb) fun step hstep => ?_
    cases step with
    | done b => exact .pure hstep
    | yield b => exact ih h.2 hstep

theorem readEvent_ensures (hI : World.HostFree I) {value : EventValue σ}
    (hget : ∀ t get, value.getter? t = some get → ∀ ctx,
      (get ctx).Yields fun out => ∀ v ∈ out, Q v) (ctx : ContextId) (id : NodeId) :
    (readEvent ctx id value).Ensures I fun out => ∀ v ∈ out, Q v := by
  refine .bind .get fun w _ => ?_
  dsimp only
  split
  · exact .pure fun _ h => nomatch h
  · cases hgetter : value.getter? (w.bindings.get id) with
    | none => exact .pure fun _ h => nomatch h
    | some get => exact .host hI (.called (hget _ get hgetter ctx))

namespace WellTyped
variable {n : Node σ} (hr : r.WellFormed) (hn : n.WellTyped r names) (ctx : ContextId)
include hr hn

/-- **A visit** of a well-typed node hands over only values of its type. -/
theorem visit (hf : Gathers (World.Typed r names) (r.isAssignable ·.type n.type = true) J f)
    (hb : J b) : (n.visit ctx f b).Ensures (World.Typed r names) fun step => J step.value := by
  induction hn generalizing β with
  | literal hvalues =>
    unfold Node.visit
    exact scan_ensures hf hvalues hb
  | list _ hassign ih =>
    unfold Node.visit
    refine visitAll_ensures (fun c hc b hb => ih c hc (fun v hv => hf v ?_) hb) hb
    exact hr.isAssignable_trans hv (hassign c hc)
  | @converted _ _ edge _ htags ih =>
    unfold Node.visit
    refine ih (through_gathers World.typed_hostFree hf fun v => ?_) hb
    exact (htags v).mono fun out hout v' hv' => hout v' hv' ▸ r.isAssignable_refl _
  | property _ hget ih =>
    unfold Node.visit
    exact ih (through_gathers World.typed_hostFree hf fun v => .called (hget v)) hb
  | eventValue hget =>
    unfold Node.visit
    refine .bind (readEvent_ensures World.typed_hostFree hget ctx _) fun out hout => ?_
    exact scan_ensures hf (fun v hv => hout v (Option.mem_toList.mp hv)) hb
  | snapshot hvalues =>
    unfold Node.visit
    exact scan_ensures hf hvalues hb
  | memoized _ hname ih =>
    unfold Node.visit
    -- The cache knows the inner node by its name only, which stands for the type of the node.
    refine .bind .get fun w _ => .bind (Eval.memoized_ensures ?_) fun values hvalues => ?_
    · rw [hname]
      exact gathered_ensures (ih gather_gathers fun _ h => nomatch h)
    · rw [hname] at hvalues
      exact scan_ensures hf hvalues hb
  | host hcompute =>
    unfold Node.visit
    refine .bind (.host World.typed_hostFree (.called (hcompute ctx))) fun values hvalues => ?_
    exact scan_ensures hf hvalues hb

end WellTyped

/-! ### Reading -/

/-- However a node is read, in a world with typed caches, its values are of a type, and the caches
stay typed. -/
structure Delivers (r : TypeRegistry σ) (names : NodeId → TypeKey) (n : Node σ) (t : TypeKey) :
    Prop where
  array : ∀ ctx, (n.array ctx).Ensures (World.Typed r names) fun values =>
    ∀ v ∈ values, r.isAssignable v.type t = true
  first : ∀ ctx, (n.first ctx).Ensures (World.Typed r names) fun value =>
    ∀ v ∈ value, r.isAssignable v.type t = true
  single : ∀ ctx, (n.single ctx).Ensures (World.Typed r names) fun value =>
    ∀ v ∈ value, r.isAssignable v.type t = true
  take : ∀ ctx count, (n.take ctx count).Ensures (World.Typed r names) fun values =>
    ∀ v ∈ values, r.isAssignable v.type t = true

namespace WellTyped
variable {n : Node σ} (hr : r.WellFormed) (hn : n.WellTyped r names)
include hr hn

theorem array (ctx : ContextId) : (n.array ctx).Ensures (World.Typed r names) fun values =>
    ∀ v ∈ values, r.isAssignable v.type n.type = true :=
  gathered_ensures (hn.visit hr ctx gather_gathers fun _ h => nomatch h)

theorem first (ctx : ContextId) : (n.first ctx).Ensures (World.Typed r names) fun value =>
    ∀ v ∈ value, r.isAssignable v.type n.type = true := by
  refine .bind (hn.visit hr ctx (J := fun value => ∀ v ∈ value, r.isAssignable v.type n.type = true)
    (fun v hv _ _ => .pure fun v' hv' => ?_) fun _ h => nomatch h) fun _ hstep => .pure hstep
  exact Option.mem_some.mp hv' ▸ hv

theorem single (ctx : ContextId) : (n.single ctx).Ensures (World.Typed r names) fun value =>
    ∀ v ∈ value, r.isAssignable v.type n.type = true := by
  unfold Node.single
  split
  · exact .bind (hn.array hr ctx) fun values hvalues =>
      .pure fun v hv => hvalues v (List.mem_of_mem_head? hv)
  · exact hn.first hr ctx

/-- What is computed before the first value is wanted leaves the caches typed. -/
theorem prepare (ctx : ContextId) :
    (n.prepare ctx).Ensures (World.Typed r names) fun _ => True := by
  induction hn with
  | literal | list | snapshot =>
    unfold Node.prepare
    exact .pure trivial
  | converted _ _ ih | property _ _ ih =>
    unfold Node.prepare
    exact ih
  | eventValue hget =>
    unfold Node.prepare
    exact .bind (readEvent_ensures World.typed_hostFree hget ctx _) fun _ _ => .pure trivial
  | memoized hinner hname =>
    unfold Node.prepare
    refine .bind (.bind .get fun w _ => Eval.memoized_ensures ?_) fun _ _ => .pure trivial
    rw [hname]
    exact hinner.array hr ctx
  | host hcompute =>
    unfold Node.prepare
    exact .bind (.host World.typed_hostFree .trivial) fun _ _ => .pure trivial

theorem take (ctx : ContextId) (count : Nat) :
    (n.take ctx count).Ensures (World.Typed r names) fun values =>
      ∀ v ∈ values, r.isAssignable v.type n.type = true := by
  unfold Node.take
  split
  · exact .bind (hn.prepare hr ctx) fun _ _ => .pure fun _ h => nomatch h
  · exact gathered_ensures (hn.visit hr ctx (gatherUpTo_gathers count) fun _ h => nomatch h)

/-- A well-typed node delivers values of its type, and of all types that it is assignable to. -/
theorem delivers {t : TypeKey} (ht : r.isAssignable n.type t = true) : n.Delivers r names t where
  array ctx := (hn.array hr ctx).mono fun _ h v hv => hr.isAssignable_trans (h v hv) ht
  first ctx := (hn.first hr ctx).mono fun _ h v hv => hr.isAssignable_trans (h v hv) ht
  single ctx := (hn.single hr ctx).mono fun _ h v hv => hr.isAssignable_trans (h v hv) ht
  take ctx count := (hn.take hr ctx count).mono fun _ h v hv => hr.isAssignable_trans (h v hv) ht

end WellTyped

/-! ### Taking values down -/

section
variable [HostCells σ]

theorem describeAll_ensures {ctx : Option ContextId} {debug : Bool} {children : List (Node σ)}
    (h : ∀ c ∈ children, (c.describe ctx debug).Ensures I fun _ => True) :
    (describeAll ctx debug children).Ensures I fun _ => True := by
  induction children with
  | nil =>
    unfold describeAll
    exact .pure trivial
  | cons n rest ih =>
    rw [List.forall_mem_cons] at h
    unfold describeAll
    exact .bind h.1 fun _ _ => .bind (ih h.2) fun _ _ => .pure trivial

/-- A node is put into words without touching anything but the host, and the host only where an
event is given. -/
theorem describe_ensures (ctx : Option ContextId) (hI : ctx.isSome = true → World.HostFree I)
    (debug : Bool) (n : Node σ) : (n.describe ctx debug).Ensures I fun _ => True := by
  induction n with
  | literal =>
    unfold describe
    exact .bind .get fun _ _ => .pure trivial
  | list _ _ _ _ ih =>
    unfold describe
    exact .bind (describeAll_ensures ih) fun _ _ => .pure trivial
  | converted _ _ _ ih | property _ _ _ ih =>
    unfold describe
    exact .bind ih fun _ _ => .pure trivial
  | eventValue id value =>
    unfold describe describeEventValue
    refine .bind .get fun _ _ => ?_
    dsimp only
    split
    · refine .bind (readEvent_ensures (Q := fun _ => True) (hI rfl) (fun _ _ _ _ =>
        .mono .trivial fun _ _ _ _ => trivial) _ _) fun value _ => ?_
      cases value with
      | none => exact .pure trivial
      | some v => exact .bind (.render v) fun _ _ => .pure trivial
    · exact .pure trivial
  | snapshot =>
    unfold describe
    split
    · exact .bind .get fun _ _ => .pure trivial
    · exact .pure trivial
  | memoized _ _ ih =>
    unfold describe
    exact ih
  | host =>
    unfold describe
    exact .pure trivial

theorem label_run (n : Node σ) (w : World σ) : (n.label.run w).2 = w :=
  (describe_ensures (I := (· = w)) none (fun h => nomatch h) false n w rfl).2

theorem takeDown_wellTyped (hr : r.WellFormed) {n : Node σ} (hn : n.WellTyped r names)
    (ctx : ContextId) (id : NodeId) :
    (n.takeDown ctx id).Ensures (World.Typed r names) fun m => m.WellTyped r names := by
  refine .bind (hn.array hr ctx) fun values hvalues => .bind .get fun _ _ => ?_
  exact .bind (describe_ensures none (fun h => nomatch h) false n) fun _ _ =>
    .pure (.snapshot hvalues)

end

/-! ### Soundness -/

/-- **Binding a node to a type is sound.** The node that a well-typed node is bound to is of the
type, is well-typed again, and delivers only values of its own type and of the type wanted,
whatever it is bound to and whatever is cached. -/
theorem convertTo_sound (hr : r.Reachable) (htags : ∀ e ∈ r.registered, e.Tags) {n m : Node σ}
    (hn : n.WellTyped r names) {target : TypeKey} {id : NodeId} {s : σ}
    (hm : ((n.convertTo r target id).run s).value = .ok m) :
    r.isAssignable m.type target = true ∧ m.WellTyped r names ∧
      m.Delivers r names m.type ∧ m.Delivers r names target := by
  obtain ⟨hassign, hwell⟩ := convertTo_suits hr htags hn id s m hm
  exact ⟨hassign, hwell, hwell.delivers hr.wellFormed (r.isAssignable_refl m.type),
    hwell.delivers hr.wellFormed hassign⟩

/-! The player of an event, kept, and two objects are bound to texts. A player converts to an
integer and an integer to a text. -/

def thePlayer : Node Unit :=
  .eventValue ⟨[0]⟩ (.ofPresent ⟨"player"⟩ "player" (EventValue.typedGetter ⟨"player"⟩ .i64
    fun _ => pure (some (1 : Int64))))

def playerAndObjects : Node Unit :=
  ofChildren ⟨[1]⟩ [.memoized ⟨[2]⟩ thePlayer,
    .literal ⟨[3]⟩ .object [⟨⟨"player"⟩, .i64 2⟩, ⟨⟨"text"⟩, .i64 3⟩] .and] .and

theorem playerAndObjects_wellTyped (r : TypeRegistry Unit) :
    playerAndObjects.WellTyped r fun _ => ⟨"player"⟩ := by
  refine ofChildren_wellTyped (fun c hc => ?_) _ _
  rcases List.mem_pair.mp hc with rfl | rfl
  · exact .memoized (.typedEventValue _ _ _ _ _) rfl
  · exact .literal fun v _ => r.isAssignable_object v.type

theorem playerAndObjects_sound : ∃ s m, TypeRegistry.chained.sealed = .ok s ∧
    ((playerAndObjects.convertTo s ⟨"text"⟩ ⟨[4]⟩).run ()).value = .ok m ∧
      m.WellTyped s (fun _ => ⟨"player"⟩) ∧ ∀ ctx,
        ∀ v ∈ ((m.array ctx).run ((World.start ()).withMemo ctx)).1,
          s.isAssignable v.type ⟨"text"⟩ = true := by
  obtain ⟨s, m, hs, hm⟩ : ∃ s m, TypeRegistry.chained.sealed = .ok s ∧
    ((playerAndObjects.convertTo s ⟨"text"⟩ ⟨[4]⟩).run ()).value = .ok m := ⟨_, _, rfl, rfl⟩
  have htags : ∀ e ∈ s.registered, e.Tags := by
    rw [(TypeRegistry.sealed_extends hs).registered]
    intro e he
    rcases List.mem_pair.mp he with rfl | rfl <;> exact Edge.typed_tags _ _ _ _ _
  have hr := TypeRegistry.chained_reachable.step (.sealed hs)
  obtain ⟨_, hwell, _, hdelivers⟩ := convertTo_sound hr htags (playerAndObjects_wellTyped s) hm
  exact ⟨s, m, hs, hm, hwell, fun ctx =>
    (hdelivers.array ctx _ ((World.typed_start ()).withMemo ctx)).1⟩

end Node

end ScriptEngine

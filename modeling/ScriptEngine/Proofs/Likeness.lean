import ScriptEngine.Proofs.Rebinding
import ScriptEngine.Proofs.TimeBinding

/-! What binding to a type leaves as it was.

Binding changes what a node yields, but not how the node is read. The node that results is single
if the first one was, is read with the same quantifier, stands in for an argument and is known to
loops as before, and has the states of the event that the first one has (`Akin`). A list is like
another one if their nodes are, one by one (`Akin.list`); and so the likeness outlasts any number
of bindings, in whatever registries (`binding_akin`). -/
namespace ScriptEngine.Node
variable {σ : Type} {r : TypeRegistry σ} {target : TypeKey} {n m k : Node σ}
  {cs ds : List (Node σ)}

/-! ### Nodes that are alike -/

/-- A node is like another in all that is asked of it except for its values and their type. -/
structure Akin (n m : Node σ) : Prop where
  isSingle : m.isSingle = n.isSingle
  quantifier : m.quantifier = n.quantifier
  isDefault : m.isDefault = n.isDefault
  isLoopOf : ∀ name, m.isLoopOf name = n.isLoopOf name
  time : ∀ b, m.time b = n.time b
  hasTime : ∀ t, m.hasTime t = n.hasTime t
  takers : ∀ t, m.takers t = n.takers t

namespace Akin

theorem refl (n : Node σ) : n.Akin n where
  isSingle := rfl
  quantifier := rfl
  isDefault := rfl
  isLoopOf _ := rfl
  time _ := rfl
  hasTime _ := rfl
  takers _ := rfl

theorem trans (h : n.Akin m) (h' : m.Akin k) : n.Akin k where
  isSingle := h'.isSingle.trans h.isSingle
  quantifier := h'.quantifier.trans h.quantifier
  isDefault := h'.isDefault.trans h.isDefault
  isLoopOf name := (h'.isLoopOf name).trans (h.isLoopOf name)
  time b := (h'.time b).trans (h.time b)
  hasTime t := (h'.hasTime t).trans (h.hasTime t)
  takers t := (h'.takers t).trans (h.takers t)

/-- An edge around a node says of it what the node says of itself. -/
theorem wrapped (id : NodeId) (n : Node σ) (edge : Edge σ) : n.Akin (.converted id n edge) where
  isSingle := rfl
  quantifier := rfl
  isDefault := rfl
  isLoopOf _ := rfl
  time _ := rfl
  hasTime _ := rfl
  takers _ := rfl

/-- What is like the source of a converted node is like the converted node. -/
theorem unwrapped (h : n.Akin m) (id : NodeId) (edge : Edge σ) :
    (Node.converted id n edge).Akin m where
  isSingle := h.isSingle
  quantifier := h.quantifier
  isDefault := h.isDefault
  isLoopOf := h.isLoopOf
  time := h.time
  hasTime := h.hasTime
  takers := h.takers

theorem literal {values vs : List Value} (h : vs.length = values.length) (id id' : NodeId)
    (type target : TypeKey) (q : Quantifier) :
    (Node.literal id type values q : Node σ).Akin (.literal id' target vs q) where
  isSingle := by rw [Node.isSingle, Node.isSingle, h]
  quantifier := rfl
  isDefault := rfl
  isLoopOf _ := rfl
  time _ := rfl
  hasTime _ := rfl
  takers _ := rfl

/-! ### Lists that are alike, node by node -/

theorem anyIsLoopOf (h : List.Forall₂ Akin cs ds) (name : String) :
    Node.anyIsLoopOf name ds = Node.anyIsLoopOf name cs := by
  induction h with
  | nil => rfl
  | cons hfirst _ ih => rw [Node.anyIsLoopOf, Node.anyIsLoopOf, hfirst.isLoopOf, ih]

theorem times (h : List.Forall₂ Akin cs ds) (b : Bindings) :
    Node.times b ds = Node.times b cs := by
  induction h with
  | nil => rfl
  | cons hfirst _ ih => rw [Node.times, Node.times, hfirst.time, ih]

theorem anyHasTime (h : List.Forall₂ Akin cs ds) (t : Time) :
    Node.anyHasTime t ds = Node.anyHasTime t cs := by
  induction h with
  | nil => rfl
  | cons hfirst _ ih => rw [Node.anyHasTime, Node.anyHasTime, hfirst.hasTime, ih]

theorem allTakers (h : List.Forall₂ Akin cs ds) (t : Time) :
    Node.allTakers t ds = Node.allTakers t cs := by
  induction h with
  | nil => rfl
  | cons hfirst _ ih => rw [Node.allTakers, Node.allTakers, hfirst.takers, ih]

/-- Lists are alike whose nodes are. Whether a list is single is a matter of its only node. -/
theorem list (h : List.Forall₂ Akin cs ds) (id id' : NodeId) (type target : TypeKey)
    (q : Quantifier) : (Node.list id type cs q).Akin (.list id' target ds q) where
  isSingle := by
    cases h with
    | nil => rfl
    | cons hfirst hrest =>
      cases hrest with
      | nil => exact hfirst.isSingle
      | cons => rfl
  quantifier := rfl
  isDefault := rfl
  isLoopOf := anyIsLoopOf h
  time b := by rw [Node.time, Node.time, times h]
  hasTime t := by rw [Node.hasTime, Node.hasTime, anyHasTime h]
  takers := allTakers h

theorem reading (h : n.Akin m) : m.reading = n.reading := by
  rw [Node.reading, Node.reading, h.isSingle, h.quantifier]

end Akin

/-! ### Binding -/

theorem settle_akin (id : NodeId) {own : HostM σ (Option (Node σ))}
    (hown : own.Yields fun out => ∀ m ∈ out, n.Akin m) :
    (settle r target id n own).Yields fun out => ∀ m, out = .ok m → n.Akin m := by
  unfold settle
  split
  · exact .pure fun m hm => Except.ok.inj hm ▸ .refl n
  · refine .bind hown fun out hout => ?_
    cases out with
    | some m => exact .pure fun m' hm' => Except.ok.inj hm' ▸ hout m rfl
    | none =>
      cases r.edge? n.type target with
      | some edge => exact .pure fun m hm => Except.ok.inj hm ▸ .wrapped id n edge
      | none => exact .pure fun _ h => nomatch h

/-- What a node makes of itself is like it: a literal has as many values, a list the nodes that its
own became, and a converted node becomes what its source becomes. -/
theorem convertSelf_akin (n : Node σ) (id : NodeId) :
    (convertSelf r target id n).Yields fun out => ∀ m ∈ out, n.Akin m := by
  induction n generalizing id with
  | literal _ type values q =>
    have hall := r.convertAll_each (R := fun _ _ => True) target (fun _ _ _ _ => trivial) values
    unfold convertSelf
    split
    · refine .bind hall fun out hout => .pure fun m hm => ?_
      obtain ⟨vs, hvs, rfl⟩ := Option.map_eq_some_iff.mp hm
      exact .literal (hout vs hvs).length_eq.symm ..
    · exact .pure fun _ h => absurd h (Option.not_mem_none _)
  | list _ _ children _ ih =>
    have hall := convertAll_each (fun c hc id => settle_akin id (ih c hc id)) id 0
    unfold convertSelf
    refine .bind hall fun out hout => .pure fun m hm => ?_
    obtain ⟨ds, hds, rfl⟩ := Option.map_eq_some_iff.mp hm
    exact .list (hout ds hds) ..
  | converted made source edge ih =>
    unfold convertSelf
    refine .bind (settle_akin id (ih id)) fun out hout => .pure fun m hm => ?_
    cases out with
    | error _ => exact absurd hm (Option.not_mem_none _)
    | ok m' => exact Option.some.inj hm ▸ (hout m' rfl).unwrapped made edge
  | property | eventValue | snapshot | memoized | host =>
    unfold convertSelf
    exact .pure fun _ h => absurd h (Option.not_mem_none _)

/-- **Binding once** gives a node that is like the first. -/
theorem BindsTo.akin (h : BindsTo r n m) : n.Akin m := by
  obtain ⟨target, id, s, hm⟩ := h
  exact settle_akin id (convertSelf_akin n id) s m hm

/-! ### Asking for a state afterwards -/

section States
variable [HostCells σ]

theorem setTime_isOk (t : Time) (n : Node σ) (w : World σ) :
    ((n.setTime t).run w).1.isOk = n.hasTime t := by
  cases h : n.hasTime t with
  | true => rw [setTime_of_has h]; rfl
  | false => rw [setTime_of_lacks h]; rfl

theorem setTime_world (t : Time) (n : Node σ) (w : World σ) : ((n.setTime t).run w).2 =
    { w with bindings := w.bindings.setAll (n.takers t) t } := by
  cases h : n.hasTime t with
  | true => rw [setTime_of_has h]
  | false => rw [setTime_of_lacks h, takers_of_lacks h]; rfl

/-- **What binding leaves as it was.** A node that was bound to types, one after the other, is like
the node that it was at first. So a condition reads it in the same way; it accepts the states of the
event that the first node accepts, and binding it to one leaves the same world. -/
theorem binding_akin (h : Relation.ReflTransGen (fun n m => ∃ r, BindsTo r n m) n m) :
    n.Akin m ∧ m.reading = n.reading ∧ ∀ t (w : World σ),
      ((m.setTime t).run w).1.isOk = ((n.setTime t).run w).1.isOk ∧
      ((m.setTime t).run w).2 = ((n.setTime t).run w).2 := by
  have hakin : n.Akin m := by
    induction h with
    | refl => exact .refl n
    | tail _ hstep ih =>
      obtain ⟨r, hbinds⟩ := hstep
      exact ih.trans hbinds.akin
  refine ⟨hakin, hakin.reading, fun t w => ⟨?_, ?_⟩⟩
  · rw [setTime_isOk, setTime_isOk, hakin.hasTime]
  · rw [setTime_world, setTime_world, hakin.takers]

end States

/-- The level of a gauge may be read out. -/
def spoken : TypeRegistry Gauge :=
  { TypeRegistry.initial with
    types := [.object, .ofShape ⟨"integer"⟩ .i64, .ofShape ⟨"text"⟩ .i64]
    registered := [.typed ⟨"integer"⟩ ⟨"text"⟩ .i64 .i64 fun n => pure (some n)] }

/-- A level and a constant are read out and then numbers again. They are two values still, of which
a condition asks both, and can be had in the past but not in the future. -/
theorem levelAndTen_akin : ∃ texts numbers,
    ((levelAndTen.convertTo spoken ⟨"text"⟩ ⟨[7]⟩).run ⟨2, 1⟩).value = .ok texts ∧
    ((texts.convertTo spoken ⟨"integer"⟩ ⟨[8]⟩).run ⟨2, 1⟩).value = .ok numbers ∧
    texts.type = ⟨"text"⟩ ∧ numbers.type = ⟨"integer"⟩ ∧ numbers.reading = .and ∧
    ((numbers.setTime .past).run lowered).1.isOk = true ∧
    ((numbers.setTime .past).run lowered).2 = ((levelAndTen.setTime .past).run lowered).2 ∧
    ((numbers.setTime .future).run lowered).1.isOk = false := by
  obtain ⟨texts, numbers, htexts, hnumbers, htext, hinteger⟩ : ∃ texts numbers,
      ((levelAndTen.convertTo spoken ⟨"text"⟩ ⟨[7]⟩).run ⟨2, 1⟩).value = .ok texts ∧
      ((texts.convertTo spoken ⟨"integer"⟩ ⟨[8]⟩).run ⟨2, 1⟩).value = .ok numbers ∧
      texts.type = ⟨"text"⟩ ∧ numbers.type = ⟨"integer"⟩ :=
    ⟨_, _, rfl, rfl, rfl, rfl⟩
  obtain ⟨_, hreading, htimes⟩ := binding_akin
    (.tail (.single ⟨spoken, _, _, _, htexts⟩) ⟨spoken, _, _, _, hnumbers⟩)
  exact ⟨texts, numbers, htexts, hnumbers, htext, hinteger, hreading, (htimes .past _).1,
    (htimes .past _).2, (htimes .future _).1⟩

end ScriptEngine.Node

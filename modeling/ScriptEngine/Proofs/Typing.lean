import ScriptEngine.Expr.Convert
import ScriptEngine.Proofs.Closure
import ScriptEngine.Proofs.Runs

/-! The types of nodes.

A node is `WellTyped` if whatever it gets its values from tags them with types that are
assignable to its own type. An edge `Tags` values if it tags them with its target. Where
the registered edges do, so do those that a registry finds (`Reachable.edge?_tags`), and
binding a well-typed node to a type gives a well-typed node of that type
(`convertTo_suits`). -/
namespace ScriptEngine

/-! ### One by one -/

section OneByOne
variable {α β : Type} {R : α → β → Prop} {as : List α} {bs : List β}

theorem forall_right {Q : β → Prop} (h : List.Forall₂ R as bs) (hR : ∀ a b, R a b → Q b) :
    ∀ b ∈ bs, Q b := by
  induction h with
  | nil => exact fun _ hb => absurd hb List.not_mem_nil
  | cons hfirst _ ih => exact List.forall_mem_cons.mpr ⟨hR _ _ hfirst, ih⟩

theorem forall_left {Q : α → Prop} (h : List.Forall₂ R as bs) (hR : ∀ a b, R a b → Q a) :
    ∀ a ∈ as, Q a := forall_right h.flip fun b a => hR a b

end OneByOne

/-! ### Edges that tag -/

/-- A conversion tags what it yields with a type. -/
def Conversion.Tags {σ : Type} (c : Conversion σ) (t : TypeKey) : Prop :=
  ∀ v, (c.apply v).Yields fun out => ∀ v' ∈ out, v'.type = t

/-- An edge tags what it yields with its target. -/
def Edge.Tags {σ : Type} (e : Edge σ) : Prop := e.conversion.Tags e.target

/-- A function between payloads tags what it yields. -/
theorem HostM.Yields.tagged {σ : Type} {type : TypeKey} {shape : Shape}
    (get : HostM σ (Option shape.Carrier)) :
    (do return (← get).map fun y => ⟨type, .of shape y⟩ : HostM σ (Option Value)).Yields
      fun out => ∀ v ∈ out, v.type = type :=
  .bind .trivial fun _ _ => .pure fun v hv => by
    obtain ⟨_, _, rfl⟩ := Option.map_eq_some_iff.mp hv
    rfl

namespace Edge
variable {σ : Type}

theorem typed_tags (source target : TypeKey) (input output : Shape)
    (convert : input.Carrier → HostM σ (Option output.Carrier)) :
    (typed source target input output convert).Tags := by
  intro v
  unfold typed direct Conversion.apply
  cases v.as? input with
  | none => exact .pure fun _ h => nomatch h
  | some x => exact .called (.tagged (convert x))

theorem Tags.rebased {e : Edge σ} (h : e.Tags) (source : TypeKey) : (e.rebased source).Tags := h

theorem Tags.followedBy {second : Edge σ} (first : Edge σ) (h : second.Tags) :
    (first.followedBy second).Tags := by
  intro v
  refine HostM.Yields.bind .trivial fun out _ => ?_
  cases out with
  | none => exact .pure fun _ h => nomatch h
  | some between => exact h between

end Edge

namespace TypeRegistry
variable {σ : Type} {r : TypeRegistry σ} {a b : TypeKey} {e : Edge σ}

theorem Composite.tags (h : r.Composite a b e) (htags : ∀ e ∈ r.registered, e.Tags) : e.Tags := by
  cases h with
  | registered he => exact htags e he
  | rebased _ hlast _ => exact (htags _ hlast).rebased a
  | followedBy _ hlast _ => exact (htags _ hlast).followedBy _

/-- Every edge between two types leads to the second, and tags if the registered ones do. -/
theorem Reachable.entry?_tags (hr : r.Reachable) (htags : ∀ e ∈ r.registered, e.Tags)
    (he : r.entry? a b = some e) : e.target = b ∧ e.Tags := by
  obtain ⟨r₀, through, _, hclosing⟩ := hr.exists_closing
  rw [hclosing.registered] at htags
  have hcomposite := (hclosing.entry he).2
  exact ⟨hcomposite.ends.2, hcomposite.tags htags⟩

/-- The edge that a type has or inherits leads where it is asked for. -/
theorem Reachable.edge?_tags (hr : r.Reachable) (htags : ∀ e ∈ r.registered, e.Tags)
    (he : r.edge? a b = some e) : e.target = b ∧ e.Tags := by
  obtain ⟨k, _, hk⟩ := List.exists_of_findSome?_eq_some he
  exact hr.entry?_tags htags hk

/-- What a value converts to is of the type that it was converted to. -/
theorem Reachable.convert_yields (hr : r.Reachable) (htags : ∀ e ∈ r.registered, e.Tags)
    (v : Value) (target : TypeKey) :
    (r.convert v target).Yields fun out => ∀ v' ∈ out, r.isAssignable v'.type target = true := by
  unfold convert
  split
  · rename_i hassign
    exact .pure fun v' hv' => Option.mem_some.mp hv' ▸ hassign
  · unfold convertBy
    cases he : r.edge? v.type target with
    | none => exact .pure fun _ h => nomatch h
    | some e =>
      obtain ⟨rfl, hedge⟩ := hr.edge?_tags htags he
      exact (hedge v).mono fun out hout v' hv' => hout v' hv' ▸ r.isAssignable_refl _

/-- Where all of some values are converted, each one is on its own. -/
theorem convertAll_each {R : Value → Value → Prop} (target : TypeKey)
    (h : ∀ v, (r.convert v target).Yields fun out => ∀ v' ∈ out, R v v') (values : List Value) :
    (r.convertAll target values).Yields fun out => ∀ vs ∈ out, List.Forall₂ R values vs := by
  induction values with
  | nil => exact .pure fun vs hvs => Option.mem_some.mp hvs ▸ .nil
  | cons v rest ih =>
    refine .bind (h v) fun out hout => ?_
    cases out with
    | none => exact .pure fun _ h => nomatch h
    | some v' =>
      refine .bind ih fun tail htail => .pure fun all hall => ?_
      obtain ⟨vs, hvs, rfl⟩ := Option.map_eq_some_iff.mp hall
      exact .cons (hout v' rfl) (htail vs hvs)

theorem Reachable.convertAll_yields (hr : r.Reachable) (htags : ∀ e ∈ r.registered, e.Tags)
    (target : TypeKey) (values : List Value) :
    (r.convertAll target values).Yields fun out =>
      ∀ vs ∈ out, ∀ v ∈ vs, r.isAssignable v.type target = true :=
  (convertAll_each target (fun v => hr.convert_yields htags v target) values).mono
    fun _ hout vs hvs => forall_right (hout vs hvs) fun _ _ hv => hv

end TypeRegistry

/-! ### Well-typed nodes -/

namespace Node
variable {σ : Type} {r : TypeRegistry σ} {names : NodeId → TypeKey}

/-- Whatever a node gets its values from tags them with types that are assignable to the node's
type. Values are cached under names of nodes, so the names must tell apart nodes of different
types. -/
inductive WellTyped (r : TypeRegistry σ) (names : NodeId → TypeKey) : Node σ → Prop where
  | literal {id type values q} : (∀ v ∈ values, r.isAssignable v.type type = true) →
      WellTyped r names (.literal id type values q)
  | list {id type children q} : (∀ c ∈ children, WellTyped r names c) →
      (∀ c ∈ children, r.isAssignable c.type type = true) →
      WellTyped r names (.list id type children q)
  | converted {id source edge} : WellTyped r names source → edge.Tags →
      WellTyped r names (.converted id source edge)
  | property {id owner p} : WellTyped r names owner →
      (∀ v, (p.get v).Yields fun out => ∀ v' ∈ out, r.isAssignable v'.type p.type = true) →
      WellTyped r names (.property id owner p)
  | eventValue {id value} : (∀ t get, value.getter? t = some get → ∀ ctx,
      (get ctx).Yields fun out => ∀ v ∈ out, r.isAssignable v.type value.type = true) →
      WellTyped r names (.eventValue id value)
  | snapshot {id taken} : (∀ v ∈ taken.values, r.isAssignable v.type taken.type = true) →
      WellTyped r names (.snapshot id taken)
  | memoized {id inner} : WellTyped r names inner → names inner.id = inner.type →
      WellTyped r names (.memoized id inner)
  | host {id node} : (∀ ctx, (node.compute ctx).Yields fun values =>
      ∀ v ∈ values, r.isAssignable v.type node.type = true) →
      WellTyped r names (.host id node)

theorem WellTyped.typedProperty {owner : Node σ} (h : owner.WellTyped r names) (id : NodeId)
    (name : String) (type : TypeKey) (input output : Shape)
    (get : input.Carrier → HostM σ (Option output.Carrier)) :
    (Node.property id owner (.typed name type input output get)).WellTyped r names := by
  refine .property h fun v => ?_
  unfold Property.typed
  dsimp only
  cases v.as? input with
  | none => exact .pure fun _ h => nomatch h
  | some x =>
    exact (HostM.Yields.tagged (get x)).mono fun out hout v' hv' =>
      hout v' hv' ▸ r.isAssignable_refl _

theorem WellTyped.typedEventValue (id : NodeId) (type : TypeKey) (name : String) (shape : Shape)
    (get : ContextId → HostM σ (Option shape.Carrier)) :
    (Node.eventValue id (.ofPresent type name (EventValue.typedGetter type shape get))).WellTyped
      r names := by
  refine .eventValue fun t getter hgetter ctx => ?_
  unfold EventValue.ofPresent at hgetter
  dsimp only at hgetter
  split at hgetter
  · cases hgetter
    exact (HostM.Yields.tagged (get ctx)).mono fun out hout v hv =>
      hout v hv ▸ r.isAssignable_refl _
  · exact nomatch hgetter

/-- The type of a list is one that all its nodes are of. -/
theorem isAssignable_commonType {children : List (Node σ)} {c : Node σ} (hc : c ∈ children) :
    r.isAssignable c.type (commonType children) = true := by
  cases children with
  | nil => exact absurd hc List.not_mem_nil
  | cons n rest =>
    rw [commonType]
    split
    case isTrue hall =>
      have hsame : c.type = n.type := by
        rcases List.mem_cons.mp hc with rfl | hc
        · rfl
        · simpa using List.all_eq_true.mp hall c hc
      exact hsame ▸ r.isAssignable_refl c.type
    case isFalse => exact r.isAssignable_object c.type

theorem ofChildren_wellTyped {children : List (Node σ)} (h : ∀ c ∈ children, c.WellTyped r names)
    (id : NodeId) (q : Quantifier) : (ofChildren id children q).WellTyped r names :=
  .list h fun _ => isAssignable_commonType

/-! ### Binding to a type -/

/-- A well-typed node whose values will do for a type. -/
structure Suits (r : TypeRegistry σ) (names : NodeId → TypeKey) (target : TypeKey)
    (m : Node σ) : Prop where
  assignable : r.isAssignable m.type target = true
  wellTyped : m.WellTyped r names

/-- The nodes of a list are converted each on its own. -/
theorem convertAll_each {R : Node σ → Node σ → Prop} {target : TypeKey} {children : List (Node σ)}
    (h : ∀ c ∈ children, ∀ id, (c.convertTo r target id).Yields fun out => ∀ m, out = .ok m → R c m)
    (id : NodeId) (place : Nat) : (convertAll r target id place children).Yields fun out =>
      ∀ cs ∈ out, List.Forall₂ R children cs := by
  induction children generalizing place with
  | nil => exact .pure fun cs hcs => Option.mem_some.mp hcs ▸ .nil
  | cons n rest ih =>
    rw [List.forall_mem_cons] at h
    unfold convertAll
    refine .bind (h.1 _) fun out hout => ?_
    cases out with
    | error _ => exact .pure fun _ h => nomatch h
    | ok m =>
      refine .bind (ih h.2 (place + 1)) fun tail htail => .pure fun all hall => ?_
      obtain ⟨cs, hcs, rfl⟩ := Option.map_eq_some_iff.mp hall
      exact .cons (hout m rfl) (htail cs hcs)

variable (hr : r.Reachable) (htags : ∀ e ∈ r.registered, e.Tags) {target : TypeKey}
include hr htags

theorem settle_suits {n : Node σ} (hn : n.WellTyped r names) (id : NodeId)
    {own : HostM σ (Option (Node σ))}
    (hown : own.Yields fun out => ∀ m ∈ out, Suits r names target m) :
    (settle r target id n own).Yields fun out => ∀ m, out = .ok m → Suits r names target m := by
  unfold settle
  split
  · rename_i hassign
    exact .pure fun m hm => Except.ok.inj hm ▸ ⟨hassign, hn⟩
  · refine .bind hown fun out hout => ?_
    cases out with
    | some m => exact .pure fun m' hm' => Except.ok.inj hm' ▸ hout m rfl
    | none =>
      cases he : r.edge? n.type target with
      | none => exact .pure fun _ h => nomatch h
      | some e =>
        obtain ⟨rfl, hedge⟩ := hr.edge?_tags htags he
        exact .pure fun m hm => Except.ok.inj hm ▸ ⟨r.isAssignable_refl _, .converted hn hedge⟩

/-- A conversion of its own makes a node suit. -/
theorem convertSelf_suits {n : Node σ} (hn : n.WellTyped r names) (id : NodeId) :
    (convertSelf r target id n).Yields fun out => ∀ m ∈ out, Suits r names target m := by
  induction hn generalizing id with
  | @literal _ type values q _ =>
    unfold convertSelf
    split
    · refine .bind (hr.convertAll_yields htags target values) fun out hout => .pure fun m hm => ?_
      obtain ⟨vs, hvs, rfl⟩ := Option.map_eq_some_iff.mp hm
      exact ⟨r.isAssignable_refl target, .literal (hout vs hvs)⟩
    · exact .pure fun _ h => nomatch h
  | @list _ _ children q hn _ ih =>
    unfold convertSelf
    have hall := convertAll_each (fun c hc id =>
      settle_suits hr htags (hn c hc) id (ih c hc id)) id 0
    refine .bind hall fun out hout => .pure fun m hm => ?_
    obtain ⟨cs, hcs, rfl⟩ := Option.map_eq_some_iff.mp hm
    have hsuits : ∀ c ∈ cs, Suits r names target c := forall_right (hout cs hcs) fun _ _ hc => hc
    exact ⟨r.isAssignable_refl target,
      .list (fun c hc => (hsuits c hc).wellTyped) fun c hc => (hsuits c hc).assignable⟩
  | converted hn _ ih =>
    -- The edge is given up, and the source is bound anew: only the source need be well-typed.
    unfold convertSelf
    refine .bind (settle_suits hr htags hn id (ih id)) fun out hout => .pure fun m hm => ?_
    cases out with
    | error _ => exact nomatch hm
    | ok m' => exact Option.some.inj hm ▸ hout m' rfl
  | property | eventValue | snapshot | memoized | host =>
    unfold convertSelf
    exact .pure fun _ h => nomatch h

/-- Binding to a type gives well-typed nodes of the type. -/
theorem convertTo_suits {n : Node σ} (hn : n.WellTyped r names) (id : NodeId) :
    (n.convertTo r target id).Yields fun out => ∀ m, out = .ok m → Suits r names target m :=
  settle_suits hr htags hn id (convertSelf_suits hr htags hn id)

end Node

end ScriptEngine

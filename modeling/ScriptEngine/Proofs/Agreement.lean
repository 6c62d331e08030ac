import ScriptEngine.Proofs.Abreast
import ScriptEngine.Proofs.Keeping
import ScriptEngine.Proofs.TypedValues

/-! Converting a node is converting its values.

A registry converts a value by the tag of the value. A node is converted by its declared type,
objects one by one, and a list node by node. `convertTo_agrees` says that the two come to the
same, whatever lists are built of, as long as the conversions are pure and none leads out of the
universal type: the node that results gives the values of the node it was made of, each converted,
in order, but for those that cannot be. -/
namespace ScriptEngine

/-! ### Pure functions -/

/-- A function of the host only looks, and comes to the same in every state. -/
structure HostM.Pure {σ α : Type} (m : HostM σ α) : Prop where
  looks : m.Looks
  same : ∀ s s', (m.run s).value = (m.run s').value

namespace HostM.Pure
variable {σ α β : Type} {m : HostM σ α} {f : α → HostM σ β}

theorem pure (a : α) : (Pure.pure a : HostM σ α).Pure :=
  ⟨fun _ => ⟨rfl, fun _ h => nomatch h⟩, fun _ _ => rfl⟩

theorem bind (hm : m.Pure) (hf : ∀ a, (f a).Pure) : (m >>= f).Pure := by
  refine ⟨fun s => ⟨?_, fun entry hentry ctx => ?_⟩, fun s s' => ?_⟩
  · exact ((hf _).looks _).1.trans (hm.looks s).1
  · rcases List.mem_append.mp hentry with hfirst | hsecond
    · exact (hm.looks s).2 entry hfirst ctx
    · exact ((hf _).looks _).2 entry hsecond ctx
  · show ((f (m.run s).value).run (m.run s).state).value =
      ((f (m.run s').value).run (m.run s').state).value
    rw [hm.same s s']
    exact (hf _).same _ _

theorem called (hm : m.Pure) (call : HostCall) : (HostM.called call m).Pure :=
  ⟨hm.looks.called call, hm.same⟩

end HostM.Pure

/-- What an edge makes of a value is a matter of the value alone. -/
def Edge.Pure {σ : Type} (e : Edge σ) : Prop := ∀ v, (e.apply v).Pure

namespace Edge
variable {σ : Type} {first second : Edge σ}

theorem typed_pure (source target : TypeKey) (input output : Shape)
    {convert : input.Carrier → HostM σ (Option output.Carrier)} (h : ∀ x, (convert x).Pure) :
    (typed source target input output convert).Pure := by
  intro v
  unfold apply typed direct Conversion.apply
  cases v.as? input with
  | none => exact .pure none
  | some x => exact ((h x).bind fun _ => .pure _).called _

theorem Pure.rebased {e : Edge σ} (h : e.Pure) (source : TypeKey) : (e.rebased source).Pure := h

theorem Pure.followedBy (hfirst : first.Pure) (hsecond : second.Pure) :
    (first.followedBy second).Pure := by
  intro v
  refine HostM.Pure.bind (hfirst v) fun out => ?_
  cases out with
  | none => exact .pure none
  | some between => exact hsecond between

end Edge

namespace TypeRegistry
variable {σ : Type} {r : TypeRegistry σ} {a b target : TypeKey} {e : Edge σ} {s : σ}

theorem Composite.pure (h : r.Composite a b e) (hpure : ∀ e ∈ r.registered, e.Pure) : e.Pure := by
  induction h with
  | registered he => exact hpure _ he
  | rebased _ hlast _ => exact (hpure _ hlast).rebased _
  | followedBy _ hlast _ ih => exact ih.followedBy (hpure _ hlast)

/-- What a value converts to, in a state of the host. -/
def converted? (r : TypeRegistry σ) (s : σ) (target : TypeKey) (v : Value) : Option Value :=
  ((r.convert v target).run s).value

theorem converted?_of_assignable {v : Value} (h : r.isAssignable v.type target = true) :
    r.converted? s target v = some v := by
  rw [converted?, convert, if_pos h]
  rfl

theorem converted?_of_edge {v : Value} (h : r.isAssignable v.type target = false)
    (he : r.edge? v.type target = some e) :
    r.converted? s target v = ((e.apply v).run s).value := by
  rw [converted?, convert, if_neg (ne_true_of_eq_false h), convertBy, he]

namespace Reachable
variable (hr : r.Reachable)
include hr

/-- Where no converter leads out of the universal type, no edge does. -/
theorem edge?_object (hobject : ∀ e ∈ r.registered, e.source ≠ .object) (b : TypeKey) :
    r.edge? .object b = none := by
  refine Option.eq_none_iff_forall_ne_some.mpr fun e he => ?_
  obtain ⟨r₀, through, hr₀, hclosing⟩ := hr.exists_closing
  obtain ⟨k, hk, hentry⟩ := List.exists_of_findSome?_eq_some he
  rw [hclosing.lineage, hr₀.mem_lineage, hr₀.object_inherits] at hk
  subst hk
  obtain ⟨_, ⟨first, hfirst, hinherits, _⟩, _⟩ :=
    Relation.TransGen.head'_iff.mp (hclosing.entry hentry).1
  rw [← hclosing.registered] at hfirst
  exact hobject first hfirst (hr₀.object_inherits.mp hinherits)

/-- Only the universal type itself is above it. -/
theorem eq_object_of_isAssignable (h : r.isAssignable .object b = true) : b = .object := by
  rcases hr.wellFormed.isAssignable_iff.mp h with hb | hb
  · exact hb
  · exact hr.wellFormed.object_inherits.mp hb

variable (hpure : ∀ e ∈ r.registered, e.Pure)
include hpure

theorem edge?_pure (he : r.edge? a b = some e) : e.Pure := by
  obtain ⟨r₀, through, _, hclosing⟩ := hr.exists_closing
  obtain ⟨k, _, hk⟩ := List.exists_of_findSome?_eq_some he
  rw [hclosing.registered] at hpure
  exact (hclosing.entry hk).2.pure hpure

theorem convertBy_pure (v : Value) (target : TypeKey) : (r.convertBy v target).Pure := by
  unfold convertBy
  cases he : r.edge? v.type target with
  | none => exact .pure none
  | some e => exact hr.edge?_pure hpure he v

theorem convert_pure (v : Value) (target : TypeKey) : (r.convert v target).Pure := by
  unfold convert
  split
  · exact .pure _
  · exact hr.convertBy_pure hpure v target

/-- Where all of some values can be converted, they are converted one by one. -/
theorem convertAll_yields_map (s : σ) (target : TypeKey) (values : List Value) :
    (r.convertAll target values).Yields fun out =>
      ∀ vs ∈ out, vs = values.filterMap (r.converted? s target) := by
  have hfirst : ∀ v, (r.convert v target).Yields fun out =>
      ∀ v' ∈ out, r.converted? s target v = some v' := fun v s' v' hv' =>
    ((hr.convert_pure hpure v target).same s s').trans (Option.mem_def.mp hv')
  refine (convertAll_each target hfirst values).mono fun out hout vs hvs => ?_
  have hall := hout vs hvs
  clear hout hvs
  induction hall with
  | nil => rfl
  | cons hv _ ih => rw [List.filterMap_cons, hv, ← ih]

end Reachable

end TypeRegistry

namespace Node
variable {σ : Type} {r : TypeRegistry σ} {target : TypeKey} {s : σ} {ctx : ContextId}
  {n m : Node σ} {id : NodeId}

/-! ### Reading side by side -/

/-- Two worlds differ in the journal only, and no values are kept in them. -/
structure Uncached (ctx : ContextId) (w w' : World σ) : Prop extends Resembles ctx w w' where
  uncached : w.memo? ctx = none

namespace Uncached

theorem refl {w : World σ} (h : w.memo? ctx = none) : Uncached ctx w w := ⟨⟨rfl, rfl, rfl, rfl⟩, h⟩

theorem twins (ctx : ContextId) : Twins ctx (Uncached ctx : World σ → World σ → Prop) where
  revoked h := h.revoked
  bindings h := h.bindings
  memo h := (Resembles.twins ctx).memo h.toResembles
  note e he h := ⟨(Resembles.twins ctx).note e he h.toResembles, h.uncached⟩
  remember node t values h := by
    have hsame := (Resembles.twins ctx).memo h.toResembles
    rw [World.remember_of_no_memo h.uncached,
      World.remember_of_no_memo (hsame.symm.trans h.uncached)]
    exact h

theorem host_alike {α : Type} (m : HostM σ α) :
    Alike (Uncached ctx : World σ → World σ → Prop) (Eval.host m) := by
  intro w w' h
  obtain ⟨a, w₁, w₁', hrun, hrun', h₁⟩ := Resembles.host_alike m w w' h.toResembles
  have hmemo : w₁.memo? ctx = none := by
    have hw₁ : w₁ = ((Eval.host m).run w).2 := by rw [hrun]
    rw [hw₁]
    exact h.uncached
  exact ⟨a, w₁, w₁', hrun, hrun', h₁, hmemo⟩

/-- What a pure function leaves differs in the journal only. -/
theorem looks {α : Type} {w w' : World σ} (h : Uncached ctx w w') {m : HostM σ α}
    (hm : m.Looks) : Uncached ctx ((Eval.host m).run w).2 w' := by
  refine ⟨⟨(hm w.host).1.trans h.host, h.memos, h.bindings, ?_⟩, h.uncached⟩
  rw [← h.revoked]
  cases hrevoked : w.isRevoked ctx with
  | false =>
    exact World.isRevoked_append _ hrevoked fun entry hentry => (hm w.host).2 entry hentry ctx
  | true =>
    rw [World.isRevoked] at hrevoked
    exact List.any_append.trans (by rw [hrevoked, Bool.true_or])

theorem array {w w' : World σ} (h : Uncached ctx w w') (n : Node σ) :
    ((n.array ctx).run w).1 = ((n.array ctx).run w').1 ∧
      Uncached ctx ((n.array ctx).run w).2 ((n.array ctx).run w').2 := by
  obtain ⟨values, w₁, w₁', hrun, hrun', h₁⟩ := array_alike (twins ctx) host_alike n w w' h
  rw [hrun, hrun']
  exact ⟨rfl, h₁⟩

end Uncached

/-- Where no values are kept, the one node gives the values of the other, each as some function has
it, and leaves the same. -/
def Gives (f : Value → Option Value) (m n : Node σ) : Prop :=
  ∀ ctx w w', Uncached ctx w w' →
    ((m.array ctx).run w).1 = ((n.array ctx).run w').1.filterMap f ∧
      Uncached ctx ((m.array ctx).run w).2 ((n.array ctx).run w').2

theorem run_array_literal {type : TypeKey} {values : List Value} {q : Quantifier}
    (w : World σ) : ((Node.literal id type values q).array ctx).run w = (values, w) := by
  rw [run_array, visit, scan_gather]
  exact congrArg (·, w) (gathered_foldl values)

namespace Gives
variable {f : Value → Option Value}

/-- Gathering what an edge makes of values goes side by side with gathering the values. -/
theorem sideBySide {edge : Edge σ} (hpure : edge.Pure) (s : σ) (ctx : ContextId) :
    SideBySide (fun _ => True) ctx (through edge.apply gather) gather
      (fun b c w w' => b = c.filterMap (fun v => ((edge.apply v).run s).value) ∧
        Uncached ctx w w')
      fun _ _ _ _ => False where
  twins _ _ := (Uncached.twins ctx).constrain _
  alike _ _ _ := (Uncached.host_alike _).constrain _
  step v b c w w' h := by
    have hworld := h.2.looks (hpure v).looks
    rw [run_through, (hpure v).same w.host s]
    cases hout : ((edge.apply v).run s).value with
    | none => exact .both ⟨by rw [h.1, List.filterMap_cons, hout], hworld⟩
    | some v' => exact .both ⟨by rw [h.1, List.filterMap_cons, hout], hworld⟩
  hostFree _ _ _ _ _ _ h := h
  memos _ _ _ _ _ h := h
  after _ _ _ _ _ h := h

theorem converted {edge : Edge σ} (hpure : edge.Pure) (s : σ) (id : NodeId) (n : Node σ) :
    Gives (fun v => ((edge.apply v).run s).value) (.converted id n edge) n := by
  intro ctx w w' hw
  have hvisits := visit_abreast (uses_any n) (sideBySide hpure s ctx) (b := []) (c := [])
    ⟨rfl, hw⟩
  rw [run_array, run_array, visit]
  cases hrun : (n.visit ctx (through edge.apply gather) []).run w with
  | mk step w₁ =>
    cases hrun' : (n.visit ctx gather []).run w' with
    | mk step' w₁' =>
      rw [hrun, hrun'] at hvisits
      cases hvisits with
      | both h =>
        obtain ⟨rfl, h₁⟩ := h
        exact ⟨(List.filterMap_reverse ..).symm, h₁⟩
      | ahead h => exact h.elim

theorem list {ms ns : List (Node σ)} (h : List.Forall₂ (Gives f) ms ns) (id id' : NodeId)
    (t t' : TypeKey) (q q' : Quantifier) : Gives f (.list id t ms q) (.list id' t' ns q') := by
  intro ctx w w' hw
  rw [array_list, array_list]
  dsimp only
  induction h generalizing w w' with
  | nil => exact ⟨rfl, hw⟩
  | cons hfirst _ ih =>
    obtain ⟨hvalues, hnext⟩ := hfirst ctx w w' hw
    obtain ⟨hrest, hlast⟩ := ih _ _ hnext
    rw [run_mapM_array, run_mapM_array]
    refine ⟨?_, hlast⟩
    dsimp only
    rw [List.flatten_cons, List.flatten_cons, List.filterMap_append, hvalues, hrest]

/-- A node gives its own values, each as a function has it that leaves them as they are. -/
theorem self (h : ∀ ctx w, w.memo? ctx = none → ∀ v ∈ ((n.array ctx).run w).1, f v = some v) :
    Gives f n n := by
  intro ctx w w' hw
  obtain ⟨hsame, hnext⟩ := hw.array n
  have hkept : ((n.array ctx).run w).1.filterMap f = ((n.array ctx).run w).1 :=
    (List.filterMap_congr (h ctx w hw.uncached)).trans List.filterMap_some
  exact ⟨by rw [← hsame, hkept], hnext⟩

/-- Only what the function makes of the values of the node matters. -/
theorem congr {g : Value → Option Value} (hgives : Gives f m n)
    (h : ∀ ctx w, w.memo? ctx = none → ∀ v ∈ ((n.array ctx).run w).1, f v = g v) :
    Gives g m n := by
  intro ctx w w' hw
  obtain ⟨hvalues, hnext⟩ := hgives ctx w w' hw
  rw [← (hw.array n).1] at hvalues ⊢
  exact ⟨hvalues.trans (List.filterMap_congr (h ctx w hw.uncached)), hnext⟩

end Gives

/-! ### Trees of tagged values -/

/-- Whether a node neither is a list nor was converted. -/
def isLeaf : Node σ → Bool
  | .list .. | .converted .. => false
  | _ => true

/-- The values of a node, where none are kept, are tagged with a type itself, not with one that is
assignable to it. -/
def Exact (n : Node σ) (t : TypeKey) : Prop :=
  ∀ ctx w, w.memo? ctx = none → ∀ v ∈ ((n.array ctx).run w).1, v.type = t

/-- A tree of lists over constants of the universal type, whatever their values, and over leaves of
other types whose values are tagged with the type. -/
inductive Tagged : Node σ → Prop where
  | objects {id values q} : Tagged (.literal id .object values q)
  | leaf {leaf} : isLeaf leaf = true → leaf.type ≠ .object → leaf.Exact leaf.type → Tagged leaf
  | list {id children q} : (∀ c ∈ children, Tagged c) → Tagged (ofChildren id children q)

/-- The nodes of a list that is not of the universal type are of the type of the list. -/
theorem type_of_commonType {children : List (Node σ)} (h : commonType children ≠ .object) :
    ∀ c ∈ children, c.type = commonType children := by
  cases children with
  | nil => exact absurd rfl h
  | cons n rest =>
    rw [commonType] at h ⊢
    split
    case isTrue hall => exact List.forall_mem_cons.mpr ⟨rfl, by simpa using hall⟩
    case isFalse hall =>
      rw [if_neg hall] at h
      exact absurd rfl h

theorem exact_literal {type : TypeKey} {values : List Value} {q : Quantifier}
    (h : ∀ v ∈ values, v.type = type) : (Node.literal id type values q : Node σ).Exact type := by
  intro ctx w _
  rw [run_array_literal]
  exact h

theorem exact_eventValue {value : EventValue σ} (h : ∀ t get, value.getter? t = some get →
    ∀ ctx, (get ctx).Yields fun out => ∀ v ∈ out, v.type = value.type) :
    (Node.eventValue id value).Exact value.type := by
  intro ctx w _
  have hread : (readEvent ctx id value).Ensures (fun _ => True) fun out =>
      ∀ v ∈ out, v.type = value.type := readEvent_ensures (fun _ _ _ _ => trivial) h ctx id
  have hvisit : ((Node.eventValue id value).visit ctx gather []).Ensures (fun _ => True)
      fun step => ∀ v ∈ step.value, v.type = value.type := by
    rw [visit]
    refine .bind hread fun out hout => scan_ensures gather_gathers (fun v hv => ?_) fun _ hv => ?_
    · exact hout v (Option.mem_toList.mp hv)
    · cases hv
  exact (gathered_ensures hvisit w trivial).1

theorem exact_memoized {t : TypeKey} (h : n.Exact t) : (Node.memoized id n).Exact t := by
  intro ctx w hw
  rw [run_array_memoized, Eval.memoized_uncached hw]
  exact h ctx w hw

theorem exact_list {t : TypeKey} {children : List (Node σ)} (h : ∀ c ∈ children, c.Exact t)
    (id : NodeId) (type : TypeKey) (q : Quantifier) : (Node.list id type children q).Exact t := by
  intro ctx w hw
  rw [array_list]
  induction children generalizing w with
  | nil => exact fun _ hv => nomatch hv
  | cons n rest ih =>
    rw [List.forall_mem_cons] at h
    rw [run_mapM_array, List.flatten_cons, List.forall_mem_append]
    exact ⟨h.1 ctx w hw, ih h.2 _ ((Uncached.refl hw).array n).2.uncached⟩

theorem Tagged.exact (hn : n.Tagged) (htype : n.type ≠ .object) : n.Exact n.type := by
  induction hn with
  | objects => exact absurd rfl htype
  | leaf _ _ hexact => exact hexact
  | list _ ih =>
    have hall := type_of_commonType htype
    refine exact_list (fun c hc => ?_) _ _ _
    have hexact := ih c hc (hall c hc ▸ htype)
    rwa [hall c hc] at hexact

/-! ### Converting trees -/

/-- What converting a node comes to: a node that gives its values, each converted; or there is no
edge from its type. -/
def Agreed (r : TypeRegistry σ) (s : σ) (target : TypeKey) (n : Node σ) : Outcome (Node σ) → Prop
  | .ok m => Gives (r.converted? s target) m n
  | .error _ => r.edge? n.type target = none

/-- What a conversion that a node has of its own comes to: a node that gives its values, each
converted; or nothing, and then so does the node with an edge put around it, if it needs one and
there is one. -/
def Offers (r : TypeRegistry σ) (s : σ) (target : TypeKey) (n : Node σ) : Option (Node σ) → Prop
  | some m => Gives (r.converted? s target) m n
  | none => r.isAssignable n.type target = false → ∀ edge, r.edge? n.type target = some edge →
      ∀ id, Gives (r.converted? s target) (.converted id n edge) n

theorem convertSelf_leaf (hleaf : n.isLeaf = true) (htype : n.type ≠ .object) (id : NodeId) :
    convertSelf r target id n = pure none := by
  cases n with
  | list | converted => exact nomatch hleaf
  | literal _ type =>
    have hobject : ¬ type.isObject = true := fun h => htype (eq_of_beq h)
    rw [convertSelf, if_neg hobject]
  | property | eventValue | snapshot | memoized | host =>
    unfold convertSelf
    rfl

section
variable (hr : r.Reachable)
include hr

/-- A node of the wanted type has values of the wanted type only. -/
theorem Tagged.gives_self (hn : n.Tagged) (hassign : r.isAssignable n.type target = true) :
    Gives (r.converted? s target) n n := by
  refine .self fun ctx w hw v hv => TypeRegistry.converted?_of_assignable ?_
  by_cases htype : n.type = .object
  · rw [htype] at hassign
    rw [hr.eq_object_of_isAssignable hassign]
    exact r.isAssignable_object v.type
  · rw [hn.exact htype ctx w hw v hv]
    exact hassign

theorem settle_agreed (hn : n.Tagged) (id : NodeId) {own : HostM σ (Option (Node σ))}
    (hown : own.Yields (Offers r s target n)) :
    (settle r target id n own).Yields (Agreed r s target n) := by
  unfold settle
  split
  case isTrue hassign => exact .pure (hn.gives_self hr hassign)
  case isFalse hassign =>
    rw [Bool.not_eq_true] at hassign
    refine .bind hown fun out hout => ?_
    cases out with
    | some m => exact .pure hout
    | none =>
      cases hedge : r.edge? n.type target with
      | none => exact .pure hedge
      | some edge => exact .pure (hout hassign edge hedge id)

/-- The nodes of a list are converted each on its own; if one cannot be, there is no edge from its
type. -/
theorem convertAll_agreed {children : List (Node σ)} (hn : ∀ c ∈ children, c.Tagged)
    (hown : ∀ c ∈ children, ∀ id, (convertSelf r target id c).Yields (Offers r s target c))
    (id : NodeId) (place : Nat) : (convertAll r target id place children).Yields fun out =>
      match out with
      | some ms => List.Forall₂ (Gives (r.converted? s target)) ms children
      | none => ∃ c ∈ children, r.edge? c.type target = none := by
  induction children generalizing place with
  | nil => exact .pure .nil
  | cons n rest ih =>
    rw [List.forall_mem_cons] at hn hown
    unfold convertAll
    refine .bind (settle_agreed hr hn.1 _ (hown.1 _)) fun out hout => ?_
    cases out with
    | error _ => exact .pure ⟨n, List.mem_cons_self .., hout⟩
    | ok m =>
      refine .bind (ih hn.2 hown.2 (place + 1)) fun tail htail => .pure ?_
      cases tail with
      | none =>
        obtain ⟨c, hc, hnone⟩ := htail
        exact ⟨c, List.mem_cons_of_mem _ hc, hnone⟩
      | some ms => exact .cons hout htail

variable (hpure : ∀ e ∈ r.registered, e.Pure)
include hpure

/-- A leaf with an edge put around it gives its values as the edge has them; the registry takes the
same edge for each of them. -/
theorem offers_leaf (hexact : n.Exact n.type) : Offers r s target n none := by
  intro hassign edge hedge id
  refine (Gives.converted (hr.edge?_pure hpure hedge) s id n).congr fun ctx w hw v hv => ?_
  have htype := hexact ctx w hw v hv
  rw [← htype] at hassign hedge
  exact (TypeRegistry.converted?_of_edge hassign hedge).symm

variable (hobject : ∀ e ∈ r.registered, e.source ≠ .object)
include hobject

theorem convertSelf_offers (hn : n.Tagged) (id : NodeId) :
    (convertSelf r target id n).Yields (Offers r s target n) := by
  have hobjects : ∀ {n : Node σ}, n.type = .object → Offers r s target n none := by
    intro n htype _ edge hedge
    rw [htype, hr.edge?_object hobject] at hedge
    cases hedge
  induction hn generalizing id with
  | @objects _ values _ =>
    unfold convertSelf
    rw [if_pos (show TypeKey.object.isObject = true from rfl)]
    refine .bind (hr.convertAll_yields_map hpure s target values) fun out hout => .pure ?_
    cases out with
    | none => exact hobjects rfl
    | some vs =>
      intro ctx w w' hw
      rw [run_array_literal, run_array_literal]
      exact ⟨hout vs rfl, hw⟩
  | leaf hleaf htype hexact =>
    rw [convertSelf_leaf hleaf htype]
    exact .pure (offers_leaf hr hpure hexact)
  | @list _ children _ hn ih =>
    unfold ofChildren convertSelf
    refine .bind (convertAll_agreed hr hn (fun c hc id => ih c hc id) id 0) fun out hout => .pure ?_
    cases out with
    | some ms => exact Gives.list hout _ _ _ _ _ _
    | none =>
      -- The list has no edge either: it is of the universal type, or of the type of its nodes.
      obtain ⟨c, hc, hnone⟩ := hout
      by_cases htype : commonType children = .object
      · exact hobjects htype
      · intro _ edge hedge
        rw [type_of_commonType htype c hc] at hnone
        cases hnone.symm.trans hedge

/-- **Converting a node is converting its values.** The node that a tagged tree is converted to
gives the values of the tree in order, each as the registry converts it, without those that cannot
be converted; what it leaves behind differs in the journal only. -/
theorem convertTo_agrees (hn : n.Tagged) (hm : ((n.convertTo r target id).run s).value = .ok m)
    (ctx : ContextId) {w : World σ} (hw : w.memo? ctx = none) (s' : σ) :
    ((m.array ctx).run w).1 =
      ((n.array ctx).run w).1.filterMap (fun v => ((r.convert v target).run s').value) ∧
    Resembles ctx ((m.array ctx).run w).2 ((n.array ctx).run w).2 := by
  have hagreed : Agreed r s' target n ((n.convertTo r target id).run s).value :=
    settle_agreed hr hn id (convertSelf_offers hr hpure hobject hn id) s
  rw [hm] at hagreed
  obtain ⟨hvalues, hleft⟩ := hagreed ctx w w (.refl hw)
  exact ⟨hvalues, hleft.toResembles⟩

end

/-! A player converts to an integer, and an even integer to half of it as a text. -/

def half (n : Int64) : Option Int64 := if n % 2 = 0 then some (n / 2) else none

def halving : Edge Unit := .typed ⟨"integer"⟩ ⟨"text"⟩ .i64 .i64 fun n => pure (half n)

def halved : TypeRegistry Unit := .players [TypeRegistry.relabel "player" "integer", halving]

theorem halved_reachable : halved.Reachable :=
  TypeRegistry.players_reachable
    |>.step (.edge (e := TypeRegistry.relabel "player" "integer") rfl)
    |>.step (.edge (e := halving) rfl)

theorem halved_pure : ∀ e ∈ halved.registered, e.Pure := by
  intro e he
  rcases List.mem_pair.mp he with rfl | rfl <;> exact Edge.typed_pure _ _ _ _ fun _ => .pure _

/-- Three players, one of them kept, in a list of their own, and a number and a text as objects. -/
def playersAndNumber : Node Unit :=
  ofChildren ⟨[1]⟩ [ofChildren ⟨[2]⟩ [.memoized ⟨[3]⟩ thePlayer,
      .literal ⟨[4]⟩ ⟨"player"⟩ [⟨⟨"player"⟩, .i64 5⟩, ⟨⟨"player"⟩, .i64 6⟩] .and] .and,
    .literal ⟨[5]⟩ .object [⟨⟨"integer"⟩, .i64 8⟩, ⟨⟨"text"⟩, .i64 9⟩] .and] .and

theorem playersAndNumber_tagged : playersAndNumber.Tagged := by
  have hplayer : thePlayer.Exact ⟨"player"⟩ := by
    refine exact_eventValue fun t get hget ctx => ?_
    simp only [EventValue.ofPresent] at hget
    split at hget
    · cases hget
      exact .tagged _
    · cases hget
  refine .list fun c hc => ?_
  rcases List.mem_pair.mp hc with rfl | rfl
  · refine .list fun c hc => ?_
    rcases List.mem_pair.mp hc with rfl | rfl
    · exact .leaf rfl (by decide) (exact_memoized hplayer)
    · exact .leaf rfl (by decide) (exact_literal (by decide))
  · exact .objects

/-- As texts the odd players are lost, and the others are halved; the text stays. -/
theorem playersAndNumber_agree : ∃ s m, halved.sealed = .ok s ∧
    ((playersAndNumber.convertTo s ⟨"text"⟩ ⟨[6]⟩).run ()).value = .ok m ∧
    numbers ((playersAndNumber.array ⟨0⟩).run (World.start ())).1 = [1, 5, 6, 8, 9] ∧
    numbers ((m.array ⟨0⟩).run (World.start ())).1 = [3, 4, 9] ∧
    ((m.array ⟨0⟩).run (World.start ())).1 =
      ((playersAndNumber.array ⟨0⟩).run (World.start ())).1.filterMap
        (fun v => ((s.convert v ⟨"text"⟩).run ()).value) := by
  obtain ⟨s, m, hs, hm, hbefore, hafter⟩ : ∃ s m, halved.sealed = .ok s ∧
    ((playersAndNumber.convertTo s ⟨"text"⟩ ⟨[6]⟩).run ()).value = .ok m ∧
    numbers ((playersAndNumber.array ⟨0⟩).run (World.start ())).1 = [1, 5, 6, 8, 9] ∧
    numbers ((m.array ⟨0⟩).run (World.start ())).1 = [3, 4, 9] :=
    ⟨_, _, rfl, rfl, by decide, by decide⟩
  have hregistered := (TypeRegistry.sealed_extends hs).registered
  have hpure : ∀ e ∈ s.registered, e.Pure := hregistered ▸ halved_pure
  have hobject : ∀ e ∈ s.registered, e.source ≠ .object := by
    rw [hregistered]
    decide
  exact ⟨s, m, hs, hm, hbefore, hafter, (convertTo_agrees (halved_reachable.step (.sealed hs))
    hpure hobject playersAndNumber_tagged hm ⟨0⟩ rfl ()).1⟩

end Node

end ScriptEngine

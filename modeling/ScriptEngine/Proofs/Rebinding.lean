import ScriptEngine.Proofs.Conversions
import ScriptEngine.Proofs.EdgeTable
import ScriptEngine.Proofs.TypedValues

/-! Binding a node to one type after the other.

A tree is `Flat` if none of its converted nodes was made of a converted one. A converted
node gives its edge up and binds what it was made of anew; only where that fails would an
edge be put around the converted node itself. In a sealed registry it never comes to that:
an edge from where a conversion leads is one more step of a conversion from where it set
out, so there is a conversion of what the node was made of as well (`converts_of_edges`).
So trees stay flat, whatever types they are bound to and how often (`binding_flat`). -/
namespace ScriptEngine

/-! ### Conversions that follow each other -/

namespace TypeRegistry
variable {σ : Type} {r s : TypeRegistry σ} {a b c : TypeKey} {e e' : Edge σ}

/-- The edge that a type has or inherits leads where it is asked for. -/
theorem Reachable.edge?_target (hr : r.Reachable) (he : r.edge? a b = some e) : e.target = b := by
  obtain ⟨k, _, hk⟩ := List.exists_of_findSome?_eq_some he
  exact (hr.entry?_ends hk).2

/-- An edge that a type has or inherits in the sealed registry leads to what the type reaches. -/
theorem WellFormed.reaches_of_edge? (h : r.WellFormed) (hs : r.sealed = .ok s)
    (he : s.edge? a b = some e) : r.Reaches a b := by
  obtain ⟨k, hk, hentry⟩ := List.exists_of_findSome?_eq_some he
  rw [(h.closing_sealed hs).lineage, h.mem_lineage] at hk
  exact Inherits.reaches hk (h.entry_sealed hs hentry).1

/-- In a sealed registry, one edge after another is a conversion. -/
theorem Reachable.converts_of_edges (hr : r.Reachable) (hsealed : r.isSealed = true)
    (hab : r.edge? a b = some e) (hbc : r.edge? b c = some e') : r.converts a c = true := by
  obtain ⟨r₀, hr₀, hs⟩ := hr.exists_open hsealed
  have h := hr₀.wellFormed
  have hreach : r₀.Reaches a c := (h.reaches_of_edge? hs hab).trans (h.reaches_of_edge? hs hbc)
  exact (h.converts_sealed hs).mpr (.inr hreach)

end TypeRegistry

namespace Node
variable {σ : Type} {r : TypeRegistry σ} {target : TypeKey} {n m : Node σ}
  {P Q : Node σ → Edge σ → Prop}

/-! ### Flat trees -/

/-- Whether a node is converted, as it stands. -/
def isConverted : Node σ → Bool
  | .converted .. => true
  | _ => false

/-- Something holds of every converted node of a tree, of what it was made of and its edge. -/
inductive EachConverted (P : Node σ → Edge σ → Prop) : Node σ → Prop where
  | literal {id type values q} : EachConverted P (.literal id type values q)
  | list {id type children q} : (∀ c ∈ children, EachConverted P c) →
      EachConverted P (.list id type children q)
  | converted {id source edge} : EachConverted P source → P source edge →
      EachConverted P (.converted id source edge)
  | property {id owner p} : EachConverted P owner → EachConverted P (.property id owner p)
  | eventValue {id value} : EachConverted P (.eventValue id value)
  | snapshot {id taken} : EachConverted P (.snapshot id taken)
  | memoized {id inner} : EachConverted P inner → EachConverted P (.memoized id inner)
  | host {id node} : EachConverted P (.host id node)

/-- No converted node of a tree was made of a converted one. -/
def Flat (n : Node σ) : Prop := n.EachConverted fun source _ => source.isConverted = false

/-- Every converted node of a tree is of a type that a registry has an edge to, from the type of
what the node was made of. This is what binding makes, also binding before the registry was
sealed. -/
def BoundBy (r : TypeRegistry σ) (n : Node σ) : Prop :=
  n.EachConverted fun source edge => ∃ found, r.edge? source.type edge.target = some found

/-- A converted node was not made of a converted one, and is one that a registry makes. -/
structure Layer (r : TypeRegistry σ) (source : Node σ) (edge : Edge σ) : Prop where
  flat : source.isConverted = false
  found : ∃ found, r.edge? source.type edge.target = some found

theorem EachConverted.mono (h : n.EachConverted P) (hPQ : ∀ source edge, P source edge →
    Q source edge) : n.EachConverted Q := by
  induction h with
  | literal => exact .literal
  | list _ ih => exact .list ih
  | converted _ hedge ih => exact .converted ih (hPQ _ _ hedge)
  | property _ ih => exact .property ih
  | eventValue => exact .eventValue
  | snapshot => exact .snapshot
  | memoized _ ih => exact .memoized ih
  | host => exact .host

theorem layers_of_flat (hflat : n.Flat) (hbound : n.BoundBy r) : n.EachConverted (Layer r) := by
  induction hflat with
  | literal => exact .literal
  | list _ ih =>
    cases hbound with
    | list hbound => exact .list fun c hc => ih c hc (hbound c hc)
  | converted _ hsource ih =>
    cases hbound with
    | converted hbound hedge => exact .converted (ih hbound) ⟨hsource, hedge⟩
  | property _ ih =>
    cases hbound with
    | property hbound => exact .property (ih hbound)
  | eventValue => exact .eventValue
  | snapshot => exact .snapshot
  | memoized _ ih =>
    cases hbound with
    | memoized hbound => exact .memoized (ih hbound)
  | host => exact .host

/-- One tree comes of another by binding it to a type. -/
def BindsTo (r : TypeRegistry σ) (n m : Node σ) : Prop :=
  ∃ target id s, ((n.convertTo r target id).run s).value = .ok m

/-! ### Binding once -/

/-- What binding comes to: a tree of single layers, or there was no conversion. -/
def Settled (r : TypeRegistry σ) (target : TypeKey) (n : Node σ) : Outcome (Node σ) → Prop
  | .ok m => m.EachConverted (Layer r)
  | .error _ => r.converts n.type target = false

/-- What a conversion that a node has of its own comes to: a tree of single layers; or nothing, and
then an edge may be put around the node if there is one. -/
def Prepared (r : TypeRegistry σ) (target : TypeKey) (n : Node σ) : Option (Node σ) → Prop
  | some m => m.EachConverted (Layer r)
  | none => n.isConverted = false ∨ r.edge? n.type target = none

/-- Where a node will not do and has no edge, there is no conversion. -/
theorem converts_eq_false (hassign : r.isAssignable n.type target = false)
    (hedge : r.edge? n.type target = none) : r.converts n.type target = false := by
  rw [TypeRegistry.converts, hassign, hedge]
  rfl

theorem settle_settled (hr : r.Reachable) (hn : n.EachConverted (Layer r)) (id : NodeId)
    {own : HostM σ (Option (Node σ))} (hown : own.Yields (Prepared r target n)) :
    (settle r target id n own).Yields (Settled r target n) := by
  unfold settle
  split
  case isTrue => exact .pure hn
  case isFalse hassign =>
    rw [Bool.not_eq_true] at hassign
    refine .bind hown fun out hout => ?_
    cases out with
    | some m => exact .pure hout
    | none =>
      cases hedge : r.edge? n.type target with
      | none => exact .pure (converts_eq_false hassign hedge)
      | some edge =>
        obtain rfl := hr.edge?_target hedge
        have hflat := hout.resolve_right fun hnone => nomatch hnone.symm.trans hedge
        exact .pure (.converted hn ⟨hflat, edge, hedge⟩)

section Sealed
variable (hr : r.Reachable) (hsealed : r.isSealed = true)
include hr hsealed

/-- A converted node cannot be bound anew where what it was made of cannot. -/
theorem edge?_eq_none_of_source {source : Node σ} {edge : Edge σ}
    (hfound : ∃ found, r.edge? source.type edge.target = some found)
    (hsource : r.converts source.type target = false) : r.edge? edge.target target = none := by
  obtain ⟨found, hfound⟩ := hfound
  refine Option.eq_none_iff_forall_ne_some.mpr fun next hnext => ?_
  rw [hr.converts_of_edges hsealed hfound hnext] at hsource
  exact nomatch hsource

theorem convertSelf_prepared (hn : n.EachConverted (Layer r)) (id : NodeId) :
    (convertSelf r target id n).Yields (Prepared r target n) := by
  induction hn generalizing id with
  | literal =>
    unfold convertSelf
    split
    · refine .bind .trivial fun out _ => .pure ?_
      cases out with
      | none => exact .inl rfl
      | some vs => exact .literal
    · exact .pure (.inl rfl)
  | list hn ih =>
    unfold convertSelf
    have hall := convertAll_each (R := fun _ m => m.EachConverted (Layer r)) (fun c hc id =>
      (settle_settled hr (hn c hc) id (ih c hc id)).mono fun out hout m hm => by
        subst hm
        exact hout) id 0
    refine .bind hall fun out hout => .pure ?_
    cases out with
    | none => exact .inl rfl
    | some cs => exact .list (forall_right (hout cs rfl) fun _ _ hc => hc)
  | converted hn hlayer ih =>
    unfold convertSelf
    refine .bind (settle_settled hr hn id (ih id)) fun out hout => .pure ?_
    cases out with
    | ok m => exact hout
    | error _ => exact .inr (edge?_eq_none_of_source hr hsealed hlayer.found hout)
  | property | eventValue | snapshot | memoized | host =>
    unfold convertSelf
    exact .pure (.inl rfl)

/-- **Binding once** gives a tree of single layers, or there was no conversion. -/
theorem convertTo_settled (hn : n.EachConverted (Layer r)) (id : NodeId) :
    (n.convertTo r target id).Yields (Settled r target n) :=
  settle_settled hr hn id (convertSelf_prepared hr hsealed hn id)

/-- A converted node that will not do is bound as what it was made of. -/
theorem convertTo_converted {id : NodeId} {source : Node σ} {edge : Edge σ}
    (hn : (Node.converted id source edge).EachConverted (Layer r))
    (hassign : r.isAssignable edge.target target = false) (name : NodeId) (s : σ) :
    (((Node.converted id source edge).convertTo r target name).run s).value = .ok m ↔
      ((source.convertTo r target name).run s).value = .ok m := by
  obtain ⟨hsource, hlayer⟩ : source.EachConverted (Layer r) ∧ Layer r source edge := by
    cases hn with
    | converted hsource hlayer => exact ⟨hsource, hlayer⟩
  have hsettled : Settled r target source _ := convertTo_settled hr hsealed hsource name s
  rw [convertTo, settle, type, if_neg (ne_true_of_eq_false hassign), convertSelf]
  simp only [HostM.run_bind, bind_assoc, pure_bind]
  cases hout : ((source.convertTo r target name).run s).value with
  | ok _ =>
    rw [convertTo] at hout
    rw [hout]
    rfl
  | error x =>
    rw [hout] at hsettled
    rw [convertTo] at hout
    rw [hout, edge?_eq_none_of_source hr hsealed hlayer.found hsettled]
    simp [Except.toOption]

/-! ### Binding again and again -/

/-- **Trees stay flat.** A flat tree that was bound to types by a sealed registry is flat, and bound
by that registry, whatever types it is bound to one after the other; and whenever a converted node
among these trees will not do, it is bound as what it was made of. -/
theorem binding_flat (hflat : n.Flat) (hbound : n.BoundBy r)
    (hbinds : Relation.ReflTransGen (BindsTo r) n m) : m.Flat ∧ m.BoundBy r ∧
      ∀ id source edge, m = .converted id source edge →
        ∀ target, r.isAssignable edge.target target = false → ∀ name s k,
          ((m.convertTo r target name).run s).value = .ok k ↔
            ((source.convertTo r target name).run s).value = .ok k := by
  have hlayers : m.EachConverted (Layer r) := by
    induction hbinds with
    | refl => exact layers_of_flat hflat hbound
    | tail _ hstep ih =>
      obtain ⟨target, id, s, hm⟩ := hstep
      have hsettled : Settled r target _ _ := convertTo_settled hr hsealed ih id s
      rw [hm] at hsettled
      exact hsettled
  refine ⟨hlayers.mono fun _ _ hlayer => hlayer.flat, hlayers.mono fun _ _ hlayer => hlayer.found,
    ?_⟩
  rintro id source edge rfl target hassign name s k
  exact convertTo_converted hr hsealed hlayers hassign name s

end Sealed

/-! The player of an event as an integer, and the same player, kept. -/

def playerAsInteger : Node Unit :=
  .converted ⟨[4]⟩ thePlayer (TypeRegistry.relabel "player" "integer")

def playerTwice : Node Unit :=
  ofChildren ⟨[5]⟩ [playerAsInteger, .memoized ⟨[6]⟩ thePlayer] .and

/-- They are bound to texts, and then to integers, though no text converts to an integer. -/
theorem playerTwice_flat : ∃ s texts integers, TypeRegistry.chained.sealed = .ok s ∧
    ((playerTwice.convertTo s ⟨"text"⟩ ⟨[7]⟩).run ()).value = .ok texts ∧
    ((texts.convertTo s ⟨"integer"⟩ ⟨[8]⟩).run ()).value = .ok integers ∧
    s.converts ⟨"text"⟩ ⟨"integer"⟩ = false ∧ integers.Flat ∧ integers.BoundBy s := by
  obtain ⟨s, texts, integers, hs, hsealed, htexts, hintegers, hnot, hfound⟩ :
    ∃ s texts integers, TypeRegistry.chained.sealed = .ok s ∧ s.isSealed = true ∧
      ((playerTwice.convertTo s ⟨"text"⟩ ⟨[7]⟩).run ()).value = .ok texts ∧
      ((texts.convertTo s ⟨"integer"⟩ ⟨[8]⟩).run ()).value = .ok integers ∧
      s.converts ⟨"text"⟩ ⟨"integer"⟩ = false ∧ s.edge? ⟨"player"⟩ ⟨"integer"⟩ =
        some (TypeRegistry.relabel "player" "integer") :=
    ⟨_, _, _, rfl, rfl, rfl, rfl, by decide, rfl⟩
  have heach : ∀ P, P thePlayer (TypeRegistry.relabel "player" "integer") →
      playerTwice.EachConverted P := by
    refine fun P hP => .list fun c hc => ?_
    rcases List.mem_pair.mp hc with rfl | rfl
    · exact .converted .eventValue hP
    · exact .memoized .eventValue
  obtain ⟨hflat, hbound, _⟩ := binding_flat (TypeRegistry.chained_reachable.step (.sealed hs))
    hsealed (heach _ rfl) (heach _ ⟨_, hfound⟩)
    (.tail (.single ⟨_, _, _, htexts⟩) ⟨_, _, _, hintegers⟩)
  exact ⟨s, texts, integers, hs, htexts, hintegers, hnot, hflat, hbound⟩

end Node

end ScriptEngine

import ScriptEngine.Grammar.Registry
import ScriptEngine.Proofs.Agreement

/-! Which expressions are offered, and which nodes can be bound.

Where values of some types are wanted, the grammar offers the expressions whose declared type
converts to one of these types, without a look at any node. Binding converts the node that was
built, objects one by one and lists node by node. For trees of lists and leaves (`Node.Plain`) the
two come to the same, whatever the tree (`convertTo_ok_iff`), so `expressionsFor_offers` says what
the offer is worth: an expression of a type is offered exactly if any one node of the type, and so
every one, can be bound. -/
namespace ScriptEngine
variable {σ : Type}

/-! ### Plain nodes -/

namespace Node
variable {r : TypeRegistry σ} {target : TypeKey} {n : Node σ}

/-- A tree of lists over leaves. -/
inductive Plain : Node σ → Prop where
  | leaf {leaf} : isLeaf leaf = true → Plain leaf
  | list {id children q} : (∀ c ∈ children, Plain c) → Plain (ofChildren id children q)

/-- The conversion that a node has of its own gives a node only where the type of the node converts
anyway. -/
def Covered (r : TypeRegistry σ) (target : TypeKey) (n : Node σ) (own : Option (Node σ)) : Prop :=
  own.isSome = true → r.converts n.type target = true

/-- So a node is converted exactly if its type converts. -/
theorem settle_ok_iff (id : NodeId) {own : HostM σ (Option (Node σ))}
    (hown : own.Yields (Covered r target n)) :
    (settle r target id n own).Yields fun out =>
      (∃ m, out = .ok m) ↔ r.converts n.type target = true := by
  unfold settle
  split
  case isTrue hassign =>
    exact .pure ⟨fun _ => by rw [TypeRegistry.converts, hassign]; rfl, fun _ => ⟨n, rfl⟩⟩
  case isFalse hassign =>
    refine .bind hown fun out hout => ?_
    cases out with
    | some m => exact .pure ⟨fun _ => hout rfl, fun _ => ⟨m, rfl⟩⟩
    | none =>
      rw [Bool.not_eq_true] at hassign
      have hconverts : r.converts n.type target = (r.edge? n.type target).isSome := by
        rw [TypeRegistry.converts, hassign, Bool.false_or]
      rw [hconverts]
      cases r.edge? n.type target with
      | none =>
        refine .pure ⟨?_, fun h => absurd h Bool.false_ne_true⟩
        rintro ⟨m, hm⟩
        cases hm
      | some edge => exact .pure ⟨fun _ => rfl, fun _ => ⟨.converted id n edge, rfl⟩⟩

/-- All of some nodes are converted only if all of their types convert. -/
theorem convertAll_covered {children : List (Node σ)}
    (hown : ∀ c ∈ children, ∀ id, (convertSelf r target id c).Yields (Covered r target c))
    (id : NodeId) (place : Nat) : (convertAll r target id place children).Yields fun out =>
      out.isSome = true → ∀ c ∈ children, r.converts c.type target = true := by
  have hall := convertAll_each (R := fun c _ => r.converts c.type target = true) (fun c hc id =>
    (settle_ok_iff id (hown c hc id)).mono fun out hout m hm => hout.mp ⟨m, hm⟩) id place
  refine hall.mono fun out hout hsome => ?_
  obtain ⟨cs, hcs⟩ := Option.isSome_iff_exists.mp hsome
  exact forall_left (hout cs hcs) fun _ _ hc => hc

theorem Plain.covered (hn : n.Plain) (htype : n.type ≠ .object) (id : NodeId) :
    (convertSelf r target id n).Yields (Covered r target n) := by
  induction hn generalizing id with
  | leaf hleaf =>
    rw [convertSelf_leaf hleaf htype]
    exact .pure fun h => absurd h Bool.false_ne_true
  | @list _ children _ _ ih =>
    have htypes := type_of_commonType htype
    unfold ofChildren convertSelf
    refine .bind (convertAll_covered (fun c hc => ih c hc (htypes c hc ▸ htype)) id 0)
      fun out hout => .pure fun hsome => ?_
    rw [Option.isSome_map] at hsome
    -- A list without nodes is of the universal type.
    obtain ⟨c, hc⟩ := List.exists_mem_of_ne_nil children fun hnil => htype (by rw [hnil]; rfl)
    exact htypes c hc ▸ hout hsome c hc

/-- A plain node that is not of the universal type can be converted exactly if its type converts. -/
theorem Plain.convertTo_ok_iff (hn : n.Plain) (htype : n.type ≠ .object) (id : NodeId) (s : σ) :
    (∃ m, ((n.convertTo r target id).run s).value = .ok m) ↔ r.converts n.type target = true :=
  settle_ok_iff id (hn.covered htype id) s

end Node

/-! ### Offers -/

namespace Grammar

/-- What it is worth that an expression is offered, or is not, where values of some types are
wanted. -/
structure Offers (r : TypeRegistry σ) (wanted : List TypeKey) (c : Construct σ) (offered : Bool) :
    Prop where
  /-- What yields no values is not offered. -/
  untyped : c.form.type? = none → offered = false
  /-- An expression that may yield anything is. -/
  universal : c.form.type? = some .object → offered = true
  /-- Any other one is exactly if a node of its type can be bound to one of the types, whatever the
  node is built of. -/
  bindable : ∀ type, c.form.type? = some type → type ≠ .object → ∀ n : Node σ, n.Plain →
    n.type = type → ∀ id s, offered = true ↔
      ∃ target ∈ wanted, ∃ m, ((n.convertTo r target id).run s).value = .ok m

theorem canYield_offers (r : TypeRegistry σ) (wanted : List TypeKey) (c : Construct σ) :
    Offers r wanted c (canYield r wanted c) where
  untyped h := by rw [canYield, h]
  universal h := by
    rw [canYield, h]
    rfl
  bindable type h htype n hn hnode id s := by
    have hobject : type.isObject = false := beq_eq_false_iff_ne.mpr htype
    subst hnode
    simp only [canYield, h, hobject, Bool.false_or, List.any_eq_true, hn.convertTo_ok_iff htype]

/-- **An offer can be bound.** Of all expressions those that can be bound are offered, each once and
in the order in which expressions are tried. -/
theorem expressionsFor_offers (g : Grammar σ) (r : TypeRegistry σ) (wanted : List TypeKey) :
    ∃ offered : Construct σ → Bool, g.expressionsFor wanted r = g.expressions.filter offered ∧
      ∀ c ∈ g.expressions, Offers r wanted c (offered c) :=
  ⟨canYield r wanted, rfl, fun c _ => canYield_offers r wanted c⟩

/-- An expression that yields a value of a type. -/
def yielding (name : String) (type : TypeKey) : Construct Unit :=
  ⟨name, .expression .simple type, [name], fun m =>
    return .ok (.expression (.literal m.id type [⟨type, .i64 1⟩] .and))⟩

def anything : Construct Unit := yielding "anything" .object

def player : Construct Unit := yielding "player" ⟨"player"⟩

def entity : Construct Unit := yielding "entity" ⟨"entity"⟩

/-- Expressions for anything, for players and for entities. -/
def wordings : Grammar Unit := ((Grammar.initial.insert anything).insert player).insert entity

/-- A player, kept, beside two more in a list of their own. -/
def threePlayers : Node Unit :=
  .ofChildren ⟨[1]⟩ [.memoized ⟨[2]⟩ Node.thePlayer,
    .ofChildren ⟨[3]⟩ [.literal ⟨[4]⟩ ⟨"player"⟩ [⟨⟨"player"⟩, .i64 2⟩] .and, Node.thePlayer] .and]
    .and

theorem threePlayers_plain : threePlayers.Plain := by
  refine .list fun c hc => ?_
  rcases List.mem_pair.mp hc with rfl | rfl
  · exact .leaf rfl
  · refine .list fun c hc => ?_
    rcases List.mem_pair.mp hc with rfl | rfl <;> exact .leaf rfl

/-- Where a text is wanted, a player is offered and the three players can be bound to texts. An
entity is not offered and cannot be bound. -/
theorem wordings_offers : ∃ s, TypeRegistry.chained.sealed = .ok s ∧
    wordings.expressionsFor [⟨"text"⟩] s = [anything, player] ∧
    (∃ m, ((threePlayers.convertTo s ⟨"text"⟩ ⟨[5]⟩).run ()).value = .ok m) ∧
    ¬∃ m, (((Node.literal ⟨[6]⟩ ⟨"entity"⟩ [] .and).convertTo s ⟨"text"⟩ ⟨[7]⟩).run ()).value =
      .ok m := by
  obtain ⟨s, hs, hlist⟩ : ∃ s, TypeRegistry.chained.sealed = .ok s ∧
      wordings.expressionsFor [⟨"text"⟩] s = [anything, player] := ⟨_, rfl, rfl⟩
  obtain ⟨offered, hoffered, hoffers⟩ := expressionsFor_offers wordings s [⟨"text"⟩]
  have hmem : ∀ c, c ∈ wordings.expressions ∧ offered c = true ↔ c ∈ [anything, player] :=
    fun c => by rw [← hlist, hoffered, List.mem_filter]
  have hexpressions : wordings.expressions = [anything, player, entity] := rfl
  rw [hexpressions] at hmem hoffers
  have hplayer := ((hoffers player (by simp)).bindable _ rfl (by decide) threePlayers
    threePlayers_plain rfl ⟨[5]⟩ ()).mp ((hmem player).mpr (by simp)).2
  have hentity := (hoffers entity (by simp)).bindable _ rfl (by decide)
    (.literal ⟨[6]⟩ ⟨"entity"⟩ [] .and) (.leaf rfl) rfl ⟨[7]⟩ ()
  obtain ⟨target, htarget, hbound⟩ := hplayer
  rw [List.mem_singleton.mp htarget] at hbound
  refine ⟨s, hs, hlist, hbound, fun hbound => ?_⟩
  have hoffered := (hmem entity).mp
    ⟨by simp, hentity.mpr ⟨⟨"text"⟩, List.mem_singleton_self _, hbound⟩⟩
  rcases List.mem_pair.mp hoffered with h | h
  · exact absurd (congrArg (·.name) h) (by decide)
  · exact absurd (congrArg (·.name) h) (by decide)

end Grammar

end ScriptEngine

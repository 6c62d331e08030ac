import ScriptEngine.Proofs.Candidates
import ScriptEngine.Proofs.Rebinding

/-! Converting nodes whose values are kept.

A node that keeps the values of another one is of the type of the other, but it has no conversion
of its own, even if the other has one. So it is converted by its type alone: where the type
converts, by the edge of the type; where it does not, the kept node is refused, although what it
keeps may be converted object by object, node by node, or from what it was made of
(`memoized_converted`). Where both are converted, they yield the same if what is kept has no
conversion of its own, or is a list of nodes of its type: the nodes are converted by one edge then,
the edge of the list. -/
namespace ScriptEngine.Node
variable {σ : Type} {r : TypeRegistry σ} {target : TypeKey} {s : σ} {ctx : ContextId} {w : World σ}
  {n m k : Node σ} {id kept : NodeId}

/-! ### What a node is converted to -/

/-- The conversion that a node has of its own, in a state of the host. -/
def own? (r : TypeRegistry σ) (target : TypeKey) (id : NodeId) (s : σ) (n : Node σ) :
    Option (Node σ) :=
  ((convertSelf r target id n).run s).value

/-- What a node is converted to, in a state of the host. -/
def becomes? (r : TypeRegistry σ) (target : TypeKey) (id : NodeId) (s : σ) (n : Node σ) :
    Option (Node σ) :=
  ((n.convertTo r target id).run s).value.toOption

theorem becomes?_eq_some : n.becomes? r target id s = some m ↔
    ((n.convertTo r target id).run s).value = .ok m := by
  rw [becomes?]
  cases ((n.convertTo r target id).run s).value <;> simp [Except.toOption]

theorem becomes?_eq (n : Node σ) : n.becomes? r target id s =
    if r.isAssignable n.type target then some n
    else (n.own? r target id s).or ((r.edge? n.type target).map (.converted id n)) := by
  rw [becomes?, convertTo, settle, own?]
  split
  · rfl
  · rw [HostM.run_bind]
    dsimp only
    cases ((convertSelf r target id n).run s).value with
    | some m => rfl
    | none => cases r.edge? n.type target <;> rfl

/-- A node is converted if its type is, or if it has a conversion of its own. -/
theorem becomes?_isSome (n : Node σ) : (n.becomes? r target id s).isSome =
    (r.converts n.type target || (n.own? r target id s).isSome) := by
  rw [becomes?_eq, TypeRegistry.converts]
  cases r.isAssignable n.type target with
  | true => rfl
  | false => simp [Bool.or_comm]

theorem becomes?_of_none (hown : n.own? r target id s = none) : n.becomes? r target id s =
    if r.isAssignable n.type target then some n
    else (r.edge? n.type target).map (.converted id n) := by
  rw [becomes?_eq, hown, Option.none_or]

/-- A kept node has no conversion of its own. -/
theorem own?_memoized (n : Node σ) : (Node.memoized kept n).own? r target id s = none := by
  unfold own? convertSelf
  rfl

theorem becomes?_memoized_isSome (n : Node σ) :
    ((Node.memoized kept n).becomes? r target id s).isSome = r.converts n.type target := by
  rw [becomes?_isSome, own?_memoized, Option.isSome_none, Bool.or_false, type]

/-! ### What it yields then -/

/-- What the edge from one type to another makes of a value, in a state of the host. -/
def byEdge (r : TypeRegistry σ) (source target : TypeKey) (s : σ) (v : Value) : Option Value :=
  (r.edge? source target).bind fun e => ((e.apply v).run s).value

section Pure
variable (hr : r.Reachable) (hpure : ∀ e ∈ r.registered, e.Pure)
include hr hpure

theorem gives_converted {e : Edge σ} (he : r.edge? n.type target = some e) (id : NodeId) :
    Gives (byEdge r n.type target s) (.converted id n e) n := by
  have hmakes : byEdge r n.type target s = fun v => ((e.apply v).run s).value := by
    funext v
    rw [byEdge, he]
    rfl
  rw [hmakes]
  exact Gives.converted (hr.edge?_pure hpure he) s id n

/-- Where the conversion that a node has of its own makes of its values what the edge of its type
makes of them, so does every conversion of the node. -/
theorem settle_gives (hforeign : r.isAssignable n.type target = false) (id : NodeId)
    {own : HostM σ (Option (Node σ))}
    (hown : own.Yields fun out => ∀ m ∈ out, Gives (byEdge r n.type target s) m n) :
    (settle r target id n own).Yields fun out =>
      ∀ m, out = .ok m → Gives (byEdge r n.type target s) m n := by
  unfold settle
  rw [if_neg (ne_true_of_eq_false hforeign)]
  refine .bind hown fun out hout => ?_
  cases out with
  | some m => exact .pure fun m' hm' => Except.ok.inj hm' ▸ hout m rfl
  | none =>
    cases he : r.edge? n.type target with
    | some e => exact .pure fun m hm => Except.ok.inj hm ▸ gives_converted hr hpure he id
    | none => exact .pure fun _ h => nomatch h

/-- A plain node of a type is converted by the edge of its type, node by node: its nodes are of the
same type. -/
theorem Plain.convertTo_gives (hn : n.Plain) (htype : n.type ≠ .object)
    (hforeign : r.isAssignable n.type target = false) (id : NodeId) :
    (n.convertTo r target id).Yields fun out =>
      ∀ m, out = .ok m → Gives (byEdge r n.type target s) m n := by
  induction hn generalizing id with
  | leaf hleaf =>
    refine settle_gives hr hpure hforeign id ?_
    rw [convertSelf_leaf hleaf htype]
    exact .pure fun _ h => absurd h (Option.not_mem_none _)
  | @list _ children _ _ ih =>
    have htypes := type_of_commonType htype
    have hall := convertAll_each
      (R := fun c m => Gives (byEdge r (commonType children) target s) m c) (fun c hc id => by
        have hgives := ih c hc (htypes c hc ▸ htype) (htypes c hc ▸ hforeign) id
        rwa [htypes c hc] at hgives) id 0
    refine settle_gives hr hpure hforeign id ?_
    unfold ofChildren convertSelf
    refine .bind hall fun out hout => .pure fun m hm => ?_
    obtain ⟨ms, hms, rfl⟩ := Option.map_eq_some_iff.mp hm
    exact Gives.list (hout ms hms).flip _ _ _ _ _ _

/-- What is converted by its type alone, or is plain and of a type, yields what the edge of the type
makes of its values. -/
theorem array_becomes (hown : n.own? r target id s = none ∨ n.Plain ∧ n.type ≠ .object)
    (hforeign : r.isAssignable n.type target = false) (hm : n.becomes? r target id s = some m)
    (hw : w.memo? ctx = none) (s' : σ) : ((m.array ctx).run w).1 =
      ((n.array ctx).run w).1.filterMap (byEdge r n.type target s') := by
  have hgives : Gives (byEdge r n.type target s') m n := by
    rcases hown with hown | ⟨hn, htype⟩
    · rw [becomes?_of_none hown, if_neg (ne_true_of_eq_false hforeign)] at hm
      obtain ⟨e, he, rfl⟩ := Option.map_eq_some_iff.mp hm
      exact gives_converted hr hpure he id
    · exact hn.convertTo_gives hr hpure htype hforeign id s m (becomes?_eq_some.mp hm)
  exact (hgives ctx w w (.refl hw)).1

end Pure

theorem run_array_kept (hw : w.memo? ctx = none) :
    ((Node.memoized kept n).array ctx).run w = (n.array ctx).run w := by
  rw [run_array_memoized, Eval.memoized_uncached hw]

/-- What a kept node is converted to yields the values of the node, or what the edge of its type makes
of them. -/
theorem array_becomes_kept (hr : r.Reachable) (hpure : ∀ e ∈ r.registered, e.Pure)
    (hk : (Node.memoized kept n).becomes? r target id s = some k) (hw : w.memo? ctx = none)
    (s' : σ) : ((k.array ctx).run w).1 =
      if r.isAssignable n.type target then ((n.array ctx).run w).1
      else ((n.array ctx).run w).1.filterMap (byEdge r n.type target s') := by
  cases hassign : r.isAssignable n.type target with
  | true =>
    rw [becomes?_eq, type, if_pos hassign] at hk
    rw [if_pos rfl, ← Option.some.inj hk, run_array_kept hw]
  | false =>
    have hvalues := array_becomes hr hpure (.inl (own?_memoized n)) hassign hk hw s'
    rw [run_array_kept hw] at hvalues
    rw [if_neg Bool.false_ne_true]
    exact hvalues

/-! ### Kept or not -/

/-- What a node is converted to, next to what it is converted to if it is kept. -/
structure KeptConversion (r : TypeRegistry σ) (target : TypeKey) (id kept : NodeId) (s : σ)
    (n : Node σ) : Prop where
  /-- The kept node is converted exactly if its type converts, -/
  byType : ((Node.memoized kept n).becomes? r target id s).isSome = r.converts n.type target
  /-- the node itself also if it has a conversion of its own, -/
  byItself : (n.becomes? r target id s).isSome =
    (r.converts n.type target || (n.own? r target id s).isSome)
  /-- which is no difference to a tree of lists over leaves that has a type. -/
  plain : n.Plain → n.type ≠ .object →
    ((Node.memoized kept n).becomes? r target id s).isSome = (n.becomes? r target id s).isSome
  /-- If it is converted, the kept node yields its values, or what the edge of its type makes of
  them. -/
  yields : r.Reachable → (∀ e ∈ r.registered, e.Pure) → ∀ k,
    (Node.memoized kept n).becomes? r target id s = some k →
      ∀ ctx w, w.memo? ctx = none → ∀ s', ((k.array ctx).run w).1 =
        if r.isAssignable n.type target then ((n.array ctx).run w).1
        else ((n.array ctx).run w).1.filterMap (byEdge r n.type target s')
  /-- So does the node itself, if it has no conversion of its own, or is such a tree. -/
  same : r.Reachable → (∀ e ∈ r.registered, e.Pure) →
    n.own? r target id s = none ∨ n.Plain ∧ n.type ≠ .object → ∀ m k,
      n.becomes? r target id s = some m → (Node.memoized kept n).becomes? r target id s = some k →
        ∀ ctx w, w.memo? ctx = none → ((k.array ctx).run w).1 = ((m.array ctx).run w).1

/-- **A kept node has the conversions of its type, and no other.** The node that is kept may have a
conversion of its own where its type has none; then it is converted, and refused where it is kept.
Where both are converted, they yield the same unless the node's own conversion is another one than
that of its type; of trees of lists over leaves of a type, it is the same. -/
theorem memoized_converted (r : TypeRegistry σ) (target : TypeKey) (id kept : NodeId) (s : σ)
    (n : Node σ) : KeptConversion r target id kept s n where
  byType := becomes?_memoized_isSome n
  byItself := becomes?_isSome n
  plain hn htype := by
    rw [becomes?_memoized_isSome, Bool.eq_iff_iff, ← hn.convertTo_ok_iff htype id s,
      Option.isSome_iff_exists]
    simp only [becomes?_eq_some]
  yields hr hpure k hk ctx w hw s' := array_becomes_kept hr hpure hk hw s'
  same hr hpure hown m k hm hk ctx w hw := by
    rw [array_becomes_kept hr hpure hk hw s]
    cases hassign : r.isAssignable n.type target with
    | true =>
      rw [becomes?_eq, if_pos hassign] at hm
      rw [if_pos rfl, Option.some.inj hm]
    | false =>
      rw [if_neg Bool.false_ne_true]
      exact (array_becomes hr hpure hown hassign hm hw s).symm

def twoPlayers : Node Unit :=
  ofChildren ⟨[1]⟩ [.literal ⟨[2]⟩ ⟨"player"⟩ [⟨⟨"player"⟩, .i64 5⟩] .and,
    .literal ⟨[3]⟩ ⟨"player"⟩ [⟨⟨"player"⟩, .i64 6⟩] .and] .and

theorem twoPlayers_plain : twoPlayers.Plain := by
  refine .list fun c hc => ?_
  rcases List.mem_pair.mp hc with rfl | rfl <;> exact .leaf rfl

/-- Kept or not, the even player becomes a text and the odd one is lost. -/
theorem twoPlayers_converted : ∃ s m k, halved.sealed = .ok s ∧
    twoPlayers.becomes? s ⟨"text"⟩ ⟨[4]⟩ () = some m ∧
    (Node.memoized ⟨[5]⟩ twoPlayers).becomes? s ⟨"text"⟩ ⟨[4]⟩ () = some k ∧
    numbers ((k.array ⟨0⟩).run (World.start ())).1 = [3] ∧
    ((k.array ⟨0⟩).run (World.start ())).1 = ((m.array ⟨0⟩).run (World.start ())).1 := by
  obtain ⟨s, m, k, hs, hm, hk, hvalues⟩ : ∃ s m k, halved.sealed = .ok s ∧
      twoPlayers.becomes? s ⟨"text"⟩ ⟨[4]⟩ () = some m ∧
      (Node.memoized ⟨[5]⟩ twoPlayers).becomes? s ⟨"text"⟩ ⟨[4]⟩ () = some k ∧
      numbers ((k.array ⟨0⟩).run (World.start ())).1 = [3] :=
    ⟨_, _, _, rfl, rfl, rfl, by decide⟩
  have hpure : ∀ e ∈ s.registered, e.Pure :=
    (TypeRegistry.sealed_extends hs).registered ▸ halved_pure
  have hconverted := memoized_converted s ⟨"text"⟩ ⟨[4]⟩ ⟨[5]⟩ () twoPlayers
  exact ⟨s, m, k, hs, hm, hk, hvalues, hconverted.same (halved_reachable.step (.sealed hs)) hpure
    (.inr ⟨twoPlayers_plain, by decide⟩) m k hm hk ⟨0⟩ _ rfl⟩

/-- A player converts to a text in one step too. -/
def bypassed : TypeRegistry Unit := .players [TypeRegistry.relabel "player" "integer", halving,
  TypeRegistry.relabel "player" "text"]

theorem bypassed_reachable : bypassed.Reachable :=
  halved_reachable.step (.edge (e := TypeRegistry.relabel "player" "text") rfl)

/-- Players and numbers convert to texts one by one, but not where they are kept. And a player who
is an integer converts to a text as a player, but where the integer is kept, as an integer. -/
theorem playersAndNumber_refused : ∃ s s', halved.Reachable ∧ halved.sealed = .ok s ∧
    (playersAndNumber.becomes? s ⟨"text"⟩ ⟨[6]⟩ ()).isSome = true ∧
    ((Node.memoized ⟨[7]⟩ playersAndNumber).becomes? s ⟨"text"⟩ ⟨[6]⟩ ()).isSome = false ∧
    bypassed.Reachable ∧ bypassed.sealed = .ok s' ∧
    ∃ m k, playerAsInteger.becomes? s' ⟨"text"⟩ ⟨[6]⟩ () = some m ∧
      (Node.memoized ⟨[7]⟩ playerAsInteger).becomes? s' ⟨"text"⟩ ⟨[6]⟩ () = some k ∧
      numbers ((m.array ⟨0⟩).run (World.start ())).1 = [1] ∧
      ((k.array ⟨0⟩).run (World.start ())).1 = [] :=
  ⟨_, _, halved_reachable, rfl, rfl, rfl, bypassed_reachable, rfl, _, _, rfl, rfl, by decide, rfl⟩

end ScriptEngine.Node

import ScriptEngine.Proofs.Agreement
import ScriptEngine.Proofs.Shapes

/-! Comparing two values either way round.

Each comparator of a registry is about one type and turns its relation when its two values are
exchanged, and conversions are pure (`Impartial`). What a registry says may still depend on which
value stands on the left: the supertypes of the left type count first, and the right value is
converted before the left one is. So each of two values has its own side of the matter (`said?`),
and the relation is that of the left one's side if it says anything, else that of the right one's,
turned (`compare_said`). `Impartial.evenhanded` says when the two ways round agree: exactly if the
two sides do, and always where no supertypes compete and values are not converted both ways. -/
namespace ScriptEngine

/-! ### Comparators -/

namespace Comparator
variable {σ : Type}

/-- A comparator is about one type, and turns its relation when its two values are exchanged. -/
structure Mirrors (c : Comparator σ) : Prop where
  ends : c.left = c.right
  relation : ∀ a b s, ((c.compare a b).run s).value = ((c.compare b a).run s).value.inverse

/-- Where a function turns its relation, its comparator does. -/
theorem mirrors_of_relate {key : TypeKey} {shape : Shape}
    {relate : shape.Carrier → shape.Carrier → HostM σ Relation}
    (h : ∀ x y s, ((relate x y).run s).value = ((relate y x).run s).value.inverse) :
    (Comparator.mk key key shape shape relate).Mirrors := by
  refine ⟨rfl, fun a b s => ?_⟩
  simp only [compare]
  cases a.as? shape with
  | none => cases b.as? shape <;> rfl
  | some x =>
    cases b.as? shape with
    | none => rfl
    | some y => exact h x y s

end Comparator

namespace TypeRegistry
variable {σ : Type} {r : TypeRegistry σ} {a b k : TypeKey} {c : Comparator σ}

/-! ### The nearest comparator -/

/-- Neither a type nor any of its supertypes declares two supertypes. -/
def SingleLine (r : TypeRegistry σ) (a : TypeKey) : Prop :=
  ∀ k ∈ r.lineage a, (r.declared k).length ≤ 1

instance (r : TypeRegistry σ) (a : TypeKey) : Decidable (r.SingleLine a) :=
  inferInstanceAs (Decidable (∀ k ∈ r.lineage a, (r.declared k).length ≤ 1))

/-- Where a function has a value at one point at most, it has it in every list with the point. -/
theorem findSome?_at {α β : Type} [DecidableEq α] {f : α → Option β} {x : α}
    (hf : ∀ y, y ≠ x → f y = none) (points : List α) :
    points.findSome? f = if x ∈ points then f x else none := by
  induction points with
  | nil => rfl
  | cons y rest ih =>
    by_cases hy : y = x
    · subst hy
      rw [if_pos (List.mem_cons_self ..), List.findSome?_cons, ih]
      cases f y <;> simp
    · rw [List.findSome?_cons, hf y hy, ih]
      simp [Ne.symm hy]

theorem comparator?_eq_some {x y : TypeKey} (h : r.comparator? x y = some c) :
    c ∈ r.comparators ∧ c.left = x ∧ c.right = y :=
  ⟨List.mem_of_find?_eq_some h, by simpa using List.find?_some h⟩

theorem SingleLine.declares_unique (hline : r.SingleLine a) {x y z : TypeKey}
    (hx : x ∈ r.lineage a) (hy : r.Declares x y) (hz : r.Declares x z) : y = z := by
  have hshort := hline x hx
  rw [Declares] at hy hz
  cases hlist : r.declared x with
  | nil =>
    rw [hlist] at hy
    exact absurd hy List.not_mem_nil
  | cons p rest =>
    rw [hlist, List.length_cons] at hshort
    have hrest : rest = [] := List.eq_nil_of_length_eq_zero (by omega)
    rw [hlist, hrest, List.mem_singleton] at hy hz
    exact hy.trans hz.symm

namespace WellFormed
variable (h : r.WellFormed)
include h

/-- Upwards from a type are the types that it is assignable to. -/
theorem mem_upwards : k ∈ r.lineage a ++ [TypeKey.object] ↔ r.isAssignable a k = true := by
  rw [h.isAssignable_iff, List.mem_append, h.mem_lineage, List.mem_singleton]
  exact or_comm

/-- In a single line, what is farther up is a supertype of all that is nearer. -/
theorem upwards_pairwise (hline : r.SingleLine a) :
    (r.lineage a ++ [TypeKey.object]).Pairwise fun x y => r.isAssignable x y = true := by
  have htrail : Search.Trail (fun k => (r.declared k).map fun p => ((), p)) [a]
      (Search.search _ r.types.length a) := Search.search_trail ..
  have hunique : ∀ x, r.Inherits a x → ∀ y z, r.Declares x y → r.Declares x z → y = z :=
    fun x hx _ _ hy hz => hline.declares_unique (h.mem_lineage.mpr hx) hy hz
  have hchain := htrail.chain (arrow_eq_declares.symm ▸ hunique) fun _ hx => absurd hx List.not_mem_nil
  rw [arrow_eq_declares] at hchain
  refine List.pairwise_append.mpr ⟨hchain.imp fun hxy => ?_, List.pairwise_singleton .., ?_⟩
  · exact h.isAssignable_of_inherits hxy.to_reflTransGen
  · intro x _ y hy
    rw [List.mem_singleton.mp hy]
    exact r.isAssignable_object x

variable (hends : ∀ c ∈ r.comparators, c.left = c.right)
include hends

/-- Where each comparator is about one type, the nearest one of two types is that of the first type
above the left one that is above the right one as well and has a comparator. -/
theorem comparatorFor?_eq : r.comparatorFor? a b = (r.lineage a ++ [TypeKey.object]).findSome?
    fun x => if r.isAssignable b x = true then r.comparator? x x else none := by
  unfold comparatorFor?
  congr 1
  funext x
  have hother : ∀ y, y ≠ x → r.comparator? x y = none := fun y hy => by
    refine Option.eq_none_iff_forall_ne_some.mpr fun c hc => ?_
    obtain ⟨hmem, rfl, rfl⟩ := comparator?_eq_some hc
    exact hy (hends c hmem).symm
  rw [findSome?_at hother]
  simp only [h.mem_upwards]

/-- Two types have a comparator if one is about a type above both. -/
theorem comparatorFor?_isSome : (r.comparatorFor? a b).isSome = true ↔
    ∃ x, r.isAssignable a x = true ∧ r.isAssignable b x = true ∧
      (r.comparator? x x).isSome = true := by
  rw [h.comparatorFor?_eq hends, List.findSome?_isSome_iff]
  refine exists_congr fun x => ?_
  rw [h.mem_upwards]
  by_cases hb : r.isAssignable b x = true <;> simp [hb]

theorem comparatorFor?_eq_none_comm (hnone : r.comparatorFor? a b = none) :
    r.comparatorFor? b a = none := by
  rw [← Option.not_isSome_iff_eq_none, h.comparatorFor?_isSome hends] at hnone ⊢
  rintro ⟨x, hb, ha, hx⟩
  exact hnone ⟨x, ha, hb, hx⟩

/-- In a single line, the comparator that is found is about a subtype of every other type that could
be asked. -/
theorem comparatorFor?_nearest (hline : r.SingleLine a) (hc : r.comparatorFor? a b = some c) :
    ∃ x, r.isAssignable a x = true ∧ r.isAssignable b x = true ∧ r.comparator? x x = some c ∧
      ∀ y, r.isAssignable a y = true → r.isAssignable b y = true →
        (r.comparator? y y).isSome = true → r.isAssignable x y = true := by
  rw [h.comparatorFor?_eq hends, List.findSome?_eq_some_iff] at hc
  obtain ⟨before, x, after, hupwards, hx, hbefore⟩ := hc
  have hpairwise := h.upwards_pairwise hline
  rw [hupwards, List.pairwise_append, List.pairwise_cons] at hpairwise
  have ha : r.isAssignable a x = true := h.mem_upwards.mp (by simp [hupwards])
  split at hx
  · rename_i hb
    refine ⟨x, ha, hb, hx, fun y hay hby hy => ?_⟩
    have hmem := h.mem_upwards.mpr hay
    rw [hupwards, List.mem_append, List.mem_cons] at hmem
    rcases hmem with hmem | rfl | hmem
    · have hnone := hbefore y hmem
      rw [if_pos hby] at hnone
      rw [hnone] at hy
      exact nomatch hy
    · exact r.isAssignable_refl y
    · exact hpairwise.2.1.1 y hmem
  · exact nomatch hx

/-- In single lines the nearest comparator is the same either way round. -/
theorem comparatorFor?_comm (ha : r.SingleLine a) (hb : r.SingleLine b) :
    r.comparatorFor? a b = r.comparatorFor? b a := by
  cases hab : r.comparatorFor? a b with
  | none => exact (h.comparatorFor?_eq_none_comm hends hab).symm
  | some c =>
    cases hba : r.comparatorFor? b a with
    | none =>
      rw [h.comparatorFor?_eq_none_comm hends hba] at hab
      exact nomatch hab
    | some c' =>
      obtain ⟨x, hax, hbx, hx, hnearest⟩ := h.comparatorFor?_nearest hends ha hab
      obtain ⟨y, hby, hay, hy, hnearest'⟩ := h.comparatorFor?_nearest hends hb hba
      have hxy : x = y := h.isAssignable_antisymm
        (hnearest y hay hby (by rw [hy]; rfl)) (hnearest' x hbx hax (by rw [hx]; rfl))
      rw [← hx, ← hy, hxy]

end WellFormed

theorem comparatorFor?_mem (hc : r.comparatorFor? a b = some c) : c ∈ r.comparators := by
  obtain ⟨x, _, hinner⟩ := List.exists_of_findSome?_eq_some hc
  obtain ⟨y, _, hfound⟩ := List.exists_of_findSome?_eq_some hinner
  exact (comparator?_eq_some hfound).1

/-! ### The two sides -/

/-- What the side of the left value says, in a state of the host: what the nearest comparator does,
or else what that of the left type does, about the right value converted to this type. -/
def said? (r : TypeRegistry σ) (s : σ) (a b : Value) : Option Relation :=
  match r.comparatorFor? a.type b.type with
  | some c => some ((c.compare a b).run s).value
  | none => do
    let b' ← ((r.convertBy b a.type).run s).value
    let c ← r.comparatorFor? a.type a.type
    return ((c.compare a b').run s).value

/-- Where no comparator of two types is found, values that no edge converts leave the other side
silent. -/
theorem said?_of_edge {s : σ} {a b : Value} (hnone : r.comparatorFor? a.type b.type = none)
    (hedge : r.edge? b.type a.type = none) : r.said? s a b = none := by
  simp only [said?, hnone, convertBy, hedge]
  rfl

/-- Comparing two values the other way round turns their relation. -/
def Turns (r : TypeRegistry σ) (s : σ) (a b : Value) : Prop :=
  ((r.compare a b).run s).value = ((r.compare b a).run s).value.inverse

/-- Comparators turn their relations, and conversions are pure. -/
structure Impartial (r : TypeRegistry σ) : Prop where
  reachable : r.Reachable
  comparators : ∀ c ∈ r.comparators, c.Mirrors
  edges : ∀ e ∈ r.registered, e.Pure

/-- When comparing two values the other way round turns their relation, in a state of the host. -/
structure Evenhanded (r : TypeRegistry σ) (s : σ) (a b : Value) : Prop where
  /-- It does exactly if the sides of the two values agree where both say something. -/
  turns : r.Turns s a b ↔ ∀ x ∈ r.said? s a b, ∀ y ∈ r.said? s b a, x = y.inverse
  /-- It does for values of one type. -/
  same : a.type = b.type → r.Turns s a b
  /-- It does for values of types with single lines of supertypes that do not convert both ways. -/
  oneWay : r.SingleLine a.type → r.SingleLine b.type →
    (r.edge? a.type b.type = none ∨ r.edge? b.type a.type = none) → r.Turns s a b

namespace Impartial
variable (h : r.Impartial)
include h

theorem sealed {s : TypeRegistry σ} (hs : r.sealed = .ok s) : s.Impartial where
  reachable := h.reachable.step (.sealed hs)
  comparators := sealed_comparators hs ▸ h.comparators
  edges := (sealed_extends hs).registered ▸ h.edges

theorem ends : ∀ c ∈ r.comparators, c.left = c.right := fun c hc => (h.comparators c hc).ends

theorem mirrors (hc : r.comparatorFor? a b = some c) : c.Mirrors :=
  h.comparators c (comparatorFor?_mem hc)

theorem convertBy_state (v : Value) (target : TypeKey) (s : σ) :
    ((r.convertBy v target).run s).state = s :=
  ((h.reachable.convertBy_pure h.edges v target).looks s).1

/-- Two values relate as the left one's side says, or else as the right one's side does. -/
theorem compare_said (s : σ) (a b : Value) : ((r.compare a b).run s).value =
    ((r.said? s a b).or ((r.said? s b a).map .inverse)).getD .unknown := by
  cases hab : r.comparatorFor? a.type b.type with
  | some c => simp only [compare, said?, hab, Option.some_or, Option.getD_some]
  | none =>
    have hba := h.reachable.wellFormed.comparatorFor?_eq_none_comm h.ends hab
    -- What the right value's side says is heard if the left one's says nothing.
    have hright : ((r.compareAsRight a b).run s).value =
        ((r.said? s b a).map .inverse).getD .unknown := by
      simp only [compareAsRight, said?, hba, HostM.run_bind]
      rw [h.convertBy_state]
      cases ((r.convertBy a b.type).run s).value with
      | none => rfl
      | some a' =>
        cases hc : r.comparatorFor? b.type b.type with
        | none => rfl
        | some c => exact (h.mirrors hc).relation a' b s
    simp only [compare, hab, hba, compareConverted, HostM.run_bind]
    rw [h.convertBy_state]
    cases hb' : ((r.convertBy b a.type).run s).value with
    | none =>
      have hsilent : r.said? s a b = none := by simp only [said?, hab, hb']; rfl
      rw [hsilent]
      exact hright
    | some b' =>
      cases hc : r.comparatorFor? a.type a.type with
      | none =>
        have hsilent : r.said? s a b = none := by simp only [said?, hab, hb', hc]; rfl
        rw [hsilent]
        exact hright
      | some c => simp only [said?, hab, hb', hc]; rfl

/-! ### Either way round -/

theorem turns_iff (s : σ) (a b : Value) :
    r.Turns s a b ↔ ∀ x ∈ r.said? s a b, ∀ y ∈ r.said? s b a, x = y.inverse := by
  rw [Turns, h.compare_said, h.compare_said]
  cases r.said? s a b <;> cases r.said? s b a <;> simp
  rfl

/-- Where one comparator is found either way round, or only one side says something, the two sides
agree. -/
theorem turns_of_common {s : σ} {a b : Value}
    (hcommon : r.comparatorFor? a.type b.type = r.comparatorFor? b.type a.type)
    (hsilent : r.comparatorFor? a.type b.type = none →
      r.said? s a b = none ∨ r.said? s b a = none) : r.Turns s a b := by
  refine (h.turns_iff s a b).mpr fun x hx y hy => ?_
  cases hab : r.comparatorFor? a.type b.type with
  | none =>
    rcases hsilent hab with hnone | hnone
    · exact absurd (hnone ▸ hx) (Option.not_mem_none x)
    · exact absurd (hnone ▸ hy) (Option.not_mem_none y)
  | some c =>
    simp only [said?, hab, ← hcommon, Option.mem_some_iff] at hx hy
    rw [← hx, ← hy]
    exact (h.mirrors hab).relation a b s

/-- **Comparing either way round.** Comparing two values the other way round turns the relation
exactly if the sides of the two agree where both say something. -/
theorem evenhanded (s : σ) (a b : Value) : r.Evenhanded s a b where
  turns := h.turns_iff s a b
  same hsame := by
    refine h.turns_of_common (by rw [hsame]) fun hnone => .inl ?_
    have hown : r.comparatorFor? a.type a.type = none := by rw [← hnone, hsame]
    simp only [said?, hnone, hown]
    cases ((r.convertBy b a.type).run s).value <;> rfl
  oneWay hlineA hlineB hedges := by
    have hcommon := h.reachable.wellFormed.comparatorFor?_comm h.ends hlineA hlineB
    refine h.turns_of_common hcommon fun hnone => ?_
    rcases hedges with hedge | hedge
    · exact .inr (said?_of_edge (hcommon ▸ hnone) hedge)
    · exact .inl (said?_of_edge hnone hedge)

end Impartial

/-- Values of a type are ordered by their payloads. -/
def ordered (name : String) : Comparator Unit :=
  ⟨⟨name⟩, ⟨name⟩, .i64, .i64,
    fun (x y : Int64) => pure (.ofOrdering (Ord.compare x.toInt y.toInt))⟩

/-- Values of a type are equal or not. -/
def matched (name : String) : Comparator Unit :=
  ⟨⟨name⟩, ⟨name⟩, .i64, .i64, fun (x y : Int64) => pure (.ofEquality (x == y))⟩

theorem ordered_mirrors (name : String) : (ordered name).Mirrors :=
  Comparator.mirrors_of_relate fun (x y : Int64) _ => by
    show Relation.ofOrdering (Ord.compare x.toInt y.toInt) =
      (Relation.ofOrdering (Ord.compare y.toInt x.toInt)).inverse
    rw [Std.OrientedOrd.eq_swap (a := x.toInt)]
    cases Ord.compare y.toInt x.toInt <;> rfl

theorem matched_mirrors (name : String) : (matched name).Mirrors :=
  Comparator.mirrors_of_relate fun (x y : Int64) _ => by
    show Relation.ofEquality (x == y) = (Relation.ofEquality (y == x)).inverse
    rw [BEq.comm]
    cases y == x <;> rfl

/-- A player converts to an integer. -/
def measured : TypeRegistry Unit :=
  { players [relabel "player" "integer"] with comparators := [ordered "integer"] }

theorem measured_checked : measured.Checked := by
  have hplayer : (players []).registerConverter ⟨"player"⟩ ⟨"integer"⟩ .i64 .i64
      (fun n => pure (some n)) = .ok (players [relabel "player" "integer"]) := rfl
  exact (players_checked.converter hplayer).comparator (c := ordered "integer") rfl

theorem measured_impartial : measured.Impartial := by
  refine ⟨measured_checked.reachable, fun c hc => ?_, fun e he => ?_⟩
  · rw [List.mem_singleton.mp hc]
    exact ordered_mirrors "integer"
  · rw [List.mem_singleton.mp he]
    exact Edge.typed_pure _ _ _ _ fun _ => .pure _

/-- The player 3 is smaller than the integer 5, as the side of the integer says. -/
theorem measured_evenhanded : ∃ s, measured.sealed = .ok s ∧ s.Impartial ∧
    s.Evenhanded () ⟨⟨"player"⟩, .i64 3⟩ ⟨⟨"integer"⟩, .i64 5⟩ ∧
    s.SingleLine ⟨"player"⟩ ∧ s.SingleLine ⟨"integer"⟩ ∧ s.edge? ⟨"integer"⟩ ⟨"player"⟩ = none ∧
    s.said? () ⟨⟨"player"⟩, .i64 3⟩ ⟨⟨"integer"⟩, .i64 5⟩ = none ∧
    s.said? () ⟨⟨"integer"⟩, .i64 5⟩ ⟨⟨"player"⟩, .i64 3⟩ = some .greater ∧
    ((s.compare ⟨⟨"player"⟩, .i64 3⟩ ⟨⟨"integer"⟩, .i64 5⟩).run ()).value = .smaller := by
  obtain ⟨s, hs, hruns⟩ : ∃ s, measured.sealed = .ok s ∧
      s.SingleLine ⟨"player"⟩ ∧ s.SingleLine ⟨"integer"⟩ ∧
      s.edge? ⟨"integer"⟩ ⟨"player"⟩ = none ∧
      s.said? () ⟨⟨"player"⟩, .i64 3⟩ ⟨⟨"integer"⟩, .i64 5⟩ = none ∧
      s.said? () ⟨⟨"integer"⟩, .i64 5⟩ ⟨⟨"player"⟩, .i64 3⟩ = some .greater ∧
      ((s.compare ⟨⟨"player"⟩, .i64 3⟩ ⟨⟨"integer"⟩, .i64 5⟩).run ()).value = .smaller :=
    ⟨_, rfl, by decide, by decide, rfl, rfl, rfl, rfl⟩
  have himpartial := measured_impartial.sealed hs
  exact ⟨s, hs, himpartial, himpartial.evenhanded () _ _, hruns⟩

/-- A converter that adds one. -/
def raise (source target : String) : Edge Unit :=
  .typed ⟨source⟩ ⟨target⟩ .i64 .i64 fun (n : Int64) => pure (some (n + 1))

/-- Players and integers convert to each other, and a payload grows by one. -/
def raised : TypeRegistry Unit :=
  { players [raise "player" "integer", raise "integer" "player"] with
    comparators := [ordered "player", ordered "integer"] }

/-- There are two types with the same two supertypes, in another order. -/
def ranked : TypeRegistry Unit :=
  { initial with
    types := [.object, numbered "rank" [], numbered "label" [],
      numbered "first" [⟨"rank"⟩, ⟨"label"⟩], numbered "second" [⟨"label"⟩, ⟨"rank"⟩]]
    comparators := [ordered "rank", matched "label"] }

theorem raised_checked : raised.Checked := by
  have hplayer : (players []).registerConverter ⟨"player"⟩ ⟨"integer"⟩ .i64 .i64
      (fun (n : Int64) => pure (some (n + 1))) = .ok (players [raise "player" "integer"]) := rfl
  have hinteger : (players [raise "player" "integer"]).registerConverter ⟨"integer"⟩ ⟨"player"⟩
      .i64 .i64 (fun (n : Int64) => pure (some (n + 1))) = .ok { raised with comparators := [] } :=
    rfl
  exact (((players_checked.converter hplayer).converter hinteger).comparator
    (c := ordered "player") rfl).comparator (c := ordered "integer") rfl

theorem ranked_checked : ranked.Checked :=
  Checked.initial
    |>.type (d := numbered "rank" []) (fun h => nomatch h) rfl
    |>.type (d := numbered "label" []) (fun h => nomatch h) rfl
    |>.type (d := numbered "first" [⟨"rank"⟩, ⟨"label"⟩]) (fun h => nomatch h) rfl
    |>.type (d := numbered "second" [⟨"label"⟩, ⟨"rank"⟩]) (fun h => nomatch h) rfl
    |>.comparator (c := ordered "rank") rfl
    |>.comparator (c := matched "label") rfl

theorem raised_impartial : raised.Impartial := by
  refine ⟨raised_checked.reachable, fun c hc => ?_, fun e he => ?_⟩
  · rcases List.mem_pair.mp hc with rfl | rfl <;> exact ordered_mirrors _
  · rcases List.mem_pair.mp he with rfl | rfl <;> exact Edge.typed_pure _ _ _ _ fun _ => .pure _

theorem ranked_impartial : ranked.Impartial := by
  refine ⟨ranked_checked.reachable, fun c hc => ?_, fun e he => absurd he List.not_mem_nil⟩
  rcases List.mem_pair.mp hc with rfl | rfl
  · exact ordered_mirrors _
  · exact matched_mirrors _

/-- Where values convert both ways, each side may find the other value greater than its own. Where
supertypes compete, each side may ask the comparator of another one. -/
theorem sides_differ :
    (¬∀ r : TypeRegistry Unit, r.Impartial → r.Checked → r.isSealed = true →
      (∀ k ∈ r.keys, r.SingleLine k) →
      ∀ a b, r.Holds a → r.Holds b → r.Turns () a b) ∧
    (¬∀ r : TypeRegistry Unit, r.Impartial → r.Checked → r.isSealed = true →
      r.registered = [] →
      ∀ a b, r.Holds a → r.Holds b → r.Turns () a b) := by
  constructor
  · intro h
    obtain ⟨s, hs, hsealed, hlines, hleft, hright, hdiffer⟩ : ∃ s, raised.sealed = .ok s ∧
        s.isSealed = true ∧ (∀ k ∈ s.keys, s.SingleLine k) ∧
        s.Holds ⟨⟨"player"⟩, .i64 2⟩ ∧ s.Holds ⟨⟨"integer"⟩, .i64 2⟩ ∧
        ¬s.Turns () ⟨⟨"player"⟩, .i64 2⟩ ⟨⟨"integer"⟩, .i64 2⟩ :=
      ⟨_, rfl, rfl, by decide, ⟨_, rfl, rfl⟩, ⟨_, rfl, rfl⟩, by unfold Turns; decide⟩
    exact hdiffer (h s (raised_impartial.sealed hs) (raised_checked.sealed hs) hsealed hlines
      _ _ hleft hright)
  · intro h
    obtain ⟨s, hs, hsealed, hregistered, hleft, hright, hdiffer⟩ : ∃ s, ranked.sealed = .ok s ∧
        s.isSealed = true ∧ s.registered = [] ∧
        s.Holds ⟨⟨"first"⟩, .i64 1⟩ ∧ s.Holds ⟨⟨"second"⟩, .i64 2⟩ ∧
        ¬s.Turns () ⟨⟨"first"⟩, .i64 1⟩ ⟨⟨"second"⟩, .i64 2⟩ :=
      ⟨_, rfl, rfl, rfl, ⟨_, rfl, rfl⟩, ⟨_, rfl, rfl⟩, by unfold Turns; decide⟩
    exact hdiffer (h s (ranked_impartial.sealed hs) (ranked_checked.sealed hs) hsealed hregistered
      _ _ hleft hright)

end TypeRegistry

end ScriptEngine

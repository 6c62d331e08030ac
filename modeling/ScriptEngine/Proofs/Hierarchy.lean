import ScriptEngine.Proofs.Conversions
import ScriptEngine.Proofs.Levels

/-! The order of types.

In a well-formed registry `ancestors` lists what declared steps lead to, each type once and
the nearest first, and no further round of its search would add anything. Assignability is
the partial order that this makes, with the universal type put on top (`WellFormed.hierarchy`).
A type is registered below earlier types, and nothing is ever put above one that is registered
already. So what is above a type stays as it is in every later registry
(`supertypes_ordered_and_fixed`). -/
namespace ScriptEngine.TypeRegistry
variable {σ : Type} {r r' : TypeRegistry σ} {k : TypeKey}

/-- What holds of the supertypes of all types, registered or not. -/
structure Hierarchy (r : TypeRegistry σ) : Prop where
  /-- The supertypes of a type are what one declared step or more lead to. -/
  mem_iff : ∀ k p, p ∈ r.ancestors k ↔ Relation.TransGen r.Declares k p
  once : ∀ k, (r.ancestors k).Nodup
  proper : ∀ k, k ∉ r.ancestors k
  nearest_first : ∀ k, (r.ancestors k).Pairwise (Search.NoFarther r.Declares k)
  /-- The search for supertypes is over: with more rounds it finds the same. -/
  settled : ∀ k n, r.types.length ≤ n →
    (Search.search (fun k => (r.declared k).map fun p => ((), p)) n k).map (·.target) =
      r.ancestors k
  refl : ∀ a, r.isAssignable a a = true
  trans : ∀ a b c, r.isAssignable a b = true → r.isAssignable b c = true →
    r.isAssignable a c = true
  antisymm : ∀ a b, r.isAssignable a b = true → r.isAssignable b a = true → a = b
  /-- Everything is assignable to the universal type, and that to nothing else. -/
  top : ∀ a, r.isAssignable a .object = true
  alone : ∀ b, r.isAssignable .object b = true → b = .object

/-! ### One registry -/

theorem ancestors_trail (r : TypeRegistry σ) (k : TypeKey) :
    Search.Trail (fun k => (r.declared k).map fun p => ((), p)) [k]
      (Search.search (fun k => (r.declared k).map fun p => ((), p)) r.types.length k) :=
  Search.search_trail ..

theorem ancestors_ascend (r : TypeRegistry σ) (k : TypeKey) :
    (r.ancestors k).Pairwise (Search.NoFarther r.Declares k) := by
  rw [← arrow_eq_declares]
  exact Search.search_ascends ..

namespace WellFormed
variable (h : r.WellFormed)
include h

theorem search_over (k : TypeKey) {n : Nat} (hn : r.types.length ≤ n) :
    Search.search (fun k => (r.declared k).map fun p => ((), p)) n k =
      Search.search (fun k => (r.declared k).map fun p => ((), p)) r.types.length k :=
  Search.search_saturated h.arrow_mem (keys_card r) hn

/-- **The order of types.** -/
theorem hierarchy : r.Hierarchy where
  mem_iff _ _ := h.mem_ancestors
  once k := (r.ancestors_trail k).nodup.1
  proper k hk := (r.ancestors_trail k).nodup.2 k hk (List.mem_cons_self ..)
  nearest_first := r.ancestors_ascend
  settled k n hn := by rw [h.search_over k hn, ancestors]
  refl := r.isAssignable_refl
  trans _ _ _ := h.isAssignable_trans
  antisymm _ _ := h.isAssignable_antisymm
  top := r.isAssignable_object
  alone _ hb := (h.isAssignable_iff.mp hb).elim id h.object_inherits.mp

/-! ### Later registries -/

/-- A new type changes nothing above the types that were there. -/
theorem ancestors_withType {d : Descriptor σ} (hd : d.key ∉ r.keys) (hk : k ∈ r.keys) :
    ({ r with types := r.types ++ [d] } : TypeRegistry σ).ancestors k = r.ancestors k := by
  have hsame : ∀ x, r.Inherits k x →
      ({ r with types := r.types ++ [d] } : TypeRegistry σ).declared x = r.declared x := by
    intro x hx
    have hne : x ≠ d.key := fun he => hd (he ▸ h.inherits_mem hk hx)
    rw [declared_withType hd, if_neg hne]
  simp only [ancestors, List.length_append, List.length_singleton]
  rw [← h.search_over k (Nat.le_add_right _ 1)]
  refine congrArg _ (Search.rounds_congr _ fun p hp x hx => ?_)
  rw [List.mem_singleton.mp hp, arrow_eq_declares] at hx
  rw [hsame x hx]

theorem ancestors_step (hs : r.Step r') (hk : k ∈ r.keys) : r'.ancestors k = r.ancestors k := by
  rcases hs.types_cases with hsame | ⟨d, hd, rfl⟩
  · rw [ancestors_of_types hsame]
  · exact h.ancestors_withType hd hk

end WellFormed

/-- The supertypes of a registered type are the same in all later registries. -/
theorem Reachable.ancestors_later (hr : r.Reachable) (hsteps : Relation.ReflTransGen Step r r')
    (hk : k ∈ r.keys) : r'.ancestors k = r.ancestors k := by
  have hlater : r'.Reachable ∧ k ∈ r'.keys ∧ r'.ancestors k = r.ancestors k := by
    induction hsteps with
    | refl => exact ⟨hr, hk, rfl⟩
    | tail _ hstep ih =>
      obtain ⟨hmid, hmem, hsame⟩ := ih
      exact ⟨hmid.step hstep, hstep.keys_subset hmem,
        (hmid.wellFormed.ancestors_step hstep hmem).trans hsame⟩
  exact hlater.2.2

/-- **Types form a partial order below the universal type**, in every reachable registry; what is
above a registered type never changes as more is registered. -/
theorem supertypes_ordered_and_fixed (hr : r.Reachable) : r.Hierarchy ∧
    ∀ r', Relation.ReflTransGen Step r r' → ∀ a ∈ r.keys,
      r'.ancestors a = r.ancestors a ∧ ∀ b, r'.isAssignable a b = r.isAssignable a b := by
  refine ⟨hr.wellFormed.hierarchy, fun r' hsteps a ha => ?_⟩
  have hsame : r'.ancestors a = r.ancestors a := hr.ancestors_later hsteps ha
  exact ⟨hsame, fun b => by rw [isAssignable, isAssignable, hsame]⟩

/-- A captain is a guard and a sailor, which are both persons. A person is declared an object, a
sailor is not. -/
def crew : TypeRegistry Unit :=
  { initial with
    types := [.object, numbered "person" [.object], numbered "guard" [⟨"person"⟩],
      numbered "sailor" [⟨"person"⟩], numbered "captain" [⟨"guard"⟩, ⟨"sailor"⟩]] }

theorem crew_reachable : crew.Reachable :=
  Reachable.initial
    |>.step (.type (d := numbered "person" [.object]) rfl)
    |>.step (.type (d := numbered "guard" [⟨"person"⟩]) rfl)
    |>.step (.type (d := numbered "sailor" [⟨"person"⟩]) rfl)
    |>.step (.type (d := numbered "captain" [⟨"guard"⟩, ⟨"sailor"⟩]) rfl)

/-- The supertypes of a captain, one of them by two ways, stay the same when an admiral is put
below. -/
theorem crew_ordered_and_fixed : ∃ later, Relation.ReflTransGen Step crew later ∧
    crew.Hierarchy ∧
    crew.ancestors ⟨"captain"⟩ = [⟨"guard"⟩, ⟨"sailor"⟩, ⟨"person"⟩, .object] ∧
    later.ancestors ⟨"admiral"⟩ = ⟨"captain"⟩ :: crew.ancestors ⟨"captain"⟩ ∧
    later.ancestors ⟨"captain"⟩ = crew.ancestors ⟨"captain"⟩ := by
  have hstep : crew.Step { crew with types := crew.types ++ [numbered "admiral" [⟨"captain"⟩]] } :=
    .type (d := numbered "admiral" [⟨"captain"⟩]) rfl
  obtain ⟨hhierarchy, hfixed⟩ := supertypes_ordered_and_fixed crew_reachable
  exact ⟨_, .single hstep, hhierarchy, by decide, by decide,
    (hfixed _ (.single hstep) ⟨"captain"⟩ (by decide)).1⟩

end ScriptEngine.TypeRegistry

import ScriptEngine.Proofs.Registration
import ScriptEngine.Proofs.Search

/-! Supertypes of well-formed registries.

A type `Inherits` from itself and from all types that declared supertypes lead to. In a
well-formed registry nothing inherits from a later type, so no type is its own supertype;
`lineage` lists exactly what a type inherits from (`mem_lineage`), and assignability is the
order in which the universal type stands above everything (`isAssignable_iff`). -/
namespace ScriptEngine.TypeRegistry
variable {σ : Type} {r : TypeRegistry σ}

/-- A type declares another as its supertype. -/
def Declares (r : TypeRegistry σ) (k p : TypeKey) : Prop := p ∈ r.declared k

/-- A type is another one or a subtype of it. -/
def Inherits (r : TypeRegistry σ) : TypeKey → TypeKey → Prop := Relation.ReflTransGen r.Declares

theorem Declares.mem_keys {k p : TypeKey} (h : r.Declares k p) : k ∈ r.keys := by
  unfold Declares declared at h
  split at h
  · exact absurd h List.not_mem_nil
  · rename_i d hd
    exact contains_iff.mp (by rw [contains, hd]; rfl)

theorem Extends.inherits {r' : TypeRegistry σ} (h : r.Extends r') : r'.Inherits = r.Inherits := by
  have hdeclares : r'.Declares = r.Declares := by
    funext k p
    rw [Declares, Declares, h.declared]
  rw [Inherits, Inherits, hdeclares]

theorem arrow_declared {k p : TypeKey} :
    Search.Arrow (fun k => (r.declared k).map fun p => ((), p)) k p ↔ r.Declares k p := by
  simp [Search.Arrow, Declares]

theorem arrow_eq_declares :
    Search.Arrow (fun k => (r.declared k).map fun p => ((), p)) = r.Declares :=
  funext fun _ => funext fun _ => propext arrow_declared

theorem keys_card (r : TypeRegistry σ) : r.keys.toFinset.card ≤ r.types.length := by
  simpa [keys] using List.toFinset_card_le r.keys

namespace WellFormed
variable (h : r.WellFormed) {a b c k p : TypeKey}
include h

/-- Supertypes were registered before their subtypes. -/
theorem supertype_before {before after : List TypeKey} (hsplit : r.keys = before ++ k :: after)
    (hp : Relation.TransGen r.Declares k p) : p ∈ before := by
  induction hp with
  | single hk => exact h.declared_before hsplit _ hk
  | @tail q p _ hq ih =>
    obtain ⟨earlier, later, rfl⟩ := List.append_of_mem ih
    rw [List.append_assoc, List.cons_append] at hsplit
    exact List.mem_append_left _ (h.declared_before hsplit p hq)

theorem supertype_mem (hp : Relation.TransGen r.Declares k p) : p ∈ r.keys := by
  obtain ⟨q, hq, _⟩ := Relation.TransGen.head'_iff.mp hp
  obtain ⟨before, after, hsplit⟩ := List.append_of_mem hq.mem_keys
  rw [hsplit]
  exact List.mem_append_left _ (h.supertype_before hsplit hp)

theorem acyclic (k : TypeKey) : ¬ Relation.TransGen r.Declares k k := by
  intro hk
  obtain ⟨before, after, hsplit⟩ := List.append_of_mem (h.supertype_mem hk)
  have hnodup := h.keys_nodup
  rw [hsplit, List.nodup_append] at hnodup
  exact hnodup.2.2 k (h.supertype_before hsplit hk) k (List.mem_cons_self ..) rfl

theorem inherits_mem (hk : k ∈ r.keys) (hp : r.Inherits k p) : p ∈ r.keys := by
  rcases Relation.reflTransGen_iff_eq_or_transGen.mp hp with rfl | hp
  · exact hk
  · exact h.supertype_mem hp

theorem arrow_mem : ∀ x y, Search.Arrow (fun k => (r.declared k).map fun p => ((), p)) x y →
    y ∈ r.keys.toFinset := fun _ _ hxy =>
  List.mem_toFinset.mpr (h.supertype_mem (.single (arrow_declared.mp hxy)))

theorem mem_ancestors : p ∈ r.ancestors k ↔ Relation.TransGen r.Declares k p := by
  rw [ancestors, Search.mem_search h.arrow_mem (keys_card r), arrow_eq_declares]
  exact and_iff_right_of_imp fun hp he => h.acyclic k (he ▸ hp)

theorem mem_lineage : p ∈ r.lineage k ↔ r.Inherits k p := by
  rw [lineage, List.mem_cons, h.mem_ancestors, Inherits, Relation.reflTransGen_iff_eq_or_transGen]

theorem object_inherits : r.Inherits .object p ↔ p = .object := by
  refine ⟨fun hp => ?_, fun he => he ▸ .refl⟩
  rcases Relation.ReflTransGen.cases_head hp with he | ⟨q, hq, _⟩
  · exact he.symm
  · rw [Declares, h.object_declared] at hq
    exact absurd hq List.not_mem_nil

/-- Values of a type are values of the universal type and of all that the type inherits from. -/
theorem isAssignable_iff : r.isAssignable a b = true ↔ b = .object ∨ r.Inherits a b := by
  rw [← h.mem_lineage, lineage, List.mem_cons]
  simp only [isAssignable, TypeKey.isObject, Bool.or_eq_true, beq_iff_eq, List.contains_iff_mem]
  rw [@eq_comm _ a b]
  tauto

theorem isAssignable_of_inherits (hab : r.Inherits a b) : r.isAssignable a b = true :=
  h.isAssignable_iff.mpr (.inr hab)

theorem isAssignable_trans (hab : r.isAssignable a b = true) (hbc : r.isAssignable b c = true) :
    r.isAssignable a c = true := by
  rw [h.isAssignable_iff] at *
  rcases hbc with hc | hbc
  · exact .inl hc
  · rcases hab with rfl | hab
    · exact .inl (h.object_inherits.mp hbc)
    · exact .inr (hab.trans hbc)

theorem isAssignable_antisymm (hab : r.isAssignable a b = true) (hba : r.isAssignable b a = true) :
    a = b := by
  rw [h.isAssignable_iff] at hab hba
  rcases hab with rfl | hab
  · exact hba.elim id h.object_inherits.mp
  · rcases hba with rfl | hba
    · exact (h.object_inherits.mp hab).symm
    · rcases Relation.reflTransGen_iff_eq_or_transGen.mp hab with he | hab
      · exact he.symm
      · exact absurd (hab.trans_left hba) (h.acyclic a)

end WellFormed

theorem isAssignable_refl (r : TypeRegistry σ) (a : TypeKey) : r.isAssignable a a = true := by
  simp [isAssignable]

theorem isAssignable_object (r : TypeRegistry σ) (a : TypeKey) :
    r.isAssignable a .object = true := by
  simp [isAssignable, TypeKey.isObject]

end ScriptEngine.TypeRegistry

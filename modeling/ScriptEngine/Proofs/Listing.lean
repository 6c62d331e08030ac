import Mathlib.Data.Finset.Range
import ScriptEngine.Proofs.Turns
import ScriptEngine.Types.Listing

/-! The order in which types are listed.

The counts of a listing are right all along: a place waits for as many others as are to come before
it and have not been listed (`Progress.Orderly`). So types are listed in turn, and those whose turn
never comes follow (`arranged`). Where no circle of types wait for each other, the listing is the
smallest order that keeps what each type asks for (`arrange_smallest`). Otherwise what stands behind
a circle comes last, in the order of registration, even where one of them asks to come before
another (`arrange_circles`). -/
namespace ScriptEngine.Listing

/-! ### Who waits for whom -/

namespace Waiting
variable {w : Waiting} {n a b i j : Nat}

/-- One place waits for another. -/
def Behind (w : Waiting) (i j : Nat) : Prop := j ∈ w.behind i

/-- Those behind a place are there once, and each place counts those it waits for. -/
structure Sound (w : Waiting) (n : Nat) : Prop where
  within : ∀ i j, j ∈ w.behind i → i < n ∧ j < n
  once : ∀ i, (w.behind i).Nodup
  counted : ∀ j, w.ahead j = ((Finset.range n).filter fun i => j ∈ w.behind i).card

theorem none_sound (n : Nat) : none.Sound n :=
  ⟨fun _ _ h => by simp [none] at h, fun _ => List.nodup_nil, fun _ => by simp [none]⟩

theorem add_cases (w : Waiting) (a b : Nat) :
    (a = b ∨ b ∈ w.behind a) ∧ w.add a b = w ∨
    (a ≠ b ∧ b ∉ w.behind a) ∧ w.add a b = {
      behind := fun i => if i = a then w.behind i ++ [b] else w.behind i
      ahead := fun i => if i = b then w.ahead i + 1 else w.ahead i } := by
  rw [add]
  split
  case isTrue h => exact .inl ⟨by simpa using h, rfl⟩
  case isFalse h => exact .inr ⟨by simpa using h, rfl⟩

theorem mem_behind_add :
    j ∈ (w.add a b).behind i ↔ j ∈ w.behind i ∨ i ≠ j ∧ (i, j) = (a, b) := by
  rw [Prod.mk.injEq]
  rcases w.add_cases a b with ⟨hold, h⟩ | ⟨hnew, h⟩ <;> rw [h]
  · refine ⟨.inl, ?_⟩
    rintro (hj | ⟨hne, rfl, rfl⟩)
    · exact hj
    · exact hold.resolve_left hne
  · by_cases hi : i = a
    · subst hi
      simp only [if_true, List.mem_append, List.mem_singleton, true_and]
      exact or_congr_right ⟨fun hj => ⟨hj ▸ hnew.1, hj⟩, And.right⟩
    · simp [hi]

/-- The places before another one are one more when that is asked to wait for a new one. -/
theorem ahead_insert (ha : a < n) (hnew : a ≠ b ∧ b ∉ w.behind a) :
    ((Finset.range n).filter fun i => b ∈ w.behind i ∨ i ≠ b ∧ (i, b) = (a, b)) =
      insert a ((Finset.range n).filter fun i => b ∈ w.behind i) := by
  ext i
  simp only [Finset.mem_filter, Finset.mem_range, Finset.mem_insert, Prod.mk.injEq, and_true]
  constructor
  · rintro ⟨hi, hbehind | ⟨-, rfl⟩⟩
    · exact .inr ⟨hi, hbehind⟩
    · exact .inl rfl
  · rintro (rfl | ⟨hi, hbehind⟩)
    · exact ⟨ha, .inr ⟨hnew.1, rfl⟩⟩
    · exact ⟨hi, .inl hbehind⟩

/-- A place that is asked to wait for a new one counts one more, all others as many as before. -/
theorem Sound.counted_add (h : w.Sound n) (ha : a < n) (j : Nat) :
    (w.add a b).ahead j = ((Finset.range n).filter fun i => j ∈ (w.add a b).behind i).card := by
  simp only [mem_behind_add]
  rcases w.add_cases a b with ⟨hold, heq⟩ | ⟨hnew, heq⟩ <;> rw [heq]
  · rw [h.counted]
    congr 1
    refine Finset.filter_congr fun i _ => ⟨.inl, ?_⟩
    rintro (hj | ⟨hne, hpair⟩)
    · exact hj
    · cases hpair
      exact hold.resolve_left hne
  · by_cases hj : j = b
    · subst hj
      rw [ahead_insert ha hnew, Finset.card_insert_of_notMem (by simp [hnew.2]), ← h.counted]
      simp
    · simp [hj, h.counted]

/-- One place waits for one more, and so it is with what is counted. -/
theorem Sound.add (h : w.Sound n) (ha : a < n) (hb : b < n) : (w.add a b).Sound n where
  within i j hj := by
    rcases mem_behind_add.mp hj with hj | ⟨-, hpair⟩
    · exact h.within i j hj
    · cases hpair
      exact ⟨ha, hb⟩
  once i := by
    rcases w.add_cases a b with ⟨-, heq⟩ | ⟨hnew, heq⟩ <;> rw [heq]
    · exact h.once i
    · by_cases hi : i = a
      · subst hi
        simpa using (h.once i).concat hnew.2
      · simpa [hi] using h.once i
  counted := h.counted_add ha

theorem mem_behind_foldl (pairs : List (Nat × Nat)) :
    j ∈ (pairs.foldl (fun w pair => w.add pair.1 pair.2) w).behind i ↔
      j ∈ w.behind i ∨ i ≠ j ∧ (i, j) ∈ pairs := by
  induction pairs generalizing w with
  | nil => simp
  | cons pair pairs ih =>
    rw [List.foldl_cons, ih, mem_behind_add, List.mem_cons]
    tauto

theorem Sound.foldl (h : w.Sound n) {pairs : List (Nat × Nat)}
    (hpairs : ∀ pair ∈ pairs, pair.1 < n ∧ pair.2 < n) :
    (pairs.foldl (fun w pair => w.add pair.1 pair.2) w).Sound n := by
  induction pairs generalizing w with
  | nil => exact h
  | cons pair pairs ih =>
    rw [List.forall_mem_cons] at hpairs
    exact ih (h.add hpairs.1.1 hpairs.1.2) hpairs.2

end Waiting

/-! ### One after the other -/

namespace Progress
variable {p : Progress} {w : Waiting} {n place j : Nat}

/-- Places were listed in turn, it is known whose turn it is, and each place counts those that it
still waits for. -/
structure Orderly (p : Progress) (w : Waiting) (n : Nat) : Prop where
  turns : Turns w.Behind (List.range n) p.listed
  once : p.ready.Nodup
  ready : ∀ j, j ∈ p.ready ↔ Due w.Behind (List.range n) p.listed j
  counted : ∀ j, p.ahead j = ((Finset.range n).filter fun i => i ∉ p.listed ∧ j ∈ w.behind i).card

theorem start_orderly (hw : w.Sound n) : (start w (.range n)).Orderly w n where
  turns := .nil
  once := List.nodup_range.filter _
  ready j := by
    simp only [start, List.mem_filter, beq_iff_eq, hw.counted, Finset.card_eq_zero,
      Finset.filter_eq_empty_iff, Finset.mem_range]
    constructor
    · rintro ⟨hj, hfree⟩
      exact ⟨hj, List.not_mem_nil, fun i hi => absurd hi (hfree (hw.within i j hi).1)⟩
    · rintro ⟨hj, -, hfree⟩
      exact ⟨hj, fun i _ hi => absurd (hfree i hi) List.not_mem_nil⟩
  counted j := by simp [start, hw.counted]

/-- No count falls below zero: who is behind a place that is listed now has counted it. -/
theorem Orderly.ahead_pos (hw : w.Sound n) (h : p.Orderly w n) (hplace : place ∈ p.ready)
    (hj : j ∈ w.behind place) : 0 < p.ahead j := by
  rw [h.counted, Finset.card_pos]
  have hdue := (h.ready place).mp hplace
  exact ⟨place, Finset.mem_filter.mpr ⟨Finset.mem_range.mpr (hw.within _ _ hj).1, hdue.new, hj⟩⟩

/-- Those behind a listed place count one fewer, and so it is with what is left to count. -/
theorem Orderly.counted_list (hw : w.Sound n) (h : p.Orderly w n) (hplace : place ∈ p.ready)
    (j : Nat) : (p.list w place).ahead j =
      ((Finset.range n).filter fun i => i ∉ (p.list w place).listed ∧ j ∈ w.behind i).card := by
  have herase : ((Finset.range n).filter fun i => i ∉ (p.list w place).listed ∧ j ∈ w.behind i) =
      ((Finset.range n).filter fun i => i ∉ p.listed ∧ j ∈ w.behind i).erase place := by
    ext i
    simp only [list, List.mem_append, List.mem_singleton, Finset.mem_filter, Finset.mem_erase]
    tauto
  rw [herase]
  by_cases hj : j ∈ w.behind place
  · have hdue := (h.ready place).mp hplace
    have hcounted : place ∈ (Finset.range n).filter fun i => i ∉ p.listed ∧ j ∈ w.behind i :=
      Finset.mem_filter.mpr ⟨Finset.mem_range.mpr (hw.within _ _ hj).1, hdue.new, hj⟩
    rw [Finset.card_erase_of_mem hcounted, ← h.counted]
    simp [list, hj]
  · rw [Finset.erase_eq_of_notMem (by simp [hj]), ← h.counted]
    simp [list, hj]

/-- When a place has been listed, it is known again whose turn it is. -/
theorem Orderly.ready_list (hw : w.Sound n) (h : p.Orderly w n) (hplace : place ∈ p.ready)
    (j : Nat) : j ∈ (p.list w place).ready ↔
      Due w.Behind (List.range n) (p.list w place).listed j := by
  have hdue := (h.ready place).mp hplace
  have hready : j ∈ (p.list w place).ready ↔
      (j ≠ place ∧ j ∈ p.ready) ∨ j ∈ w.behind place ∧ (p.list w place).ahead j = 0 := by
    simp [list, h.once.mem_erase_iff]
  rw [hready, h.counted_list hw hplace, Finset.card_eq_zero, Finset.filter_eq_empty_iff]
  simp only [Finset.mem_range, list, List.mem_append, List.mem_singleton]
  constructor
  · rintro (⟨hne, hj⟩ | ⟨hj, hzero⟩)
    · have hj := (h.ready j).mp hj
      exact ⟨hj.item, by simp [hj.new, hne], fun i hi => List.mem_append_left _ (hj.free i hi)⟩
    · have hlisted : ∀ i, j ∈ w.behind i → i ∈ p.listed ++ [place] := by
        intro i hi
        by_contra hnew
        exact hzero (hw.within i j hi).1 ⟨by simpa using hnew, hi⟩
      refine ⟨List.mem_range.mpr (hw.within _ _ hj).2, fun hold => ?_, hlisted⟩
      -- A place that was listed waited for none that was not, nor does a place wait for itself.
      rcases List.mem_append.mp hold with hold | hold
      · exact hdue.new ((h.turns.before hj hold).mem_left)
      · obtain rfl := List.mem_singleton.mp hold
        exact hdue.new (hdue.free j hj)
  · rintro ⟨hitem, hnew, hfree⟩
    simp only [List.mem_append, List.mem_singleton, not_or] at hnew hfree
    by_cases hj : j ∈ w.behind place
    · exact .inr ⟨hj, fun i _ hi => hi.1 (hfree i hi.2)⟩
    · refine .inl ⟨hnew.2, (h.ready j).mpr ⟨hitem, hnew.1, fun i hi => ?_⟩⟩
      exact (hfree i hi).resolve_right fun heq => hj (heq ▸ hi)

theorem before_range {i : Nat} (hij : i < j) (hj : j < n) : Before (List.range n) i j := by
  obtain ⟨rest, rfl⟩ := Nat.exists_eq_add_of_le (show i + 1 ≤ n by omega)
  rw [List.range_add]
  refine .of_append (List.mem_range.mpr (Nat.lt_succ_self i)) (List.mem_map.mpr ⟨j - (i + 1), ?_⟩)
  rw [List.mem_range]
  omega

/-- Listing the earliest place that is ready keeps things orderly. -/
theorem Orderly.list (hw : w.Sound n) (h : p.Orderly w n) (hplace : place ∈ p.ready)
    (hfirst : ∀ j ∈ p.ready, place ≤ j) : (p.list w place).Orderly w n where
  turns := by
    refine .next h.turns ((h.ready place).mp hplace) fun j hj => ?_
    rcases Nat.eq_or_lt_of_le (hfirst j ((h.ready j).mpr hj)) with heq | hlt
    · exact .inl heq
    · exact .inr (before_range hlt (List.mem_range.mp hj.item))
  once := by
    refine List.nodup_append.mpr ⟨h.once.erase _, (hw.once _).filter _, ?_⟩
    rintro j hj _ hbehind rfl
    -- What is ready does not wait for a place that is being listed only now.
    have hdue := (h.ready j).mp (List.mem_of_mem_erase hj)
    exact ((h.ready place).mp hplace).new (hdue.free place (List.mem_of_mem_filter hbehind))
  ready := h.ready_list hw hplace
  counted := h.counted_list hw hplace

/-- With as many steps as there are places, a listing goes on until it is nobody's turn. -/
theorem Orderly.run (hw : w.Sound n) (h : p.Orderly w n) {fuel : Nat}
    (hfuel : n ≤ fuel + p.listed.length) :
    (run w fuel p).Orderly w n ∧
      ∀ j, ¬ Due w.Behind (List.range n) (Progress.run w fuel p).listed j := by
  induction fuel generalizing p with
  | zero =>
    refine ⟨h, fun j hj => hj.new ?_⟩
    have hall : p.listed.Perm (List.range n) :=
      (h.turns.nodup.subperm h.turns.subset).perm_of_length_le (by simpa using hfuel)
    exact hall.symm.subset hj.item
  | succ fuel ih =>
    rw [Progress.run]
    cases hmin : p.ready.min? with
    | none =>
      refine ⟨h, fun j hj => ?_⟩
      have hready := (h.ready j).mpr hj
      rw [List.min?_eq_none_iff.mp hmin] at hready
      cases hready
    | some place =>
      obtain ⟨hplace, hfirst⟩ := List.min?_eq_some_iff.mp hmin
      exact ih (h.list hw hplace hfirst) (by simp [Progress.list]; omega)

end Progress

/-! ### What types ask for -/

section
variable {σ : Type}

/-- One type is to be listed before another. -/
def Precedes (a b : Descriptor σ) : Prop :=
  a.key ≠ b.key ∧
    (b.key ∈ a.before ∨ a.key ∈ b.after ∨ b.key ∈ a.supertypes ∨ b.key = .object)

instance (a b : Descriptor σ) : Decidable (Precedes a b) :=
  inferInstanceAs (Decidable (_ ∧ _))

def keysOf (types : List (Descriptor σ)) : List TypeKey := types.map (·.key)

/-- Of two types of a list, one is to be listed before the other. -/
def Asks (types : List (Descriptor σ)) (x y : TypeKey) : Prop :=
  ∃ a ∈ types, ∃ b ∈ types, Precedes a b ∧ a.key = x ∧ b.key = y

instance (types : List (Descriptor σ)) (x y : TypeKey) : Decidable (Asks types x y) :=
  inferInstanceAs (Decidable (∃ a ∈ types, ∃ b ∈ types, Precedes a b ∧ a.key = x ∧ b.key = y))

variable {types : List (Descriptor σ)} {x y : TypeKey} {i j : Nat}

theorem Asks.mem (h : Asks types x y) : x ∈ keysOf types ∧ y ∈ keysOf types := by
  obtain ⟨a, ha, b, hb, -, rfl, rfl⟩ := h
  exact ⟨List.mem_map_of_mem ha, List.mem_map_of_mem hb⟩

def keyAt (types : List (Descriptor σ)) (i : Nat) : TypeKey := (types[i]?.map (·.key)).getD .object

theorem keyAt_of_get {d : Descriptor σ} (h : types[i]? = some d) : keyAt types i = d.key := by
  rw [keyAt, h]
  rfl

theorem map_keyAt (types : List (Descriptor σ)) :
    (List.range types.length).map (keyAt types) = keysOf types := by
  refine List.ext_getElem (by simp [keysOf]) fun i hi hi' => ?_
  have hlt : i < types.length := by simpa using hi
  rw [List.getElem_map, List.getElem_range, keyAt_of_get (List.getElem?_eq_getElem hlt)]
  exact (List.getElem_map ..).symm

section
variable (hkeys : (keysOf types).Nodup)
include hkeys

theorem place_unique {a b : Descriptor σ} (ha : types[i]? = some a) (hb : types[j]? = some b)
    (hkey : a.key = b.key) : i = j := by
  have hplace : ∀ {k : Nat} {d : Descriptor σ}, types[k]? = some d →
      (keysOf types)[k]? = some d.key := fun hd => by
    rw [keysOf, List.getElem?_map, hd]
    rfl
  have hi := hplace ha
  have hlt : i < (keysOf types).length := (List.getElem?_eq_some_iff.mp hi).1
  exact (List.getElem?_inj hlt hkeys).mp (hi.trans (hkey ▸ (hplace hb).symm))

theorem place?_eq_some : place? types x = some j ↔ ∃ d, types[j]? = some d ∧ d.key = x := by
  rw [place?, List.findIdx?_eq_some_iff_getElem]
  constructor
  · rintro ⟨hj, hkey, -⟩
    exact ⟨types[j], List.getElem?_eq_getElem hj, by simpa using hkey⟩
  · rintro ⟨d, hd, rfl⟩
    obtain ⟨hj, rfl⟩ := List.getElem?_eq_some_iff.mp hd
    refine ⟨hj, by simp, fun i hij => ?_⟩
    have hi : i < types.length := hij.trans hj
    simp only [beq_iff_eq]
    intro hkey
    exact Nat.ne_of_lt hij (place_unique hkeys (List.getElem?_eq_getElem hi) hd hkey)

/-- What is asked for in one place. -/
theorem mem_asked {d : Descriptor σ} {k : Nat} (hd : types[k]? = some d) :
    (i, j) ∈ asked types d k ↔ ∃ a b, types[i]? = some a ∧ types[j]? = some b ∧
      (k = i ∧ (b.key ∈ a.before ∨ b.key ∈ a.supertypes ∨ b.key = .object) ∨
        k = j ∧ a.key ∈ b.after) := by
  simp only [asked, List.mem_append, List.mem_map, List.mem_filterMap, place?_eq_some hkeys,
    Prod.mk.injEq, List.mem_singleton]
  constructor
  · rintro ((⟨_, ⟨key, hkey, b, hb, rfl⟩, rfl, rfl⟩ | ⟨_, ⟨key, hkey, a, ha, rfl⟩, rfl, rfl⟩) |
      ⟨_, ⟨key, hkey, b, hb, rfl⟩, rfl, rfl⟩)
    · exact ⟨d, b, hd, hb, .inl ⟨rfl, .inl hkey⟩⟩
    · exact ⟨a, d, ha, hd, .inr ⟨rfl, hkey⟩⟩
    · exact ⟨d, b, hd, hb, .inl ⟨rfl, .inr hkey⟩⟩
  · rintro ⟨a, b, ha, hb, ⟨rfl, hkey⟩ | ⟨rfl, hkey⟩⟩
    · cases ha.symm.trans hd
      rcases hkey with hkey | hkey
      · exact .inl (.inl ⟨j, ⟨b.key, hkey, b, hb, rfl⟩, rfl, rfl⟩)
      · exact .inr ⟨j, ⟨b.key, hkey, b, hb, rfl⟩, rfl, rfl⟩
    · cases hb.symm.trans hd
      exact .inl (.inr ⟨i, ⟨a.key, hkey, a, ha, rfl⟩, rfl, rfl⟩)

/-- The waiting places are those of types that are to come after others. -/
theorem behind_waiting : (waiting types).Behind i j ↔
    ∃ a b, types[i]? = some a ∧ types[j]? = some b ∧ Precedes a b := by
  rw [Waiting.Behind, waiting, Waiting.mem_behind_foldl, List.mem_flatMap]
  simp only [Waiting.none, List.not_mem_nil, false_or]
  constructor
  · rintro ⟨hne, ⟨d, k⟩, hd, hasked⟩
    obtain ⟨a, b, ha, hb, hkey⟩ := (mem_asked hkeys (List.mem_zipIdx_iff_getElem?.mp hd)).mp hasked
    refine ⟨a, b, ha, hb, fun heq => hne (place_unique hkeys ha hb heq), ?_⟩
    tauto
  · rintro ⟨a, b, ha, hb, hne, hkey⟩
    refine ⟨?_, ?_⟩
    · rintro rfl
      cases ha.symm.trans hb
      exact hne rfl
    · have hmem : ∀ {k d}, types[k]? = some d → (d, k) ∈ types.zipIdx :=
        fun hd => List.mem_zipIdx_iff_getElem?.mpr hd
      by_cases hafter : a.key ∈ b.after
      · exact ⟨_, hmem hb, (mem_asked hkeys hb).mpr ⟨a, b, ha, hb, .inr ⟨rfl, hafter⟩⟩⟩
      · refine ⟨_, hmem ha, (mem_asked hkeys ha).mpr ⟨a, b, ha, hb, .inl ⟨rfl, ?_⟩⟩⟩
        tauto

theorem waiting_sound : (waiting types).Sound types.length := by
  refine (Waiting.none_sound _).foldl fun pair hpair => ?_
  obtain ⟨⟨d, k⟩, hd, hasked⟩ := List.mem_flatMap.mp hpair
  obtain ⟨a, b, ha, hb, -⟩ := (mem_asked hkeys (List.mem_zipIdx_iff_getElem?.mp hd)).mp hasked
  exact ⟨(List.getElem?_eq_some_iff.mp ha).1, (List.getElem?_eq_some_iff.mp hb).1⟩

theorem asks_iff : Asks types x y ↔
    ∃ i j, (waiting types).Behind i j ∧ keyAt types i = x ∧ keyAt types j = y := by
  simp only [behind_waiting hkeys]
  constructor
  · rintro ⟨a, ha, b, hb, hprecedes, rfl, rfl⟩
    obtain ⟨i, ha⟩ := List.mem_iff_getElem?.mp ha
    obtain ⟨j, hb⟩ := List.mem_iff_getElem?.mp hb
    exact ⟨i, j, ⟨a, b, ha, hb, hprecedes⟩, keyAt_of_get ha, keyAt_of_get hb⟩
  · rintro ⟨i, j, ⟨a, b, ha, hb, hprecedes⟩, rfl, rfl⟩
    exact ⟨a, List.mem_of_getElem? ha, b, List.mem_of_getElem? hb, hprecedes,
      (keyAt_of_get ha).symm, (keyAt_of_get hb).symm⟩

theorem keyAt_injective (hi : i ∈ List.range types.length) (hj : j ∈ List.range types.length)
    (h : keyAt types i = keyAt types j) : i = j := by
  have hi := List.getElem?_eq_getElem (List.mem_range.mp hi)
  have hj := List.getElem?_eq_getElem (List.mem_range.mp hj)
  rw [keyAt_of_get hi, keyAt_of_get hj] at h
  exact place_unique hkeys hi hj h

theorem mem_map_keyAt {done : List Nat} (hdone : done ⊆ List.range types.length)
    (hi : i ∈ List.range types.length) : keyAt types i ∈ done.map (keyAt types) ↔ i ∈ done := by
  refine ⟨fun h => ?_, List.mem_map_of_mem⟩
  obtain ⟨j, hj, hkey⟩ := List.mem_map.mp h
  exact keyAt_injective hkeys (hdone hj) hi hkey ▸ hj

/-- It is the turn of a type exactly if it is the turn of its place. -/
theorem due_keyAt {done : List Nat} (hdone : done ⊆ List.range types.length) :
    Due (Asks types) ((List.range types.length).map (keyAt types)) (done.map (keyAt types)) x ↔
      ∃ i, Due (waiting types).Behind (List.range types.length) done i ∧ keyAt types i = x := by
  have hwithin : ∀ {i j}, (waiting types).Behind i j →
      i ∈ List.range types.length ∧ j ∈ List.range types.length := fun h => by
    simpa only [List.mem_range] using (waiting_sound hkeys).within _ _ h
  constructor
  · rintro ⟨hitem, hnew, hfree⟩
    obtain ⟨j, hj, rfl⟩ := List.mem_map.mp hitem
    refine ⟨j, ⟨hj, fun h => hnew (List.mem_map_of_mem h), fun i hi => ?_⟩, rfl⟩
    exact (mem_map_keyAt hkeys hdone (hwithin hi).1).mp
      (hfree _ ((asks_iff hkeys).mpr ⟨i, j, hi, rfl, rfl⟩))
  · rintro ⟨j, ⟨hj, hnew, hfree⟩, rfl⟩
    refine ⟨List.mem_map_of_mem hj, fun h => hnew ((mem_map_keyAt hkeys hdone hj).mp h), ?_⟩
    intro y hy
    obtain ⟨i, j', hi, rfl, hkey⟩ := (asks_iff hkeys).mp hy
    exact List.mem_map_of_mem (hfree i (keyAt_injective hkeys (hwithin hi).2 hj hkey ▸ hi))

/-- Types are listed in turn, and those whose turn never comes follow in the order of
registration. -/
theorem arranged : ∃ listed, Arranged (Asks types) (keysOf types) listed (arrange types) := by
  have hsound := waiting_sound hkeys
  obtain ⟨horderly, hover⟩ := (Progress.start_orderly hsound).run hsound
    (Nat.le_add_right types.length _)
  have hsubset : inTurn types ⊆ List.range types.length := horderly.turns.subset
  refine ⟨(inTurn types).map (keyAt types), ?_, fun x hx => ?_, ?_⟩
  · have hturns := horderly.turns.map fun hdone => due_keyAt hkeys hdone
    rwa [map_keyAt] at hturns
  · rw [← map_keyAt] at hx
    obtain ⟨j, hj, -⟩ := (due_keyAt hkeys hsubset).mp hx
    exact hover j hj
  · have hplaces : ∀ i ∈ places types, types[i]?.map (·.key) = some (keyAt types i) := by
      intro i hi
      have hlt : i < types.length := by
        rcases List.mem_append.mp hi with hi | hi
        · exact List.mem_range.mp (hsubset hi)
        · exact List.mem_range.mp (List.mem_of_mem_filter hi)
      rw [keyAt, List.getElem?_eq_getElem hlt]
      rfl
    rw [arrange, List.filterMap_congr hplaces, List.filterMap_eq_map', places, List.map_append,
      ← map_keyAt, List.filter_map]
    congr 2
    refine List.filter_congr fun i hi => ?_
    show (!(inTurn types).contains i) = decide (keyAt types i ∉ (inTurn types).map (keyAt types))
    rw [Bool.eq_iff_iff, decide_eq_true_iff, mem_map_keyAt hkeys hsubset hi]
    simp

/-- Whatever types ask for, each of them is listed once. -/
theorem arrange_perm : (arrange types).Perm (keysOf types) := by
  obtain ⟨listed, harranged⟩ := arranged hkeys
  exact harranged.perm hkeys

end

/-! ### The order of listing -/

/-- **The listing where there are no circles.** Whatever types ask for, each of them is listed once.
If no types wait for each other in a circle, the listing is the smallest order that keeps what they
ask for: in every place stands the earliest registered type that has all that come before it in
front of it. -/
theorem arrange_smallest (types : List (Descriptor σ)) (hkeys : (keysOf types).Nodup) :
    (arrange types).Perm (keysOf types) ∧
      ((∀ x, ¬ Relation.TransGen (Asks types) x x) →
        Smallest (Asks types) (keysOf types) (arrange types)) := by
  obtain ⟨listed, harranged⟩ := arranged hkeys
  exact ⟨arrange_perm hkeys, fun hacyclic =>
    harranged.smallest hkeys (fun _ _ h => h.mem) hacyclic⟩

/-- **The listing where there are circles.** Types that no circle holds up come before those that one
does, and the latter stand in the order of registration. So a type that asks to come before another
one does, unless it stands on a circle or behind one and was registered later. -/
theorem arrange_circles (types : List (Descriptor σ)) (hkeys : (keysOf types).Nodup) :
    (∀ x ∈ keysOf types, ∀ y, ¬ HeldUp (Asks types) x → HeldUp (Asks types) y →
      Before (arrange types) x y) ∧
    (∀ x y, HeldUp (Asks types) x → HeldUp (Asks types) y →
      (Before (arrange types) x y ↔ Before (keysOf types) x y)) ∧
    ∀ x y, Asks types x y →
      (Before (arrange types) x y ↔ ¬ HeldUp (Asks types) x ∨ Before (keysOf types) x y) := by
  obtain ⟨listed, harranged⟩ := arranged hkeys
  have hitems : ∀ x y, Asks types x y → x ∈ keysOf types := fun _ _ h => h.mem.1
  refine ⟨fun x hx y hfree hheld => ?_, fun x y => harranged.before_heldUp_iff, fun x y hxy => ?_⟩
  · obtain ⟨_, hahead, -⟩ := hheld.ahead
    exact harranged.before_of_heldUp hitems hx hfree hahead.mem.2 hheld
  · exact harranged.before_iff hitems hxy.mem.2 hxy

/-- If every type asks only for what stands further back in some list, there is no circle. -/
theorem acyclic_of_ranks (order : List TypeKey)
    (h : ∀ a ∈ types, ∀ b ∈ types, Precedes a b → order.idxOf a.key < order.idxOf b.key)
    (x : TypeKey) : ¬ Relation.TransGen (Asks types) x x := by
  have hlt : ∀ {x y}, Relation.TransGen (Asks types) x y → order.idxOf x < order.idxOf y := by
    have hstep : ∀ {x y}, Asks types x y → order.idxOf x < order.idxOf y := by
      rintro _ _ ⟨a, ha, b, hb, hprecedes, rfl, rfl⟩
      exact h a ha b hb hprecedes
    intro x y hxy
    induction hxy with
    | single hxy => exact hstep hxy
    | tail _ hyz ih => exact ih.trans (hstep hyz)
  exact fun hcircle => Nat.lt_irrefl _ (hlt hcircle)

end

/-! Players are entities and say so twice; texts come before entities, truth values after players and
after entities. -/

/-- The universal type and four types whose hints agree. -/
def hinted : List (Descriptor Unit) := [
  .object,
  .ofShape ⟨"entity"⟩ .u8,
  { Descriptor.ofShape ⟨"player"⟩ .u8 with supertypes := [⟨"entity"⟩], before := [⟨"entity"⟩] },
  { Descriptor.ofShape ⟨"text"⟩ .string with before := [⟨"place"⟩, ⟨"text"⟩, ⟨"entity"⟩] },
  { Descriptor.ofShape ⟨"boolean"⟩ .bool with after := [⟨"player"⟩, ⟨"entity"⟩] }]

theorem hinted_smallest : (keysOf hinted).Nodup ∧ (∀ x, ¬ Relation.TransGen (Asks hinted) x x) ∧
    arrange hinted = [⟨"player"⟩, ⟨"text"⟩, ⟨"entity"⟩, ⟨"boolean"⟩, .object] ∧
    Smallest (Asks hinted) (keysOf hinted)
      [⟨"player"⟩, ⟨"text"⟩, ⟨"entity"⟩, ⟨"boolean"⟩, .object] := by
  have hkeys : (keysOf hinted).Nodup := by decide
  have hlisting : arrange hinted =
      [⟨"player"⟩, ⟨"text"⟩, ⟨"entity"⟩, ⟨"boolean"⟩, .object] := by decide
  have hacyclic : ∀ x, ¬ Relation.TransGen (Asks hinted) x x := by
    refine acyclic_of_ranks (arrange hinted) ?_
    rw [hlisting]
    decide
  exact ⟨hkeys, hacyclic, hlisting, hlisting ▸ (arrange_smallest hinted hkeys).2 hacyclic⟩

/-! Players and texts ask to precede each other. Players are entities, which ask for nothing. -/

/-- The universal type and three types, two of which stand on a circle. -/
def circled : List (Descriptor Unit) := [
  .object,
  .ofShape ⟨"entity"⟩ .u8,
  { Descriptor.ofShape ⟨"player"⟩ .u8 with supertypes := [⟨"entity"⟩], before := [⟨"text"⟩] },
  { Descriptor.ofShape ⟨"text"⟩ .string with before := [⟨"player"⟩] }]

/-- Entities and the universal type are behind the circle, and so they stay where they were. -/
theorem circled_stays : (keysOf circled).Nodup ∧ HeldUp (Asks circled) ⟨"player"⟩ ∧
    (Before (arrange circled) ⟨"player"⟩ ⟨"entity"⟩ ↔
      Before (keysOf circled) ⟨"player"⟩ ⟨"entity"⟩) := by
  have hkeys : (keysOf circled).Nodup := by decide
  have hplayer : HeldUp (Asks circled) ⟨"player"⟩ :=
    ⟨⟨"player"⟩, .tail (.single (b := ⟨"text"⟩) (by decide)) (by decide), .refl⟩
  have hentity := hplayer.behind (y := ⟨"entity"⟩) (by decide)
  exact ⟨hkeys, hplayer, (arrange_circles circled hkeys).2.1 _ _ hplayer hentity⟩

/-- Neither entities nor the universal type ever come before players, but both stand in front of
them: the supertype before the subtype, and the universal type first. -/
theorem circled_displaced : (keysOf circled).Nodup ∧
    arrange circled = [.object, ⟨"entity"⟩, ⟨"player"⟩, ⟨"text"⟩] ∧
    (∀ x ∈ [⟨"entity"⟩, .object], Asks circled ⟨"player"⟩ x ∧
      ¬ Relation.ReflTransGen (Asks circled) x ⟨"player"⟩ ∧
      ¬ Before (arrange circled) ⟨"player"⟩ x) := by
  have hlisting : arrange circled = [.object, ⟨"entity"⟩, ⟨"player"⟩, ⟨"text"⟩] := by decide
  -- Entities ask for nothing but to precede the universal type, which asks for nothing.
  have hreached : ∀ {x y}, Relation.ReflTransGen (Asks circled) x y →
      x ∈ [⟨"entity"⟩, .object] → y ∈ [⟨"entity"⟩, TypeKey.object] := by
    have hstep : ∀ a ∈ circled, ∀ b ∈ circled, Precedes a b →
        a.key ∈ [⟨"entity"⟩, .object] → b.key ∈ [⟨"entity"⟩, TypeKey.object] := by decide
    intro x y hxy hx
    induction hxy with
    | refl => exact hx
    | tail _ hyz ih =>
      obtain ⟨a, ha, b, hb, hprecedes, rfl, rfl⟩ := hyz
      exact hstep a ha b hb hprecedes ih
  refine ⟨by decide, hlisting, fun x hx => ⟨?_, fun h => ?_, ?_⟩⟩
  · revert x
    decide
  · exact absurd (hreached h hx) (by decide)
  · rw [hlisting]
    revert x
    decide

end ScriptEngine.Listing

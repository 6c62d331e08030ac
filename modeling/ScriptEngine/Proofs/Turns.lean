import Mathlib.Data.Fintype.Card
import Mathlib.Data.List.Perm.Subperm
import Mathlib.Data.Set.Finite.Basic
import Mathlib.Logic.Relation

/-! Listing items in turn.

Some items come before others. They are listed one after the other, each time the first whose
predecessors have all been listed (`Turns`), until it is nobody's turn; the others follow as they
stand (`Arranged`). The ones that are left are those behind a circle (`Arranged.mem_listed`). So of
two items of which one comes before the other, the order is kept unless the former stands behind a
circle and was the later one from the start (`Arranged.before_iff`). Where there are no circles, no
other order that keeps what comes before what is smaller (`Arranged.smallest`). -/
namespace ScriptEngine.Listing
variable {α β : Type}

/-! ### Turns -/

/-- In a list, one item stands before another. -/
def Before (items : List α) (x y : α) : Prop := [x, y].Sublist items

section
variable (R : α → α → Prop) (all : List α)

/-- After some items it is the turn of an item: it is not one of them, but all that come before it
are. -/
structure Due (done : List α) (x : α) : Prop where
  item : x ∈ all
  new : x ∉ done
  free : ∀ y, R y x → y ∈ done

/-- Items listed one after the other, each time the first of those whose turn it is. -/
inductive Turns : List α → Prop where
  | nil : Turns []
  | next {done x} : Turns done → Due R all done x →
      (∀ y, Due R all done y → x = y ∨ Before all x y) → Turns (done ++ [x])

/-- An item stands on a circle or behind one. -/
def HeldUp (x : α) : Prop := ∃ c, Relation.TransGen R c c ∧ Relation.ReflTransGen R c x

/-- Items in an order that keeps what comes before what. -/
structure Topological (order : List α) : Prop where
  each : order.Perm all
  keeps : ∀ x y, R x y → Before order x y

/-- The smallest order that keeps what comes before what, compared item by item by where these stood
at first: everywhere stands the first item whose turn it is. -/
structure Smallest (order : List α) : Prop extends Topological R all order where
  least : ∀ other, Topological R all other → order = other ∨ List.Lex (Before all) order other
  earliest : ∀ done x rest, order = done ++ x :: rest →
    Due R all done x ∧ ∀ y, Due R all done y → x = y ∨ Before all x y

/-- Items listed in turn until it is nobody's turn; the rest follow as they stand. -/
structure Arranged [DecidableEq α] (listed result : List α) : Prop where
  turns : Turns R all listed
  ended : ∀ x, ¬ Due R all listed x
  result_eq : result = listed ++ all.filter fun x => x ∉ listed

end

variable {R : α → α → Prop} {all : List α}

/-! ### Before -/

instance [DecidableEq α] (items : List α) (x y : α) : Decidable (Before items x y) :=
  inferInstanceAs (Decidable ([x, y].Sublist items))

namespace Before
variable {items more : List α} {x y : α}

theorem mem_left (h : Before items x y) : x ∈ items := h.subset (by simp)

theorem of_append (hx : x ∈ items) (hy : y ∈ more) : Before (items ++ more) x y :=
  (List.singleton_sublist.mpr hx).append (List.singleton_sublist.mpr hy)

theorem append_cases (h : Before (items ++ more) x y) : x ∈ items ∨ Before more x y := by
  obtain ⟨front, back, hsplit, hfront, hback⟩ := List.sublist_append_iff.mp h
  rcases List.cons_eq_append_iff.mp hsplit with ⟨-, rfl⟩ | ⟨front, rfl, -⟩
  · exact .inr hback
  · exact .inl (hfront.subset (List.mem_cons_self ..))

/-- An item that stands before another one is found in front of it. -/
theorem mem_front (h : Before (items ++ y :: more) x y) (hnodup : (items ++ y :: more).Nodup) :
    x ∈ items := by
  have hmore : y ∉ more := (List.nodup_cons.mp (List.nodup_append.mp hnodup).2.1).1
  refine h.append_cases.resolve_right fun hback => hmore ?_
  cases hback with
  | cons _ hback => exact hback.subset (by simp)
  | cons_cons _ hback => exact List.singleton_sublist.mp hback

end Before

/-! ### What stands behind a circle -/

namespace HeldUp
variable {x y : α}

theorem behind (h : HeldUp R x) (hxy : R x y) : HeldUp R y := by
  obtain ⟨c, hcircle, hx⟩ := h
  exact ⟨c, hcircle, hx.tail hxy⟩

theorem ahead (h : HeldUp R x) : ∃ y, R y x ∧ HeldUp R y := by
  obtain ⟨c, hcircle, hx⟩ := h
  rcases Relation.ReflTransGen.cases_tail hx with rfl | ⟨y, hy, hyx⟩
  · obtain ⟨y, hy, hyx⟩ := Relation.TransGen.tail'_iff.mp hcircle
    exact ⟨y, hyx, x, hcircle, hy⟩
  · exact ⟨y, hyx, c, hcircle, hy⟩

end HeldUp

/-! ### What is listed in turn -/

namespace Turns
variable {done rest order : List α} {x y : α}

/-- Everywhere stands the first item whose turn it was. -/
theorem split (h : Turns R all (done ++ x :: rest)) :
    Due R all done x ∧ ∀ y, Due R all done y → x = y ∨ Before all x y := by
  generalize hlist : done ++ x :: rest = order at h
  induction h generalizing rest with
  | nil => simp at hlist
  | @next before z _ hdue hfirst ih =>
    rcases List.eq_nil_or_concat rest with rfl | ⟨rest, last, rfl⟩
    · obtain ⟨rfl, hlast⟩ := List.append_inj' hlist rfl
      cases hlast
      exact ⟨hdue, hfirst⟩
    · rw [List.concat_eq_append, ← List.cons_append, ← List.append_assoc] at hlist
      exact ih (List.append_inj' hlist rfl).1

theorem nodup (h : Turns R all order) : order.Nodup := by
  induction h with
  | nil => exact List.nodup_nil
  | next _ hdue _ ih => exact List.nodup_append.mpr ⟨ih, List.nodup_singleton _, by
      rintro y hy _ hx rfl
      cases List.mem_singleton.mp hx
      exact hdue.new hy⟩

theorem subset (h : Turns R all order) : order ⊆ all := by
  induction h with
  | nil => exact List.nil_subset _
  | next _ hdue _ ih => exact List.append_subset.mpr ⟨ih, by simpa using hdue.item⟩

/-- What comes before a listed item is listed before it. -/
theorem before (h : Turns R all order) (hxy : R x y) (hy : y ∈ order) : Before order x y := by
  obtain ⟨done, rest, rfl⟩ := List.append_of_mem hy
  exact .of_append (h.split.1.free x hxy) (List.mem_cons_self ..)

/-- Nothing that is held up gets its turn. -/
theorem not_heldUp (h : Turns R all order) (hx : x ∈ order) : ¬ HeldUp R x := by
  induction h generalizing x with
  | nil => cases hx
  | next _ hdue _ ih =>
    rcases List.mem_append.mp hx with hx | hx
    · exact ih hx
    · cases List.mem_singleton.mp hx
      intro hheld
      obtain ⟨y, hy, hahead⟩ := hheld.ahead
      exact ih (hdue.free y hy) hahead

/-- When it is nobody's turn any more, everything that is not held up has been listed: going back
from one that was not listed, one would never come to an end, and there are finitely many items. -/
theorem mem_of_over (hitems : ∀ x y, R x y → x ∈ all) (hover : ∀ x, ¬ Due R all order x)
    (hx : x ∈ all) (hfree : ¬ HeldUp R x) : x ∈ order := by
  have hirrefl : Std.Irrefl fun a b : { a // a ∈ all } =>
      Relation.TransGen R a b ∧ ¬ HeldUp R b.1 :=
    ⟨fun a ⟨hcircle, hfree⟩ => hfree ⟨a, hcircle, .refl⟩⟩
  have htrans : IsTrans { a // a ∈ all } fun a b =>
      Relation.TransGen R a b ∧ ¬ HeldUp R b.1 :=
    ⟨fun _ _ _ hab hbc => ⟨hab.1.trans hbc.1, hbc.2⟩⟩
  have hfinite : Finite { a // a ∈ all } := (List.finite_toSet all).to_subtype
  have hwf := Finite.wellFounded_of_trans_of_irrefl
    fun a b : { a // a ∈ all } => Relation.TransGen R a b ∧ ¬ HeldUp R b.1
  suffices hlisted : ∀ a : { a // a ∈ all }, ¬ HeldUp R a.1 → a.1 ∈ order from
    hlisted ⟨x, hx⟩ hfree
  intro a
  induction a using hwf.induction with
  | _ a ih =>
    intro hfree
    by_contra hnew
    refine hover a.1 ⟨a.2, hnew, fun y hy => ?_⟩
    exact ih ⟨y, hitems y a hy⟩ ⟨.single hy, hfree⟩ fun hheld => hfree (hheld.behind hy)

/-- Items keep their turns under other names. -/
theorem map {S : β → β → Prop} {f : α → β}
    (hdue : ∀ {done x}, done ⊆ all → (Due S (all.map f) (done.map f) x ↔
      ∃ y, Due R all done y ∧ f y = x)) (h : Turns R all order) :
    Turns S (all.map f) (order.map f) := by
  induction h with
  | nil => exact .nil
  | next hturns hx hfirst ih =>
    rw [List.map_append]
    refine .next ih ((hdue hturns.subset).mpr ⟨_, hx, rfl⟩) fun y hy => ?_
    obtain ⟨z, hz, rfl⟩ := (hdue hturns.subset).mp hy
    rcases hfirst z hz with rfl | hbefore
    · exact .inl rfl
    · exact .inr (hbefore.map f)

end Turns

/-! ### What the arrangement keeps -/

namespace Arranged
variable [DecidableEq α] {listed result : List α} {x y : α} (h : Arranged R all listed result)
  (hall : all.Nodup) (hitems : ∀ x y, R x y → x ∈ all)
include h

include hall in
/-- Each item is there once, whatever comes before what. -/
theorem perm : result.Perm all := by
  have hnodup : result.Nodup := by
    rw [h.result_eq, List.nodup_append]
    refine ⟨h.turns.nodup, hall.filter _, ?_⟩
    rintro x hx _ hrest rfl
    exact absurd hx (by simpa using (List.mem_filter.mp hrest).2)
  refine (List.perm_ext_iff_of_nodup hnodup hall).mpr fun x => ?_
  rw [h.result_eq, List.mem_append, List.mem_filter, decide_eq_true_eq]
  constructor
  · rintro (hx | ⟨hx, -⟩)
    · exact h.turns.subset hx
    · exact hx
  · intro hx
    by_cases hlisted : x ∈ listed
    · exact .inl hlisted
    · exact .inr ⟨hx, hlisted⟩

include hitems in
/-- The items that got their turn are those that no circle holds up. -/
theorem mem_listed : x ∈ listed ↔ x ∈ all ∧ ¬ HeldUp R x :=
  ⟨fun hx => ⟨h.turns.subset hx, h.turns.not_heldUp hx⟩,
    fun hx => Turns.mem_of_over hitems h.ended hx.1 hx.2⟩

include hitems in
/-- What is held up comes after all that is not. -/
theorem before_of_heldUp (hx : x ∈ all) (hfree : ¬ HeldUp R x) (hy : y ∈ all)
    (hheld : HeldUp R y) : Before result x y := by
  have hlisted : y ∉ listed := fun hy => h.turns.not_heldUp hy hheld
  rw [h.result_eq]
  exact .of_append ((h.mem_listed hitems).mpr ⟨hx, hfree⟩) (List.mem_filter.mpr ⟨hy, by simpa⟩)

/-- What is held up stands as it did. -/
theorem before_heldUp_iff (hx : HeldUp R x) (hy : HeldUp R y) :
    Before result x y ↔ Before all x y := by
  have hnew : ∀ {z}, HeldUp R z → z ∉ listed := fun hz hlisted => h.turns.not_heldUp hlisted hz
  rw [h.result_eq]
  constructor
  · intro hbefore
    exact (hbefore.append_cases.resolve_left (hnew hx)).trans List.filter_sublist
  · intro hbefore
    have hrest := hbefore.filter fun z => z ∉ listed
    rw [List.filter_cons_of_pos (by simpa using hnew hx),
      List.filter_cons_of_pos (by simpa using hnew hy)] at hrest
    exact hrest.trans (List.sublist_append_right _ _)

include hitems in
/-- Where one item comes before another, they are in that order unless the former is held up and
stood behind the latter at first. -/
theorem before_iff (hy : y ∈ all) (hxy : R x y) :
    Before result x y ↔ ¬ HeldUp R x ∨ Before all x y := by
  have hx := hitems x y hxy
  by_cases hheld : HeldUp R x
  · rw [h.before_heldUp_iff hheld (hheld.behind hxy)]
    simp [hheld]
  · simp only [hheld, not_false_eq_true, true_or, iff_true]
    by_cases hlater : HeldUp R y
    · exact h.before_of_heldUp hitems hx hheld hy hlater
    · rw [h.result_eq]
      exact (h.turns.before hxy ((h.mem_listed hitems).mpr ⟨hy, hlater⟩)).trans
        (List.sublist_append_left _ _)

include hitems in
/-- Where there is no circle, every item gets its turn. -/
theorem turns_of_acyclic (hacyclic : ∀ x, ¬ Relation.TransGen R x x) : Turns R all result := by
  have hrest : (all.filter fun x => x ∉ listed) = [] := by
    refine List.filter_eq_nil_iff.mpr fun x hx => ?_
    have hfree : ¬ HeldUp R x := fun ⟨c, hcircle, _⟩ => hacyclic c hcircle
    simpa using (h.mem_listed hitems).mpr ⟨hx, hfree⟩
  rw [h.result_eq, hrest, List.append_nil]
  exact h.turns

end Arranged

/-- Of two orders that begin in the same way, the one in turn goes on with the same item as the other
or with one that stood earlier. -/
theorem Turns.lex {done rest other : List α} (h : Turns R all (done ++ rest))
    (hother : Topological R all (done ++ other)) (hall : all.Nodup)
    (hlength : rest.length = other.length) :
    rest = other ∨ List.Lex (Before all) rest other := by
  induction rest generalizing done other with
  | nil => exact .inl (List.length_eq_zero_iff.mp hlength.symm).symm
  | cons x rest ih =>
    obtain ⟨y, other, rfl⟩ := List.exists_cons_of_length_eq_add_one hlength.symm
    have hnodup : (done ++ y :: other).Nodup := hother.each.nodup_iff.mpr hall
    have hdue : Due R all done y := {
      item := hother.each.subset (by simp)
      new := fun hy => (List.nodup_append.mp hnodup).2.2 y hy y (List.mem_cons_self ..) rfl
      free := fun z hz => (hother.keeps z y hz).mem_front hnodup }
    rcases h.split.2 y hdue with rfl | hbefore
    · rw [List.append_cons] at h hother
      rcases ih h hother (by simpa using hlength) with rfl | hlex
      · exact .inl rfl
      · exact .inr (.cons hlex)
    · exact .inr (.rel hbefore)

/-- Where there is no circle, the arrangement is the smallest order. -/
theorem Arranged.smallest [DecidableEq α] {listed result : List α}
    (h : Arranged R all listed result) (hall : all.Nodup)
    (hitems : ∀ x y, R x y → x ∈ all ∧ y ∈ all)
    (hacyclic : ∀ x, ¬ Relation.TransGen R x x) : Smallest R all result := by
  have hturns := h.turns_of_acyclic (fun x y hxy => (hitems x y hxy).1) hacyclic
  have hperm := h.perm hall
  refine ⟨⟨hperm, fun x y hxy => ?_⟩, fun other hother => ?_, ?_⟩
  · exact hturns.before hxy (hperm.symm.subset (hitems x y hxy).2)
  · have hlex : Turns R all ([] ++ result) := hturns
    exact hlex.lex hother hall (hperm.trans hother.each.symm).length_eq
  · rintro done x rest rfl
    exact hturns.split

end ScriptEngine.Listing

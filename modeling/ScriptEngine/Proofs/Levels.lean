import Mathlib.Data.List.Chain
import ScriptEngine.Proofs.Search

/-! Shortest routes.

A breadth-first search arrives at every point by a shortest route: whatever route leads to the
target of an arrival, a shorter one leads to the place that the arrival set out from
(`search_nearer`). For that, what was seen before a round is what routes of so many points lead to.
So the nearest places are found first (`search_ascends`). Of the arrows between the two places a
search followed the first (`search_first`). -/
namespace ScriptEngine.Search
variable {α β : Type}

/-! ### Routes -/

/-- The points of a way from one point to another, both included. -/
structure Route (R : α → α → Prop) (a b : α) (path : List α) : Prop where
  starts : path.head? = some a
  ends : path.getLast? = some b
  steps : path.IsChain R

/-- A route such that no other between the same points is shorter. -/
structure Shortest (R : α → α → Prop) (a b : α) (path : List α) : Prop extends
    Route R a b path where
  least : ∀ other, Route R a b other → path.length ≤ other.length

section
variable {R : α → α → Prop} {a b c : α} {path : List α}

theorem Route.single (a : α) : Route R a a [a] := ⟨rfl, rfl, .singleton a⟩

theorem Route.length_pos (h : Route R a b path) : 0 < path.length := by
  have hne : path ≠ [] := fun hnil => by cases hnil ▸ h.starts
  exact List.length_pos_of_ne_nil hne

theorem Route.concat (h : Route R a b path) (hbc : R b c) : Route R a c (path ++ [c]) := by
  refine ⟨?_, List.getLast?_concat, ?_⟩
  · rw [List.head?_append_of_ne_nil _ (List.ne_nil_of_length_pos h.length_pos)]
    exact h.starts
  · refine h.steps.append (.singleton c) fun x hx y hy => ?_
    rw [h.ends] at hx
    cases hx
    cases hy
    exact hbc

/-- A route is at its start, or takes its last step from the end of a route before it. -/
theorem Route.cases_last (h : Route R a b path) :
    path = [a] ∧ b = a ∨ ∃ mid before, Route R a mid before ∧ R mid b ∧ path = before ++ [b] := by
  obtain ⟨before, last, rfl⟩ :=
    List.eq_nil_or_concat path |>.resolve_left (List.ne_nil_of_length_pos h.length_pos)
  rw [List.concat_eq_append] at h ⊢
  obtain rfl : last = b := by simpa using h.ends
  rcases List.eq_nil_or_concat before with rfl | ⟨first, mid, rfl⟩
  · have hstart : last = a := by simpa using h.starts
    exact .inl ⟨by rw [hstart]; rfl, hstart⟩
  · rw [List.concat_eq_append] at h ⊢
    have hsplit := List.isChain_append.mp h.steps
    refine .inr ⟨mid, first ++ [mid], ⟨?_, List.getLast?_concat, hsplit.1⟩, ?_, rfl⟩
    · have hstart := h.starts
      rwa [List.head?_append_of_ne_nil _ (by simp)] at hstart
    · exact hsplit.2.2 mid (by simp) last (by simp)

/-- What is left of a route from one of its points on. -/
theorem Route.suffix {x : α} (before : List α) {after : List α}
    (h : Route R a b (before ++ x :: after)) : Route R x b (x :: after) := by
  refine ⟨rfl, ?_, (List.isChain_append.mp h.steps).2.1⟩
  have hends := h.ends
  rwa [List.getLast?_append_of_ne_nil _ (List.cons_ne_nil x after)] at hends

theorem Route.cons (h : Route R b c path) (hab : R a b) : Route R a c (a :: path) := by
  have hne : path ≠ [] := List.ne_nil_of_length_pos h.length_pos
  refine ⟨rfl, ?_, h.steps.cons fun x hx => ?_⟩
  · rw [← List.singleton_append, List.getLast?_append_of_ne_nil _ hne]
    exact h.ends
  · rw [h.starts] at hx
    cases hx
    exact hab

/-- A route is at its end, or takes its first step to the start of a route that is left. -/
theorem Route.cases_first (h : Route R a b path) :
    path = [a] ∧ b = a ∨ ∃ next rest, R a next ∧ Route R next b rest ∧ path = a :: rest := by
  obtain ⟨first, after, rfl⟩ := List.exists_cons_of_length_pos h.length_pos
  obtain rfl : first = a := by simpa using h.starts
  cases after with
  | nil =>
    have hend : first = b := by simpa using h.ends
    exact .inl ⟨rfl, hend.symm⟩
  | cons next rest =>
    exact .inr ⟨next, next :: rest, (List.isChain_cons_cons.mp h.steps).1, h.suffix [first], rfl⟩

/-- A shortest route comes to no point twice: it could leave out what is in between. -/
theorem Shortest.nodup (h : Shortest R a b path) : path.Nodup := by
  induction path generalizing a with
  | nil => exact List.nodup_nil
  | cons first rest ih =>
    obtain rfl : first = a := by simpa using h.starts
    refine List.nodup_cons.mpr ⟨fun hagain => ?_, ?_⟩
    · obtain ⟨between, after, rfl⟩ := List.append_of_mem hagain
      have hshort := h.least _ (h.toRoute.suffix (first :: between))
      simp only [List.length_cons, List.length_append] at hshort
      omega
    · cases rest with
      | nil => exact List.nodup_nil
      | cons next rest =>
        refine ih ⟨h.toRoute.suffix [first], fun other hother => ?_⟩
        have hlonger := h.least _ (hother.cons (List.isChain_cons_cons.mp h.steps).1)
        simpa using hlonger

end

/-! ### Which arrow is followed -/

section
variable [DecidableEq α] {out : α → List (β × α)} {seen points : List α} {a : Arrival α β}

/-- Of the arrows to one point, the first is followed. -/
theorem firstArrivals_first {found : List (Arrival α β)} (h : a ∈ firstArrivals seen found) :
    a.target ∉ seen ∧ (found.find? fun b => b.target == a.target) = some a := by
  induction found generalizing seen with
  | nil => exact absurd h List.not_mem_nil
  | cons b rest ih =>
    rw [firstArrivals] at h
    split at h
    · rename_i hb
      obtain ⟨hnew, hfirst⟩ := ih h
      have hne : b.target ≠ a.target := fun he => hnew (he ▸ hb)
      exact ⟨hnew, by rwa [List.find?_cons_of_neg (by simpa using hne)]⟩
    · rename_i hb
      rcases List.mem_cons.mp h with rfl | h
      · exact ⟨hb, List.find?_cons_of_pos (beq_self_eq_true _)⟩
      · obtain ⟨hnew, hfirst⟩ := ih h
        rw [List.mem_cons, not_or] at hnew
        exact ⟨hnew.2, by rwa [List.find?_cons_of_neg (by simpa using Ne.symm hnew.1)]⟩

/-- So it is the first one out of the point that it sets out from. -/
theorem arrows_first (h : ((arrows out points).find? fun b => b.target == a.target) = some a) :
    ((out a.source).find? fun arrow => arrow.2 == a.target) = some (a.label, a.target) := by
  rw [arrows, List.find?_flatMap] at h
  obtain ⟨p, _, hp⟩ := List.exists_of_findSome?_eq_some h
  rw [List.find?_map, Option.map_eq_some_iff] at hp
  obtain ⟨arrow, harrow, rfl⟩ := hp
  exact harrow

theorem rounds_first (n : Nat) (h : a ∈ rounds out n seen points) :
    ((out a.source).find? fun arrow => arrow.2 == a.target) = some (a.label, a.target) := by
  induction n generalizing seen points with
  | zero => exact absurd h List.not_mem_nil
  | succ n ih =>
    rw [rounds] at h
    rcases List.mem_append.mp h with h | h
    · exact arrows_first (firstArrivals_first h).2
    · exact ih h

/-- **A search follows the first arrow** between the two places. -/
theorem search_first {n : Nat} {start : α} (h : a ∈ search out n start) :
    ((out a.source).find? fun arrow => arrow.2 == a.target) = some (a.label, a.target) :=
  rounds_first n h

/-! ### How far the places are -/

/-- A route of at most so many steps leads from one point to another. -/
def Within (R : α → α → Prop) (n : Nat) (a b : α) : Prop :=
  ∃ path, Route R a b path ∧ path.length ≤ n + 1

/-- Whatever route leads to the second of two points, one that is no longer leads to the first. -/
def NoFarther (R : α → α → Prop) (start x y : α) : Prop :=
  ∀ path, Route R start y path → ∃ other, Route R start x other ∧ other.length ≤ path.length

/-- What holds after a number of rounds: routes of so many steps lead to what has been seen, and
only the arrows out of the points found last have not been followed. -/
structure Level (out : α → List (β × α)) (start : α) (n : Nat) (seen points : List α) : Prop where
  seen_iff : ∀ x, x ∈ seen ↔ Within (Arrow out) n start x
  found : ∀ x ∈ points, x ∈ seen
  closed : ∀ x ∈ seen, x ∉ points → ∀ y, Arrow out x y → y ∈ seen

namespace Level
variable {start : α} {n : Nat} (h : Level out start n seen points)
include h

/-- The next round sees what one more step leads to. -/
theorem next : Level out start (n + 1)
    ((firstArrivals seen (arrows out points)).map (·.target) ++ seen)
    ((firstArrivals seen (arrows out points)).map (·.target)) := by
  have hcovers : ∀ x ∈ seen, ∀ y, Arrow out x y →
      y ∈ (firstArrivals seen (arrows out points)).map (·.target) ++ seen :=
    fun x hx y hxy => round_covers h.closed hx hxy
  refine ⟨fun x => ⟨fun hx => ?_, ?_⟩, fun x hx => List.mem_append_left _ hx, fun x hx hold => ?_⟩
  · rcases List.mem_append.mp hx with hx | hx
    · obtain ⟨a, ha, rfl⟩ := List.mem_map.mp hx
      have harrow := mem_arrows.mp (firstArrivals_sublist.subset ha)
      obtain ⟨path, hpath, hlength⟩ := (h.seen_iff _).mp (h.found _ harrow.1)
      refine ⟨_, hpath.concat ⟨a.label, harrow.2⟩, ?_⟩
      rw [List.length_append, List.length_singleton]
      omega
    · obtain ⟨path, hpath, hlength⟩ := (h.seen_iff x).mp hx
      exact ⟨path, hpath, by omega⟩
  · rintro ⟨path, hpath, hlength⟩
    by_cases hshort : path.length ≤ n + 1
    · exact List.mem_append_right _ ((h.seen_iff x).mpr ⟨path, hpath, hshort⟩)
    · rcases hpath.cases_last with ⟨rfl, _⟩ | ⟨mid, before, hbefore, hlast, rfl⟩
      · rw [List.length_singleton] at hshort
        omega
      · rw [List.length_append, List.length_singleton] at hlength
        exact hcovers mid ((h.seen_iff mid).mpr ⟨before, hbefore, by omega⟩) x hlast
  · exact hcovers x ((List.mem_append.mp hx).resolve_left hold)

/-- What is found in the next round is one step farther than where it was found from. -/
theorem nearer (ha : a ∈ firstArrivals seen (arrows out points)) {path : List α}
    (hpath : Route (Arrow out) start a.target path) :
    ∃ before, Route (Arrow out) start a.source before ∧ before.length < path.length := by
  have hnew := (firstArrivals_first ha).1
  have hsource := (mem_arrows.mp (firstArrivals_sublist.subset ha)).1
  obtain ⟨before, hbefore, hlength⟩ := (h.seen_iff _).mp (h.found _ hsource)
  refine ⟨before, hbefore, ?_⟩
  by_contra hlong
  exact hnew ((h.seen_iff _).mpr ⟨path, hpath, by omega⟩)

end Level

theorem level_start (start : α) : Level out start 0 [start] [start] := by
  refine ⟨fun x => ?_, fun x hx => hx, fun x hx hnot => absurd hx hnot⟩
  rw [List.mem_singleton]
  constructor
  · rintro rfl
    exact ⟨[x], .single x, Nat.le_refl 1⟩
  · rintro ⟨path, hpath, hlength⟩
    rcases hpath.cases_last with ⟨_, hx⟩ | ⟨mid, before, hbefore, _, rfl⟩
    · exact hx
    · have hpos := hbefore.length_pos
      rw [List.length_append, List.length_singleton] at hlength
      omega

/-- What is found from here on is no nearer than what is found in the next round. -/
theorem Level.no_farther {start x y : α} {n : Nat} (h : Level out start n seen points)
    (hx : x ∈ (firstArrivals seen (arrows out points)).map (·.target)) (hy : y ∉ seen) :
    NoFarther (Arrow out) start x y := by
  intro path hpath
  obtain ⟨other, hother, hlength⟩ := (h.next.seen_iff x).mp (List.mem_append_left _ hx)
  refine ⟨other, hother, ?_⟩
  by_contra hlong
  exact hy ((h.seen_iff y).mpr ⟨path, hpath, by omega⟩)

theorem rounds_ascend {start : α} {n : Nat} (m : Nat) (h : Level out start n seen points) :
    ((rounds out m seen points).map (·.target)).Pairwise (NoFarther (Arrow out) start) := by
  induction m generalizing n seen points with
  | zero => exact List.Pairwise.nil
  | succ m ih =>
    have hnew := (rounds_trail (m + 1) h.found : Trail out seen (rounds out _ seen points)).nodup.2
    rw [rounds, List.map_append] at hnew ⊢
    refine List.pairwise_append.mpr ⟨?_, ih h.next, fun x hx y hy => ?_⟩
    · exact List.pairwise_of_forall_mem_list fun x hx y hy =>
        h.no_farther hx (hnew y (List.mem_append_left _ hy))
    · exact h.no_farther hx (hnew y (List.mem_append_right _ hy))

/-- **A search finds the nearest places first.** -/
theorem search_ascends (n : Nat) (start : α) :
    ((search out n start).map (·.target)).Pairwise (NoFarther (Arrow out) start) :=
  rounds_ascend n (level_start start)

theorem rounds_nearer {start : α} {n : Nat} (m : Nat) (h : Level out start n seen points)
    (ha : a ∈ rounds out m seen points) {path : List α}
    (hpath : Route (Arrow out) start a.target path) :
    ∃ before, Route (Arrow out) start a.source before ∧ before.length < path.length := by
  induction m generalizing n seen points with
  | zero => exact absurd ha List.not_mem_nil
  | succ m ih =>
    rw [rounds] at ha
    rcases List.mem_append.mp ha with ha | ha
    · exact h.nearer ha hpath
    · exact ih h.next ha

/-- **A search arrives by shortest routes**: whatever route leads to a place that it arrived at, a
shorter one leads to the place that it arrived from. -/
theorem search_nearer {n : Nat} {start : α} (ha : a ∈ search out n start) {path : List α}
    (hpath : Route (Arrow out) start a.target path) :
    ∃ before, Route (Arrow out) start a.source before ∧ before.length < path.length :=
  rounds_nearer n (level_start start) ha hpath

end

end ScriptEngine.Search

import Mathlib.Data.Finset.Card
import Mathlib.Logic.Relation
import ScriptEngine.Search.Breadth

/-! What breadth-first search finds.

The arrivals of a search form a `Trail`: each follows an arrow from the start or from the
target of an earlier arrival to a point not seen before. So everything that is found can
be reached. With as many rounds as there are points that an arrow leads to, everything
that can be reached is found (`mem_search`), and further rounds find nothing more
(`search_saturated`). -/
namespace ScriptEngine.Search
variable {α β : Type}

/-! ### Arrows -/

/-- An arrow leads from one point to another. -/
def Arrow (out : α → List (β × α)) (x y : α) : Prop := ∃ label, (label, y) ∈ out x

theorem mem_arrows {out : α → List (β × α)} {points : List α} {a : Arrival α β} :
    a ∈ arrows out points ↔ a.source ∈ points ∧ (a.label, a.target) ∈ out a.source := by
  simp only [arrows, List.mem_flatMap, List.mem_map]
  constructor
  · rintro ⟨p, hp, arrow, harrow, rfl⟩
    exact ⟨hp, harrow⟩
  · rintro ⟨hp, harrow⟩
    exact ⟨a.source, hp, (a.label, a.target), harrow, rfl⟩

/-! ### Trails -/

/-- Arrivals in an order in which each sets out from a point that was seen before it, and arrives at
a point that was not. -/
inductive Trail (out : α → List (β × α)) : List α → List (Arrival α β) → Prop where
  | nil {seen} : Trail out seen []
  | cons {seen a rest} : a.source ∈ seen → (a.label, a.target) ∈ out a.source → a.target ∉ seen →
      Trail out (a.target :: seen) rest → Trail out seen (a :: rest)

namespace Trail
variable {out : α → List (β × α)} {seen seen' : List α} {steps steps' : List (Arrival α β)}

theorem congr (h : Trail out seen steps) (hs : ∀ x, x ∈ seen' ↔ x ∈ seen) :
    Trail out seen' steps := by
  induction h generalizing seen' with
  | nil => exact .nil
  | cons hsource harrow hnew _ ih =>
    refine .cons ((hs _).mpr hsource) harrow (fun hm => hnew ((hs _).mp hm)) (ih fun x => ?_)
    simp only [List.mem_cons, hs]

theorem append (h : Trail out seen steps) (h' : Trail out seen' steps')
    (hs : ∀ x, x ∈ seen' ↔ x ∈ steps.map (·.target) ∨ x ∈ seen) :
    Trail out seen (steps ++ steps') := by
  induction h with
  | nil => exact h'.congr fun x => by simp [hs]
  | cons hsource harrow hnew _ ih =>
    refine .cons hsource harrow hnew (ih fun x => ?_)
    rw [hs, List.map_cons, List.mem_cons, List.mem_cons]
    tauto

/-- The targets of a trail are new, and no two are the same. -/
theorem nodup (h : Trail out seen steps) :
    (steps.map (·.target)).Nodup ∧ ∀ x ∈ steps.map (·.target), x ∉ seen := by
  induction h with
  | nil => simp
  | cons _ _ hnew _ ih =>
    obtain ⟨hnodup, hfresh⟩ := ih
    rw [List.map_cons, List.nodup_cons]
    refine ⟨⟨fun hm => hfresh _ hm (List.mem_cons_self ..), hnodup⟩, fun x hx => ?_⟩
    rcases List.mem_cons.mp hx with rfl | hx
    · exact hnew
    · exact fun hs => hfresh x hx (List.mem_cons_of_mem _ hs)

/-- Every arrival of a trail can be reached from a point seen before the trail. -/
theorem reached (h : Trail out seen steps) :
    ∀ x ∈ steps.map (·.target), ∃ p ∈ seen, Relation.TransGen (Arrow out) p x := by
  induction h with
  | nil => simp
  | @cons seen a rest hsource harrow _ _ ih =>
    have hstep : Arrow out a.source a.target := ⟨a.label, harrow⟩
    intro x hx
    rcases List.mem_cons.mp hx with rfl | hx
    · exact ⟨a.source, hsource, .single hstep⟩
    · obtain ⟨p, hp, hpath⟩ := ih x hx
      rcases List.mem_cons.mp hp with rfl | hp
      · exact ⟨a.source, hsource, .head hstep hpath⟩
      · exact ⟨p, hp, hpath⟩

/-- An arrival in the middle of a trail sets out from what was seen before the trail or found before
it. -/
theorem split {a : Arrival α β} (h : Trail out seen (steps ++ a :: steps')) :
    Trail out seen steps ∧ (a.source ∈ steps.map (·.target) ∨ a.source ∈ seen) ∧
      (a.label, a.target) ∈ out a.source := by
  induction steps generalizing seen with
  | nil =>
    cases h with
    | cons hsource harrow _ _ => exact ⟨.nil, .inr hsource, harrow⟩
  | cons b rest ih =>
    cases h with
    | cons hsource harrow hnew hrest =>
      obtain ⟨htrail, hfrom, ha⟩ := ih hrest
      refine ⟨.cons hsource harrow hnew htrail, ?_, ha⟩
      rw [List.mem_cons] at hfrom
      rw [List.map_cons, List.mem_cons]
      tauto

/-- Where one arrow at most leads out of the top and of every point that it leads to, a trail from
the top leads on from each of its points to all later ones. -/
theorem chain {top : α}
    (hunique : ∀ x, Relation.ReflTransGen (Arrow out) top x →
      ∀ y z, Arrow out x y → Arrow out x z → y = z)
    (hseen : ∀ x ∈ seen, ∀ y, Arrow out x y → y ∈ top :: seen) (h : Trail out (top :: seen) steps) :
    (top :: steps.map (·.target)).Pairwise (Relation.TransGen (Arrow out)) := by
  induction steps generalizing top seen with
  | nil => exact List.pairwise_singleton ..
  | cons a rest ih =>
    cases h with
    | cons hsource harrow hnew hrest =>
      have hstep : Arrow out a.source a.target := ⟨a.label, harrow⟩
      -- The arrows out of what was seen below the top have all been followed.
      have htop : a.source = top := by
        rcases List.mem_cons.mp hsource with he | hm
        · exact he
        · exact absurd (hseen _ hm _ hstep) hnew
      rw [htop] at hstep
      have hlater := ih (fun x hx => hunique x (.head hstep hx)) (fun x hx y hy => by
        rcases List.mem_cons.mp hx with rfl | hx
        · rw [hunique x .refl y a.target hy hstep]
          exact List.mem_cons_self ..
        · exact List.mem_cons_of_mem _ (hseen x hx y hy)) hrest
      refine List.pairwise_cons.mpr ⟨fun x hx => ?_, hlater⟩
      rcases List.mem_cons.mp hx with rfl | hx
      · exact .single hstep
      · exact .head hstep ((List.pairwise_cons.mp hlater).1 x hx)

end Trail

variable [DecidableEq α] {out : α → List (β × α)}

/-! ### One round -/

theorem firstArrivals_sublist {seen : List α} {found : List (Arrival α β)} :
    (firstArrivals seen found).Sublist found := by
  induction found generalizing seen with
  | nil => exact List.Sublist.refl _
  | cons a rest ih =>
    rw [firstArrivals]
    split
    · exact ih.cons a
    · exact ih.cons_cons a

theorem firstArrivals_covers (seen : List α) (found : List (Arrival α β)) :
    ∀ a ∈ found, a.target ∈ seen ∨ a.target ∈ (firstArrivals seen found).map (·.target) := by
  induction found generalizing seen with
  | nil => simp
  | cons b rest ih =>
    intro a ha
    rw [firstArrivals]
    split
    · rename_i hb
      rcases List.mem_cons.mp ha with rfl | ha
      · exact .inl hb
      · exact ih seen a ha
    · rw [List.map_cons, List.mem_cons]
      rcases List.mem_cons.mp ha with rfl | ha
      · exact .inr (.inl rfl)
      · rcases ih (b.target :: seen) a ha with hs | hs
        · rcases List.mem_cons.mp hs with he | hs
          · exact .inr (.inl he)
          · exact .inl hs
        · exact .inr (.inr hs)

theorem firstArrivals_trail {points seen : List α} (hp : ∀ p ∈ points, p ∈ seen)
    (found : List (Arrival α β)) (hf : ∀ a ∈ found, a ∈ arrows out points) :
    Trail out seen (firstArrivals seen found) := by
  induction found generalizing seen with
  | nil => exact .nil
  | cons a rest ih =>
    have hrest : ∀ b ∈ rest, b ∈ arrows out points := fun b hb => hf b (List.mem_cons_of_mem a hb)
    obtain ⟨hsource, harrow⟩ := mem_arrows.mp (hf a (List.mem_cons_self ..))
    rw [firstArrivals]
    split
    · exact ih hp hrest
    · rename_i hnew
      exact .cons (hp _ hsource) harrow hnew
        (ih (fun p h => List.mem_cons_of_mem _ (hp p h)) hrest)

/-- A round without arrivals is the last. -/
theorem rounds_of_no_arrival {seen points : List α}
    (h : firstArrivals seen (arrows out points) = []) (n : Nat) :
    rounds out n seen points = [] := by
  induction n generalizing seen points with
  | zero => rfl
  | succ n ih =>
    simp only [rounds, h, List.map_nil, List.nil_append]
    exact ih rfl

/-! ### All rounds -/

theorem rounds_trail (n : Nat) {seen points : List α} (hp : ∀ p ∈ points, p ∈ seen) :
    Trail out seen (rounds out n seen points) := by
  induction n generalizing seen points with
  | zero => exact .nil
  | succ n ih =>
    have hround := firstArrivals_trail hp (arrows out points) fun _ h => h
    exact hround.append (ih fun p h => List.mem_append_left _ h) fun x => List.mem_append

section Saturation
variable {places : Finset α} {points seen : List α}

/-- A round with an arrival leaves fewer places unseen. -/
theorem unseen_lt (hplaces : ∀ x y, Arrow out x y → y ∈ places) (hp : ∀ p ∈ points, p ∈ seen)
    (h : firstArrivals seen (arrows out points) ≠ []) :
    (places \ ((firstArrivals seen (arrows out points)).map (·.target) ++ seen).toFinset).card <
      (places \ seen.toFinset).card := by
  obtain ⟨a, rest, hfound⟩ := List.exists_cons_of_ne_nil h
  have htrail : Trail out seen (firstArrivals seen (arrows out points)) :=
    firstArrivals_trail hp _ fun _ h => h
  rw [hfound] at htrail
  cases htrail with
  | cons _ harrow hnew _ =>
    refine Finset.card_lt_card ((Finset.ssubset_iff_of_subset fun x hx => ?_).mpr
      ⟨a.target, ?_, ?_⟩)
    · simp only [Finset.mem_sdiff, List.mem_toFinset, List.mem_append] at hx ⊢
      exact ⟨hx.1, fun hs => hx.2 (.inr hs)⟩
    · simp only [Finset.mem_sdiff, List.mem_toFinset]
      exact ⟨hplaces _ _ ⟨a.label, harrow⟩, hnew⟩
    · simp [hfound]

/-- Where every place has been seen there are no arrivals. -/
theorem no_arrival_of_all_seen (hplaces : ∀ x y, Arrow out x y → y ∈ places)
    (hp : ∀ p ∈ points, p ∈ seen) (hn : (places \ seen.toFinset).card = 0) :
    firstArrivals seen (arrows out points) = [] := by
  by_contra h
  have := unseen_lt hplaces hp h
  omega

/-- A round follows every arrow out of what has been seen, if arrows were left out of its points
only. -/
theorem round_covers (hseen : ∀ x ∈ seen, x ∉ points → ∀ y, Arrow out x y → y ∈ seen) {x y : α}
    (hx : x ∈ seen) (harrow : Arrow out x y) :
    y ∈ (firstArrivals seen (arrows out points)).map (·.target) ++ seen := by
  rw [List.mem_append]
  by_cases hxp : x ∈ points
  · obtain ⟨label, hlabel⟩ := harrow
    exact (firstArrivals_covers seen _ ⟨x, label, y⟩ (mem_arrows.mpr ⟨hxp, hlabel⟩)).symm
  · exact .inr (hseen x hx hxp y harrow)

/-- With as many rounds as there are places unseen, what has been found is closed under arrows. -/
theorem rounds_closed (hplaces : ∀ x y, Arrow out x y → y ∈ places) (n : Nat)
    (hp : ∀ p ∈ points, p ∈ seen) (hn : (places \ seen.toFinset).card ≤ n)
    (hseen : ∀ x ∈ seen, x ∉ points → ∀ y, Arrow out x y → y ∈ seen) {x y : α}
    (hx : x ∈ (rounds out n seen points).map (·.target) ++ seen) (harrow : Arrow out x y) :
    y ∈ (rounds out n seen points).map (·.target) ++ seen := by
  induction n generalizing seen points with
  | zero =>
    have hnone := no_arrival_of_all_seen hplaces hp (Nat.le_zero.mp hn)
    simpa [rounds, hnone] using round_covers hseen hx harrow
  | succ n ih =>
    by_cases hnone : firstArrivals seen (arrows out points) = []
    · rw [rounds_of_no_arrival hnone] at hx ⊢
      simpa [hnone] using round_covers hseen hx harrow
    · have hfewer := unseen_lt hplaces hp hnone
      have hrest := ih (fun p h => List.mem_append_left seen h) (by omega)
        fun x hx hxt y hy =>
          round_covers hseen ((List.mem_append.mp hx).resolve_left hxt) hy
      simp only [rounds, List.map_append, List.mem_append] at hx hrest ⊢
      have := hrest (by tauto)
      tauto

/-- With as many rounds as there are places unseen, further rounds find nothing. -/
theorem rounds_saturated (hplaces : ∀ x y, Arrow out x y → y ∈ places) (n m : Nat)
    (hp : ∀ p ∈ points, p ∈ seen) (hn : (places \ seen.toFinset).card ≤ n) (hm : n ≤ m) :
    rounds out m seen points = rounds out n seen points := by
  induction n generalizing m seen points with
  | zero =>
    exact rounds_of_no_arrival (no_arrival_of_all_seen hplaces hp (Nat.le_zero.mp hn)) m
  | succ n ih =>
    by_cases hnone : firstArrivals seen (arrows out points) = []
    · rw [rounds_of_no_arrival hnone, rounds_of_no_arrival hnone]
    · have hfewer := unseen_lt hplaces hp hnone
      obtain ⟨m, rfl⟩ : ∃ m', m = m' + 1 := ⟨m - 1, by omega⟩
      simp only [rounds]
      rw [ih m (fun p h => List.mem_append_left _ h) (by omega) (by omega)]

end Saturation

/-! ### Other arrows -/

/-- Rounds are the same where the arrows are the same out of all that the points lead to. -/
theorem rounds_congr {out' : α → List (β × α)} (n : Nat) {points seen : List α}
    (hout : ∀ p ∈ points, ∀ x, Relation.ReflTransGen (Arrow out) p x → out' x = out x) :
    rounds out' n seen points = rounds out n seen points := by
  induction n generalizing points seen with
  | zero => rfl
  | succ n ih =>
    have hround : arrows out' points = arrows out points := by
      refine List.flatMap_congr fun p hp => ?_
      rw [hout p hp p .refl]
    simp only [rounds, hround]
    rw [ih fun p hp x hx => ?_]
    obtain ⟨a, ha, rfl⟩ := List.mem_map.mp hp
    obtain ⟨hsource, harrow⟩ := mem_arrows.mp (firstArrivals_sublist.subset ha)
    exact hout a.source hsource x (.head ⟨a.label, harrow⟩ hx)

/-! ### Searches -/

theorem search_trail (n : Nat) (start : α) : Trail out [start] (search out n start) :=
  rounds_trail n fun _ h => h

variable {places : Finset α} {n : Nat} {start : α}

/-- **A search finds what can be reached**, given as many rounds as there are places. -/
theorem mem_search (hplaces : ∀ x y, Arrow out x y → y ∈ places) (hn : places.card ≤ n) {x : α} :
    x ∈ (search out n start).map (·.target) ↔
      x ≠ start ∧ Relation.TransGen (Arrow out) start x := by
  have hcard : (places \ [start].toFinset).card ≤ n :=
    (Finset.card_le_card Finset.sdiff_subset).trans hn
  constructor
  · intro hx
    have htrail : Trail out [start] (search out n start) := search_trail n start
    obtain ⟨p, hp, hpath⟩ := htrail.reached x hx
    rw [List.mem_singleton.mp hp] at hpath
    exact ⟨fun he => htrail.nodup.2 x hx (he ▸ List.mem_cons_self ..), hpath⟩
  · rintro ⟨hne, hpath⟩
    have hclosed : ∀ y, Relation.ReflTransGen (Arrow out) start y →
        y ∈ (search out n start).map (·.target) ++ [start] := by
      intro y hy
      induction hy with
      | refl => simp
      | tail _ harrow ih =>
        exact rounds_closed hplaces n (fun _ h => h) hcard (by simp) ih harrow
    simpa [hne] using hclosed x hpath.to_reflTransGen

/-- **A search is over** after as many rounds as there are places. -/
theorem search_saturated (hplaces : ∀ x y, Arrow out x y → y ∈ places) (hn : places.card ≤ n)
    {m : Nat} (hm : n ≤ m) : search out m start = search out n start :=
  rounds_saturated hplaces n m (fun _ h => h)
    ((Finset.card_le_card Finset.sdiff_subset).trans hn) hm

end ScriptEngine.Search

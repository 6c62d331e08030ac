import Mathlib.Data.List.InsertIdx
import ScriptEngine.Proofs.Accepted

/-! Expressions stand by rank.

A grammar puts a new expression where its rank ends, and moves the ends of that rank and of all
later ones. If the ends are right that is behind all expressions that are not of a later rank, where
a stable sort has the last of them (`sortBy_concat`), and the ends are right again
(`Grammar.ByRank.insert`). A sorted list is made of its groups, one behind the other
(`sortBy_eq_groups`). So whatever commands a registry was given, its expressions are those that it
accepted, the simple ones first, then properties, normal ones, combined ones and those that match
everything, and its other constructs stand in the order of registration (`grammar_ordered`). -/
namespace ScriptEngine

/-! ### Sorting by a number -/

section
variable {α : Type} {f : α → Nat} {items other : List α}

/-- The items sorted by a number that each of them has; those that have the same number stay in
order. -/
def sortBy (f : α → Nat) (items : List α) : List α := items.mergeSort fun a b => f a ≤ f b

/-- No item stands behind one with a greater number. -/
def Ascending (f : α → Nat) (items : List α) : Prop := items.Pairwise fun a b => f a ≤ f b

theorem sortBy_perm (f : α → Nat) (items : List α) : (sortBy f items).Perm items :=
  List.mergeSort_perm ..

theorem sortBy_le_trans (a b c : α) : decide (f a ≤ f b) = true → decide (f b ≤ f c) = true →
    decide (f a ≤ f c) = true := by
  simpa only [decide_eq_true_eq] using Nat.le_trans

theorem sortBy_le_total (a b : α) : (decide (f a ≤ f b) || decide (f b ≤ f a)) = true := by
  simpa only [Bool.or_eq_true, decide_eq_true_eq] using Nat.le_total _ _

theorem sortBy_ascending (f : α → Nat) (items : List α) : Ascending f (sortBy f items) := by
  have hsorted := List.pairwise_mergeSort sortBy_le_trans (sortBy_le_total (f := f)) items
  simp only [decide_eq_true_eq] at hsorted
  exact hsorted

/-- Sorting keeps the order of the items with one number. -/
theorem filter_sortBy (f : α → Nat) (items : List α) (n : Nat) :
    (sortBy f items).filter (f · == n) = items.filter (f · == n) := by
  have hequal : (items.filter (f · == n)).Pairwise fun a b => decide (f a ≤ f b) = true := by
    refine List.pairwise_of_forall_mem_list fun a ha b hb => ?_
    simp only [List.mem_filter, beq_iff_eq] at ha hb
    simp [ha.2, hb.2]
  have hsublist : (items.filter (f · == n)).Sublist (sortBy f items) :=
    List.sublist_mergeSort sortBy_le_trans sortBy_le_total hequal List.filter_sublist
  have hgroup := hsublist.filter (f · == n)
  rw [List.filter_filter] at hgroup
  simp only [Bool.and_self] at hgroup
  exact (hgroup.eq_of_length ((sortBy_perm f items).symm.filter _).length_eq).symm

/-- What is put in where a list was cut. -/
theorem insertIdx_front (front back : List α) (x : α) :
    (front ++ back).insertIdx front.length x = front ++ x :: back := by
  induction front with
  | nil => rfl
  | cons a front ih => simp [ih]

namespace Ascending

theorem first_le {a x : α} (h : Ascending f (a :: items)) (hx : x ∈ a :: items) : f a ≤ f x := by
  rcases List.mem_cons.mp hx with rfl | hx
  · exact Nat.le_refl _
  · exact (List.pairwise_cons.mp h).1 x hx

theorem mem_of_groups (hsame : ∀ n, items.filter (f · == n) = other.filter (f · == n)) {x : α}
    (hx : x ∈ items) : x ∈ other := by
  have hgroup : x ∈ items.filter (f · == f x) := List.mem_filter.mpr ⟨hx, beq_self_eq_true _⟩
  rw [hsame] at hgroup
  exact (List.mem_filter.mp hgroup).1

/-- Two sorted lists are the same if they have the same items of each number in the same order. -/
theorem ext (h : Ascending f items) (hother : Ascending f other)
    (hsame : ∀ n, items.filter (f · == n) = other.filter (f · == n)) : items = other := by
  induction items generalizing other with
  | nil =>
    refine (List.eq_nil_iff_forall_not_mem.mpr fun x hx => ?_).symm
    exact List.not_mem_nil (mem_of_groups (fun n => (hsame n).symm) hx)
  | cons a items ih =>
    have ha := mem_of_groups hsame (List.mem_cons_self ..)
    cases other with
    | nil => exact absurd ha List.not_mem_nil
    | cons b other =>
      have hb := mem_of_groups (fun n => (hsame n).symm) (List.mem_cons_self ..)
      have heq : f a = f b := Nat.le_antisymm (h.first_le hb) (hother.first_le ha)
      have hfirst := hsame (f a)
      rw [List.filter_cons_of_pos (by simp), List.filter_cons_of_pos (by simp [heq])] at hfirst
      obtain rfl : a = b := (List.cons.inj hfirst).1
      rw [ih (List.pairwise_cons.mp h).2 (List.pairwise_cons.mp hother).2 fun n => ?_]
      have hn := hsame n
      by_cases ha : f a = n <;> simpa [List.filter_cons, ha] using hn

/-- A sorted list is cut in two where the items with greater numbers begin. -/
theorem cut (h : Ascending f items) (n : Nat) : ∃ front back, items = front ++ back ∧
    items.countP (f · ≤ n) = front.length ∧ (∀ a ∈ front, f a ≤ n) ∧ ∀ b ∈ back, n < f b := by
  induction items with
  | nil => exact ⟨[], [], rfl, rfl, by simp, by simp⟩
  | cons a items ih =>
    obtain ⟨hfirst, hrest⟩ := List.pairwise_cons.mp h
    by_cases ha : f a ≤ n
    · obtain ⟨front, back, rfl, hcount, hfront, hback⟩ := ih hrest
      refine ⟨a :: front, back, rfl, ?_, List.forall_mem_cons.mpr ⟨ha, hfront⟩, hback⟩
      rw [List.countP_cons_of_pos (by simpa using ha), hcount, List.length_cons]
    · have hall : ∀ b ∈ a :: items, n < f b := by
        have hlt : n < f a := Nat.lt_of_not_le ha
        exact List.forall_mem_cons.mpr ⟨hlt, fun b hb => Nat.lt_of_lt_of_le hlt (hfirst b hb)⟩
      refine ⟨[], a :: items, rfl, ?_, by simp, hall⟩
      rw [List.countP_eq_zero.mpr fun b hb => by simpa using hall b hb, List.length_nil]

/-- Put behind all that are not greater, an item leaves a sorted list sorted, and stands behind all
others with its number. -/
theorem insertIdx (h : Ascending f items) (x : α) :
    Ascending f (items.insertIdx (items.countP (f · ≤ f x)) x) ∧
      ∀ n, (items.insertIdx (items.countP (f · ≤ f x)) x).filter (f · == n) =
        (items ++ [x]).filter (f · == n) := by
  obtain ⟨front, back, rfl, hcount, hfront, hback⟩ := h.cut (f x)
  rw [hcount, insertIdx_front]
  constructor
  · obtain ⟨hf, hb, hboth⟩ := List.pairwise_append.mp h
    refine List.pairwise_append.mpr ⟨hf, List.pairwise_cons.mpr ⟨fun b hx => ?_, hb⟩, ?_⟩
    · exact Nat.le_of_lt (hback b hx)
    · exact fun a ha => List.forall_mem_cons.mpr ⟨hfront a ha, hboth a ha⟩
  · intro n
    have hnone : f x = n → back.filter (f · == n) = [] := fun hx => by
      refine List.filter_eq_nil_iff.mpr fun b hb => ?_
      simpa [← hx] using Nat.ne_of_gt (hback b hb)
    by_cases hx : f x = n
    · simp [hx, hnone hx]
    · simp [hx]

end Ascending

/-- A stable sort has the last item of a list behind all others that are not greater. -/
theorem sortBy_concat (f : α → Nat) (items : List α) (x : α) : sortBy f (items ++ [x]) =
    (sortBy f items).insertIdx ((sortBy f items).countP (f · ≤ f x)) x := by
  obtain ⟨hascending, hgroups⟩ := (sortBy_ascending f items).insertIdx x
  refine (sortBy_ascending f _).ext hascending fun n => ?_
  rw [hgroups, filter_sortBy, List.filter_append, List.filter_append, filter_sortBy]

/-- Of groups by number that stand one behind the other, the items with one number are its group. -/
theorem filter_groups {keys : List Nat} (hkeys : keys.Pairwise (· < ·))
    (hitems : ∀ a ∈ items, f a ∈ keys) (n : Nat) :
    (keys.flatMap fun k => items.filter (f · == k)).filter (f · == n) =
      items.filter (f · == n) := by
  have hother : ∀ k, k ≠ n → (items.filter (f · == k)).filter (f · == n) = [] := by
    intro k hk
    refine List.filter_eq_nil_iff.mpr fun a ha => ?_
    simp only [List.mem_filter, beq_iff_eq] at ha
    simpa [ha.2] using hk
  rw [List.filter_flatMap]
  by_cases hn : n ∈ keys
  · obtain ⟨front, back, rfl⟩ := List.append_of_mem hn
    obtain ⟨_, hback, hfront⟩ := List.pairwise_append.mp hkeys
    have hbefore : (front.flatMap fun k => (items.filter (f · == k)).filter (f · == n)) = [] :=
      List.flatMap_eq_nil_iff.mpr fun k hk =>
        hother k (Nat.ne_of_lt (hfront k hk n (List.mem_cons_self ..)))
    have hafter : (back.flatMap fun k => (items.filter (f · == k)).filter (f · == n)) = [] :=
      List.flatMap_eq_nil_iff.mpr fun k hk =>
        hother k (Nat.ne_of_gt ((List.pairwise_cons.mp hback).1 k hk))
    rw [List.flatMap_append, List.flatMap_cons, hbefore, hafter, List.filter_filter]
    simp
  · have hnone : items.filter (f · == n) = [] := by
      refine List.filter_eq_nil_iff.mpr fun a ha => ?_
      simpa using fun heq : f a = n => hn (heq ▸ hitems a ha)
    rw [hnone]
    exact List.flatMap_eq_nil_iff.mpr fun k hk => hother k fun heq => hn (heq ▸ hk)

/-- A list that is sorted by a number is made of the groups of the numbers. -/
theorem sortBy_eq_groups {keys : List Nat} (hkeys : keys.Pairwise (· < ·))
    (hitems : ∀ a ∈ items, f a ∈ keys) :
    sortBy f items = keys.flatMap fun k => items.filter (f · == k) := by
  have hgroups : Ascending f (keys.flatMap fun k => items.filter (f · == k)) := by
    refine List.pairwise_flatMap.mpr ⟨fun k _ => ?_, hkeys.imp fun {k l} hlt a ha b hb => ?_⟩
    · refine List.pairwise_of_forall_mem_list fun a ha b hb => ?_
      simp only [List.mem_filter, beq_iff_eq] at ha hb
      exact Nat.le_of_eq (ha.2.trans hb.2.symm)
    · simp only [List.mem_filter, beq_iff_eq] at ha hb
      exact ha.2 ▸ hb.2 ▸ Nat.le_of_lt hlt
  refine (sortBy_ascending f items).ext hgroups fun n => ?_
  rw [filter_sortBy, filter_groups hkeys hitems]

end

/-! ### The grammar -/

section
variable {σ : Type}

/-- The ranks, those first whose expressions stand first. -/
def Rank.inOrder : List Rank := [.simple, .property, .normal, .combined, .patternMatchesEverything]

theorem Rank.mem_inOrder (rank : Rank) : rank ∈ inOrder := by
  cases rank <;> decide

theorem Rank.inOrder_ascending : inOrder.Pairwise fun r s => r.index < s.index := by
  decide

namespace Construct
variable {c : Construct σ} {rank : Rank}

/-- Whether a construct is an expression of a rank. -/
def isOfRank (rank : Rank) (c : Construct σ) : Bool :=
  match c.form with
  | .expression own _ => own == rank
  | _ => false

/-- The place of the rank of an expression among all ranks. -/
def rankIndex (c : Construct σ) : Nat := c.form.rank?.elim 0 Rank.index

theorem rank?_eq_some : c.form.rank? = some rank ↔
    c.kind = .expression ∧ c.rankIndex = rank.index := by
  obtain ⟨name, form, patterns, produce⟩ := c
  cases form with
  | expression own =>
    simp only [Form.rank?, kind, Form.kind, rankIndex, Option.elim, Option.some.injEq, true_and]
    exact ⟨congrArg _, Rank.index_injective⟩
  | _ => simp [Form.rank?, kind, Form.kind]

theorem isOfRank_iff : c.isOfRank rank = true ↔
    c.kind = .expression ∧ c.rankIndex = rank.index := by
  rw [← rank?_eq_some]
  obtain ⟨name, form, patterns, produce⟩ := c
  cases form <;> simp [isOfRank, Form.rank?]

end Construct

namespace Grammar
variable {g : Grammar σ} {given : List (Construct σ)}

/-- The expressions are the given ones sorted by rank, and each rank ends where it should. -/
structure ByRank (g : Grammar σ) (given : List (Construct σ)) : Prop where
  expressions : g.expressions =
    sortBy Construct.rankIndex (given.filter (·.kind == .expression))
  rankEnds : ∀ rank, g.rankEnds rank = g.expressions.countP (·.rankIndex ≤ rank.index)

/-- The end of a rank lies within the expressions. -/
theorem ByRank.rankEnds_le (h : g.ByRank given) (rank : Rank) :
    g.rankEnds rank ≤ g.expressions.length :=
  h.rankEnds rank ▸ List.countP_le_length

/-- An expression is put in its place among those that were given before. -/
theorem ByRank.insertExpression (h : g.ByRank given) {c : Construct σ} {rank : Rank}
    (hc : c.form.rank? = some rank) : (g.insertExpression c rank).ByRank (given ++ [c]) where
  expressions := by
    have hnew : [c].filter (·.kind == .expression) = [c] := by
      simp [(Construct.rank?_eq_some.mp hc).1]
    rw [List.filter_append, hnew, sortBy_concat, ← h.expressions,
      (Construct.rank?_eq_some.mp hc).2, ← h.rankEnds rank]
    rfl
  rankEnds other := by
    have hperm := List.perm_insertIdx c g.expressions (h.rankEnds_le rank)
    show (if rank.index ≤ other.index then g.rankEnds other + 1 else g.rankEnds other) =
      (g.expressions.insertIdx (g.rankEnds rank) c).countP (·.rankIndex ≤ other.index)
    rw [hperm.countP_eq, List.countP_cons, ← h.rankEnds other, (Construct.rank?_eq_some.mp hc).2]
    by_cases hle : rank.index ≤ other.index <;> simp [hle]

/-- A construct is put in its place among all that were given before. -/
theorem ByRank.insert (h : g.ByRank given) (c : Construct σ) :
    (g.insert c).ByRank (given ++ [c]) := by
  obtain ⟨name, form, patterns, produce⟩ := c
  cases form with
  | expression rank type => exact h.insertExpression rfl
  | _ =>
    refine ⟨?_, h.rankEnds⟩
    rw [List.filter_append]
    exact h.expressions.trans (congrArg _ (List.append_nil _).symm)

theorem initial_byRank : (initial : Grammar σ).ByRank [] :=
  ⟨List.mergeSort_nil.symm, fun _ => rfl⟩

theorem ByRank.sealed {g' : Grammar σ} (h : g.ByRank given) (hg : g.sealed = .ok g') :
    g'.ByRank given := by
  obtain ⟨_, rfl⟩ := sealed_ok.mp hg
  exact ⟨h.expressions, h.rankEnds⟩

end Grammar

namespace Registry
variable {r r' : Registry σ} {given : List (Construct σ)}

/-- Of what a command does, only a new construct changes where expressions stand. -/
theorem Takes.byRank (hg : r.grammar.ByRank given) {c : Command σ} (h : r.Takes c r') :
    r'.grammar.ByRank (given ++ c.construct?.toList) := by
  induction h with
  | type => simpa [withTypes] using hg
  | converter _ ih => exact ih
  | edge => simpa [withTypes] using hg
  | comparator => simpa [withTypes] using hg
  | construct => exact hg.insert _
  | sealTypes => simpa [withTypes] using hg
  | sealGrammar hgrammar => simpa [withGrammar] using hg.sealed hgrammar
  | sealAll _ _ hgrammar => simpa using hg.sealed hgrammar

/-- Whatever was refused, expressions stand by rank. -/
theorem performAll_byRank (config : Config) (cs : List (Command σ)) :
    ((initial config).performAll cs).grammar.ByRank
      (((initial config).accepted cs).filterMap Command.construct?) := by
  have hstart : (initial config : Registry σ).grammar.ByRank
      (([] : List (Command σ)).filterMap Command.construct?) := Grammar.initial_byRank
  refine performAll_induction
    (P := fun r past => r.grammar.ByRank (past.filterMap Command.construct?))
    (fun _ h hc => ?_) (initial_sound config) hstart cs
  rw [Command.filterMap_concat]
  exact hc.byRank h

end Registry

/-! ### The order of all constructs -/

/-- All constructs of a grammar stand in order: expressions by rank and, within one, in the order in
which they were given, all others in the order in which they were given. -/
structure Grammar.Ordered (g : Grammar σ) (given : List (Construct σ)) : Prop extends
    g.ByRank given where
  ascending : g.expressions.Pairwise fun a b => a.rankIndex ≤ b.rankIndex
  withinRank : ∀ rank, g.expressions.filter (·.isOfRank rank) = given.filter (·.isOfRank rank)
  /-- The ranks follow each other, the most specific first. -/
  grouped : g.expressions = Rank.inOrder.flatMap fun rank => given.filter (·.isOfRank rank)
  /-- A rank ends behind the expressions of the ranks up to it. -/
  ends : ∀ front rank back, Rank.inOrder = front ++ rank :: back → g.rankEnds rank =
    ((front ++ [rank]).flatMap fun other => given.filter (·.isOfRank other)).length
  bounded : g.Bounded
  statements : g.statements = given.filter fun c => c.form matches .condition | .effect
  events : g.events = given.filter fun c => c.form matches .event _
  conditions : g.conditions = given.filter fun c => c.form matches .condition
  effects : g.effects = given.filter fun c => c.form matches .effect
  partition : (g.statements.partition fun c => c.form matches .condition) =
    (g.conditions, g.effects)

theorem Grammar.conditions_eq (g : Grammar σ) :
    g.conditions = g.statements.filter fun c => c.form matches .condition :=
  List.filter_congr fun c _ => by rw [Construct.kind]; cases c.form <;> rfl

theorem Grammar.effects_eq (g : Grammar σ) :
    g.effects = g.statements.filter fun c => c.form matches .effect :=
  List.filter_congr fun c _ => by rw [Construct.kind]; cases c.form <;> rfl

namespace Grammar.ByRank
variable {g : Grammar σ} {given : List (Construct σ)}

theorem filter_isOfRank (items : List (Construct σ)) (rank : Rank) :
    items.filter (·.isOfRank rank) =
      (items.filter (·.kind == .expression)).filter (·.rankIndex == rank.index) := by
  rw [List.filter_filter]
  refine List.filter_congr fun c _ => ?_
  rw [Bool.eq_iff_iff, Bool.and_eq_true, beq_iff_eq, beq_iff_eq, and_comm]
  exact Construct.isOfRank_iff

/-- The expressions of the ranks stand one behind the other. -/
theorem grouped (h : g.ByRank given) :
    g.expressions = Rank.inOrder.flatMap fun rank => given.filter (·.isOfRank rank) := by
  have hranks : (Rank.inOrder.map Rank.index).Pairwise (· < ·) :=
    List.pairwise_map.mpr Rank.inOrder_ascending
  have hitems : ∀ c ∈ given.filter (·.kind == .expression),
      c.rankIndex ∈ Rank.inOrder.map Rank.index := by
    intro c hc
    obtain ⟨name, form, patterns, produce⟩ := c
    cases form with
    | expression rank type => exact List.mem_map_of_mem (Rank.mem_inOrder rank)
    | _ => exact nomatch (List.mem_filter.mp hc).2
  rw [h.expressions, sortBy_eq_groups hranks hitems, List.flatMap_map]
  simp only [filter_isOfRank]

theorem rankIndex_of_mem {ranks : List Rank} {c : Construct σ}
    (hc : c ∈ ranks.flatMap fun rank => given.filter (·.isOfRank rank)) :
    ∃ rank ∈ ranks, c.rankIndex = rank.index := by
  obtain ⟨rank, hrank, hmem⟩ := List.mem_flatMap.mp hc
  exact ⟨rank, hrank, (Construct.isOfRank_iff.mp (List.mem_filter.mp hmem).2).2⟩

/-- A rank ends where the expressions of the ranks up to it end. -/
theorem ends (h : g.ByRank given) {front back : List Rank} {rank : Rank}
    (horder : Rank.inOrder = front ++ rank :: back) : g.rankEnds rank =
      ((front ++ [rank]).flatMap fun other => given.filter (·.isOfRank other)).length := by
  have hascending := Rank.inOrder_ascending
  rw [horder] at hascending
  obtain ⟨_, hback, hfront⟩ := List.pairwise_append.mp hascending
  have hwithin : ∀ c ∈ (front ++ [rank]).flatMap fun other => given.filter (·.isOfRank other),
      decide (c.rankIndex ≤ rank.index) = true := by
    intro c hc
    obtain ⟨other, hother, hrank⟩ := rankIndex_of_mem hc
    rw [decide_eq_true_iff, hrank]
    rcases List.mem_append.mp hother with hother | hother
    · exact Nat.le_of_lt (hfront other hother rank (List.mem_cons_self ..))
    · exact Nat.le_of_eq (congrArg _ (List.mem_singleton.mp hother))
  have hbeyond : ∀ c ∈ back.flatMap fun other => given.filter (·.isOfRank other),
      ¬ decide (c.rankIndex ≤ rank.index) = true := by
    intro c hc
    obtain ⟨other, hother, hrank⟩ := rankIndex_of_mem hc
    rw [decide_eq_true_iff, hrank]
    exact Nat.not_le_of_lt ((List.pairwise_cons.mp hback).1 other hother)
  rw [h.rankEnds, h.grouped, horder, List.append_cons, List.flatMap_append, List.countP_append,
    List.countP_eq_length.mpr hwithin, List.countP_eq_zero.mpr hbeyond, Nat.add_zero]

/-- Sorting keeps the order of the expressions of one rank. -/
theorem withinRank (h : g.ByRank given) (rank : Rank) :
    g.expressions.filter (·.isOfRank rank) = given.filter (·.isOfRank rank) := by
  have hall : g.expressions.filter (·.kind == .expression) = g.expressions := by
    refine List.filter_eq_self.mpr fun c hc => ?_
    rw [h.expressions] at hc
    exact (List.mem_filter.mp ((sortBy_perm ..).mem_iff.mp hc)).2
  rw [filter_isOfRank, filter_isOfRank, hall, h.expressions, filter_sortBy]

theorem ordered (h : g.ByRank given)
    (hstatements : g.statements = given.filter (·.form.isStatement))
    (hevents : g.events = given.filter (·.kind == .event)) : g.Ordered given where
  toByRank := h
  ascending := h.expressions ▸ sortBy_ascending ..
  withinRank := h.withinRank
  grouped := h.grouped
  ends _ _ _ := h.ends
  bounded := h.rankEnds_le
  statements := hstatements.trans (List.filter_congr fun c _ => by cases c.form <;> rfl)
  events := hevents.trans
    (List.filter_congr fun c _ => by rw [Construct.kind]; cases c.form <;> rfl)
  conditions := by
    rw [conditions_eq, hstatements, List.filter_filter]
    exact List.filter_congr fun c _ => by cases c.form <;> rfl
  effects := by
    rw [effects_eq, hstatements, List.filter_filter]
    exact List.filter_congr fun c _ => by cases c.form <;> rfl
  partition := by
    rw [List.partition_eq_filter_filter, conditions_eq, effects_eq]
    refine congrArg (Prod.mk _) (List.filter_congr fun c hc => ?_)
    rw [hstatements] at hc
    have hstatement : c.form.isStatement = true := (List.mem_filter.mp hc).2
    rw [Function.comp]
    cases hform : c.form with
    | condition => rfl
    | effect => rfl
    | expression => exact nomatch hform ▸ hstatement
    | event => exact nomatch hform ▸ hstatement

end Grammar.ByRank

/-- **The order of constructs.** Whatever commands a registry was given, accepted or not, before or
after a seal: its expressions are those that it accepted, sorted by rank and within a rank in the
order of registration; its statements and events are those that it accepted, in the order of
registration, and conditions and effects share the statements among them. For each rank it is known
how many expressions are not of a later one. -/
theorem grammar_ordered (config : Config) (cs : List (Command σ)) :
    ((Registry.initial config).performAll cs).grammar.Ordered
      (((Registry.initial config).accepted cs).filterMap Command.construct?) := by
  have hrecords := (Registry.initial_records config).performAll (Registry.initial_sound config) cs
  exact (Registry.performAll_byRank config cs).ordered hrecords.statements hrecords.events

end

end ScriptEngine

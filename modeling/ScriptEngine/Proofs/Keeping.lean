import ScriptEngine.Expr.Timing
import ScriptEngine.Proofs.Looking
import ScriptEngine.Proofs.TypedValues

/-! What a kept value follows.

The values of a node are kept under its name and the state of the event that the node is
bound to. For a list that is one state for the whole tree: the one that all its nodes are
bound to, or else the present. So under the present there may be many bindings, and the
values that are kept are those of the first one that was read. `memoized_readings` says
which values each reading of a kept node gives, whatever states the node was asked to take
in between, and when all of them are right. -/
namespace ScriptEngine

/-! ### The cache -/

namespace Eval
variable {σ : Type} {w : World σ} {ctx : ContextId} {node : NodeId} {t : Time}
  {compute : Eval σ (List Value)}

theorem memoized_uncached (h : w.memo? ctx = none) :
    (memoized ctx node t compute).run w = compute.run w := by
  refine (run_bind (f := fun w => _) rfl).trans ?_
  simp only [h]

theorem memoized_hit {values : List Value} (h : w.kept? ctx (node, t) = some values) :
    (memoized ctx node t compute).run w =
      (values, { w with journal := w.journal ++ [.recall ctx node t true] }) := by
  obtain ⟨memo, hmemo, hvalues⟩ := Option.bind_eq_some_iff.mp h
  refine (run_bind (f := fun w => _) rfl).trans ?_
  simp only [hmemo, hvalues]
  rfl

/-- Where nothing is kept, the values are computed, and kept if the event goes on. -/
theorem memoized_new (hmemo : w.hasMemo ctx = true) (h : w.kept? ctx (node, t) = none)
    {values : List Value} {w' : World σ} (hcompute : compute.run
      { w with journal := w.journal ++ [.recall ctx node t false] } = (values, w')) :
    (memoized ctx node t compute).run w =
      (values, if w'.isRevoked ctx then w' else w'.remember ctx node t values) := by
  obtain ⟨memo, hsome⟩ := Option.isSome_iff_exists.mp hmemo
  rw [World.kept?, hsome, Option.bind_some] at h
  have hrevoked : (isRevoked ctx).run w' = (w'.isRevoked ctx, w') := rfl
  refine (run_bind (f := fun w => _) rfl).trans ?_
  simp only [hsome, h]
  refine (run_bind rfl).trans ((run_bind hcompute).trans ((run_bind hrevoked).trans ?_))
  cases w'.isRevoked ctx <;> rfl

theorem memoized_miss (hmemo : w.hasMemo ctx = true) (h : w.kept? ctx (node, t) = none)
    {values : List Value} {w' : World σ} (hcompute : compute.run
      { w with journal := w.journal ++ [.recall ctx node t false] } = (values, w'))
    (hrunning : w'.isRevoked ctx = false) :
    (memoized ctx node t compute).run w = (values, w'.remember ctx node t values) := by
  rw [memoized_new hmemo h hcompute, hrunning, if_neg Bool.false_ne_true]

end Eval

namespace Node
variable {σ : Type} {e n : Node σ} {id : NodeId} {ctx : ContextId} {w w' : World σ}

theorem scan_gather (values acc : List Value) : scan gather values acc =
    (pure (.yield (values.foldl (fun gathered v => v :: gathered) acc)) :
      Eval σ (ForInStep (List Value))) := by
  induction values generalizing acc with
  | nil => rfl
  | cons v rest ih =>
    rw [scan, gather, pure_bind, List.foldl_cons]
    exact ih (v :: acc)

/-- Reading a kept node is asking for what is kept. -/
theorem array_memoized : (Node.memoized id e).array ctx = e.keptArray ctx := by
  rw [array, visit, keptArray]
  simp only [scan_gather, bind_assoc, pure_bind, gathered_foldl, bind_pure]
  rfl

theorem run_array_memoized : ((Node.memoized id e).array ctx).run w =
    (Eval.memoized ctx e.id (e.time w.bindings) (e.array ctx)).run w := by
  rw [array_memoized]
  exact Eval.run_bind rfl

/-- What a node yields in a world with nothing kept. -/
def fresh (ctx : ContextId) (w : World σ) (n : Node σ) : List Value :=
  ((n.array ctx).run { w with memos := .empty }).1

theorem fresh_eq (hlooks : n.Looks) (hnamed : n.Named) (hrunning : w.isRevoked ctx = false) :
    n.fresh ctx w = n.yields w.host w.bindings ctx := by
  have hcurrent : Current n ctx { w with memos := .empty } := fun _ _ _ h => nomatch h
  exact (array_ensures hnamed hcurrent hlooks (fun _ h => h) _ (.refl hrunning)).1

/-! ### One reading after the other -/

/-- What holds of a world in which a kept node was read under some bindings, one after the other:
its own values are those of the first bindings for each state of the event, and what is kept for the
nodes below is right but for the present. -/
structure Following (e : Node σ) (ctx : ContextId) (s : σ) (past : List Bindings) (w : World σ) :
    Prop where
  host : w.host = s
  running : w.isRevoked ctx = false
  caches : w.hasMemo ctx = true
  own : ∀ t, w.kept? ctx (e.id, t) =
    (past.find? fun b => e.time b == t).map fun b => e.yields s b ctx
  distinct : ∀ k, e.Keeps k → ∀ t, t ≠ .default → ∀ values, w.kept? ctx (k.id, t) = some values →
    ∀ b, k.time b = t → values = k.yields s b ctx
  present : ∀ k, e.Keeps k → ∀ values, w.kept? ctx (k.id, .default) = some values →
    ∃ b ∈ past, e.time b = .default

theorem Named.inner (h : (Node.memoized id e).Named) : e.Named := fun k k' hk hk' =>
  h k k' (.memoized hk) (.memoized hk')

/-- A node that is kept has another name than the nodes that are kept below it. -/
theorem Named.ne_below (h : n.Named) {k k' : Node σ} (hk : n.Keeps k) (hk' : k.Keeps k') :
    k'.id ≠ k.id := by
  intro hid
  have hsize := hk'.size_lt
  rw [h k' k (hk.trans hk') hk hid] at hsize
  omega

theorem Named.ne_own (h : (Node.memoized id e).Named) {k : Node σ} (hk : e.Keeps k) :
    k.id ≠ e.id := h.ne_below .here hk

/-- To keep its values leaves what is kept for those below alone. -/
theorem Named.kept?_remember_own (h : (Node.memoized id e).Named) (hmemo : w.hasMemo ctx = true)
    {k : Node σ} (hk : e.Keeps k) (t t' : Time) (values : List Value) :
    (w.remember ctx e.id t values).kept? ctx (k.id, t') = w.kept? ctx (k.id, t') := by
  rw [World.kept?_remember hmemo, if_neg fun hkey => h.ne_own hk (Prod.mk.inj hkey).1.symm]

/-- To read those below leaves what is kept for it alone. -/
theorem Named.kept?_own (h : (Node.memoized id e).Named) (hw' : Filled e ctx w w') (t : Time) :
    w'.kept? ctx (e.id, t) = w.kept? ctx (e.id, t) := by
  refine (hw'.kept (e.id, t)).resolve_right ?_
  rintro ⟨k, hk, hkey, _⟩
  exact h.ne_own hk (Prod.mk.inj hkey).1.symm

/-- Another reading makes a difference for the state of the event that it is the first one for. -/
theorem find?_reading (past : List Bindings) (last : Bindings) (t : Time) :
    (past ++ [last]).find? (fun b => e.time b == t) =
      (past.find? fun b => e.time b == t).or (if e.time last = t then some last else none) := by
  rw [List.find?_append, List.find?_singleton]
  simp

namespace Following
variable {s : σ} {past : List Bindings} (h : Following e ctx s past w)
include h

theorem bindings (b : Bindings) : Following e ctx s past { w with bindings := b } :=
  ⟨h.host, h.running, h.caches, h.own, h.distinct, h.present⟩

/-- Where the present is read for the first time, or another state of the event, what is kept for
the nodes below is right. -/
theorem current (hnew : e.time w.bindings = .default → ∀ b ∈ past, e.time b ≠ .default) :
    Current e ctx w := by
  intro k hk values hvalues
  rw [h.host]
  by_cases hpresent : k.time w.bindings = .default
  · rw [hpresent] at hvalues
    obtain ⟨b, hb, hdefault⟩ := h.present k hk values hvalues
    by_cases he : e.time w.bindings = .default
    · exact absurd hdefault (hnew he b hb)
    · exact absurd ((hk.time_eq he).symm.trans hpresent) he
  · exact h.distinct k hk _ hpresent values hvalues _ rfl

/-- A later reading gives what is kept. -/
theorem read_again {b : Bindings}
    (hfirst : past.find? (fun b => e.time b == e.time w.bindings) = some b) :
    (((Node.memoized id e).array ctx).run w).1 = e.yields s b ctx ∧
      Following e ctx s (past ++ [w.bindings]) (((Node.memoized id e).array ctx).run w).2 := by
  have hkept : w.kept? ctx (e.id, e.time w.bindings) = some (e.yields s b ctx) := by
    rw [h.own, hfirst, Option.map_some]
  rw [run_array_memoized, Eval.memoized_hit hkept]
  have hrunning : ({ w with journal := w.journal ++ [.recall ctx e.id (e.time w.bindings) true] } :
      World σ).isRevoked ctx = false :=
    World.isRevoked_append w.host h.running (by simp [Entry.revokes])
  refine ⟨rfl, h.host, hrunning, h.caches, fun t => ?_, h.distinct, fun k hk values hvalues => ?_⟩
  · have hsame : (past ++ [w.bindings]).find? (fun b => e.time b == t) =
        past.find? fun b => e.time b == t := by
      rw [find?_reading]
      split
      case isTrue ht => rw [← ht, hfirst, Option.some_or]
      case isFalse => rw [Option.or_none]
    rw [hsame]
    exact h.own t
  · obtain ⟨b, hb, hdefault⟩ := h.present k hk values hvalues
    exact ⟨b, List.mem_append_left _ hb, hdefault⟩

variable (hnamed : (Node.memoized id e).Named)
include hnamed

/-- What the node yields is kept for a state of the event that no earlier reading was for. -/
theorem keep (hfirst : past.find? (fun b => e.time b == e.time w.bindings) = none)
    (hw' : Filled e ctx w w') :
    Following e ctx s (past ++ [w.bindings])
      (w'.remember ctx e.id (e.time w.bindings) (e.yields s w.bindings ctx)) := by
  have hcaches : w'.hasMemo ctx = true := hw'.caches.trans h.caches
  refine ⟨?_, ?_, ?_, fun t => ?_, fun k hk t ht kept hkept b hb => ?_, fun k hk kept hkept => ?_⟩
  · rw [World.host_remember, hw'.host, h.host]
  · rw [World.isRevoked_remember, hw'.running]
  · rw [World.hasMemo_remember, hcaches]
  · rw [find?_reading, World.kept?_remember hcaches, hnamed.kept?_own hw' t, h.own t]
    by_cases ht : e.time w.bindings = t
    · subst ht
      rw [if_pos rfl, if_pos rfl, hfirst]
      rfl
    · rw [if_neg fun hkey => ht (Prod.mk.inj hkey).2, if_neg ht, Option.or_none]
  · rw [hnamed.kept?_remember_own hcaches hk] at hkept
    rcases hw'.kept_cases hnamed.inner hk hkept with hold | ⟨rfl, rfl⟩
    · exact h.distinct k hk t ht kept hold b hb
    · rw [h.host]
      exact yields_of_time hb.symm ht
  · rw [hnamed.kept?_remember_own hcaches hk] at hkept
    rcases hw'.kept_cases hnamed.inner hk hkept with hold | ⟨hpresent, _⟩
    · obtain ⟨b, hb, hdefault⟩ := h.present k hk kept hold
      exact ⟨b, List.mem_append_left _ hb, hdefault⟩
    · refine ⟨w.bindings, List.mem_append_right _ (List.mem_singleton_self _), ?_⟩
      by_contra he
      exact he ((hk.time_eq he).symm.trans hpresent.symm)

variable (hlooks : e.Looks)
include hlooks

/-- The first reading for a state of the event gives what the node yields, and keeps it. -/
theorem read_first (hfirst : past.find? (fun b => e.time b == e.time w.bindings) = none) :
    (((Node.memoized id e).array ctx).run w).1 = e.yields s w.bindings ctx ∧
      Following e ctx s (past ++ [w.bindings]) (((Node.memoized id e).array ctx).run w).2 := by
  have hnew : e.time w.bindings = .default → ∀ b ∈ past, e.time b ≠ .default :=
    fun he b hb hdefault => List.find?_eq_none.mp hfirst b hb (by simp [he, hdefault])
  have hnone : w.kept? ctx (e.id, e.time w.bindings) = none := by
    rw [h.own, hfirst, Option.map_none]
  have hfilled := array_ensures hnamed.inner (h.current hnew) hlooks (fun _ h => h)
    { w with journal := w.journal ++ [.recall ctx e.id (e.time w.bindings) false] }
    ((Filled.refl h.running).note (by simp [Entry.revokes]))
  rw [run_array_memoized]
  cases hrun : (e.array ctx).run
    { w with journal := w.journal ++ [.recall ctx e.id (e.time w.bindings) false] } with
  | mk values w' =>
    obtain ⟨hvalues, hw'⟩ : values = e.yields w.host w.bindings ctx ∧ Filled e ctx w w' := by
      rw [hrun] at hfilled
      exact hfilled
    rw [Eval.memoized_miss h.caches hnone hrun hw'.running, hvalues, h.host]
    exact ⟨rfl, h.keep hnamed hfirst hw'⟩

/-- **One reading**: it gives what the node yields under the first bindings that were read for the
state of the event. -/
theorem read : (((Node.memoized id e).array ctx).run w).1 =
      e.yields s ((past.find? fun b => e.time b == e.time w.bindings).getD w.bindings) ctx ∧
    Following e ctx s (past ++ [w.bindings]) (((Node.memoized id e).array ctx).run w).2 := by
  cases hfirst : past.find? fun b => e.time b == e.time w.bindings with
  | none => exact h.read_first hnamed hlooks hfirst
  | some b => exact h.read_again hfirst

end Following

/-! ### Asking a kept node -/

/-- What is asked of a node: to take its values from a state of the event, or for its values. -/
inductive Ask where
  | bind (t : Time)
  | read

/-- The world before the first of some readings that a node was in the same state of the event for
as it is now; the world now, if there is no such reading. -/
def firstLike (e : Node σ) (before : List (World σ × List Value)) (now : World σ) : World σ :=
  ((before.map (·.1)).find? fun w => e.time w.bindings == e.time now.bindings).getD now

section
variable {before : List (World σ × List Value)} {now : World σ}

theorem firstLike_bindings : (e.firstLike before now).bindings =
    ((before.map fun r => r.1.bindings).find? fun b => e.time b == e.time now.bindings).getD
      now.bindings := by
  have hmap : (before.map fun r => r.1.bindings) = (before.map (·.1)).map (·.bindings) := by
    rw [List.map_map]
    rfl
  have hworlds : ((before.map (·.1)).map (·.bindings)).find?
        (fun b => e.time b == e.time now.bindings) =
      ((before.map (·.1)).find? fun w => e.time w.bindings == e.time now.bindings).map
        (·.bindings) := List.find?_map
  rw [firstLike, hmap, hworlds, Option.getD_map]

theorem firstLike_mem (e : Node σ) (before : List (World σ × List Value)) (now : World σ) :
    e.firstLike before now = now ∨
      ∃ r ∈ before, r.1 = e.firstLike before now ∧ e.time r.1.bindings = e.time now.bindings := by
  rw [firstLike]
  cases hfind : (before.map (·.1)).find? fun w => e.time w.bindings == e.time now.bindings with
  | none => exact .inl rfl
  | some w =>
    obtain ⟨r, hr, rfl⟩ := List.mem_map.mp (List.mem_of_find?_eq_some hfind)
    exact .inr ⟨r, hr, rfl, by simpa using List.find?_some hfind⟩

/-- It is the first of all readings like it, whichever of those is meant. -/
theorem firstLike_eq_find? {values : List Value} {after : List (World σ × List Value)} :
    some (e.firstLike before now) = ((before ++ (now, values) :: after).find? fun r =>
      e.time r.1.bindings == e.time now.bindings).map (·.1) := by
  rw [firstLike, List.find?_map, List.find?_append, List.find?_cons_of_pos (by simp)]
  have hcomp : ((fun w : World σ => e.time w.bindings == e.time now.bindings) ∘ (·.1)) =
      fun r : World σ × List Value => e.time r.1.bindings == e.time now.bindings := rfl
  rw [hcomp]
  cases before.find? fun r => e.time r.1.bindings == e.time now.bindings with
  | none => rfl
  | some r => rfl

end

variable [HostCells σ]

/-- The readings of a node that a script takes, each with the world before it. -/
def readings (ctx : ContextId) (n : Node σ) : List Ask → World σ → List (World σ × List Value)
  | [], _ => []
  | .bind t :: rest, w => readings ctx n rest ((n.setTime t).run w).2
  | .read :: rest, w =>
    (w, ((n.array ctx).run w).1) :: readings ctx n rest ((n.array ctx).run w).2

/-- Asking a node to take its values from a state of the event touches the bindings only. -/
theorem setTime_run (t : Time) (n : Node σ) (w : World σ) :
    ((n.setTime t).run w).2 = { w with bindings := ((n.rebind t).run w.bindings).2 } := by
  cases hbound : (n.rebind t).run w.bindings with
  | mk bound bindings =>
    cases bound with
    | true =>
      simp only [setTime, StateT.run_bind, StateT.run_get, pure_bind, hbound]
      rfl
    | false =>
      simp only [setTime, StateT.run_bind, StateT.run_get, pure_bind, hbound]
      exact label_run n.boundNode { w with bindings := bindings }

/-! ### All readings -/

section Readings
variable {s : σ} {past : List Bindings} {script : List Ask}
  {before after : List (World σ × List Value)} {now : World σ} {values : List Value}

/-- **All readings**: each is a reading in a world in which the node was read before under the
bindings of the readings before. -/
theorem Following.readings (hlooks : e.Looks) (hnamed : (Node.memoized id e).Named)
    (h : Following e ctx s past w)
    (hr : Node.readings ctx (.memoized id e) script w = before ++ (now, values) :: after) :
    Following e ctx s (past ++ before.map fun r => r.1.bindings) now ∧
      values = (((Node.memoized id e).array ctx).run now).1 := by
  induction script generalizing w past before with
  | nil => exact absurd hr.symm (by simp [Node.readings])
  | cons ask rest ih =>
    cases ask with
    | bind t =>
      rw [Node.readings, setTime_run] at hr
      exact ih (h.bindings _) hr
    | read =>
      rw [Node.readings] at hr
      cases before with
      | nil =>
        obtain ⟨hnow, _⟩ := List.cons.inj hr
        obtain ⟨rfl, rfl⟩ := Prod.mk.inj hnow
        rw [List.map_nil, List.append_nil]
        exact ⟨h, rfl⟩
      | cons r before =>
        obtain ⟨rfl, hrest⟩ := List.cons.inj hr
        have hnext := ih (h.read hnamed hlooks).2 hrest
        rw [List.append_assoc] at hnext
        exact hnext

end Readings

/-- What the readings of a kept node give. -/
structure KeptReadings (e : Node σ) (ctx : ContextId) (taken : List (World σ × List Value)) :
    Prop where
  /-- What the node yields under the bindings of the first reading for the same state of the event,
  when nothing is kept. -/
  first : ∀ before now values after, taken = before ++ (now, values) :: after →
    values = e.fresh ctx (e.firstLike before now)
  /-- For a state other than the present, what the node would give at the moment. -/
  distinct : ∀ r ∈ taken, e.time r.1.bindings ≠ .default → r.2 = ((e.array ctx).run r.1).1
  /-- If nothing is kept below, what the node would give at the moment is what it yields. -/
  plain : (∀ k, ¬ e.Keeps k) → ∀ r ∈ taken, ((e.array ctx).run r.1).1 = e.fresh ctx r.1
  /-- All give what the node yields at the moment if and only if it yields the same whenever it is
  read for the present. -/
  right : (∀ r ∈ taken, r.2 = e.fresh ctx r.1) ↔
    ∀ r ∈ taken, ∀ r' ∈ taken, e.time r.1.bindings = .default → e.time r'.1.bindings = .default →
      e.fresh ctx r.1 = e.fresh ctx r'.1

section Main
variable {s : σ} {script : List Ask} (hlooks : e.Looks) (hnamed : (Node.memoized id e).Named)
  (h : Following e ctx s [] w)
include hlooks hnamed h

theorem Following.of_mem {r : World σ × List Value}
    (hr : r ∈ Node.readings ctx (.memoized id e) script w) :
    ∃ past, Following e ctx s past r.1 ∧ e.fresh ctx r.1 = e.yields s r.1.bindings ctx := by
  obtain ⟨before, after, hsplit⟩ := List.append_of_mem hr
  have hworld := (h.readings hlooks hnamed hsplit).1
  refine ⟨_, hworld, ?_⟩
  rw [fresh_eq hlooks hnamed.inner hworld.running, hworld.host]

/-- A reading gives what the node yields in the world of the first reading like it. -/
theorem Following.reading {before after : List (World σ × List Value)} {now : World σ}
    {values : List Value}
    (hr : Node.readings ctx (.memoized id e) script w = before ++ (now, values) :: after) :
    values = e.fresh ctx (e.firstLike before now) := by
  have hlike : ∃ r ∈ Node.readings ctx (.memoized id e) script w,
      r.1 = e.firstLike before now := by
    rw [hr]
    rcases firstLike_mem e before now with hnow | ⟨r, hmem, hlike, _⟩
    · exact ⟨(now, values), by simp, hnow.symm⟩
    · exact ⟨r, List.mem_append_left _ hmem, hlike⟩
  obtain ⟨r, hmem, hlike⟩ := hlike
  obtain ⟨_, _, hfresh⟩ := h.of_mem hlooks hnamed hmem
  obtain ⟨hworld, hvalues⟩ := h.readings hlooks hnamed hr
  rw [hvalues, (hworld.read hnamed hlooks).1, ← hlike, hfresh, hlike, firstLike_bindings,
    List.nil_append]

/-- What the node gives at the moment of a reading is what it yields, as long as what is kept below
is right. -/
theorem Following.array {r : World σ × List Value}
    (hr : r ∈ Node.readings ctx (.memoized id e) script w) (hcurrent : Current e ctx r.1) :
    ((e.array ctx).run r.1).1 = e.fresh ctx r.1 := by
  obtain ⟨_, hworld, hfresh⟩ := h.of_mem hlooks hnamed hr
  have harray := array_ensures hnamed.inner hcurrent hlooks (fun _ hk => hk) r.1
    (.refl hworld.running)
  rw [hfresh, harray.1, hworld.host]

/-- Two readings for one state of the event other than the present are of one yield. -/
theorem Following.fresh_congr {r r' : World σ × List Value}
    (hr : r ∈ Node.readings ctx (.memoized id e) script w)
    (hr' : r' ∈ Node.readings ctx (.memoized id e) script w)
    (hsame : e.time r.1.bindings = e.time r'.1.bindings)
    (hdistinct : e.time r.1.bindings ≠ .default) : e.fresh ctx r.1 = e.fresh ctx r'.1 := by
  obtain ⟨_, _, hfresh⟩ := h.of_mem hlooks hnamed hr
  obtain ⟨_, _, hfresh'⟩ := h.of_mem hlooks hnamed hr'
  rw [hfresh, hfresh', yields_of_time hsame hdistinct]

/-- A reading gives what the node yields at a reading for the same state of the event. -/
theorem Following.exists_like {r : World σ × List Value}
    (hr : r ∈ Node.readings ctx (.memoized id e) script w) :
    ∃ r' ∈ Node.readings ctx (.memoized id e) script w, r.2 = e.fresh ctx r'.1 ∧
      e.time r'.1.bindings = e.time r.1.bindings := by
  obtain ⟨now, values⟩ := r
  obtain ⟨before, after, hsplit⟩ := List.append_of_mem hr
  have hvalues := h.reading hlooks hnamed hsplit
  rcases firstLike_mem e before now with hnow | ⟨r', hmem, hlike, hsame⟩
  · exact ⟨(now, values), hr, hnow ▸ hvalues, rfl⟩
  · exact ⟨r', hsplit ▸ List.mem_append_left _ hmem, hlike ▸ hvalues, hsame⟩

/-- All readings for one state of the event give the same. -/
theorem Following.reading_congr {r r' : World σ × List Value}
    (hr : r ∈ Node.readings ctx (.memoized id e) script w)
    (hr' : r' ∈ Node.readings ctx (.memoized id e) script w)
    (hsame : e.time r.1.bindings = e.time r'.1.bindings) : r.2 = r'.2 := by
  obtain ⟨now, values⟩ := r
  obtain ⟨now', values'⟩ := r'
  obtain ⟨before, after, hsplit⟩ := List.append_of_mem hr
  obtain ⟨before', after', hsplit'⟩ := List.append_of_mem hr'
  have hfirst : e.firstLike before now = e.firstLike before' now' := by
    refine Option.some.inj ?_
    rw [firstLike_eq_find?, firstLike_eq_find?, ← hsplit, ← hsplit', hsame]
  rw [h.reading hlooks hnamed hsplit, h.reading hlooks hnamed hsplit', hfirst]

theorem Following.keptReadings :
    KeptReadings e ctx (Node.readings ctx (.memoized id e) script w) where
  first before now values after hr := h.reading hlooks hnamed hr
  distinct r hr hdistinct := by
    obtain ⟨_, hworld, _⟩ := h.of_mem hlooks hnamed hr
    obtain ⟨r', hr', hvalues, hsame⟩ := h.exists_like hlooks hnamed hr
    rw [h.array hlooks hnamed hr (hworld.current fun he => absurd he hdistinct), hvalues]
    exact h.fresh_congr hlooks hnamed hr' hr hsame (hsame ▸ hdistinct)
  plain hplain r hr := h.array hlooks hnamed hr fun k hk => absurd hk (hplain k)
  right := by
    constructor
    · intro hright r hr r' hr' hpresent hpresent'
      rw [← hright r hr, ← hright r' hr',
        h.reading_congr hlooks hnamed hr hr' (hpresent.trans hpresent'.symm)]
    · intro hsame r hr
      obtain ⟨r', hr', hvalues, htimes⟩ := h.exists_like hlooks hnamed hr
      rw [hvalues]
      by_cases hpresent : e.time r.1.bindings = .default
      · exact hsame r' hr' r hr (htimes.trans hpresent) hpresent
      · exact h.fresh_congr hlooks hnamed hr' hr htimes (htimes ▸ hpresent)

end Main

/-- **What a kept node gives.** Asked for its values and to take them from states of the event, in
any order, by a host that only looks, a kept node gives what it yielded under the first bindings
that were read for the same state. For a state other than the present that is right; for the present
it is, if and only if the node yields the same under all bindings that are read for it. -/
theorem memoized_readings (hlooks : e.Looks) (hnamed : (Node.memoized id e).Named)
    (hrunning : w.isRevoked ctx = false) (hmemo : w.hasMemo ctx = true)
    (hnew : ∀ k, (Node.memoized id e).Keeps k → ∀ t, w.kept? ctx (k.id, t) = none)
    (script : List Ask) : KeptReadings e ctx (readings ctx (.memoized id e) script w) := by
  have hstart : Following e ctx w.host [] w := by
    refine ⟨rfl, hrunning, hmemo, fun t => hnew e .here t, fun k hk t _ values hvalues => ?_,
      fun k hk values hvalues => ?_⟩
    · rw [hnew k (.memoized hk) t] at hvalues
      cases hvalues
    · rw [hnew k (.memoized hk) .default] at hvalues
      cases hvalues
  exact hstart.keptReadings hlooks hnamed

/-! The level of something, now and before the event, stands in a list with the number ten. The list
is bound to the past as far as it has one, and is in the present still. -/

/-- A host that knows a level. -/
structure Gauge where
  level : Int64
  before : Int64

instance : HostCells Gauge := ⟨fun _ _ cell => cell⟩

def levelValue : EventValue Gauge :=
  (EventValue.ofPresent ⟨"integer"⟩ "level" (EventValue.typedGetter ⟨"integer"⟩ .i64
    fun _ => do return some (← get).level)).withState .past
      (EventValue.typedGetter ⟨"integer"⟩ .i64 fun _ => do return some (← get).before)

def levelAndTen : Node Gauge :=
  ofChildren ⟨[1]⟩ [.eventValue ⟨[2]⟩ levelValue,
    .literal ⟨[3]⟩ ⟨"integer"⟩ [⟨⟨"integer"⟩, .i64 10⟩] .and] .and

def numbers (values : List Value) : List Int64 :=
  values.map fun v =>
    match v.payload with
    | .i64 n => n
    | _ => 0

def lowered : World Gauge := (World.start ⟨2, 1⟩).withMemo ⟨0⟩

theorem levelAndTen_looks : levelAndTen.Looks := by
  refine .list fun c hc => ?_
  rcases List.mem_pair.mp hc with rfl | rfl
  · refine .eventValue fun t get hget ctx s => ?_
    simp only [levelValue, EventValue.withState, EventValue.ofPresent] at hget
    split at hget
    · cases hget
      exact ⟨rfl, fun _ hentry => nomatch hentry⟩
    · split at hget
      · cases hget
        exact ⟨rfl, fun _ hentry => nomatch hentry⟩
      · cases hget
  · exact .literal

theorem levelAndTen_named : (Node.memoized ⟨[0]⟩ levelAndTen).Named := by
  have hown : ∀ k, (Node.memoized ⟨[0]⟩ levelAndTen).Keeps k → k = levelAndTen := by
    intro k hk
    cases hk with
    | here => rfl
    | memoized hk =>
      cases hk with
      | list hc hk => rcases List.mem_pair.mp hc with rfl | rfl <;> cases hk
  intro k k' hk hk' _
  rw [hown k hk, hown k' hk']

/-- The list was read for the present, and then for the past: the level that is kept is given
again. -/
theorem levelAndTen_readings :
    KeptReadings levelAndTen ⟨0⟩ (readings ⟨0⟩ (.memoized ⟨[0]⟩ levelAndTen)
      [.read, .bind .past, .read] lowered) ∧
    ((readings ⟨0⟩ (.memoized ⟨[0]⟩ levelAndTen) [.read, .bind .past, .read] lowered).map fun r =>
      numbers r.2) = [[2, 10], [2, 10]] :=
  ⟨memoized_readings levelAndTen_looks levelAndTen_named rfl rfl (fun _ _ _ => rfl) _,
    by decide⟩

/-- But the list would give the level before the event. -/
theorem levelAndTen_outdated : levelAndTen.Looks ∧ (Node.memoized ⟨[0]⟩ levelAndTen).Named ∧
    lowered.isRevoked ⟨0⟩ = false ∧ lowered.hasMemo ⟨0⟩ = true ∧
    ¬ ∀ script, ∀ r ∈ readings ⟨0⟩ (.memoized ⟨[0]⟩ levelAndTen) script lowered,
      r.2 = ((levelAndTen.array ⟨0⟩).run r.1).1 := by
  refine ⟨levelAndTen_looks, levelAndTen_named, rfl, rfl, fun h => ?_⟩
  have hlast := h [.read, .bind .past, .read] _ (List.mem_cons_of_mem _ (List.mem_cons_self ..))
  exact absurd (congrArg numbers hlast) (by decide)

end Node

end ScriptEngine

import Mathlib.Data.Finset.Card
import ScriptEngine.Proofs.Keeping
import ScriptEngine.Proofs.Revocation

/-! What asking the cache leaves in it.

`Recalls` is a history of a running event as far as its cache is concerned: the cache was asked
for the values of some nodes, and where it had none they were computed, for which it was asked
for those of the nodes below. In between the host may do what it likes, and nodes may be bound
to other states. If the event is not revoked, what the cache has for a node it has from then
on. So every time it is asked for a node under one state the same comes of it (`kept_at_end`),
it is computed once at most (`new_nodup`), and the cache has as many entries as it was asked
for (`size_at_end`). The journal tells the whole history (`told`). -/
namespace ScriptEngine

/-! ### What the journal tells -/

/-- An entry tells that the cache of an event was asked. -/
def Entry.asksCache (ctx : ContextId) : Entry → Bool
  | .recall c _ _ _ => c == ctx
  | _ => false

namespace World
variable {σ : Type} {w : World σ} {ctx : ContextId}

/-- How the cache of an event was asked so far, and whether it had what it was asked for. -/
def cacheAsked (w : World σ) (ctx : ContextId) : List Entry := w.journal.filter (·.asksCache ctx)

theorem cacheAsked_append (host : σ) (added : List Entry) :
    ({ w with host := host, journal := w.journal ++ added } : World σ).cacheAsked ctx =
      w.cacheAsked ctx ++ added.filter (·.asksCache ctx) :=
  List.filter_append ..

@[simp] theorem journal_remember {node : NodeId} {t : Time} {values : List Value} :
    (w.remember ctx node t values).journal = w.journal := by
  rw [remember]
  split <;> rfl

/-- No two entries of the cache of an event are under one key. -/
def KeysApart (ctx : ContextId) (w : World σ) : Prop :=
  ∀ memo, w.memo? ctx = some memo → memo.keys.Nodup

theorem KeysApart.remember {node : NodeId} {t : Time} {values : List Value}
    (h : w.KeysApart ctx) : (w.remember ctx node t values).KeysApart ctx := by
  intro memo hmemo
  cases hw : w.memo? ctx with
  | none =>
    rw [remember_of_no_memo hw] at hmemo
    exact h memo hmemo
  | some held =>
    obtain rfl := Option.some.inj ((memo?_remember hw).symm.trans hmemo)
    exact Table.nodup_keys_insert (h held hw) _ _

end World

namespace Node
variable {σ : Type} {root k : Node σ} {ctx : ContextId} {w w' w'' : World σ}

/-! ### Asking the cache -/

/-- The cache of an event was asked for the values of a node, in some world. -/
structure Recall (σ : Type) where
  node : Node σ
  asked : World σ

namespace Recall
variable {r : Recall σ}

/-- What the cache was asked for: the node, under the state of the event that it was bound to. -/
def key (r : Recall σ) : NodeId × Time := (r.node.id, r.node.time r.asked.bindings)

/-- The values that came of it. -/
def values (r : Recall σ) (ctx : ContextId) : List Value := ((r.node.keptArray ctx).run r.asked).1

/-- The world after it. -/
def ended (r : Recall σ) (ctx : ContextId) : World σ := ((r.node.keptArray ctx).run r.asked).2

/-- The cache had nothing, so the values were computed. -/
def isNew (r : Recall σ) (ctx : ContextId) : Bool := (r.asked.kept? ctx r.key).isNone

/-- What the journal tells of it. -/
def entry (r : Recall σ) (ctx : ContextId) : Entry := .recall ctx r.key.1 r.key.2 (!r.isNew ctx)

/-- The world in which the journal tells that the cache was asked. -/
def started (r : Recall σ) (ctx : ContextId) : World σ :=
  { r.asked with journal := r.asked.journal ++ [r.entry ctx] }

theorem cacheAsked_started (r : Recall σ) :
    (r.started ctx).cacheAsked ctx = r.asked.cacheAsked ctx ++ [r.entry ctx] := by
  have hone : [r.entry ctx].filter (·.asksCache ctx) = [r.entry ctx] := by
    simp [entry, Entry.asksCache]
  exact (World.cacheAsked_append r.asked.host _).trans (congrArg (_ ++ ·) hone)

/-- The world after the values were computed, before they are kept. -/
def computed (r : Recall σ) (ctx : ContextId) : World σ :=
  ((r.node.array ctx).run (r.started ctx)).2

theorem run_keptArray (n : Node σ) (w : World σ) : (n.keptArray ctx).run w =
    (Eval.memoized ctx n.id (n.time w.bindings) (n.array ctx)).run w :=
  Eval.run_bind rfl

theorem kept?_of_new (h : r.isNew ctx = true) : r.asked.kept? ctx r.key = none := by
  simpa [isNew] using h

theorem key_ne_of_new (h : r.isNew ctx = true) {key : NodeId × Time} {values : List Value}
    (hkept : r.asked.kept? ctx key = some values) : r.key ≠ key := by
  rintro rfl
  rw [kept?_of_new h] at hkept
  cases hkept

/-- What the cache has is given, and the world is as it was but for the journal. -/
theorem found (h : r.isNew ctx = false) :
    r.asked.kept? ctx r.key = some (r.values ctx) ∧ r.ended ctx = r.started ctx := by
  cases hkept : r.asked.kept? ctx r.key with
  | none => simp [isNew, hkept] at h
  | some values =>
    have hrun : (r.node.keptArray ctx).run r.asked = (values, r.started ctx) := by
      rw [run_keptArray, Eval.memoized_hit hkept, started, entry, h]
      rfl
    rw [Recall.values, ended, hrun]
    exact ⟨rfl, rfl⟩

/-- What was computed is kept if the event goes on. -/
theorem ended_new (hmemo : r.asked.hasMemo ctx = true) (h : r.isNew ctx = true) :
    r.ended ctx = if (r.computed ctx).isRevoked ctx then r.computed ctx
      else (r.computed ctx).remember ctx r.key.1 r.key.2 (r.values ctx) := by
  have hcompute : (r.node.array ctx).run
      { r.asked with journal := r.asked.journal ++ [.recall ctx r.key.1 r.key.2 false] } =
        (((r.node.array ctx).run (r.started ctx)).1, r.computed ctx) := by
    rw [computed, started, entry, h]
    rfl
  have hrun : (r.node.keptArray ctx).run r.asked = _ :=
    (run_keptArray ..).trans (Eval.memoized_new hmemo (kept?_of_new h) hcompute)
  rw [Recall.values, ended, hrun]
  rfl

theorem isRevoked_ended (hmemo : r.asked.hasMemo ctx = true) (h : r.isNew ctx = true) :
    (r.ended ctx).isRevoked ctx = (r.computed ctx).isRevoked ctx := by
  rw [ended_new hmemo h]
  split
  · rfl
  · exact World.isRevoked_remember

/-- What had to be computed, of what the cache was asked for. -/
def newKeys (ctx : ContextId) (recalls : List (Recall σ)) : List (NodeId × Time) :=
  (recalls.filter fun r => r.isNew ctx).map key

theorem newKeys_found {recalls : List (Recall σ)} (h : r.isNew ctx = false) :
    newKeys ctx (r :: recalls) = newKeys ctx recalls := by
  rw [newKeys, List.filter_cons, h]
  rfl

theorem newKeys_new {below recalls : List (Recall σ)} (h : r.isNew ctx = true) :
    newKeys ctx (r :: (below ++ recalls)) =
      r.key :: (newKeys ctx below ++ newKeys ctx recalls) := by
  rw [newKeys, List.filter_cons, if_pos h, List.filter_append, List.map_cons, List.map_append]
  rfl

theorem mem_of_newKeys {recalls : List (Recall σ)} {key : NodeId × Time}
    (h : key ∈ newKeys ctx recalls) : ∃ r ∈ recalls, r.key = key := by
  obtain ⟨r, hr, hkey⟩ := List.mem_map.mp h
  exact ⟨r, List.mem_of_mem_filter hr, hkey⟩

end Recall

/-! ### Histories -/

/-- From one world to another, the cache of an event was asked time after time. What had to be
computed was computed by asking for what is kept for the nodes below. Besides, the host did things
that are no matter of the cache, and nodes were bound. -/
inductive Recalls (ctx : ContextId) : World σ → List (Recall σ) → World σ → Prop where
  | nothing {w : World σ} : Recalls ctx w [] w
  | host {w w' : World σ} {host added recalls} : (∀ e ∈ added, e.asksCache ctx = false) →
      Recalls ctx { w with host := host, journal := w.journal ++ added } recalls w' →
      Recalls ctx w recalls w'
  | bind {w w' : World σ} {bindings recalls} :
      Recalls ctx { w with bindings := bindings } recalls w' → Recalls ctx w recalls w'
  | found {r : Recall σ} {w' : World σ} {recalls} : r.isNew ctx = false →
      Recalls ctx (r.ended ctx) recalls w' → Recalls ctx r.asked (r :: recalls) w'
  | new {r : Recall σ} {w' : World σ} {below recalls} : r.asked.hasMemo ctx = true →
      r.isNew ctx = true → Recalls ctx (r.started ctx) below (r.computed ctx) →
      (∀ b ∈ below, r.node.Keeps b.node) →
      Recalls ctx (r.ended ctx) recalls w' → Recalls ctx r.asked (r :: (below ++ recalls)) w'

namespace Recalls
variable {recalls recalls' : List (Recall σ)} {r : Recall σ}

theorem append (h : Recalls ctx w recalls w') (h' : Recalls ctx w' recalls' w'') :
    Recalls ctx w (recalls ++ recalls') w'' := by
  induction h with
  | nothing => exact h'
  | host hadded _ ih => exact .host hadded (ih h')
  | bind _ ih => exact .bind (ih h')
  | found hfound _ ih => exact .found hfound (ih h')
  | new hmemo hnew hbelow hkeeps _ _ ih =>
    rw [List.cons_append, List.append_assoc]
    exact .new hmemo hnew hbelow hkeeps (ih h')

/-- What the host, a binding and one more entry of the cache keep is kept. -/
theorem keeps {R : World σ → World σ → Prop} (hrefl : ∀ w, R w w)
    (htrans : ∀ {w w' w''}, R w w' → R w' w'' → R w w'')
    (hhost : ∀ (w : World σ) host added,
      R w { w with host := host, journal := w.journal ++ added })
    (hbind : ∀ (w : World σ) bindings, R w { w with bindings := bindings })
    (hremember : ∀ (w : World σ) node t values, R w (w.remember ctx node t values))
    (h : Recalls ctx w recalls w') : R w w' := by
  induction h with
  | nothing => exact hrefl _
  | host _ _ ih => exact htrans (hhost ..) ih
  | bind _ ih => exact htrans (hbind ..) ih
  | @found r _ _ hfound _ ih =>
    rw [(Recall.found hfound).2] at ih
    exact htrans (hhost r.asked r.asked.host _) ih
  | @new r _ _ _ hmemo hnew _ _ _ ihbelow ih =>
    have hcomputed := htrans (hhost r.asked r.asked.host _) ihbelow
    refine htrans hcomputed (htrans ?_ ih)
    rw [Recall.ended_new hmemo hnew]
    split
    · exact hrefl _
    · exact hremember ..

theorem journal_prefix (h : Recalls ctx w recalls w') : w.journal <+: w'.journal :=
  h.keeps (R := fun w w' => w.journal <+: w'.journal) (fun _ => List.prefix_rfl)
    List.IsPrefix.trans (fun _ _ _ => List.prefix_append ..) (fun _ _ => List.prefix_rfl)
    fun _ _ _ _ => by rw [World.journal_remember]

theorem hasMemo_eq (h : Recalls ctx w recalls w') : w'.hasMemo ctx = w.hasMemo ctx :=
  h.keeps (R := fun w w' => w'.hasMemo ctx = w.hasMemo ctx) (fun _ => rfl)
    (fun h h' => h'.trans h) (fun _ _ _ => rfl) (fun _ _ => rfl) fun _ _ _ _ => by simp

theorem keysApart (h : Recalls ctx w recalls w') (hw : w.KeysApart ctx) : w'.KeysApart ctx :=
  h.keeps (R := fun w w' => w.KeysApart ctx → w'.KeysApart ctx) (fun _ hw => hw)
    (fun h h' hw => h' (h hw)) (fun _ _ _ hw => hw) (fun _ _ hw => hw) (fun _ _ _ _ => .remember)
    hw

/-- An event that has not been revoked had not been revoked earlier. -/
theorem running (h : Recalls ctx w recalls w') (hw' : w'.isRevoked ctx = false) :
    w.isRevoked ctx = false := by
  by_contra hrevoked
  rw [World.isRevoked_of_prefix h.journal_prefix (eq_true_of_ne_false hrevoked)] at hw'
  cases hw'

/-- The journal tells of all that the cache was asked for, in order. -/
theorem told (h : Recalls ctx w recalls w') :
    w'.cacheAsked ctx = w.cacheAsked ctx ++ recalls.map (·.entry ctx) := by
  induction h with
  | nothing => rw [List.map_nil, List.append_nil]
  | @host _ _ _ added _ hadded _ ih =>
    have hnone : added.filter (·.asksCache ctx) = [] :=
      List.filter_eq_nil_iff.mpr fun e he => by simp [hadded e he]
    rw [ih, World.cacheAsked_append, hnone, List.append_nil]
  | bind _ ih => exact ih
  | found hfound _ ih =>
    rw [ih, (Recall.found hfound).2, Recall.cacheAsked_started, List.append_assoc]
    rfl
  | @new r _ _ _ hmemo hnew _ _ _ ihbelow ih =>
    have hended : (r.ended ctx).cacheAsked ctx = (r.computed ctx).cacheAsked ctx := by
      rw [Recall.ended_new hmemo hnew]
      split <;> simp [World.cacheAsked]
    rw [ih, hended, ihbelow, Recall.cacheAsked_started]
    simp

/-! ### What is kept -/

/-- If the event goes on after values had to be computed, it went on while they were, and they are
kept besides what was kept then. -/
theorem after_new (hmemo : r.asked.hasMemo ctx = true) (hnew : r.isNew ctx = true)
    (hbelow : Recalls ctx (r.started ctx) recalls (r.computed ctx))
    (hrest : Recalls ctx (r.ended ctx) recalls' w') (hrunning : w'.isRevoked ctx = false) :
    (r.computed ctx).isRevoked ctx = false ∧ ∀ key, (r.ended ctx).kept? ctx key =
      if r.key = key then some (r.values ctx) else (r.computed ctx).kept? ctx key := by
  have hgoes : (r.computed ctx).isRevoked ctx = false :=
    Recall.isRevoked_ended hmemo hnew ▸ hrest.running hrunning
  have hcomputed : (r.computed ctx).hasMemo ctx = true := hbelow.hasMemo_eq.trans hmemo
  refine ⟨hgoes, fun key => ?_⟩
  rw [Recall.ended_new hmemo hnew, hgoes, if_neg Bool.false_ne_true, World.kept?_remember hcomputed]

/-- What the cache has for a key it has from then on. -/
theorem kept (h : Recalls ctx w recalls w') (hrunning : w'.isRevoked ctx = false)
    {key : NodeId × Time} {values : List Value} (hw : w.kept? ctx key = some values) :
    w'.kept? ctx key = some values := by
  induction h with
  | nothing => exact hw
  | host _ _ ih => exact ih hrunning hw
  | bind _ ih => exact ih hrunning hw
  | found hfound _ ih =>
    rw [(Recall.found hfound).2] at ih
    exact ih hrunning hw
  | new hmemo hnew hbelow _ hrest ihbelow ih =>
    obtain ⟨hgoes, hended⟩ := after_new hmemo hnew hbelow hrest hrunning
    refine ih hrunning ?_
    rw [hended, if_neg (Recall.key_ne_of_new hnew hw)]
    exact ihbelow hgoes hw

/-- What the cache has at the end it had before, or it was asked for it. -/
theorem kept_cases (h : Recalls ctx w recalls w') (hrunning : w'.isRevoked ctx = false)
    {key : NodeId × Time} (hkept : (w'.kept? ctx key).isSome = true) :
    (w.kept? ctx key).isSome = true ∨ key ∈ recalls.map Recall.key := by
  induction h with
  | nothing => exact .inl hkept
  | host _ _ ih => exact ih hrunning hkept
  | bind _ ih => exact ih hrunning hkept
  | found hfound _ ih =>
    rw [(Recall.found hfound).2] at ih
    exact (ih hrunning hkept).imp_right (List.mem_cons_of_mem _)
  | @new r _ _ _ hmemo hnew hbelow _ hrest ihbelow ih =>
    obtain ⟨hgoes, hended⟩ := after_new hmemo hnew hbelow hrest hrunning
    rw [List.map_cons, List.map_append, List.mem_cons, List.mem_append]
    rcases ih hrunning hkept with hsome | hmem
    · rw [hended] at hsome
      split at hsome
      · rename_i hkey
        exact .inr (.inl hkey.symm)
      · exact (ihbelow hgoes hsome).imp_right fun hmem => .inr (.inl hmem)
    · exact .inr (.inr (.inr hmem))

/-- Nothing that the cache has is computed anew. -/
theorem notMem_new (h : Recalls ctx w recalls w') (hrunning : w'.isRevoked ctx = false)
    {key : NodeId × Time} {values : List Value} (hw : w.kept? ctx key = some values) :
    key ∉ Recall.newKeys ctx recalls := by
  induction h with
  | nothing => exact List.not_mem_nil
  | host _ _ ih => exact ih hrunning hw
  | bind _ ih => exact ih hrunning hw
  | found hfound _ ih =>
    rw [(Recall.found hfound).2] at ih
    rw [Recall.newKeys_found hfound]
    exact ih hrunning hw
  | new hmemo hnew hbelow _ hrest ihbelow ih =>
    obtain ⟨hgoes, hended⟩ := after_new hmemo hnew hbelow hrest hrunning
    have hother := Recall.key_ne_of_new hnew hw
    rw [Recall.newKeys_new hnew, List.mem_cons, List.mem_append, not_or, not_or]
    refine ⟨hother.symm, ihbelow hgoes hw, ih hrunning ?_⟩
    rw [hended, if_neg hother]
    exact hbelow.kept hgoes hw

/-! ### Each key once

From here on, nodes that are kept are told apart by their names. So a node that is computed is
not among those that the cache is asked for meanwhile: it keeps them, and no node keeps itself. -/

section Named
variable (hnamed : root.Named)
include hnamed

/-- What a recall asks for while it computes is kept under other keys. -/
theorem key_ne_below {b : Recall σ} (hr : root.Keeps r.node) (hb : r.node.Keeps b.node) :
    r.key ≠ b.key :=
  fun hkey => hnamed.ne_below hr hb (Prod.mk.inj hkey).1.symm

/-- **What the cache is asked for it has at the end**, and it is what came of asking. -/
theorem kept_at_end (h : Recalls ctx w recalls w') (hrunning : w'.isRevoked ctx = false)
    (hroot : ∀ r ∈ recalls, root.Keeps r.node) :
    ∀ r ∈ recalls, w'.kept? ctx r.key = some (r.values ctx) := by
  induction h with
  | nothing => exact fun _ hr => absurd hr List.not_mem_nil
  | host _ _ ih => exact ih hrunning hroot
  | bind _ ih => exact ih hrunning hroot
  | found hfound hrest ih =>
    rw [List.forall_mem_cons] at hroot ⊢
    have hended := (Recall.found hfound).2
    refine ⟨hrest.kept hrunning ?_, ih hrunning hroot.2⟩
    rw [hended]
    exact (Recall.found hfound).1
  | @new r _ below _ hmemo hnew hbelow hkeeps hrest ihbelow ih =>
    obtain ⟨hgoes, hended⟩ := after_new hmemo hnew hbelow hrest hrunning
    rw [List.forall_mem_cons, List.forall_mem_append] at hroot ⊢
    obtain ⟨hr, hbelowRoot, hrestRoot⟩ := hroot
    refine ⟨hrest.kept hrunning ?_, fun b hb => hrest.kept hrunning ?_, ih hrunning hrestRoot⟩
    · rw [hended, if_pos rfl]
    · rw [hended, if_neg (key_ne_below hnamed hr (hkeeps b hb))]
      exact ihbelow hgoes hbelowRoot b hb

/-- **What is kept is computed once.** -/
theorem new_nodup (h : Recalls ctx w recalls w') (hrunning : w'.isRevoked ctx = false)
    (hroot : ∀ r ∈ recalls, root.Keeps r.node) : (Recall.newKeys ctx recalls).Nodup := by
  induction h with
  | nothing => exact List.nodup_nil
  | host _ _ ih => exact ih hrunning hroot
  | bind _ ih => exact ih hrunning hroot
  | found hfound _ ih =>
    rw [Recall.newKeys_found hfound]
    exact ih hrunning (List.forall_mem_cons.mp hroot).2
  | @new r _ below rest hmemo hnew hbelow hkeeps hrest ihbelow ih =>
    obtain ⟨hgoes, hended⟩ := after_new hmemo hnew hbelow hrest hrunning
    rw [List.forall_mem_cons, List.forall_mem_append] at hroot
    obtain ⟨hr, hbelowRoot, hrestRoot⟩ := hroot
    -- What was computed is kept afterwards, so that none of it is computed in the rest.
    have hown : r.key ∉ Recall.newKeys ctx rest :=
      hrest.notMem_new hrunning (by rw [hended, if_pos rfl])
    have hother : ∀ b ∈ below, r.key ≠ b.key ∧ b.key ∉ Recall.newKeys ctx rest := by
      intro b hb
      have hne := key_ne_below hnamed hr (hkeeps b hb)
      have hkept : (r.ended ctx).kept? ctx b.key = some (b.values ctx) := by
        rw [hended, if_neg hne]
        exact hbelow.kept_at_end hnamed hgoes hbelowRoot b hb
      exact ⟨hne, hrest.notMem_new hrunning hkept⟩
    rw [Recall.newKeys_new hnew, List.nodup_cons, List.mem_append, not_or, List.nodup_append]
    refine ⟨⟨fun hmem => ?_, hown⟩, ihbelow hgoes hbelowRoot, ih hrunning hrestRoot, ?_⟩
    · obtain ⟨b, hb, hkey⟩ := Recall.mem_of_newKeys hmem
      exact (hother b hb).1 hkey.symm
    · rintro key hmem _ hmem' rfl
      obtain ⟨b, hb, rfl⟩ := Recall.mem_of_newKeys hmem
      exact (hother b hb).2 hmem'

/-- The cache has as many entries as it was asked for, if it had none. -/
theorem size_at_end (h : Recalls ctx w recalls w') (hrunning : w'.isRevoked ctx = false)
    (hroot : ∀ r ∈ recalls, root.Keeps r.node) (hempty : w.memo? ctx = some .empty) :
    w'.memoSize ctx = (recalls.map Recall.key).toFinset.card := by
  have hnone : ∀ key, w.kept? ctx key = none := fun key => by rw [World.kept?, hempty]; rfl
  have hmemo : w'.hasMemo ctx = true := by
    rw [h.hasMemo_eq, World.hasMemo, hempty]
    rfl
  have hstart : w.KeysApart ctx := by
    intro memo hmemo
    obtain rfl := Option.some.inj (hempty.symm.trans hmemo)
    exact List.nodup_nil
  obtain ⟨memo, hmemo⟩ := Option.isSome_iff_exists.mp hmemo
  have hapart : memo.keys.Nodup := h.keysApart hstart memo hmemo
  have hkept : ∀ key, w'.kept? ctx key = memo.get? key := fun key => by
    rw [World.kept?, hmemo]
    rfl
  have hkeys : memo.keys.toFinset = (recalls.map Recall.key).toFinset := by
    ext key
    rw [List.mem_toFinset, List.mem_toFinset, Table.mem_keys hapart, ← hkept]
    constructor
    · intro hsome
      exact (h.kept_cases hrunning hsome).resolve_left (by simp [hnone])
    · intro hmem
      obtain ⟨r, hr, rfl⟩ := List.mem_map.mp hmem
      rw [h.kept_at_end hnamed hrunning hroot r hr]
      rfl
  rw [World.memoSize, hmemo, ← hkeys, List.toFinset_card_of_nodup hapart]
  exact (List.length_map ..).symm

end Named

end Recalls

end Node

end ScriptEngine

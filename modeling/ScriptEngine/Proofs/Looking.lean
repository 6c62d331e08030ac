import ScriptEngine.Expr.Values
import ScriptEngine.Proofs.Runs

/-! What nodes yield when the host only looks.

As long as the functions of the host change nothing, what a node yields is a function of
the host's state, the bindings and the event (`yields`). Reading computes it
(`array_ensures`), whatever is cached, if what is cached for the nodes below is what they
yield; and of the caches it touches only what is kept for those nodes (`Filled`). Under a
state other than the present, all that a node yields is fixed by that state
(`yields_of_time`). -/
namespace ScriptEngine

/-! ### Looking -/

/-- A function of the host changes nothing and revokes no event. -/
def HostM.Looks {σ α : Type} (m : HostM σ α) : Prop :=
  ∀ s, (m.run s).state = s ∧ ∀ entry ∈ (m.run s).journal, ∀ ctx, entry.revokes ctx = false

theorem HostM.Looks.called {σ α : Type} {m : HostM σ α} (h : m.Looks) (call : HostCall) :
    (HostM.called call m).Looks := by
  intro s
  refine ⟨(h s).1, fun entry hentry ctx => ?_⟩
  rcases List.mem_cons.mp hentry with rfl | hentry
  · rfl
  · exact (h s).2 entry hentry ctx

namespace World
variable {σ : Type} {w : World σ} {ctx : ContextId} {node : NodeId} {t : Time}
  {values : List Value}

/-- What is kept for a node under a state of the event. -/
def kept? (w : World σ) (ctx : ContextId) (key : NodeId × Time) : Option (List Value) :=
  (w.memo? ctx).bind (·.get? key)

theorem memo?_remember {memo : Memo} (h : w.memo? ctx = some memo) :
    (w.remember ctx node t values).memo? ctx = some (memo.insert (node, t) values) := by
  rw [remember, h, memo?]
  simp [Table.get?_insert]

theorem remember_of_no_memo (h : w.memo? ctx = none) : w.remember ctx node t values = w := by
  rw [remember, h]

/-- Remembering the same keeps caches the same. -/
theorem memo?_remember_congr {w' : World σ} (h : w.memo? ctx = w'.memo? ctx) :
    (w.remember ctx node t values).memo? ctx = (w'.remember ctx node t values).memo? ctx := by
  cases hw : w.memo? ctx with
  | none =>
    have hw' : w'.memo? ctx = none := h.symm.trans hw
    rw [remember_of_no_memo hw, remember_of_no_memo hw', hw, hw']
  | some memo =>
    have hw' : w'.memo? ctx = some memo := h.symm.trans hw
    rw [memo?_remember hw, memo?_remember hw']

@[simp] theorem host_remember : (w.remember ctx node t values).host = w.host := by
  rw [remember]
  split <;> rfl

@[simp] theorem bindings_remember : (w.remember ctx node t values).bindings = w.bindings := by
  rw [remember]
  split <;> rfl

@[simp] theorem isRevoked_remember :
    (w.remember ctx node t values).isRevoked ctx = w.isRevoked ctx := by
  rw [remember]
  split <;> rfl

@[simp] theorem hasMemo_remember :
    (w.remember ctx node t values).hasMemo ctx = w.hasMemo ctx := by
  cases h : w.memo? ctx with
  | none => rw [remember_of_no_memo h]
  | some memo => rw [hasMemo, hasMemo, memo?_remember h, h, Option.isSome_some, Option.isSome_some]

theorem kept?_remember (h : w.hasMemo ctx = true) (key : NodeId × Time) :
    (w.remember ctx node t values).kept? ctx key =
      if (node, t) = key then some values else w.kept? ctx key := by
  obtain ⟨memo, hmemo⟩ := Option.isSome_iff_exists.mp h
  rw [kept?, kept?, memo?_remember hmemo, hmemo, Option.bind_some, Option.bind_some,
    Table.get?_insert]

theorem isRevoked_append {added : List Entry} (host : σ) (h : w.isRevoked ctx = false)
    (hadded : ∀ entry ∈ added, entry.revokes ctx = false) :
    ({ w with host := host, journal := w.journal ++ added } : World σ).isRevoked ctx = false := by
  rw [isRevoked] at h
  rw [isRevoked, List.any_append, h, Bool.false_or, List.any_eq_false]
  exact fun entry hentry => by simp [hadded entry hentry]

end World

namespace Node
variable {σ : Type} {n m k : Node σ} {ctx : ContextId}

/-- All functions of the host in a tree only look. -/
inductive Looks : Node σ → Prop where
  | literal {id type values q} : Looks (.literal id type values q)
  | list {id type children q} : (∀ c ∈ children, Looks c) → Looks (.list id type children q)
  | converted {id source edge} : Looks source → (∀ v, (edge.apply v).Looks) →
      Looks (.converted id source edge)
  | property {id owner p} : Looks owner → (∀ v, (p.get v).Looks) → Looks (.property id owner p)
  | eventValue {id value} : (∀ t get, value.getter? t = some get → ∀ ctx, (get ctx).Looks) →
      Looks (.eventValue id value)
  | snapshot {id taken} : Looks (.snapshot id taken)
  | memoized {id inner} : Looks inner → Looks (.memoized id inner)
  | host {id node} : (∀ ctx, (node.compute ctx).Looks) → Looks (.host id node)

/-! ### What is yielded -/

mutual
/-- What a node yields in a state of the host, under some bindings. -/
def yields (s : σ) (b : Bindings) (ctx : ContextId) : Node σ → List Value
  | .literal _ _ values _ => values
  | .list _ _ children _ => yieldsAll s b ctx children
  | .converted _ source edge =>
    (source.yields s b ctx).filterMap fun v => ((edge.apply v).run s).value
  | .property _ owner p => (owner.yields s b ctx).filterMap fun v => ((p.get v).run s).value
  | .eventValue id value =>
    match value.getter? (b.get id) with
    | none => []
    | some get => ((get ctx).run s).value.toList
  | .snapshot _ taken => taken.values
  | .memoized _ inner => inner.yields s b ctx
  | .host _ node => ((node.compute ctx).run s).value
def yieldsAll (s : σ) (b : Bindings) (ctx : ContextId) : List (Node σ) → List Value
  | [] => []
  | n :: rest => n.yields s b ctx ++ yieldsAll s b ctx rest
end

/-- The values of a node are kept by a part of another. -/
inductive Keeps : Node σ → Node σ → Prop where
  | here {id inner} : Keeps (.memoized id inner) inner
  | list {id type children q c k} : c ∈ children → Keeps c k → Keeps (.list id type children q) k
  | converted {id source edge k} : Keeps source k → Keeps (.converted id source edge) k
  | property {id owner p k} : Keeps owner k → Keeps (.property id owner p) k
  | memoized {id inner k} : Keeps inner k → Keeps (.memoized id inner) k

theorem Keeps.trans {k k' : Node σ} (hk : n.Keeps k) (hk' : k.Keeps k') : n.Keeps k' := by
  induction hk with
  | here => exact .memoized hk'
  | list hc _ ih => exact .list hc (ih hk')
  | converted _ ih => exact .converted (ih hk')
  | property _ ih => exact .property (ih hk')
  | memoized _ ih => exact .memoized (ih hk')

/-- Nodes that are kept are told apart by their names. -/
def Named (n : Node σ) : Prop := ∀ k k', n.Keeps k → n.Keeps k' → k.id = k'.id → k = k'

theorem size_le_sizeAll {children : List (Node σ)} {c : Node σ} (hc : c ∈ children) :
    c.size ≤ sizeAll children := by
  induction children with
  | nil => exact absurd hc List.not_mem_nil
  | cons n rest ih =>
    rw [sizeAll]
    rcases List.mem_cons.mp hc with rfl | hc
    · omega
    · have := ih hc
      omega

/-- No node keeps itself. -/
theorem Keeps.size_lt (h : n.Keeps k) : k.size < n.size := by
  induction h with
  | here =>
    rw [size]
    omega
  | list hc _ ih =>
    have := size_le_sizeAll hc
    rw [size]
    omega
  | converted _ ih | property _ ih | memoized _ ih =>
    rw [size]
    omega

/-! ### States other than the present -/

section Times
variable {s : σ} {b b' : Bindings}

theorem eq_of_commonTime {times : List Time} (h : commonTime times ≠ .default) :
    ∀ t ∈ times, t = commonTime times := by
  cases times with
  | nil => exact absurd rfl h
  | cons first rest =>
    rw [commonTime] at h ⊢
    split
    case isTrue hall =>
      intro t ht
      rcases List.mem_cons.mp ht with rfl | ht
      · rfl
      · simpa using List.all_eq_true.mp hall t ht
    case isFalse hall =>
      rw [if_neg hall] at h
      exact absurd rfl h

theorem mem_times {children : List (Node σ)} {c : Node σ} (hc : c ∈ children) :
    c.time b ∈ times b children := by
  induction children with
  | nil => exact absurd hc List.not_mem_nil
  | cons n rest ih =>
    rw [times, List.mem_cons]
    rcases List.mem_cons.mp hc with rfl | hc
    · exact .inl rfl
    · exact .inr (ih hc)

/-- The nodes of a list that is bound to a state other than the present are bound to it too. -/
theorem time_of_list {id : NodeId} {type : TypeKey} {children : List (Node σ)} {q : Quantifier}
    (h : (Node.list id type children q).time b ≠ .default) {c : Node σ} (hc : c ∈ children) :
    c.time b = (Node.list id type children q).time b := by
  rw [time] at h ⊢
  exact eq_of_commonTime h _ (mem_times hc)

/-- So are the nodes that are kept below a node. -/
theorem Keeps.time_eq (hk : n.Keeps k) (h : n.time b ≠ .default) : k.time b = n.time b := by
  induction hk with
  | here => rw [time]
  | list hc _ ih =>
    have hchild := time_of_list h hc
    rw [← hchild] at h ⊢
    exact ih h
  | converted _ ih | property _ ih | memoized _ ih =>
    rw [time] at h ⊢
    exact ih h

theorem yieldsAll_congr {children : List (Node σ)}
    (h : ∀ c ∈ children, c.yields s b ctx = c.yields s b' ctx) :
    yieldsAll s b ctx children = yieldsAll s b' ctx children := by
  induction children with
  | nil => rw [yieldsAll, yieldsAll]
  | cons n rest ih =>
    rw [List.forall_mem_cons] at h
    rw [yieldsAll, yieldsAll, h.1, ih h.2]

/-- **A state other than the present fixes what a node yields.** -/
theorem yields_of_time (hsame : n.time b = n.time b') (h : n.time b ≠ .default) :
    n.yields s b ctx = n.yields s b' ctx := by
  induction n with
  | literal | snapshot | host => rw [yields, yields]
  | list id type children q ih =>
    rw [yields, yields]
    refine yieldsAll_congr fun c hc => ih c hc ?_ ?_
    · rw [time_of_list h hc, time_of_list (hsame ▸ h) hc, hsame]
    · rw [time_of_list h hc]
      exact h
  | converted _ _ _ ih | property _ _ _ ih | memoized _ _ ih =>
    rw [time] at hsame h
    rw [time] at hsame
    rw [yields, yields, ih hsame h]
  | eventValue =>
    rw [time, time] at hsame
    rw [yields, yields, hsame]

end Times

/-! ### Reading -/

/-- A visitor never stops, and puts each value to what was gathered. -/
def Folds {β : Type} (I : World σ → Prop) (f : Value → β → Eval σ (ForInStep β))
    (g : β → Value → β) : Prop := ∀ v b, (f v b).Ensures I (· = .yield (g b v))

/-- What has become of the world since an earlier moment, if nodes were read that are parts of a
root and the host only looked: values may be kept for nodes that the root keeps. -/
structure Filled (root : Node σ) (ctx : ContextId) (earlier w : World σ) : Prop where
  host : w.host = earlier.host
  bindings : w.bindings = earlier.bindings
  running : w.isRevoked ctx = false
  caches : w.hasMemo ctx = earlier.hasMemo ctx
  kept : ∀ key, w.kept? ctx key = earlier.kept? ctx key ∨ ∃ k, root.Keeps k ∧
    key = (k.id, k.time earlier.bindings) ∧
      w.kept? ctx key = some (k.yields earlier.host earlier.bindings ctx)

/-- What is kept for the nodes that a root keeps is what they yield now. -/
def Current (root : Node σ) (ctx : ContextId) (w : World σ) : Prop :=
  ∀ k, root.Keeps k → ∀ values, w.kept? ctx (k.id, k.time w.bindings) = some values →
    values = k.yields w.host w.bindings ctx

namespace Filled
variable {root : Node σ} {earlier w : World σ}

theorem refl (h : w.isRevoked ctx = false) : Filled root ctx w w :=
  ⟨rfl, rfl, h, rfl, fun _ => .inl rfl⟩

theorem note (h : Filled root ctx earlier w) {added : List Entry}
    (hadded : ∀ entry ∈ added, entry.revokes ctx = false) :
    Filled root ctx earlier { w with journal := w.journal ++ added } :=
  ⟨h.host, h.bindings, World.isRevoked_append w.host h.running hadded, h.caches, h.kept⟩

theorem remember (h : Filled root ctx earlier w) {k : Node σ} (hk : root.Keeps k) :
    Filled root ctx earlier (w.remember ctx k.id (k.time earlier.bindings)
      (k.yields earlier.host earlier.bindings ctx)) := by
  refine ⟨by simp [h.host], by simp [h.bindings], by simp [h.running], by simp [h.caches], ?_⟩
  intro key
  cases hcaches : w.hasMemo ctx with
  | false =>
    rw [World.remember_of_no_memo (by simpa [World.hasMemo] using hcaches)]
    exact h.kept key
  | true =>
    rw [World.kept?_remember hcaches]
    split
    case isTrue hkey => exact .inr ⟨k, hk, hkey.symm, rfl⟩
    case isFalse => exact h.kept key

theorem looks {α : Type} {m : HostM σ α} (hm : m.Looks) :
    (Eval.host m).Ensures (Filled root ctx earlier) (· = (m.run earlier.host).value) := by
  intro w hw
  have hrunning := World.isRevoked_append (m.run w.host).state hw.running
    fun entry hentry => (hm w.host).2 entry hentry ctx
  have hstate : (m.run w.host).state = earlier.host := (hm w.host).1.trans hw.host
  exact ⟨by rw [← hw.host]; rfl, hstate, hw.bindings, hrunning, hw.caches, hw.kept⟩

/-- What is kept for a node that the root keeps was kept earlier, or the node was read since. -/
theorem kept_cases (h : Filled root ctx earlier w) (hnamed : root.Named) {k : Node σ}
    (hk : root.Keeps k) {t : Time} {values : List Value}
    (hvalues : w.kept? ctx (k.id, t) = some values) :
    earlier.kept? ctx (k.id, t) = some values ∨
      t = k.time earlier.bindings ∧ values = k.yields earlier.host earlier.bindings ctx := by
  rcases h.kept (k.id, t) with hold | ⟨k', hk', hkey, hnew⟩
  · exact .inl (hold.symm.trans hvalues)
  · obtain ⟨hid, rfl⟩ := Prod.mk.inj hkey
    obtain rfl := hnamed k k' hk hk' hid
    exact .inr ⟨rfl, Option.some.inj (hvalues.symm.trans hnew)⟩

/-- What is kept for a node that the root keeps is what the node yields. -/
theorem current (h : Filled root ctx earlier w) (hnamed : root.Named)
    (hcurrent : Current root ctx earlier) {k : Node σ} (hk : root.Keeps k) {values : List Value}
    (hvalues : w.kept? ctx (k.id, k.time earlier.bindings) = some values) :
    values = k.yields earlier.host earlier.bindings ctx := by
  rcases h.kept_cases hnamed hk hvalues with hold | ⟨_, hnew⟩
  · exact hcurrent k hk values hold
  · exact hnew

end Filled

section Reading
variable {root : Node σ} {earlier : World σ} {β : Type}
  {f : Value → β → Eval σ (ForInStep β)} {g : β → Value → β}

theorem scan_folds {I : World σ → Prop} (hf : Folds I f g) (values : List Value) (b : β) :
    (scan f values b).Ensures I (· = .yield (values.foldl g b)) := by
  induction values generalizing b with
  | nil => exact .pure rfl
  | cons v rest ih =>
    refine .bind (hf v b) fun step hstep => ?_
    subst hstep
    exact ih (g b v)

theorem foldl_filterMap_elim (get : Value → Option Value) (values : List Value) (b : β) :
    (values.filterMap get).foldl g b = values.foldl (fun b v => (get v).elim b (g b)) b := by
  rw [List.foldl_filterMap]
  congr
  funext b v
  cases get v <;> rfl

theorem through_folds (hf : Folds (Filled root ctx earlier) f g)
    {get : Value → HostM σ (Option Value)} (hget : ∀ v, (get v).Looks) :
    Folds (Filled root ctx earlier) (through get f) fun b v =>
      ((get v).run earlier.host).value.elim b (g b) := by
  intro v b
  refine .bind (Filled.looks (hget v)) fun out hout => ?_
  subst hout
  dsimp only
  cases ((get v).run earlier.host).value with
  | none => exact .pure rfl
  | some v' => exact hf v' b

theorem gather_folds {I : World σ → Prop} : Folds I (gather : Value → List Value →
    Eval σ (ForInStep (List Value))) fun gathered v => v :: gathered := fun _ _ => .pure rfl

theorem gathered_foldl (values : List Value) :
    gathered (.yield (values.foldl (fun gathered v => v :: gathered) [])) = values := by
  have hreverse : values.foldl (fun gathered v => v :: gathered) [] = values.reverse := by simp
  rw [gathered, ForInStep.value, hreverse, List.reverse_reverse]

theorem readEvent_looks {id : NodeId} {value : EventValue σ}
    (h : ∀ t get, value.getter? t = some get → ∀ ctx, (get ctx).Looks) :
    (readEvent ctx id value).Ensures (Filled root ctx earlier) fun out =>
      out.toList = (Node.eventValue id value).yields earlier.host earlier.bindings ctx := by
  refine .bind .get fun w hw => ?_
  simp only [hw.running, hw.bindings, yields, Bool.false_eq_true, if_false]
  cases hgetter : value.getter? (earlier.bindings.get id) with
  | none => exact .pure rfl
  | some get =>
    refine (Filled.looks ((h _ get hgetter ctx).called _)).mono fun out hout => ?_
    rw [hout]
    rfl

theorem visitAll_folds {I : World σ → Prop} {s : σ} {bindings : Bindings}
    {children : List (Node σ)} (h : ∀ c ∈ children, ∀ b, (c.visit ctx f b).Ensures I
      (· = .yield ((c.yields s bindings ctx).foldl g b))) (b : β) :
    (visitAll ctx f children b).Ensures I
      (· = .yield ((yieldsAll s bindings ctx children).foldl g b)) := by
  induction children generalizing b with
  | nil =>
    rw [visitAll, yieldsAll]
    exact .pure rfl
  | cons n rest ih =>
    rw [List.forall_mem_cons] at h
    rw [visitAll, yieldsAll, List.foldl_append]
    refine .bind (h.1 b) fun step hstep => ?_
    subst hstep
    exact ih h.2 _

variable (hnamed : root.Named) (hcurrent : Current root ctx earlier)
include hnamed hcurrent

/-- **A visit computes what a node yields**, as long as what is kept for the nodes below is what
they yield. -/
theorem visit_folds (hlooks : n.Looks) (hroot : ∀ k, n.Keeps k → root.Keeps k)
    (hf : Folds (Filled root ctx earlier) f g) (b : β) :
    (n.visit ctx f b).Ensures (Filled root ctx earlier)
      (· = .yield ((n.yields earlier.host earlier.bindings ctx).foldl g b)) := by
  induction hlooks generalizing β with
  | literal =>
    rw [visit, yields]
    exact scan_folds hf _ b
  | @list id type children q _ ih =>
    rw [visit, yields]
    exact visitAll_folds (fun c hc b => ih c hc (fun k hk => hroot k (.list hc hk)) hf b) b
  | @converted _ source edge _ hedge ih =>
    rw [visit, yields, foldl_filterMap_elim]
    exact ih (fun k hk => hroot k (.converted hk)) (through_folds hf hedge) b
  | @property id owner p _ hget ih =>
    rw [visit, yields, foldl_filterMap_elim]
    have hread : ∀ v, (readProperty id p v).Looks := fun v => (hget v).called _
    exact ih (fun k hk => hroot k (.property hk)) (through_folds hf hread) b
  | eventValue hget =>
    rw [visit]
    refine .bind (readEvent_looks hget) fun out hout => ?_
    rw [← hout]
    exact scan_folds hf _ b
  | snapshot =>
    rw [visit, yields]
    exact scan_folds hf _ b
  | @memoized _ inner _ ih =>
    rw [visit, yields]
    have hinner := ih (fun k hk => hroot k (.memoized hk)) gather_folds []
    have hkept := hroot inner .here
    refine .bind .get fun w hw => ?_
    rw [hw.bindings]
    refine .bind (.memoized (P := (· = inner.yields earlier.host earlier.bindings ctx))
      ?_ ?_ ?_ ?_) fun values hvalues => ?_
    · intro w found hw
      exact hw.note (by simp [Entry.revokes])
    · intro w memo values hw hmemo hvalues
      refine hw.current hnamed hcurrent hkept ?_
      rw [World.kept?, hmemo]
      exact hvalues
    · exact .bind hinner fun step hstep => .pure (hstep ▸ gathered_foldl _)
    · intro w values hw hvalues
      rw [hvalues]
      exact hw.remember hkept
    · rw [hvalues]
      exact scan_folds hf _ b
  | host hcompute =>
    rw [visit, yields]
    refine .bind (Filled.looks ((hcompute ctx).called _)) fun out hout => ?_
    subst hout
    exact scan_folds hf _ b

theorem array_ensures (hlooks : n.Looks) (hroot : ∀ k, n.Keeps k → root.Keeps k) :
    (n.array ctx).Ensures (Filled root ctx earlier)
      (· = n.yields earlier.host earlier.bindings ctx) :=
  .bind (visit_folds hnamed hcurrent hlooks hroot gather_folds []) fun _ hstep =>
    .pure (hstep ▸ gathered_foldl _)

end Reading

end Node

end ScriptEngine

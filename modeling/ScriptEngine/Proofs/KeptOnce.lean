import ScriptEngine.Proofs.Accesses
import ScriptEngine.Proofs.Recalls

/-! What is kept is evaluated once.

However a node is read, what becomes of the cache is a history of asking it (`visit_consults`,
`Access.consults`); so it is with whatever a script asks of nodes, one after the other, as long
as it changes nothing. Hence in an event that goes on a kept node is evaluated once at most for
each state it is bound to, always gives what it gave then, and the cache has one entry for each
node and state that was read (`script_keeps_once`). The functions of the host may do anything
but reach into the cache, which they cannot. -/
namespace ScriptEngine

/-- A function of the host does not touch the cache of an event. -/
def HostM.Apart {σ α : Type} (ctx : ContextId) (m : HostM σ α) : Prop :=
  ∀ s, ∀ e ∈ (m.run s).journal, e.asksCache ctx = false

theorem HostM.Apart.called {σ α : Type} {ctx : ContextId} {m : HostM σ α} (h : m.Apart ctx)
    (call : HostCall) : (HostM.called call m).Apart ctx := by
  intro s e he
  rcases List.mem_cons.mp he with rfl | he
  · rfl
  · exact h s e he

namespace Node
variable {σ α β : Type} {n root inner : Node σ} {ctx : ContextId}

/-! ### Runs that ask the cache -/

/-- What becomes of the cache in a run is a history of asking for nodes that a root keeps. -/
def Consults (root : Node σ) (ctx : ContextId) (m : Eval σ α) : Prop :=
  ∀ w, w.hasMemo ctx = true →
    ∃ recalls, Recalls ctx w recalls (m.run w).2 ∧ ∀ r ∈ recalls, root.Keeps r.node

/-- The first that the cache is asked for in a run is a node that the root keeps. -/
def Opens (root inner : Node σ) (ctx : ContextId) (m : Eval σ α) : Prop :=
  ∀ w, w.hasMemo ctx = true → ∃ recalls, Recalls ctx w (⟨inner, w⟩ :: recalls) (m.run w).2 ∧
    ∀ r ∈ recalls, root.Keeps r.node

namespace Consults
variable {m : Eval σ α} {f : α → Eval σ β}

theorem pure {a : α} : Consults root ctx (Pure.pure a : Eval σ α) :=
  fun _ _ => ⟨[], .nothing, fun _ hr => absurd hr List.not_mem_nil⟩

theorem bind (hm : Consults root ctx m) (hf : ∀ a, Consults root ctx (f a)) :
    Consults root ctx (m >>= f) := by
  intro w hmemo
  obtain ⟨first, hfirst, hroot⟩ := hm w hmemo
  obtain ⟨rest, hrest, hroot'⟩ := hf (m.run w).1 (m.run w).2 (hfirst.hasMemo_eq.trans hmemo)
  exact ⟨first ++ rest, hfirst.append hrest, List.forall_mem_append.mpr ⟨hroot, hroot'⟩⟩

theorem get_bind {k : World σ → Eval σ α} (hk : ∀ w, Consults root ctx (k w)) :
    Consults root ctx (MonadState.get >>= k) := fun w hmemo => hk w w hmemo

theorem host {m : HostM σ α} (hm : m.Apart ctx) : Consults root ctx (Eval.host m) :=
  fun w _ => ⟨[], .host (hm w.host) .nothing, fun _ hr => absurd hr List.not_mem_nil⟩

theorem note {e : Entry} (he : e.asksCache ctx = false) :
    Consults root ctx (Eval.note e : Eval σ _) :=
  host fun _ e' he' => by rw [List.mem_singleton.mp he', he]

theorem isRevoked : Consults root ctx (Eval.isRevoked ctx : Eval σ Bool) := get_bind fun _ => pure

end Consults

theorem Opens.bind {m : Eval σ α} {f : α → Eval σ β} (hm : Opens root inner ctx m)
    (hf : ∀ a, Consults root ctx (f a)) : Opens root inner ctx (m >>= f) := by
  intro w hmemo
  obtain ⟨first, hfirst, hroot⟩ := hm w hmemo
  obtain ⟨rest, hrest, hroot'⟩ := hf (m.run w).1 (m.run w).2 (hfirst.hasMemo_eq.trans hmemo)
  exact ⟨first ++ rest, hfirst.append hrest, List.forall_mem_append.mpr ⟨hroot, hroot'⟩⟩

theorem Opens.consults {m : Eval σ α} (hm : Opens root inner ctx m) (hinner : root.Keeps inner) :
    Consults root ctx m := fun w hmemo =>
  have ⟨recalls, hrecalls, hroot⟩ := hm w hmemo
  ⟨⟨inner, w⟩ :: recalls, hrecalls, List.forall_mem_cons.mpr ⟨hinner, hroot⟩⟩

/-! ### Visits -/

section Visits
variable {f : Value → β → Eval σ (ForInStep β)} {b : β}

theorem scan_consults (hf : ∀ v b, Consults root ctx (f v b)) (values : List Value) (b : β) :
    Consults root ctx (scan f values b) := by
  induction values generalizing b with
  | nil => exact .pure
  | cons v rest ih =>
    refine .bind (hf v b) fun step => ?_
    cases step with
    | done b => exact .pure
    | yield b => exact ih b

theorem visitAll_consults {children : List (Node σ)}
    (h : ∀ c ∈ children, ∀ b, Consults root ctx (c.visit ctx f b)) (b : β) :
    Consults root ctx (visitAll ctx f children b) := by
  induction children generalizing b with
  | nil =>
    rw [visitAll]
    exact .pure
  | cons n rest ih =>
    rw [List.forall_mem_cons] at h
    rw [visitAll]
    refine .bind (h.1 b) fun step => ?_
    cases step with
    | done b => exact .pure
    | yield b => exact ih h.2 b

theorem through_consults {get : Value → HostM σ (Option Value)} (hget : ∀ v, (get v).Apart ctx)
    (hf : ∀ v b, Consults root ctx (f v b)) (v : Value) (b : β) :
    Consults root ctx (through get f v b) := by
  refine .bind (.host (hget v)) fun out => ?_
  cases out with
  | none => exact .pure
  | some v' => exact hf v' b

theorem readEvent_consults {id : NodeId} {value : EventValue σ}
    (hget : ∀ t get, value.getter? t = some get → (get ctx).Apart ctx) :
    Consults root ctx (readEvent ctx id value) := by
  refine .get_bind fun w => ?_
  dsimp only
  split
  · exact .pure
  · cases hgetter : value.getter? (w.bindings.get id) with
    | none => exact .pure
    | some get => exact .host ((hget _ get hgetter).called _)

/-- Asking for a kept node asks for it first, and then for what it keeps if it is computed. -/
theorem keptArray_opens (h : Consults inner ctx (inner.array ctx))
    (hroot : ∀ k, inner.Keeps k → root.Keeps k) : Opens root inner ctx (inner.keptArray ctx) := by
  intro w hmemo
  cases hnew : (⟨inner, w⟩ : Recall σ).isNew ctx with
  | false => exact ⟨[], .found hnew .nothing, fun _ hr => absurd hr List.not_mem_nil⟩
  | true =>
    obtain ⟨below, hbelow, hkeeps⟩ := h ((⟨inner, w⟩ : Recall σ).started ctx) hmemo
    refine ⟨below ++ [], .new hmemo hnew hbelow hkeeps .nothing, ?_⟩
    rw [List.append_nil]
    exact fun r hr => hroot _ (hkeeps r hr)

theorem visit_memoized {id : NodeId} (f : Value → β → Eval σ (ForInStep β)) (b : β) :
    (Node.memoized id inner).visit ctx f b =
      inner.keptArray ctx >>= fun values => scan f values b := by
  rw [visit, keptArray, bind_assoc]
  rfl

/-- **A visit asks the cache** for nodes that its node keeps, and for those that its visitor asks
for. -/
theorem visit_consults (hn : n.Uses (HostM.Apart ctx) ctx) (hroot : ∀ k, n.Keeps k → root.Keeps k)
    (hf : ∀ v b, Consults root ctx (f v b)) (b : β) : Consults root ctx (n.visit ctx f b) := by
  induction hn generalizing β root with
  | literal | snapshot =>
    rw [visit]
    exact scan_consults hf _ b
  | list _ ih =>
    rw [visit]
    exact visitAll_consults (fun c hc b => ih c hc (fun k hk => hroot k (.list hc hk)) hf b) b
  | converted _ hedge ih =>
    rw [visit]
    exact ih (fun k hk => hroot k (.converted hk)) (through_consults hedge hf) b
  | property _ hget ih =>
    rw [visit]
    refine ih (fun k hk => hroot k (.property hk)) ?_ b
    exact through_consults (fun v => (hget v).called _) hf
  | eventValue hget =>
    rw [visit]
    exact .bind (readEvent_consults hget) fun v => scan_consults hf _ b
  | @memoized _ inner _ ih =>
    rw [visit_memoized]
    have harray : Consults inner ctx (inner.array ctx) :=
      .bind (ih (fun _ hk => hk) (fun _ _ => .pure) []) fun _ => .pure
    have hkept := keptArray_opens harray fun k hk => hroot k (.memoized hk)
    exact (hkept.consults (hroot inner .here)).bind fun values => scan_consults hf values b
  | host hcompute =>
    rw [visit]
    exact .bind (.host (hcompute.called _)) fun values => scan_consults hf values b

theorem array_consults (hn : n.Uses (HostM.Apart ctx) ctx) (hroot : ∀ k, n.Keeps k → root.Keeps k) :
    Consults root ctx (n.array ctx) :=
  .bind (visit_consults hn hroot (fun _ _ => .pure) []) fun _ => .pure

end Visits

/-! ### Reading -/

theorem prepare_consults (hn : n.Uses (HostM.Apart ctx) ctx)
    (hroot : ∀ k, n.Keeps k → root.Keeps k) : Consults root ctx (n.prepare ctx) := by
  induction hn with
  | literal | snapshot | list =>
    rw [prepare]
    exact .pure
  | converted _ _ ih =>
    rw [prepare]
    exact ih fun k hk => hroot k (.converted hk)
  | property _ _ ih =>
    rw [prepare]
    exact ih fun k hk => hroot k (.property hk)
  | eventValue hget =>
    rw [prepare]
    exact .bind (readEvent_consults hget) fun _ => .pure
  | @memoized _ inner hinner =>
    rw [prepare]
    have hkept := keptArray_opens (array_consults hinner fun _ hk => hk) fun k hk =>
      hroot k (.memoized hk)
    exact (hkept.consults (hroot inner .here)).bind fun _ => .pure
  | host hcompute =>
    rw [prepare]
    exact .bind (.host (hcompute.called _)) fun _ => .pure

theorem gatherUpTo_consults (count : Nat) (v : Value) (gathered : List Value) :
    Consults root ctx (gatherUpTo count v gathered : Eval σ _) := by
  rw [gatherUpTo]
  split <;> exact .pure

theorem judge_consults {test : Test σ} (htest : ∀ v, (test v).Apart ctx) (q : Quantifier)
    (negated : Bool) (v : Value) (b : Option Bool) :
    Consults root ctx (Check.judge ctx q test negated v b) := by
  refine .bind .isRevoked fun revoked => ?_
  cases revoked with
  | true => exact .pure
  | false =>
    refine .bind (.note rfl) fun _ => .bind (.host (htest v)) fun passed => ?_
    cases q.decided? negated passed <;> exact .pure

theorem verdict_consults (q : Quantifier) (negated : Bool) (scan : ForInStep (Option Bool)) :
    Consults root ctx (Check.verdict ctx q negated scan : Eval σ Bool) := by
  rw [Check.verdict]
  cases scan.value with
  | some verdict => exact .pure
  | none =>
    refine .bind .isRevoked fun revoked => ?_
    cases revoked <;> exact .pure

/-- Whatever way to the values of a node is taken, the cache is asked for nodes that it keeps. -/
theorem Access.consults (a : Access) (hn : n.Uses (HostM.Apart ctx) ctx)
    (hroot : ∀ k, n.Keeps k → root.Keeps k) : Consults root ctx (a.values ctx n) := by
  have hfirst : Consults root ctx (n.first ctx) :=
    .bind (visit_consults hn hroot (fun _ _ => .pure) none) fun _ => .pure
  cases a with
  | array | all => exact array_consults hn hroot
  | iterate count =>
    rw [Access.values, take]
    split
    · exact .bind (prepare_consults hn hroot) fun _ => .pure
    · exact .bind (visit_consults hn hroot (gatherUpTo_consults count) []) fun _ => .pure
  | single =>
    have harray := array_consults hn hroot
    refine .bind ?_ fun _ => .pure
    cases n with
    | list => exact .bind harray fun _ => .pure
    | _ => exact hfirst

theorem check_consults {test : Test σ} (hn : n.Uses (HostM.Apart ctx) ctx)
    (hroot : ∀ k, n.Keeps k → root.Keeps k) (htest : ∀ v, (test v).Apart ctx) (negated : Bool) :
    Consults root ctx (n.check ctx test negated) :=
  .bind (visit_consults hn hroot (judge_consults htest n.reading negated) none) fun _ =>
    verdict_consults n.reading negated _

/-! ### Reading a node that keeps another -/

section Keeping
variable {id : NodeId} (hinner : inner.Uses (HostM.Apart ctx) ctx)
  (hroot : ∀ k, inner.Keeps k → root.Keeps k)
include hinner hroot

theorem visit_opens {f : Value → β → Eval σ (ForInStep β)}
    (hf : ∀ v b, Consults root ctx (f v b)) (b : β) :
    Opens root inner ctx ((Node.memoized id inner).visit ctx f b) := by
  rw [visit_memoized]
  exact (keptArray_opens (array_consults hinner fun _ hk => hk) hroot).bind fun values =>
    scan_consults hf values b

/-- Whatever way to its values is taken, the cache is asked for the node that it keeps. -/
theorem Access.opens (a : Access) :
    Opens root inner ctx (a.values ctx (.memoized id inner)) := by
  cases a with
  | array | all => exact (visit_opens hinner hroot (fun _ _ => .pure) []).bind fun _ => .pure
  | iterate count =>
    rw [Access.values, take]
    split
    · rw [prepare]
      have hkept := keptArray_opens (array_consults hinner fun _ hk => hk) hroot
      exact (hkept.bind fun _ => .pure).bind fun _ => .pure
    · exact (visit_opens hinner hroot (gatherUpTo_consults count) []).bind fun _ => .pure
  | single =>
    have hfirst : Opens root inner ctx ((Node.memoized id inner).visit ctx
        (fun v _ => pure (.done (some v))) none) :=
      visit_opens hinner hroot (fun _ _ => .pure) none
    exact (hfirst.bind fun _ => .pure).bind fun _ => .pure

theorem check_opens {test : Test σ} (htest : ∀ v, (test v).Apart ctx) (negated : Bool) :
    Opens root inner ctx ((Node.memoized id inner).check ctx test negated) :=
  (visit_opens hinner hroot (judge_consults htest _ negated) none).bind fun _ =>
    verdict_consults _ negated _

end Keeping

/-- The part of some values that a read gives. -/
def Access.part : Access → List Value → List Value
  | .array, values => values
  | .all, values => values
  | .iterate count, values => values.take count
  | .single, values => values.head?.toList

/-- What a visit comes to is made of what the cache was asked for, if its visitor needs no world. -/
theorem visit_memoized_value {id : NodeId} {f : Value → β → Eval σ (ForInStep β)}
    {step : Value → β → ForInStep β} (hf : Steps (fun _ => True) f step) (b : β) (w : World σ) :
    (((Node.memoized id inner).visit ctx f b).run w).1 =
      scanned step (Recall.values ⟨inner, w⟩ ctx) b := by
  rw [visit_memoized]
  exact (scan_steps hf _ b ((inner.keptArray ctx).run w).2 trivial).1

/-- **A read of a node that keeps another gives a part** of what the cache was asked for. -/
theorem Access.value_part {id : NodeId} (a : Access) (w : World σ) :
    ((a.values ctx (.memoized id inner)).run w).1 = a.part (Recall.values ⟨inner, w⟩ ctx) := by
  cases a with
  | array | all =>
    rw [Access.values, array_memoized]
    rfl
  | iterate count =>
    rw [Access.values, take]
    split
    case isTrue hzero =>
      rw [hzero, Access.part, List.take_zero]
      rfl
    case isFalse hsome =>
      have hvisit : (((Node.memoized id inner).visit ctx (gatherUpTo count) []).run w).1 =
          scanned (upTo count) (Recall.values ⟨inner, w⟩ ctx) [] :=
        visit_memoized_value (gatherUpTo_steps count) [] w
      exact (congrArg gathered hvisit).trans (scanned_upTo _ _ (Nat.pos_of_ne_zero hsome))
  | single =>
    have hvisit : (((Node.memoized id inner).visit ctx
        (fun v _ => pure (.done (some v))) none).run w).1 =
          scanned (fun v _ => .done (some v)) (Recall.values ⟨inner, w⟩ ctx) none :=
      visit_memoized_value (fun _ _ => .pure rfl) none w
    refine (congrArg (fun step => step.value.toList) hvisit).trans ?_
    rw [Access.part]
    cases Recall.values ⟨inner, w⟩ ctx <;> rfl

/-! ### Scripts -/

/-- A node keeps nothing but what a root keeps, and the host does not touch the cache when it is
read. -/
structure Within (n root : Node σ) (ctx : ContextId) : Prop where
  uses : n.Uses (HostM.Apart ctx) ctx
  keeps : ∀ k, n.Keeps k → root.Keeps k

theorem Within.kept {id : NodeId} (h : (Node.memoized id inner).Within root ctx) :
    root.Keeps inner ∧ inner.Within root ctx := by
  refine ⟨h.keeps inner .here, ?_, fun k hk => h.keeps k (.memoized hk)⟩
  cases h.uses with
  | memoized hinner => exact hinner

/-- The history of a read: if the node keeps another, the cache is asked for that one first. -/
theorem Within.recalls (hn : n.Within root ctx) {m : Eval σ α} (hm : Consults root ctx m)
    (hopens : ∀ {id inner}, n = .memoized id inner → inner.Within root ctx →
      Opens root inner ctx m) {w : World σ} (hmemo : w.hasMemo ctx = true) :
    ∃ recalls, Recalls ctx w recalls (m.run w).2 ∧ (∀ r ∈ recalls, root.Keeps r.node) ∧
      ∀ id inner, some n = some (.memoized id inner) → ⟨inner, w⟩ ∈ recalls := by
  by_cases hkept : ∃ id inner, n = .memoized id inner
  · obtain ⟨id, inner, rfl⟩ := hkept
    obtain ⟨hkeeps, hinner⟩ := hn.kept
    obtain ⟨rest, hrest, hroot⟩ := hopens rfl hinner w hmemo
    refine ⟨⟨inner, w⟩ :: rest, hrest, List.forall_mem_cons.mpr ⟨hkeeps, hroot⟩, ?_⟩
    rintro _ _ ⟨⟩
    exact List.mem_cons_self ..
  · obtain ⟨recalls, hrecalls, hroot⟩ := hm w hmemo
    refine ⟨recalls, hrecalls, hroot, fun id inner he => ?_⟩
    exact absurd ⟨id, inner, Option.some.inj he⟩ hkept

/-- What a script asks of nodes: their values, one way or another, a condition on them, or to take
them from a state of the event. -/
inductive Request (σ : Type) where
  | access (n : Node σ) (a : Access)
  | check (n : Node σ) (test : Test σ) (negated : Bool)
  | bind (n : Node σ) (t : Time)

namespace Request

def read? : Request σ → Option (Node σ)
  | .access n _ => some n
  | .check n _ _ => some n
  | .bind _ _ => none

/-- What is read is within a root, and what it is tested for does not touch the cache. -/
def Within (root : Node σ) (ctx : ContextId) : Request σ → Prop
  | .access n _ => n.Within root ctx
  | .check n test _ => n.Within root ctx ∧ ∀ v, (test v).Apart ctx
  | .bind _ _ => True

variable [HostCells σ]

def after (ctx : ContextId) : Request σ → World σ → World σ
  | .access n a, w => ((a.values ctx n).run w).2
  | .check n test negated, w => ((n.check ctx test negated).run w).2
  | .bind n t, w => ((n.setTime t).run w).2

def afterAll (ctx : ContextId) : List (Request σ) → World σ → World σ
  | [], w => w
  | q :: rest, w => afterAll ctx rest (q.after ctx w)

/-- The requests of a script, each with the world before it. -/
def asked (ctx : ContextId) : List (Request σ) → World σ → List (World σ × Request σ)
  | [], _ => []
  | q :: rest, w => (w, q) :: asked ctx rest (q.after ctx w)

/-- One request. If it reads a node that keeps another, the cache is asked for this one. -/
theorem after_recalls {q : Request σ} (hq : q.Within root ctx) {w : World σ}
    (hmemo : w.hasMemo ctx = true) :
    ∃ recalls, Recalls ctx w recalls (q.after ctx w) ∧ (∀ r ∈ recalls, root.Keeps r.node) ∧
      ∀ id inner, q.read? = some (.memoized id inner) → ⟨inner, w⟩ ∈ recalls := by
  cases q with
  | access n a =>
    refine Node.Within.recalls hq (a.consults hq.uses hq.keeps) (fun he hinner => ?_) hmemo
    subst he
    exact a.opens hinner.uses hinner.keeps
  | check n test negated =>
    obtain ⟨hn, htest⟩ := hq
    refine hn.recalls (check_consults hn.uses hn.keeps htest negated) (fun he hinner => ?_) hmemo
    subst he
    exact check_opens hinner.uses hinner.keeps htest negated
  | bind n t =>
    rw [after, setTime_run]
    refine ⟨[], .bind .nothing, fun _ hr => absurd hr List.not_mem_nil, fun _ _ hread => ?_⟩
    nomatch hread

/-- All requests of a script. -/
theorem afterAll_recalls {script : List (Request σ)} (hscript : ∀ q ∈ script, q.Within root ctx)
    {w : World σ} (hmemo : w.hasMemo ctx = true) :
    ∃ recalls, Recalls ctx w recalls (afterAll ctx script w) ∧
      (∀ r ∈ recalls, root.Keeps r.node) ∧
      ∀ now q id inner, (now, q) ∈ asked ctx script w → q.read? = some (.memoized id inner) →
        ⟨inner, now⟩ ∈ recalls := by
  induction script generalizing w with
  | nil =>
    exact ⟨[], .nothing, fun _ hr => absurd hr List.not_mem_nil,
      fun _ _ _ _ hq => absurd hq List.not_mem_nil⟩
  | cons q rest ih =>
    rw [List.forall_mem_cons] at hscript
    obtain ⟨first, hfirst, hroot, hread⟩ := after_recalls hscript.1 hmemo
    obtain ⟨later, hlater, hroot', hread'⟩ := ih hscript.2 (hfirst.hasMemo_eq.trans hmemo)
    refine ⟨first ++ later, hfirst.append hlater, List.forall_mem_append.mpr ⟨hroot, hroot'⟩, ?_⟩
    intro now q' id inner hq' hkept
    rw [List.mem_append]
    rcases List.mem_cons.mp hq' with he | hq'
    · obtain ⟨rfl, rfl⟩ := Prod.mk.inj he
      exact .inl (hread id inner hkept)
    · exact .inr (hread' now q' id inner hq' hkept)

end Request

/-- What holds of a script and of all that its event's cache was asked for. -/
structure KeepsOnce [HostCells σ] (ctx : ContextId) (script : List (Request σ)) (w : World σ)
    (recalls : List (Recall σ)) : Prop where
  history : Recalls ctx w recalls (Request.afterAll ctx script w)
  /-- The journal tells of these, and of no other, in this order. -/
  told : (Request.afterAll ctx script w).cacheAsked ctx =
    w.cacheAsked ctx ++ recalls.map (·.entry ctx)
  /-- Among them are those by the script itself. -/
  read : ∀ now q id inner, (now, q) ∈ Request.asked ctx script w →
    q.read? = some (.memoized id inner) → ⟨inner, now⟩ ∈ recalls
  /-- No node is evaluated twice for one state. -/
  once : (Recall.newKeys ctx recalls).Nodup
  same : ∀ r ∈ recalls, ∀ r' ∈ recalls, r.key = r'.key → r.values ctx = r'.values ctx
  /-- All that the script reads of a kept node, for one state, is part of one list. -/
  parts : ∀ inner t, ∃ values, ∀ now id a, (now, .access (.memoized id inner) a) ∈
    Request.asked ctx script w → inner.time now.bindings = t →
      ((a.values ctx (.memoized id inner)).run now).1 = a.part values
  size : (Request.afterAll ctx script w).memoSize ctx = (recalls.map Recall.key).toFinset.card

/-- **What is kept is evaluated once.** If a script reads nodes, tests them and binds them in an
event that began with an empty cache and has not been revoked since, then for each state that it is
bound to a kept node is evaluated once at most. Whenever its values are asked for, by the script or
to evaluate another node, they are the same, so all reads of the node give parts of one list; and
the cache has one entry for each node and state that it was asked for. -/
theorem script_keeps_once [HostCells σ] (hnamed : root.Named) {script : List (Request σ)}
    (hscript : ∀ q ∈ script, q.Within root ctx) {w : World σ} (hempty : w.memo? ctx = some .empty)
    (hrunning : (Request.afterAll ctx script w).isRevoked ctx = false) :
    ∃ recalls, KeepsOnce ctx script w recalls := by
  have hmemo : w.hasMemo ctx = true := by
    rw [World.hasMemo, hempty]
    rfl
  obtain ⟨recalls, hrecalls, hroot, hread⟩ := Request.afterAll_recalls hscript hmemo
  have hkept := hrecalls.kept_at_end hnamed hrunning hroot
  have hsame : ∀ r ∈ recalls, ∀ r' ∈ recalls, r.key = r'.key → r.values ctx = r'.values ctx := by
    intro r hr r' hr' hkey
    have hvalues : some (r.values ctx) = some (r'.values ctx) := by
      rw [← hkept r hr, ← hkept r' hr', hkey]
    exact Option.some.inj hvalues
  refine ⟨recalls, hrecalls, hrecalls.told, hread, hrecalls.new_nodup hnamed hrunning hroot, hsame,
    fun inner t => ?_, hrecalls.size_at_end hnamed hrunning hroot hempty⟩
  by_cases hasked : ∃ r ∈ recalls, r.key = (inner.id, t)
  · obtain ⟨r, hr, hkey⟩ := hasked
    refine ⟨r.values ctx, fun now id a hq ht => ?_⟩
    subst ht
    rw [a.value_part now, hsame _ (hread now _ id inner hq rfl) r hr hkey.symm]
  · refine ⟨[], fun now id a hq ht => ?_⟩
    subst ht
    exact absurd ⟨_, hread now _ id inner hq rfl, rfl⟩ hasked

/-! The level of something is kept in two places, one of them in a list that is kept itself. The
list also holds the number ten, which has no past, so it stays in the present. -/

def levelOfPast : Node Gauge := .eventValue ⟨[3]⟩ levelValue

def listOfLevel : Node Gauge :=
  ofChildren ⟨[4]⟩ [.memoized ⟨[5]⟩ levelOfPast,
    .literal ⟨[6]⟩ ⟨"integer"⟩ [⟨⟨"integer"⟩, .i64 10⟩] .and] .and

def levelTwiceKept : Node Gauge :=
  ofChildren ⟨[1]⟩ [.memoized ⟨[2]⟩ levelOfPast, .memoized ⟨[7]⟩ listOfLevel] .and

/-- The list is tested, everything is bound to the past and read, once for its first value and then
in full, and the level is asked for alone. -/
def levelScript : List (Request Gauge) :=
  [.check (.memoized ⟨[7]⟩ listOfLevel) (fun _ => pure false) false,
    .bind levelTwiceKept .past,
    .access levelTwiceKept (.iterate 1),
    .access levelTwiceKept .array,
    .access (.memoized ⟨[2]⟩ levelOfPast) .single]

theorem levelOfPast_uses : levelOfPast.Uses (HostM.Apart ⟨0⟩) ⟨0⟩ := by
  refine .eventValue fun t get hget => ?_
  simp only [levelValue, EventValue.withState, EventValue.ofPresent] at hget
  split at hget
  · cases hget
    exact fun _ _ he => absurd he List.not_mem_nil
  · split at hget
    · cases hget
      exact fun _ _ he => absurd he List.not_mem_nil
    · cases hget

theorem listOfLevel_uses : listOfLevel.Uses (HostM.Apart ⟨0⟩) ⟨0⟩ := by
  refine .list fun c hc => ?_
  rcases List.mem_pair.mp hc with rfl | rfl
  · exact .memoized levelOfPast_uses
  · exact .literal

theorem levelTwiceKept_uses : levelTwiceKept.Uses (HostM.Apart ⟨0⟩) ⟨0⟩ := by
  refine .list fun c hc => ?_
  rcases List.mem_pair.mp hc with rfl | rfl
  · exact .memoized levelOfPast_uses
  · exact .memoized listOfLevel_uses

theorem levelTwiceKept_keeps {k : Node Gauge} (hk : levelTwiceKept.Keeps k) :
    k = levelOfPast ∨ k = listOfLevel := by
  cases hk with
  | list hc hk =>
    rcases List.mem_pair.mp hc with rfl | rfl
    · cases hk with
      | here => exact .inl rfl
      | memoized hk => cases hk
    · cases hk with
      | here => exact .inr rfl
      | memoized hk =>
        cases hk with
        | list hc hk =>
          rcases List.mem_pair.mp hc with rfl | rfl
          · cases hk with
            | here => exact .inl rfl
            | memoized hk => cases hk
          · cases hk

theorem levelTwiceKept_named : levelTwiceKept.Named := by
  intro k k' hk hk' hid
  rcases levelTwiceKept_keeps hk with rfl | rfl <;>
    rcases levelTwiceKept_keeps hk' with rfl | rfl <;> first | rfl | exact absurd hid (by decide)

theorem levelScript_within : ∀ q ∈ levelScript, q.Within levelTwiceKept ⟨0⟩ := by
  have hlevel : ∀ k, (Node.memoized ⟨[2]⟩ levelOfPast).Keeps k → levelTwiceKept.Keeps k :=
    fun k hk => .list (List.mem_cons_self ..) hk
  have hlist : ∀ k, (Node.memoized ⟨[7]⟩ listOfLevel).Keeps k → levelTwiceKept.Keeps k :=
    fun k hk => .list (List.mem_cons_of_mem _ (List.mem_cons_self ..)) hk
  have hquiet : ∀ v : Value, ((fun _ => pure false : Test Gauge) v).Apart ⟨0⟩ :=
    fun _ _ _ he => absurd he List.not_mem_nil
  simp only [levelScript, List.forall_mem_cons]
  exact ⟨⟨⟨.memoized listOfLevel_uses, hlist⟩, hquiet⟩, trivial,
    ⟨levelTwiceKept_uses, fun _ hk => hk⟩, ⟨levelTwiceKept_uses, fun _ hk => hk⟩,
    ⟨.memoized levelOfPast_uses, hlevel⟩, fun _ hq => absurd hq List.not_mem_nil⟩

/-- The cache was asked six times, and came to have three entries. -/
theorem levelScript_keeps_once :
    let w := Request.afterAll ⟨0⟩ levelScript lowered
    (∃ recalls, KeepsOnce ⟨0⟩ levelScript lowered recalls) ∧ w.memoSize ⟨0⟩ = 3 ∧
      (w.cacheAsked ⟨0⟩).length = 6 :=
  ⟨script_keeps_once levelTwiceKept_named levelScript_within rfl (by decide), by decide, by decide⟩

end Node

end ScriptEngine

import ScriptEngine.Proofs.Verdicts

/-! Lazy reads.

A read that may stop early asks the host for nothing that a full read would not, and in no
other order: the calls it makes are those that the full read begins with (`lazy_reads`). That
goes for one value of a node and for a condition, if the test that the condition puts to the
values is no matter of the host. The functions of the host may do what they like, also revoke
the event.

The argument follows the two reads side by side. What the lazy one does with a value cannot be
seen by the host, so as long as it goes on, both have made the same calls; where it stops, the
full one can only add to them. -/
namespace ScriptEngine

/-! ### Calls of the host -/

def Entry.called? : Entry → Option HostCall
  | .call c => some c
  | _ => none

namespace World
variable {σ : Type} {w : World σ}

/-- The calls of the host so far, with what it was called on, in order. -/
def calls (w : World σ) : List HostCall := w.journal.filterMap (·.called?)

theorem calls_append (host : σ) (added : List Entry) :
    ({ w with host := host, journal := w.journal ++ added } : World σ).calls =
      w.calls ++ added.filterMap (·.called?) :=
  List.filterMap_append

@[simp] theorem calls_remember {ctx : ContextId} {node : NodeId} {t : Time} {values : List Value} :
    (w.remember ctx node t values).calls = w.calls := by
  rw [remember]
  split <;> rfl

/-- From a world on, one run makes calls that another one begins with. -/
def CallsFirst (w lazy full : World σ) : Prop :=
  ∃ made rest, lazy.calls = w.calls ++ made ∧ full.calls = w.calls ++ made ++ rest

end World

/-! ### What the host cannot see -/

/-- A function of the host does the same in states that cannot be told apart. -/
structure HostM.Blind {σ α : Type} (E : σ → σ → Prop) (m : HostM σ α) : Prop where
  value : ∀ {s s'}, E s s' → (m.run s).value = (m.run s').value
  journal : ∀ {s s'}, E s s' → (m.run s).journal = (m.run s').journal
  state : ∀ {s s'}, E s s' → E (m.run s).state (m.run s').state

/-- If only equal states cannot be told apart, this holds of every function. -/
theorem HostM.blind_eq {σ α : Type} (m : HostM σ α) : m.Blind Eq where
  value h := congrArg (fun s => (m.run s).value) h
  journal h := congrArg (fun s => (m.run s).journal) h
  state h := congrArg (fun s => (m.run s).state) h

/-- A test that is no matter of the host: it leaves a state that cannot be told apart from the one
before, calls nothing and does not revoke the event. -/
structure Test.Aside {σ : Type} (E : σ → σ → Prop) (ctx : ContextId) (test : Test σ) : Prop where
  unseen : ∀ v {s s'}, E s s' → E ((test v).run s).state s'
  quiet : ∀ v s, ∀ e ∈ ((test v).run s).journal, e.called? = none ∧ e.revokes ctx = false

namespace Node
variable {σ β : Type} {n : Node σ} {ctx : ContextId} {E : σ → σ → Prop} {earlier : List HostCall}
  {w w' : World σ}

/-- A lazy read and a full one have come to the same point: a node cannot tell their worlds apart,
and since they began they have made the same calls. -/
structure InStep (E : σ → σ → Prop) (ctx : ContextId) (earlier : List HostCall) (w w' : World σ) :
    Prop where
  host : E w.host w'.host
  memo : w.memo? ctx = w'.memo? ctx
  bindings : w.bindings = w'.bindings
  revoked : w.isRevoked ctx = w'.isRevoked ctx
  calls : ∃ made, w.calls = earlier ++ made ∧ w'.calls = earlier ++ made

namespace InStep

/-- The same happens in both worlds. -/
theorem append {s s' : σ} (h : InStep E ctx earlier w w') (hs : E s s') (added : List Entry) :
    InStep E ctx earlier { w with host := s, journal := w.journal ++ added }
      { w' with host := s', journal := w'.journal ++ added } := by
  obtain ⟨made, hmade, hmade'⟩ := h.calls
  have hrevoked := h.revoked
  rw [World.isRevoked, World.isRevoked] at hrevoked
  refine ⟨hs, h.memo, h.bindings, ?_, made ++ added.filterMap (·.called?), ?_, ?_⟩
  · rw [World.isRevoked, World.isRevoked, List.any_append, List.any_append, hrevoked]
  · rw [World.calls_append, hmade, List.append_assoc]
  · rw [World.calls_append, hmade', List.append_assoc]

/-- What happens in the first world only is no matter of the host. -/
theorem aside {s : σ} {added : List Entry} (h : InStep E ctx earlier w w') (hs : E s w'.host)
    (hquiet : ∀ e ∈ added, e.called? = none ∧ e.revokes ctx = false) :
    InStep E ctx earlier { w with host := s, journal := w.journal ++ added } w' := by
  have hnone : added.filterMap (·.called?) = [] :=
    List.filterMap_eq_nil_iff.mpr fun e he => (hquiet e he).1
  have hcalls := World.calls_append (w := w) s added
  rw [hnone, List.append_nil] at hcalls
  have hrevoked : added.any (·.revokes ctx) = false :=
    List.any_eq_false.mpr fun e he => by simp [(hquiet e he).2]
  refine ⟨hs, h.memo, h.bindings, ?_, hcalls ▸ h.calls⟩
  rw [← h.revoked, World.isRevoked, World.isRevoked, List.any_append, hrevoked, Bool.or_false]

theorem twins : Twins ctx (InStep E ctx earlier) where
  revoked h := h.revoked
  bindings h := h.bindings
  memo h := h.memo
  note e _ h := h.append h.host [e]
  remember node t values h :=
    { host := by simpa using h.host
      memo := World.memo?_remember_congr h.memo
      bindings := by simpa using h.bindings
      revoked := by simpa using h.revoked
      calls := by simpa using h.calls }

theorem blind {α : Type} {m : HostM σ α} (hm : m.Blind E) :
    Alike (InStep E ctx earlier) (Eval.host m) := by
  intro w w' h
  have hsame := h.append (hm.state h.host) (m.run w.host).journal
  refine ⟨(m.run w.host).value, _, _, rfl, ?_, hsame⟩
  rw [hm.value h.host, hm.journal h.host]
  rfl

/-- A visitor whose doings are no matter of the host goes side by side with gathering. -/
theorem sideBySide {f : Value → β → Eval σ (ForInStep β)}
    (hf : ∀ v b w w', InStep E ctx earlier w w' → InStep E ctx earlier ((f v b).run w).2 w') :
    SideBySide (HostM.Blind E) ctx f gather (fun _ _ => InStep E ctx earlier) fun _ w _ w' =>
      ∃ made rest, w.calls = earlier ++ made ∧ w'.calls = earlier ++ made ++ rest where
  twins _ _ := twins
  alike hm _ _ := blind hm
  step v b c w w' h := by
    have hafter := hf v b w w' h
    cases hrun : (f v b).run w with
    | mk step w₁ =>
      rw [hrun] at hafter
      cases step with
      | yield b' => exact .both hafter
      | done b' =>
        obtain ⟨made, hmade, hmade'⟩ := hafter.calls
        exact .ahead ⟨made, [], hmade, by rw [List.append_nil]; exact hmade'⟩
  hostFree _ _ _ := by
    rintro w' host added ⟨made, rest, hmade, hrest⟩
    refine ⟨made, rest ++ added.filterMap (·.called?), hmade, ?_⟩
    rw [World.calls_append, hrest, List.append_assoc _ rest]
  memos _ _ _ _ _ h := h
  after _ _ _ _ _ h := h

end InStep

/-! ### Reads -/

/-- **A visit makes calls that a full read begins with**, if what its visitor does is no matter of
the host. -/
theorem visit_calls (hE : ∀ s, E s s) (hn : n.Uses (HostM.Blind E) ctx)
    {f : Value → β → Eval σ (ForInStep β)} (w : World σ)
    (hf : ∀ v b w₁ w', InStep E ctx w.calls w₁ w' → InStep E ctx w.calls ((f v b).run w₁).2 w')
    (b : β) : w.CallsFirst ((n.visit ctx f b).run w).2 ((n.array ctx).run w).2 := by
  have hstart : InStep E ctx w.calls w w :=
    ⟨hE w.host, rfl, rfl, rfl, [], by rw [List.append_nil], by rw [List.append_nil]⟩
  have hvisits := visit_abreast hn (InStep.sideBySide hf) (b := b) (c := []) hstart
  rw [run_array]
  generalize (n.visit ctx f b).run w = lazy at hvisits ⊢
  generalize (n.visit ctx gather []).run w = full at hvisits ⊢
  cases hvisits with
  | both h =>
    obtain ⟨made, hmade, hmade'⟩ := h.calls
    exact ⟨made, [], hmade, by rw [List.append_nil]; exact hmade'⟩
  | ahead h => exact h

theorem first_calls (n : Node σ) (ctx : ContextId) (w : World σ) :
    w.CallsFirst ((n.first ctx).run w).2 ((n.array ctx).run w).2 :=
  visit_calls (f := fun v _ => pure (.done (some v))) (fun _ => rfl) (uses_all HostM.blind_eq n) w
    (fun _ _ _ _ h => h) none

theorem single_calls (n : Node σ) (ctx : ContextId) (w : World σ) :
    w.CallsFirst ((n.single ctx).run w).2 ((n.array ctx).run w).2 := by
  cases n with
  | list id type children q =>
    obtain ⟨made, rest, _, hfull⟩ := (Node.list id type children q).first_calls ctx w
    exact ⟨made ++ rest, [], by rw [← List.append_assoc]; exact hfull,
      by rw [List.append_nil, ← List.append_assoc]; exact hfull⟩
  | _ => exact first_calls _ ctx w

/-- Testing a value is no matter of the host if the test is not. -/
theorem judge_inStep {test : Test σ} (htest : test.Aside E ctx) (q : Quantifier) (negated : Bool)
    (v : Value) (b : Option Bool) (h : InStep E ctx earlier w w') :
    InStep E ctx earlier ((Check.judge ctx q test negated v b).run w).2 w' := by
  cases hrevoked : w.isRevoked ctx with
  | true =>
    rw [Check.run_judge_revoked hrevoked]
    exact h
  | false =>
    have hnoted : InStep E ctx earlier { w with journal := w.journal ++ [.test v] } w' :=
      h.aside h.host fun e he => by rw [List.mem_singleton.mp he]; exact ⟨rfl, rfl⟩
    have htested : InStep E ctx earlier (w.tested test v) w' :=
      hnoted.aside (htest.unseen v h.host) (htest.quiet v w.host)
    rw [Check.run_judge hrevoked]
    cases q.decided? negated ((test v).run w.host).value <;> exact htested

theorem check_calls (hE : ∀ s, E s s) (hn : n.Uses (HostM.Blind E) ctx) {test : Test σ}
    (htest : test.Aside E ctx) (negated : Bool) (w : World σ) :
    w.CallsFirst ((n.check ctx test negated).run w).2 ((n.array ctx).run w).2 := by
  rw [run_check]
  exact visit_calls hE hn w (fun v b _ _ h => judge_inStep htest n.reading negated v b h) none

/-- **Lazy reads make the calls that a full read begins with**: a read of one value does, and so
does a condition whose test leaves the host as it is. A test may also change what is its own, in the
host's state, as long as the functions that the node asks cannot tell. -/
theorem lazy_reads (n : Node σ) (ctx : ContextId) (w : World σ) :
    w.CallsFirst ((n.single ctx).run w).2 ((n.array ctx).run w).2 ∧
    (∀ (test : Test σ) (negated : Bool), test.Aside Eq ctx →
      w.CallsFirst ((n.check ctx test negated).run w).2 ((n.array ctx).run w).2) ∧
    ∀ (E : σ → σ → Prop) (test : Test σ) (negated : Bool), (∀ s, E s s) →
      n.Uses (HostM.Blind E) ctx → test.Aside E ctx →
        w.CallsFirst ((n.check ctx test negated).run w).2 ((n.array ctx).run w).2 :=
  ⟨n.single_calls ctx w,
    fun _ negated htest => check_calls (fun _ => rfl) (uses_all HostM.blind_eq n) htest negated w,
    fun _ _ negated hE hn htest => check_calls hE hn htest negated w⟩

/-! Two properties of three numbers are asked for, one of the other. Reading them of a two revokes
the event. The test counts in the host's state what it is put to, which the properties do not look
at. -/

def level : Property Nat where
  name := "level"
  type := ⟨"integer"⟩
  get v :=
    match v.payload with
    | .i64 n => do
      if n == 2 then HostM.revoke ⟨7⟩
      return some v
    | _ => return none

def levelsOfThree : Node Nat :=
  .property ⟨[0]⟩ (.property ⟨[1]⟩ (.literal ⟨[2]⟩ ⟨"integer"⟩
    [⟨⟨"integer"⟩, .i64 1⟩, ⟨⟨"integer"⟩, .i64 2⟩, ⟨⟨"integer"⟩, .i64 3⟩] .or) level) level

theorem level_blind (v : Value) : (level.get v).Blind fun _ _ => True := by
  simp only [level]
  split
  · split <;> exact ⟨fun _ => rfl, fun _ => rfl, fun _ => trivial⟩
  · exact ⟨fun _ => rfl, fun _ => rfl, fun _ => trivial⟩

theorem isTwo_aside : Test.Aside (fun _ _ => True) ⟨7⟩ isTwo :=
  ⟨fun _ _ _ _ => trivial, fun _ _ _ he => nomatch he⟩

/-- One value takes two calls, the condition stops at the second value and has made four, and a full
read makes six. -/
theorem levelsOfThree_lazily :
    let w := World.start 0
    let full := ((levelsOfThree.array ⟨7⟩).run w).2
    let single := ((levelsOfThree.single ⟨7⟩).run w).2
    let checked := ((levelsOfThree.check ⟨7⟩ isTwo false).run w).2
    w.CallsFirst single full ∧ w.CallsFirst checked full ∧
      single.calls.length = 2 ∧ checked.calls.length = 4 ∧ full.calls.length = 6 ∧
      checked.isRevoked ⟨7⟩ = true := by
  obtain ⟨hsingle, _, hcheck⟩ := lazy_reads levelsOfThree ⟨7⟩ (World.start 0)
  have huses : levelsOfThree.Uses (HostM.Blind fun _ _ => True) ⟨7⟩ :=
    .property (.property .literal level_blind) level_blind
  exact ⟨hsingle, hcheck _ _ false (fun _ => trivial) huses isTwo_aside, rfl, rfl, rfl, rfl⟩

end Node

end ScriptEngine

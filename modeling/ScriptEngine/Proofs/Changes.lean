import ScriptEngine.Expr.Change
import ScriptEngine.Proofs.Visits

/-! What a refused change leaves behind.

A change is checked at every node that it comes to: a list checks the delta against what
all its nodes accept, and then each of its nodes checks it again, when its siblings may
have been changed already. But what passes the first check passes all that follow
(`valid_of_passes`). So among the nodes of the engine only a changer of the host can fail
once a changer was called, and `change_refused` says that otherwise nothing is touched. -/
namespace ScriptEngine

/-! ### Checking a delta -/

namespace TypeRegistry
variable {σ : Type} {r : TypeRegistry σ} {mode : ChangeMode} {delta : Option (List Value)}

theorem validateDelta_ok {accepted : Option (List TypeKey)} {u : Unit} :
    r.validateDelta accepted delta mode = .ok u ↔ ∃ types, accepted = some types ∧
      if mode.takesDelta then delta.getD [] ≠ [] ∧ ∀ v ∈ delta.getD [], r.isOneOf types v = true
      else delta.getD [] = [] := by
  cases accepted with
  | none => simp [validateDelta]
  | some types =>
    simp only [validateDelta, Option.some.injEq, exists_eq_left']
    cases mode.takesDelta <;> by_cases hdelta : delta.getD [] = []
    · simp [hdelta]
    · simp [hdelta]
    · simp [hdelta]
    · cases hfind : (delta.getD []).find? fun v => !r.isOneOf types v with
      | none => simpa [hdelta] using hfind
      | some v =>
        have hv : r.isOneOf types v = false := by simpa using List.find?_some hfind
        have hsome : ∃ v ∈ delta.getD [], r.isOneOf types v = false :=
          ⟨v, List.mem_of_find?_eq_some hfind, hv⟩
        simpa [hdelta] using hsome

/-- What is accepted where fewer types are accepted is accepted where there are more. -/
theorem validateDelta_mono {fewer more : List TypeKey} (hsub : fewer ⊆ more)
    (h : r.validateDelta (some fewer) delta mode = .ok ()) :
    r.validateDelta (some more) delta mode = .ok () := by
  obtain ⟨_, ⟨⟩, hdelta⟩ := validateDelta_ok.mp h
  refine validateDelta_ok.mpr ⟨more, rfl, ?_⟩
  split
  case isTrue hmode =>
    rw [if_pos hmode] at hdelta
    refine ⟨hdelta.1, fun v hv => ?_⟩
    obtain ⟨t, ht, hassign⟩ := List.any_eq_true.mp (hdelta.2 v hv)
    exact List.any_eq_true.mpr ⟨t, hsub ht, hassign⟩
  case isFalse hmode =>
    rw [if_neg hmode] at hdelta
    exact hdelta

end TypeRegistry

namespace Node
variable {σ : Type} {r : TypeRegistry σ} {ctx : ContextId} {mode : ChangeMode}
  {delta : Option (List Value)} {n m : Node σ}

/-! ### What the nodes of a list accept -/

theorem mem_foldl_filter {first : List TypeKey} {rest : List (List TypeKey)} {t : TypeKey} :
    t ∈ rest.foldl (fun types mine => types.filter mine.contains) first ↔
      t ∈ first ∧ ∀ mine ∈ rest, t ∈ mine := by
  induction rest generalizing first with
  | nil => simp
  | cons mine rest ih =>
    rw [List.foldl_cons, ih, List.mem_filter, List.forall_mem_cons, List.contains_iff_mem,
      and_assoc]

theorem commonTypes_cons {first : List TypeKey} {rest : List (List TypeKey)}
    {types : List TypeKey} : commonTypes (first :: rest) = some types ↔
      rest.foldl (fun types mine => types.filter mine.contains) first = types ∧ types ≠ [] := by
  rw [commonTypes]
  cases rest.foldl (fun types mine => types.filter mine.contains) first with
  | nil => simp [eq_comm]
  | cons t others =>
    rw [List.isEmpty_cons, if_neg Bool.false_ne_true, Option.some.injEq]
    exact ⟨fun h => ⟨h, h ▸ List.cons_ne_nil t others⟩, And.left⟩

theorem commonTypes_subset {lists : List (List TypeKey)} {types : List TypeKey}
    (h : commonTypes lists = some types) : ∀ mine ∈ lists, types ⊆ mine := by
  cases lists with
  | nil => exact nomatch h
  | cons first rest =>
    intro mine hmine t ht
    rw [← (commonTypes_cons.mp h).1, mem_foldl_filter] at ht
    rcases List.mem_cons.mp hmine with rfl | hmine
    · exact ht.1
    · exact ht.2 mine hmine

theorem accepts_of_acceptsAll {children : List (Node σ)} {lists : List (List TypeKey)}
    (h : acceptsAll r mode children = some lists) :
    ∀ c ∈ children, ∃ mine ∈ lists, c.accepts r mode = some mine := by
  induction children generalizing lists with
  | nil => exact fun _ hc => absurd hc List.not_mem_nil
  | cons n rest ih =>
    rw [acceptsAll] at h
    cases hn : n.accepts r mode with
    | none =>
      rw [hn] at h
      cases h
    | some mine =>
      rw [hn] at h
      obtain ⟨others, hothers, rfl⟩ := Option.map_eq_some_iff.mp h
      intro c hc
      rcases List.mem_cons.mp hc with rfl | hc
      · exact ⟨mine, List.mem_cons_self .., hn⟩
      · obtain ⟨types, htypes, hc⟩ := ih hothers c hc
        exact ⟨types, List.mem_cons_of_mem _ htypes, hc⟩

/-! ### Checks that follow each other -/

/-- The check of a change at a node. -/
def validate (r : TypeRegistry σ) (delta : Option (List Value)) (mode : ChangeMode) (n : Node σ) :
    Outcome Unit := r.validateDelta (n.accepts r mode) delta mode

/-- A node passes changes on to another. -/
inductive Passes : Node σ → Node σ → Prop where
  | list {id type children q c} : c ∈ children → Passes (.list id type children q) c
  | converted {id source edge} : Passes (.converted id source edge) source
  | memoized {id inner} : Passes (.memoized id inner) inner

/-- What passes the check of a node passes the checks of all nodes that it comes to. -/
theorem valid_of_passes (h : n.validate r delta mode = .ok ())
    (hpasses : Relation.ReflTransGen Passes n m) : m.validate r delta mode = .ok () := by
  induction hpasses with
  | refl => exact h
  | tail _ hstep ih =>
    cases hstep with
    | @list _ _ children _ c hc =>
      obtain ⟨types, haccepts, _⟩ := TypeRegistry.validateDelta_ok.mp ih
      rw [accepts] at haccepts
      obtain ⟨lists, hlists, hcommon⟩ := Option.bind_eq_some_iff.mp haccepts
      obtain ⟨mine, hmine, hc⟩ := accepts_of_acceptsAll hlists _ hc
      rw [validate, accepts, hlists, Option.bind_some, hcommon] at ih
      rw [validate, hc]
      exact TypeRegistry.validateDelta_mono (commonTypes_subset hcommon mine hmine) ih
    | converted =>
      rw [validate, accepts] at ih
      exact ih
    | memoized =>
      rw [validate, accepts] at ih
      exact ih

/-! ### The nodes of the engine -/

/-- A tree has no nodes that the host computes. -/
inductive BuiltIn : Node σ → Prop where
  | literal {id type values q} : BuiltIn (.literal id type values q)
  | list {id type children q} : (∀ c ∈ children, BuiltIn c) → BuiltIn (.list id type children q)
  | converted {id source edge} : BuiltIn source → BuiltIn (.converted id source edge)
  | property {id owner p} : BuiltIn owner → BuiltIn (.property id owner p)
  | eventValue {id value} : BuiltIn (.eventValue id value)
  | snapshot {id taken} : BuiltIn (.snapshot id taken)
  | memoized {id inner} : BuiltIn inner → BuiltIn (.memoized id inner)

/-- A changer of the host was called and refused, and the refusal was added to the journal. -/
structure Refused (r : TypeRegistry σ) (delta : Option (List Value)) (mode : ChangeMode)
    (added : List Entry) (x : EngineError) : Prop where
  noted : .refusal ∈ added
  changer : ∃ key changer values s, r.changer? key = some changer ∧
    ((changer.change values delta mode).run s).value = .error x

theorem Refused.append_left {added : List Entry} {x : EngineError}
    (h : Refused r delta mode added x) (earlier : List Entry) :
    Refused r delta mode (earlier ++ added) x :=
  ⟨List.mem_append_right _ h.noted, h.changer⟩

/-- A changer fails by refusing. -/
theorem apply_refused {key : TypeKey} {changer : Changer σ} (hc : r.changer? key = some changer)
    (values : List Value) : (Eval.host (changer.apply values delta mode)).Adds fun added out =>
      ∀ x, out = .error x → Refused r delta mode added x := by
  refine .host fun s x hx => ?_
  simp only [Changer.apply, HostM.run_called, HostM.run_bind] at hx ⊢
  cases hout : ((changer.change values delta mode).run s).value with
  | ok u =>
    simp only [hout] at hx
    cases hx
  | error e =>
    simp only [hout] at hx ⊢
    cases hx
    exact ⟨List.mem_cons_of_mem _ (List.mem_append_right _ (List.mem_cons_self ..)),
      key, changer, values, s, hc, hout⟩

variable [HostCells σ]

/-! ### Changing -/

/-- Where a change goes to the changer that was asked what it accepts, only the changer can fail
once the check is passed. -/
theorem changeHere_adds (haccepts : n.accepts r mode = typeAccepts r mode n.type)
    (h : n.validate r delta mode = .ok ()) : (n.changeHere r ctx delta mode).Adds fun added out =>
      ∀ x, out = .error x → Refused r delta mode added x := by
  obtain ⟨types, htypes, _⟩ := TypeRegistry.validateDelta_ok.mp h
  rw [haccepts, typeAccepts] at htypes
  obtain ⟨changer, hchanger, _⟩ := Option.bind_eq_some_iff.mp htypes
  rw [validate] at h
  simp only [changeHere, h, hchanger]
  refine .bind (.of_ensures fun _ => .isRevoked ctx) fun _ revoked _ => ?_
  cases revoked with
  | true => exact .pure fun _ hx => nomatch hx
  | false =>
    refine .bind array_adds fun _ values _ => (apply_refused hchanger values).mono ?_
    exact fun added out hout x hx => ((hout x hx).append_left _).append_left _

theorem changeAll_adds {children : List (Node σ)}
    (h : ∀ c ∈ children, (c.change r ctx delta mode).Adds fun added out =>
      ∀ x, out = .error x → Refused r delta mode added x) :
    (changeAll r ctx delta mode children).Adds fun added out =>
      ∀ x, out = .error x → Refused r delta mode added x := by
  induction children with
  | nil =>
    rw [changeAll]
    exact .pure fun _ hx => nomatch hx
  | cons n rest ih =>
    rw [List.forall_mem_cons] at h
    rw [changeAll]
    refine .bind h.1 fun first out hout => ?_
    cases out with
    | error e => exact .pure fun x hx => by simpa using hout x hx
    | ok _ => exact (ih h.2).mono fun added out hrest x hx => (hrest x hx).append_left first

/-- **Past the check of a node, only the host can refuse.** -/
theorem change_adds (hn : n.BuiltIn) (h : n.validate r delta mode = .ok ()) :
    (n.change r ctx delta mode).Adds fun added out =>
      ∀ x, out = .error x → Refused r delta mode added x := by
  induction hn with
  | literal | property | eventValue =>
    unfold change
    exact changeHere_adds (by rw [accepts, type]) h
  | snapshot => exact nomatch h
  | @list id type children q _ ih =>
    have hall := changeAll_adds fun c hc => ih c hc (valid_of_passes h (.single (.list hc)))
    rw [validate] at h
    rw [change]
    simp only [h]
    exact hall
  | @converted _ source _ _ ih =>
    rw [change]
    exact ih (valid_of_passes h (.single .converted))
  | @memoized _ inner _ ih =>
    rw [change]
    refine .bind (ih (valid_of_passes h (.single .memoized))) fun first out hout => ?_
    cases out with
    | error e => exact .pure fun x hx => by simpa using hout x hx
    | ok _ =>
      refine .bind (.of_ensures fun earlier => .modify fun w hw => ?_) fun _ _ _ =>
        .pure fun _ hx => nomatch hx
      exact keeps_forget (fun _ _ hw => hw) ctx inner.id hw

/-- A node that does not pass its check is left alone, with all that is below it. -/
theorem change_of_invalid {x : EngineError} (h : n.validate r delta mode = .error x) (w : World σ) :
    (n.change r ctx delta mode).run w = (.error x, w) := by
  induction n with
  | literal | property | eventValue | snapshot | host =>
    rw [validate] at h
    unfold change
    simp only [changeHere, h]
    rfl
  | list =>
    rw [validate] at h
    rw [change]
    simp only [h]
    rfl
  | converted _ _ _ ih =>
    rw [validate, accepts] at h
    rw [change]
    exact ih h
  | memoized _ _ ih =>
    rw [validate, accepts] at h
    rw [change, StateT.run_bind, ih h]
    rfl

/-- **A refused change touches nothing.** What does not pass the check of a node is refused there,
before anything is changed; what passes it passes all checks that follow. So if a change fails and
no changer refused it, no changer was called, and the world is as it was. -/
theorem change_refused (hn : n.BuiltIn) (r : TypeRegistry σ) (ctx : ContextId)
    (delta : Option (List Value)) (mode : ChangeMode) (w : World σ) :
    (∀ x, n.validate r delta mode = .error x →
      (n.change r ctx delta mode).run w = (.error x, w)) ∧
    (n.validate r delta mode = .ok () → ∀ m, Relation.ReflTransGen Passes n m →
      m.validate r delta mode = .ok ()) ∧
    ∀ x w', (n.change r ctx delta mode).run w = (.error x, w') →
      ∃ added, w'.journal = w.journal ++ added ∧
        (n.validate r delta mode = .error x ∧ w' = w ∨ Refused r delta mode added x) ∧
        (.refusal ∉ added → w' = w ∧
          ∀ mode' values delta', .call (.change mode' values delta') ∉ added) := by
  refine ⟨fun x h => change_of_invalid h w, fun h m hm => valid_of_passes h hm, ?_⟩
  intro x w' hrun
  cases hvalid : n.validate r delta mode with
  | error e =>
    rw [change_of_invalid hvalid w] at hrun
    cases hrun
    refine ⟨[], (List.append_nil _).symm, .inl ⟨rfl, rfl⟩, fun _ => ⟨rfl, ?_⟩⟩
    exact fun _ _ _ => List.not_mem_nil
  | ok _ =>
    have hadds : (n.change r ctx delta mode).Adds fun added out =>
        ∀ x, out = .error x → Refused r delta mode added x := change_adds hn hvalid
    obtain ⟨added, hadded, hrefused⟩ := hadds w
    rw [hrun] at hadded hrefused
    have hhost : Refused r delta mode added x := hrefused x rfl
    exact ⟨added, hadded, .inr hhost, fun hnone => absurd hhost.noted hnone⟩

/-! An integer may be set to an integer or a text, and a text to a text only, but the host refuses
to. -/

/-- A host that counts what it was asked to change. -/
structure Tally where
  changes : Nat

instance : HostCells Tally := ⟨fun _ _ cell => cell⟩

def tallied (accepted : List TypeKey) (out : Outcome Unit) : Changer Tally where
  accepts mode := if mode = .set then some accepted else none
  change _ _ _ := do
    modify fun tally => ⟨tally.changes + 1⟩
    return out

def settable : TypeRegistry Tally :=
  { TypeRegistry.initial with
    types := [.object,
      { Descriptor.ofShape ⟨"integer"⟩ .i64 with
        changer := some (tallied [⟨"integer"⟩, ⟨"text"⟩] (.ok ())) },
      { Descriptor.ofShape ⟨"text"⟩ .i64 with
        changer := some (tallied [⟨"text"⟩] (.error (.unsupported (.told "fixed")))) }] }

def integerAndText : Node Tally :=
  .memoized ⟨[0]⟩ (ofChildren ⟨[1]⟩ [.literal ⟨[2]⟩ ⟨"integer"⟩ [⟨⟨"integer"⟩, .i64 1⟩] .and,
    .literal ⟨[3]⟩ ⟨"text"⟩ [⟨⟨"text"⟩, .i64 2⟩] .and] .and)

theorem integerAndText_builtIn : integerAndText.BuiltIn := by
  refine .memoized (.list fun c hc => ?_)
  rcases List.mem_pair.mp hc with rfl | rfl <;> exact .literal

/-- Set to an integer, nothing is changed, though the first node would have it. Set to a text, the
first node is changed before the host refuses to change the second. -/
theorem integerAndText_refused :
    (∃ x, (integerAndText.change settable ⟨4⟩ (some [⟨⟨"integer"⟩, .i64 3⟩]) .set).run
      (World.start ⟨0⟩) = (.error x, World.start ⟨0⟩)) ∧
    ∃ x w' added, (integerAndText.change settable ⟨4⟩ (some [⟨⟨"text"⟩, .i64 3⟩]) .set).run
      (World.start ⟨0⟩) = (.error x, w') ∧ w'.journal = added ∧ w'.host.changes = 2 ∧
        Refused settable (some [⟨⟨"text"⟩, .i64 3⟩]) .set added x := by
  have hinteger := change_refused integerAndText_builtIn settable ⟨4⟩
    (some [⟨⟨"integer"⟩, .i64 3⟩]) .set (World.start ⟨0⟩)
  have htext := change_refused integerAndText_builtIn settable ⟨4⟩
    (some [⟨⟨"text"⟩, .i64 3⟩]) .set (World.start ⟨0⟩)
  refine ⟨⟨_, hinteger.1 _ rfl⟩, ?_⟩
  obtain ⟨x, w', hrun, hchanges⟩ : ∃ x w',
      (integerAndText.change settable ⟨4⟩ (some [⟨⟨"text"⟩, .i64 3⟩]) .set).run
        (World.start ⟨0⟩) = (.error x, w') ∧ w'.host.changes = 2 := ⟨_, _, rfl, rfl⟩
  obtain ⟨added, hadded, hrefused, _⟩ := htext.2.2 x w' hrun
  refine ⟨x, w', added, hrun, hadded, hchanges, hrefused.resolve_left ?_⟩
  rintro ⟨_, rfl⟩
  exact nomatch hchanges

end Node

end ScriptEngine

import ScriptEngine.Proofs.Changes

/-! What a list can be changed with.

A list accepts the types that all its nodes accept, by name (`acceptsType_list`), down to the nodes
that a change ends at (`acceptsType_iff_ends`). But a value may be changed with if its type is
assignable to an accepted one, and for one node this may be another type than for the next. So what
passes the check of a list passes that of each of its nodes, but not the other way round: a list
refuses what all its nodes accept exactly if they accept no type in common that the values are
assignable to (`list_checked`). -/
namespace ScriptEngine.Node
variable {σ : Type} {r : TypeRegistry σ} {mode : ChangeMode} {delta : Option (List Value)}
  {n m : Node σ} {t : TypeKey} {id : NodeId} {type : TypeKey} {children : List (Node σ)}
  {q : Quantifier}

/-! ### The types that are accepted -/

/-- A type is among those that a node accepts. -/
def AcceptsType (r : TypeRegistry σ) (mode : ChangeMode) (n : Node σ) (t : TypeKey) : Prop :=
  ∃ types, n.accepts r mode = some types ∧ t ∈ types

theorem mem_commonTypes {lists : List (List TypeKey)} :
    (∃ types, commonTypes lists = some types ∧ t ∈ types) ↔
      lists ≠ [] ∧ ∀ mine ∈ lists, t ∈ mine := by
  cases lists with
  | nil => simp [commonTypes]
  | cons first rest =>
    simp only [commonTypes_cons, and_assoc, exists_eq_left', List.forall_mem_cons,
      ← mem_foldl_filter]
    exact and_congr_left fun ht => ⟨fun _ => List.cons_ne_nil _ _, fun _ => List.ne_nil_of_mem ht⟩

theorem mem_acceptsAll (children : List (Node σ)) :
    (∃ lists, acceptsAll r mode children = some lists ∧ ∀ mine ∈ lists, t ∈ mine) ↔
      ∀ c ∈ children, c.AcceptsType r mode t := by
  induction children with
  | nil => simp [acceptsAll]
  | cons n rest ih =>
    rw [acceptsAll, List.forall_mem_cons, ← ih]
    unfold AcceptsType
    cases n.accepts r mode with
    | none => simp
    | some types =>
      simp only [Option.map_eq_some_iff, Option.some.injEq, exists_eq_left']
      constructor
      · rintro ⟨_, ⟨lists, hlists, rfl⟩, hall⟩
        rw [List.forall_mem_cons] at hall
        exact ⟨hall.1, lists, hlists, hall.2⟩
      · rintro ⟨hfirst, lists, hlists, hall⟩
        exact ⟨_, ⟨lists, hlists, rfl⟩, List.forall_mem_cons.mpr ⟨hfirst, hall⟩⟩

/-- A list accepts the types that all its nodes accept. -/
theorem acceptsType_list (hsome : children ≠ []) :
    (Node.list id type children q).AcceptsType r mode t ↔
      ∀ c ∈ children, c.AcceptsType r mode t := by
  -- Every node has a list of its own, and there is a node.
  have hlists : ∀ lists, acceptsAll r mode children = some lists → lists ≠ [] := by
    rintro lists h rfl
    obtain ⟨c, hc⟩ := List.exists_mem_of_ne_nil children hsome
    obtain ⟨mine, hmine, _⟩ := accepts_of_acceptsAll h c hc
    exact absurd hmine List.not_mem_nil
  rw [← mem_acceptsAll, AcceptsType, accepts]
  constructor
  · rintro ⟨types, htypes, ht⟩
    obtain ⟨lists, hall, hcommon⟩ := Option.bind_eq_some_iff.mp htypes
    exact ⟨lists, hall, (mem_commonTypes.mp ⟨types, hcommon, ht⟩).2⟩
  · rintro ⟨lists, hall, ht⟩
    obtain ⟨types, hcommon, ht⟩ := mem_commonTypes.mpr ⟨hlists lists hall, ht⟩
    exact ⟨types, Option.bind_eq_some_iff.mpr ⟨lists, hall, hcommon⟩, ht⟩

/-! ### Where a change ends -/

/-- A node that passes changes on to no other one. -/
def IsEnd (n : Node σ) : Prop := ∀ m, ¬ n.Passes m

/-- Something holds wherever a change of a node ends. -/
def AtEnds (n : Node σ) (P : Node σ → Prop) : Prop :=
  ∀ m, Relation.ReflTransGen Passes n m → m.IsEnd → P m

theorem IsEnd.atEnds {P : Node σ → Prop} (hn : n.IsEnd) : n.AtEnds P ↔ P n := by
  refine ⟨fun h => h n .refl hn, fun h m hm _ => ?_⟩
  rcases hm.cases_head with rfl | ⟨c, hc, _⟩
  · exact h
  · exact absurd hc (hn c)

theorem Passes.atEnds {P : Node σ → Prop} (hn : n.Passes m) :
    n.AtEnds P ↔ ∀ c, n.Passes c → c.AtEnds P := by
  constructor
  · exact fun h c hc m hm hend => h m (hm.head hc) hend
  · intro h k hk hend
    rcases hk.cases_head with rfl | ⟨c, hc, hk⟩
    · exact absurd hn (hend m)
    · exact h c hc k hk hend

theorem isEnd_nil : (Node.list id type [] q : Node σ).IsEnd := fun _ hm => by
  cases hm with
  | list hc => exact absurd hc List.not_mem_nil

theorem passes_list : (Node.list id type children q).Passes m ↔ m ∈ children :=
  ⟨fun h => by cases h with | list hc => exact hc, .list⟩

/-- A node accepts the types that are accepted wherever a change of the node ends. -/
theorem acceptsType_iff_ends (n : Node σ) :
    n.AcceptsType r mode t ↔ n.AtEnds fun m => m.AcceptsType r mode t := by
  have hends : ∀ {n : Node σ}, n.IsEnd →
      (n.AcceptsType r mode t ↔ n.AtEnds fun m => m.AcceptsType r mode t) :=
    fun h => by rw [h.atEnds]
  induction n with
  | literal | property | eventValue | snapshot | host =>
    refine hends ?_
    rintro _ ⟨⟩
  | list _ _ children _ ih =>
    cases children with
    | nil => exact hends isEnd_nil
    | cons first rest =>
      rw [acceptsType_list (List.cons_ne_nil _ _), Passes.atEnds (.list List.mem_cons_self)]
      simp only [passes_list]
      exact forall₂_congr ih
  | converted _ source _ ih =>
    rw [Passes.atEnds .converted]
    exact ih.trans ⟨fun h c hc => by cases hc; exact h, fun h => h _ .converted⟩
  | memoized _ inner ih =>
    rw [Passes.atEnds .memoized]
    exact ih.trans ⟨fun h c hc => by cases hc; exact h, fun h => h _ .memoized⟩

/-! ### The check of a list -/

/-- A value of a delta is of a type that a node accepts, or that is assignable to one. -/
def AcceptsValue (r : TypeRegistry σ) (mode : ChangeMode) (n : Node σ) (v : Value) : Prop :=
  ∃ t, n.AcceptsType r mode t ∧ r.isAssignable v.type t = true

/-- A change passes the check of a node if the node supports the mode and accepts all values, where
the mode takes values. -/
theorem validate_ok_iff : n.validate r delta mode = .ok () ↔
    (∃ types, n.accepts r mode = some types) ∧
      if mode.takesDelta then delta.getD [] ≠ [] ∧ ∀ v ∈ delta.getD [], n.AcceptsValue r mode v
      else delta.getD [] = [] := by
  rw [validate, TypeRegistry.validateDelta_ok]
  cases haccepts : n.accepts r mode with
  | none => simp
  | some types =>
    have hvalue : ∀ v, r.isOneOf types v = true ↔ n.AcceptsValue r mode v := by
      intro v
      simp [TypeRegistry.isOneOf, AcceptsValue, AcceptsType, haccepts]
    simp [hvalue]

/-- A list supports a mode exactly if its nodes accept a type in common. -/
theorem list_supports : (∃ types, (Node.list id type children q).accepts r mode = some types) ↔
    ∃ t, (Node.list id type children q).AcceptsType r mode t := by
  constructor
  · rintro ⟨types, htypes⟩
    have hall := htypes
    rw [accepts] at hall
    obtain ⟨lists, _, hcommon⟩ := Option.bind_eq_some_iff.mp hall
    cases lists with
    | nil => cases hcommon
    | cons first rest =>
      obtain ⟨t, ht⟩ := List.exists_mem_of_ne_nil types (commonTypes_cons.mp hcommon).2
      exact ⟨t, types, htypes, ht⟩
  · rintro ⟨_, types, htypes, _⟩
    exact ⟨types, htypes⟩

/-- What the check of a list comes to, next to the checks of its nodes. -/
structure ListChecked (r : TypeRegistry σ) (delta : Option (List Value)) (mode : ChangeMode)
    (children : List (Node σ)) (n : Node σ) : Prop where
  /-- What passes the check of the list passes that of every node that the change comes to. -/
  passed : n.validate r delta mode = .ok () → ∀ m, Relation.ReflTransGen Passes n m →
    m.validate r delta mode = .ok ()
  /-- What passes the checks of its nodes passes that of the list exactly if the nodes accept a
  type in common, and each value, where there are some, is assignable to one. -/
  valid : n.validate r delta mode = .ok () ↔
    (∀ c ∈ children, c.validate r delta mode = .ok ()) ∧ (∃ t, n.AcceptsType r mode t) ∧
      (mode.takesDelta = true → ∀ v ∈ delta.getD [], n.AcceptsValue r mode v)
  /-- The types that they accept in common are those that are accepted wherever the change ends. -/
  common : ∀ t, (n.AcceptsType r mode t ↔ ∀ c ∈ children, c.AcceptsType r mode t) ∧
    (n.AcceptsType r mode t ↔ n.AtEnds fun m => m.AcceptsType r mode t)
  /-- If all nodes accept the same types, at least one, the list refuses no more than they do. -/
  same : (∀ c ∈ children, ∀ c' ∈ children, ∀ t, c.AcceptsType r mode t → c'.AcceptsType r mode t) →
    (∀ c ∈ children, ∃ t, c.AcceptsType r mode t) →
      (n.validate r delta mode = .ok () ↔ ∀ c ∈ children, c.validate r delta mode = .ok ())

theorem list_valid_iff (hsome : children ≠ []) :
    (Node.list id type children q).validate r delta mode = .ok () ↔
      (∀ c ∈ children, c.validate r delta mode = .ok ()) ∧
      (∃ t, (Node.list id type children q).AcceptsType r mode t) ∧
      (mode.takesDelta = true → ∀ v ∈ delta.getD [],
        (Node.list id type children q).AcceptsValue r mode v) := by
  obtain ⟨c, hc⟩ := List.exists_mem_of_ne_nil children hsome
  constructor
  · intro h
    obtain ⟨hsupports, hvalues⟩ := validate_ok_iff.mp h
    refine ⟨fun c hc => valid_of_passes h (.single (.list hc)), list_supports.mp hsupports,
      fun hmode => ?_⟩
    rw [if_pos hmode] at hvalues
    exact hvalues.2
  · rintro ⟨hall, hcommon, hvalues⟩
    refine validate_ok_iff.mpr ⟨list_supports.mpr hcommon, ?_⟩
    have hdelta := (validate_ok_iff.mp (hall c hc)).2
    split
    case isTrue hmode =>
      rw [if_pos hmode] at hdelta
      exact ⟨hdelta.1, hvalues hmode⟩
    case isFalse hmode =>
      rw [if_neg hmode] at hdelta
      exact hdelta

/-- **A list accepts what its nodes accept in common.** It admits no change that one of its nodes
would refuse, and refuses a change that all of them would accept exactly if there is no type that
all accept, or a value is assignable to none of these types. -/
theorem list_checked (r : TypeRegistry σ) (delta : Option (List Value)) (mode : ChangeMode)
    (id : NodeId) (type : TypeKey) (q : Quantifier) (hsome : children ≠ []) :
    ListChecked r delta mode children (.list id type children q) where
  passed h m hm := valid_of_passes h hm
  valid := list_valid_iff hsome
  common t := ⟨acceptsType_list hsome, acceptsType_iff_ends _⟩
  same hsame htypes := by
    obtain ⟨c, hc⟩ := List.exists_mem_of_ne_nil children hsome
    have hcommon : ∀ t, c.AcceptsType r mode t →
        (Node.list id type children q).AcceptsType r mode t :=
      fun t ht => (acceptsType_list hsome).mpr fun c' hc' => hsame c hc c' hc' t ht
    refine ⟨fun h => ((list_valid_iff hsome).mp h).1, fun h => (list_valid_iff hsome).mpr ?_⟩
    obtain ⟨t, ht⟩ := htypes c hc
    refine ⟨h, ⟨t, hcommon t ht⟩, fun hmode v hv => ?_⟩
    have hdelta := (validate_ok_iff.mp (h c hc)).2
    rw [if_pos hmode] at hdelta
    obtain ⟨t, ht, hassign⟩ := hdelta.2 v hv
    exact ⟨t, hcommon t ht, hassign⟩

/-! A name may be set to an entity, and a rank to a player, who is an entity. -/

def entityType : Descriptor Tally := .ofShape ⟨"entity"⟩ .i64

def playerType : Descriptor Tally :=
  { Descriptor.ofShape ⟨"player"⟩ .i64 with supertypes := [⟨"entity"⟩] }

/-- A type whose values may be set to values of another. -/
def settableTo (accepted : String) (name : String) : Descriptor Tally :=
  { Descriptor.ofShape ⟨name⟩ .i64 with changer := some (tallied [⟨accepted⟩] (.ok ())) }

def titled : TypeRegistry Tally :=
  { TypeRegistry.initial with
    types := [.object, entityType, playerType, settableTo "entity" "name",
      settableTo "player" "rank"] }

theorem titled_reachable : titled.Reachable :=
  TypeRegistry.Reachable.initial
    |>.step (.type (d := entityType) rfl)
    |>.step (.type (d := playerType) rfl)
    |>.step (.type (d := settableTo "entity" "name") rfl)
    |>.step (.type (d := settableTo "player" "rank") rfl)

def constant (name : String) : Node Tally := .literal ⟨[2]⟩ ⟨name⟩ [⟨⟨name⟩, .i64 1⟩] .and

def aPlayer : Option (List Value) := some [⟨⟨"player"⟩, .i64 3⟩]

/-- A name, and the same name, kept. -/
def twoNames : List (Node Tally) := [constant "name", .memoized ⟨[3]⟩ (constant "name")]

/-- They can be set to a player together. -/
theorem names_accept :
    (Node.list ⟨[1]⟩ ⟨"name"⟩ twoNames .and).validate titled aPlayer .set = .ok () := by
  have haccepts : ∀ c ∈ twoNames, c.accepts titled .set = some [⟨"entity"⟩] := by
    intro c hc
    rcases List.mem_pair.mp hc with rfl | rfl <;> rfl
  have hchecked := list_checked titled aPlayer .set ⟨[1]⟩ ⟨"name"⟩ .and
    (List.cons_ne_nil _ _ : twoNames ≠ [])
  refine (hchecked.same (fun c hc c' hc' t ht => ?_) fun c hc => ?_).mpr fun c hc => ?_
  · rwa [AcceptsType, haccepts c' hc', ← haccepts c hc]
  · exact ⟨_, _, haccepts c hc, List.mem_singleton_self _⟩
  · rw [validate, haccepts c hc]
    rfl

/-- A name and a rank can each be set to a player, but not together. -/
theorem nameAndRank_refuse : titled.Reachable ∧
    (∀ c ∈ [constant "name", constant "rank"], c.validate titled aPlayer .set = .ok ()) ∧
    (ofChildren ⟨[1]⟩ [constant "name", constant "rank"] .and).validate titled aPlayer .set =
      .error (.unsupported (.modeUnsupported .set)) := by
  refine ⟨titled_reachable, fun c hc => ?_, rfl⟩
  rcases List.mem_pair.mp hc with rfl | rfl <;> rfl

end ScriptEngine.Node

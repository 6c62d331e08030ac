import ScriptEngine.Proofs.Given

/-! The ways to the values of a node agree.

A node can be asked for all of its values, for the first ones, computed as they are wanted, or for
one. If the host only looks, any number of such accesses, in any order, come to parts of one list,
which is what the node gave to begin with (`accesses_agree`). A single node gives one value at
most, as long as its cache holds no more for the single nodes below; and reading keeps the cache so
(`Cached.orderly`). -/
namespace ScriptEngine.Node
variable {σ : Type} {n root : Node σ} {ctx : ContextId}

/-! ### Single nodes -/

/-- A tree of the engine's own nodes. What was taken down of a single node is one value at most. -/
inductive Genuine : Node σ → Prop where
  | literal {id type values q} : Genuine (.literal id type values q)
  | list {id type children q} : (∀ c ∈ children, Genuine c) → Genuine (.list id type children q)
  | converted {id source edge} : Genuine source → Genuine (.converted id source edge)
  | property {id owner p} : Genuine owner → Genuine (.property id owner p)
  | eventValue {id value} : Genuine (.eventValue id value)
  | snapshot {id taken} : (taken.single = true → taken.values.length ≤ 1) →
      Genuine (.snapshot id taken)
  | memoized {id inner} : Genuine inner → Genuine (.memoized id inner)

theorem Genuine.kept {k : Node σ} (hn : n.Genuine) (hk : n.Keeps k) : k.Genuine := by
  induction hk with
  | here =>
    cases hn with
    | memoized hinner => exact hinner
  | list hc _ ih =>
    cases hn with
    | list hchildren => exact ih (hchildren _ hc)
  | converted _ ih =>
    cases hn with
    | converted hsource => exact ih hsource
  | property _ ih =>
    cases hn with
    | property howner => exact ih howner
  | memoized _ ih =>
    cases hn with
    | memoized hinner => exact ih hinner

/-- For single nodes that a root keeps, whatever they are bound to, the cache holds one value at
most. -/
def Orderly (root : Node σ) (ctx : ContextId) (w : World σ) : Prop :=
  ∀ k, root.Keeps k → k.isSingle = true → ∀ t values, w.kept? ctx (k.id, t) = some values →
    values.length ≤ 1

/-- A single node gives one value at most. -/
theorem gives_length {w : World σ} (hn : n.Genuine) (hroot : ∀ k, n.Keeps k → root.Keeps k)
    (h : Orderly root ctx w) (hsingle : n.isSingle = true) : (n.gives w ctx).length ≤ 1 := by
  induction hn with
  | literal =>
    rw [gives]
    exact (beq_iff_eq.mp hsingle).le
  | @list _ _ children _ _ ih =>
    rw [gives]
    rcases children with _ | ⟨c, _ | _⟩
    · cases hsingle
    · rw [givesAll, givesAll, List.append_nil]
      exact ih c List.mem_cons_self (fun k hk => hroot k (.list List.mem_cons_self hk)) hsingle
    · cases hsingle
  | converted _ ih =>
    rw [gives]
    exact (List.length_filterMap_le ..).trans (ih (fun k hk => hroot k (.converted hk)) hsingle)
  | property _ ih =>
    rw [gives]
    exact (List.length_filterMap_le ..).trans (ih (fun k hk => hroot k (.property hk)) hsingle)
  | @eventValue id value =>
    rw [gives]
    split
    · exact Nat.zero_le 1
    · split
      · exact Nat.zero_le 1
      · exact Option.length_toList_le
  | snapshot htaken =>
    rw [gives]
    exact htaken hsingle
  | @memoized _ inner _ ih =>
    rw [gives]
    cases hkept : w.kept? ctx (inner.id, inner.time w.bindings) with
    | none => exact ih (fun k hk => hroot k (.memoized hk)) hsingle
    | some values => exact h inner (hroot inner .here) hsingle _ values hkept

/-- Reading leaves the cache orderly. -/
theorem Grown.orderly {earlier w : World σ} (h : Grown root ctx earlier w) (hnamed : root.Named)
    (hgenuine : root.Genuine) (horderly : Orderly root ctx earlier) : Orderly root ctx w := by
  intro k hk hsingle t values hvalues
  rcases h.kept_cases hnamed hk (t := t) with hold | ⟨_, _, hnew⟩
  · exact horderly k hk hsingle t values (hold.symm.trans hvalues)
  · obtain rfl := Option.some.inj (hvalues.symm.trans hnew)
    exact gives_length (hgenuine.kept hk) (fun k' hk' => hk.trans hk') horderly hsingle

/-! ### Accesses in any order -/

/-- A way to the values of a node. -/
inductive Access where
  | array
  /-- All values, however the node is read under a condition. -/
  | all
  /-- The first values, each computed when it is wanted. -/
  | iterate (count : Nat)
  | single

/-- What a node is asked for. -/
def Access.values (ctx : ContextId) (n : Node σ) : Access → Eval σ (List Value)
  | .array => n.array ctx
  | .all => n.array ctx
  | .iterate count => n.take ctx count
  | .single => do return (← n.single ctx).toList

/-- The world after a node was accessed, time after time. -/
def accessed (ctx : ContextId) (n : Node σ) (script : List Access) (w : World σ) : World σ :=
  script.foldl (fun w a => ((a.values ctx n).run w).2) w

/-- The cache of an event holds for the nodes that a root keeps only what came of reading: trees
that keep nothing else were read, by a host that only looks. The event may have been revoked, nodes
bound to other states, the host's state changed and what was held dropped in between. -/
inductive Cached (root : Node σ) (ctx : ContextId) : World σ → Prop where
  | unread {w} : (∀ k, root.Keeps k → ∀ t, w.kept? ctx (k.id, t) = none) → Cached root ctx w
  | read {w n} (a : Access) : n.Looks → (∀ k, n.Keeps k → root.Keeps k) → Cached root ctx w →
      Cached root ctx ((a.values ctx n).run w).2
  | later {w w'} : Cached root ctx w → (∀ k, root.Keeps k → ∀ t values,
      w'.kept? ctx (k.id, t) = some values → w.kept? ctx (k.id, t) = some values) →
      Cached root ctx w'

/-- The ways to the values of a node agree on some values. -/
structure AccessesAgree (ctx : ContextId) (n : Node σ) (w : World σ) (values : List Value) :
    Prop where
  array : ((n.array ctx).run w).1 = values
  all : ((Access.all.values ctx n).run w).1 = values
  iterate : ∀ count, ((n.take ctx count).run w).1 = values.take count
  collected : ∀ count, values.length ≤ count → ((n.take ctx count).run w).1 = values
  single : ((n.single ctx).run w).1 = values.head?
  none : ((n.single ctx).run w).1 = none ↔ ((n.array ctx).run w).1 = []
  one : n.isSingle = true → values.length ≤ 1

section Accesses
variable {earlier w : World σ} (hnamed : root.Named)
include hnamed

theorem Access.grown (a : Access) (hlooks : n.Looks) (hroot : ∀ k, n.Keeps k → root.Keeps k)
    (h : Grown root ctx earlier w) : Grown root ctx earlier ((a.values ctx n).run w).2 := by
  cases a with
  | array | all => exact (array_gives hnamed hlooks hroot w h).2
  | iterate count => exact (take_gives hnamed count hlooks hroot w h).2
  | single => exact (single_gives hnamed hlooks hroot w h).2

theorem Cached.orderly (h : Cached root ctx w) (hgenuine : root.Genuine) :
    Orderly root ctx w := by
  induction h with
  | unread hnone =>
    intro k hk _ t values hvalues
    cases (hnone k hk t).symm.trans hvalues
  | read a hlooks hroot _ ih => exact (a.grown hnamed hlooks hroot .refl).orderly hnamed hgenuine ih
  | later _ hheld ih =>
    intro k hk hsingle t values hvalues
    exact ih k hk hsingle t values (hheld k hk t values hvalues)

end Accesses

/-- Whatever was asked of a node, its cache has grown by what the node gave. -/
theorem accessed_grown {w : World σ} (hlooks : n.Looks) (hnamed : n.Named)
    (script : List Access) : Grown n ctx w (n.accessed ctx script w) := by
  suffices ∀ now, Grown n ctx w now → Grown n ctx w (n.accessed ctx script now) from this w .refl
  induction script with
  | nil => exact fun now hnow => hnow
  | cons a rest ih => exact fun now hnow => ih _ (a.grown hnamed hlooks (fun _ hk => hk) hnow)

theorem takeDown_genuine [HostCells σ] {w : World σ} (hgenuine : n.Genuine) (hlooks : n.Looks)
    (hnamed : n.Named) (hcached : n.Cached ctx w) (id : NodeId) :
    ((n.takeDown ctx id).run w).1.Genuine := by
  have hroot : ∀ k, n.Keeps k → n.Keeps k := fun _ hk => hk
  have hvalues : ((n.array ctx).run w).1 = n.gives w ctx :=
    (array_gives hnamed hlooks hroot w .refl).1
  refine .snapshot fun hsingle => ?_
  refine (congrArg List.length hvalues).trans_le ?_
  exact gives_length hgenuine hroot (hcached.orderly hnamed hgenuine) hsingle

/-- **The ways to the values of a node agree**, on what the node gave to begin with, however often
it was accessed since. -/
theorem accesses_agree {w : World σ} (hgenuine : n.Genuine) (hlooks : n.Looks) (hnamed : n.Named)
    (hcached : n.Cached ctx w) (script : List Access) :
    AccessesAgree ctx n (n.accessed ctx script w) (n.gives w ctx) := by
  have hroot : ∀ k, n.Keeps k → n.Keeps k := fun _ hk => hk
  have hnow : Grown n ctx w (n.accessed ctx script w) := accessed_grown hlooks hnamed script
  have harray := (array_gives hnamed hlooks hroot _ hnow).1
  have hsingle := (single_gives hnamed hlooks hroot _ hnow).1
  have htake := fun count => (take_gives hnamed count hlooks hroot _ hnow).1
  exact
    { array := harray
      all := harray
      iterate := htake
      collected := fun count hcount => (htake count).trans (List.take_of_length_le hcount)
      single := hsingle
      none := by rw [hsingle, harray, List.head?_eq_none_iff]
      one := gives_length hgenuine hroot (hcached.orderly hnamed hgenuine) }

/-! The level of something is kept, and the node that keeps it stands alone in a list. -/

def keptLevel : Node Gauge :=
  ofChildren ⟨[1]⟩ [.memoized ⟨[2]⟩ (.eventValue ⟨[3]⟩ levelValue)] .and

/-- One value of the list was asked for, and then the event was revoked. -/
def askedAndRevoked : World Gauge :=
  let asked := keptLevel.accessed ⟨0⟩ [.single] lowered
  { asked with journal := asked.journal ++ [.revoke ⟨0⟩] }

theorem levelValue_looks : ∀ t get, levelValue.getter? t = some get → ∀ ctx, (get ctx).Looks := by
  cases levelAndTen_looks with
  | list hchildren =>
    cases hchildren _ List.mem_cons_self with
    | eventValue hget => exact hget

theorem keptLevel_looks : keptLevel.Looks :=
  .list fun c hc => by
    obtain rfl := List.mem_singleton.mp hc
    exact .memoized (.eventValue levelValue_looks)

theorem keptLevel_genuine : keptLevel.Genuine :=
  .list fun c hc => by
    obtain rfl := List.mem_singleton.mp hc
    exact .memoized .eventValue

theorem keptLevel_named : keptLevel.Named := by
  have hown : ∀ k, keptLevel.Keeps k → k = .eventValue ⟨[3]⟩ levelValue := by
    intro k hk
    cases hk with
    | list hc hk =>
      obtain rfl := List.mem_singleton.mp hc
      cases hk with
      | here => rfl
      | memoized hk => cases hk
  intro k k' hk hk' _
  rw [hown k hk, hown k' hk']

theorem askedAndRevoked_cached : keptLevel.Cached ⟨0⟩ askedAndRevoked := by
  have hunread : keptLevel.Cached ⟨0⟩ lowered := .unread fun _ _ _ => rfl
  have hread := hunread.read .single keptLevel_looks fun _ hk => hk
  exact hread.later fun _ _ _ _ hvalues => hvalues

/-- A revoked event has no level, but the one that is kept is given, whichever way. -/
theorem keptLevel_accesses :
    AccessesAgree ⟨0⟩ keptLevel (keptLevel.accessed ⟨0⟩ [.iterate 1, .all] askedAndRevoked)
      (keptLevel.gives askedAndRevoked ⟨0⟩) ∧
    askedAndRevoked.isRevoked ⟨0⟩ = true ∧ keptLevel.isSingle = true ∧
    numbers (keptLevel.gives askedAndRevoked ⟨0⟩) = [2] :=
  ⟨accesses_agree keptLevel_genuine keptLevel_looks keptLevel_named askedAndRevoked_cached _,
    by decide, rfl, by decide⟩

end ScriptEngine.Node

import ScriptEngine.Proofs.Conversions
import ScriptEngine.Proofs.Runs
import ScriptEngine.Types.Compare

/-! The shapes of payloads.

A registered function works on payloads of one shape, and what it is handed is checked
again when it is called. A registry is `Checked` if it grew by the registrations that
compare the shapes of functions and types. There, as long as no converter leaves the
universal type and no comparator is about it, the second check never fails: a conversion
fits the values that it is applied to, at every hop, and fails only where a function of
the host gives nothing (`Carries`); a comparator always sees the payloads that it relates.
`Checked.shapeSafe` collects this for everything that converts or compares. -/
namespace ScriptEngine

/-! ### Fitting -/

namespace Conversion
variable {σ : Type}

/-- At no hop of a conversion is a payload of another shape handed over. A function on whole values
takes every payload. -/
def Fits : Conversion σ → Value → Prop
  | .typed _ _ input _ _, v => ∃ x, v.as? input = some x
  | .erased .., _ => True
  | .seq first second, v =>
    first.Fits v ∧ (first.apply v).Yields fun out => ∀ between ∈ out, second.Fits between

end Conversion

/-- A comparator finds the payloads that it relates in two values, and says how they relate. -/
def Comparator.Finds {σ : Type} (c : Comparator σ) (a b : Value) (s : σ) (found : Relation) :
    Prop :=
  ∃ x y, a.as? c.leftShape = some x ∧ b.as? c.rightShape = some y ∧
    ((c.relate x y).run s).value = found

theorem Descriptor.acceptsPayload_iff {σ : Type} {d : Descriptor σ} {v : Value} :
    d.acceptsPayload v = true ↔ ∀ shape, d.native = some shape → v.payload.shape = shape := by
  unfold acceptsPayload
  cases d.native <;> simp

/-- A value has the data of its payload's shape. -/
theorem Value.exists_as? {v : Value} {shape : Shape} (h : v.payload.shape = shape) :
    ∃ x, v.as? shape = some x := by
  subst h
  exact v.payload.exists_as?_shape

namespace TypeRegistry
variable {σ : Type} {r r' : TypeRegistry σ} {a b k p : TypeKey} {shape : Shape} {v : Value}

/-- A value is of a registered type, whose native shape its payload has. -/
def Holds (r : TypeRegistry σ) (v : Value) : Prop :=
  ∃ d, r.descriptor? v.type = some d ∧ d.acceptsPayload v = true

def HasShape (r : TypeRegistry σ) (k : TypeKey) (shape : Shape) : Prop :=
  ∃ d, r.descriptor? k = some d ∧ d.native = some shape

/-- A conversion gives nothing for a value because a registered function of the host was asked for
its payload and gave nothing. -/
inductive Declines (r : TypeRegistry σ) : Conversion σ → Value → σ → Prop where
  | asked {source target input output convert v x s} :
      Edge.typed source target input output convert ∈ r.registered → v.as? input = some x →
      ((convert x).run s).value = none →
      Declines r (.typed source target input output convert) v s
  | first {first second v s} : Declines r first v s → Declines r (.seq first second) v s
  | second {first second v between s} : ((first.apply v).run s).value = some between →
      Declines r second between ((first.apply v).run s).state →
      Declines r (.seq first second) v s

/-- A value is not converted: there is no edge, or a function of the host gave nothing. -/
def Unconverted (r : TypeRegistry σ) (v : Value) (target : TypeKey) (s : σ) : Prop :=
  ∀ e, r.edge? v.type target = some e → r.Declines e.conversion v s

/-- Why the left value was not compared after it was converted to the right one's type. -/
inductive UndecidedAsRight (r : TypeRegistry σ) (a b : Value) (s : σ) : Prop where
  | unconverted : r.Unconverted a b.type s → UndecidedAsRight r a b s
  | uncompared : r.comparatorFor? b.type b.type = none → UndecidedAsRight r a b s
  | asked {c a'} : ((r.convertBy a b.type).run s).value = some a' →
      r.comparatorFor? b.type b.type = some c →
      c.Finds a' b ((r.convertBy a b.type).run s).state .unknown → UndecidedAsRight r a b s

/-- Why it is not known how two values relate: the comparator that was asked says so, or none is to
be asked for values as they are, and none could be asked for converted ones. -/
inductive Undecided (r : TypeRegistry σ) (a b : Value) (s : σ) : Prop where
  | asked {c} : r.comparatorFor? a.type b.type = some c → c.Finds a b s .unknown →
      Undecided r a b s
  | askedReverse {c} : r.comparatorFor? a.type b.type = none →
      r.comparatorFor? b.type a.type = some c → c.Finds b a s .unknown → Undecided r a b s
  | askedAsLeft {c b'} : r.comparatorFor? a.type b.type = none →
      r.comparatorFor? b.type a.type = none →
      ((r.convertBy b a.type).run s).value = some b' → r.comparatorFor? a.type a.type = some c →
      c.Finds a b' ((r.convertBy b a.type).run s).state .unknown → Undecided r a b s
  | asRight : r.comparatorFor? a.type b.type = none → r.comparatorFor? b.type a.type = none →
      r.Unconverted b a.type s ∨ r.comparatorFor? a.type a.type = none →
      UndecidedAsRight r a b ((r.convertBy b a.type).run s).state → Undecided r a b s

/-! ### Checked registries -/

/-- What a host can get without registering edges as they are. A descriptor without a native shape
can only be made for the universal type. -/
inductive Checked : TypeRegistry σ → Prop where
  | initial : Checked .initial
  | type {r d r'} : Checked r → (d.native = none → d.key = .object) →
      r.registerType d = .ok r' → Checked r'
  | converter {r source target input output convert r'} : Checked r →
      r.registerConverter source target input output convert = .ok r' → Checked r'
  | comparator {r c r'} : Checked r → r.registerComparator c = .ok r' → Checked r'
  | sealed {r s} : Checked r → r.sealed = .ok s → Checked s

/-- What the registrations of a checked registry keep to. -/
structure Shaped (r : TypeRegistry σ) : Prop where
  native : ∀ d ∈ r.types, d.native = none → d.key = .object
  parents : ∀ d ∈ r.types, ∀ p ∈ d.supertypes, r.MayInherit d p
  edges : ∀ e ∈ r.registered, ∃ source target input output convert,
    e = .typed source target input output convert ∧ r.Admits source input ∧ r.Admits target output
  comparators : ∀ c ∈ r.comparators, r.Admits c.left c.leftShape ∧ r.Admits c.right c.rightShape

theorem Checked.reachable (h : r.Checked) : r.Reachable := by
  induction h with
  | initial => exact .initial
  | type _ _ hr ih => exact ih.step (.type hr)
  | converter _ hr ih => exact ih.step (.converter hr)
  | comparator _ hr ih => exact ih.step (.comparator hr)
  | sealed _ hs ih => exact ih.step (.sealed hs)

theorem descriptor?_withType {d found : Descriptor σ} (h : r.descriptor? k = some found) :
    ({ r with types := r.types ++ [d] } : TypeRegistry σ).descriptor? k = some found := by
  simp only [descriptor?, List.find?_append] at h ⊢
  rw [h]
  rfl

theorem Admits.withType (h : r.Admits k shape) (d : Descriptor σ) :
    ({ r with types := r.types ++ [d] } : TypeRegistry σ).Admits k shape := by
  obtain ⟨found, hfound, hshape⟩ := h
  exact ⟨found, descriptor?_withType hfound, hshape⟩

theorem MayInherit.withType {child : Descriptor σ} (h : r.MayInherit child p) (d : Descriptor σ) :
    ({ r with types := r.types ++ [d] } : TypeRegistry σ).MayInherit child p := by
  obtain ⟨found, hfound, hshape⟩ := h
  exact ⟨found, descriptor?_withType hfound, hshape⟩

namespace Shaped
variable (h : r.Shaped)
include h

theorem registerType {d : Descriptor σ} (hd : d.native = none → d.key = .object)
    (hr : r.registerType d = .ok r') : r'.Shaped := by
  obtain ⟨_, _, hparents, rfl⟩ := registerType_ok.mp hr
  refine ⟨fun d' hd' => ?_, fun d' hd' p hp => ?_, fun e he => ?_, fun c hc => ?_⟩
  · rcases List.mem_append.mp hd' with hd' | hd'
    · exact h.native d' hd'
    · exact List.mem_singleton.mp hd' ▸ hd
  · rcases List.mem_append.mp hd' with hd' | hd'
    · exact (h.parents d' hd' p hp).withType d
    · obtain rfl := List.mem_singleton.mp hd'
      exact (hparents p hp).withType d'
  · obtain ⟨source, target, input, output, convert, rfl, hsource, htarget⟩ := h.edges e he
    exact ⟨source, target, input, output, convert, rfl, hsource.withType d, htarget.withType d⟩
  · exact (h.comparators c hc).imp (·.withType d) (·.withType d)

theorem registerConverter {source target : TypeKey} {input output : Shape}
    {convert : input.Carrier → HostM σ (Option output.Carrier)}
    (hr : r.registerConverter source target input output convert = .ok r') : r'.Shaped := by
  obtain ⟨hsource, htarget, hedge⟩ := registerConverter_ok.mp hr
  obtain ⟨_, _, _, _, _, rfl⟩ := registerEdge_ok.mp hedge
  refine ⟨h.native, h.parents, fun e he => ?_, h.comparators⟩
  rcases List.mem_append.mp he with he | he
  · exact h.edges e he
  · exact ⟨source, target, input, output, convert, List.mem_singleton.mp he, hsource, htarget⟩

theorem registerComparator {c : Comparator σ} (hr : r.registerComparator c = .ok r') :
    r'.Shaped := by
  obtain ⟨_, hleft, hright, _, rfl⟩ := registerComparator_ok.mp hr
  refine ⟨h.native, h.parents, h.edges, fun c' hc' => ?_⟩
  rcases List.mem_append.mp hc' with hc' | hc'
  · exact h.comparators c' hc'
  · obtain rfl := List.mem_singleton.mp hc'
    exact ⟨hleft, hright⟩

theorem sealed (hs : r.sealed = .ok r') : r'.Shaped := by
  obtain ⟨_, rfl⟩ := sealed_ok.mp hs
  obtain ⟨composed, hclosure⟩ := r.closure_eq
  rw [hclosure]
  exact ⟨h.native, h.parents, h.edges, h.comparators⟩

end Shaped

theorem Checked.shaped (h : r.Checked) : r.Shaped := by
  induction h with
  | initial =>
    refine ⟨fun d hd _ => ?_, fun d hd p hp => ?_, fun e he => ?_, fun c hc => ?_⟩
    · rw [List.mem_singleton.mp hd]
      rfl
    · rw [List.mem_singleton.mp hd] at hp
      exact absurd hp List.not_mem_nil
    · exact absurd he List.not_mem_nil
    · exact absurd hc List.not_mem_nil
  | type _ hd hr ih => exact ih.registerType hd hr
  | converter _ hr ih => exact ih.registerConverter hr
  | comparator _ hr ih => exact ih.registerComparator hr
  | sealed _ hs ih => exact ih.sealed hs

/-! ### Types that share a shape -/

/-- A type that a function on payloads of a shape may name has that shape, if it has one. -/
theorem Admits.shape_eq {other : Shape} (h : r.Admits k shape) (hk : r.HasShape k other) :
    other = shape := by
  obtain ⟨d, hd, hshape⟩ := h
  obtain ⟨d', hd', hnative⟩ := hk
  obtain rfl : d = d' := Option.some.inj (hd.symm.trans hd')
  exact hshape other hnative

/-- What a function makes of a payload is a payload of the type that it names. -/
theorem Admits.holds (h : r.Admits k shape) (x : shape.Carrier) :
    r.Holds ⟨k, .of shape x⟩ := by
  obtain ⟨d, hd, hshape⟩ := h
  refine ⟨d, hd, Descriptor.acceptsPayload_iff.mpr fun held hheld => ?_⟩
  rw [hshape held hheld]
  exact Payload.shape_of shape x

namespace Shaped
variable (h : r.Shaped) (hw : r.WellFormed)
include h

/-- Only the universal type has no native shape. -/
theorem exists_hasShape {d : Descriptor σ} (hd : r.descriptor? k = some d) (hk : k ≠ .object) :
    ∃ shape, d.native = some shape := by
  have hkey : d.key = k := by simpa using List.find?_some hd
  refine Option.ne_none_iff_exists'.mp fun hnone => hk ?_
  rw [← hkey]
  exact h.native d (List.mem_of_find?_eq_some hd) hnone

theorem hasShape_of_holds (hv : r.Holds v) (hne : v.type ≠ .object) :
    r.HasShape v.type v.payload.shape := by
  obtain ⟨d, hd, haccepts⟩ := hv
  obtain ⟨shape, hshape⟩ := h.exists_hasShape hd hne
  refine ⟨d, hd, ?_⟩
  rw [hshape, Descriptor.acceptsPayload_iff.mp haccepts shape hshape]

/-- A type shares its shape with a supertype that it declares. -/
theorem hasShape_of_declares (hk : r.HasShape k shape) (hp : r.Declares k p) (hne : p ≠ .object) :
    r.HasShape p shape := by
  obtain ⟨d, hd, hnative⟩ := hk
  have hmem : p ∈ d.supertypes := by
    simpa only [Declares, declared, hd] using hp
  obtain ⟨parent, hparent, hshares⟩ := h.parents d (List.mem_of_find?_eq_some hd) p hmem
  obtain ⟨held, hheld⟩ := h.exists_hasShape hparent hne
  have hsame : some shape = some held := hnative.symm.trans (hshares held hheld)
  exact ⟨parent, hparent, hheld.trans hsame.symm⟩

include hw

/-- So it does with all that it inherits from, but for the universal type. -/
theorem hasShape_of_inherits (hk : r.HasShape k shape) (hp : r.Inherits k p) (hne : p ≠ .object) :
    r.HasShape p shape := by
  induction hp with
  | refl => exact hk
  | tail _ hqp ih =>
    refine h.hasShape_of_declares (ih ?_) hqp hne
    rintro rfl
    exact hne (hw.object_inherits.mp (.single hqp))

/-- The payload of a value has the shape of every function that names a type of it, unless the
function names the universal type. -/
theorem payload_shape (hv : r.Holds v) (hk : r.Inherits v.type k) (hne : k ≠ .object)
    (hshape : r.Admits k shape) : v.payload.shape = shape := by
  have hvne : v.type ≠ .object := fun hobject =>
    hne (hw.object_inherits.mp (hobject ▸ hk))
  exact hshape.shape_eq (h.hasShape_of_inherits hw (h.hasShape_of_holds hv hvne) hk hne)

end Shaped

/-! ### Conversions -/

/-- A conversion carries the values of a type and its subtypes to values of another type: it fits
them, and where it fits a value it fails only because a function of the host does. -/
structure Carries (r : TypeRegistry σ) (c : Conversion σ) (a b : TypeKey) : Prop where
  fits : ∀ v, r.Holds v → r.Inherits v.type a → c.Fits v
  yields : ∀ v, r.Holds v → r.Inherits v.type a →
    (c.apply v).Yields fun out => ∀ v' ∈ out, v'.type = b ∧ r.Holds v'
  declines : ∀ v s, c.Fits v → ((c.apply v).run s).value = none → r.Declines c v s

theorem Carries.typed {input output : Shape}
    {convert : input.Carrier → HostM σ (Option output.Carrier)} (h : r.Shaped) (hw : r.WellFormed)
    (he : Edge.typed a b input output convert ∈ r.registered) (ha : a ≠ .object)
    (hinput : r.Admits a input) (houtput : r.Admits b output) :
    r.Carries (.typed a b input output convert) a b where
  fits v hv hinherits := Value.exists_as? (h.payload_shape hw hv hinherits ha hinput)
  yields v hv hinherits := by
    obtain ⟨x, hx⟩ := Value.exists_as? (h.payload_shape hw hv hinherits ha hinput)
    rw [Conversion.apply, hx]
    refine .called (.bind .trivial fun out _ => .pure fun v' hv' => ?_)
    obtain ⟨y, rfl, rfl⟩ := Option.map_eq_some_iff.mp hv'
    exact ⟨rfl, houtput.holds y⟩
  declines v s hfits hnone := by
    obtain ⟨x, hx⟩ := hfits
    rw [Conversion.apply, hx] at hnone
    exact .asked he hx (Option.map_eq_none_iff.mp hnone)

/-- What is carried to a type is carried on by what carries the values of one that it inherits
from. -/
theorem Carries.seq {first second : Conversion σ} {source target : TypeKey}
    (hfirst : r.Carries first a b) (hsecond : r.Carries second source target)
    (hb : r.Inherits b source) : r.Carries (.seq first second) a target where
  fits v hv hinherits := by
    refine ⟨hfirst.fits v hv hinherits, (hfirst.yields v hv hinherits).mono ?_⟩
    intro out hout between hbetween
    obtain ⟨rfl, hholds⟩ := hout between hbetween
    exact hsecond.fits between hholds hb
  yields v hv hinherits := by
    refine .bind (hfirst.yields v hv hinherits) fun out hout => ?_
    cases out with
    | none => exact .pure fun _ h => nomatch h
    | some between =>
      obtain ⟨rfl, hbetween⟩ := hout between rfl
      exact hsecond.yields between hbetween hb
  declines v s hfits hnone := by
    cases hbetween : ((first.apply v).run s).value with
    | none => exact .first (hfirst.declines v s hfits.1 hbetween)
    | some between =>
      refine .second hbetween (hsecond.declines between _ (hfits.2 s between hbetween) ?_)
      simp only [Conversion.apply, HostM.run_bind, hbetween] at hnone
      exact hnone

/-- What the closure makes of conversions that carry values carries values, as long as none of them
leaves the universal type. -/
theorem Composite.carries {r₀ : TypeRegistry σ} {e : Edge σ} (he : r₀.Composite a b e)
    (hext : r₀.Extends r) (h : r.Shaped) (hw : r.WellFormed)
    (hout : ∀ e ∈ r.registered, e.source ≠ .object) : r.Carries e.conversion a b := by
  have hregistered : ∀ e ∈ r₀.registered, r.Carries e.conversion e.source e.target := by
    intro e he
    rw [← hext.registered] at he
    obtain ⟨source, target, input, output, convert, rfl, hsource, htarget⟩ := h.edges e he
    exact .typed h hw he (hout _ he) hsource htarget
  induction he with
  | registered he => exact hregistered _ he
  | rebased _ hlast hobject => exact absurd hobject (hout _ (hext.registered ▸ hlast))
  | followedBy _ hlast hb ih => exact ih.seq (hregistered _ hlast) (hext.inherits ▸ hb)

/-! ### Everything that converts or compares -/

/-- What is safe about payloads in a registry. -/
structure ShapeSafe (r : TypeRegistry σ) : Prop where
  /-- A type shares its native shape with all its supertypes, but for the universal one. -/
  shared : ∀ k ∈ r.keys, ∀ p ∈ r.ancestors k, p ≠ .object →
    ∃ shape, r.HasShape k shape ∧ r.HasShape p shape
  /-- What a value converts to is a value again. -/
  converted : ∀ v, r.Holds v → ∀ target s out,
    ((r.convert v target).run s).value = some out → r.Holds out
  /-- At no hop of a conversion is a payload of another shape handed over. -/
  fits : ∀ v, r.Holds v → ∀ target e, r.edge? v.type target = some e → e.conversion.Fits v
  /-- Where there is a conversion, it fails only because a function of the host gives nothing. -/
  declined : ∀ v, r.Holds v → ∀ target, r.converts v.type target = true → ∀ s,
    ((r.convert v target).run s).value = none →
      ∃ e, r.edge? v.type target = some e ∧ r.Declines e.conversion v s
  /-- Where it is unknown how values relate, no comparator was kept from their payloads. -/
  undecided : ∀ a b, r.Holds a → r.Holds b → ∀ s,
    ((r.compare a b).run s).value = .unknown → r.Undecided a b s

namespace Checked
variable (hr : r.Checked) (hout : ∀ e ∈ r.registered, e.source ≠ .object)
include hr hout

theorem edge?_carries {e : Edge σ} (he : r.edge? a b = some e) :
    ∃ k, r.Inherits a k ∧ r.Carries e.conversion k b := by
  have hw := hr.reachable.wellFormed
  obtain ⟨k, hk, hentry⟩ := List.exists_of_findSome?_eq_some he
  obtain ⟨r₀, through, _, hclosing⟩ := hr.reachable.exists_closing
  have hcomposite := (hclosing.entry hentry).2
  exact ⟨k, hw.mem_lineage.mp hk, hcomposite.carries hclosing.toExtends hr.shaped hw hout⟩

/-- What an edge gives is a value of the type it leads to. -/
theorem convertBy_yields (hv : r.Holds v) (target : TypeKey) :
    (r.convertBy v target).Yields fun out => ∀ v' ∈ out, v'.type = target ∧ r.Holds v' := by
  unfold convertBy
  cases he : r.edge? v.type target with
  | none => exact .pure fun _ h => nomatch h
  | some e =>
    obtain ⟨k, hk, hcarries⟩ := hr.edge?_carries hout he
    exact hcarries.yields v hv hk

theorem unconverted {s : σ} (hv : r.Holds v) {target : TypeKey}
    (hnone : ((r.convertBy v target).run s).value = none) : r.Unconverted v target s := by
  intro e he
  obtain ⟨k, hk, hcarries⟩ := hr.edge?_carries hout he
  rw [convertBy, he] at hnone
  exact hcarries.declines v s (hcarries.fits v hv hk) hnone

theorem convert_holds (hv : r.Holds v) (target : TypeKey) :
    (r.convert v target).Yields fun out => ∀ v' ∈ out, r.Holds v' := by
  unfold convert
  split
  · exact .pure fun v' hv' => Option.mem_some.mp hv' ▸ hv
  · exact (hr.convertBy_yields hout hv target).mono fun out hall v' hv' => (hall v' hv').2

/-- A conversion that there is gives nothing only where a function of the host gives nothing. -/
theorem declines_of_convert {s : σ} {target : TypeKey} (hv : r.Holds v)
    (hconverts : r.converts v.type target = true)
    (hnone : ((r.convert v target).run s).value = none) :
    ∃ e, r.edge? v.type target = some e ∧ r.Declines e.conversion v s := by
  unfold convert at hnone
  split at hnone
  · exact nomatch hnone
  · rename_i hforeign
    rw [TypeRegistry.converts, Bool.or_eq_true, Option.isSome_iff_exists] at hconverts
    obtain ⟨e, he⟩ := hconverts.resolve_left hforeign
    exact ⟨e, he, hr.unconverted hout hv hnone e he⟩

omit hout
variable (hcomparators : ∀ c ∈ r.comparators, c.left ≠ .object ∧ c.right ≠ .object)
include hcomparators

/-- A comparator that is asked finds the payloads that it relates. -/
theorem finds {c : Comparator σ} {w : Value} (hc : r.comparatorFor? a b = some c)
    (hv : r.Holds v) (ha : v.type = a) (hw : r.Holds w) (hb : w.type = b) (s : σ) :
    c.Finds v w s ((c.compare v w).run s).value := by
  have hwell := hr.reachable.wellFormed
  have hmem : ∀ {k x : TypeKey}, x ∈ r.lineage k ++ [.object] → x ≠ .object → r.Inherits k x :=
    fun hx hne => hwell.mem_lineage.mp ((List.mem_append.mp hx).resolve_right
      fun hobject => hne (List.mem_singleton.mp hobject))
  obtain ⟨x, hx, hinner⟩ := List.exists_of_findSome?_eq_some hc
  obtain ⟨y, hy, hfound⟩ := List.exists_of_findSome?_eq_some hinner
  have hregistered : c ∈ r.comparators := List.mem_of_find?_eq_some hfound
  obtain ⟨rfl, rfl⟩ : c.left = x ∧ c.right = y := by simpa using List.find?_some hfound
  obtain ⟨hleft, hright⟩ := hr.shaped.comparators c hregistered
  obtain ⟨hleftne, hrightne⟩ := hcomparators c hregistered
  subst ha hb
  obtain ⟨p, hp⟩ := Value.exists_as?
    (hr.shaped.payload_shape hwell hv (hmem hx hleftne) hleftne hleft)
  obtain ⟨q, hq⟩ := Value.exists_as?
    (hr.shaped.payload_shape hwell hw (hmem hy hrightne) hrightne hright)
  refine ⟨p, q, hp, hq, ?_⟩
  rw [Comparator.compare, hp, hq]
  rfl

include hout

theorem undecidedAsRight {w : Value} {s : σ} (hv : r.Holds v) (hw : r.Holds w)
    (hunknown : ((r.compareAsRight v w).run s).value = .unknown) : r.UndecidedAsRight v w s := by
  cases hconverted : ((r.convertBy v w.type).run s).value with
  | none => exact .unconverted (hr.unconverted hout hv hconverted)
  | some v' =>
    cases hc : r.comparatorFor? w.type w.type with
    | none => exact .uncompared hc
    | some c =>
      obtain ⟨htype, hv'⟩ := hr.convertBy_yields hout hv w.type s v' hconverted
      simp only [compareAsRight, HostM.run_bind, hconverted, hc] at hunknown
      have hfinds := hr.finds hcomparators hc hv' htype hw rfl
        ((r.convertBy v w.type).run s).state
      exact .asked hconverted hc (hunknown ▸ hfinds)

theorem undecided {w : Value} {s : σ} (hv : r.Holds v) (hw : r.Holds w)
    (hunknown : ((r.compare v w).run s).value = .unknown) : r.Undecided v w s := by
  unfold compare at hunknown
  cases hc : r.comparatorFor? v.type w.type with
  | some c =>
    rw [hc] at hunknown
    exact .asked hc (hunknown ▸ hr.finds hcomparators hc hv rfl hw rfl s)
  | none =>
    cases hreverse : r.comparatorFor? w.type v.type with
    | some c =>
      simp only [hc, hreverse, HostM.run_bind, HostM.run_pure] at hunknown
      have hback : ((c.compare w v).run s).value = .unknown := by
        rw [← Relation.inverse_inverse ((c.compare w v).run s).value, hunknown]
        rfl
      exact .askedReverse hc hreverse (hback ▸ hr.finds hcomparators hreverse hw rfl hv rfl s)
    | none =>
      simp only [hc, hreverse, compareConverted, HostM.run_bind] at hunknown
      cases hconverted : ((r.convertBy w v.type).run s).value with
      | none =>
        simp only [hconverted] at hunknown
        exact .asRight hc hreverse (.inl (hr.unconverted hout hw hconverted))
          (hr.undecidedAsRight hout hcomparators hv hw hunknown)
      | some w' =>
        simp only [hconverted] at hunknown
        cases hleft : r.comparatorFor? v.type v.type with
        | none =>
          simp only [hleft] at hunknown
          exact .asRight hc hreverse (.inr hleft)
            (hr.undecidedAsRight hout hcomparators hv hw hunknown)
        | some c =>
          obtain ⟨htype, hw'⟩ := hr.convertBy_yields hout hw v.type s w' hconverted
          simp only [hleft] at hunknown
          have hfinds := hr.finds hcomparators hleft hv rfl hw' htype
            ((r.convertBy w v.type).run s).state
          exact .askedAsLeft hc hreverse hconverted hleft (hunknown ▸ hfinds)

/-- **Payloads are safe** in a checked registry where no converter leaves the universal type and no
comparator is about it: they have the shapes that functions ask for, on every way that a value
takes. -/
theorem shapeSafe : r.ShapeSafe where
  shared k hk p hp hne := by
    have hwell := hr.reachable.wellFormed
    have hsuper := hwell.mem_ancestors.mp hp
    obtain ⟨d, hd⟩ := Option.isSome_iff_exists.mp (contains_iff.mpr hk)
    have hkne : k ≠ .object := by
      rintro rfl
      exact hne (hwell.object_inherits.mp hsuper.to_reflTransGen)
    obtain ⟨shape, hshape⟩ := hr.shaped.exists_hasShape hd hkne
    have hown : r.HasShape k shape := ⟨d, hd, hshape⟩
    exact ⟨shape, hown, hr.shaped.hasShape_of_inherits hwell hown hsuper.to_reflTransGen hne⟩
  converted v hv target s out hsome := hr.convert_holds hout hv target s out hsome
  fits v hv target e he := by
    obtain ⟨k, hk, hcarries⟩ := hr.edge?_carries hout he
    exact hcarries.fits v hv hk
  declined v hv target hconverts s := hr.declines_of_convert hout hv hconverts
  undecided a b ha hb s := hr.undecided hout hcomparators ha hb

end Checked

/-- The function of a converter that keeps the payload, unless it is zero. -/
def nonzero (n : Int64) : HostM Unit (Option Int64) := pure (if n == 0 then none else some n)

/-- Integers are equal or not. -/
def sameNumber : Comparator Unit where
  left := ⟨"integer"⟩
  right := ⟨"integer"⟩
  leftShape := .i64
  rightShape := .i64
  relate := fun (x y : Int64) => pure (.ofEquality (x == y))

/-- A player converts to an integer, and an integer that is not zero to a text. Integers are
compared. -/
def counted : TypeRegistry Unit :=
  { players [relabel "player" "integer", .typed ⟨"integer"⟩ ⟨"text"⟩ .i64 .i64 nonzero] with
    comparators := [sameNumber] }

theorem players_checked : (players []).Checked :=
  Checked.initial
    |>.type (d := numbered "entity" []) (fun h => nomatch h) rfl
    |>.type (d := numbered "player" [⟨"entity"⟩]) (fun h => nomatch h) rfl
    |>.type (d := numbered "integer" []) (fun h => nomatch h) rfl
    |>.type (d := numbered "text" []) (fun h => nomatch h) rfl

theorem counted_checked : counted.Checked := by
  have hplayer : (players []).registerConverter ⟨"player"⟩ ⟨"integer"⟩ .i64 .i64
      (fun n => pure (some n)) = .ok (players [relabel "player" "integer"]) := rfl
  have hinteger : (players [relabel "player" "integer"]).registerConverter ⟨"integer"⟩ ⟨"text"⟩
      .i64 .i64 nonzero = .ok { counted with comparators := [] } := rfl
  exact ((players_checked.converter hplayer).converter hinteger).comparator (c := sameNumber) rfl

/-- A player is compared with an integer by its own integer. The text of the player zero is missing,
though players convert to texts. -/
theorem counted_shapeSafe : ∃ s, counted.sealed = .ok s ∧ s.ShapeSafe ∧
    s.Holds ⟨⟨"player"⟩, .i64 0⟩ ∧
    ((s.compare ⟨⟨"player"⟩, .i64 7⟩ ⟨⟨"integer"⟩, .i64 7⟩).run ()).value = .equal ∧
    s.converts ⟨"player"⟩ ⟨"text"⟩ = true ∧
    ((s.convert ⟨⟨"player"⟩, .i64 0⟩ ⟨"text"⟩).run ()).value = none := by
  obtain ⟨s, hs, hcomparators, hruns⟩ : ∃ s, counted.sealed = .ok s ∧
      s.comparators = [sameNumber] ∧ s.Holds ⟨⟨"player"⟩, .i64 0⟩ ∧
      ((s.compare ⟨⟨"player"⟩, .i64 7⟩ ⟨⟨"integer"⟩, .i64 7⟩).run ()).value = .equal ∧
      s.converts ⟨"player"⟩ ⟨"text"⟩ = true ∧
      ((s.convert ⟨⟨"player"⟩, .i64 0⟩ ⟨"text"⟩).run ()).value = none :=
    ⟨_, rfl, rfl, ⟨_, rfl, rfl⟩, by decide, by decide, rfl⟩
  have hout : ∀ e ∈ s.registered, e.source ≠ .object := by
    rw [(sealed_extends hs).registered]
    decide
  have hends : ∀ c ∈ s.comparators, c.left ≠ .object ∧ c.right ≠ .object := by
    rw [hcomparators]
    decide
  exact ⟨s, hs, (counted_checked.sealed hs).shapeSafe hout hends, hruns⟩

end TypeRegistry

end ScriptEngine

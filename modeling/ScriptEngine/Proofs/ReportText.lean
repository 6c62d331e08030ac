import ScriptEngine.Engine.ReportReading
import ScriptEngine.Proofs.Printed

/-! Reports are kept whole by their texts.

Every part of a report is read back from the JSON that it is written as, whether its members that
may be left out are there or not; with what was printed being read back (`Textual.read?_pretty`), so
is a report. Fingerprints are taken of another encoding, in order and without the fingerprint, and
the bytes of that tell any two catalogs apart (`kept_by_encodings`). -/
namespace ScriptEngine

namespace Json

/-- Items that are read back one by one are read back as a list. -/
theorem list?_map {α : Type} {item? : Json → Option α} (toJson : α → Json)
    (h : ∀ a, item? (toJson a) = some a) (as : List α) :
    list? item? (.array (as.map toJson)) = some as := by
  have hmap : (as.map toJson).mapM item? = some as := by
    induction as with
    | nil => rfl
    | cons a as ih => simp [List.mapM_cons, h a, ih]
  exact hmap

theorem list?_strings (names : List String) : (strings names).list? string? = some names :=
  list?_map Json.string (fun _ => rfl) names

theorem list?_names (keys : List TypeKey) : (TypeKey.jsonNames keys).list? key? = some keys := by
  have hkey : ∀ key : TypeKey, key? (.string key.name) = some key := fun _ => rfl
  rw [TypeKey.jsonNames, strings, TypeKey.names, List.map_map]
  exact list?_map _ hkey keys

/-- Reading goes on from what the first part of it comes to. -/
theorem bind_of {α β : Type} {x : Option α} {a : α} {f : α → Option β} {b : Option β}
    (h : x = some a) (hf : f a = b) : (x >>= f) = b := by
  rw [h]
  exact hf

/-- What is read back from what it is written as is told apart by it. -/
theorem injective_of_read {α : Type} {read : Json → Option α} {toJson : α → Json}
    (h : ∀ a, read (toJson a) = some a) : Function.Injective toJson := fun a b hab =>
  Option.some.inj (by rw [← h a, hab, h b])

theorem textual_strings (names : List String) : Textual (strings names) :=
  .array (List.forall_mem_map.mpr fun s _ => .string s)

theorem textual_map {α : Type} {toJson : α → Json} (h : ∀ a, Textual (toJson a)) (as : List α) :
    Textual (.array (as.map toJson)) :=
  .array (List.forall_mem_map.mpr fun a _ => h a)

/-- Members that may be left out are strings and arrays of strings. -/
theorem textual_unlessEmpty {name : String} {items : List String} :
    ∀ m ∈ unlessEmpty name items, Textual m.2 := by
  unfold unlessEmpty
  split
  · simp
  · simpa using textual_strings items

theorem textual_ifPresent {name : String} {text : Option String} :
    ∀ m ∈ ifPresent name text, Textual m.2 := by
  cases text with
  | none => simp [ifPresent]
  | some s => simpa [ifPresent] using Textual.string s

/-! ### Members that may be left out -/

/-- What stands under a name in an object. -/
def at? (name : String) : Json → Option Json
  | .object members => member? name members
  | _ => none

theorem member?_nil (name : String) : member? name [] = none := rfl

theorem member?_append (name : String) (ms ms' : List (String × Json)) :
    member? name (ms ++ ms') = (member? name ms').or (member? name ms) := by
  rw [member?, List.reverse_append, List.find?_append, Option.map_or, member?, member?]

theorem member?_cons (name : String) (m : String × Json) (ms : List (String × Json)) :
    member? name (m :: ms) = (member? name ms).or (if m.1 = name then some m.2 else none) := by
  rw [← List.singleton_append, member?_append]
  congr 1
  by_cases h : m.1 = name <;> simp [member?, h]

/-- A member that is left out when it has no items is there or not. -/
theorem member?_unlessEmpty (name other : String) (items : List String) :
    member? other (unlessEmpty name items) =
      if name = other then (if items = [] then none else some (strings items)) else none := by
  cases items with
  | nil => simp [unlessEmpty, member?]
  | cons first rest => simp [unlessEmpty, member?]

theorem member?_ifPresent (name other : String) (text : Option String) :
    member? other (ifPresent name text) = if name = other then text.map .string else none := by
  cases text with
  | none => simp [ifPresent, member?]
  | some s => simp [ifPresent, member?]

/-- Read back, a list is the same whether its member was left out or not. -/
theorem listOrEmpty?_of_list? {α : Type} {item? : Json → Option α} {names : List String}
    {as : List α} (h : (strings names).list? item? = some as) :
    listOrEmpty? item? (if names = [] then none else some (strings names)) = some as := by
  split
  case isTrue hnil =>
    rw [hnil] at h
    exact h
  case isFalse => exact h

theorem optional?_map {α : Type} {value? : Json → Option α} (text : α → String)
    (h : ∀ a, value? (.string (text a)) = some a) (o : Option α) :
    optional? value? ((o.map text).map .string) = some o := by
  cases o with
  | none => rfl
  | some a => exact congrArg (Option.map some) (h a)

end Json

open Json

/-! ### Bytes -/

/-- Listing the bytes of an array goes on with the bytes from a place on. -/
theorem byteArray_toList_loop (bytes : ByteArray) (i : Nat) (listed : List UInt8) :
    ByteArray.toList.loop bytes i listed = listed.reverse ++ bytes.data.toList.drop i := by
  fun_induction ByteArray.toList.loop bytes i listed with
  | case1 i listed h ih =>
    have hlt : i < bytes.data.toList.length := h
    have hbyte : bytes.get! i = bytes.data.toList[i] := getElem!_pos bytes.data i h
    rw [ih, List.drop_eq_getElem_cons hlt, List.reverse_cons, hbyte, List.append_assoc]
    rfl
  | case2 i listed h =>
    have hle : bytes.data.toList.length ≤ i := Nat.le_of_not_lt h
    rw [List.drop_eq_nil_of_le hle, List.append_nil]

theorem byteArray_toList_injective : Function.Injective ByteArray.toList := by
  intro bytes others h
  rw [ByteArray.toList, ByteArray.toList, byteArray_toList_loop, byteArray_toList_loop] at h
  exact ByteArray.ext (Array.toList_inj.mp (by simpa using h))

/-! ### The parts of a report -/

theorem TypeEntry.fields (t : TypeEntry) :
    t.toJson.at? "key" = some (.string t.key.name) ∧
      t.toJson.at? "plural" = some (.string t.plural) ∧
      t.toJson.at? "user_name" = some (.string t.userName) ∧
      t.toJson.at? "supertypes" = (if TypeKey.names t.supertypes = [] then none
        else some (TypeKey.jsonNames t.supertypes)) ∧
      t.toJson.at? "has_default" = some (.bool t.hasDefault) ∧
      t.toJson.at? "has_changer" = some (.bool t.hasChanger) := by
  refine ⟨?_, ?_, ?_, ?_, ?_, ?_⟩ <;>
    simp [toJson, at?, member?_append, member?_cons, member?_nil, member?_unlessEmpty,
      TypeKey.jsonNames]

/-- A type is read back, whether it has supertypes or the member for them is left out. -/
theorem TypeEntry.read_toJson (t : TypeEntry) : typeEntry? t.toJson = some t := by
  obtain ⟨hkey, hplural, huserName, hsupertypes, hdefault, hchanger⟩ := t.fields
  have hlist := listOrEmpty?_of_list? (list?_names t.supertypes)
  rw [← TypeKey.jsonNames, ← hsupertypes] at hlist
  refine bind_of rfl (bind_of hkey (bind_of rfl ?_))
  refine bind_of hplural (bind_of rfl (bind_of huserName (bind_of rfl ?_)))
  refine bind_of hlist ?_
  exact bind_of hdefault (bind_of rfl (bind_of hchanger (bind_of rfl rfl)))

theorem ConverterEntry.fields (c : ConverterEntry) :
    c.toJson.at? "from" = some (.string c.source.name) ∧
      c.toJson.at? "to" = some (.string c.target.name) ∧
      c.toJson.at? "chain" = some (TypeKey.jsonNames c.chain) ∧
      c.toJson.at? "synthesized" = some (.bool c.composed) := by
  refine ⟨?_, ?_, ?_, ?_⟩ <;> simp [toJson, at?, member?_cons, member?_nil]

theorem ConverterEntry.read_toJson (c : ConverterEntry) : converterEntry? c.toJson = some c := by
  obtain ⟨hsource, htarget, hchain, hcomposed⟩ := c.fields
  refine bind_of rfl (bind_of hsource (bind_of rfl (bind_of htarget (bind_of rfl ?_))))
  exact bind_of hchain (bind_of (list?_names c.chain) (bind_of hcomposed (bind_of rfl rfl)))

theorem read_comparatorJson (pair : TypeKey × TypeKey) :
    comparator? (comparatorJson pair) = some pair := rfl

theorem ConstructEntry.fields (c : ConstructEntry) :
    c.toJson.at? "name" = some (.string c.name) ∧ c.toJson.at? "kind" = some (.string c.kind) ∧
      c.toJson.at? "rank" = (c.rank.map (·.code)).map .string ∧
      c.toJson.at? "return_type" = (c.type.map (·.name)).map .string ∧
      c.toJson.at? "events" = (if c.events = [] then none else some (strings c.events)) ∧
      c.toJson.at? "patterns" = some (strings c.patterns) := by
  refine ⟨?_, ?_, ?_, ?_, ?_, ?_⟩ <;>
    simp [toJson, at?, member?_append, member?_cons, member?_nil, member?_unlessEmpty,
      member?_ifPresent]

/-- A construct is read back, whichever of its three optional members are there. -/
theorem ConstructEntry.read_toJson (c : ConstructEntry) : constructEntry? c.toJson = some c := by
  obtain ⟨hname, hkind, hrank, htype, hevents, hpatterns⟩ := c.fields
  have hrankRead : ∀ r : Rank, rank? (.string r.code) = some r := Rank.ofCode?_code
  have htypeRead : ∀ key : TypeKey, key? (.string key.name) = some key := fun _ => rfl
  have hranked := optional?_map (fun r => r.code) hrankRead c.rank
  have htyped := optional?_map (fun key => key.name) htypeRead c.type
  have hheard := listOrEmpty?_of_list? (list?_strings c.events)
  rw [← hrank] at hranked
  rw [← htype] at htyped
  rw [← hevents] at hheard
  refine bind_of rfl (bind_of hname (bind_of rfl (bind_of hkind (bind_of rfl ?_))))
  refine bind_of hranked (bind_of htyped (bind_of hheard ?_))
  exact bind_of hpatterns (bind_of (list?_strings c.patterns) rfl)

/-! No part of a report holds a number, so its texts determine it. -/

theorem TypeEntry.textual (t : TypeEntry) : Textual t.toJson := by
  refine .object fun m hm => ?_
  simp only [List.mem_append, List.mem_cons, List.not_mem_nil, or_false] at hm
  obtain ((rfl | rfl | rfl) | hm) | (rfl | rfl) := hm
  case inl.inr => exact textual_unlessEmpty m hm
  all_goals constructor

theorem ConverterEntry.textual (c : ConverterEntry) : Textual c.toJson := by
  refine .object fun m hm => ?_
  simp only [List.mem_cons, List.not_mem_nil, or_false] at hm
  obtain rfl | rfl | rfl | rfl := hm
  case inr.inr.inl => exact textual_strings _
  all_goals constructor

theorem ConstructEntry.textual (c : ConstructEntry) : Textual c.toJson := by
  refine .object fun m hm => ?_
  simp only [List.mem_append, List.mem_cons, List.not_mem_nil, or_false] at hm
  obtain ((((rfl | rfl) | hm) | hm) | hm) | rfl := hm
  · constructor
  · constructor
  · exact textual_ifPresent m hm
  · exact textual_ifPresent m hm
  · exact textual_unlessEmpty m hm
  · exact textual_strings _

/-! ### Reports -/

namespace Report

theorem fields (r : Report) :
    r.toJson.at? "version" = some (.string r.version) ∧
      r.toJson.at? "types" = some (.array (r.types.map (·.toJson))) ∧
      r.toJson.at? "converters" = some (.array (r.converters.map (·.toJson))) ∧
      r.toJson.at? "comparators" = some (.array (r.comparators.map comparatorJson)) ∧
      r.toJson.at? "syntax" = some (.array (r.constructs.map (·.toJson))) ∧
      r.toJson.at? "fingerprint" = some (.string r.fingerprint) := by
  refine ⟨?_, ?_, ?_, ?_, ?_, ?_⟩ <;> simp [toJson, at?, member?_cons, member?_nil]

theorem read_toJson (r : Report) : report? r.toJson = some r := by
  obtain ⟨hversion, htypes, hconverters, hcomparators, hconstructs, hfingerprint⟩ := r.fields
  refine bind_of rfl (bind_of hversion (bind_of rfl ?_))
  refine bind_of htypes (bind_of (list?_map _ TypeEntry.read_toJson r.types) ?_)
  refine bind_of hconverters (bind_of (list?_map _ ConverterEntry.read_toJson r.converters) ?_)
  refine bind_of hcomparators (bind_of (list?_map _ read_comparatorJson r.comparators) ?_)
  refine bind_of hconstructs (bind_of (list?_map _ ConstructEntry.read_toJson r.constructs) ?_)
  exact bind_of hfingerprint (bind_of rfl rfl)

theorem textual_catalog (r : Report) : Textual r.catalog := by
  refine .array fun item hitem => ?_
  simp only [List.mem_cons, List.not_mem_nil, or_false] at hitem
  obtain rfl | rfl | rfl | rfl | rfl := hitem
  · constructor
  · exact textual_map TypeEntry.textual _
  · exact textual_map ConverterEntry.textual _
  · exact textual_map (fun _ => textual_strings _) _
  · exact textual_map ConstructEntry.textual _

/-- A report is made of the parts of its catalog, and the fingerprint. -/
theorem textual (r : Report) : Textual r.toJson := by
  cases r.textual_catalog with
  | array hparts =>
    refine .object fun m hm => ?_
    simp only [List.mem_cons, List.not_mem_nil, or_false] at hm
    obtain rfl | rfl | rfl | rfl | rfl | rfl := hm
    case inr.inr.inr.inr.inr => constructor
    all_goals exact hparts _ (by simp)

/-- A printed report is read back. -/
theorem read?_print (r : Report) : Report.read? r.print = some r := by
  rw [Report.read?, print, r.textual.read?_pretty]
  exact r.read_toJson

/-! ### The bytes of fingerprints -/

/-- The catalog of a report is all of it but the fingerprint. -/
theorem catalog_inj {r s : Report} : r.catalog = s.catalog ↔
    r.version = s.version ∧ r.types = s.types ∧ r.converters = s.converters ∧
      r.comparators = s.comparators ∧ r.constructs = s.constructs := by
  simp only [catalog, Json.array.injEq, Json.string.injEq, List.cons.injEq, and_true,
    (injective_of_read TypeEntry.read_toJson).list_map.eq_iff,
    (injective_of_read ConverterEntry.read_toJson).list_map.eq_iff,
    (injective_of_read read_comparatorJson).list_map.eq_iff,
    (injective_of_read ConstructEntry.read_toJson).list_map.eq_iff]

/-- The bytes that the fingerprint of a report is a digest of. -/
def hashed (r : Report) : List UInt8 := r.catalog.compact.toUTF8.toList

/-- The same bytes are hashed of just the reports of one catalog. -/
theorem hashed_eq_iff (r s : Report) : r.hashed = s.hashed ↔ r.catalog = s.catalog := by
  refine ⟨fun h => ?_, fun h => by rw [hashed, h, hashed]⟩
  have htext : r.catalog.compact = s.catalog.compact :=
    String.toByteArray_inj.mp (byteArray_toList_injective h)
  exact compact_injective r.textual_catalog s.textual_catalog htext

/-- The encodings of reports keep them. What a report is printed as is read back as the very
report, and the bytes that its fingerprint is a digest of are those of another one just if the two
agree in everything but the fingerprint, on which they do not depend. -/
theorem kept_by_encodings (r s : Report) (fingerprint : String) :
    Report.read? r.print = some r ∧
      (r.hashed = s.hashed ↔ r.version = s.version ∧ r.types = s.types ∧
        r.converters = s.converters ∧ r.comparators = s.comparators ∧
        r.constructs = s.constructs) ∧
      ({ r with fingerprint } : Report).hashed = r.hashed ∧
      r.computeFingerprint = "blake3:" ++ Digest.hex (Digest.blake3 r.hashed) := by
  refine ⟨r.read?_print, (hashed_eq_iff r s).trans catalog_inj, ?_, rfl⟩
  exact (hashed_eq_iff _ _).mpr (catalog_inj.mpr ⟨rfl, rfl, rfl, rfl, rfl⟩)

end Report

end ScriptEngine

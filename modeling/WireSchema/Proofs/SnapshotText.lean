import WireSchema.Description.Printer
import WireSchema.Description.Reader
import WireSchema.Proofs.Json

/-!
# Snapshots read back

A snapshot is read back from its text, indented or compact (`Snapshot.parse?_text`).  The writer
leaves out the keys that nothing stands under (`Json.given`), and a reader finds under each key what
was written there (`record?_of_spells`), or its default.
-/

namespace WireSchema

namespace Json

/-! ## Members -/

/-- The members of an object whose keys are given with what stands under them, if anything does. -/
def given (table : List (String × Option Json)) : List (String × Json) :=
  table.filterMap fun (key, value) => value.map fun j => (key, j)

theorem given_cons_some (key : String) (j : Json) (table : List (String × Option Json)) :
    given ((key, some j) :: table) = (key, j) :: given table := rfl

theorem given_optionalMember {α : Type} (name : String) (f : α → Json) (o : Option α)
    (table : List (String × Option Json)) :
    optionalMember name f o ++ given table = given ((name, o.map f) :: table) := by
  cases o <;> rfl

theorem given_markMember (name : String) (b : Bool) (table : List (String × Option Json)) :
    markMember name b ++ given table =
      given ((name, if b then some (.bool true) else none) :: table) := by
  cases b <;> rfl

theorem names_given (table : List (String × Option Json)) :
    List.Sublist ((given table).map (·.1)) (table.map (·.1)) := by
  induction table with
  | nil => exact .slnil
  | cons entry table ih =>
    obtain ⟨key, value⟩ := entry
    cases value with
    | none => exact ih.cons key
    | some j => exact ih.cons_cons key

theorem lookup_given {table : List (String × Option Json)} (h : (table.map (·.1)).Nodup)
    {key : String} {value : Option Json} (hmem : (key, value) ∈ table) :
    (given table).lookup key = value := by
  induction table with
  | nil => cases hmem
  | cons entry table ih =>
    obtain ⟨name, o⟩ := entry
    rw [List.map_cons, List.nodup_cons] at h
    rcases List.mem_cons.mp hmem with heq | hrest
    · cases heq
      cases value with
      | none =>
        have hnot : key ∉ (given table).map (·.1) := fun hin => h.1 ((names_given table).subset hin)
        rw [show given ((key, none) :: table) = given table from rfl, List.lookup_eq_none_iff]
        intro m hm
        rw [bne_iff_ne]
        rintro rfl
        exact hnot (List.mem_map_of_mem hm)
      | some j => simp [given_cons_some]
    · have hne : (key == name) = false := by
        rw [beq_eq_false_iff_ne]
        rintro rfl
        exact h.1 (List.mem_map.mpr ⟨_, hrest, rfl⟩)
      rw [← ih h.2 hrest]
      cases o with
      | none => rfl
      | some j => rw [given_cons_some, List.lookup_cons, hne]

theorem wholeMembers_given {table : List (String × Option Json)}
    (h : ∀ entry ∈ table, ∀ j ∈ entry.2, j.Whole) : WholeMembers (given table) := by
  induction table with
  | nil => trivial
  | cons entry table ih =>
    obtain ⟨key, value⟩ := entry
    rw [List.forall_mem_cons] at h
    cases value with
    | none => exact ih h.2
    | some j => exact ⟨h.1 j rfl, ih h.2⟩

theorem wholeItems_map {α : Type} {f : α → Json} (h : ∀ x, (f x).Whole) (l : List α) :
    WholeItems (l.map f) := by
  induction l with
  | nil => trivial
  | cons x l ih => exact ⟨h x, ih⟩

theorem whole_ofInt64 (n : Int64) : (ofInt64 n).Whole := by
  unfold ofInt64
  split
  · trivial
  · rename_i hneg
    exact Int.not_le.mp hneg

theorem ofInt64_ne_null (n : Int64) : ofInt64 n ≠ .null := by
  unfold ofInt64
  split <;> exact nofun

end Json

namespace Document

/-! ## Values -/

theorem text?_of_spells (s : String) (d : Document) (h : (Json.string s).Spells d) :
    d.text? = some s := by
  cases h with
  | string hs => exact hs

theorem bool?_of_spells (b : Bool) (d : Document) (h : (Json.bool b).Spells d) :
    d.bool? = some b := by
  cases h
  rfl

theorem uint64?_of_spells (n : UInt64) (d : Document) (h : (Json.ofUInt64 n).Spells d) :
    d.uint64? = some n := by
  cases h with
  | number hm =>
    unfold uint64?
    dsimp only
    rw [hm]

theorem uint32?_of_spells (n : UInt32) (d : Document) (h : (Json.ofUInt32 n).Spells d) :
    d.uint32? = some n := by
  have hlt : n.toUInt64.toNat < 0x100000000 := by
    rw [UInt32.toNat_toUInt64]
    exact n.toNat_lt
  rw [uint32?, uint64?_of_spells n.toUInt64 d h, Option.bind_eq_bind, Option.bind_some,
    if_pos hlt, UInt32.toNat_toUInt64, UInt32.ofNat_toNat]

theorem int64?_of_spells (n : Int64) (d : Document) (h : (Json.ofInt64 n).Spells d) :
    d.int64? = some n := by
  unfold Json.ofInt64 at h
  split at h
  · rename_i hpos
    have hlt := n.toInt_lt
    have hnat : (UInt64.ofNat n.toInt.toNat).toNat = n.toInt.toNat :=
      Nat.mod_eq_of_lt (by omega)
    cases h with
    | number hm =>
      unfold int64?
      dsimp only
      rw [hm]
      dsimp only
      rw [hnat, if_pos (by omega), Int.toNat_of_nonneg hpos, Int64.ofInt_toInt]
  · cases h with
    | number hm =>
      unfold int64?
      dsimp only
      rw [hm]

theorem list?_of_spells {α : Type} {read : Document → Option α} {f : α → Json}
    (hread : ∀ x d, (f x).Spells d → read d = some x) {l : List α} {d : Document}
    (h : (Json.array (l.map f)).Spells d) : list? read d = some l := by
  cases h with
  | @array _ ds hitems =>
    rw [list?]
    induction l generalizing ds with
    | nil =>
      cases hitems
      rfl
    | cons x l ih =>
      cases hitems with
      | cons hx hrest => rw [List.mapM_cons, hread x _ hx, ih hrest]; rfl

/-! ## Records -/

theorem named?_of_spells {members : List (String × Json)} {ds : List (List TextUnit × Document)}
    (h : Json.SpellsMembers members ds) :
    ∃ table, named? ds = some table ∧ table.map (·.1) = members.map (·.1) ∧
      ∀ key, Option.Rel Json.Spells (members.lookup key) (table.lookup key) := by
  induction members generalizing ds with
  | nil =>
    cases h
    exact ⟨[], rfl, rfl, fun _ => .none⟩
  | cons m members ih =>
    cases h with
    | @cons name j units d _ ds hname hd hrest =>
      obtain ⟨table, htable, hnames, hlookup⟩ := ih hrest
      refine ⟨(name, d) :: table, ?_, ?_, fun key => ?_⟩
      · rw [named?, hname, htable]
      · rw [List.map_cons, List.map_cons, hnames]
      · rw [List.lookup_cons, List.lookup_cons]
        split
        · exact .some hd
        · exact hlookup key

theorem filter_key {α : Type} {table : List (String × α)} (h : (table.map (·.1)).Nodup)
    (key : String) :
    table.filter (fun m => m.1 == key) = ((table.lookup key).map fun a => (key, a)).toList := by
  induction table with
  | nil => rfl
  | cons m table ih =>
    obtain ⟨name, a⟩ := m
    rw [List.map_cons, List.nodup_cons] at h
    by_cases heq : name = key
    · subst heq
      have hnone : table.filter (fun m => m.1 == name) = [] := by
        rw [List.filter_eq_nil_iff]
        rintro ⟨other, b⟩ hmem hother
        exact h.1 (List.mem_map.mpr ⟨(other, b), hmem, beq_iff_eq.mp hother⟩)
      rw [List.filter_cons_of_pos (by simp), hnone]
      simp
    · have hne : (key == name) = false := by simpa using fun h => heq h.symm
      rw [List.filter_cons_of_neg (by simpa using heq), ih h.2, List.lookup_cons, hne]

theorem single?_of_nodup {table : List (String × Document)} (h : (table.map (·.1)).Nodup)
    (key : String) : single? table key = some (table.lookup key) := by
  rw [single?, filter_key h]
  cases table.lookup key <;> rfl

/-- A record written as an object has, in the order of its keys, what stands under them. -/
theorem record?_of_spells {table : List (String × Option Json)} (hkeys : (table.map (·.1)).Nodup)
    {d : Document} (h : (Json.object (Json.given table)).Spells d) :
    ∃ fields, d.record? (table.map (·.1)) = some fields ∧
      d.objectRecord? (table.map (·.1)) = some fields ∧
      ∀ i, Option.Rel Json.Spells ((table.map (·.2)).getD i none) (fieldAt fields i) := by
  cases h with
  | @object _ ds hmembers =>
    obtain ⟨named, hnamed, hsame, hlookup⟩ := named?_of_spells hmembers
    have hnodup : (named.map (·.1)).Nodup := by
      rw [hsame]
      exact hkeys.sublist (Json.names_given table)
    have hsingle : single? named = fun key => some (named.lookup key) :=
      funext (single?_of_nodup hnodup)
    have hrecord : (Document.object ds).objectRecord? (table.map (·.1)) =
        some ((table.map (·.1)).map fun key => named.lookup key) := by
      rw [objectRecord?, hnamed, Option.bind_some, hsingle]
      exact List.mapM_pure
    refine ⟨_, hrecord, hrecord, fun i => ?_⟩
    rw [fieldAt, List.map_map, List.getD_eq_getElem?_getD, List.getD_eq_getElem?_getD,
      List.getElem?_map, List.getElem?_map]
    cases hi : table[i]? with
    | none => exact .none
    | some entry =>
      obtain ⟨key, value⟩ := entry
      have hvalue := Json.lookup_given hkeys (List.mem_of_getElem? hi)
      have hfield := hlookup key
      rw [hvalue] at hfield
      exact hfield

section Fields

variable {α : Type} {read : Document → Option α} {f : α → Json} {field : Option Document}

theorem required_of_spells (hread : ∀ x d, (f x).Spells d → read d = some x) {x : α}
    (h : Option.Rel Json.Spells (some (f x)) field) : required read field = some x := by
  cases h with
  | some hd => exact hread x _ hd

theorem withDefault_of_spells (hread : ∀ x d, (f x).Spells d → read d = some x) (default : α)
    {x : α} (h : Option.Rel Json.Spells (some (f x)) field) :
    withDefault default read field = some x := by
  cases h with
  | some hd => exact hread x _ hd

theorem optional_of_spells (hread : ∀ x d, (f x).Spells d → read d = some x)
    (hnull : ∀ x, f x ≠ .null) {o : Option α} (h : Option.Rel Json.Spells (o.map f) field) :
    optional read field = some o := by
  cases o with
  | none =>
    cases h
    rfl
  | some x =>
    cases h with
    | @some _ d hd =>
      unfold optional
      split
      · rename_i heq
        cases heq
      · rename_i heq
        cases heq
        generalize hj : f x = j at hd
        cases hd
        exact absurd hj (hnull x)
      · rename_i heq
        cases heq
        rw [hread x d hd]
        rfl

/-- A mark that is left out when it is false. -/
theorem mark_of_spells {b : Bool}
    (h : Option.Rel Json.Spells (if b then some (Json.bool true) else none) field) :
    withDefault false bool? field = some b := by
  cases b with
  | true =>
    cases h with
    | some hd => exact bool?_of_spells _ _ hd
  | false =>
    cases h
    rfl

end Fields

end Document

/-! ## Enums -/

namespace EnumEntry

theorem plain_toJson (e : EnumEntry) : e.toJson.Plain ∧ e.toJson.depth ≤ 1 := by
  cases e with
  | key k => exact ⟨trivial, Nat.zero_le _⟩
  | versioned k v =>
    have hsorted : Assoc.Sorted [("key", Json.string k), ("version", Json.ofUInt32 v)] :=
      List.pairwise_pair.mpr (show "key" < "version" by decide)
    refine ⟨⟨hsorted, trivial, trivial, trivial⟩, ?_⟩
    simp [toJson, Json.depth, Json.depthMembers, Json.ofUInt32]

theorem plain_listToJson (entries : List EnumEntry) :
    (listToJson entries).Plain ∧ (listToJson entries).depth ≤ 2 := by
  have hitems : Json.PlainItems (entries.map toJson) ∧
      Json.depthItems (entries.map toJson) ≤ 1 := by
    induction entries with
    | nil => exact ⟨trivial, Nat.zero_le _⟩
    | cons e entries ih =>
      obtain ⟨hplain, hdepth⟩ := plain_toJson e
      refine ⟨⟨hplain, ih.1⟩, ?_⟩
      rw [List.map_cons, Json.depthItems]
      omega
  refine ⟨hitems.1, ?_⟩
  rw [listToJson, Json.depth]
  omega

theorem read?_of_spells {room : Nat} (hroom : 1 ≤ room) (e : EnumEntry) (d : Document)
    (h : e.toJson.Spells d) : read? room d = some e := by
  have hvalue := Document.toJson?_of_spells _ (plain_toJson e).1 h room
    (Nat.le_trans (plain_toJson e).2 hroom)
  unfold read?
  rw [hvalue]
  cases e with
  | key k =>
    cases h with
    | string hs => exact congrArg (Option.map EnumEntry.key) hs
  | versioned k v =>
    have hgiven : (Json.object (Json.given
        [("key", some (.string k)), ("version", some (Json.ofUInt32 v))])).Spells d := h
    obtain ⟨fields, -, hrecord, hfield⟩ := Document.record?_of_spells (by simp) hgiven
    have hkey := Document.required_of_spells Document.text?_of_spells (hfield 0)
    have hversion := Document.required_of_spells Document.uint32?_of_spells (hfield 1)
    cases h with
    | object hmembers =>
      dsimp only
      change Document.objectRecord? ["key", "version"] _ = some fields at hrecord
      rw [bind_of_eq_some hrecord, bind_of_eq_some hkey, bind_of_eq_some hversion]
      rfl

end EnumEntry

theorem EnumSpec.whole_toJson (spec : EnumSpec) : spec.toJson.Whole := by
  cases spec with
  | flag b => trivial
  | values entries => exact (EnumEntry.plain_listToJson entries).1.whole

theorem EnumSpec.toJson_ne_null (spec : EnumSpec) : spec.toJson ≠ .null := by
  cases spec <;> exact nofun

theorem EnumSpec.read?_of_spells {room : Nat} (hroom : 2 ≤ room) (spec : EnumSpec) (d : Document)
    (h : spec.toJson.Spells d) : read? room d = some spec := by
  cases spec with
  | flag b =>
    cases h
    rfl
  | values entries =>
    obtain ⟨hplain, hdepth⟩ := EnumEntry.plain_listToJson entries
    have hvalue := Document.toJson?_of_spells _ hplain h room (Nat.le_trans hdepth hroom)
    have hlist := Document.list?_of_spells 
      (EnumEntry.read?_of_spells (Nat.le_sub_one_of_lt hroom)) h
    unfold read?
    rw [hvalue]
    cases h with
    | array hitems => exact congrArg (Option.map EnumSpec.values) hlist

/-! ## Descriptions -/

namespace VersionEntry

/-- The keys of an entry with what stands under them. -/
def table (e : VersionEntry) : List (String × Option Json) :=
  [("type", some (.string e.typeName)), ("version", some (Json.ofUInt64 e.version)),
    ("map", e.map.map .string)]

theorem toJson_eq (e : VersionEntry) : e.toJson = .object (Json.given e.table) := by
  cases h : e.map <;> simp [toJson, table, Json.optionalMember, Json.given, h]

theorem whole_toJson (e : VersionEntry) : e.toJson.Whole := by
  rw [toJson_eq]
  apply Json.wholeMembers_given
  simp [table, Json.ofUInt64, Json.Whole]

theorem read?_of_spells (e : VersionEntry) (d : Document) (h : e.toJson.Spells d) :
    read? d = some e := by
  rw [toJson_eq] at h
  obtain ⟨fields, hrecord, -, hfield⟩ := Document.record?_of_spells (by simp [table]) h
  have htype := Document.required_of_spells Document.text?_of_spells (hfield 0)
  have hversion := Document.required_of_spells Document.uint64?_of_spells (hfield 1)
  have hmap := Document.optional_of_spells Document.text?_of_spells nofun (hfield 2)
  unfold read?
  change d.record? ["type", "version", "map"] = some fields at hrecord
  rw [bind_of_eq_some hrecord, bind_of_eq_some htype, bind_of_eq_some hversion,
    bind_of_eq_some hmap]
  rfl

end VersionEntry

namespace FieldDescription

/-- The keys of a field with what stands under them. -/
def table (f : FieldDescription) : List (String × Option Json) :=
  [("name", some (.string f.name)), ("required", some (.bool f.required)),
    ("array", some (.bool f.array)), ("type", some (.string f.typeName)),
    ("version", f.version.map Json.ofUInt32)]

theorem toJson_eq (f : FieldDescription) : f.toJson = .object (Json.given f.table) := by
  cases h : f.version <;> simp [toJson, table, Json.optionalMember, Json.given, h]

theorem whole_toJson (f : FieldDescription) : f.toJson.Whole := by
  rw [toJson_eq]
  apply Json.wholeMembers_given
  simp [table, Json.ofUInt32, Json.Whole]

theorem read?_of_spells (f : FieldDescription) (d : Document) (h : f.toJson.Spells d) :
    read? d = some f := by
  rw [toJson_eq] at h
  obtain ⟨fields, hrecord, -, hfield⟩ := Document.record?_of_spells (by simp [table]) h
  have hname := Document.required_of_spells Document.text?_of_spells (hfield 0)
  have hrequired := Document.withDefault_of_spells Document.bool?_of_spells false (hfield 1)
  have harray := Document.withDefault_of_spells Document.bool?_of_spells false (hfield 2)
  have htype := Document.required_of_spells Document.text?_of_spells (hfield 3)
  have hversion := Document.optional_of_spells Document.uint32?_of_spells nofun (hfield 4)
  unfold read?
  change d.record? ["name", "required", "array", "type", "version"] = some fields at hrecord
  rw [bind_of_eq_some hrecord, bind_of_eq_some hname, bind_of_eq_some hrequired,
    bind_of_eq_some harray, bind_of_eq_some htype, bind_of_eq_some hversion]
  rfl

end FieldDescription

namespace Description

/-- The keys of a description with what stands under them. -/
def table (d : Description) : List (String × Option Json) :=
  [("name", some (.string d.name)), ("namespace", d.ns.map .string),
    ("alias", d.target.map .string), ("enum", d.enum.map EnumSpec.toJson),
    ("values", d.values.map EnumEntry.listToJson),
    ("offset", d.offset.map Json.ofUInt64),
    ("strings", if d.strings then some (.bool true) else none),
    ("array", if d.array then some (.bool true) else none), ("type", d.element.map .string),
    ("external", d.external.map .string),
    ("versions", d.versions.map fun l => .array (l.map VersionEntry.toJson)),
    ("compact", d.compact.map .bool), ("flagsPosition", d.flagsPosition.map Json.ofInt64),
    ("fields", d.fields.map fun l => .array (l.map FieldDescription.toJson)),
    ("version", d.version.map Json.ofUInt32)]

theorem toJson_eq (d : Description) : d.toJson = .object (Json.given d.table) := by
  have hlast : Json.optionalMember "version" Json.ofUInt32 d.version =
      Json.given [("version", d.version.map Json.ofUInt32)] :=
    (List.append_nil _).symm.trans (Json.given_optionalMember _ _ _ [])
  simp only [toJson, table, hlast, List.append_assoc, Json.given_optionalMember,
    Json.given_markMember, List.cons_append, List.nil_append, Json.given_cons_some]

theorem whole_toJson (d : Description) : d.toJson.Whole := by
  rw [toJson_eq]
  apply Json.wholeMembers_given
  simp [table, Json.ofUInt32, Json.ofUInt64, Json.Whole, Json.whole_ofInt64, EnumSpec.whole_toJson,
    (EnumEntry.plain_listToJson _).1.whole, Json.wholeItems_map VersionEntry.whole_toJson,
    Json.wholeItems_map FieldDescription.whole_toJson, -Bool.exists_bool, -Bool.forall_bool]

theorem read?_of_spells {room : Nat} (hroom : 2 ≤ room) (desc : Description) (d : Document)
    (h : desc.toJson.Spells d) : read? room d = some desc := by
  rw [toJson_eq] at h
  obtain ⟨fields, hrecord, -, hfield⟩ := Document.record?_of_spells (by simp [table]) h
  have hname := Document.required_of_spells Document.text?_of_spells (hfield 0)
  have hns := Document.optional_of_spells Document.text?_of_spells nofun (hfield 1)
  have htarget := Document.optional_of_spells Document.text?_of_spells nofun (hfield 2)
  have henum := Document.optional_of_spells (EnumSpec.read?_of_spells hroom) EnumSpec.toJson_ne_null
    (hfield 3)
  have hvalues := Document.optional_of_spells
    (fun l d => Document.list?_of_spells (EnumEntry.read?_of_spells (Nat.le_sub_one_of_lt hroom)))
    nofun (hfield 4)
  have hoffset := Document.optional_of_spells Document.uint64?_of_spells nofun (hfield 5)
  have hstrings := Document.mark_of_spells (hfield 6)
  have harray := Document.mark_of_spells (hfield 7)
  have helement := Document.optional_of_spells Document.text?_of_spells nofun (hfield 8)
  have hexternal := Document.optional_of_spells Document.text?_of_spells nofun (hfield 9)
  have hversions := Document.optional_of_spells
    (fun l d => Document.list?_of_spells VersionEntry.read?_of_spells) nofun (hfield 10)
  have hcompact := Document.optional_of_spells Document.bool?_of_spells nofun (hfield 11)
  have hposition := Document.optional_of_spells Document.int64?_of_spells Json.ofInt64_ne_null
    (hfield 12)
  have hfields := Document.optional_of_spells
    (fun l d => Document.list?_of_spells FieldDescription.read?_of_spells) nofun (hfield 13)
  have hversion := Document.optional_of_spells Document.uint32?_of_spells nofun (hfield 14)
  unfold read?
  change d.record? keys = some fields at hrecord
  rw [bind_of_eq_some hrecord, bind_of_eq_some hname, bind_of_eq_some hns, bind_of_eq_some htarget,
    bind_of_eq_some henum, bind_of_eq_some hvalues, bind_of_eq_some hoffset,
    bind_of_eq_some hstrings, bind_of_eq_some harray, bind_of_eq_some helement,
    bind_of_eq_some hexternal, bind_of_eq_some hversions, bind_of_eq_some hcompact,
    bind_of_eq_some hposition, bind_of_eq_some hfields, bind_of_eq_some hversion]
  rfl

end Description

namespace Snapshot

theorem read?_of_spells {s : Snapshot} {d : Document} (h : s.toJson.Spells d) :
    read? d = some s := by
  have hgiven : (Json.object (Json.given [("version", some (Json.ofUInt32 s.version)),
      ("schema", some (.array (s.declarations.map Description.toJson)))])).Spells d := h
  obtain ⟨fields, hrecord, -, hfield⟩ := Document.record?_of_spells (by simp) hgiven
  have hversion := Document.required_of_spells Document.uint32?_of_spells (hfield 0)
  have hdeclarations := Document.withDefault_of_spells
    (fun l d => Document.list?_of_spells
      (Description.read?_of_spells (show 2 ≤ Document.maxDepth - 3 by decide))) [] (hfield 1)
  unfold read?
  change d.record? ["version", "schema"] = some fields at hrecord
  rw [bind_of_eq_some hrecord, bind_of_eq_some hversion, bind_of_eq_some hdeclarations]
  rfl

theorem whole_toJson (s : Snapshot) : s.toJson.Whole :=
  ⟨trivial, Json.wholeItems_map Description.whole_toJson s.declarations, trivial⟩

/-- A snapshot is read back from its text, indented or compact. -/
theorem parse?_text (s : Snapshot) (pretty : Bool) : parse? (s.text pretty) = some s := by
  obtain ⟨d, hparse, hspells⟩ := Document.parse?_render s.whole_toJson pretty
  rw [parse?, text, hparse]
  exact read?_of_spells hspells

end Snapshot

end WireSchema

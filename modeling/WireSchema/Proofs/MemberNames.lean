import Mathlib.Data.List.Dedup
import WireSchema.Proofs.Codec.Ensures
import WireSchema.Proofs.Redeclaration
import WireSchema.Proofs.SchemaCompatibility

/-!
# Names of members

Values go by the names of fields and by keys, the wire by their places.  No description is held
against repeated names: what is declared has the names that were described, so a declaration has two
members of one name if and only if a description that was accepted under its name has
(`Traces.register`, `Accepted.traces`).  Fields of one name share one entry of the value that is
read, and the second of two equal keys is written as the number of the first
(`Builder.distinct_members_iff`).
-/

namespace WireSchema

/-! ## Names -/

/-- The names by which values refer to the members of a body. -/
def Body.memberNames : Body → List String
  | .enum e => e.keys
  | .struct s => s.fields.map (·.name)
  | _ => []

/-- The names of the members that a description gives. -/
def Description.memberNames (d : Description) : List String :=
  match d.kind with
  | .enum => (d.enumEntries?.getD []).map EnumEntry.keyText
  | .struct => d.fieldNames
  | _ => []

theorem StructBody.map_name_shapes (s : StructBody) :
    s.shapes.map FieldShape.name = s.fields.map (·.name) := by
  rw [shapes, List.map_map]
  rfl

/-- What is declared has the names that are described, in their order. -/
theorem Description.Declares.memberNames {d : Description} {p : Declaration} (h : d.Declares p) :
    p.body.memberNames = d.memberNames := by
  have hbody := h.body
  unfold Description.memberNames
  cases hb : p.body with
  | enum e =>
    rw [hb] at hbody
    obtain ⟨hkind, ⟨entries, hentries, hkeys⟩, -⟩ := hbody
    rw [hkind, hentries]
    exact hkeys.symm
  | struct s =>
    rw [hb] at hbody
    obtain ⟨hkind, given, explicit, hs⟩ := hbody
    have hrelaxed (f : FieldDescription) : (Admission.relaxBool f).shape.name = f.name := by
      unfold Admission.relaxBool
      split <;> rfl
    rw [hkind, Body.memberNames, ← s.map_name_shapes, hs.shapes, List.map_map, List.map_map]
    simp [fieldNames, hs.fields, Function.comp_def, hrelaxed]
  | _ =>
    rw [hb] at hbody
    rw [hbody.1]
    rfl

/-- A body that is extended keeps its names in front. -/
theorem Body.Extends.memberNames {body body' : Body} (h : body.Extends body') :
    body.memberNames <+: body'.memberNames := by
  cases h with
  | enum _ _ keys => exact keys
  | struct h =>
    have hnames := h.fields.map FieldShape.name
    rwa [StructBody.map_name_shapes, StructBody.map_name_shapes] at hnames
  | _ => exact List.prefix_rfl

theorem Body.memberNames_shape (body : Body) : body.shape.memberNames = body.memberNames := by
  cases body with
  | struct s =>
    simp only [shape, memberNames, List.map_map]
    rfl
  | _ => rfl

/-! ## Accepted descriptions -/

namespace Builder

/-- The builders that calls lead to, each with the descriptions that were accepted on the way: those
of a snapshot that was replayed, and those of the calls. -/
inductive Accepted : List Description → Builder → Prop
  | fresh (versioned : Bool) : Accepted [] (fresh versioned)
  | ofSnapshot {s : Snapshot} {versioned : Bool} {b : Builder}
      (h : Builder.ofSnapshot s versioned = .ok b) : Accepted s.declarations b
  | call {ds : List Description} {b b' : Builder} {c : Call} (h : Accepted ds b)
      (hc : b.perform c = .ok b') : Accepted (ds ++ c.description?.toList) b'

theorem reachable_iff_accepted {b : Builder} : b.Reachable ↔ ∃ ds, Accepted ds b := by
  constructor
  · intro h
    induction h with
    | fresh versioned => exact ⟨[], .fresh versioned⟩
    | ofSnapshot h => exact ⟨_, .ofSnapshot h⟩
    | call _ hc ih =>
      obtain ⟨ds, hds⟩ := ih
      exact ⟨_, hds.call hc⟩
  · rintro ⟨ds, h⟩
    induction h with
    | fresh versioned => exact .fresh versioned
    | ofSnapshot h => exact .ofSnapshot h
    | call _ hc ih => exact ih.call hc

/-- All that is described is declared, and a declaration repeats a name when a description of it
does. -/
structure Traces (ds : List Description) (t : TypeTable) : Prop where
  declared : ∀ d ∈ ds, ∃ e ∈ t, e.fqn = d.fqn
  distinct : ∀ e ∈ t, (e.body.memberNames.Nodup ↔
    ∀ d ∈ ds, d.fqn = e.fqn → d.memberNames.Nodup)

variable {ds : List Description} {b b' : Builder}

/-- One registration: a declaration that is grown repeats the names that it repeated before. -/
theorem Traces.register (h : Traces ds b.types) (hb : b.types.WellFormed) {d : Description}
    (hd : b.register d = .ok b') : Traces (ds ++ [d]) b'.types := by
  obtain ⟨-, q, session, -, -, -, haccept, htypes, -⟩ := register_inv hd
  have hfqn : q.fqn = d.fqn := Admission.fqn_of_accept haccept
  have hnames := (Admission.accept_declares haccept).memberNames
  rw [htypes]
  constructor
  · intro d' hd'
    rcases List.mem_append.mp hd' with hd' | hd'
    · obtain ⟨e, he, heq⟩ := h.declared d' hd'
      by_cases hsame : e.fqn = q.fqn
      · exact ⟨q, mem_place.mpr (.inl rfl), hsame.symm.trans heq⟩
      · exact ⟨e, mem_place.mpr (.inr ⟨he, hsame⟩), heq⟩
    · rw [List.mem_singleton.mp hd']
      exact ⟨q, mem_place.mpr (.inl rfl), hfqn⟩
  · intro e he
    rw [List.forall_mem_append, List.forall_mem_singleton]
    rcases mem_place.mp he with rfl | ⟨he, hne⟩
    · rw [← hnames, hfqn]
      refine ⟨fun hnodup => ⟨fun d' hd' heq => ?_, fun _ => hnodup⟩, fun hall => hall.2 rfl⟩
      -- the earlier declaration of the name has its names in front of these
      obtain ⟨p, hp, hpfqn⟩ := h.declared d' hd'
      have hprevious : b.types.declaration? d.fqn = some p := by
        rw [← heq, ← hpfqn]
        exact hb.declaration?_of_mem hp
      rw [hprevious] at haccept
      have hgrown := (Admission.accept_extends haccept).memberNames
      exact (h.distinct p hp).mp (hgrown.sublist.nodup hnodup) d' hd' hpfqn.symm
    · rw [h.distinct e he]
      exact ⟨fun hall => ⟨hall, fun heq => absurd (heq.symm.trans hfqn.symm) hne⟩, And.left⟩

/-- A run of registrations. -/
theorem Traces.registerAll {more : List Description} (h : Traces ds b.types)
    (hb : b.types.WellFormed) (hmore : b.registerAll more = .ok b') :
    Traces (ds ++ more) b'.types := by
  induction more generalizing b ds with
  | nil =>
    cases hmore
    rwa [List.append_nil]
  | cons d rest ih =>
    rw [Builder.registerAll, List.foldlM_cons] at hmore
    obtain ⟨b₁, h₁, hmore⟩ := ok_of_bind hmore
    have hall := ih (h.register hb h₁) (register_wellFormed h₁ hb) hmore
    rwa [List.append_assoc] at hall

theorem traces_nil : Traces [] [] := ⟨by simp, by simp⟩

theorem Accepted.traces (h : Accepted ds b) : Traces ds b.types := by
  induction h with
  | fresh versioned => exact traces_nil
  | @ofSnapshot s versioned b h =>
    obtain ⟨b₁, h₁, h⟩ := ok_of_bind h
    cases h
    have hall : Traces ([] ++ s.declarations) b₁.types :=
      Traces.registerAll (b := { revision := .resume s.version versioned }) traces_nil
        ⟨List.nodup_nil, by simp⟩ h₁
    exact hall
  | @call ds b b' c h hc ih =>
    have hwf : b.types.WellFormed := (reachable_iff_accepted.mpr ⟨ds, h⟩).wellFormed
    rcases perform_cases hc with ⟨d, hd, hreg⟩ | ⟨hd, htypes, -⟩
    · rw [hd]
      exact ih.register hwf hreg
    · rw [hd, htypes]
      simpa using ih

end Builder

open CursorM

/-! ## Entries of a struct -/

namespace Assoc

variable {α : Type}

/-- A table under some names has an entry for each of them if and only if they are distinct. -/
theorem length_eq_iff_nodup {table : List (String × α)} (h : Sorted table) {names : List String}
    (hnames : ∀ name, name ∈ table.map Prod.fst ↔ name ∈ names) :
    table.length = names.length ↔ names.Nodup := by
  have hperm : (table.map Prod.fst).Perm names.dedup :=
    (List.perm_ext_iff_of_nodup (nodup_of_sorted h) names.nodup_dedup).mpr fun name => by
      rw [hnames, List.mem_dedup]
  have hlength : table.length = names.dedup.length := by
    rw [← hperm.length_eq, List.length_map]
  rw [hlength, ← List.dedup_eq_self]
  exact ⟨fun heq => names.dedup_sublist.eq_of_length heq, congrArg List.length⟩

end Assoc

/-- A record is read as a table under the names of its steps, whatever its members are read as. -/
theorem RecordLayout.ensures_names (l : RecordLayout) (member : FieldStep → Codec) :
    Ensures (l.codec member).read fun v => ∃ fields : Fields, v = .struct fields ∧
      Assoc.Sorted fields ∧ ∀ name, name ∈ fields.map Prod.fst ↔ name ∈ l.steps.map (·.name) := by
  let P : Fields → Prop := fun fields =>
    Assoc.Sorted fields ∧ ∀ name, name ∈ fields.map Prod.fst ↔ name ∈ l.steps.map (·.name)
  have hdefaults : P l.defaults := by
    refine ⟨Assoc.sorted_ofList _, fun name => ?_⟩
    rw [defaults, Assoc.mem_names_ofList, List.map_map]
    rfl
  -- an entry that is written over keeps its name
  have hinsert {s : FieldStep} (hs : s ∈ l.steps) {fields : Fields} (h : P fields) (v : Value) :
      P (Assoc.insert s.name v fields) := by
    refine ⟨Assoc.sorted_insert h.1, fun name => ?_⟩
    rw [Assoc.mem_names_insert, h.2]
    refine or_iff_right_of_imp ?_
    rintro rfl
    exact List.mem_map_of_mem hs
  refine ensures_bind (P := P) (ensures_readSteps (fun s hs flags fields h => ?_) hdefaults)
    fun fields h => ensures_pure ⟨fields, rfl, h⟩
  unfold readField
  split
  · exact ensures_pure (hinsert hs h _)
  · split
    · exact ensures_bind (ensures_true _) fun v _ => ensures_pure (hinsert hs h v)
    · exact ensures_pure h

/-! ## Numbers of keys -/

namespace Choice

variable {e : Choice}

/-- A key is found at its first place. -/
theorem index_inv {key : String} {i j : Nat} (hi : e.index key = .ok i)
    (hj : e.keys[j]? = some key) : i ≤ j ∧ (i = j ↔ key ∉ e.keys.take j) := by
  have hfirst : e.keys.idxOf? key = some i := by
    unfold index at hi
    split at hi
    · cases hi
      assumption
    · cases hi
  obtain ⟨hlt, hkey, hmin⟩ := List.findIdx?_eq_some_iff_getElem.mp hfirst
  obtain ⟨hltj, hkeyj⟩ := List.getElem?_eq_some_iff.mp hj
  have hle : i ≤ j := Nat.not_lt.mp fun hji => hmin j hji (beq_iff_eq.mpr hkeyj)
  refine ⟨hle, ?_, fun hnot => Nat.le_antisymm hle (Nat.not_lt.mp fun hij => hnot ?_)⟩
  · rintro rfl hmem
    obtain ⟨k, hk, hget⟩ := List.mem_take_iff_getElem.mp hmem
    exact hmin k (by omega) (beq_iff_eq.mpr hget)
  · exact List.mem_take_iff_getElem.mpr ⟨i, by omega, beq_iff_eq.mp hkey⟩

theorem encode_of_wire {v w : Value} (hw : e.wire v = .ok w) :
    e.codec.encode v = e.wireKind.codec.encode w := by
  have hreserve : e.codec.reserve v = e.wireKind.codec.reserve w := by
    show (CursorM.ofExcept (e.wire v) >>= e.wireKind.codec.reserve) = _
    rw [hw]
    rfl
  have hwrite : e.codec.write v = e.wireKind.codec.write w := by
    show (CursorM.ofExcept (e.wire v) >>= e.wireKind.codec.write) = _
    rw [hw]
    rfl
  rw [Codec.encode, Codec.encode, hreserve, hwrite]

theorem encode_uint (n : UInt64) :
    Primitive.uint.codec.encode (.uint n) = .ok (Varint.bytes n.toNat) :=
  Codec.encode_of_yields (Primitive.yields_codec (by rw [Primitive.pieces, toUInt64_uint]; rfl))

/-- A number that is accepted is written as it is, and read as the key in its place. -/
theorem encode_number {n : UInt64} {bytes : Bytes} (h : e.codec.encode (.uint n) = .ok bytes) :
    e.strings = false ∧ e.offset.toNat ≤ n.toNat ∧ bytes = Varint.bytes n.toNat ∧
      ∃ key, e.keys[n.toNat - e.offset.toNat]? = some key ∧
        ∀ rest, e.codec.decodeFirst (bytes ++ rest) = .ok (.string key, bytes.length) := by
  obtain ⟨w, -, hw, -⟩ := choice_yields_inv ((Codec.encode_eq_ok_iff e.regular_choice).mp h)
  cases hs : e.strings with
  | true =>
    rw [wire_of_strings hs] at hw
    cases hw
  | false =>
    have hkind : e.wireKind = .uint := by
      rw [wireKind, hs]
      rfl
    have hencode := encode_of_wire hw
    unfold wire at hw
    rw [if_neg (by rw [hs]; decide)] at hw
    obtain ⟨m, key, hm, rfl, hkey, hget⟩ := keyOf?_of_number hw
    rw [toUInt64_uint] at hm
    cases hm
    rw [h, hkind, encode_uint] at hencode
    cases hencode
    have hle : e.offset.toNat ≤ n.toNat := by
      unfold keyOf? at hkey
      split at hkey
      · cases hkey
      · omega
    refine ⟨rfl, hle, rfl, key, hget, fun rest => ?_⟩
    rw [Codec.decodeFirst_eq, Varint.length_bytes]
    exact parse_numbers hs hkey (Varint.parse_varint_append n.toNat_lt rest)

theorem encode_key (hs : e.strings = false) {key : String} {i : Nat} (hi : e.index key = .ok i) :
    e.codec.encode (.string key) = .ok (Varint.bytes (e.code i).toNat) := by
  have hw : e.wire (.string key) = .ok (.uint (e.code i)) := by
    rw [wire, if_neg (by rw [hs]; decide), hi]
    rfl
  have hkind : e.wireKind = .uint := by
    rw [wireKind, hs]
    rfl
  rw [encode_of_wire hw, hkind, encode_uint]

/-- The key of an accepted number is written as that number if and only if it stands nowhere before
the number's place. -/
theorem encode_key_eq_iff {n : UInt64} {bytes : Bytes} (h : e.codec.encode (.uint n) = .ok bytes)
    {key : String} (hkey : e.keys[n.toNat - e.offset.toNat]? = some key) :
    e.codec.encode (.string key) = .ok bytes ↔
      key ∉ e.keys.take (n.toNat - e.offset.toNat) := by
  obtain ⟨hs, hle, rfl, -⟩ := encode_number h
  obtain ⟨i, hi⟩ := index_of_mem (List.mem_of_getElem? hkey)
  obtain ⟨hfirst, hiff⟩ := index_inv hi hkey
  have hlt := n.toNat_lt
  have hcode : (e.code i).toNat = e.offset.toNat + i := by
    have hsize : UInt64.size = 0x10000000000000000 := rfl
    rw [code, UInt64.toNat_add, UInt64.toNat_ofNat_of_lt' (by omega), Nat.mod_eq_of_lt (by omega)]
  rw [encode_key hs hi, ← hiff, hcode]
  constructor
  · intro heq
    have hsame := Varint.bytes_inj (by omega) hlt (Except.ok.inj heq)
    omega
  · rintro rfl
    rw [Nat.add_sub_cancel' hle]

end Choice

namespace TypeTable

variable {t : TypeTable} {b : Bindings} {name : String} {d : Declaration}

theorem codecWithin_depthFor (t : TypeTable) (b : Bindings) (levels : Nat) (name : String) :
    ∃ n, t.codecWithin b (t.depthFor levels) name = t.codecLayer b (t.codecWithin b n) name := by
  obtain ⟨n, hn⟩ : ∃ n, t.depthFor levels = n + 1 :=
    Nat.exists_eq_succ_of_ne_zero (Nat.mul_ne_zero (by simp) (by simp))
  exact ⟨n, by rw [hn, codecWithin_succ]⟩

/-- A struct is read as a table under the names of its fields. -/
theorem ensures_memberNames (hr : t.resolve? name = some (.declared d)) {s : StructBody}
    (hb : d.body = .struct s) :
    Ensures (t.typeCodec b name).read fun v => ∃ fields : Fields, v = .struct fields ∧
      Assoc.Sorted fields ∧ ∀ key, key ∈ fields.map Prod.fst ↔ key ∈ s.fields.map (·.name) := by
  refine ensures_bind (ensures_true _) fun c _ => ?_
  obtain ⟨n, hn⟩ := t.codecWithin_depthFor b c.remaining name
  have hnames : (t.layout d.fqn s).steps.map (·.name) = s.fields.map (·.name) :=
    t.map_steps d.fqn s _ _ fun _ _ => rfl
  rw [hn, layer_struct hr hb, ← hnames]
  exact RecordLayout.ensures_names _ _

theorem encode_enum (hr : t.resolve? name = some (.declared d)) {e : EnumBody}
    (hb : d.body = .enum e) (v : Value) :
    (t.typeCodec b name).encode v =
      (Choice.codec ⟨d.fqn, e.keys, e.offset, e.strings⟩).encode v := by
  obtain ⟨n, hn⟩ := t.codecWithin_depthFor b v.depth name
  rw [layer_enum hr hb] at hn
  show (t.codecWithin b (t.depthFor v.depth) name).encode v = _
  rw [hn]

theorem decodeFirst_enum (hr : t.resolve? name = some (.declared d)) {e : EnumBody}
    (hb : d.body = .enum e) (bytes : Bytes) :
    (t.typeCodec b name).decodeFirst bytes =
      (Choice.codec ⟨d.fqn, e.keys, e.offset, e.strings⟩).decodeFirst bytes := by
  obtain ⟨n, hn⟩ := t.codecWithin_depthFor b (Cursor.ofBytes bytes).remaining name
  rw [layer_enum hr hb] at hn
  rw [Codec.decodeFirst, Codec.decodeFirst, runFrom_typeCodec, hn]

end TypeTable

namespace Builder

theorem memberNames_of_build {b : Builder} {s : Schema} (h : b.build = .ok s) :
    (s.types.map fun e => (e.fqn, e.body.memberNames)) =
      b.types.map fun e => (e.fqn, e.body.memberNames) := by
  have hshape (t : TypeTable) : (t.map fun e => (e.fqn, e.body.memberNames)) =
      t.shape.map fun e => (e.fqn, e.body.memberNames) := by
    rw [TypeTable.shape, List.map_map]
    exact List.map_congr_left fun e _ => Prod.ext rfl e.body.memberNames_shape.symm
  rw [hshape, shape_of_build h, ← hshape]

/-- A declaration repeats the name of a member if and only if a description that was accepted under
its name does, and building changes no names.  Where names are repeated, a struct is read as fewer
entries than it has fields, and of the numbers of a repeated key only the first is written for the
key. -/
theorem distinct_members_iff {ds : List Description} {b : Builder} (h : Accepted ds b) :
    (∀ e ∈ b.types, (e.body.memberNames.Nodup ↔
      ∀ d ∈ ds, d.fqn = e.fqn → d.memberNames.Nodup)) ∧
    ∀ s, b.build = .ok s →
      (s.types.map fun e => (e.fqn, e.body.memberNames)) =
        (b.types.map fun e => (e.fqn, e.body.memberNames)) ∧
      ∀ bindings, ∀ e ∈ s.types,
        (∀ body, e.body = .struct body → ∀ input v n,
          s.decodeFirst bindings e.fqn input = .ok (v, n) →
          ∃ fields : Fields, v = .struct fields ∧
            (∀ name, name ∈ fields.map Prod.fst ↔ name ∈ e.body.memberNames) ∧
            (fields.length = body.fields.length ↔ e.body.memberNames.Nodup)) ∧
        ∀ body, e.body = .enum body → ∀ n bytes,
          s.encode bindings e.fqn (.uint n) = .ok bytes →
          ∃ key, body.keys[n.toNat - body.offset.toNat]? = some key ∧
            (∀ rest, s.decodeFirst bindings e.fqn (bytes ++ rest) =
              .ok (.string key, bytes.length)) ∧
            (s.encode bindings e.fqn (.string key) = .ok bytes ↔
              key ∉ body.keys.take (n.toNat - body.offset.toNat)) := by
  have hreachable : b.Reachable := reachable_iff_accepted.mpr ⟨ds, h⟩
  refine ⟨h.traces.distinct, fun s hs => ⟨memberNames_of_build hs, fun bindings e he => ?_⟩⟩
  have hr : s.types.resolve? e.fqn = some (.declared e) :=
    (sound_of_build hs hreachable.wellFormed).wellFormed.resolve?_of_mem he
  have hcodec : s.codec? bindings e.fqn = .ok (s.types.typeCodec bindings e.fqn) :=
    if_pos (by rw [hr]; rfl)
  refine ⟨fun body hb input v n hread => ?_, fun body hb n bytes hbytes => ?_⟩
  · rw [Schema.decodeFirst, hcodec] at hread
    obtain ⟨fields, rfl, hsorted, hnames⟩ :=
      Codec.ensures_decodeFirst (TypeTable.ensures_memberNames hr hb) hread
    have hlength := Assoc.length_eq_iff_nodup hsorted hnames
    rw [List.length_map] at hlength
    rw [hb]
    exact ⟨fields, rfl, hnames, hlength⟩
  · have hencode (v : Value) : s.encode bindings e.fqn v =
        (Choice.codec ⟨e.fqn, body.keys, body.offset, body.strings⟩).encode v := by
      rw [Schema.encode, hcodec]
      exact TypeTable.encode_enum hr hb v
    rw [hencode] at hbytes
    obtain ⟨-, -, -, key, hkey, hread⟩ := Choice.encode_number hbytes
    refine ⟨key, hkey, fun rest => ?_, ?_⟩
    · rw [← hread rest, Schema.decodeFirst, hcodec]
      exact TypeTable.decodeFirst_enum hr hb _
    · rw [hencode]
      exact Choice.encode_key_eq_iff hbytes hkey

/-! An enum with one key twice, and a struct with two fields of one name. -/

def mood : Description := { Description.enumOf "mood" ["calm", "calm"] with ns := some "a" }

def pair : Description :=
  { Description.structOf "pair"
      [{ name := "x", typeName := "uint" }, { name := "x", typeName := "bool" }] with
    ns := some "a" }

/-- The schema that the two are declared in. -/
def echo : Schema :=
  ⟨1, true, true,
    [⟨"mood", "a", 1, .enum ⟨[⟨"calm", 1⟩, ⟨"calm", 1⟩], 1, false⟩⟩,
      ⟨"pair", "a", 1, .struct
        ⟨false, some 0, [⟨"x", "uint", false, false, 1⟩, ⟨"x", "bool", false, false, 1⟩]⟩⟩],
    [("a", none)], [⟨.typeAdded, "@a/mood", none, 1⟩, ⟨.typeAdded, "@a/pair", none, 1⟩]⟩

/-- The builder with the two. -/
def echoBuilder : Builder :=
  (fresh true).after [.declareNamespace "a", .register mood, .register pair]

theorem echo_accepted : Accepted [mood, pair] echoBuilder := by
  have hnone : Accepted [] ((fresh true).after [.declareNamespace "a"]) :=
    (Accepted.fresh true).call (c := .declareNamespace "a") (by decide +kernel)
  have hmood : Accepted [mood] ((fresh true).after [.declareNamespace "a", .register mood]) :=
    hnone.call (c := .register mood) (by decide +kernel)
  exact hmood.call (c := .register pair) (by decide +kernel)

/-- The number two is read as a key that is written as another number, and what is written for the
first field is lost to the second. -/
theorem distinct_members_iff_echo :
    echoBuilder.build = .ok echo ∧
      (∀ e ∈ echoBuilder.types, ¬ e.body.memberNames.Nodup) ∧
      echo.encode {} "@a/mood" (.uint 2) = .ok [2] ∧
      echo.decodeFirst {} "@a/mood" [2] = .ok (.string "calm", 1) ∧
      echo.encode {} "@a/mood" (.string "calm") ≠ .ok [2] ∧
      echo.encode {} "@a/pair" (.struct [("x", .uint 5)]) = .ok [1, 5] ∧
      ∃ fields : Fields, echo.decodeFirst {} "@a/pair" [1, 5] = .ok (.struct fields, 2) ∧
        fields.length ≠ 2 := by
  have hbuild : echoBuilder.build = .ok echo := by decide +kernel
  obtain ⟨hnames, hbuilt⟩ := distinct_members_iff echo_accepted
  obtain ⟨-, hvalues⟩ := hbuilt echo hbuild
  have htwo : echo.encode {} "@a/mood" (.uint 2) = .ok [2] := by rfl
  have hpair : echo.decodeFirst {} "@a/pair" [1, 5] = .ok (.struct [("x", .bool false)], 2) := by
    rfl
  obtain ⟨-, hkeys⟩ := hvalues {} (echo.types.get ⟨0, by decide⟩) (by decide +kernel)
  obtain ⟨key, hkey, hread, hback⟩ := hkeys _ rfl 2 [2] htwo
  obtain rfl : "calm" = key := Option.some.inj hkey
  obtain ⟨hfields, -⟩ := hvalues {} (echo.types.get ⟨1, by decide⟩) (by decide +kernel)
  obtain ⟨fields, ⟨⟩, -, hlength⟩ := hfields _ rfl [1, 5] _ 2 hpair
  have hrepeated : ∀ e ∈ echoBuilder.types, ∃ d ∈ [mood, pair], d.fqn = e.fqn ∧
      ¬ d.memberNames.Nodup := by decide +kernel
  refine ⟨hbuild, fun e he hnodup => ?_, htwo, hread [], fun heq => ?_, by rfl, _, hpair,
    fun heq => ?_⟩
  · obtain ⟨d, hd, hfqn, hnot⟩ := hrepeated e he
    exact hnot ((hnames e he).mp hnodup d hd hfqn)
  · exact absurd (hback.mp heq) (by decide)
  · exact absurd (hlength.mp heq) (by decide)

end Builder

end WireSchema

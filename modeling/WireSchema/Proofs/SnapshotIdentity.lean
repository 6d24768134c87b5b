import WireSchema.Emit.Module
import WireSchema.Proofs.Primitive.Canonical
import WireSchema.Proofs.Replay
import WireSchema.Proofs.SnapshotText

/-!
# What a snapshot identifies

A schema is built in some history of registrations, and its snapshot keeps none of it.  Still the
snapshot has the whole table of types, and with it the codecs; the module that is emitted needs
no more than the table, the version and the modules of the namespaces (`moduleText_congr`).  A
snapshot is one with its texts (`text_injective`), and its fingerprint stands for it unless the
digest has two texts with one value.
-/

namespace WireSchema

/-! ## Emitted modules -/

namespace Emit

/-- Scopes of one table, one naming and one choice of modules. -/
structure Scope.Alike (sc sc' : Scope) : Prop where
  types : sc.schema.types = sc'.schema.types
  names : sc.names = sc'.names
  paths : modulePath sc = modulePath sc'

namespace Scope.Alike

variable {sc sc' : Scope}

theorem typeExpr (h : sc.Alike sc') : typeExpr sc = typeExpr sc' := by
  funext name
  simp only [Emit.typeExpr, h.names]

theorem memberExpr (h : sc.Alike sc') : memberExpr sc = memberExpr sc' := by
  funext name framed array
  simp only [Emit.memberExpr, h.typeExpr]

theorem codecName (h : sc.Alike sc') : sc.codecName = sc'.codecName := by
  funext d
  simp only [Scope.codecName, h.names]

theorem versionedLines (h : sc.Alike sc') : versionedLines sc = versionedLines sc' := by
  have harm : entryArm sc = entryArm sc' := by
    funext d e
    simp only [entryArm, h.typeExpr, h.paths]
  funext d entries name
  simp only [Emit.versionedLines, h.typeExpr, harm]

theorem structLines (h : sc.Alike sc') : structLines sc = structLines sc' := by
  funext d s name
  simp only [Emit.structLines, structWriter, structReader, h.types, h.memberExpr]

theorem declarationLines (h : sc.Alike sc') : declarationLines sc = declarationLines sc' := by
  funext d
  simp only [Emit.declarationLines, externalLines, h.codecName, h.typeExpr, h.memberExpr,
    h.structLines, h.versionedLines, h.types, h.paths]

theorem lookupsLines (h : sc.Alike sc') : lookupsLines sc = lookupsLines sc' := by
  funext o
  simp only [Emit.lookupsLines, h.types, h.codecName]

end Scope.Alike

/-- The module of a schema depends on its version, its table and the modules of its namespaces. -/
theorem moduleText_congr {s s' : Schema} (hversion : s.version = s'.version)
    (htypes : s.types = s'.types) (hpaths : ∀ ns, s.modulePath? ns = s'.modulePath? ns)
    (o : Options) : moduleText s o = moduleText s' o := by
  have halike : (Scope.ofSchema s).Alike (Scope.ofSchema s') := by
    refine ⟨htypes, ?_, ?_⟩
    · simp only [Scope.ofSchema, htypes]
    · funext ns
      simp only [modulePath, Scope.ofSchema, hpaths]
  simp only [moduleText, preludeLines, hversion, htypes, halike.declarationLines,
    halike.lookupsLines]

end Emit

/-! ## Texts and digests -/

theorem hexText_injective : Function.Injective hexText := by
  intro bytes bytes' h
  have hpairs := Primitive.pairsToBytes?_hexText bytes
  rw [h, Primitive.pairsToBytes?_hexText bytes'] at hpairs
  exact (Option.some.inj hpairs).symm

theorem utf8Bytes_injective : Function.Injective utf8Bytes := by
  intro text text' h
  have hread := ofUtf8Bytes_utf8Bytes text
  rw [h, ofUtf8Bytes_utf8Bytes text'] at hread
  exact (Option.some.inj hread).symm

/-- Two byte strings have one SHA-256 digest. -/
def Sha256.Collision (bytes bytes' : Bytes) : Prop :=
  bytes ≠ bytes' ∧ digest bytes = digest bytes'

/-- Texts of one digest are equal, or their bytes collide. -/
theorem Digest.eq_or_collision {text text' : String} (h : ofText text = ofText text') :
    text = text' ∨ Sha256.Collision (utf8Bytes text) (utf8Bytes text') := by
  by_cases heq : text = text'
  · exact .inl heq
  · refine .inr ⟨fun hbytes => heq (utf8Bytes_injective hbytes), ?_⟩
    exact hexText_injective (congrArg Digest.text h)

namespace Snapshot

/-- Texts of two snapshots, each indented or compact, are equal only if the snapshots are. -/
theorem text_injective {s s' : Snapshot} {pretty pretty' : Bool}
    (h : s.text pretty = s'.text pretty') : s = s' := by
  have hread := parse?_text s pretty
  rw [h, parse?_text s' pretty'] at hread
  exact (Option.some.inj hread).symm

theorem toJson_text (s : Snapshot) (pretty : Bool) : s.toJson.Text (s.text pretty).toList := by
  cases pretty with
  | true =>
    have htext := Json.text_indented 0 s.toJson s.whole_toJson
    rwa [← String.toList_ofList (l := Json.indentedChars 0 s.toJson)] at htext
  | false =>
    have htext := Json.text_chars s.toJson s.whole_toJson
    rwa [← String.toList_ofList (l := s.toJson.chars)] at htext

/-- A snapshot is read back from every text of it: from the indented and the compact one, and from
those with other blanks between the tokens. -/
theorem parse?_eq_some_of_text (s : Snapshot) :
    (∀ pretty, s.toJson.Text (s.text pretty).toList ∧ parse? (s.text pretty) = some s) ∧
      ∀ chars, s.toJson.Text chars → parse? (String.ofList chars) = some s := by
  have hread (chars : List Char) (h : s.toJson.Text chars) :
      parse? (String.ofList chars) = some s := by
    obtain ⟨d, hparse, hspells⟩ := Document.parse?_text h
    rw [parse?, hparse]
    exact read?_of_spells hspells
  refine ⟨fun pretty => ⟨s.toJson_text pretty, ?_⟩, hread⟩
  have htext := hread _ (s.toJson_text pretty)
  rwa [String.ofList_toList] at htext

end Snapshot

/-! ## Schemas -/

namespace Schema

variable {s s' : Schema}

/-- The numbers of fields are persisted. -/
theorem Addressable.of_toSnapshot (ha : s.Addressable) (h : s.toSnapshot = s'.toSnapshot) :
    s'.Addressable := by
  intro d' hd'
  have hmem : d'.toDescription ∈ s.types.map (·.toDescription) := by
    have hdeclarations : s.types.map (·.toDescription) = s'.types.map (·.toDescription) :=
      congrArg Snapshot.declarations h
    rw [hdeclarations]
    exact List.mem_map.mpr ⟨d', hd', rfl⟩
  obtain ⟨d, hd, hdescription⟩ := List.mem_map.mp hmem
  have hcount := ha d hd
  rcases d with ⟨name, ns, version, body⟩
  rcases d' with ⟨name', ns', version', body'⟩
  cases body' with
  | struct fields' =>
    cases body with
    | struct fields =>
      have hfields := congrArg Description.fields hdescription
      simp only [Declaration.toDescription, Option.some.injEq] at hfields
      have hlength := congrArg List.length hfields
      simp only [List.length_map] at hlength
      simp only [Declaration.Addressable] at hcount ⊢
      omega
    | _ => cases hdescription
  | _ => trivial

/-- Schemas that give the same results, whatever is encoded, decoded or looked up. -/
structure SameCodecs (s s' : Schema) : Prop where
  encode : ∀ b name v, s.encode b name v = s'.encode b name v
  decode : ∀ b name bytes, s.decode b name bytes = s'.decode b name bytes
  enumValues? : ∀ name, s.enumValues? name = s'.enumValues? name

theorem SameCodecs.of_types (h : s.types = s'.types) : s.SameCodecs s' := by
  refine ⟨fun b name v => ?_, fun b name bytes => ?_, fun name => ?_⟩
  · simp only [Schema.encode, codec?, h]
  · simp only [Schema.decode, codec?, h]
  · simp only [Schema.enumValues?, h]

/-- The snapshot of a built schema determines its codecs and, with the modules of its namespaces,
the module that is emitted for it.  Schemas of one compact text have one snapshot, and so have
schemas of one fingerprint, unless their texts collide under the digest. -/
theorem determined_by_snapshot (hs : s.Built) (hs' : s'.Built) (ha : s.Addressable) :
    (s.toSnapshot = s'.toSnapshot → s.SameCodecs s' ∧
      ((∀ ns, s.modulePath? ns = s'.modulePath? ns) →
        ∀ o, Emit.moduleText s o = Emit.moduleText s' o)) ∧
    (s.text false = s'.text false ↔ s.toSnapshot = s'.toSnapshot) ∧
    (s.fingerprint = s'.fingerprint →
      s.toSnapshot = s'.toSnapshot ∧ s.SameCodecs s' ∨
        Sha256.Collision (utf8Bytes (s.text false)) (utf8Bytes (s'.text false))) := by
  have htypes (h : s.toSnapshot = s'.toSnapshot) : s.types = s'.types :=
    types_eq_of_toSnapshot hs' hs (ha.of_toSnapshot h) ha h
  refine ⟨fun h => ⟨.of_types (htypes h), fun hpaths o => ?_⟩, ⟨?_, ?_⟩, fun h => ?_⟩
  · exact Emit.moduleText_congr (congrArg Snapshot.version h) (htypes h) hpaths o
  · exact Snapshot.text_injective
  · intro h
    rw [text, text, h]
  · rcases Digest.eq_or_collision h with htext | hcollision
    · have hsnapshot := Snapshot.text_injective htext
      exact .inl ⟨hsnapshot, .of_types (htypes hsnapshot)⟩
    · exact .inr hcollision

/-! A mailroom that was registered from nothing, and one that was loaded and then given the same
module: two histories of one snapshot. -/

/-- The calls that give a namespace its module. -/
def mailroomModule : List Builder.Call := [.declareNamespace "a", .requireModule "a" "crate::maps"]

/-- The calls that register the types. -/
def mailroomTypes : List Builder.Call :=
  [.registerIn "a" { name := "stamp", external := some "STAMP" },
    .registerIn "a" (.enumOf "size" ["small", "large"]),
    .registerIn "a" { name := "parcel", fields := some [
      { name := "size", typeName := "@a/size", required := true },
      { name := "stamps", typeName := "@a/stamp", array := true }] }]

/-- The mailroom as it was registered. -/
def mailroom : Schema :=
  ⟨1, true, true,
    [⟨"stamp", "a", 1, .external "STAMP"⟩,
      ⟨"size", "a", 1, .enum ⟨[⟨"small", 1⟩, ⟨"large", 1⟩], 1, false⟩⟩,
      ⟨"parcel", "a", 1, .struct ⟨false, some 1, [⟨"size", "@a/size", true, false, 1⟩,
        ⟨"stamps", "@a/stamp", false, true, 1⟩]⟩⟩],
    [("a", some "crate::maps")],
    [⟨.typeAdded, "@a/stamp", none, 1⟩, ⟨.typeAdded, "@a/size", none, 1⟩,
      ⟨.typeAdded, "@a/parcel", none, 1⟩]⟩

/-- The mailroom as it was loaded. -/
def mailroom' : Schema :=
  { mailroom with versioned := false, changed := false, changes := [] }

theorem mailroom_built : mailroom.Built :=
  ⟨(Builder.fresh true).after (mailroomModule ++ mailroomTypes),
    (Builder.Reachable.fresh true).after _, by decide +kernel⟩

theorem mailroom'_built : mailroom'.Built := by
  have hload : (Builder.ofSnapshot mailroom.toSnapshot false >>= fun b =>
      (b.after mailroomModule).build) = .ok mailroom' := by decide +kernel
  obtain ⟨b, hb, hbuild⟩ := ok_of_bind hload
  exact ⟨b.after mailroomModule, (Builder.Reachable.ofSnapshot hb).after _, hbuild⟩

theorem determined_by_snapshot_mailroom :
    mailroom ≠ mailroom' ∧ mailroom.toSnapshot = mailroom'.toSnapshot ∧
      mailroom.SameCodecs mailroom' ∧
      (∀ o, Emit.moduleText mailroom o = Emit.moduleText mailroom' o) ∧
      mailroom.text false = mailroom'.text false := by
  have hsnapshot : mailroom.toSnapshot = mailroom'.toSnapshot := rfl
  obtain ⟨halike, htext, -⟩ := determined_by_snapshot mailroom_built mailroom'_built
    (by decide +kernel)
  obtain ⟨hcodecs, hmodule⟩ := halike hsnapshot
  exact ⟨by decide +kernel, hsnapshot, hcodecs, hmodule fun _ => rfl, htext.mpr hsnapshot⟩

end Schema

end WireSchema

import WireSchema.Command.Run
import WireSchema.Proofs.Raising
import WireSchema.Proofs.Replay
import WireSchema.Proofs.SnapshotText

/-!
# Schemas persist

What a built schema is persisted as is built again without a change, to the same version and the
same table (`build_toSnapshot`), and its text is read back (`Snapshot.parse?_text`).  So a schema
that is written, read and built again is written the same (`persists`).
-/

namespace WireSchema

namespace Schema

/-- The schema that is built again from what a schema is persisted as. -/
def reloaded (s : Schema) (versioned : Bool) : Schema :=
  ⟨s.version, versioned, false, s.types, [], []⟩

theorem build_toSnapshot {s : Schema} (hs : s.Built) (ha : s.Addressable) (versioned : Bool) :
    ∃ b, Builder.ofSnapshot s.toSnapshot versioned = .ok b ∧ b.revision.changed = false ∧
      b.build = .ok (s.reloaded versioned) := by
  refine ⟨_, ofSnapshot_toSnapshot hs ha versioned, rfl, ?_⟩
  rw [Builder.build_of_settled hs.sound hs.settled]
  rfl

end Schema

namespace Command

variable {m : Type → Type} [Monad m] [LawfulMonad m] {host : Host m} {path : String}

theorem readSnapshot_text {s : Snapshot} {pretty : Bool}
    (h : host.read path = pure (.ok (s.text pretty))) : readSnapshot host path = pure s := by
  unfold readSnapshot
  rw [h]
  simp [Snapshot.parse?_text]

theorem loadSchema_text {s : Schema} (hs : s.Built) (ha : s.Addressable) {pretty : Bool}
    (h : host.read path = pure (.ok (s.text pretty))) (versioned : Bool) :
    loadSchema host versioned path = pure (s.reloaded versioned) := by
  obtain ⟨b, hb, -, hbuild⟩ := Schema.build_toSnapshot hs ha versioned
  unfold loadSchema
  rw [readSnapshot_text h]
  simp [hb, hbuild, ofBuilder]

/-- The text of a built schema, indented or compact, is written back in its normal form. -/
theorem runWith_json_text {s : Schema} (hs : s.Built) (ha : s.Addressable) {pretty : Bool}
    (h : host.read path = pure (.ok (s.text pretty))) (settings : Settings) (out : Option String) :
    runWith host settings (.json path out) =
      emitText host (out.getD settings.jsonFile) (s.text settings.pretty) := by
  unfold runWith
  dsimp only
  rw [loadSchema_text hs ha h, pure_bind]
  rfl

end Command

/-- A host that has one text under every path. -/
def Host.holding (text : String) : Host Id := ⟨fun _ => .ok text, fun _ _ => .ok ()⟩

namespace Schema

/-- A built schema persists: it is rebuilt and built again without a change, to the same version and
the same snapshot; and whatever host has its text, indented or compact, the command that writes a
snapshot back emits the text of the schema itself. -/
theorem persists {s : Schema} (hs : s.Built) (ha : s.Addressable) :
    (∃ b s', s.rebuild = .ok b ∧ b.revision.changed = false ∧ b.build = .ok s' ∧
        s'.toSnapshot = s.toSnapshot ∧ s'.version = s.version ∧ s'.changed = false ∧
        s'.changes = []) ∧
      ∀ {m : Type → Type} [Monad m] [LawfulMonad m] (host : Host m) (settings : Settings)
        (path : String) (out : Option String) (pretty : Bool),
        host.read path = pure (.ok (s.text pretty)) →
          Command.runWith host settings (.json path out) =
            Command.emitText host (out.getD settings.jsonFile) (s.text settings.pretty) := by
  refine ⟨?_, fun host settings path out pretty hread => ?_⟩
  · obtain ⟨b, hb, hchanged, hbuild⟩ := build_toSnapshot hs ha s.versioned
    exact ⟨b, s.reloaded s.versioned, hb, hchanged, hbuild, rfl, rfl, rfl, rfl⟩
  · exact Command.runWith_json_text hs ha hread settings out

/-! A snapshot whose struct is older than a type of its fields, and the schema it is built to. -/

/-- The fields of a sensor. -/
def sensorFields : List FieldDescription :=
  [{ name := "id", typeName := "uint", required := true, version := some 1 },
    { name := "unit", typeName := "@a/unit", version := some 2 },
    { name := "on", typeName := "bool", required := true, version := some 1 }]

/-- A struct of version one, one of whose fields has a type of version three. -/
def sensorSnapshot : Snapshot :=
  ⟨3, [{ name := "unit", ns := some "a", target := some "string", version := some 3 },
    { name := "sensor", ns := some "a", version := some 1, fields := some sensorFields }]⟩

/-- The schema: the struct and its field have the version of the field's type, and the bool is
optional. -/
def sensor : Schema :=
  ⟨3, true, false, [⟨"unit", "a", 3, .alias "string"⟩,
    ⟨"sensor", "a", 3, .struct ⟨false, some 1, [⟨"id", "uint", true, false, 1⟩,
      ⟨"unit", "@a/unit", false, false, 3⟩, ⟨"on", "bool", false, false, 1⟩]⟩⟩], [], []⟩

theorem sensor_built : sensor.Built := by
  have hload : (Builder.ofSnapshot sensorSnapshot true >>= Builder.build) = .ok sensor := by
    decide +kernel
  obtain ⟨b, hb, hbuild⟩ := ok_of_bind hload
  exact ⟨b, .ofSnapshot hb, hbuild⟩

theorem persists_sensor :
    (∃ b s', sensor.rebuild = .ok b ∧ b.revision.changed = false ∧ b.build = .ok s' ∧
        s'.toSnapshot = sensor.toSnapshot ∧ s'.version = 3 ∧ s'.changed = false ∧
        s'.changes = []) ∧
      sensorSnapshot ≠ sensor.toSnapshot ∧
      ∀ settings out,
        Command.runWith (Host.holding (sensor.text true)) settings (.json "sensor.json" out) =
          Command.emitText (Host.holding (sensor.text true)) (out.getD settings.jsonFile)
            (sensor.text settings.pretty) := by
  have ha : sensor.Addressable := by decide +kernel
  obtain ⟨hbuilt, hrun⟩ := persists sensor_built ha
  exact ⟨hbuilt, by decide +kernel, fun settings out =>
    hrun (Host.holding (sensor.text true)) settings "sensor.json" out true rfl⟩

end Schema

end WireSchema

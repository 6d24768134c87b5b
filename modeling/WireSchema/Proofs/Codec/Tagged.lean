import WireSchema.Codec.Tagged
import WireSchema.Proofs.Basic
import WireSchema.Proofs.Integer

/-!
# Tagged payloads

A tagged value is written as the tag of the latest entry and the payload of that entry's type
(`tagged_yields_inv`).  Where the tags increase, the tag of the latest entry leads the reader back
to it (`entryOfTag_of_mem`), and an entry that is added later takes no tag away
(`entryOfTag_append`).
-/

namespace WireSchema

namespace Codec

open CursorM

/-! ## Entries -/

theorem latestEntry_mem {fqn : String} {entries : List VersionEntry} {e : VersionEntry}
    (h : latestEntry fqn entries = .ok e) : e ∈ entries := by
  unfold latestEntry at h
  split at h
  · cases h
    exact List.mem_of_getLast? (by assumption)
  · cases h

theorem entryOfTag_mem {fqn : String} {entries : List VersionEntry} {tag : Nat} {e : VersionEntry}
    (h : entryOfTag fqn entries tag = .ok e) : e ∈ entries := by
  unfold entryOfTag at h
  split at h
  · cases h
    exact List.mem_of_find?_eq_some (by assumption)
  · cases h

/-- The tags of entries increase strictly. -/
def Ascending (entries : List VersionEntry) : Prop :=
  entries.Pairwise fun a b => a.version < b.version

/-- In ascending entries each is found by its tag. -/
theorem entryOfTag_of_mem {fqn : String} {entries : List VersionEntry} (hs : Ascending entries)
    {e : VersionEntry} (he : e ∈ entries) : entryOfTag fqn entries e.version.toNat = .ok e := by
  have hdistinct : (entries.map (·.version.toNat)).Nodup :=
    List.pairwise_map.mpr (hs.imp fun hlt => Nat.ne_of_lt (UInt64.lt_iff_toNat_lt.mp hlt))
  rw [entryOfTag, find?_of_nodup hdistinct he]

/-- An entry that is added later takes no tag away. -/
theorem entryOfTag_append {fqn : String} {entries more : List VersionEntry} {tag : Nat}
    {e : VersionEntry} (h : entryOfTag fqn entries tag = .ok e) :
    entryOfTag fqn (entries ++ more) tag = .ok e := by
  unfold entryOfTag at *
  split at h
  · rename_i hf
    cases h
    rw [List.find?_append, hf]
    rfl
  · cases h

/-! ## Measuring and writing -/

variable {fqn : String} {entries : List VersionEntry} {payload payload' : VersionEntry → Codec}
  {migration : String → Option (Value → Value)}

theorem composable_tagged {R : CursorM Unit → CursorM Unit → Prop} (hR : Composable R)
    (h : ∀ e ∈ entries, ∀ v, R ((payload e).reserve v) ((payload e).write v)) (v : Value) :
    R ((tagged fqn entries payload migration).reserve v)
      ((tagged fqn entries payload migration).write v) :=
  hR.ofExcept _ fun e he => hR.bind (Varint.composable_varint hR e.version.toNat)
    (h e (latestEntry_mem he) v)

theorem regular_tagged (h : ∀ e ∈ entries, (payload e).Regular) :
    (tagged fqn entries payload migration).Regular := composable_tagged composable_tandem h

/-- What a tagged value writes: the tag of the latest entry and the payload. -/
theorem tagged_yields_inv (h : ∀ e ∈ entries, (payload e).Regular) {v : Value} {bytes : Bytes}
    (hy : (tagged fqn entries payload migration).Yields v bytes) :
    ∃ e b, latestEntry fqn entries = .ok e ∧ bytes = Varint.bytes e.version.toNat ++ b ∧
      (payload e).Yields v b := by
  obtain ⟨e, he, hy⟩ := yields_ofExcept_inv hy
  obtain ⟨a, b, rfl, ha, hb⟩ := yields_bind_inv (Varint.tandem_varint _)
    (h e (latestEntry_mem he) v) hy
  obtain rfl := ha.unique (Varint.yields_bytes _)
  exact ⟨e, b, he, rfl, hb⟩

/-! ## Reading -/

theorem tagged_read : (tagged fqn entries payload migration).read =
    Varint.read >>= fun tag => CursorM.ofExcept (entryOfTag fqn entries tag) >>= fun e =>
      (payload e).read >>= fun v => CursorM.ofExcept (migrate migration e v) := rfl

/-- Reading the payload behind a tag. -/
theorem confined_payload (h : ∀ e ∈ entries, Confined (payload e).read) (tag : Nat) :
    Confined (CursorM.ofExcept (entryOfTag fqn entries tag) >>= fun e =>
      (payload e).read >>= fun v => CursorM.ofExcept (migrate migration e v)) := by
  cases he : entryOfTag fqn entries tag with
  | error err => exact confined_throw err
  | ok e =>
    rw [ofExcept_ok, pure_bind]
    exact confined_bind (h e (entryOfTag_mem he)) fun _ => confined_ofExcept _

theorem confined_tagged (h : ∀ e ∈ entries, Confined (payload e).read) :
    Confined (tagged fqn entries payload migration).read :=
  confined_bind Varint.confined_varint fun tag => confined_payload h tag

theorem onward_tagged (h : ∀ e ∈ entries, Onward (payload e).read) :
    Onward (tagged fqn entries payload migration).read := by
  refine onward_bind Varint.confined_varint.onward fun tag => ?_
  cases he : entryOfTag fqn entries tag with
  | error err => exact (confined_throw err).onward
  | ok e =>
    rw [ofExcept_ok, pure_bind]
    exact onward_bind (h e (entryOfTag_mem he)) fun _ => (confined_ofExcept _).onward

/-- A tagged value is read as its tag and as the payload of that entry. -/
theorem parse_tagged (h : ∀ e ∈ entries, Confined (payload e).read) {w : Bytes} {tag k : Nat}
    {e : VersionEntry} (hw : Varint.read.parse w = .ok (tag, k))
    (he : entryOfTag fqn entries tag = .ok e) :
    (tagged fqn entries payload migration).read.parse w =
      shift k (((payload e).read >>= fun v => CursorM.ofExcept (migrate migration e v)).parse
        (w.drop k)) := by
  rw [tagged_read, parse_bind_ok Varint.confined_varint (confined_payload h) hw, he, ofExcept_ok,
    pure_bind]

/-- The payload of a tagged value is read behind the tag. -/
theorem runFrom_tagged_congr {d : Cursor} (hd : d.WellFormed)
    (h : ∀ e ∈ entries, ∀ d', d.Ahead 1 d' →
      (payload' e).read.runFrom d' = (payload e).read.runFrom d') :
    (tagged fqn entries payload' migration).read.runFrom d =
      (tagged fqn entries payload migration).read.runFrom d := by
  rw [tagged_read, tagged_read]
  refine runFrom_bind_congr Varint.confined_varint hd rfl fun tag k hp hk => ?_
  cases he : entryOfTag fqn entries tag with
  | error err => rfl
  | ok e =>
    have hone : d.Ahead 1 (d.advance k) := hk.mono (Varint.parse_varint_pos hp)
    rw [ofExcept_ok, pure_bind, pure_bind, runFrom_bind, runFrom_bind,
      h e (entryOfTag_mem he) _ hone]

end Codec

end WireSchema

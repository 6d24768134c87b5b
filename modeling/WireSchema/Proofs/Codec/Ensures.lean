import Mathlib.Data.List.Nodup
import WireSchema.Proofs.Codec.Choice
import WireSchema.Proofs.Codec.Frame
import WireSchema.Proofs.Codec.Record
import WireSchema.Proofs.Codec.Sequence
import WireSchema.Proofs.Codec.Tagged

/-!
# What readers ensure

A step ensures a property when whatever it gives has it, from every cursor: well formed or not, in
front of any bytes.  Nothing is asked of a step that fails.  The property goes through binds, frames
and sequences, and for a record it is an invariant of the fields under construction: they start
as the defaults, and each step binds its own name (`Fills`, `ensures_record`).
-/

namespace WireSchema

namespace CursorM

variable {α β : Type} {P : α → Prop} {Q : β → Prop}

/-- Whatever the step gives has the property. -/
def Ensures (step : CursorM α) (P : α → Prop) : Prop :=
  ∀ c a d, step.runFrom c = (.ok a, d) → P a

theorem Ensures.imp {step : CursorM α} {P' : α → Prop} (h : Ensures step P)
    (himp : ∀ a, P a → P' a) : Ensures step P' :=
  fun c a d hrun => himp a (h c a d hrun)

theorem ensures_true (step : CursorM α) : Ensures step fun _ => True := fun _ _ _ _ => trivial

theorem ensures_pure {a : α} (h : P a) : Ensures (pure a) P := by
  intro c a' d hrun
  cases hrun
  exact h

theorem ensures_throw (e : CodecError) : Ensures (throw e : CursorM α) P := by
  intro c a d hrun
  cases hrun

theorem ensures_ofExcept {x : Except CodecError α} (h : ∀ a, x = .ok a → P a) :
    Ensures (ofExcept x) P := by
  cases x with
  | error e => exact ensures_throw e
  | ok a => exact ensures_pure (h a rfl)

/-- The second half of a step may count on what the first half ensures. -/
theorem ensures_bind {x : CursorM α} {f : α → CursorM β} (hx : Ensures x P)
    (hf : ∀ a, P a → Ensures (f a) Q) : Ensures (x >>= f) Q := by
  intro c b d hrun
  obtain ⟨a, c', hstep, hrest⟩ := runFrom_bind_inv hrun
  exact hf a (hx c a c' hstep) c' b d hrest

theorem ensures_read (n : Nat) : Ensures (read n) fun bytes => bytes.length = n := by
  intro c bytes d hrun
  rw [runFrom_read] at hrun
  split at hrun
  · rename_i hroom
    cases hrun
    rw [List.length_take, List.length_drop]
    omega
  · cases hrun

end CursorM

open CursorM

theorem Varint.ensures_readFixed (width : Nat) :
    Ensures (readFixed width) fun n => n < Nat.pow 256 width := by
  refine ensures_bind (ensures_read width) fun bytes hbytes => ensures_pure ?_
  have hlt := ofLE_lt bytes
  rwa [hbytes] at hlt

/-! ## Codecs -/

namespace Codec

variable {c : Codec} {P : Value → Prop}

theorem ensures_within {α : Type} {P : α → Prop} {step : CursorM α} (h : Ensures step P)
    (limit : Nat) : Ensures (within limit step) P := by
  intro c a d hrun
  rw [runFrom_within, Prod.mk.injEq] at hrun
  exact h { c with limit := limit } a _ (Prod.ext hrun.1 rfl)

theorem ensures_frame (h : Ensures c.read P) : Ensures c.frame.read P := by
  rw [frame_read]
  refine ensures_bind (ensures_true _) fun length _ => ?_
  unfold readPayload
  refine ensures_bind (ensures_true _) fun cursor _ => ?_
  dsimp only
  split
  · exact ensures_bind (ensures_within h _) fun v hv =>
      ensures_bind (ensures_true _) fun _ _ => ensures_pure hv
  · exact ensures_throw _

theorem ensures_readItems (h : Ensures c.read P) (scarce : Bool) (count : Nat) :
    Ensures (c.readItems scarce count) fun items => ∀ u ∈ items, P u := by
  induction count with
  | zero => exact ensures_pure (by simp)
  | succ count ih =>
    rw [readItems_succ]
    refine ensures_bind (ensures_true _) fun _ _ => ensures_bind h fun v hv =>
      ensures_bind (ensures_true _) fun _ _ => ?_
    dsimp only
    split
    · exact ensures_throw _
    · refine ensures_bind ih fun rest hrest => ensures_pure ?_
      simp only [List.forall_mem_cons]
      exact ⟨hv, hrest⟩

/-- The values that are lists of values with a property. -/
def IsListOf (P : Value → Prop) (v : Value) : Prop := ∃ items, v = .array items ∧ ∀ u ∈ items, P u

theorem ensures_sequence (h : Ensures c.read P) : Ensures c.sequence.read (IsListOf P) := by
  rw [sequence_read]
  refine ensures_bind (ensures_true _) fun count _ => ?_
  unfold readCounted
  refine ensures_bind (ensures_true _) fun cursor _ => ?_
  exact ensures_bind (ensures_readItems h _ _) fun items hitems => ensures_pure ⟨items, rfl, hitems⟩

/-- A member has the property, or is a list of values that have it. -/
theorem ensures_member (h : Ensures c.read P) (framed array : Bool) :
    Ensures (c.member framed array).read (if array then IsListOf P else P) := by
  have helement : Ensures (if framed then c.frame else c).read P := by
    cases framed with
    | false => exact h
    | true => exact ensures_frame h
  cases array with
  | false => exact helement
  | true => exact ensures_sequence helement

/-- Without migrations a payload is given as it was read. -/
theorem ensures_tagged {fqn : String} {entries : List VersionEntry} {payload : VersionEntry → Codec}
    {migration : String → Option (Value → Value)} (hmap : ∀ e ∈ entries, e.map = none)
    (h : ∀ e ∈ entries, Ensures (payload e).read P) :
    Ensures (tagged fqn entries payload migration).read P := by
  refine ensures_bind (ensures_true _) fun tag _ => ?_
  refine ensures_bind (ensures_ofExcept fun e he => entryOfTag_mem he) fun e he => ?_
  refine ensures_bind (h e he) fun v hv => ensures_ofExcept fun u hu => ?_
  rw [migrate, hmap e he] at hu
  cases hu
  exact hv

theorem ensures_decodeFirst (h : Ensures c.read P) {bytes : Bytes} {v : Value} {k : Nat}
    (hfirst : c.decodeFirst bytes = .ok (v, k)) : P v := by
  unfold decodeFirst at hfirst
  split at hfirst
  · rename_i u cursor hrun
    cases hfirst
    exact h _ v cursor hrun
  · cases hfirst

theorem ensures_decode (h : Ensures c.read P) {bytes : Bytes} {v : Value}
    (hdecode : c.decode bytes = .ok v) : P v := by
  obtain ⟨⟨u, k⟩, hfirst, rfl⟩ := ok_of_map hdecode
  exact ensures_decodeFirst h hfirst

end Codec

theorem Choice.ensures_choice (e : Choice) :
    Ensures e.read fun v => ∃ key ∈ e.keys, v = .string key := by
  unfold Choice.read
  split
  · refine ensures_bind (ensures_true _) fun key _ => ?_
    have hindex : Ensures (CursorM.ofExcept (e.index key)) fun _ => key ∈ e.keys := by
      refine ensures_ofExcept fun i hi => ?_
      exact List.mem_of_getElem? (index_lt hi)
    exact ensures_bind hindex fun _ hmem => ensures_pure ⟨key, hmem, rfl⟩
  · refine ensures_bind (ensures_true _) fun n _ => ?_
    dsimp only
    split
    · rename_i key hkey
      refine ensures_pure ⟨key, ?_, rfl⟩
      split at hkey
      · cases hkey
      · exact List.mem_of_getElem? hkey
    · exact ensures_throw _

/-! ## Records -/

namespace RecordLayout

variable {l : RecordLayout} {member : FieldStep → Codec} {Q : FieldStep → Value → Prop}

/-- Fields under exactly the names of the steps, each of which holds what is asked of its step. -/
structure Fills (l : RecordLayout) (Q : FieldStep → Value → Prop) (fields : Fields) : Prop where
  sorted : Assoc.Sorted fields
  keys : ∀ name, (fields.lookup name).isSome = true ↔ name ∈ l.steps.map (·.name)
  held : ∀ s ∈ l.steps, ∀ v, fields.lookup s.name = some v → Q s v

/-- A step of the name of another step is that step. -/
theorem eq_of_name (hnames : (l.steps.map (·.name)).Nodup) {s s' : FieldStep} (hs : s ∈ l.steps)
    (hs' : s' ∈ l.steps) (h : s.name = s'.name) : s = s' :=
  List.inj_on_of_nodup_map hnames hs hs' h

theorem fills_defaults (hnames : (l.steps.map (·.name)).Nodup)
    (hQ : ∀ s ∈ l.steps, Q s s.default) : l.Fills Q l.defaults := by
  have hkeys : (l.steps.map fun s => (s.name, s.default)).map Prod.fst = l.steps.map (·.name) := by
    simp only [List.map_map, Function.comp_def]
  have hlookup (name : String) : l.defaults.lookup name =
      (l.steps.map fun s => (s.name, s.default)).lookup name :=
    Assoc.lookup_ofList (hkeys ▸ hnames) name
  have hbound {s : FieldStep} (hs : s ∈ l.steps) : l.defaults.lookup s.name = some s.default := by
    rw [hlookup]
    exact Assoc.lookup_of_mem (hkeys ▸ hnames) (List.mem_map.mpr ⟨s, hs, rfl⟩)
  refine ⟨Assoc.sorted_ofList _, fun name => ⟨fun h => ?_, fun h => ?_⟩, fun s hs v hv => ?_⟩
  · by_contra hnot
    rw [hlookup, Assoc.lookup_eq_none_of_not_mem (hkeys ▸ hnot)] at h
    cases h
  · obtain ⟨s, hs, rfl⟩ := List.mem_map.mp h
    rw [hbound hs]
    rfl
  · rw [hbound hs] at hv
    cases hv
    exact hQ s hs

theorem Fills.insert (hnames : (l.steps.map (·.name)).Nodup) {fields : Fields}
    (h : l.Fills Q fields) {s : FieldStep} (hs : s ∈ l.steps) {v : Value} (hv : Q s v) :
    l.Fills Q (Assoc.insert s.name v fields) := by
  refine ⟨Assoc.sorted_insert h.sorted, fun name => ?_, fun s' hs' u hu => ?_⟩
  · rw [Assoc.lookup_insert]
    by_cases hname : name = s.name
    · rw [if_pos hname, hname]
      simp only [Option.isSome_some, true_iff]
      exact List.mem_map_of_mem hs
    · rw [if_neg hname]
      exact h.keys name
  · rw [Assoc.lookup_insert] at hu
    by_cases hname : s'.name = s.name
    · rw [if_pos hname] at hu
      cases hu
      rwa [eq_of_name hnames hs' hs hname]
    · rw [if_neg hname] at hu
      exact h.held s' hs' u hu

/-- What every field of the steps keeps, the steps keep, also where they end at the flags. -/
theorem ensures_readSteps {P : Fields → Prop} {steps : List FieldStep}
    (hstep : ∀ s ∈ steps, ∀ flags fields, P fields → Ensures (readField member s flags fields) P)
    {i known : Nat} {fields : Fields} (hstart : P fields) :
    Ensures (l.readSteps member i known fields steps) P := by
  induction steps generalizing i known fields with
  | nil => exact ensures_bind (ensures_true _) fun _ _ => ensures_pure hstart
  | cons s rest ih =>
    refine ensures_bind (ensures_true _) fun flags _ => ?_
    cases flags with
    | none => exact ensures_pure hstart
    | some flags =>
      refine ensures_bind (hstep s List.mem_cons_self flags fields hstart) fun _ hfields' => ?_
      exact ih (fun s' hs' => hstep s' (List.mem_cons_of_mem _ hs')) hfields'

theorem ensures_readField (hnames : (l.steps.map (·.name)).Nodup) {s : FieldStep}
    (hs : s ∈ l.steps) (hflag : s.flagOnly = true → ∀ b, Q s (.bool b))
    (hmember : s.flagOnly = false → Ensures (member s).read (Q s)) (flags : Nat) {fields : Fields}
    (h : l.Fills Q fields) : Ensures (readField member s flags fields) (l.Fills Q) := by
  unfold readField
  by_cases honly : s.flagOnly
  · rw [if_pos honly]
    exact ensures_pure (h.insert hnames hs (hflag honly _))
  · rw [if_neg honly]
    split
    · exact ensures_bind (hmember (by simpa using honly)) fun v hv =>
        ensures_pure (h.insert hnames hs hv)
    · exact ensures_pure h

/-- A record has every field: the flag of a bool, and of any other field what its member ensures, or
the default. -/
theorem ensures_record (hnames : (l.steps.map (·.name)).Nodup)
    (hdefault : ∀ s ∈ l.steps, Q s s.default)
    (hflag : ∀ s ∈ l.steps, s.flagOnly = true → ∀ b, Q s (.bool b))
    (hmember : ∀ s ∈ l.steps, s.flagOnly = false → Ensures (member s).read (Q s)) :
    Ensures (l.codec member).read fun v => ∃ fields, v = .struct fields ∧ l.Fills Q fields := by
  refine ensures_bind (P := l.Fills Q) ?_ fun fields hfields => ensures_pure ⟨fields, rfl, hfields⟩
  refine ensures_readSteps (fun s hs flags fields h => ?_) (fills_defaults hnames hdefault)
  exact ensures_readField hnames hs (hflag s hs) (hmember s hs) flags h

end RecordLayout

end WireSchema

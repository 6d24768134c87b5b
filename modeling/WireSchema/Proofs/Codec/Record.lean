import WireSchema.Codec.Record
import WireSchema.Proofs.Codec.Frame
import WireSchema.Proofs.Codec.Sequence

/-!
# Records

What a record writes, field by field (`record_yields_inv`), and how its reader goes through the
steps (`parse_readSteps_nil`, `parse_readSteps_cons`).  The flags stand once, before the step at
their position; a field that the flags do not announce takes no bytes.
-/

namespace WireSchema

open CursorM

/-! ## Members -/

/-- What frames and sequences take over from their parts, members do. -/
theorem Codec.member_induction {P : Codec → Prop} (hframe : ∀ c, P c → P c.frame)
    (hsequence : ∀ c, P c → P c.sequence) {c : Codec} (h : P c) (framed array : Bool) :
    P (c.member framed array) := by
  have helement : P (if framed then c.frame else c) := by
    split
    · exact hframe c h
    · exact h
  unfold member
  dsimp only
  split
  · exact hsequence _ helement
  · exact helement

theorem Codec.regular_member {c : Codec} (h : c.Regular) (framed array : Bool) :
    (c.member framed array).Regular :=
  member_induction (P := Regular) (fun _ => regular_frame) (fun _ => regular_sequence) h framed
    array

theorem Codec.confined_member {c : Codec} (h : Confined c.read) (framed array : Bool) :
    Confined (c.member framed array).read :=
  member_induction (P := fun c => Confined c.read) (fun _ => confined_frame)
    (fun _ => confined_sequence) h framed array

theorem Codec.onward_member {c : Codec} (h : Onward c.read) (framed array : Bool) :
    Onward (c.member framed array).read :=
  member_induction (P := fun c => Onward c.read) (fun _ => onward_frame) (fun _ => onward_sequence)
    h framed array

theorem Codec.runFrom_member_congr {c c' : Codec} (hc : Onward c.read) {d : Cursor}
    (hd : d.WellFormed) (h : ∀ d', d.Ahead 0 d' → c'.read.runFrom d' = c.read.runFrom d')
    (framed array : Bool) :
    (c'.member framed array).read.runFrom d = (c.member framed array).read.runFrom d := by
  have he (d' : Cursor) (hd' : d.Ahead 0 d') :
      (if framed then c'.frame else c').read.runFrom d' =
        (if framed then c.frame else c).read.runFrom d' := by
    split
    · refine runFrom_frame_congr (hd'.wellFormed hd) fun d'' hd'' => h d'' ?_
      exact hd'.trans (hd''.mono (Nat.zero_le 1))
    · exact h d' hd'
  cases array with
  | false => exact he d hd.ahead
  | true =>
    exact runFrom_sequence_congr (onward_member hc framed false) hd fun d' hd' =>
      he d' (hd'.mono (Nat.zero_le 1))

/-- The elements of an array are read behind their number. -/
theorem Codec.runFrom_array_congr {c c' : Codec} (hc : Onward c.read) {d : Cursor}
    (hd : d.WellFormed) (h : ∀ d', d.Ahead 1 d' → c'.read.runFrom d' = c.read.runFrom d')
    (framed : Bool) :
    (c'.member framed true).read.runFrom d = (c.member framed true).read.runFrom d := by
  refine runFrom_sequence_congr (onward_member hc framed false) hd fun d' hd' => ?_
  exact runFrom_member_congr hc (hd'.wellFormed hd) (fun d'' hd'' => h d'' (hd'.trans hd''))
    framed false

namespace RecordLayout

/-! ## Measuring and writing -/

theorem requireAll_cons (l : RecordLayout) (fields : Fields) (s : FieldStep)
    (rest : List FieldStep) :
    l.requireAll fields (s :: rest) =
      (if s.optional then .ok () else fields.require l.fqn s.name) >>= fun _ =>
        l.requireAll fields rest := by
  rw [requireAll]
  split <;> rfl

/-- Whether the step is that of a required field that is absent. -/
def isMissing (fields : Fields) (s : FieldStep) : Bool :=
  !s.optional && !(fields.get s.name).isPresent

/-- A value is refused for the first required field that is absent. -/
theorem requireAll_eq (l : RecordLayout) (fields : Fields) (steps : List FieldStep) :
    l.requireAll fields steps =
      match steps.find? (isMissing fields) with
      | none => .ok ()
      | some s => .error (.missingRequiredField l.fqn s.name) := by
  induction steps with
  | nil => rfl
  | cons s rest ih =>
    rw [requireAll_cons, List.find?_cons, ih, isMissing, Fields.require]
    cases s.optional <;> cases (fields.get s.name).isPresent <;> rfl

theorem requireAll_eq_ok_iff {l : RecordLayout} {fields : Fields} {steps : List FieldStep} :
    l.requireAll fields steps = .ok () ↔
      ∀ s ∈ steps, s.optional = false → (fields.get s.name).isPresent = true := by
  have hnone : steps.find? (isMissing fields) = none ↔
      ∀ s ∈ steps, s.optional = false → (fields.get s.name).isPresent = true := by
    simp [List.find?_eq_none, isMissing]
  rw [← hnone, requireAll_eq]
  cases steps.find? (isMissing fields) <;> simp

/-- A value is refused for what is not a struct or lacks a required field, and is otherwise put step
by step. -/
theorem putValue_eq (l : RecordLayout) (putFlags : Nat → CursorM Unit)
    (put : FieldStep → Value → CursorM Unit) (v : Value) :
    l.putValue putFlags put v =
      match v.toFields with
      | .error e => throw e
      | .ok fields =>
        match l.steps.find? (isMissing fields) with
        | some s => throw (.missingRequiredField l.fqn s.name)
        | none =>
          putSteps l.flagsPosition (putFlags (l.flags fields))
            (fun s => if s.isWritten (l.flags fields) then put s (fields.get s.name) else pure ())
            0 l.steps := by
  unfold putValue
  cases v.toFields with
  | error e => rfl
  | ok fields =>
    rw [ofExcept_ok, pure_bind, requireAll_eq]
    dsimp only
    cases l.steps.find? (isMissing fields) <;> rfl

theorem putSteps_cons (position : Option Nat) (putFlags : CursorM Unit)
    (put : FieldStep → CursorM Unit) (i : Nat) (s : FieldStep) (rest : List FieldStep) :
    putSteps position putFlags put i (s :: rest) =
      (if position = some i then putFlags else pure ()) >>= fun _ =>
        put s >>= fun _ => putSteps position putFlags put (i + 1) rest := by
  rw [putSteps]
  split <;> rfl

section Composable

variable {R : CursorM Unit → CursorM Unit → Prop} {member : FieldStep → Codec}

/-- The passes over the flags, where they stand. -/
theorem composable_flags (hR : Composable R) (position : Option Nat) (flags i : Nat) :
    R (if position = some i then Varint.reserve flags else pure ())
      (if position = some i then Varint.write flags else pure ()) := by
  split
  · exact Varint.composable_varint hR flags
  · exact hR.nothing

/-- The passes over one field. -/
theorem composable_field (hR : Composable R) {s : FieldStep}
    (h : ∀ v, R ((member s).reserve v) ((member s).write v)) (flags : Nat) (v : Value) :
    R (if s.isWritten flags then (member s).reserve v else pure ())
      (if s.isWritten flags then (member s).write v else pure ()) := by
  split
  · exact h v
  · exact hR.nothing

theorem composable_putSteps (hR : Composable R) {steps : List FieldStep}
    (h : ∀ s ∈ steps, ∀ v, R ((member s).reserve v) ((member s).write v)) (position : Option Nat)
    (flags i : Nat) (fields : Fields) :
    R
      (putSteps position (Varint.reserve flags)
        (fun s => if s.isWritten flags then (member s).reserve (fields.get s.name) else pure ()) i
        steps)
      (putSteps position (Varint.write flags)
        (fun s => if s.isWritten flags then (member s).write (fields.get s.name) else pure ()) i
        steps) := by
  induction steps generalizing i with
  | nil => exact composable_flags hR position flags i
  | cons s rest ih =>
    rw [putSteps_cons, putSteps_cons]
    have hrest := ih (fun s' hs' => h s' (List.mem_cons_of_mem _ hs')) (i + 1)
    exact hR.bind (composable_flags hR position flags i)
      (hR.bind (composable_field hR (h s List.mem_cons_self) flags _) hrest)

theorem composable_record (hR : Composable R) {l : RecordLayout}
    (h : ∀ s ∈ l.steps, ∀ v, R ((member s).reserve v) ((member s).write v)) (v : Value) :
    R ((l.codec member).reserve v) ((l.codec member).write v) :=
  hR.ofExcept _ fun fields _ => hR.ofExcept _ fun _ _ =>
    composable_putSteps hR h l.flagsPosition (l.flags fields) 0 fields

end Composable

theorem regular_record {l : RecordLayout} {member : FieldStep → Codec}
    (h : ∀ s ∈ l.steps, (member s).Regular) : (l.codec member).Regular :=
  composable_record composable_tandem h

/-- The bytes of the flags, where they stand. -/
def flagBytes (position : Option Nat) (flags i : Nat) : Bytes :=
  if position = some i then Varint.bytes flags else []

theorem yields_flagBytes (position : Option Nat) (flags i : Nat) :
    CursorM.Yields (if position = some i then Varint.reserve flags else pure ())
      (if position = some i then Varint.write flags else pure ()) (flagBytes position flags i) := by
  unfold flagBytes
  split
  · exact Varint.yields_bytes flags
  · exact yields_pure

/-- The bytes of the fields of a value, step by step; a field that is not written has none. -/
inductive YieldsSteps (member : FieldStep → Codec) (flags : Nat) (fields : Fields) :
    List FieldStep → List Bytes → Prop
  | nil : YieldsSteps member flags fields [] []
  | written {s : FieldStep} {b : Bytes} {steps : List FieldStep} {bs : List Bytes}
      (hs : s.isWritten flags = true) (head : (member s).Yields (fields.get s.name) b)
      (tail : YieldsSteps member flags fields steps bs) :
      YieldsSteps member flags fields (s :: steps) (b :: bs)
  | skipped {s : FieldStep} {steps : List FieldStep} {bs : List Bytes}
      (hs : s.isWritten flags = false) (tail : YieldsSteps member flags fields steps bs) :
      YieldsSteps member flags fields (s :: steps) ([] :: bs)

/-- The bytes of the steps from an index on, with the flags at their position. -/
def stepBytes (position : Option Nat) (flags : Nat) : Nat → List Bytes → Bytes
  | i, [] => flagBytes position flags i
  | i, b :: rest => flagBytes position flags i ++ b ++ stepBytes position flags (i + 1) rest

theorem length_le_stepBytes (position : Option Nat) (flags i : Nat) {bs : List Bytes} {b : Bytes}
    (h : b ∈ bs) : b.length ≤ (stepBytes position flags i bs).length := by
  induction bs generalizing i with
  | nil => cases h
  | cons x rest ih =>
    rw [stepBytes, List.length_append, List.length_append]
    rcases List.mem_cons.mp h with rfl | h
    · omega
    · have := ih (i + 1) h
      omega

theorem putSteps_yields_inv {member : FieldStep → Codec} {steps : List FieldStep}
    (h : ∀ s ∈ steps, (member s).Regular) {position : Option Nat} {flags i : Nat}
    {fields : Fields} {bytes : Bytes}
    (hy : CursorM.Yields
      (putSteps position (Varint.reserve flags)
        (fun s => if s.isWritten flags then (member s).reserve (fields.get s.name) else pure ()) i
        steps)
      (putSteps position (Varint.write flags)
        (fun s => if s.isWritten flags then (member s).write (fields.get s.name) else pure ()) i
        steps) bytes) :
    ∃ bs, bytes = stepBytes position flags i bs ∧ YieldsSteps member flags fields steps bs := by
  induction steps generalizing i bytes with
  | nil => exact ⟨[], hy.unique (yields_flagBytes position flags i), .nil⟩
  | cons s rest ih =>
    have hrest : ∀ s' ∈ rest, (member s').Regular := fun s' hs' => h s' (List.mem_cons_of_mem _ hs')
    have hflags := composable_flags composable_tandem position flags i
    have hfield := composable_field composable_tandem (h s List.mem_cons_self) flags
      (fields.get s.name)
    have htail := composable_putSteps composable_tandem hrest position flags (i + 1) fields
    rw [putSteps_cons, putSteps_cons] at hy
    obtain ⟨a, more, rfl, ha, hy⟩ := yields_bind_inv hflags (hfield.bind htail) hy
    obtain ⟨b, c, rfl, hb, hc⟩ := yields_bind_inv hfield htail hy
    obtain ⟨bs, rfl, hbs⟩ := ih hrest hc
    obtain rfl := ha.unique (yields_flagBytes position flags i)
    refine ⟨b :: bs, by rw [stepBytes, List.append_assoc], ?_⟩
    cases hw : s.isWritten flags with
    | true =>
      rw [hw] at hb
      exact .written hw hb hbs
    | false =>
      rw [hw] at hb
      obtain rfl := hb.unique yields_pure
      exact .skipped hw hbs

/-- What a record writes: the fields of the value one after the other, with the flags at their
position. -/
theorem record_yields_inv {l : RecordLayout} {member : FieldStep → Codec}
    (h : ∀ s ∈ l.steps, (member s).Regular) {v : Value} {bytes : Bytes}
    (hy : (l.codec member).Yields v bytes) :
    ∃ fields bs, v.toFields = .ok fields ∧ l.requireAll fields l.steps = .ok () ∧
      bytes = stepBytes l.flagsPosition (l.flags fields) 0 bs ∧
      YieldsSteps member (l.flags fields) fields l.steps bs := by
  obtain ⟨fields, hf, hy⟩ := yields_ofExcept_inv hy
  obtain ⟨⟨⟩, hr, hy⟩ := yields_ofExcept_inv hy
  obtain ⟨bs, hbytes, hbs⟩ := putSteps_yields_inv h hy
  exact ⟨fields, bs, hf, hr, hbytes, hbs⟩

/-! ## Reading -/

/-- Reads the flags, unless the input has ended. -/
def readFlags : CursorM (Option Nat) := do
  if (← get).isExhausted then return none else return some (← Varint.read)

theorem confined_readFlags : Confined readFlags := by
  refine (outcome_get
    (g := fun w => if w = [] then pure none else do return some (← Varint.read))
    (fun c hc => ?_) fun w => ?_).confined
  · by_cases hw : c.window = []
    · rw [if_pos hw, if_pos ((Cursor.isExhausted_iff hc).mpr hw)]
    · rw [if_neg hw, if_neg fun h => hw ((Cursor.isExhausted_iff hc).mp h)]
  · split
    · exact confined_pure _
    · exact confined_bind Varint.confined_varint fun _ => confined_pure _

theorem flagsAt_here {l : RecordLayout} {i : Nat} (h : l.flagsPosition = some i) (known : Nat) :
    l.flagsAt i known = readFlags := by
  rw [flagsAt, if_pos h]
  rfl

theorem flagsAt_elsewhere {l : RecordLayout} {i : Nat} (h : l.flagsPosition ≠ some i)
    (known : Nat) : l.flagsAt i known = pure (some known) := by
  rw [flagsAt, if_neg h]

theorem parse_readFlags_nil : readFlags.parse [] = .ok (none, 0) := by
  rw [readFlags, parse_get]
  rfl

theorem parse_readFlags {w : Bytes} (hw : w ≠ []) :
    readFlags.parse w = (Varint.read.parse w).map fun p => (some p.1, p.2) := by
  have hleft : ¬ (Cursor.ofBytes w).isExhausted = true := by
    rw [Cursor.isExhausted_iff (Cursor.wellFormed_ofBytes w), Cursor.window_ofBytes]
    exact hw
  rw [readFlags, parse_get, if_neg hleft]
  cases hv : Varint.read.parse w with
  | error e => rw [parse_bind_error hv]; rfl
  | ok p => rw [parse_bind_ok Varint.confined_varint (fun _ => confined_pure _) hv]; rfl

theorem confined_flagsAt (l : RecordLayout) (i known : Nat) : Confined (l.flagsAt i known) := by
  by_cases h : l.flagsPosition = some i
  · rw [flagsAt_here h]
    exact confined_readFlags
  · rw [flagsAt_elsewhere h]
    exact confined_pure _

/-- Flags that were read took at least one byte. -/
theorem parse_flagsAt_pos {l : RecordLayout} {i known flags k : Nat} {w : Bytes}
    (h : (l.flagsAt i known).parse w = .ok (some flags, k)) (hne : flags ≠ known) : 0 < k := by
  by_cases hp : l.flagsPosition = some i
  · rw [flagsAt_here hp] at h
    by_cases hw : w = []
    · rw [hw, parse_readFlags_nil] at h
      cases h
    · rw [parse_readFlags hw] at h
      cases hv : Varint.read.parse w with
      | error e => rw [hv] at h; cases h
      | ok p =>
        rw [hv] at h
        cases h
        exact Varint.parse_varint_pos hv
  · rw [flagsAt_elsewhere hp, parse_pure] at h
    cases h
    exact absurd rfl hne

theorem confined_readField {member : FieldStep → Codec} {s : FieldStep}
    (h : Confined (member s).read) (flags : Nat) (fields : Fields) :
    Confined (readField member s flags fields) := by
  unfold readField
  split
  · exact confined_pure _
  · split
    · exact confined_bind h fun _ => confined_pure _
    · exact confined_pure _

theorem onward_readField {member : FieldStep → Codec} {s : FieldStep}
    (h : Onward (member s).read) (flags : Nat) (fields : Fields) :
    Onward (readField member s flags fields) := by
  unfold readField
  split
  · exact (confined_pure _).onward
  · split
    · exact onward_bind h fun _ => (confined_pure _).onward
    · exact (confined_pure _).onward

theorem readSteps_cons (l : RecordLayout) (member : FieldStep → Codec) (i flags : Nat)
    (fields : Fields) (s : FieldStep) (rest : List FieldStep) :
    l.readSteps member i flags fields (s :: rest) =
      l.flagsAt i flags >>= fun
        | none => pure fields
        | some flags =>
          readField member s flags fields >>= fun fields =>
            l.readSteps member (i + 1) flags fields rest := rfl

theorem confined_readSteps {l : RecordLayout} {member : FieldStep → Codec}
    {steps : List FieldStep} (h : ∀ s ∈ steps, Confined (member s).read) (i flags : Nat)
    (fields : Fields) : Confined (l.readSteps member i flags fields steps) := by
  induction steps generalizing i flags fields with
  | nil => exact confined_bind (confined_flagsAt l i flags) fun _ => confined_pure _
  | cons s rest ih =>
    rw [readSteps_cons]
    refine confined_bind (confined_flagsAt l i flags) fun r => ?_
    cases r with
    | none => exact confined_pure _
    | some flags =>
      exact confined_bind (confined_readField (h s List.mem_cons_self) flags fields) fun fields =>
        ih (fun s' hs' => h s' (List.mem_cons_of_mem _ hs')) (i + 1) flags fields

theorem confined_record {l : RecordLayout} {member : FieldStep → Codec}
    (h : ∀ s ∈ l.steps, Confined (member s).read) : Confined (l.codec member).read :=
  confined_bind (confined_readSteps h 0 0 l.defaults) fun _ => confined_pure _

theorem onward_readSteps {l : RecordLayout} {member : FieldStep → Codec}
    {steps : List FieldStep} (h : ∀ s ∈ steps, Onward (member s).read) (i flags : Nat)
    (fields : Fields) : Onward (l.readSteps member i flags fields steps) := by
  induction steps generalizing i flags fields with
  | nil => exact onward_bind (confined_flagsAt l i flags).onward fun _ => (confined_pure _).onward
  | cons s rest ih =>
    rw [readSteps_cons]
    refine onward_bind (confined_flagsAt l i flags).onward fun r => ?_
    cases r with
    | none => exact (confined_pure _).onward
    | some flags =>
      exact onward_bind (onward_readField (h s List.mem_cons_self) flags fields) fun fields =>
        ih (fun s' hs' => h s' (List.mem_cons_of_mem _ hs')) (i + 1) flags fields

theorem onward_record {l : RecordLayout} {member : FieldStep → Codec}
    (h : ∀ s ∈ l.steps, Onward (member s).read) : Onward (l.codec member).read :=
  onward_bind (onward_readSteps h 0 0 l.defaults) fun _ => (confined_pure _).onward

/-- After the last step only the flags may be left to read. -/
theorem parse_readSteps_nil {l : RecordLayout} {member : FieldStep → Codec} {i flags k : Nat}
    {fields : Fields} {w : Bytes} {r : Option Nat} (h : (l.flagsAt i flags).parse w = .ok (r, k)) :
    (l.readSteps member i flags fields []).parse w = .ok (fields, k) := by
  rw [readSteps, parse_bind_ok (confined_flagsAt l i flags) (fun _ => confined_pure _) h]
  rfl

/-- Input that ends where the flags would stand leaves the fields as they are. -/
theorem parse_readSteps_end {l : RecordLayout} {member : FieldStep → Codec}
    {steps : List FieldStep} (hc : ∀ s ∈ steps, Confined (member s).read) {i flags k : Nat}
    {fields : Fields} {w : Bytes} (h : (l.flagsAt i flags).parse w = .ok (none, k)) :
    (l.readSteps member i flags fields steps).parse w = .ok (fields, k) := by
  cases steps with
  | nil => exact parse_readSteps_nil h
  | cons s rest =>
    rw [readSteps_cons, parse_bind_ok (confined_flagsAt l i flags) ?_ h]
    · rfl
    · intro r
      cases r with
      | none => exact confined_pure _
      | some flags =>
        exact confined_bind (confined_readField (hc s List.mem_cons_self) flags fields) fun _ =>
          confined_readSteps (fun s' hs' => hc s' (List.mem_cons_of_mem _ hs')) _ _ _

/-- A step is read after the flags, and the further steps after it. -/
theorem parse_readSteps_cons {l : RecordLayout} {member : FieldStep → Codec} {s : FieldStep}
    {rest : List FieldStep} (hc : ∀ s' ∈ s :: rest, Confined (member s').read) {i known flags k : Nat}
    {fields : Fields} {w : Bytes} (h : (l.flagsAt i known).parse w = .ok (some flags, k)) :
    (l.readSteps member i known fields (s :: rest)).parse w =
      shift k ((readField member s flags fields >>= fun fields =>
        l.readSteps member (i + 1) flags fields rest).parse (w.drop k)) := by
  rw [readSteps_cons, parse_bind_ok (confined_flagsAt l i known) ?_ h]
  intro r
  cases r with
  | none => exact confined_pure _
  | some flags =>
    exact confined_bind (confined_readField (hc s List.mem_cons_self) flags fields) fun _ =>
      confined_readSteps (fun s' hs' => hc s' (List.mem_cons_of_mem _ hs')) _ _ _

theorem parse_readSteps_error {l : RecordLayout} {member : FieldStep → Codec}
    {steps : List FieldStep} {i flags : Nat} {fields : Fields} {w : Bytes} {e : CodecError}
    (h : (l.flagsAt i flags).parse w = .error e) :
    (l.readSteps member i flags fields steps).parse w = .error e := by
  cases steps with
  | nil => exact parse_bind_error h
  | cons s rest => exact parse_bind_error h

theorem runFrom_readField_congr {member member' : FieldStep → Codec} {s : FieldStep}
    {flags : Nat} {fields : Fields} {d : Cursor}
    (h : s.isWritten flags = true → (member' s).read.runFrom d = (member s).read.runFrom d) :
    (readField member' s flags fields).runFrom d = (readField member s flags fields).runFrom d := by
  unfold readField
  split
  · rfl
  · split
    · rename_i hw
      rw [runFrom_bind, runFrom_bind, h hw]
    · rfl

/-- Optional fields are read behind a byte: they are announced by flags, and flags take a byte. -/
theorem runFrom_readSteps_congr {l : RecordLayout} {member member' : FieldStep → Codec}
    {steps : List FieldStep} (hc : ∀ s ∈ steps, Onward (member s).read) {c : Cursor}
    (hcw : c.WellFormed)
    (hreq : ∀ s ∈ steps, s.optional = false → ∀ d, c.Ahead 0 d →
      (member' s).read.runFrom d = (member s).read.runFrom d)
    (hopt : ∀ s ∈ steps, s.optional = true → ∀ d, c.Ahead 1 d →
      (member' s).read.runFrom d = (member s).read.runFrom d)
    {i flags : Nat} {fields : Fields} {d : Cursor} (hd : c.Ahead 0 d)
    (hflags : flags ≠ 0 → c.Ahead 1 d) :
    (l.readSteps member' i flags fields steps).runFrom d =
      (l.readSteps member i flags fields steps).runFrom d := by
  induction steps generalizing i flags fields d with
  | nil => rfl
  | cons s rest ih =>
    rw [readSteps_cons, readSteps_cons]
    refine runFrom_bind_congr (confined_flagsAt l i flags) (hd.wellFormed hcw) rfl
      fun r k hp hk => ?_
    cases r with
    | none => rfl
    | some found =>
      have hstill := hk.mono (Nat.zero_le k)
      have hd' : c.Ahead 0 (d.advance k) := hd.trans hstill
      have hfound : found ≠ 0 → c.Ahead 1 (d.advance k) := by
        intro hne
        by_cases hsame : found = flags
        · exact (hflags (hsame ▸ hne)).trans hstill
        · exact hd.trans (hk.mono (parse_flagsAt_pos hp hsame))
      refine runFrom_bind_onward (onward_readField (hc s List.mem_cons_self) found fields)
        (hd'.wellFormed hcw) (runFrom_readField_congr fun hwritten => ?_) fun fields' j hj => ?_
      · cases hs : s.optional with
        | false => exact hreq s List.mem_cons_self hs _ hd'
        | true =>
          refine hopt s List.mem_cons_self hs _ (hfound ?_)
          rintro rfl
          simp [FieldStep.isWritten, hs] at hwritten
      · have hnext := hj.mono (Nat.zero_le j)
        exact ih (fun s' hs' => hc s' (List.mem_cons_of_mem _ hs'))
          (fun s' hs' => hreq s' (List.mem_cons_of_mem _ hs'))
          (fun s' hs' => hopt s' (List.mem_cons_of_mem _ hs')) (hd'.trans hnext)
          fun hne => (hfound hne).trans hnext

theorem runFrom_record_congr {l : RecordLayout} {member member' : FieldStep → Codec}
    (hc : ∀ s ∈ l.steps, Onward (member s).read) {d : Cursor} (hd : d.WellFormed)
    (hreq : ∀ s ∈ l.steps, s.optional = false → ∀ d', d.Ahead 0 d' →
      (member' s).read.runFrom d' = (member s).read.runFrom d')
    (hopt : ∀ s ∈ l.steps, s.optional = true → ∀ d', d.Ahead 1 d' →
      (member' s).read.runFrom d' = (member s).read.runFrom d') :
    (l.codec member').read.runFrom d = (l.codec member).read.runFrom d := by
  have hsteps : (l.readSteps member' 0 0 l.defaults l.steps).runFrom d =
      (l.readSteps member 0 0 l.defaults l.steps).runFrom d :=
    runFrom_readSteps_congr hc hd hreq hopt hd.ahead fun h => absurd rfl h
  unfold codec
  rw [runFrom_bind, runFrom_bind, hsteps]

end RecordLayout

end WireSchema

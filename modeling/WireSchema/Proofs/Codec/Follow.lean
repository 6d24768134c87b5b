import WireSchema.Proofs.Codec.Choice
import WireSchema.Proofs.Codec.ReadBack
import WireSchema.Proofs.Codec.Tagged

/-!
# Readers that follow others

One codec follows another on a byte string when it reads it to the same end, and as the same value
up to a given change (`Codec.Follows`).  Frames, sequences and tagged payloads follow when their
parts do, a choice with further keys follows the one without them, and a record with further
optional fields follows the one without them (`follows_record`).  A record that gains flags follows
only where the input ends behind it: in front of anything else it takes the next bytes for its flags
(`parse_record_gained`).
-/

namespace WireSchema

open CursorM

namespace Value

/-- The value with a change to each of its items. -/
def mapItems (g : Value → Value) : Value → Value
  | .array items => .array (items.map g)
  | v => v

/-- The value with a change to each of its fields, and with further fields. -/
def amend (g : String → Value → Value) (added : Fields) : Value → Value
  | .struct fields => .struct (Assoc.insertAll (fields.map fun p => (p.1, g p.1 p.2)) added)
  | v => v

end Value

namespace Codec

variable {c c' : Codec} {up : Value → Value} {b : Bytes} {framed : Bool}

/-- When the first codec reads the bytes it reads them to their end, and the second does so too and
gets the value with a change.  Bytes that stand alone in a frame are followed by nothing. -/
def Follows (framed : Bool) (c c' : Codec) (up : Value → Value) (b : Bytes) : Prop :=
  ∀ rest, (framed = true → rest = []) → ∀ w k, c.read.parse (b ++ rest) = .ok (w, k) →
    k = b.length ∧ c'.read.parse (b ++ rest) = .ok (up w, b.length)

/-- Bytes without a frame are followed whatever stands behind them. -/
theorem Follows.unframed (h : Follows false c c' up b) {rest : Bytes} {w : Value} {k : Nat}
    (hp : c.read.parse (b ++ rest) = .ok (w, k)) :
    k = b.length ∧ c'.read.parse (b ++ rest) = .ok (up w, b.length) :=
  h rest (fun hframed => absurd hframed Bool.false_ne_true) w k hp

theorem Follows.at_end (h : Follows false c c' up b) : Follows framed c c' up b :=
  fun _ _ _ _ hp => h.unframed hp

theorem follows_frame (hc : Confined c.read) (hc' : Confined c'.read) (hb : b.Fits)
    (h : Follows true c c' up b) :
    Follows false c.frame c'.frame up (Varint.bytes b.length ++ b) := by
  intro rest _ w k hp
  rw [parse_frame_append hc hb] at hp
  rw [parse_frame_append hc' hb]
  cases hread : c.read.parse b with
  | error e => rw [hread] at hp; cases hp
  | ok p =>
    obtain ⟨u, j⟩ := p
    rw [hread] at hp
    cases hp
    have halone := h [] (fun _ => rfl) u j
    rw [List.append_nil] at halone
    rw [(halone hread).2]
    exact ⟨rfl, rfl⟩

theorem follows_items (hc : Confined c.read) (hc' : Confined c'.read) {bs : List Bytes}
    (h : ∀ x ∈ bs, Follows false c c' up x) (scarce : Bool) (rest : Bytes) {ws : List Value}
    {k : Nat} (hp : (c.readItems scarce bs.length).parse (bs.flatten ++ rest) = .ok (ws, k)) :
    k = bs.flatten.length ∧ (c'.readItems scarce bs.length).parse (bs.flatten ++ rest) =
      .ok (ws.map up, bs.flatten.length) := by
  induction bs generalizing ws k with
  | nil =>
    cases hp
    exact ⟨rfl, rfl⟩
  | cons x bs ih =>
    rw [List.length_cons, List.flatten_cons, List.append_assoc, parse_readItems_succ hc] at hp
    rw [List.length_cons, List.flatten_cons, List.append_assoc, parse_readItems_succ hc',
      List.length_append]
    cases hx : c.read.parse (x ++ (bs.flatten ++ rest)) with
    | error e => rw [hx] at hp; cases hp
    | ok p =>
      obtain ⟨w, j⟩ := p
      rw [hx] at hp
      obtain ⟨rfl, hx'⟩ := (h x List.mem_cons_self).unframed hx
      rw [hx']
      dsimp only at hp ⊢
      split at hp
      · cases hp
      · rename_i hfull
        rw [List.drop_left] at hp
        cases hrest : (c.readItems scarce bs.length).parse (bs.flatten ++ rest) with
        | error e => rw [hrest] at hp; cases hp
        | ok q =>
          obtain ⟨vs, m⟩ := q
          rw [hrest] at hp
          cases hp
          obtain ⟨rfl, htail⟩ := ih (fun y hy => h y (List.mem_cons_of_mem _ hy)) hrest
          rw [if_neg hfull, List.drop_left, htail]
          exact ⟨rfl, rfl⟩

theorem follows_sequence (hc : Confined c.read) (hc' : Confined c'.read) {bs : List Bytes}
    (hcount : bs.length < 0x10000000000000000) (h : ∀ x ∈ bs, Follows false c c' up x) :
    Follows false c.sequence c'.sequence (Value.mapItems up)
      (Varint.bytes bs.length ++ bs.flatten) := by
  intro rest _ w k hp
  have hn := Varint.parse_varint_append hcount (bs.flatten ++ rest)
  rw [← Varint.length_bytes] at hn
  rw [List.append_assoc, parse_sequence hc hn, List.drop_left] at hp
  rw [List.append_assoc, parse_sequence hc' hn, List.drop_left, List.length_append]
  cases hitems : (c.readItems (decide ((bs.flatten ++ rest).length < bs.length)) bs.length).parse
      (bs.flatten ++ rest) with
  | error e => rw [hitems] at hp; cases hp
  | ok p =>
    obtain ⟨ws, j⟩ := p
    rw [hitems] at hp
    cases hp
    obtain ⟨rfl, hitems'⟩ := follows_items hc hc' h _ rest hitems
    rw [hitems']
    exact ⟨rfl, rfl⟩

/-- Behind the tag of an entry without a migration stands its payload. -/
theorem parse_tagged_append {fqn : String} {entries : List VersionEntry}
    {payload : VersionEntry → Codec} {migration : String → Option (Value → Value)}
    (hc : ∀ e ∈ entries, Confined (payload e).read) {e : VersionEntry}
    (he : entryOfTag fqn entries e.version.toNat = .ok e) (hmap : e.map = none) (w : Bytes) :
    (tagged fqn entries payload migration).read.parse (Varint.bytes e.version.toNat ++ w) =
      shift (Varint.bytes e.version.toNat).length ((payload e).read.parse w) := by
  have htag := Varint.parse_varint_append e.version.toNat_lt w
  rw [← Varint.length_bytes] at htag
  have hmigrate (u : Value) : CursorM.ofExcept (migrate migration e u) = pure u := by
    rw [migrate, hmap]
    rfl
  rw [parse_tagged hc htag he, List.drop_left]
  simp only [hmigrate, bind_pure]

/-- Entries that are added later do not change how the payload of an earlier one is read. -/
theorem follows_tagged {fqn : String} {entries more : List VersionEntry}
    {payload payload' : VersionEntry → Codec}
    {migration migration' : String → Option (Value → Value)}
    (hc : ∀ e ∈ entries, Confined (payload e).read)
    (hc' : ∀ e ∈ entries ++ more, Confined (payload' e).read) (hasc : Ascending entries)
    {e : VersionEntry} (he : e ∈ entries) (hmap : e.map = none)
    (h : Follows framed (payload e) (payload' e) up b) :
    Follows framed (tagged fqn entries payload migration)
      (tagged fqn (entries ++ more) payload' migration') up
      (Varint.bytes e.version.toNat ++ b) := by
  intro rest hrest w k hp
  have hentry : entryOfTag fqn entries e.version.toNat = .ok e := entryOfTag_of_mem hasc he
  rw [List.append_assoc, parse_tagged_append hc hentry hmap] at hp
  rw [List.append_assoc, parse_tagged_append hc' (entryOfTag_append hentry) hmap]
  obtain ⟨j, hread, rfl⟩ := shift_eq_ok hp
  obtain ⟨rfl, hread'⟩ := h rest hrest w j hread
  rw [hread', List.length_append]
  exact ⟨rfl, rfl⟩

end Codec

/-! ## Leaves -/

theorem Primitive.follows_primitive {p : Primitive} (hraw : p ≠ .raw) {v : Value} {bytes : Bytes}
    (hy : p.codec.Yields v bytes) (hfits : bytes.Fits) :
    Codec.Follows false p.codec p.codec id bytes := by
  intro rest _ w k hp
  obtain ⟨ps, hps, rfl⟩ := Primitive.pieces_of_yields hy
  obtain ⟨r, hr⟩ := Primitive.parse_pieces_stable hraw hps hfits
  have hread : p.codec.read.parse (ps.flatten ++ rest) = _ := hr rest
  rw [hread] at hp ⊢
  cases r with
  | error e => cases hp
  | ok u =>
    cases hp
    exact ⟨rfl, rfl⟩

theorem Choice.follows_choice {e e' : Choice} (hstrings : e'.strings = e.strings)
    (hoffset : e'.offset = e.offset) (hkeys : e.keys <+: e'.keys) {v : Value} {bytes : Bytes}
    (hy : e.codec.Yields v bytes) (hfits : bytes.Fits) :
    Codec.Follows false e.codec e'.codec id bytes := by
  intro rest _ w k hp
  obtain rfl := Choice.parse_choice_length hy hfits hp
  exact ⟨rfl, Choice.parse_choice_extend hstrings hoffset hkeys hp⟩

/-! ## Records -/

namespace RecordLayout

section Bytes

variable {position position' : Option Nat} {flags i : Nat}

theorem leadBytes_congr {bs : List Bytes}
    (h : ∀ j, i ≤ j → j < i + bs.length → flagBytes position flags j = flagBytes position' flags j) :
    leadBytes position flags i bs = leadBytes position' flags i bs := by
  induction bs generalizing i with
  | nil => rfl
  | cons b bs ih =>
    rw [List.length_cons] at h
    rw [leadBytes, leadBytes, h i (Nat.le_refl i) (by omega),
      ih fun j hj hlt => h j (by omega) (by omega)]

theorem leadBytes_append (xs ys : List Bytes) :
    leadBytes position flags i (xs ++ ys) =
      leadBytes position flags i xs ++ leadBytes position flags (i + xs.length) ys := by
  induction xs generalizing i with
  | nil => rfl
  | cons x xs ih =>
    rw [List.cons_append, leadBytes, leadBytes, ih, List.length_cons, Nat.add_assoc, Nat.add_comm 1]
    simp only [List.append_assoc]

theorem flagBytes_of_lt {p : Nat} (hp : position = some p) (hlt : p < i) :
    flagBytes position flags i = [] := by
  unfold flagBytes
  rw [if_neg]
  intro heq
  rw [hp] at heq
  cases heq
  omega

/-- Steps without bytes that stand behind the flags add nothing. -/
theorem stepBytes_skipped (h : ∀ p, position = some p → p ≤ i) (extra : List FieldStep) :
    stepBytes position flags i (extra.map fun _ => []) = flagBytes position flags i := by
  induction extra generalizing i with
  | nil => rfl
  | cons s extra ih =>
    have hnext : flagBytes position flags (i + 1) = [] := by
      cases hp : position with
      | none => rfl
      | some p => exact flagBytes_of_lt rfl (Nat.lt_succ_of_le (h p hp))
    rw [List.map_cons, stepBytes, ih fun p hp => Nat.le_succ_of_le (h p hp), hnext,
      List.append_nil, List.append_nil]

end Bytes

section ReadsSteps

variable {member : FieldStep → Codec} {position position' : Option Nat} {flags : Nat} {more : Bytes}
  {i : Nat} {steps extra : List FieldStep} {bs : List Bytes} {ws : List (Option Value)}

/-- Steps are read the same when the flags stand elsewhere but not among them. -/
theorem ReadsSteps.reposition (h : ReadsSteps member position flags more i steps bs ws)
    (heq : ∀ j, i < j → j < i + steps.length →
      flagBytes position flags j = flagBytes position' flags j) :
    ReadsSteps member position' flags more i steps bs ws := by
  induction h with
  | nil => exact .nil
  | @written i s b w steps bs ws hs head tail ih =>
    rw [List.length_cons] at heq
    have hlead : leadBytes position flags (i + 1) bs = leadBytes position' flags (i + 1) bs :=
      leadBytes_congr fun j hj hlt => heq j (by omega) (by rw [tail.length_eq.1] at hlt; omega)
    rw [hlead] at head
    exact .written hs head (ih fun j hj hlt => heq j (by omega) (by omega))
  | skipped hs tail ih =>
    rw [List.length_cons] at heq
    exact .skipped hs (ih fun j hj hlt => heq j (by omega) (by omega))

theorem readsSteps_skipped (h : ∀ s ∈ extra, s.isWritten flags = false) (i : Nat) :
    ReadsSteps member position flags more i extra (extra.map fun _ => [])
      (extra.map fun _ => none) := by
  induction extra generalizing i with
  | nil => exact .nil
  | cons s extra ih =>
    exact .skipped (h s List.mem_cons_self) (ih (fun s' hs' => h s' (List.mem_cons_of_mem _ hs')) _)

/-- Further steps that are not written are read from no bytes. -/
theorem ReadsSteps.append_skipped {before : Bytes}
    (h : ReadsSteps member position flags before i steps bs ws)
    (hbefore : before =
      leadBytes position flags (i + steps.length) (extra.map fun _ => []) ++ more)
    (hextra : ∀ s ∈ extra, s.isWritten flags = false) :
    ReadsSteps member position flags more i (steps ++ extra) (bs ++ extra.map fun _ => [])
      (ws ++ extra.map fun _ => none) := by
  induction h with
  | nil => exact readsSteps_skipped hextra _
  | @written i s b w steps bs ws hs head tail ih =>
    rw [List.length_cons, Nat.add_comm steps.length, ← Nat.add_assoc] at hbefore
    simp only [List.cons_append]
    refine .written hs ?_ (ih hbefore)
    rw [leadBytes_append, tail.length_eq.1, List.append_assoc, ← hbefore]
    exact head
  | @skipped i s steps bs ws hs tail ih =>
    rw [List.length_cons, Nat.add_comm steps.length, ← Nat.add_assoc] at hbefore
    exact .skipped hs (ih hbefore)

end ReadsSteps

section Follow

variable {member member' : FieldStep → Codec} {g : String → Value → Value} {flags : Nat}

/-- A field that is written is followed, and a field that is not has no bytes. -/
def FollowsStep (member member' : FieldStep → Codec) (g : String → Value → Value) (flags : Nat)
    (s : FieldStep) (b : Bytes) : Prop :=
  if s.isWritten flags then Codec.Follows false (member s) (member' s) (g s.name) b else b = []

/-- The values of the fields with the change that goes with each name. -/
def changed (g : String → Value → Value) (steps : List FieldStep) (ws : List (Option Value)) :
    List (Option Value) :=
  List.zipWith (fun s w => w.map (g s.name)) steps ws

theorem readField_written {s : FieldStep} (h : s.isWritten flags = true) (fields : Fields) :
    readField member s flags fields =
      (member s).read >>= fun v => pure (Assoc.insert s.name v fields) := by
  have honly : s.flagOnly = false := by
    cases hf : s.flagOnly with
    | true => simp [FieldStep.isWritten, hf] at h
    | false => rfl
  rw [readField, honly, if_neg (by decide), if_pos h]

/-- When a record reads its own bytes, it reads each field where it stands. -/
theorem readsSteps_of_parse {l : RecordLayout} (hflags : flags < 0x10000000000000000)
    {steps : List FieldStep} {bs : List Bytes}
    (h : List.Forall₂ (FollowsStep member member' g flags) steps bs)
    (hc : ∀ s ∈ steps, Confined (member s).read) {i known : Nat} {fields : Fields}
    (hready : Ready l i steps flags known fields) {more : Bytes} {r : Fields} {n : Nat}
    (hp : (l.readSteps member i known fields steps).parse
      (leadBytes l.flagsPosition flags i bs ++ more) = .ok (r, n)) :
    ∃ ws, ReadsSteps member l.flagsPosition flags more i steps bs ws := by
  induction h generalizing i known fields n with
  | nil => exact ⟨[], .nil⟩
  | @cons s b steps bs head tail ih =>
    have hcs : Confined (member s).read := hc s List.mem_cons_self
    have hcrest : ∀ s' ∈ steps, Confined (member s').read := fun s' hs' =>
      hc s' (List.mem_cons_of_mem _ hs')
    rw [leadBytes, List.append_assoc, List.append_assoc,
      parse_readSteps_cons hc (parse_flagsAt_append l hflags i known _), List.drop_left,
      hready.announced.readField_eq] at hp
    obtain ⟨_, hsteps, -⟩ := shift_eq_ok hp
    obtain ⟨fields', k, _, hfield, hrest, -⟩ := parse_bind_inv (confined_readField hcs _ _)
      (fun _ => confined_readSteps hcrest _ _ _) hsteps
    unfold FollowsStep at head
    cases hs : s.isWritten flags with
    | true =>
      rw [hs, if_pos rfl] at head
      rw [readField_written hs] at hfield
      obtain ⟨v, j, _, hv, hinsert, rfl⟩ := parse_bind_inv hcs (fun _ => confined_pure _) hfield
      rw [parse_pure] at hinsert
      cases hinsert
      obtain ⟨rfl, -⟩ := head.unframed hv
      simp only [Nat.add_zero, List.drop_left] at hrest
      obtain ⟨ws, hws⟩ := ih hcrest (hready.tail v) hrest
      exact ⟨some v :: ws, .written hs hv hws⟩
    | false =>
      rw [hs, if_neg (by decide)] at head
      subst head
      have hheld : (readField member s flags fields).parse
          ([] ++ (leadBytes l.flagsPosition flags (i + 1) bs ++ more)) =
          .ok (Assoc.insert s.name (heldValue flags s none) fields, 0) :=
        parse_readField hcs (fun hwritten => absurd (hs.symm.trans hwritten) (by decide))
          (fun _ => ⟨rfl, rfl⟩) hready.sorted (hready.defaults s List.mem_cons_self)
      rw [hheld] at hfield
      cases hfield
      rw [List.nil_append, List.drop_zero] at hrest
      obtain ⟨ws, hws⟩ := ih hcrest (hready.tail _) hrest
      exact ⟨none :: ws, .skipped hs hws⟩

/-- The fields that were written are followed when what is written for each is. -/
theorem forall₂_of_yields {writer : FieldStep → Codec} {fields : Fields} {steps : List FieldStep}
    {bs : List Bytes} (hy : YieldsSteps writer flags fields steps bs) (hfits : ∀ x ∈ bs, x.Fits)
    (h : ∀ s ∈ steps, ∀ b, b.Fits → (writer s).Yields (fields.get s.name) b →
      Codec.Follows false (member s) (member' s) (g s.name) b) :
    List.Forall₂ (FollowsStep member member' g flags) steps bs := by
  induction hy with
  | nil => exact .nil
  | @written s b steps bs hs head tail ih =>
    refine .cons ?_ (ih (fun x hx => hfits x (List.mem_cons_of_mem _ hx)) fun s' hs' =>
      h s' (List.mem_cons_of_mem _ hs'))
    rw [FollowsStep, if_pos hs]
    exact h s List.mem_cons_self b (hfits b List.mem_cons_self) head
  | @skipped s steps bs hs tail ih =>
    refine .cons ?_ (ih (fun x hx => hfits x (List.mem_cons_of_mem _ hx)) fun s' hs' =>
      h s' (List.mem_cons_of_mem _ hs'))
    rw [FollowsStep, if_neg (by rw [hs]; decide)]

/-- Fields that are read by one codec are read by the codec that follows it. -/
theorem ReadsSteps.follow {position : Option Nat} {more : Bytes} {i : Nat} {steps : List FieldStep}
    {bs : List Bytes} {ws : List (Option Value)}
    (h : ReadsSteps member position flags more i steps bs ws)
    (hf : List.Forall₂ (FollowsStep member member' g flags) steps bs) :
    ReadsSteps member' position flags more i steps bs (changed g steps ws) := by
  induction h with
  | nil => exact .nil
  | written hs head tail ih =>
    cases hf with
    | cons hstep hrest =>
      rw [FollowsStep, if_pos hs] at hstep
      exact .written hs (hstep.unframed head).2 (ih hrest)
  | skipped hs tail ih =>
    cases hf with
    | cons hstep hrest => exact .skipped hs (ih hrest)

end Follow

/-! ### Grown records -/

theorem Bits.append {bit : Nat} {steps extra : List FieldStep} (h : Bits bit (steps ++ extra)) :
    Bits (bit + steps.countP (·.optional)) extra := by
  induction steps generalizing bit with
  | nil => exact h
  | cons s steps ih =>
    rw [List.cons_append, Bits] at h
    cases ho : s.optional with
    | true =>
      rw [ho, if_pos rfl] at h
      rw [List.countP_cons_of_pos ho, Nat.add_comm (List.countP _ steps), ← Nat.add_assoc]
      exact ih h.2
    | false =>
      rw [ho, if_neg (by decide)] at h
      rw [List.countP_cons_of_neg (by simp [ho])]
      exact ih h

/-- A record with further fields, all of them optional.  The flags stay where they stood, or stand
behind all earlier fields when there were none. -/
structure Grows (l l' : RecordLayout) (extra : List FieldStep) : Prop where
  steps : l'.steps = l.steps ++ extra
  optional : ∀ s ∈ extra, s.optional = true
  defaults : ∀ s ∈ extra, s.flagOnly = true → s.default = .bool false
  position : l'.flagsPosition = l.flagsPosition ∨
    l.flagsPosition = none ∧ l'.flagsPosition = some l.steps.length
  inside : ∀ p, l'.flagsPosition = some p → p ≤ l.steps.length

section Grows

variable {l l' : RecordLayout} {extra : List FieldStep} {member member' : FieldStep → Codec}
  {g : String → Value → Value} {fields : Fields} {bs : List Bytes} {ws : List (Option Value)}

/-- The flags of the record without the further fields have none of their bits. -/
theorem Grows.unset (h : Grows l l' extra) (hl : l.Sound) (hl' : l'.Sound) (fields : Fields)
    {s : FieldStep} (hs : s ∈ extra) : l.flags fields &&& s.flag = 0 := by
  have hbits := hl'.bits
  rw [h.steps] at hbits
  obtain ⟨k, hk, -, hflag⟩ := hbits.append.exists_bit hs (h.optional s hs)
  have hlt : l.flags fields < 2 ^ k :=
    Nat.lt_of_lt_of_le (RecordLayout.flags_lt hl.bits fields)
      (Nat.pow_le_pow_right (by decide) (by omega))
  rw [hflag, Nat.and_two_pow, Nat.testBit_lt_two_pow hlt, Bool.toNat_false, Nat.zero_mul]

theorem Grows.isWritten_eq (h : Grows l l' extra) (hl : l.Sound) (hl' : l'.Sound) (fields : Fields)
    {s : FieldStep} (hs : s ∈ extra) : s.isWritten (l.flags fields) = false := by
  simp [FieldStep.isWritten, h.optional s hs, h.unset hl hl' fields hs]

/-- The further fields hold their defaults. -/
theorem Grows.heldFields_eq (h : Grows l l' extra) (hl : l.Sound) (hl' : l'.Sound)
    (hws : ws.length = l.steps.length) :
    heldFields (l.flags fields) l'.steps (ws ++ extra.map fun _ => none) =
      heldFields (l.flags fields) l.steps ws ++ extra.map fun s => (s.name, s.default) := by
  have hextra : heldFields (l.flags fields) extra (extra.map fun _ => none) =
      extra.map fun s => (s.name, s.default) := by
    rw [heldFields, List.zipWith_map_right, List.zipWith_self]
    refine List.map_congr_left fun s hs => ?_
    rw [heldValue, h.unset hl hl' fields hs]
    cases honly : s.flagOnly with
    | true => rw [h.defaults s hs honly]; rfl
    | false => rfl
  rw [h.steps, heldFields, List.zipWith_append hws.symm]
  exact congrArg _ hextra

/-- A grown record reads the fields that there were before where they stand, with the flags of a
value that has no others. -/
theorem Grows.parse_steps (h : Grows l l' extra) (hl : l.Sound) (hl' : l'.Sound)
    (hc : ∀ s ∈ l'.steps, Confined (member' s).read) {more : Bytes}
    (hr : ReadsSteps member' l'.flagsPosition (l.flags fields)
      (flagBytes l'.flagsPosition (l.flags fields) l.steps.length ++ more) 0 l.steps bs ws) :
    (l'.codec member').read.parse (stepBytes l'.flagsPosition (l.flags fields) 0 bs ++ more) =
      .ok (.struct (Assoc.ofList (heldFields (l.flags fields) l.steps ws ++
        extra.map fun s => (s.name, s.default))),
        (stepBytes l'.flagsPosition (l.flags fields) 0 bs).length) := by
  have hlen := hr.length_eq
  have htail : leadBytes l'.flagsPosition (l.flags fields) l.steps.length (extra.map fun _ => []) ++
      flagBytes l'.flagsPosition (l.flags fields) (l.steps.length + extra.length) =
        flagBytes l'.flagsPosition (l.flags fields) l.steps.length := by
    rw [← stepBytes_skipped h.inside extra, stepBytes_eq, List.length_map]
  have hall : ReadsSteps member' l'.flagsPosition (l.flags fields)
      (flagBytes l'.flagsPosition (l.flags fields) (bs ++ extra.map fun _ => []).length ++ more) 0
      (l.steps ++ extra) (bs ++ extra.map fun _ => []) (ws ++ extra.map fun _ => none) := by
    refine hr.append_skipped ?_ fun s hs => h.isWritten_eq hl hl' fields hs
    rw [Nat.zero_add, ← List.append_assoc, List.length_append, List.length_map, hlen.1, htail]
  rw [← h.steps] at hall
  have hbytes : stepBytes l'.flagsPosition (l.flags fields) 0 (bs ++ extra.map fun _ => []) =
      stepBytes l'.flagsPosition (l.flags fields) 0 bs := by
    rw [stepBytes_eq, stepBytes_eq, leadBytes_append, List.append_assoc, List.length_append,
      List.length_map, Nat.zero_add, Nat.zero_add, hlen.1, htail]
  have hparse := parse_record_append hl' hc (hl.flags_lt fields) hall
  rw [hbytes, h.heldFields_eq hl hl' hlen.2] at hparse
  exact hparse

/-- What the fields of a record hold, with the change that goes with each, and further fields. -/
theorem amend_heldFields {flags : Nat} {steps : List FieldStep}
    (hheld : ∀ s ∈ steps, ∀ w, g s.name (heldValue flags s w) = heldValue flags s (w.map (g s.name)))
    (ws : List (Option Value)) (added : Fields) :
    Value.amend g added (.struct (Assoc.ofList (heldFields flags steps ws))) =
      .struct (Assoc.ofList (heldFields flags steps (changed g steps ws) ++ added)) := by
  have hmap : (heldFields flags steps ws).map (fun p => (p.1, g p.1 p.2)) =
      heldFields flags steps (changed g steps ws) := by
    induction steps generalizing ws with
    | nil => rfl
    | cons s steps ih =>
      cases ws with
      | nil => rfl
      | cons w ws =>
        rw [heldFields_cons, List.map_cons, ih (fun s' hs' => hheld s' (List.mem_cons_of_mem _ hs')),
          hheld s List.mem_cons_self]
        rfl
  rw [Value.amend, Assoc.map_ofList, hmap, Assoc.ofList_eq, ← Assoc.insertAll_append]
  rfl

/-- When a record reads its own bytes, it reads them to their end as the table of what its fields
hold. -/
theorem parse_record_inv (hl : l.Sound) (hc : ∀ s ∈ l.steps, Confined (member s).read)
    (hf : List.Forall₂ (FollowsStep member member' g (l.flags fields)) l.steps bs) {rest : Bytes}
    {w : Value} {k : Nat} (hp : (l.codec member).read.parse
      (stepBytes l.flagsPosition (l.flags fields) 0 bs ++ rest) = .ok (w, k)) :
    ∃ ws, ReadsSteps member l.flagsPosition (l.flags fields)
        (flagBytes l.flagsPosition (l.flags fields) l.steps.length ++ rest) 0 l.steps bs ws ∧
      w = .struct (Assoc.ofList (heldFields (l.flags fields) l.steps ws)) ∧
      k = (stepBytes l.flagsPosition (l.flags fields) 0 bs).length := by
  obtain ⟨r, _, _, hsteps, -⟩ := parse_bind_inv (confined_readSteps hc _ _ _)
    (fun _ => confined_pure _) hp
  rw [stepBytes_eq, List.append_assoc] at hsteps
  obtain ⟨ws, hws⟩ := readsSteps_of_parse (hl.flags_lt fields) hf hc
    (hl.ready _ (List.append_nil _).symm) hsteps
  rw [Nat.zero_add] at hws
  rw [parse_record_append hl hc (hl.flags_lt fields) hws] at hp
  cases hp
  exact ⟨ws, hws.length_eq.1 ▸ hws, rfl, rfl⟩

/-- Where flags are gained, the earlier fields stand before them. -/
theorem Grows.reposition (h : Grows l l' extra) {more : Bytes} {flags : Nat}
    (hr : ReadsSteps member' l.flagsPosition flags more 0 l.steps bs ws) :
    ReadsSteps member' l'.flagsPosition flags more 0 l.steps bs ws ∧
      leadBytes l'.flagsPosition flags 0 bs = leadBytes l.flagsPosition flags 0 bs := by
  have hsame (j : Nat) (hj : j < l.steps.length) :
      flagBytes l.flagsPosition flags j = flagBytes l'.flagsPosition flags j := by
    rcases h.position with heq | ⟨hnone, hsome⟩
    · rw [heq]
    · unfold flagBytes
      rw [hnone, hsome, if_neg (by simp), if_neg (by simp; omega)]
  refine ⟨hr.reposition fun j _ hj => hsame j (by omega), leadBytes_congr fun j _ hj => ?_⟩
  rw [hr.length_eq.1] at hj
  exact (hsame j (by omega)).symm

/-- A grown record reads what the record without the further fields reads.  Where it gains flags,
nothing may stand behind it. -/
theorem follows_record {framed : Bool} (h : Grows l l' extra) (hl : l.Sound) (hl' : l'.Sound)
    (hkept : framed = false → l'.flagsPosition = l.flagsPosition)
    (hc : ∀ s ∈ l.steps, Confined (member s).read)
    (hc' : ∀ s ∈ l'.steps, Confined (member' s).read)
    (hheld : ∀ s ∈ l.steps, ∀ w, g s.name (heldValue (l.flags fields) s w) =
      heldValue (l.flags fields) s (w.map (g s.name)))
    (hf : List.Forall₂ (FollowsStep member member' g (l.flags fields)) l.steps bs) :
    Codec.Follows framed (l.codec member) (l'.codec member')
      (Value.amend g (extra.map fun s => (s.name, s.default)))
      (stepBytes l.flagsPosition (l.flags fields) 0 bs) := by
  intro rest hrest w k hp
  obtain ⟨ws, hws, rfl, rfl⟩ := parse_record_inv hl hc hf hp
  refine ⟨rfl, ?_⟩
  rw [amend_heldFields hheld]
  have hread := hws.follow hf
  rcases h.position with hpos | ⟨hnone, hsome⟩
  · rw [← hpos] at hread ⊢
    exact h.parse_steps hl hl' hc' hread
  · -- flags that are gained are not there yet, so nothing else may be either
    cases framed with
    | false =>
      rw [hkept rfl, hnone] at hsome
      cases hsome
    | true =>
      obtain rfl := hrest rfl
      have hbytes : stepBytes l.flagsPosition (l.flags fields) 0 bs =
          leadBytes l'.flagsPosition (l.flags fields) 0 bs := by
        rw [stepBytes_eq, (h.reposition hread).2, hnone]
        exact List.append_nil _
      rw [List.append_nil, hbytes]
      have hempty : flagBytes l.flagsPosition (l.flags fields) l.steps.length ++ [] = [] := by
        rw [hnone]
        rfl
      rw [hempty] at hread
      exact parse_record_end hl' hc' (hl.flags_lt fields) h.steps hsome (h.reposition hread).1

/-- Where flags have no place there are none. -/
theorem Sound.flags_eq_zero (hl : l.Sound) (hnone : l.flagsPosition = none) (fields : Fields) :
    l.flags fields = 0 := by
  have hcount : l.steps.countP (·.optional) = 0 := by
    rw [List.countP_eq_zero]
    intro s hs ho
    obtain ⟨i, hi⟩ := List.getElem?_of_mem hs
    obtain ⟨p, -, hp⟩ := hl.placed i s hi ho
    rw [hnone] at hp
    cases hp
  have hlt := RecordLayout.flags_lt hl.bits fields
  rw [hcount] at hlt
  omega

/-- A record that gains flags takes a zero behind its bytes for them. -/
theorem parse_record_gained (h : Grows l l' extra) (hl : l.Sound) (hl' : l'.Sound)
    (hnone : l.flagsPosition = none) (hsome : l'.flagsPosition = some l.steps.length)
    (hc : ∀ s ∈ l.steps, Confined (member s).read)
    (hc' : ∀ s ∈ l'.steps, Confined (member' s).read)
    (hf : List.Forall₂ (FollowsStep member member' g (l.flags fields)) l.steps bs) {w : Value}
    {k : Nat} (hp : (l.codec member).read.parse
      (stepBytes l.flagsPosition (l.flags fields) 0 bs ++ [0]) = .ok (w, k)) :
    ∃ w', (l'.codec member').read.parse
        (stepBytes l.flagsPosition (l.flags fields) 0 bs ++ [0]) =
      .ok (w', (stepBytes l.flagsPosition (l.flags fields) 0 bs).length + 1) := by
  obtain ⟨ws, hws, -, -⟩ := parse_record_inv hl hc hf hp
  have hflags : flagBytes l'.flagsPosition (l.flags fields) l.steps.length = [0] := by
    rw [flagBytes, if_pos hsome, hl.flags_eq_zero hnone]
    decide
  have hfree : flagBytes l.flagsPosition (l.flags fields) l.steps.length = [] := by
    rw [hnone]
    rfl
  obtain ⟨hread, hlead⟩ := h.reposition (hws.follow hf)
  have hbytes : stepBytes l.flagsPosition (l.flags fields) 0 bs ++ [0] =
      stepBytes l'.flagsPosition (l.flags fields) 0 bs := by
    rw [stepBytes_eq, stepBytes_eq, hlead, Nat.zero_add, hws.length_eq.1, hflags, hfree,
      List.append_nil]
  rw [hfree, List.nil_append, ← hflags, ← List.append_nil (flagBytes _ _ _)] at hread
  have hgrown := h.parse_steps hl hl' hc' hread
  rw [List.append_nil, ← hbytes, List.length_append] at hgrown
  exact ⟨_, hgrown⟩

end Grows

end RecordLayout

end WireSchema

import Mathlib.Data.Nat.Bitwise
import WireSchema.Proofs.Basic
import WireSchema.Proofs.Codec.Record

/-!
# Records read back

The optional fields of a record have bits of their own in its flags, so the flags say of each
whether it is set (`flags_and_ne_zero_iff`).  When the fields that were written are read back where
they stand, the record is read as the table of what was read, of the bits of its bool fields, and of
defaults for the rest (`parse_record_append`); so is a record that ends where its flags would stand
(`parse_record_end`).
-/

namespace WireSchema

open CursorM

/-! ## Flags -/

/-- Whether a field counts as set: a bool field when it is true, any other when it is present. -/
def FieldStep.isSet (s : FieldStep) (fields : Fields) : Bool :=
  if s.flagOnly then (fields.get s.name).isTrue else (fields.get s.name).isPresent

theorem FieldStep.flag_eq (s : FieldStep) (fields : Fields) :
    fields.flag s.name s.flag s.flagOnly = if s.isSet fields then s.flag else 0 := rfl

namespace RecordLayout

/-- The optional steps have the bits from the given one on, in order. -/
def Bits : Nat → List FieldStep → Prop
  | _, [] => True
  | bit, s :: rest => if s.optional then s.flag = 2 ^ bit ∧ Bits (bit + 1) rest else Bits bit rest

theorem Bits.exists_bit {bit : Nat} {steps : List FieldStep} (h : Bits bit steps) {s : FieldStep}
    (hs : s ∈ steps) (ho : s.optional = true) :
    ∃ k, bit ≤ k ∧ k < bit + steps.countP (·.optional) ∧ s.flag = 2 ^ k := by
  induction steps generalizing bit with
  | nil => cases hs
  | cons s' rest ih =>
    rw [Bits] at h
    cases ho' : s'.optional with
    | true =>
      rw [ho', if_pos rfl] at h
      have hcount : (s' :: rest).countP (·.optional) = rest.countP (·.optional) + 1 :=
        List.countP_cons_of_pos ho'
      rcases List.mem_cons.mp hs with rfl | hs
      · exact ⟨bit, by omega, by omega, h.1⟩
      · obtain ⟨k, h1, h2, h3⟩ := ih h.2 hs
        exact ⟨k, by omega, by omega, h3⟩
    | false =>
      rw [ho', if_neg (by decide)] at h
      rw [List.countP_cons_of_neg (by simp [ho'])]
      rcases List.mem_cons.mp hs with rfl | hs
      · rw [ho] at ho'
        cases ho'
      · exact ih h hs

/-- No two optional steps share a bit. -/
theorem Bits.inj {bit : Nat} {steps : List FieldStep} (h : Bits bit steps) {s s' : FieldStep}
    (hs : s ∈ steps) (ho : s.optional = true) (hs' : s' ∈ steps) (ho' : s'.optional = true)
    (heq : s.flag = s'.flag) : s = s' := by
  induction steps generalizing bit with
  | nil => cases hs
  | cons x rest ih =>
    rw [Bits] at h
    cases hx : x.optional with
    | true =>
      rw [hx, if_pos rfl] at h
      have hne {y : FieldStep} (hy : y ∈ rest) (hoy : y.optional = true) : y.flag ≠ x.flag := by
        obtain ⟨k, hk, -, hflag⟩ := h.2.exists_bit hy hoy
        rw [hflag, h.1]
        intro hpow
        have := Nat.pow_right_injective (Nat.le_refl 2) hpow
        omega
      rcases List.mem_cons.mp hs with h1 | h1
      · rcases List.mem_cons.mp hs' with h2 | h2
        · rw [h1, h2]
        · exact absurd (h1 ▸ heq.symm) (hne h2 ho')
      · rcases List.mem_cons.mp hs' with h2 | h2
        · exact absurd (h2 ▸ heq) (hne h1 ho)
        · exact ih h.2 h1 h2
    | false =>
      rw [hx, if_neg (by decide)] at h
      have hmem {y : FieldStep} (hy : y ∈ x :: rest) (hoy : y.optional = true) : y ∈ rest := by
        rcases List.mem_cons.mp hy with rfl | hy
        · rw [hx] at hoy
          cases hoy
        · exact hy
      exact ih h (hmem hs ho) (hmem hs' ho')

theorem testBit_foldl (fields : Fields) (steps : List FieldStep) (acc k : Nat) :
    (steps.foldl (fun acc s => acc ||| fields.flag s.name s.flag s.flagOnly) acc).testBit k = true ↔
      acc.testBit k = true ∨ ∃ s ∈ steps, s.isSet fields = true ∧ s.flag.testBit k = true := by
  induction steps generalizing acc with
  | nil => simp
  | cons s rest ih =>
    rw [List.foldl_cons, ih, Nat.testBit_or, FieldStep.flag_eq, Bool.or_eq_true]
    cases hs : s.isSet fields <;> simp [hs, or_assoc]

/-- The bits of the flags are those of the optional fields that are set. -/
theorem testBit_flags (l : RecordLayout) (fields : Fields) (k : Nat) :
    (l.flags fields).testBit k = true ↔
      ∃ s ∈ l.steps, s.optional = true ∧ s.isSet fields = true ∧ s.flag.testBit k = true := by
  rw [flags, testBit_foldl]
  simp only [Nat.zero_testBit, Bool.false_eq_true, false_or, List.mem_filter, and_assoc]

/-- A bit of the flags says whether its field is set. -/
theorem flags_and_ne_zero_iff {l : RecordLayout} (h : Bits 0 l.steps) (fields : Fields)
    {s : FieldStep} (hs : s ∈ l.steps) (ho : s.optional = true) :
    l.flags fields &&& s.flag ≠ 0 ↔ s.isSet fields = true := by
  obtain ⟨k, -, -, hk⟩ := h.exists_bit hs ho
  have hand : l.flags fields &&& s.flag ≠ 0 ↔ (l.flags fields).testBit k = true := by
    rw [hk, Nat.and_two_pow]
    cases (l.flags fields).testBit k <;> simp
  rw [hand, testBit_flags]
  constructor
  · rintro ⟨s', hs', ho', hset, hbit⟩
    obtain ⟨j, -, -, hj⟩ := h.exists_bit hs' ho'
    rw [hj, Nat.testBit_two_pow, decide_eq_true_eq] at hbit
    rwa [h.inj hs ho hs' ho' (by rw [hk, hj, hbit])]
  · exact fun hset => ⟨s, hs, ho, hset, by rw [hk, Nat.testBit_two_pow]; simp⟩

/-- The flags have no more bits than there are optional fields. -/
theorem flags_lt {l : RecordLayout} (h : Bits 0 l.steps) (fields : Fields) :
    l.flags fields < 2 ^ l.steps.countP (·.optional) := by
  refine Nat.lt_pow_two_of_testBit _ fun k hk => ?_
  rw [Bool.eq_false_iff]
  intro hbit
  obtain ⟨s, hs, ho, -, hflag⟩ := (testBit_flags l fields k).mp hbit
  obtain ⟨j, -, hj, hpow⟩ := h.exists_bit hs ho
  rw [hpow, Nat.testBit_two_pow, decide_eq_true_eq] at hflag
  omega

/-- The flags of at most 64 optional fields are a number of 64 bits. -/
theorem flags_lt_of_few {l : RecordLayout} (h : Bits 0 l.steps)
    (hfew : l.steps.countP (·.optional) ≤ 64) (fields : Fields) :
    l.flags fields < 0x10000000000000000 := by
  have hpow : 2 ^ l.steps.countP (·.optional) ≤ 2 ^ 64 := Nat.pow_le_pow_right (by decide) hfew
  exact Nat.lt_of_lt_of_le (flags_lt h fields) hpow

/-! ## Layouts that can be read back -/

/-- What makes a record readable: every optional field has its own bit of at most 64, the flags
stand before the optional fields, a required field is not left to its flag, and names are
distinct. -/
structure Sound (l : RecordLayout) : Prop where
  bits : Bits 0 l.steps
  few : l.steps.countP (·.optional) ≤ 64
  placed : ∀ i s, l.steps[i]? = some s → s.optional = true → ∃ p ≤ i, l.flagsPosition = some p
  written : ∀ s ∈ l.steps, s.optional = false → s.flagOnly = false
  distinct : (l.steps.map (·.name)).Nodup

theorem Sound.flags_lt {l : RecordLayout} (h : l.Sound) (fields : Fields) :
    l.flags fields < 0x10000000000000000 :=
  flags_lt_of_few h.bits h.few fields

/-- A field is written when it is present; a bool field never is. -/
theorem Sound.isWritten_eq {l : RecordLayout} (h : l.Sound) {fields : Fields}
    (hr : l.requireAll fields l.steps = .ok ()) {s : FieldStep} (hs : s ∈ l.steps) :
    s.isWritten (l.flags fields) = (!s.flagOnly && (fields.get s.name).isPresent) := by
  unfold FieldStep.isWritten
  cases hf : s.flagOnly with
  | true => rfl
  | false =>
    cases ho : s.optional with
    | false => rw [requireAll_eq_ok_iff.mp hr _ hs ho]; rfl
    | true =>
      have hset : s.isSet fields = (fields.get s.name).isPresent := by
        rw [FieldStep.isSet, hf, if_neg (by decide)]
      have hiff := flags_and_ne_zero_iff h.bits fields hs ho
      rw [hset] at hiff
      simp only [Bool.not_false, Bool.true_and, Bool.not_true, Bool.false_or]
      rw [Bool.eq_iff_iff, decide_eq_true_eq, hiff]

/-! ## Steps read back -/

/-- The bytes of the steps from an index on, with the flags where they stand before a step. -/
def leadBytes (position : Option Nat) (flags : Nat) : Nat → List Bytes → Bytes
  | _, [] => []
  | i, b :: rest => flagBytes position flags i ++ b ++ leadBytes position flags (i + 1) rest

theorem stepBytes_eq (position : Option Nat) (flags i : Nat) (bs : List Bytes) :
    stepBytes position flags i bs =
      leadBytes position flags i bs ++ flagBytes position flags (i + bs.length) := by
  induction bs generalizing i with
  | nil => rfl
  | cons b rest ih =>
    rw [stepBytes, leadBytes, ih, List.length_cons, List.append_assoc, List.append_assoc,
      List.append_assoc, Nat.add_assoc, Nat.add_comm 1]

/-- The bytes of the fields are read as values where they stand, step by step from an index on and
in front of further bytes; a field that is not written has no value. -/
inductive ReadsSteps (member : FieldStep → Codec) (position : Option Nat) (flags : Nat)
    (more : Bytes) : Nat → List FieldStep → List Bytes → List (Option Value) → Prop
  | nil {i : Nat} : ReadsSteps member position flags more i [] [] []
  | written {i : Nat} {s : FieldStep} {b : Bytes} {w : Value} {steps : List FieldStep}
      {bs : List Bytes} {ws : List (Option Value)} (hs : s.isWritten flags = true)
      (head : (member s).read.parse (b ++ (leadBytes position flags (i + 1) bs ++ more)) =
        .ok (w, b.length)) (tail : ReadsSteps member position flags more (i + 1) steps bs ws) :
      ReadsSteps member position flags more i (s :: steps) (b :: bs) (some w :: ws)
  | skipped {i : Nat} {s : FieldStep} {steps : List FieldStep} {bs : List Bytes}
      {ws : List (Option Value)} (hs : s.isWritten flags = false)
      (tail : ReadsSteps member position flags more (i + 1) steps bs ws) :
      ReadsSteps member position flags more i (s :: steps) ([] :: bs) (none :: ws)

section ReadsSteps

variable {member : FieldStep → Codec} {position : Option Nat} {flags : Nat} {more : Bytes} {i : Nat}
  {s : FieldStep} {steps : List FieldStep} {bs : List Bytes} {ws : List (Option Value)}

theorem ReadsSteps.cons_inv (h : ReadsSteps member position flags more i (s :: steps) bs ws) :
    ∃ b bs' w ws', bs = b :: bs' ∧ ws = w :: ws' ∧
      (s.isWritten flags = true → ∃ v, w = some v ∧
        (member s).read.parse (b ++ (leadBytes position flags (i + 1) bs' ++ more)) =
          .ok (v, b.length)) ∧
      (s.isWritten flags = false → w = none ∧ b = []) ∧
      ReadsSteps member position flags more (i + 1) steps bs' ws' := by
  cases h with
  | written hs head tail =>
    exact ⟨_, _, _, _, rfl, rfl, fun _ => ⟨_, rfl, head⟩,
      fun hn => absurd (hs.symm.trans hn) (by decide), tail⟩
  | skipped hs tail =>
    exact ⟨_, _, _, _, rfl, rfl, fun hn => absurd (hs.symm.trans hn) (by decide),
      fun _ => ⟨rfl, rfl⟩, tail⟩

theorem ReadsSteps.length_eq (h : ReadsSteps member position flags more i steps bs ws) :
    bs.length = steps.length ∧ ws.length = steps.length := by
  induction h with
  | nil => exact ⟨rfl, rfl⟩
  | written _ _ _ ih | skipped _ _ ih =>
    exact ⟨congrArg (· + 1) ih.1, congrArg (· + 1) ih.2⟩

end ReadsSteps

/-- What a field holds after reading: its bit, what was read, or its default. -/
def heldValue (flags : Nat) (s : FieldStep) (w : Option Value) : Value :=
  if s.flagOnly then .bool (decide (flags &&& s.flag ≠ 0)) else w.getD s.default

/-- One field is read into a table that has its default. -/
theorem parse_readField {member : FieldStep → Codec} {flags : Nat} {s : FieldStep} {b more : Bytes}
    {w : Option Value} {fields : Fields} (hc : Confined (member s).read)
    (hread : s.isWritten flags = true → ∃ v, w = some v ∧
      (member s).read.parse (b ++ more) = .ok (v, b.length))
    (hskip : s.isWritten flags = false → w = none ∧ b = [])
    (hsorted : Assoc.Sorted fields) (hdefault : fields.lookup s.name = some s.default) :
    (readField member s flags fields).parse (b ++ more) =
      .ok (Assoc.insert s.name (heldValue flags s w) fields, b.length) := by
  unfold readField heldValue
  cases hf : s.flagOnly with
  | true =>
    have hnot : s.isWritten flags = false := by simp [FieldStep.isWritten, hf]
    obtain ⟨-, rfl⟩ := hskip hnot
    rfl
  | false =>
    simp only [Bool.false_eq_true, if_false]
    cases hw : s.isWritten flags with
    | true =>
      obtain ⟨v, rfl, hback⟩ := hread hw
      rw [if_pos rfl, parse_bind_ok hc (fun _ => confined_pure _) hback]
      rfl
    | false =>
      obtain ⟨rfl, rfl⟩ := hskip hw
      rw [if_neg (by decide)]
      -- the default is there already
      have hsame : Assoc.insert s.name s.default fields = fields := by
        refine Assoc.ext (Assoc.sorted_insert hsorted) hsorted fun k => ?_
        rw [Assoc.lookup_insert]
        split
        · rename_i hk
          rw [hk, hdefault]
        · rfl
      show Except.ok (fields, 0) = .ok (Assoc.insert s.name s.default fields, 0)
      rw [hsame]

/-- The fields with what they hold. -/
def heldFields (flags : Nat) (steps : List FieldStep) (ws : List (Option Value)) : Fields :=
  List.zipWith (fun s w => (s.name, heldValue flags s w)) steps ws

theorem heldFields_cons (flags : Nat) (s : FieldStep) (steps : List FieldStep) (w : Option Value)
    (ws : List (Option Value)) :
    heldFields flags (s :: steps) (w :: ws) =
      (s.name, heldValue flags s w) :: heldFields flags steps ws := rfl

theorem names_heldFields (flags : Nat) {steps : List FieldStep} {ws : List (Option Value)}
    (h : ws.length = steps.length) :
    (heldFields flags steps ws).map Prod.fst = steps.map (·.name) := by
  induction steps generalizing ws with
  | nil => rfl
  | cons s rest ih =>
    cases ws with
    | nil => cases h
    | cons w ws =>
      rw [heldFields_cons, List.map_cons, List.map_cons, ih (Nat.succ.inj h)]

/-- The flags that are known at an index once they were read. -/
def knownAt (l : RecordLayout) (flags known i : Nat) : Nat :=
  if l.flagsPosition = some i then flags else known

theorem knownAt_eq {l : RecordLayout} {flags known i p : Nat} (hpos : l.flagsPosition = some p)
    (hp : p < i + 1) (hknown : p < i → known = flags) : l.knownAt flags known i = flags := by
  unfold knownAt
  split
  · rfl
  · rename_i hne
    refine hknown ?_
    rcases Nat.lt_or_eq_of_le (Nat.le_of_lt_succ hp) with hlt | heq
    · exact hlt
    · exact absurd (heq ▸ hpos) hne

/-- The flags are read back where they stand. -/
theorem parse_flagsAt_append (l : RecordLayout) {flags : Nat}
    (hflags : flags < 0x10000000000000000) (i known : Nat) (more : Bytes) :
    (l.flagsAt i known).parse (flagBytes l.flagsPosition flags i ++ more) =
      .ok (some (l.knownAt flags known i), (flagBytes l.flagsPosition flags i).length) := by
  unfold flagBytes knownAt
  by_cases h : l.flagsPosition = some i
  · have hne : Varint.bytes flags ++ more ≠ [] := by simp [Varint.bytes_ne_nil]
    rw [if_pos h, if_pos h, flagsAt_here h, parse_readFlags hne,
      Varint.parse_varint_append hflags, Varint.length_bytes]
    rfl
  · rw [if_neg h, if_neg h, flagsAt_elsewhere h]
    rfl

/-- A required field is read the same whatever the flags. -/
theorem readField_required {member : FieldStep → Codec} {s : FieldStep} (ho : s.optional = false)
    (hf : s.flagOnly = false) (m n : Nat) (fields : Fields) :
    readField member s m fields = readField member s n fields := by
  simp [readField, FieldStep.isWritten, ho, hf]

/-- The steps from an index on that depend on the flags stand behind them, and the flags are known
where they have been passed. -/
structure Announced (l : RecordLayout) (i : Nat) (steps : List FieldStep) (flags known : Nat) :
    Prop where
  placed : ∀ j s, steps[j]? = some s → s.optional = true → ∃ p ≤ i + j, l.flagsPosition = some p
  written : ∀ s ∈ steps, s.optional = false → s.flagOnly = false
  known : ∀ p, l.flagsPosition = some p → p < i → known = flags

theorem Announced.tail {l : RecordLayout} {i : Nat} {s : FieldStep} {rest : List FieldStep}
    {flags known : Nat} (h : Announced l i (s :: rest) flags known) :
    Announced l (i + 1) rest flags (l.knownAt flags known i) where
  placed := by
    intro j s' hj ho
    obtain ⟨p, hp, hpos⟩ := h.placed (j + 1) s' hj ho
    exact ⟨p, by omega, hpos⟩
  written s' hs' := h.written s' (List.mem_cons_of_mem _ hs')
  known p hpos hp := knownAt_eq hpos hp (h.known p hpos)

/-- The flags are known at every field that depends on them. -/
theorem Announced.readField_eq {l : RecordLayout} {i : Nat} {s : FieldStep} {rest : List FieldStep}
    {flags known : Nat} (h : Announced l i (s :: rest) flags known) (member : FieldStep → Codec)
    (fields : Fields) :
    readField member s (l.knownAt flags known i) fields = readField member s flags fields := by
  cases ho : s.optional with
  | false => exact readField_required ho (h.written s List.mem_cons_self ho) _ _ _
  | true =>
    obtain ⟨p, hp, hpos⟩ := h.placed 0 s rfl ho
    rw [knownAt_eq hpos (by omega) (h.known p hpos)]

/-- A step can be read under the flags that are known at its index. -/
structure Ready (l : RecordLayout) (i : Nat) (steps : List FieldStep) (flags known : Nat)
    (fields : Fields) : Prop where
  placed : ∀ j s, steps[j]? = some s → s.optional = true → ∃ p ≤ i + j, l.flagsPosition = some p
  written : ∀ s ∈ steps, s.optional = false → s.flagOnly = false
  distinct : (steps.map (·.name)).Nodup
  known : ∀ p, l.flagsPosition = some p → p < i → known = flags
  sorted : Assoc.Sorted fields
  defaults : ∀ s ∈ steps, fields.lookup s.name = some s.default

theorem Ready.announced {l : RecordLayout} {i : Nat} {steps : List FieldStep} {flags known : Nat}
    {fields : Fields} (h : Ready l i steps flags known fields) :
    Announced l i steps flags known := ⟨h.placed, h.written, h.known⟩

theorem Ready.tail {l : RecordLayout} {i : Nat} {s : FieldStep} {rest : List FieldStep}
    {flags known : Nat} {fields : Fields} (h : Ready l i (s :: rest) flags known fields)
    (v : Value) :
    Ready l (i + 1) rest flags (l.knownAt flags known i) (Assoc.insert s.name v fields) where
  placed := h.announced.tail.placed
  written := h.announced.tail.written
  distinct := (List.nodup_cons.mp h.distinct).2
  known := h.announced.tail.known
  sorted := Assoc.sorted_insert h.sorted
  defaults := by
    intro s' hs'
    have hd := h.distinct
    rw [List.map_cons, List.nodup_cons] at hd
    rw [Assoc.lookup_insert, if_neg, h.defaults s' (List.mem_cons_of_mem _ hs')]
    intro hname
    exact hd.1 (hname ▸ List.mem_map.mpr ⟨s', hs', rfl⟩)

/-- Steps are read back, and then further steps under the flags that are known by then. -/
theorem parse_readSteps_append {l : RecordLayout} {member : FieldStep → Codec} {flags : Nat}
    (hflags : flags < 0x10000000000000000) {steps extra : List FieldStep}
    (hc : ∀ s ∈ steps ++ extra, Confined (member s).read) {i : Nat} {bs : List Bytes}
    {ws : List (Option Value)} {more : Bytes}
    (h : ReadsSteps member l.flagsPosition flags more i steps bs ws) {known : Nat}
    {fields : Fields} (hready : Ready l i steps flags known fields) :
    ∃ known', (∀ p, l.flagsPosition = some p → p < i + steps.length → known' = flags) ∧
      (l.readSteps member i known fields (steps ++ extra)).parse
          (leadBytes l.flagsPosition flags i bs ++ more) =
        shift (leadBytes l.flagsPosition flags i bs).length
          ((l.readSteps member (i + steps.length) known'
            (Assoc.insertAll fields (heldFields flags steps ws)) extra).parse more) := by
  induction steps generalizing i known fields bs ws with
  | nil =>
    cases h
    exact ⟨known, hready.known, (shift_zero _).symm⟩
  | cons s rest ih =>
    obtain ⟨b, bs, w, ws, rfl, rfl, hread, hskip, tail⟩ := h.cons_inv
    rw [List.cons_append] at hc ⊢
    have hcs : Confined (member s).read := hc s List.mem_cons_self
    have hcrest : ∀ s' ∈ rest ++ extra, Confined (member s').read := fun s' hs' =>
      hc s' (List.mem_cons_of_mem _ hs')
    have hheld := parse_readField hcs hread hskip hready.sorted
      (hready.defaults s List.mem_cons_self)
    obtain ⟨known', hknown', htail⟩ := ih hcrest tail (hready.tail (heldValue flags s w))
    refine ⟨known', fun p hpos hp => hknown' p hpos ?_, ?_⟩
    · rw [List.length_cons] at hp
      omega
    · have hlength : (flagBytes l.flagsPosition flags i ++ b ++
          leadBytes l.flagsPosition flags (i + 1) bs).length =
          (flagBytes l.flagsPosition flags i).length + b.length +
            (leadBytes l.flagsPosition flags (i + 1) bs).length := by
        rw [List.length_append, List.length_append]
      rw [leadBytes, hlength, List.append_assoc, List.append_assoc,
        parse_readSteps_cons hc (parse_flagsAt_append l hflags i known _), List.drop_left,
        hready.announced.readField_eq,
        parse_bind_ok (confined_readField hcs _ _) (fun _ => confined_readSteps hcrest _ _ _) hheld,
        List.drop_left, htail, shift_shift, shift_shift, List.length_cons,
        Nat.add_comm rest.length 1, ← Nat.add_assoc i]
      rfl

theorem Sound.ready {l : RecordLayout} (hl : l.Sound) (flags : Nat) {steps extra : List FieldStep}
    (hsteps : l.steps = steps ++ extra) : Ready l 0 steps flags 0 l.defaults where
  placed := by
    intro i s hi ho
    rw [Nat.zero_add]
    refine hl.placed i s ?_ ho
    rw [hsteps, List.getElem?_append_left (List.getElem?_eq_some_iff.mp hi).1, hi]
  written s hs := hl.written s (hsteps ▸ List.mem_append_left _ hs)
  distinct := by
    have hd := hl.distinct
    rw [hsteps, List.map_append] at hd
    exact (List.nodup_append.mp hd).1
  known p _ hp := absurd hp (Nat.not_lt_zero p)
  sorted := Assoc.sorted_ofList _
  defaults := by
    intro s hs
    have hnames : (l.steps.map fun s => (s.name, s.default)).map Prod.fst = l.steps.map (·.name) := by
      simp
    have hmem : s ∈ l.steps := hsteps ▸ List.mem_append_left _ hs
    rw [RecordLayout.defaults, Assoc.lookup_ofList (hnames ▸ hl.distinct)]
    exact Assoc.lookup_of_mem (hnames ▸ hl.distinct) (List.mem_map.mpr ⟨s, hmem, rfl⟩)

/-- What is held takes the place of the defaults of the fields that were read. -/
theorem Sound.insertAll_defaults {l : RecordLayout} (hl : l.Sound) (flags : Nat)
    {steps extra : List FieldStep} (hsteps : l.steps = steps ++ extra) {ws : List (Option Value)}
    (hws : ws.length = steps.length) :
    Assoc.insertAll l.defaults (heldFields flags steps ws) =
      Assoc.ofList (heldFields flags steps ws ++ extra.map fun s => (s.name, s.default)) := by
  have hd := hl.distinct
  rw [hsteps, List.map_append] at hd
  rw [RecordLayout.defaults, hsteps, List.map_append]
  refine Assoc.insertAll_ofList ?_ ?_
  · rw [List.map_append, names_heldFields flags hws, List.map_map]
    exact hd
  · rw [names_heldFields flags hws, List.map_map]
    rfl

/-- A record is read back as the table of what its fields hold. -/
theorem parse_record_append {l : RecordLayout} (hl : l.Sound) {member : FieldStep → Codec}
    (hc : ∀ s ∈ l.steps, Confined (member s).read) {flags : Nat}
    (hflags : flags < 0x10000000000000000) {bs : List Bytes} {ws : List (Option Value)}
    {more : Bytes}
    (h : ReadsSteps member l.flagsPosition flags
      (flagBytes l.flagsPosition flags bs.length ++ more) 0 l.steps bs ws) :
    (l.codec member).read.parse (stepBytes l.flagsPosition flags 0 bs ++ more) =
      .ok (.struct (Assoc.ofList (heldFields flags l.steps ws)),
        (stepBytes l.flagsPosition flags 0 bs).length) := by
  have hnil : l.steps = l.steps ++ [] := (List.append_nil _).symm
  obtain ⟨known, -, hsteps⟩ := parse_readSteps_append hflags
    (by rw [List.append_nil]; exact hc) h (hl.ready flags hnil)
  have hlast := parse_flagsAt_append l hflags (0 + l.steps.length) known more
  rw [Nat.zero_add, ← h.length_eq.1] at hlast
  rw [List.append_nil, Nat.zero_add, ← h.length_eq.1, parse_readSteps_nil hlast, shift_ok,
    hl.insertAll_defaults flags hnil h.length_eq.2, List.map_nil, List.append_nil] at hsteps
  rw [codec, stepBytes_eq, List.append_assoc, Nat.zero_add,
    parse_bind_ok (confined_readSteps hc _ _ _) (fun _ => confined_pure _) hsteps,
    List.length_append]
  rfl

/-- A record that ends where its flags would stand is read as what its fields hold up to there, and
as defaults for the rest. -/
theorem parse_record_end {l : RecordLayout} (hl : l.Sound) {member : FieldStep → Codec}
    (hc : ∀ s ∈ l.steps, Confined (member s).read) {flags : Nat}
    (hflags : flags < 0x10000000000000000) {steps extra : List FieldStep}
    (hsteps : l.steps = steps ++ extra) (hpos : l.flagsPosition = some steps.length)
    {bs : List Bytes} {ws : List (Option Value)}
    (h : ReadsSteps member l.flagsPosition flags [] 0 steps bs ws) :
    (l.codec member).read.parse (leadBytes l.flagsPosition flags 0 bs) =
      .ok (.struct (Assoc.ofList
        (heldFields flags steps ws ++ extra.map fun s => (s.name, s.default))),
        (leadBytes l.flagsPosition flags 0 bs).length) := by
  obtain ⟨known, -, hread⟩ := parse_readSteps_append hflags (hsteps ▸ hc) h (hl.ready flags hsteps)
  have hend : (l.flagsAt (0 + steps.length) known).parse [] = .ok (none, 0) := by
    rw [Nat.zero_add, flagsAt_here hpos]
    exact parse_readFlags_nil
  have hcextra : ∀ s ∈ extra, Confined (member s).read := fun s hs =>
    hc s (hsteps ▸ List.mem_append_right _ hs)
  rw [parse_readSteps_end hcextra hend, shift_ok, List.append_nil, ← hsteps,
    hl.insertAll_defaults flags hsteps h.length_eq.2] at hread
  rw [codec, parse_bind_ok (confined_readSteps hc _ _ _) (fun _ => confined_pure _) hread]
  rfl

end RecordLayout

end WireSchema

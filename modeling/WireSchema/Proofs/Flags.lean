import WireSchema.Proofs.Built

/-!
# Flags of structs

The optional fields of a struct have the bits of its flags in their order, and at most 64 of them
are admitted, so a bit that is shifted through a word of 64 bits is never lost
(`StructBody.toNat_wordFlags`).  Each field is told from its own bit alone
(`Schema.flags_faithful`).
-/

namespace WireSchema

namespace StructBody

/-- As long as the word has room for them, the bits in words are the bits that are assigned. -/
theorem toNat_wordFlags {word : UInt64} {bit : Nat} {fields : List Field}
    (hword : word.toNat = 2 ^ bit % 2 ^ 64)
    (hroom : bit + fields.countP (fun f => !f.required) ≤ 64) :
    (wordFlags word fields).map UInt64.toNat = (assignFlags bit fields).map Prod.snd := by
  induction fields generalizing word bit with
  | nil => rfl
  | cons f rest ih =>
    unfold wordFlags assignFlags
    cases hr : f.required with
    | true =>
      rw [List.countP_cons_of_neg (by simp [hr])] at hroom
      simp only [if_true, List.map_cons, ih hword hroom]
      rfl
    | false =>
      rw [List.countP_cons_of_pos (by simp [hr])] at hroom
      have hlt : 2 ^ bit < 2 ^ 64 := Nat.pow_lt_pow_right (by decide) (by omega)
      have hnext : (word <<< 1).toNat = 2 ^ (bit + 1) % 2 ^ 64 := by
        rw [UInt64.toNat_shiftLeft, hword, Nat.mod_eq_of_lt hlt, Nat.shiftLeft_eq, Nat.pow_succ]
        rfl
      simp only [Bool.false_eq_true, if_false, List.map_cons, ih hnext (by omega)]
      rw [hword, Nat.mod_eq_of_lt hlt, Nat.one_shiftLeft]

/-- The bit of an optional field is as many places up as there are optional fields before it. -/
theorem getElem?_assignFlags {bit i : Nat} {fields : List Field} {f : Field}
    (h : fields[i]? = some f) :
    (assignFlags bit fields)[i]? = some (f, if f.required then 0
      else 2 ^ (bit + (fields.take i).countP fun f => !f.required)) := by
  induction fields generalizing bit i with
  | nil => cases h
  | cons g rest ih =>
    unfold assignFlags
    cases i with
    | zero =>
      cases h
      cases hr : f.required <;> simp [Nat.one_shiftLeft]
    | succ i =>
      rw [List.getElem?_cons_succ] at h
      cases hr : g.required with
      | true => simp [ih h, hr]
      | false => simp [ih h, hr, Nat.add_assoc, Nat.add_comm 1]

end StructBody

theorem Value.isTrue_iff {v : Value} : v.isTrue = true ↔ v = .bool true := by
  cases v <;> simp [isTrue]

theorem Value.isPresent_iff {v : Value} : v.isPresent = true ↔ v ≠ .null := by
  cases v <;> simp [isPresent, isNull]

namespace RecordLayout

variable {l : RecordLayout}

/-- What the flags say of a field depends on the value of that field alone. -/
theorem flags_and_eq (h : Bits 0 l.steps) (fields : Fields) {step : FieldStep}
    (hstep : step ∈ l.steps) (ho : step.optional = true) :
    l.flags fields &&& step.flag = if step.isSet fields then step.flag else 0 := by
  have hiff := flags_and_ne_zero_iff h fields hstep ho
  obtain ⟨k, -, -, hk⟩ := h.exists_bit hstep ho
  cases hset : step.isSet fields with
  | false =>
    rw [hset] at hiff
    simpa using hiff
  | true =>
    rw [hset] at hiff
    rw [if_pos rfl]
    rw [hk, Nat.and_two_pow] at hiff ⊢
    cases hbit : (l.flags fields).testBit k with
    | false => simp [hbit] at hiff
    | true => rw [Bool.toNat_true, Nat.one_mul]

end RecordLayout

namespace TypeTable

/-- A value sets a field of a struct: the truth value true a bool field, anything but null any
other. -/
def Sets (t : TypeTable) (f : Field) (v : Value) : Prop :=
  if f.array = false ∧ t.isBool f.typeName = true then v = .bool true else v ≠ .null

theorem isSet_fieldStep (t : TypeTable) (f : Field) (flag : Nat) (fields : Fields) :
    (t.fieldStep f flag).isSet fields = true ↔ t.Sets f (fields.get f.name) := by
  have hiff : (!f.array && t.isBool f.typeName) = true ↔
      f.array = false ∧ t.isBool f.typeName = true := by simp
  unfold FieldStep.isSet Sets fieldStep
  dsimp only
  by_cases hbool : f.array = false ∧ t.isBool f.typeName = true
  · rw [if_pos (hiff.mpr hbool), if_pos hbool, Value.isTrue_iff]
  · rw [if_neg (fun h => hbool (hiff.mp h)), if_neg hbool, Value.isPresent_iff]

theorem countP_steps (t : TypeTable) (fqn : String) (s : StructBody) :
    (t.layout fqn s).steps.countP (·.optional) = s.optionals.length := by
  have hsteps := t.map_steps fqn s (·.optional) (fun f => !f.required) fun _ _ => rfl
  have hcount := congrArg (List.countP id) hsteps
  rw [List.countP_map, List.countP_map] at hcount
  rw [StructBody.optionals, ← List.countP_eq_length_filter]
  exact hcount

/-- The step of a field has the bit that is as many places up as there are optional fields before
it. -/
theorem exists_flagged_step (t : TypeTable) (fqn : String) {s : StructBody} {i : Nat} {f : Field}
    (h : s.fields[i]? = some f) :
    ∃ flag, (t.layout fqn s).steps[i]? = some (t.fieldStep f flag) ∧
      flag = if f.required then 0 else 2 ^ (s.fields.take i).countP fun f => !f.required := by
  refine ⟨_, ?_, rfl⟩
  rw [layout_steps, List.getElem?_map, StructBody.getElem?_assignFlags h, Nat.zero_add]
  rfl

end TypeTable

namespace Schema

/-- In a built schema the flags of a struct are faithful.  There are at most 64 optional fields, and
the flags stand before the first of them.  A required field has no bit, and an optional one the bit
that is as many places up as there are optional fields before it; these are the bits that shifting
through words of 64 bits gives.  Whatever the values of the fields are, the flags are below the
first free bit, and the bit of a field is set if and only if the value of the field sets it, so it
is the same for all values that agree on the field. -/
theorem flags_faithful {s : Schema} (hs : s.Built) {d : Declaration} (hd : d ∈ s.types)
    {body : StructBody} (hb : d.body = .struct body) :
    body.optionals.length ≤ 64 ∧
    (StructBody.wordFlags 1 body.fields).map UInt64.toNat =
      (s.types.layout d.fqn body).steps.map (·.flag) ∧
    (∀ fields, (s.types.layout d.fqn body).flags fields < 2 ^ body.optionals.length) ∧
    ∀ i f, body.fields[i]? = some f → ∃ step, (s.types.layout d.fqn body).steps[i]? = some step ∧
      step.name = f.name ∧ step.optional = !f.required ∧
      (f.required = true → step.flag = 0) ∧
      (f.required = false →
        (∃ p ≤ i, (s.types.layout d.fqn body).flagsPosition = some p) ∧
        step.flag = 2 ^ ((body.fields.take i).countP fun f => !f.required) ∧
        ∀ fields,
          ((s.types.layout d.fqn body).flags fields &&& step.flag ≠ 0 ↔
            s.types.Sets f (fields.get f.name)) ∧
          ∀ fields' : Fields, fields'.get f.name = fields.get f.name →
            (s.types.layout d.fqn body).flags fields' &&& step.flag =
              (s.types.layout d.fqn body).flags fields &&& step.flag) := by
  have hbits := s.types.bits_steps 0 body.fields
  have hfew := TypeTable.few_steps hs.sound hd hb
  rw [TypeTable.countP_steps] at hfew
  refine ⟨hfew, ?_, ?_, ?_⟩
  · have hroom : 0 + body.fields.countP (fun f => !f.required) ≤ 64 := by
      rwa [Nat.zero_add, List.countP_eq_length_filter]
    have hone : (1 : UInt64).toNat = 2 ^ 0 % 2 ^ 64 := rfl
    rw [StructBody.toNat_wordFlags hone hroom, TypeTable.layout_steps, List.map_map]
    rfl
  · intro fields
    rw [← s.types.countP_steps d.fqn body]
    exact RecordLayout.flags_lt hbits fields
  · intro i f hf
    obtain ⟨flag, hstep, hflag⟩ := s.types.exists_flagged_step d.fqn hf
    refine ⟨_, hstep, rfl, rfl, fun hr => hflag.trans (if_pos hr), fun hr => ?_⟩
    have hmem := List.mem_of_getElem? hstep
    have ho : (s.types.fieldStep f flag).optional = true := by simp [TypeTable.fieldStep, hr]
    refine ⟨?_, hflag.trans (if_neg (by simp [hr])), fun fields => ⟨?_, fun fields' heq => ?_⟩⟩
    · refine (hs.sound.struct hd hb).behind i f.shape ?_ hr
      rw [StructBody.shapes, List.getElem?_map, hf]
      rfl
    · rw [RecordLayout.flags_and_ne_zero_iff hbits fields hmem ho, TypeTable.isSet_fieldStep]
    · have hset : (s.types.fieldStep f flag).isSet fields' =
          (s.types.fieldStep f flag).isSet fields := by
        rw [Bool.eq_iff_iff, TypeTable.isSet_fieldStep, TypeTable.isSet_fieldStep, heq]
      rw [RecordLayout.flags_and_eq hbits fields hmem ho,
        RecordLayout.flags_and_eq hbits fields' hmem ho, hset]

/-! A struct with as many optional fields as there may be, the last of them described as a required
bool. -/

/-- The names of the fields between the first and the last. -/
def amountNames : List String := (List.range 63).map fun i => "amount" ++ toString i

def entryBody : StructBody :=
  ⟨false, some 1, ⟨"id", "uint", true, false, 1⟩ ::
    (amountNames.map fun name => ⟨name, "uint", false, false, 1⟩) ++
    [⟨"settled", "bool", false, false, 1⟩]⟩

def journal : Schema :=
  ⟨1, true, true, [⟨"entry", "a", 1, .struct entryBody⟩], [("a", none)],
    [⟨.typeAdded, "@a/entry", none, 1⟩]⟩

theorem journal_built : journal.Built := by
  refine ⟨(Builder.fresh true).after
    [.declareNamespace "a", .registerIn "a" (.structOf "entry"
      ({ name := "id", typeName := "uint", required := true } ::
        (amountNames.map fun name => { name := name, typeName := "uint" }) ++
        [{ name := "settled", typeName := "bool", required := true }]))],
    (Builder.Reachable.fresh true).after _, ?_⟩
  decide +kernel

theorem flags_faithful_journal :
    entryBody.optionals.length = 64 ∧
      ∃ step, (journal.types.layout "@a/entry" entryBody).steps[64]? = some step ∧
        step.name = "settled" ∧ step.flag = 2 ^ 63 ∧
        ∀ fields, (journal.types.layout "@a/entry" entryBody).flags fields < 2 ^ 64 ∧
          ((journal.types.layout "@a/entry" entryBody).flags fields &&& step.flag ≠ 0 ↔
            fields.get "settled" = .bool true) := by
  have hcount : entryBody.optionals.length = 64 := by decide +kernel
  have hlast : entryBody.fields[64]? = some ⟨"settled", "bool", false, false, 1⟩ := by
    decide +kernel
  have hplace : ((entryBody.fields.take 64).countP fun f => !f.required) = 63 := by decide +kernel
  have hbool : false = false ∧ journal.types.isBool "bool" = true := by decide +kernel
  obtain ⟨-, -, hlt, hfields⟩ := flags_faithful journal_built
    (d := ⟨"entry", "a", 1, .struct entryBody⟩) List.mem_cons_self rfl
  obtain ⟨step, hstep, hname, -, -, hoptional⟩ := hfields 64 _ hlast
  obtain ⟨-, hflag, hset⟩ := hoptional rfl
  rw [hplace] at hflag
  refine ⟨hcount, step, hstep, hname, hflag, fun fields => ⟨hcount ▸ hlt fields, ?_⟩⟩
  refine (hset fields).1.trans ?_
  rw [TypeTable.Sets, if_pos hbool]

end Schema

end WireSchema

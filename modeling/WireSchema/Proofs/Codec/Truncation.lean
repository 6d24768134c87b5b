import WireSchema.Proofs.Codec.Delimit

/-!
# Records on input that ends too soon

A record is content with input that ends where its flags would stand: it takes the rest for
defaults.  So the marks of a record are its flags and the marks of its fields (`StepMark`,
`guards_record`).  The flags do stand at such a mark (`prefix_of_flags`), and what stands in the
bytes of an item or of a field stands in those of the whole at the offset of the mark
(`Codec.prefix_of_item`, `prefix_of_field`).
-/

namespace WireSchema

open CursorM

/-! ## Records -/

namespace RecordLayout

variable {l : RecordLayout} {member : FieldStep → Codec} {M : FieldStep → Value → Nat → Prop}
  {position : Option Nat} {flags i known : Nat} {fields : Fields} {s : FieldStep}
  {steps rest : List FieldStep}

/-- The marks of steps from an index on: where the flags begin, and the marks of a field that is
written, behind the bytes of the fields before it. -/
inductive StepMark (member : FieldStep → Codec) (M : FieldStep → Value → Nat → Prop)
    (position : Option Nat) (flags : Nat) (fields : Fields) (i : Nat) (steps : List FieldStep) :
    Nat → Prop
  | flags {before after : List FieldStep} {bs : List Bytes} (hsteps : steps = before ++ after)
      (hbs : YieldsSteps member flags fields before bs)
      (hpos : position = some (i + before.length)) :
      StepMark member M position flags fields i steps (leadBytes position flags i bs).length
  | field {before after : List FieldStep} {s : FieldStep} {bs : List Bytes} {k : Nat}
      (hsteps : steps = before ++ s :: after) (hbs : YieldsSteps member flags fields before bs)
      (hs : s.isWritten flags = true) (h : M s (fields.get s.name) k) :
      StepMark member M position flags fields i steps ((stepBytes position flags i bs).length + k)

/-- The bytes of one field: those of its value when it is written, and none otherwise. -/
def YieldsField (member : FieldStep → Codec) (flags : Nat) (fields : Fields) (s : FieldStep)
    (x : Bytes) : Prop :=
  if s.isWritten flags then (member s).Yields (fields.get s.name) x else x = []

theorem YieldsField.unique {x y : Bytes} (hx : YieldsField member flags fields s x)
    (hy : YieldsField member flags fields s y) : x = y := by
  unfold YieldsField at hx hy
  split at hx
  · rw [if_pos (by assumption)] at hy
    exact hx.unique hy
  · rw [if_neg (by assumption)] at hy
    rw [hx, hy]

theorem YieldsField.cons {x : Bytes} {bs : List Bytes} (hx : YieldsField member flags fields s x)
    (h : YieldsSteps member flags fields rest bs) :
    YieldsSteps member flags fields (s :: rest) (x :: bs) := by
  unfold YieldsField at hx
  cases hs : s.isWritten flags with
  | true =>
    rw [hs, if_pos rfl] at hx
    exact .written hs hx h
  | false =>
    rw [hs, if_neg (by decide)] at hx
    subst hx
    exact .skipped hs h

theorem YieldsSteps.cons_inv {all : List Bytes}
    (h : YieldsSteps member flags fields (s :: rest) all) :
    ∃ x bs, all = x :: bs ∧ YieldsField member flags fields s x ∧
      YieldsSteps member flags fields rest bs := by
  cases h with
  | @written _ x _ bs hs head tail =>
    exact ⟨x, bs, rfl, by rw [YieldsField, if_pos hs]; exact head, tail⟩
  | @skipped _ _ bs hs tail => exact ⟨[], bs, rfl, by rw [YieldsField, hs]; rfl, tail⟩

/-- The marks of the steps behind a first one. -/
theorem StepMark.cons {x : Bytes} {k : Nat} (hx : YieldsField member flags fields s x)
    (h : StepMark member M position flags fields (i + 1) rest k) :
    StepMark member M position flags fields i (s :: rest)
      ((flagBytes position flags i).length + (x.length + k)) := by
  cases h with
  | @flags before after bs hsteps hbs hpos =>
    have hlength : (leadBytes position flags i (x :: bs)).length =
        (flagBytes position flags i).length +
          (x.length + (leadBytes position flags (i + 1) bs).length) := by
      rw [leadBytes, List.length_append, List.length_append, Nat.add_assoc]
    rw [← hlength]
    refine .flags (show s :: rest = (s :: before) ++ after by rw [hsteps]; rfl) (hx.cons hbs) ?_
    rw [hpos, List.length_cons]
    congr 1
    omega
  | @field before after s' bs k hsteps hbs hs h =>
    have hlength : (stepBytes position flags i (x :: bs)).length + k =
        (flagBytes position flags i).length +
          (x.length + ((stepBytes position flags (i + 1) bs).length + k)) := by
      rw [stepBytes, List.length_append, List.length_append]
      omega
    rw [← hlength]
    exact .field (show s :: rest = (s :: before) ++ s' :: after by rw [hsteps]; rfl) (hx.cons hbs)
      hs h

theorem readField_skipped (h : s.isWritten flags = false) (acc : Fields) :
    readField member s flags acc = pure (if s.flagOnly then
      Assoc.insert s.name (.bool (decide (flags &&& s.flag ≠ 0))) acc else acc) := by
  rw [readField, h]
  split <;> rfl

theorem dry_readField (hc : Confined (member s).read)
    (h : s.isWritten flags = true → Dry (member s).read) (acc : Fields) :
    Dry (readField member s flags acc) := by
  cases hs : s.isWritten flags with
  | true =>
    rw [readField_written hs]
    exact (h hs).bind hc (fun _ => confined_pure _) fun _ => dry_pure _
  | false =>
    rw [readField_skipped hs]
    exact dry_pure _

/-- Without input a record ends where its flags would stand, or at a field that asks for more. -/
theorem dry_readSteps (hc : ∀ s ∈ steps, Confined (member s).read)
    (h : ∀ s ∈ steps, s.isWritten known = true → Dry (member s).read) (i : Nat) (acc : Fields) :
    Dry (l.readSteps member i known acc steps) := by
  induction steps generalizing i acc with
  | nil =>
    refine Dry.bind (confined_flagsAt l i known) (fun _ => confined_pure _) ?_ fun _ => dry_pure _
    by_cases hpos : l.flagsPosition = some i
    · rw [flagsAt_here hpos]
      exact .inr ⟨none, 0, parse_readFlags_nil, rfl⟩
    · rw [flagsAt_elsewhere hpos]
      exact dry_pure _
  | cons s rest ih =>
    by_cases hpos : l.flagsPosition = some i
    · refine .inr ⟨acc, 0, parse_readSteps_end hc ?_, rfl⟩
      rw [flagsAt_here hpos, parse_readFlags_nil]
    · have hrest : ∀ s' ∈ rest, Confined (member s').read := fun s' hs' =>
        hc s' (List.mem_cons_of_mem _ hs')
      have hcs := hc s List.mem_cons_self
      rw [readSteps_cons, flagsAt_elsewhere hpos, pure_bind]
      exact (dry_readField hcs (h s List.mem_cons_self) acc).bind (confined_readField hcs _ _)
        (fun _ => confined_readSteps hrest _ _ _)
        (ih hrest (fun s' hs' => h s' (List.mem_cons_of_mem _ hs')) (i + 1))

theorem dry_record (hc : ∀ s ∈ l.steps, Confined (member s).read)
    (h : ∀ s ∈ l.steps, s.optional = false → Dry (member s).read) :
    Dry (l.codec member).read := by
  -- no flags are set before they were read
  have hrequired {s : FieldStep} (hs : s.isWritten 0 = true) : s.optional = false := by
    simp only [FieldStep.isWritten, Nat.zero_and, ne_eq, not_true_eq_false, decide_false,
      Bool.or_false, Bool.and_eq_true, Bool.not_eq_true'] at hs
    exact hs.2
  exact (dry_readSteps hc (fun s hs hw => h s hs (hrequired hw)) 0 l.defaults).bind
    (confined_readSteps hc _ _ _) (fun _ => confined_pure _) fun _ => dry_pure _

/-- The flags in front of what they announce: input that ends just before them is accepted. -/
theorem delimits_flagsAt {α ι : Type} (hflags : flags < 0x10000000000000000) (i known : Nat)
    {f : ι → Option Nat → CursorM α} (hf : ∀ j r, Confined (f j r))
    (hnone : ∀ j, ∃ a, f j none = pure a) {N : Nat → Prop} {y : Bytes}
    (h : Delimits (fun j => f j (some (l.knownAt flags known i))) N y) :
    Delimits (fun j => l.flagsAt i known >>= f j) (fun k => (k = 0 ∧ l.flagsPosition = some i) ∨
        ∃ j, k = (flagBytes l.flagsPosition flags i).length + j ∧ N j)
      (flagBytes l.flagsPosition flags i ++ y) := by
  refine delimits_behind (confined_flagsAt l i known) hf
    (fun w => parse_flagsAt_append l hflags i known w) (fun j k hk => ?_) h
  by_cases hpos : l.flagsPosition = some i
  · rw [flagBytes, if_pos hpos] at hk ⊢
    rw [flagsAt_here hpos]
    by_cases hzero : k = 0
    · obtain ⟨a, ha⟩ := hnone j
      subst hzero
      refine .inr ⟨a, 0, ?_, rfl, rfl, hpos⟩
      rw [List.take_zero, parse_bind_ok confined_readFlags (hf j) parse_readFlags_nil, ha]
      rfl
    · have hne : (Varint.bytes flags).take k ≠ [] := by
        rw [← List.length_pos_iff, List.length_take]
        omega
      left
      apply parse_bind_error
      rw [parse_readFlags hne, Varint.demands_bytes flags k hk]
      rfl
  · rw [flagBytes, if_neg hpos] at hk
    cases hk

/-- A field behind the flags, and the further steps. -/
theorem delimits_readSteps_cons (hflags : flags < 0x10000000000000000)
    (hann : Announced l i (s :: rest) flags known)
    (hc : ∀ s' ∈ s :: rest, Confined (member s').read)
    (hdry : ∀ s' ∈ rest, Dry (member s').read) {F N : Nat → Prop} {x y : Bytes}
    (hfield : Delimits (fun acc => readField member s flags acc) F x)
    (hrest : Delimits (fun acc => l.readSteps member (i + 1) (l.knownAt flags known i) acc rest)
      N y) :
    Delimits (fun acc => l.readSteps member i known acc (s :: rest))
      (fun k => (k = 0 ∧ l.flagsPosition = some i) ∨
        ∃ j, k = (flagBytes l.flagsPosition flags i).length + j ∧
          (F j ∨ ∃ m, j = x.length + m ∧ N m))
      (flagBytes l.flagsPosition flags i ++ (x ++ y)) := by
  have hcs := hc s List.mem_cons_self
  have hcrest : ∀ s' ∈ rest, Confined (member s').read := fun s' hs' =>
    hc s' (List.mem_cons_of_mem _ hs')
  have hboth := delimits_bind
    (f := fun _ acc => l.readSteps member (i + 1) (l.knownAt flags known i) acc rest)
    (fun acc => confined_readField hcs flags acc) (fun _ _ => confined_readSteps hcrest _ _ _)
    hfield (hrest.reindex Prod.snd)
    fun _ acc => dry_readSteps hcrest (fun s' hs' _ => hdry s' hs') (i + 1) acc
  simp only [← hann.readField_eq member] at hboth
  refine delimits_flagsAt hflags i known (fun acc r => ?_) (fun acc => ⟨acc, rfl⟩) hboth
  cases r with
  | none => exact confined_pure _
  | some found =>
    exact confined_bind (confined_readField hcs _ _) fun _ => confined_readSteps hcrest _ _ _

theorem delimits_readField (hc : Confined (member s).read) {x : Bytes}
    (hx : YieldsField member flags fields s x) (hfits : x.Fits)
    (h : (member s).Guards (M s) (fields.get s.name)) :
    Delimits (fun acc => readField member s flags acc)
      (fun k => s.isWritten flags = true ∧ M s (fields.get s.name) k) x := by
  unfold YieldsField at hx
  cases hs : s.isWritten flags with
  | true =>
    rw [hs, if_pos rfl] at hx
    simp only [readField_written hs]
    have hread := (mimics_bind_pure (fun _ : Unit => hc) (fun _ => ())
      fun acc v => Assoc.insert s.name v acc).delimits (h x hfits hx)
    exact hread.imp fun k hk => ⟨trivial, hk⟩
  | false =>
    rw [hs, if_neg (by decide)] at hx
    subst hx
    simp only [readField_skipped hs]
    exact delimits_pure _ _

/-- The bytes of steps are delimited when those of the fields are. -/
theorem delimits_readSteps (hflags : flags < 0x10000000000000000) {bs : List Bytes}
    (hbs : YieldsSteps member flags fields steps bs) (hfits : ∀ x ∈ bs, x.Fits)
    (hann : Announced l i steps flags known) (hc : ∀ s ∈ steps, Confined (member s).read)
    (hdry : ∀ s ∈ steps, Dry (member s).read)
    (h : ∀ s ∈ steps, (member s).Guards (M s) (fields.get s.name)) :
    Delimits (fun acc => l.readSteps member i known acc steps)
      (StepMark member M l.flagsPosition flags fields i steps)
      (stepBytes l.flagsPosition flags i bs) := by
  have hown {steps : List FieldStep} {i : Nat} (hpos : l.flagsPosition = some i) :
      StepMark member M l.flagsPosition flags fields i steps 0 :=
    .flags (show steps = [] ++ steps from rfl) .nil hpos
  induction steps generalizing i known bs with
  | nil =>
    cases hbs
    have hend : Delimits (fun acc : Fields => pure acc) (fun _ => False) [] := delimits_pure id _
    have hflag := delimits_flagsAt (l := l) (f := fun acc _ => pure acc) hflags i known
      (fun _ _ => confined_pure _) (fun acc => ⟨acc, rfl⟩) hend
    rw [List.append_nil] at hflag
    refine hflag.imp fun k hk => ?_
    rcases hk with ⟨rfl, hpos⟩ | ⟨_, -, hfalse⟩
    · exact hown hpos
    · exact hfalse.elim
  | cons s rest ih =>
    obtain ⟨x, bs, rfl, hx, htail⟩ := hbs.cons_inv
    have hdryrest : ∀ s' ∈ rest, Dry (member s').read := fun s' hs' =>
      hdry s' (List.mem_cons_of_mem _ hs')
    have hrest := ih htail (fun y hy => hfits y (List.mem_cons_of_mem _ hy)) hann.tail
      (fun s' hs' => hc s' (List.mem_cons_of_mem _ hs')) hdryrest
      fun s' hs' => h s' (List.mem_cons_of_mem _ hs')
    have hfield := delimits_readField (hc s List.mem_cons_self) hx (hfits x List.mem_cons_self)
      (h s List.mem_cons_self)
    rw [stepBytes, List.append_assoc]
    refine (delimits_readSteps_cons hflags hann hc hdryrest hfield hrest).imp fun k hk => ?_
    -- the input ends before the flags, in this field, or behind it
    rcases hk with ⟨rfl, hpos⟩ | ⟨_, rfl, ⟨hs, hmark⟩ | ⟨m, rfl, hmark⟩⟩
    · exact hown hpos
    · exact .field (show s :: rest = [] ++ s :: rest from rfl) .nil hs hmark
    · exact hmark.cons hx

/-- The marks of a record are its flags and the marks of the fields that are written. -/
theorem guards_record (hreg : ∀ s ∈ l.steps, (member s).Regular)
    (hc : ∀ s ∈ l.steps, Confined (member s).read) (hdry : ∀ s ∈ l.steps, Dry (member s).read)
    (hann : ∀ flags, Announced l 0 l.steps flags 0)
    (hflags : ∀ fields, l.flags fields < 0x10000000000000000) {v : Value}
    (h : ∀ fields, v.toFields = .ok fields →
      ∀ s ∈ l.steps, (member s).Guards (M s) (fields.get s.name)) :
    (l.codec member).Guards (fun v k => ∃ fields, v.toFields = .ok fields ∧
      StepMark member M l.flagsPosition (l.flags fields) fields 0 l.steps k) v := by
  intro bytes hfits hy
  obtain ⟨fields, bs, hv, -, rfl, hbs⟩ := record_yields_inv hreg hy
  have hsteps := delimits_readSteps (hflags fields) hbs
    (fun x hx => hfits.of_le (length_le_stepBytes _ _ 0 hx)) (hann _) hc hdry (h fields hv)
  have hread := (mimics_bind_pure (fun acc => confined_readSteps hc 0 0 acc)
    (fun _ : Unit => l.defaults) fun _ acc => Value.struct acc).delimits hsteps
  exact hread.imp fun k hk => ⟨fields, hv, hk⟩

end RecordLayout

/-! ## What stands at an offset -/

/-- What stands at an offset in a piece stands there behind the pieces before it. -/
theorem prefix_drop_append {p y : Bytes} {k : Nat} (h : p <+: y.drop k) (x z : Bytes) :
    p <+: (x ++ (y ++ z)).drop (x.length + k) := by
  rw [List.drop_append, List.drop_eq_nil_of_le (Nat.le_add_right _ _), List.nil_append,
    Nat.add_sub_cancel_left, List.drop_append]
  exact h.trans (List.prefix_append _ _)

theorem Codec.YieldsItems.split {c : Codec} {before after : List Value} {bs all : List Bytes}
    (hbs : YieldsItems c before bs) (h : YieldsItems c (before ++ after) all) :
    ∃ cs, all = bs ++ cs ∧ YieldsItems c after cs := by
  induction hbs generalizing all with
  | nil => exact ⟨all, rfl, h⟩
  | cons head _ ih =>
    cases h with
    | cons head' tail' =>
      obtain ⟨cs, rfl, hcs⟩ := ih tail'
      exact ⟨cs, by rw [head.unique head']; rfl, hcs⟩

/-- What stands in the bytes of an item stands in those of the sequence, behind the length and the
items before. -/
theorem Codec.prefix_of_item {c : Codec} (hreg : c.Regular) {v u : Value}
    {before after : List Value} {bs : List Bytes} {x p : Bytes} {k : Nat}
    (hy : c.sequence.Yields v x) (hv : v.toItems = .ok (before ++ u :: after))
    (hbs : YieldsItems c before bs) (h : ∀ y, c.Yields u y → p <+: y.drop k) :
    p <+: x.drop (Varint.size (before ++ u :: after).length + (bs.flatten.length + k)) := by
  obtain ⟨items, all, hv', rfl, hall⟩ := sequence_yields_inv hreg hy
  obtain rfl : before ++ u :: after = items := Except.ok.inj (hv.symm.trans hv')
  obtain ⟨cs, rfl, hcs⟩ := hbs.split hall
  cases hcs with
  | @cons _ y _ cs head _ =>
    have hmark := prefix_drop_append (h y head)
      (Varint.bytes (before ++ u :: after).length ++ bs.flatten) cs.flatten
    rw [List.length_append, Varint.length_bytes, Nat.add_assoc] at hmark
    rwa [List.flatten_append, List.flatten_cons, ← List.append_assoc]

namespace RecordLayout

variable {l : RecordLayout} {member : FieldStep → Codec} {position : Option Nat} {flags i : Nat}
  {fields : Fields} {before after : List FieldStep} {bs : List Bytes} {v : Value} {x : Bytes}

theorem YieldsSteps.length_eq (h : YieldsSteps member flags fields before bs) :
    bs.length = before.length := by
  induction h with
  | nil => rfl
  | written _ _ _ ih | skipped _ _ ih => exact congrArg (· + 1) ih

theorem YieldsSteps.split {all : List Bytes} (hbs : YieldsSteps member flags fields before bs)
    (h : YieldsSteps member flags fields (before ++ after) all) :
    ∃ cs, all = bs ++ cs ∧ YieldsSteps member flags fields after cs := by
  induction before generalizing bs all with
  | nil =>
    cases hbs
    exact ⟨all, rfl, h⟩
  | cons s before ih =>
    obtain ⟨x, bs, rfl, hx, hbs⟩ := hbs.cons_inv
    obtain ⟨y, all, rfl, hy, hall⟩ := h.cons_inv
    obtain ⟨cs, rfl, hcs⟩ := ih hbs hall
    exact ⟨cs, by rw [hx.unique hy]; rfl, hcs⟩

theorem stepBytes_append (xs ys : List Bytes) :
    stepBytes position flags i (xs ++ ys) =
      leadBytes position flags i xs ++ stepBytes position flags (i + xs.length) ys := by
  rw [stepBytes_eq, stepBytes_eq, leadBytes_append, List.length_append, List.append_assoc,
    Nat.add_assoc]

/-- Before their position there is no sign of the flags. -/
theorem leadBytes_before {p : Nat} (hp : position = some p) (hle : i + bs.length ≤ p) :
    leadBytes position flags i bs = bs.flatten := by
  induction bs generalizing i with
  | nil => rfl
  | cons b bs ih =>
    rw [List.length_cons] at hle
    have hne : position ≠ some i := by
      rw [hp]
      intro heq
      have := Option.some.inj heq
      omega
    rw [leadBytes, flagBytes, if_neg hne, ih (by omega)]
    rfl

/-- What the steps behind the first ones have written stands behind the bytes of those. -/
theorem stepBytes_of_yields (hreg : ∀ s ∈ l.steps, (member s).Regular)
    (hy : (l.codec member).Yields v x) (hv : v.toFields = .ok fields)
    (hsteps : l.steps = before ++ after)
    (hbs : YieldsSteps member (l.flags fields) fields before bs) :
    ∃ cs, YieldsSteps member (l.flags fields) fields after cs ∧
      x = leadBytes l.flagsPosition (l.flags fields) 0 bs ++
        stepBytes l.flagsPosition (l.flags fields) before.length cs := by
  obtain ⟨fields', all, hv', -, rfl, hall⟩ := record_yields_inv hreg hy
  obtain rfl : fields = fields' := Except.ok.inj (hv.symm.trans hv')
  rw [hsteps] at hall
  obtain ⟨cs, rfl, hcs⟩ := hbs.split hall
  exact ⟨cs, hcs, by rw [stepBytes_append, Nat.zero_add, hbs.length_eq]⟩

theorem flagBytes_prefix (bs : List Bytes) :
    flagBytes position flags i <+: stepBytes position flags i bs := by
  cases bs with
  | nil => exact List.prefix_rfl
  | cons b bs =>
    simp only [stepBytes, List.append_assoc]
    exact List.prefix_append _ _

/-- The flags stand behind the fields before their position. -/
theorem prefix_of_flags (hreg : ∀ s ∈ l.steps, (member s).Regular)
    (hy : (l.codec member).Yields v x) (hv : v.toFields = .ok fields)
    (hsteps : l.steps = before ++ after)
    (hbs : YieldsSteps member (l.flags fields) fields before bs)
    (hpos : l.flagsPosition = some before.length) :
    Varint.bytes (l.flags fields) <+: x.drop bs.flatten.length := by
  obtain ⟨cs, -, rfl⟩ := stepBytes_of_yields hreg hy hv hsteps hbs
  have hflags : flagBytes l.flagsPosition (l.flags fields) before.length =
      Varint.bytes (l.flags fields) := if_pos hpos
  rw [leadBytes_before hpos (by rw [Nat.zero_add, hbs.length_eq]), List.drop_left, ← hflags]
  exact flagBytes_prefix cs

/-- What stands in the bytes of a field stands in those of the record, behind the fields before and
their flags. -/
theorem prefix_of_field (hreg : ∀ s ∈ l.steps, (member s).Regular)
    (hy : (l.codec member).Yields v x) (hv : v.toFields = .ok fields) {s : FieldStep}
    (hsteps : l.steps = before ++ s :: after)
    (hbs : YieldsSteps member (l.flags fields) fields before bs)
    (hs : s.isWritten (l.flags fields) = true) {p : Bytes} {k : Nat}
    (h : ∀ y, (member s).Yields (fields.get s.name) y → p <+: y.drop k) :
    p <+: x.drop ((stepBytes l.flagsPosition (l.flags fields) 0 bs).length + k) := by
  obtain ⟨cs, hcs, rfl⟩ := stepBytes_of_yields hreg hy hv hsteps hbs
  obtain ⟨y, cs, rfl, hy, -⟩ := hcs.cons_inv
  rw [YieldsField, if_pos hs] at hy
  rw [stepBytes, List.append_assoc, ← List.append_assoc (leadBytes _ _ _ _), ← hbs.length_eq,
    ← Nat.zero_add bs.length, ← stepBytes_eq]
  exact prefix_drop_append (h y hy) _ _

end RecordLayout

end WireSchema

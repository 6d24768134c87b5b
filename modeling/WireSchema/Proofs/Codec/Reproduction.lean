import WireSchema.Proofs.Codec.Follow

/-!
# What is read is written again

A value is *reproduced* by a codec when it is written as bytes that are read as the same value; a
value that lacks a required field is refused for it instead (`Codec.Reproduces`).  A codec *settles* a
value when whatever is read from the bytes of the value is reproduced (`Codec.Settles`).  Frames,
sequences and tagged payloads settle what their parts settle (`settles_frame`, `settles_sequence`,
`settles_tagged`), and so do records: the fields that were not there are at their defaults, so these
have to be reproduced too (`settles_record`).
-/

namespace WireSchema

open CursorM

namespace Codec

/-- Whatever is read from the bytes is read to their end, and has a property. -/
def Gives (c : Codec) (b : Bytes) (P : Value → Prop) : Prop :=
  ∀ rest w k, c.read.parse (b ++ rest) = .ok (w, k) → k = b.length ∧ P w

/-- The passes refuse a value for a required field that is missing. -/
def Misses (step : CursorM Unit) : Prop :=
  ∃ fqn field, Refuses step (.missingRequiredField fqn field)

/-- A value that is filled is written as bytes that are read as the value, and another is refused
for a required field that is missing. -/
structure Reproduces (c : Codec) (filled : Prop) (w : Value) : Prop where
  again : filled → ∃ b, c.Yields w b ∧ (b.Fits → c.ReadsBack b w)
  missing : ¬ filled → Misses (c.reserve w)

/-- What holds of a value that was read: it is reproduced, it is null only where that may be, and it
is filled where no required field can be null. -/
structure Settled (c : Codec) (filled blank solid : Prop) (w : Value) : Prop
    extends c.Reproduces filled w where
  blank : w = .null → blank
  full : solid → filled

/-- Whatever is read from the bytes of a value is settled. -/
def Settles (c : Codec) (filled : Value → Prop) (blank solid : Prop) (v : Value) : Prop :=
  ∀ b : Bytes, b.Fits → c.Yields v b → c.Gives b fun w => c.Settled (filled w) blank solid w

variable {c : Codec} {b : Bytes} {P : Value → Prop} {filled : Value → Prop} {blank solid : Prop}
  {v w : Value}

theorem Gives.follows (h : c.Gives b P) (framed : Bool) : Follows framed c c id b := by
  intro rest _ w k hp
  obtain ⟨rfl, -⟩ := h rest w k hp
  exact ⟨rfl, hp⟩

theorem Reproduces.imp {f g : Prop} (h : c.Reproduces f w) (hiff : f ↔ g) : c.Reproduces g w :=
  ⟨fun hg => h.again (hiff.mpr hg), fun hg => h.missing fun hf => hg (hiff.mp hf)⟩

theorem Misses.bind {r : CursorM Unit} (h : Misses r) (s : CursorM Unit) :
    Misses (r >>= fun _ => s) := by
  obtain ⟨fqn, field, h⟩ := h
  exact ⟨fqn, field, refuses_bind h s⟩

theorem Misses.after {r w s : CursorM Unit} {b : Bytes} (h : Misses s)
    (hy : CursorM.Yields r w b) : Misses (r >>= fun _ => s) := by
  obtain ⟨fqn, field, h⟩ := h
  obtain ⟨fs, hr, -⟩ := hy
  exact ⟨fqn, field, refuses_bind_right hr h⟩

/-! ## Frames -/

theorem reproduces_frame {f : Prop} (hc : Confined c.read) (h : c.Reproduces f w) :
    c.frame.Reproduces f w where
  again hf := by
    obtain ⟨b, hy, hback⟩ := h.again hf
    refine ⟨_, yields_frame hy, fun hfits rest => ?_⟩
    have halone := hback hfits.right []
    rw [List.append_nil] at halone
    rw [parse_frame_append hc hfits.right, halone]
    rfl
  missing hf := by
    obtain ⟨fqn, field, h⟩ := h.missing hf
    exact ⟨fqn, field, refuses_frame h⟩

theorem settles_frame (hreg : c.Regular) (hc : Confined c.read)
    (h : c.Settles filled blank solid v) : c.frame.Settles filled blank solid v := by
  intro bytes hfits hy rest w k hp
  obtain ⟨b, rfl, hb⟩ := frame_yields_inv hreg hy
  rw [parse_frame_append hc hfits.right] at hp
  obtain ⟨⟨u, j⟩, hread, heq⟩ := ok_of_map hp
  cases heq
  have halone := h b hfits.right hb [] u j
  rw [List.append_nil] at halone
  obtain ⟨-, hsettled⟩ := halone hread
  exact ⟨rfl, reproduces_frame hc hsettled.toReproduces, hsettled.blank, hsettled.full⟩

/-! ## Sequences -/

/-- Items are written and read back one by one, up to the first that is refused. -/
theorem reproduces_items {items : List Value} (h : ∀ u ∈ items, c.Reproduces (filled u) u)
    (hpos : ∀ u, ¬ c.Yields u []) :
    ((∀ u ∈ items, filled u) → ∃ bs, YieldsItems c items bs ∧
      (Bytes.Fits bs.flatten → ReadsItems c bs items)) ∧
    (¬ (∀ u ∈ items, filled u) → Misses (c.reserveItems items)) := by
  induction items with
  | nil =>
    exact ⟨fun _ => ⟨[], .nil, fun _ => .nil⟩, fun h => absurd (fun _ hu => by cases hu) h⟩
  | cons u items ih =>
    obtain ⟨hall, hnot⟩ := ih fun x hx => h x (List.mem_cons_of_mem _ hx)
    have hu := h u List.mem_cons_self
    rw [List.forall_mem_cons]
    constructor
    · rintro ⟨hfilled, hrest⟩
      obtain ⟨b, hy, hback⟩ := hu.again hfilled
      obtain ⟨bs, hbs, hreads⟩ := hall hrest
      refine ⟨b :: bs, .cons hy hbs, fun hfits => ?_⟩
      rw [List.flatten_cons] at hfits
      exact .cons (hback hfits.left) (fun hb => hpos u (hb ▸ hy)) (hreads hfits.right)
    · intro hsome
      by_cases hfilled : filled u
      · obtain ⟨b, hy, -⟩ := hu.again hfilled
        exact (hnot fun hrest => hsome ⟨hfilled, hrest⟩).after hy
      · exact (hu.missing hfilled).bind _

theorem reproduces_sequence (hc : Confined c.read) {items : List Value}
    (h : ∀ u ∈ items, c.Reproduces (filled u) u) (hpos : ∀ u, ¬ c.Yields u []) :
    c.sequence.Reproduces (∀ u ∈ items, filled u) (.array items) := by
  obtain ⟨hall, hnot⟩ := reproduces_items h hpos
  have hcount := Varint.yields_bytes items.length
  refine ⟨fun hfilled => ?_, fun hfilled => (hnot hfilled).after hcount⟩
  obtain ⟨bs, hy, hreads⟩ := hall hfilled
  refine ⟨_, yields_bind hcount (yields_items hy), fun hfits => ?_⟩
  have hback := hreads hfits.right
  exact parse_sequence_append hc hback (Nat.lt_of_le_of_lt hback.length_le hfits.right)

/-- Items that are read where they stand have the property that goes with their bytes. -/
theorem gives_items (hc : Confined c.read) {bs : List Bytes} (h : ∀ x ∈ bs, c.Gives x P)
    (scarce : Bool) (rest : Bytes) {ws : List Value} {k : Nat}
    (hp : (c.readItems scarce bs.length).parse (bs.flatten ++ rest) = .ok (ws, k)) :
    k = bs.flatten.length ∧ ∀ w ∈ ws, P w := by
  induction bs generalizing ws k with
  | nil =>
    cases hp
    exact ⟨rfl, fun _ hw => by cases hw⟩
  | cons x bs ih =>
    rw [List.length_cons, List.flatten_cons, List.append_assoc, parse_readItems_succ hc] at hp
    cases hx : c.read.parse (x ++ (bs.flatten ++ rest)) with
    | error e => rw [hx] at hp; cases hp
    | ok p =>
      obtain ⟨w, j⟩ := p
      rw [hx] at hp
      obtain ⟨rfl, hw⟩ := h x List.mem_cons_self _ _ _ hx
      dsimp only at hp
      split at hp
      · cases hp
      · rw [List.drop_left] at hp
        obtain ⟨j, hmap, rfl⟩ := shift_eq_ok hp
        obtain ⟨⟨vs, m⟩, hrest, heq⟩ := ok_of_map hmap
        cases heq
        obtain ⟨rfl, hvs⟩ := ih (fun y hy => h y (List.mem_cons_of_mem _ hy)) hrest
        exact ⟨by rw [List.flatten_cons, List.length_append], List.forall_mem_cons.mpr ⟨hw, hvs⟩⟩

theorem gives_sequence (hc : Confined c.read) {bs : List Bytes}
    (hcount : bs.length < 0x10000000000000000) (h : ∀ x ∈ bs, c.Gives x P) :
    c.sequence.Gives (Varint.bytes bs.length ++ bs.flatten)
      fun w => ∃ ws, w = .array ws ∧ ∀ u ∈ ws, P u := by
  intro rest w k hp
  have hn := Varint.parse_varint_append hcount (bs.flatten ++ rest)
  rw [← Varint.length_bytes] at hn
  rw [List.append_assoc, parse_sequence hc hn, List.drop_left] at hp
  obtain ⟨⟨ws, j⟩, hitems, heq⟩ := ok_of_map hp
  cases heq
  obtain ⟨rfl, hws⟩ := gives_items hc h _ rest hitems
  exact ⟨by rw [List.length_append], ws, rfl, hws⟩

theorem mem_of_yieldsItems {items : List Value} {bs : List Bytes} (h : YieldsItems c items bs)
    {x : Bytes} (hx : x ∈ bs) : ∃ u ∈ items, c.Yields u x := by
  induction h with
  | nil => cases hx
  | @cons u b items bs head _ ih =>
    rcases List.mem_cons.mp hx with rfl | hx
    · exact ⟨u, List.mem_cons_self, head⟩
    · obtain ⟨y, hy, hyx⟩ := ih hx
      exact ⟨y, List.mem_cons_of_mem _ hy, hyx⟩

/-- Items that are not empty are no more than their bytes. -/
theorem YieldsItems.length_le {items : List Value} {bs : List Bytes} (h : YieldsItems c items bs)
    (hpos : ∀ u, ¬ c.Yields u []) : items.length ≤ bs.flatten.length := by
  induction h with
  | nil => exact Nat.le_refl 0
  | @cons u b items bs head _ ih =>
    have hb : 0 < b.length := List.length_pos_iff.mpr fun hb => hpos u (hb ▸ head)
    rw [List.length_cons, List.flatten_cons, List.length_append]
    omega

theorem settles_sequence (hreg : c.Regular) (hc : Confined c.read)
    (hpos : ∀ u, ¬ c.Yields u [])
    (h : ∀ items, v.toItems = .ok items → ∀ u ∈ items, c.Settles filled blank solid u) :
    c.sequence.Settles (fun w => ∀ items, w.toItems = .ok items → ∀ u ∈ items, filled u) False solid
      v := by
  intro bytes hfits hy rest w k hp
  obtain ⟨items, bs, hv, rfl, hbs⟩ := sequence_yields_inv hreg hy
  have hcount : bs.length < 0x10000000000000000 := by
    rw [← hbs.length_eq]
    exact Nat.lt_of_le_of_lt (hbs.length_le hpos) hfits.right
  have hitems (x : Bytes) (hx : x ∈ bs) :
      c.Gives x fun w => c.Settled (filled w) blank solid w := by
    obtain ⟨u, hu, hyx⟩ := mem_of_yieldsItems hbs hx
    have hle : x.length ≤ bs.flatten.length := (List.sublist_flatten_of_mem hx).length_le
    exact h items hv u hu x (Nat.lt_of_le_of_lt hle hfits.right) hyx
  rw [hbs.length_eq] at hp ⊢
  obtain ⟨rfl, ws, rfl, hws⟩ := gives_sequence hc hcount hitems rest w k hp
  have hfilled : (∀ u ∈ ws, filled u) ↔
      ∀ items, (Value.array ws).toItems = .ok items → ∀ u ∈ items, filled u := by
    constructor
    · rintro hall _ ⟨⟩
      exact hall
    · exact fun hall => hall ws rfl
  refine ⟨rfl, (reproduces_sequence hc (fun u hu => (hws u hu).toReproduces) hpos).imp hfilled, nofun,
    fun hsolid => hfilled.mp fun u hu => (hws u hu).full hsolid⟩

/-! ## Tagged payloads -/

section Tagged

variable {fqn : String} {entries : List VersionEntry} {payload : VersionEntry → Codec}
  {migration : String → Option (Value → Value)} {e : VersionEntry}

theorem yields_tagged (he : latestEntry fqn entries = .ok e) (h : (payload e).Yields w b) :
    (tagged fqn entries payload migration).Yields w (Varint.bytes e.version.toNat ++ b) := by
  unfold Yields tagged
  dsimp only
  rw [he]
  exact yields_bind (Varint.yields_bytes _) h

/-- A payload of the latest shape is reproduced behind its tag. -/
theorem reproduces_tagged {f : Prop} (hc : ∀ e ∈ entries, Confined (payload e).read)
    (hasc : Ascending entries) (he : latestEntry fqn entries = .ok e) (hmap : e.map = none)
    (h : (payload e).Reproduces f w) : (tagged fqn entries payload migration).Reproduces f w where
  again hf := by
    obtain ⟨b, hy, hback⟩ := h.again hf
    refine ⟨_, yields_tagged he hy, fun hfits rest => ?_⟩
    rw [List.append_assoc,
      parse_tagged_append hc (entryOfTag_of_mem hasc (latestEntry_mem he)) hmap,
      hback hfits.right rest, shift_ok, List.length_append]
  missing hf := by
    unfold tagged
    dsimp only
    rw [he]
    exact (h.missing hf).after (Varint.yields_bytes _)

theorem settles_tagged {filled : VersionEntry → Value → Prop} {blank solid : VersionEntry → Prop}
    (hreg : ∀ e ∈ entries, (payload e).Regular) (hc : ∀ e ∈ entries, Confined (payload e).read)
    (hasc : Ascending entries)
    (h : ∀ e, latestEntry fqn entries = .ok e →
      e.map = none ∧ (payload e).Settles (filled e) (blank e) (solid e) v) :
    (tagged fqn entries payload migration).Settles
      (fun w => ∀ e, latestEntry fqn entries = .ok e → filled e w)
      (∃ e, latestEntry fqn entries = .ok e ∧ blank e)
      (∀ e, latestEntry fqn entries = .ok e → solid e) v := by
  intro bytes hfits hy rest w k hp
  obtain ⟨e, b, he, rfl, hb⟩ := tagged_yields_inv hreg hy
  obtain ⟨hmap, hsettles⟩ := h e he
  rw [List.append_assoc,
    parse_tagged_append hc (entryOfTag_of_mem hasc (latestEntry_mem he)) hmap] at hp
  obtain ⟨j, hread, rfl⟩ := shift_eq_ok hp
  obtain ⟨rfl, hsettled⟩ := hsettles b hfits.right hb rest w j hread
  have hfilled : filled e w ↔ ∀ e, latestEntry fqn entries = .ok e → filled e w := by
    constructor
    · intro hw e' he'
      cases he.symm.trans he'
      exact hw
    · exact fun hall => hall e he
  exact ⟨by rw [List.length_append],
    (reproduces_tagged hc hasc he hmap hsettled.toReproduces).imp hfilled,
    fun hw => ⟨e, he, hsettled.blank hw⟩, fun hsolid => hfilled.mp (hsettled.full (hsolid e he))⟩

end Tagged

end Codec

/-! ## Choices -/

namespace Choice

theorem yields_choice {e : Choice} {v w : Value} {ps : List Bytes} (hw : e.wire v = .ok w)
    (hps : e.wireKind.pieces w = .ok ps) : e.codec.Yields v ps.flatten := by
  unfold Codec.Yields codec
  dsimp only
  rw [hw]
  exact Primitive.yields_codec hps

/-- A number stands for a key that is no further on among the keys. -/
theorem index_le {e : Choice} {key : String} {i j : Nat} (hi : e.index key = .ok i)
    (hj : e.keys[j]? = some key) : i ≤ j := by
  unfold index at hi
  split at hi
  · rename_i m hm
    cases hi
    obtain ⟨_, _, hfirst⟩ := List.findIdx?_eq_some_iff_getElem.mp hm
    by_contra hlt
    obtain ⟨hlen, hkey⟩ := List.getElem?_eq_some_iff.mp hj
    exact hfirst j (by omega) (by rw [hkey]; exact beq_self_eq_true key)
  · cases hi

/-- A key that was read is written again, if not with the same number. -/
theorem reproduces_choice {e : Choice} {v : Value} {bytes : Bytes} (hy : e.codec.Yields v bytes)
    (hfits : bytes.Fits) {rest : Bytes} {w : Value} {k : Nat}
    (hp : e.read.parse (bytes ++ rest) = .ok (w, k)) : e.codec.Reproduces True w := by
  refine ⟨fun _ => ?_, fun h => absurd trivial h⟩
  cases hs : e.strings with
  | true =>
    obtain ⟨key, i, -, hi, rfl⟩ := parse_strings_inv hs hp
    have hwire : e.wire (.string key) = .ok (.string key) := by
      rw [wire_of_strings hs, Value.toText, ok_bind, hi]
      rfl
    have hkind : e.wireKind = .string := if_pos hs
    refine ⟨_, yields_choice hwire (by rw [hkind]; rfl), fun hfits' more => ?_⟩
    exact parse_strings hs hi (Primitive.parse_text hfits' more)
  | false =>
    obtain ⟨n, key, hread, hkey, rfl⟩ := parse_numbers_inv hs hp
    obtain ⟨x, ps, hx, hps, rfl⟩ := choice_yields_inv hy
    obtain ⟨m, rfl⟩ := wire_uint hs hx
    have hkind : e.wireKind = .uint := if_neg (by rw [hs]; decide)
    rw [hkind, Primitive.pieces, toUInt64_uint] at hps
    cases hps
    rw [Primitive.parse_compact m rest] at hread
    cases hread
    unfold keyOf? at hkey
    split at hkey
    · cases hkey
    · rename_i hge
      obtain ⟨i, hi⟩ := index_of_mem (List.mem_of_getElem? hkey)
      have hle := index_le hi hkey
      have hlt := m.toNat_lt
      have hwire : e.wire (.string key) = .ok (.uint (e.code i)) := by
        unfold wire
        rw [if_neg (by rw [hs]; decide)]
        dsimp only
        rw [hi]
        rfl
      refine ⟨_, yields_choice hwire (by rw [hkind, Primitive.pieces, toUInt64_uint]; rfl),
        fun _ more => ?_⟩
      exact parse_numbers hs (keyOf?_code_of_lt hi (by omega)) (Primitive.parse_compact _ more)

theorem settles_choice (e : Choice) (v : Value) (solid : Prop) :
    e.codec.Settles (fun _ => True) False solid v := by
  intro bytes hfits hy rest w k hp
  refine ⟨parse_choice_length hy hfits hp, reproduces_choice hy hfits hp, ?_, fun _ => trivial⟩
  rintro rfl
  cases hs : e.strings with
  | true => obtain ⟨_, _, -, -, ⟨⟩⟩ := parse_strings_inv hs hp
  | false => obtain ⟨_, _, -, -, ⟨⟩⟩ := parse_numbers_inv hs hp

end Choice

/-! ## Records -/

namespace RecordLayout

open Codec

variable {l : RecordLayout} {member : FieldStep → Codec} {fields : Fields}
  {steps : List FieldStep}

/-! ### Writing -/

/-- What is found missing is a required field. -/
theorem missing_of_requireAll {e : CodecError} (h : l.requireAll fields steps = .error e) :
    ∃ field, e = .missingRequiredField l.fqn field := by
  rw [requireAll_eq] at h
  split at h
  · cases h
  · cases h
    exact ⟨_, rfl⟩

/-- A value with every required field is written step by step. -/
theorem putValue_struct (hr : l.requireAll fields l.steps = .ok ())
    (putFlags : Nat → CursorM Unit) (put : FieldStep → Value → CursorM Unit) :
    l.putValue putFlags put (.struct fields) =
      putSteps l.flagsPosition (putFlags (l.flags fields))
        (fun s => if s.isWritten (l.flags fields) then put s (fields.get s.name) else pure ()) 0
        l.steps := by
  unfold putValue
  rw [Value.toFields, ofExcept_ok, pure_bind, hr, ofExcept_ok, pure_bind]

/-- The bytes of a field under flags, if it has any. -/
theorem yields_field {s : FieldStep} {flags : Nat} {b : Bytes}
    (hwritten : s.isWritten flags = true → (member s).Yields (fields.get s.name) b)
    (hskipped : s.isWritten flags = false → b = []) :
    CursorM.Yields
      (if s.isWritten flags then (member s).reserve (fields.get s.name) else pure ())
      (if s.isWritten flags then (member s).write (fields.get s.name) else pure ()) b := by
  cases hs : s.isWritten flags with
  | true => exact hwritten hs
  | false =>
    rw [hskipped hs]
    exact yields_pure

theorem yields_steps {flags : Nat} {bs : List Bytes}
    (h : YieldsSteps member flags fields steps bs) (position : Option Nat) (i : Nat) :
    CursorM.Yields
      (putSteps position (Varint.reserve flags)
        (fun s => if s.isWritten flags then (member s).reserve (fields.get s.name) else pure ()) i
        steps)
      (putSteps position (Varint.write flags)
        (fun s => if s.isWritten flags then (member s).write (fields.get s.name) else pure ()) i
        steps) (stepBytes position flags i bs) := by
  induction h generalizing i with
  | nil => exact yields_flagBytes position flags i
  | written hs head tail ih =>
    rw [putSteps_cons, putSteps_cons, stepBytes, List.append_assoc]
    refine yields_bind (yields_flagBytes position flags i) (yields_bind ?_ (ih (i + 1)))
    exact yields_field (fun _ => head) fun hn => absurd (hs.symm.trans hn) (by decide)
  | skipped hs tail ih =>
    rw [putSteps_cons, putSteps_cons, stepBytes, List.append_assoc]
    refine yields_bind (yields_flagBytes position flags i) (yields_bind ?_ (ih (i + 1)))
    exact yields_field (fun hw => absurd (hs.symm.trans hw) (by decide)) fun _ => rfl

/-! ### Writing again -/

/-- What is written of a field. -/
def writtenValue (flags : Nat) (fields : Fields) (s : FieldStep) : Option Value :=
  if s.isWritten flags then some (fields.get s.name) else none

/-- Fields are written and read back one by one, up to the first that is refused. -/
theorem reproduces_steps (flags : Nat) (filled : FieldStep → Prop)
    (h : ∀ s ∈ steps, s.isWritten flags = true →
      (member s).Reproduces (filled s) (fields.get s.name)) :
    ((∀ s ∈ steps, s.isWritten flags = true → filled s) →
      ∃ bs, YieldsSteps member flags fields steps bs ∧
        ((∀ x ∈ bs, x.Fits) → ∀ position more i, ReadsSteps member position flags more i steps bs
          (steps.map (writtenValue flags fields)))) ∧
    (¬ (∀ s ∈ steps, s.isWritten flags = true → filled s) → ∀ position i,
      Misses (putSteps position (Varint.reserve flags)
        (fun s => if s.isWritten flags then (member s).reserve (fields.get s.name) else pure ()) i
        steps)) := by
  induction steps with
  | nil =>
    exact ⟨fun _ => ⟨[], .nil, fun _ _ _ _ => .nil⟩, fun h => absurd (fun _ hs => by cases hs) h⟩
  | cons s steps ih =>
    obtain ⟨hall, hnot⟩ := ih fun s' hs' => h s' (List.mem_cons_of_mem _ hs')
    have hs := h s List.mem_cons_self
    rw [List.forall_mem_cons]
    constructor
    · rintro ⟨hfilled, hrest⟩
      obtain ⟨bs, hbs, hreads⟩ := hall hrest
      cases hw : s.isWritten flags with
      | true =>
        obtain ⟨b, hy, hback⟩ := (hs hw).again (hfilled hw)
        refine ⟨b :: bs, .written hw hy hbs, fun hfits position more i => ?_⟩
        rw [List.map_cons, writtenValue, if_pos hw]
        exact .written hw (hback (hfits b List.mem_cons_self) _)
          (hreads (fun x hx => hfits x (List.mem_cons_of_mem _ hx)) _ _ _)
      | false =>
        refine ⟨[] :: bs, .skipped hw hbs, fun hfits position more i => ?_⟩
        rw [List.map_cons, writtenValue, if_neg (by rw [hw]; decide)]
        exact .skipped hw (hreads (fun x hx => hfits x (List.mem_cons_of_mem _ hx)) _ _ _)
    · intro hsome position i
      rw [putSteps_cons]
      refine Misses.after ?_ (yields_flagBytes position flags i)
      by_cases hfilled : s.isWritten flags = true → filled s
      · have hrest := hnot (fun hrest => hsome ⟨hfilled, hrest⟩) position (i + 1)
        cases hw : s.isWritten flags with
        | true =>
          obtain ⟨b, hy, -⟩ := (hs hw).again (hfilled hw)
          exact hrest.after hy
        | false => exact hrest.after yields_pure
      · obtain ⟨hw, hfilled⟩ := Classical.not_imp.mp hfilled
        rw [if_pos hw]
        exact ((hs hw).missing hfilled).bind _

/-- The fields have everything that is required, and what they hold is filled. -/
def Full (l : RecordLayout) (filled : FieldStep → Value → Prop) (fields : Fields) : Prop :=
  ∀ s ∈ l.steps, (s.optional = false → (fields.get s.name).isPresent = true) ∧
    filled s (fields.get s.name)

/-- The fields of a record that was read: those of its steps and no others, truth values where the
flag carries the value, null only where that is the default, and values that are reproduced where
they are written at all. -/
structure Held (l : RecordLayout) (member : FieldStep → Codec) (filled : FieldStep → Value → Prop)
    (fields : Fields) : Prop where
  whole : fields = Assoc.ofList (l.steps.map fun s => (s.name, fields.get s.name))
  bools : ∀ s ∈ l.steps, s.flagOnly = true → ∃ x, fields.get s.name = .bool x
  absent : ∀ s ∈ l.steps, fields.get s.name = .null → s.default = .null
  parts : ∀ s ∈ l.steps, s.flagOnly = false → (fields.get s.name).isPresent = true →
    (member s).Reproduces (filled s (fields.get s.name)) (fields.get s.name)
  idle : ∀ s ∈ l.steps, ¬ (s.flagOnly = false ∧ (fields.get s.name).isPresent = true) →
    filled s (fields.get s.name)

variable {filled : FieldStep → Value → Prop}

/-- What was read is held again when it is written and read once more. -/
theorem Held.heldFields_eq (h : Held l member filled fields) (hl : l.Sound)
    (hr : l.requireAll fields l.steps = .ok ()) :
    heldFields (l.flags fields) l.steps (l.steps.map (writtenValue (l.flags fields) fields)) =
      l.steps.map fun s => (s.name, fields.get s.name) := by
  rw [heldFields, List.zipWith_map_right, List.zipWith_self]
  refine List.map_congr_left fun s hs => ?_
  have hvalue : heldValue (l.flags fields) s (writtenValue (l.flags fields) fields s) =
      fields.get s.name := by
    have hwritten := hl.isWritten_eq hr hs
    unfold heldValue
    cases honly : s.flagOnly with
    | true =>
      have hopt : s.optional = true := by
        by_contra hno
        have := hl.written s hs (by simpa using hno)
        rw [honly] at this
        cases this
      obtain ⟨x, hx⟩ := h.bools s hs honly
      have hiff := flags_and_ne_zero_iff hl.bits fields hs hopt
      rw [FieldStep.isSet, honly, if_pos rfl, hx] at hiff
      rw [if_pos rfl, hx]
      exact congrArg Value.bool (by rw [Bool.eq_iff_iff, decide_eq_true_eq]; exact hiff)
    | false =>
      rw [honly, Bool.not_false, Bool.true_and] at hwritten
      rw [if_neg Bool.false_ne_true, writtenValue, hwritten]
      cases hp : (fields.get s.name).isPresent with
      | true => rfl
      | false =>
        have hnull : fields.get s.name = .null := by
          cases hv : fields.get s.name <;> rw [hv] at hp <;> first | rfl | cases hp
        rw [hnull]
        exact h.absent s hs hnull
  rw [hvalue]

/-- The fields of a record that was read are written again and read as themselves. -/
theorem Held.reproduces (h : Held l member filled fields) (hl : l.Sound)
    (hc : ∀ s ∈ l.steps, Confined (member s).read) :
    (l.codec member).Reproduces (l.Full filled fields) (.struct fields) := by
  -- under the flags of the fields, what is written is what is present
  have hpresent (hr : l.requireAll fields l.steps = .ok ()) {s : FieldStep} (hs : s ∈ l.steps) :
      s.isWritten (l.flags fields) = true ↔
        s.flagOnly = false ∧ (fields.get s.name).isPresent = true := by
    rw [hl.isWritten_eq hr hs, Bool.and_eq_true, Bool.not_eq_true']
  have hsteps (hr : l.requireAll fields l.steps = .ok ()) :=
    reproduces_steps (l.flags fields) (fun s => filled s (fields.get s.name)) fun s hs hw =>
      h.parts s hs ((hpresent hr hs).mp hw).1 ((hpresent hr hs).mp hw).2
  constructor
  · intro hfull
    have hr : l.requireAll fields l.steps = .ok () :=
      requireAll_eq_ok_iff.mpr fun s hs ho => (hfull s hs).1 ho
    obtain ⟨bs, hbs, hreads⟩ := (hsteps hr).1 fun s hs _ => (hfull s hs).2
    refine ⟨stepBytes l.flagsPosition (l.flags fields) 0 bs, ?_, fun hfits rest => ?_⟩
    · unfold Codec.Yields codec
      dsimp only
      rw [putValue_struct hr, putValue_struct hr]
      exact yields_steps hbs l.flagsPosition 0
    · have hback := parse_record_append hl hc (hl.flags_lt fields)
        (hreads (fun x hx => hfits.of_le (length_le_stepBytes _ _ 0 hx)) _ (_ ++ rest) _)
      rw [h.heldFields_eq hl hr, ← h.whole] at hback
      exact hback
  · intro hfull
    cases hr : l.requireAll fields l.steps with
    | error e =>
      obtain ⟨field, rfl⟩ := missing_of_requireAll hr
      refine ⟨l.fqn, field, fun c => ⟨c, ?_⟩⟩
      unfold codec putValue
      dsimp only
      rw [Value.toFields, ofExcept_ok, pure_bind, hr]
      rfl
    | ok u =>
      unfold codec
      dsimp only
      rw [putValue_struct hr]
      refine (hsteps hr).2 (fun hall => hfull fun s hs => ?_) _ _
      refine ⟨fun ho => requireAll_eq_ok_iff.mp hr s hs ho, ?_⟩
      by_cases hw : s.isWritten (l.flags fields) = true
      · exact hall s hs hw
      · exact h.idle s hs fun hp => hw ((hpresent hr hs).mpr hp)

/-! ### Reading -/

theorem get_ofList {bindings : Fields} (hd : (bindings.map Prod.fst).Nodup) {p : String × Value}
    (hp : p ∈ bindings) : Fields.get (Assoc.ofList bindings) p.1 = p.2 := by
  rw [Fields.get, Assoc.lookup_ofList hd, Assoc.lookup_of_mem hd hp]
  rfl

/-- The fields that are held are those of the steps. -/
theorem heldFields_eq_map {flags : Nat} {ws : List (Option Value)}
    (hd : (steps.map (·.name)).Nodup) (hws : ws.length = steps.length) :
    heldFields flags steps ws =
      steps.map fun s =>
        (s.name, Fields.get (Assoc.ofList (heldFields flags steps ws)) s.name) := by
  obtain ⟨held, hheld⟩ : ∃ held, held = heldFields flags steps ws := ⟨_, rfl⟩
  have hnames : held.map Prod.fst = steps.map (·.name) := hheld ▸ names_heldFields flags hws
  have hself : held.map (fun p => (p.1, Fields.get (Assoc.ofList held) p.1)) = held :=
    (List.map_congr_left fun p hp => by rw [get_ofList (hnames ▸ hd) hp]; rfl).trans (List.map_id _)
  rw [← hheld]
  calc held
    _ = (held.map Prod.fst).map fun k => (k, Fields.get (Assoc.ofList held) k) := by
      rw [List.map_map]
      exact hself.symm
    _ = steps.map fun s => (s.name, Fields.get (Assoc.ofList held) s.name) := by
      rw [hnames, List.map_map]
      rfl

/-- A step that was read holds a value with the property that goes with its bytes; one that was not
holds none. -/
theorem ReadsSteps.mem_heldFields {P : FieldStep → Value → Prop} {position : Option Nat}
    {flags : Nat} {more : Bytes} {i : Nat} {bs : List Bytes} {ws : List (Option Value)}
    (h : ReadsSteps member position flags more i steps bs ws)
    (hy : YieldsSteps member flags fields steps bs) (hfits : ∀ x ∈ bs, x.Fits)
    (hg : ∀ s ∈ steps, ∀ b : Bytes, b.Fits → (member s).Yields (fields.get s.name) b →
      (member s).Gives b (P s)) {s : FieldStep} (hs : s ∈ steps) :
    ∃ w, (s.name, heldValue flags s w) ∈ heldFields flags steps ws ∧
      (s.isWritten flags = true → ∃ u, w = some u ∧ P s u) ∧
      (s.isWritten flags = false → w = none) := by
  induction h with
  | nil => cases hs
  | @written i s' b w steps bs ws hw head tail ih =>
    rw [heldFields_cons]
    cases hy with
    | skipped hn _ => exact absurd (hw.symm.trans hn) (by decide)
    | written _ hyb hrest =>
      rcases List.mem_cons.mp hs with rfl | hs
      · have hP := (hg s List.mem_cons_self b (hfits b List.mem_cons_self) hyb _ _ _ head).2
        exact ⟨some w, List.mem_cons_self, fun _ => ⟨w, rfl, hP⟩,
          fun hn => absurd (hw.symm.trans hn) (by decide)⟩
      · obtain ⟨w', hmem, hrest'⟩ := ih hrest (fun x hx => hfits x (List.mem_cons_of_mem _ hx))
          (fun x hx => hg x (List.mem_cons_of_mem _ hx)) hs
        exact ⟨w', List.mem_cons_of_mem _ hmem, hrest'⟩
  | @skipped i s' steps bs ws hw tail ih =>
    rw [heldFields_cons]
    cases hy with
    | written hn _ _ => exact absurd (hn.symm.trans hw) (by decide)
    | skipped _ hrest =>
      rcases List.mem_cons.mp hs with rfl | hs
      · exact ⟨none, List.mem_cons_self, fun hn => absurd (hn.symm.trans hw) (by decide),
          fun _ => rfl⟩
      · obtain ⟨w', hmem, hrest'⟩ := ih hrest (fun x hx => hfits x (List.mem_cons_of_mem _ hx))
          (fun x hx => hg x (List.mem_cons_of_mem _ hx)) hs
        exact ⟨w', List.mem_cons_of_mem _ hmem, hrest'⟩

/-- What a step holds after reading: a truth value, a settled value, or the default of an optional
field. -/
inductive StepHeld (member : FieldStep → Codec) (filled : FieldStep → Value → Prop)
    (blank solid : FieldStep → Prop) (s : FieldStep) : Value → Prop
  | bool (only : s.flagOnly = true) (x : Bool) : StepHeld member filled blank solid s (.bool x)
  | read {w : Value} (only : s.flagOnly = false)
      (settled : (member s).Settled (filled s w) (blank s) (solid s) w) :
      StepHeld member filled blank solid s w
  | default (only : s.flagOnly = false) (optional : s.optional = true) :
      StepHeld member filled blank solid s s.default

variable {blank solid : FieldStep → Prop}

/-- What goes with the fields of a record: values that are not written are filled, null is the
default of what may be read as null, and a default other than null is reproduced. -/
structure Idle (l : RecordLayout) (member : FieldStep → Codec)
    (filled : FieldStep → Value → Prop) (blank : FieldStep → Prop) : Prop where
  null : ∀ s ∈ l.steps, filled s .null
  bool : ∀ s ∈ l.steps, ∀ x, filled s (.bool x)
  blank : ∀ s ∈ l.steps, blank s → s.default = .null
  default : ∀ s ∈ l.steps, s.default ≠ .null →
    filled s s.default ∧ (member s).Reproduces (filled s s.default) s.default

theorem filled_default (hi : Idle l member filled blank) {s : FieldStep} (hs : s ∈ l.steps) :
    filled s s.default := by
  by_cases hnull : s.default = .null
  · rw [hnull]
    exact hi.null s hs
  · exact (hi.default s hs hnull).1

/-- Fields that hold what steps hold after reading are written again. -/
theorem held_of_stepHeld (hi : Idle l member filled blank)
    (hwhole : fields = Assoc.ofList (l.steps.map fun s => (s.name, fields.get s.name)))
    (h : ∀ s ∈ l.steps, StepHeld member filled blank solid s (fields.get s.name)) :
    Held l member filled fields where
  whole := hwhole
  bools s hs honly := by
    have hstep := h s hs
    generalize fields.get s.name = x at hstep
    cases hstep with
    | bool _ x => exact ⟨x, rfl⟩
    | read only _ => exact absurd (honly.symm.trans only) (by decide)
    | default only _ => exact absurd (honly.symm.trans only) (by decide)
  absent s hs hnull := by
    have hstep := h s hs
    generalize fields.get s.name = x at hstep hnull
    cases hstep with
    | bool _ _ => cases hnull
    | read _ settled => exact hi.blank s hs (settled.blank hnull)
    | default _ _ => exact hnull
  parts s hs honly hpresent := by
    have hstep := h s hs
    generalize fields.get s.name = x at hstep hpresent
    cases hstep with
    | bool only _ => exact absurd (honly.symm.trans only) (by decide)
    | read _ settled => exact settled.toReproduces
    | default _ _ =>
      refine (hi.default s hs fun hnull => ?_).2
      rw [hnull] at hpresent
      cases hpresent
  idle s hs hidle := by
    have hstep := h s hs
    generalize fields.get s.name = x at hstep hidle
    cases hstep with
    | bool _ x => exact hi.bool s hs x
    | read only _ =>
      cases x with
      | null => exact hi.null s hs
      | _ => exact absurd ⟨only, rfl⟩ hidle
    | default _ _ => exact filled_default hi hs

/-- Where no required field can be null, the fields of a record that was read are full. -/
theorem full_of_stepHeld (hi : Idle l member filled blank)
    (h : ∀ s ∈ l.steps, StepHeld member filled blank solid s (fields.get s.name))
    (hsolid : ∀ s ∈ l.steps, solid s ∧ (s.optional = false → ¬ blank s)) :
    l.Full filled fields := by
  intro s hs
  have hstep := h s hs
  obtain ⟨hdeep, hrequired⟩ := hsolid s hs
  generalize fields.get s.name = x at hstep
  cases hstep with
  | bool _ x => exact ⟨fun _ => rfl, hi.bool s hs x⟩
  | read _ settled =>
    refine ⟨fun ho => ?_, settled.full hdeep⟩
    cases x with
    | null => exact absurd (settled.blank rfl) (hrequired ho)
    | _ => rfl
  | default _ optional =>
    exact ⟨fun ho => absurd (ho.symm.trans optional) (by decide), filled_default hi hs⟩

/-- A record settles what its fields settle. -/
theorem settles_record (hl : l.Sound) (hreg : ∀ s ∈ l.steps, (member s).Regular)
    (hc : ∀ s ∈ l.steps, Confined (member s).read) {v : Value}
    (h : ∀ fields, v.toFields = .ok fields → ∀ s ∈ l.steps,
      (member s).Settles (filled s) (blank s) (solid s) (fields.get s.name))
    (hi : Idle l member filled blank) :
    (l.codec member).Settles (fun w => ∀ fields, w.toFields = .ok fields → l.Full filled fields)
      False (∀ s ∈ l.steps, solid s ∧ (s.optional = false → ¬ blank s)) v := by
  intro bytes hfits hy rest w k hp
  obtain ⟨fields, bs, hv, hreq, rfl, hbs⟩ := record_yields_inv hreg hy
  have hfit (x : Bytes) (hx : x ∈ bs) : x.Fits := hfits.of_le (length_le_stepBytes _ _ 0 hx)
  have hgives (s : FieldStep) (hs : s ∈ l.steps) (b : Bytes) (hb : b.Fits)
      (hyb : (member s).Yields (fields.get s.name) b) := h fields hv s hs b hb hyb
  have hfollows :
      List.Forall₂ (FollowsStep member member (fun _ => id) (l.flags fields)) l.steps bs :=
    forall₂_of_yields hbs hfit fun s hs b hb hyb => (hgives s hs b hb hyb).follows false
  obtain ⟨ws, hws, rfl, rfl⟩ := parse_record_inv hl hc hfollows hp
  obtain ⟨held, hheld⟩ : ∃ held : Fields,
      held = Assoc.ofList (heldFields (l.flags fields) l.steps ws) := ⟨_, rfl⟩
  rw [← hheld]
  have hwhole : held = Assoc.ofList (l.steps.map fun s => (s.name, held.get s.name)) := by
    rw [hheld]
    exact congrArg _ (heldFields_eq_map hl.distinct hws.length_eq.2)
  have hstep (s : FieldStep) (hs : s ∈ l.steps) :
      StepHeld member filled blank solid s (held.get s.name) := by
    obtain ⟨x, hmem, hwritten, hskipped⟩ := hws.mem_heldFields hbs hfit hgives hs
    have hget : held.get s.name = heldValue (l.flags fields) s x := by
      rw [hheld]
      exact get_ofList (names_heldFields _ hws.length_eq.2 ▸ hl.distinct) hmem
    rw [hget, heldValue]
    cases honly : s.flagOnly with
    | true => exact .bool honly _
    | false =>
      rw [if_neg Bool.false_ne_true]
      cases hw : s.isWritten (l.flags fields) with
      | true =>
        obtain ⟨u, rfl, hu⟩ := hwritten hw
        exact .read honly hu
      | false =>
        rw [hskipped hw]
        refine .default honly ?_
        by_contra hno
        simp [FieldStep.isWritten, honly, hno] at hw
  have hagain := (held_of_stepHeld hi hwhole hstep).reproduces hl hc
  have hfull : l.Full filled held ↔
      ∀ fields, (Value.struct held).toFields = .ok fields → l.Full filled fields := by
    constructor
    · rintro hall _ ⟨⟩
      exact hall
    · exact fun hall => hall held rfl
  exact ⟨rfl, hagain.imp hfull, (by rintro ⟨⟩),
    fun hsolid => hfull.mp (full_of_stepHeld hi hstep hsolid)⟩

end RecordLayout

end WireSchema

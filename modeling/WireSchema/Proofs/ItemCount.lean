import WireSchema.Proofs.Window

/-!
# The number of items and the input

A sequence stands behind the number of its items, and its reader holds that number against the
bytes that are left: once it exceeds them, an item that takes no bytes is a fault.

* What a sequence writes is read back in front of some bytes exactly when its items are no more than
  the bytes behind their number (`decodeFirst_sequence`), for items that do not depend on the place
  where they stand.  Items that take bytes always are; items that take none need something behind
  them.
* A sequence that is read has no more items than there were bytes behind its number, a greater
  number is a fault, and at most one item more than these bytes is tried (`items_within_input`).
  The items that are tried are counted beside the cursor, in `CountM`: the reader of a sequence is
  the same there, with a step that counts (`Codec.countedRead`).
-/

namespace WireSchema

open CursorM

namespace Codec

/-! ## One item -/

section Step

variable {c : Codec} {scarce : Bool} {count : Nat} {d : Cursor}

/-- Behind an item that is read the others follow, unless it was empty where it may not be. -/
theorem runFrom_readItems_ok {v : Value} {d' : Cursor} (h : c.read.runFrom d = (.ok v, d')) :
    (c.readItems scarce (count + 1)).runFrom d =
      if d'.pos = d.pos ∧ scarce = true then (.error .unexpectedEnd, d')
      else (c.readItems scarce count >>= fun rest => pure (v :: rest)).runFrom d' := by
  rw [readItems_succ, runFrom_bind_ok (runFrom_get d), runFrom_bind_ok h,
    runFrom_bind_ok (runFrom_get _)]
  dsimp only
  split <;> rfl

theorem runFrom_readItems_error {e : CodecError} {d' : Cursor}
    (h : c.read.runFrom d = (.error e, d')) :
    (c.readItems scarce (count + 1)).runFrom d = (.error e, d') := by
  rw [readItems_succ, runFrom_bind_ok (runFrom_get d), runFrom_bind_error h]

/-- The items are read behind their number. -/
theorem runFrom_sequence_ok {d₁ : Cursor} (h : Varint.read.runFrom d = (.ok count, d₁)) :
    c.sequence.read.runFrom d =
      (c.readItems (decide (d₁.remaining < count)) count >>= fun items =>
        pure (.array items)).runFrom d₁ := by
  rw [sequence_read, runFrom_bind_ok h, readCounted, runFrom_bind_ok (runFrom_get d₁)]

theorem runFrom_sequence_error {e : CodecError} {d₁ : Cursor}
    (h : Varint.read.runFrom d = (.error e, d₁)) :
    c.sequence.read.runFrom d = (.error e, d₁) := by
  rw [sequence_read, runFrom_bind_error h]

end Step

/-! ## Items that are read back -/

/-- Wherever it stands in a buffer, the codec writes the bytes for the value, and reads the value
from them up to their end, whatever follows them. -/
structure RoundTrips (c : Codec) (v : Value) (b : Bytes) : Prop where
  yields : c.Yields v b
  reads (d : Cursor) (s : Bytes) : d.WellFormed → d.window = b ++ s →
    c.read.runFrom d = (.ok v, d.advance b.length)

/-- A codec that does not look at the place where it stands round-trips when it does so in a buffer
of its own. -/
theorem roundTrips_of_encode {c : Codec} (hreg : c.Regular) (hc : Confined c.read) {v : Value}
    {b : Bytes} (hencode : c.encode v = .ok b)
    (hdecode : ∀ s, c.decodeFirst (b ++ s) = .ok (v, b.length)) : c.RoundTrips v b where
  yields := (encode_eq_ok_iff hreg).mp hencode
  reads d s hd hw := by
    have hparse : c.read.parse d.window = .ok (v, b.length) := by
      rw [hw, ← decodeFirst_eq]
      exact hdecode s
    exact (hc.run_ok hd hparse).1

/-- Byte strings that are not empty are no more than their bytes. -/
theorem length_le_flatten {bs : List Bytes} (h : [] ∉ bs) : bs.length ≤ bs.flatten.length := by
  induction bs with
  | nil => exact Nat.le_refl 0
  | cons b bs ih =>
    rw [List.mem_cons, not_or] at h
    have hb : 0 < b.length := List.length_pos_iff.mpr (Ne.symm h.1)
    have hbs := ih h.2
    rw [List.length_cons, List.flatten_cons, List.length_append]
    omega

section RoundTrips

variable {c : Codec} {vs : List Value} {bs : List Bytes}

theorem yieldsItems_of_roundTrips (h : List.Forall₂ c.RoundTrips vs bs) : YieldsItems c vs bs := by
  induction h with
  | nil => exact .nil
  | cons head _ ih => exact .cons head.yields ih

/-- Items are read back one by one, unless one is empty where none may be. -/
theorem runFrom_readItems (h : List.Forall₂ c.RoundTrips vs bs) (scarce : Bool) {d : Cursor}
    (hd : d.WellFormed) {s : Bytes} (hw : d.window = bs.flatten ++ s) :
    (¬ (scarce = true ∧ [] ∈ bs) →
      (c.readItems scarce vs.length).runFrom d = (.ok vs, d.advance bs.flatten.length)) ∧
    (scarce = true ∧ [] ∈ bs →
      ∃ d', (c.readItems scarce vs.length).runFrom d = (.error .unexpectedEnd, d')) := by
  induction h generalizing d with
  | nil => exact ⟨fun _ => rfl, fun h => by cases h.2⟩
  | @cons v b vs bs head _ ih =>
    rw [List.flatten_cons, List.append_assoc] at hw
    have hle : b.length ≤ d.window.length := by
      rw [hw, List.length_append]
      omega
    obtain ⟨hall, hnone⟩ := ih (Cursor.wellFormed_advance hd hle)
      (by rw [Cursor.window_advance, hw, List.drop_left])
    have hstays : (d.advance b.length).pos = d.pos ↔ b = [] := by
      simp [Cursor.advance]
    rw [List.length_cons, runFrom_readItems_ok (head.reads d _ hd hw), List.mem_cons]
    constructor
    · intro hfilled
      rw [if_neg fun hb => hfilled ⟨hb.2, .inl (hstays.mp hb.1).symm⟩,
        runFrom_bind_ok (hall fun hbs => hfilled ⟨hbs.1, .inr hbs.2⟩), runFrom_pure,
        Cursor.advance_advance, List.flatten_cons, List.length_append]
    · rintro ⟨hscarce, hempty⟩
      by_cases hb : b = []
      · exact ⟨_, if_pos ⟨hstays.mpr hb, hscarce⟩⟩
      · have htail : [] ∈ bs := hempty.resolve_left fun h => hb h.symm
        obtain ⟨d', hd'⟩ := hnone ⟨hscarce, htail⟩
        exact ⟨d', by rw [if_neg fun h => hb (hstays.mp h.1), runFrom_bind_error hd']⟩

/-- What a sequence of such items writes, and how it is read in front of further bytes. -/
theorem sequence_of_roundTrips (h : List.Forall₂ c.RoundTrips vs bs)
    (hcount : vs.length < 0x10000000000000000) :
    c.sequence.Yields (.array vs) (Varint.bytes vs.length ++ bs.flatten) ∧
      ∀ s, c.sequence.decodeFirst (Varint.bytes vs.length ++ bs.flatten ++ s) =
        if vs.length ≤ (bs.flatten ++ s).length then
          .ok (.array vs, (Varint.bytes vs.length ++ bs.flatten).length)
        else .error .unexpectedEnd := by
  refine ⟨yields_bind (Varint.yields_bytes _) (yields_items (yieldsItems_of_roundTrips h)), ?_⟩
  intro s
  have hwf := Cursor.wellFormed_ofBytes (Varint.bytes vs.length ++ bs.flatten ++ s)
  have hparse := Varint.parse_varint_append hcount (bs.flatten ++ s)
  rw [← Varint.length_bytes, ← List.append_assoc,
    ← Cursor.window_ofBytes (Varint.bytes vs.length ++ bs.flatten ++ s)] at hparse
  obtain ⟨hnumber, hle⟩ := Varint.confined_varint.run_ok hwf hparse
  have hwf₁ := Cursor.wellFormed_advance hwf hle
  have hw₁ : ((Cursor.ofBytes (Varint.bytes vs.length ++ bs.flatten ++ s)).advance
      (Varint.bytes vs.length).length).window = bs.flatten ++ s := by
    rw [Cursor.window_advance, Cursor.window_ofBytes, List.append_assoc, List.drop_left]
  have hrun (scarce : Bool) := runFrom_readItems h scarce hwf₁ hw₁
  unfold decodeFirst
  rw [runFrom_sequence_ok hnumber, Cursor.remaining_eq hwf₁, hw₁]
  by_cases hfits : vs.length ≤ (bs.flatten ++ s).length
  · rw [if_pos hfits, decide_eq_false (Nat.not_lt.mpr hfits),
      runFrom_bind_ok ((hrun false).1 (by simp)), runFrom_pure]
    simp [Cursor.advance, Cursor.ofBytes]
  · -- items that all take bytes would not outnumber them, so one is empty
    have hempty : [] ∈ bs := by
      by_contra hfilled
      have hle := length_le_flatten hfilled
      rw [← List.Forall₂.length_eq h] at hle
      rw [List.length_append] at hfits
      omega
    obtain ⟨d', hd'⟩ := (hrun true).2 ⟨rfl, hempty⟩
    rw [if_neg hfits, decide_eq_true (Nat.not_le.mp hfits), runFrom_bind_error hd']

end RoundTrips

/-- A list of items that are read back wherever they stand, or for a composed codec from a buffer of
their own, is written as its length and the items, and read back in front of further bytes exactly
when the items are no more than the bytes behind their number.  So it always is when no item is
empty, and otherwise the reader may come to the end of the input. -/
theorem decodeFirst_sequence {c : Codec} {vs : List Value} {bs : List Bytes}
    (hcount : vs.length < 0x10000000000000000)
    (h : List.Forall₂ c.RoundTrips vs bs ∨ c.Composed ∧ List.Forall₂ (fun v b =>
      c.encode v = .ok b ∧ ∀ s, c.decodeFirst (b ++ s) = .ok (v, b.length)) vs bs) :
    ∃ bytes, c.sequence.encode (.array vs) = .ok bytes ∧
      (∀ s, c.sequence.decodeFirst (bytes ++ s) =
        if vs.length ≤ (bs.flatten ++ s).length then .ok (.array vs, bytes.length)
        else .error .unexpectedEnd) ∧
      ([] ∉ bs → ∀ s, c.sequence.decodeFirst (bytes ++ s) = .ok (.array vs, bytes.length)) := by
  have hitems : List.Forall₂ c.RoundTrips vs bs := by
    rcases h with h | ⟨hc, h⟩
    · exact h
    · exact h.imp fun v b hv => roundTrips_of_encode hc.regular hc.confined hv.1 hv.2
  obtain ⟨hyields, hreads⟩ := sequence_of_roundTrips hitems hcount
  refine ⟨_, encode_of_yields hyields, hreads, fun hfilled s => ?_⟩
  have hle := length_le_flatten hfilled
  rw [← hitems.length_eq] at hle
  rw [hreads, if_pos (by rw [List.length_append]; omega)]

/-- Two items without bytes are not read back from what is written for them, but they are in front
of two further bytes. -/
theorem decodeFirst_sequence_units :
    ∃ bytes, Primitive.none.codec.sequence.encode (.array [.null, .null]) = .ok bytes ∧
      Primitive.none.codec.sequence.decodeFirst (bytes ++ [7]) = .error .unexpectedEnd ∧
      Primitive.none.codec.sequence.decodeFirst (bytes ++ [7, 7]) =
        .ok (.array [.null, .null], bytes.length) := by
  have hunit : Primitive.none.codec.encode .null = .ok [] ∧
      ∀ s, Primitive.none.codec.decodeFirst ([] ++ s) = .ok (.null, 0) := ⟨rfl, fun _ => rfl⟩
  have hunits : List.Forall₂ (fun v b => Primitive.none.codec.encode v = .ok b ∧
      ∀ s, Primitive.none.codec.decodeFirst (b ++ s) = .ok (v, b.length))
      [.null, .null] [[], []] := .cons hunit (.cons hunit .nil)
  obtain ⟨bytes, hencode, hreads, -⟩ :=
    decodeFirst_sequence (by decide) (.inr ⟨.primitive .none, hunits⟩)
  exact ⟨bytes, hencode, hreads [7], hreads [7, 7]⟩

/-- One item without bytes is read back wherever it stands, but a sequence of it alone is not read
back from what is written for it. -/
theorem decode_lone_unit :
    Primitive.none.codec.encode .null = .ok [] ∧
      (∀ s, Primitive.none.codec.decodeFirst ([] ++ s) = .ok (.null, 0)) ∧
      Primitive.none.codec.sequence.encode (.array [.null]) = .ok [1] ∧
      Primitive.none.codec.sequence.decode [1] = .error .unexpectedEnd :=
  ⟨rfl, fun _ => rfl, rfl, rfl⟩

end Codec

/-! ## Steps with a count -/

/-- Steps of a cursor with a count beside it, which stays when a step fails. -/
abbrev CountM := ExceptT CodecError (StateM (Cursor × Nat))

namespace CountM

variable {α β : Type}

/-- Runs a step from a cursor and a count. -/
def runFrom (x : CountM α) (d : Cursor) (n : Nat) : Except CodecError α × Cursor × Nat :=
  (ExceptT.run x).run (d, n)

/-- Counts one more. -/
def tick : CountM Unit := ExceptT.mk fun (d, n) => (.ok (), d, n + 1)

/-- A step of the cursor counts nothing. -/
instance : MonadLift CursorM CountM where
  monadLift x := ExceptT.mk fun (d, n) =>
    let (result, d') := x.runFrom d
    (result, d', n)

theorem runFrom_bind (x : CountM α) (f : α → CountM β) (d : Cursor) (n : Nat) :
    (x >>= f).runFrom d n =
      match x.runFrom d n with
      | (.ok a, d', n') => (f a).runFrom d' n'
      | (.error e, d', n') => (.error e, d', n') := by
  unfold runFrom
  rw [ExceptT.run_bind, StateT.run_bind]
  rcases (ExceptT.run x).run (d, n) with ⟨e | a, d', n'⟩ <;> rfl

/-- Behind a step of the cursor the others go on with the same count. -/
theorem runFrom_lift_bind (x : CursorM α) (f : α → CountM β) (d : Cursor) (n : Nat) :
    (liftM x >>= f : CountM β).runFrom d n =
      match x.runFrom d with
      | (.ok a, d') => (f a).runFrom d' n
      | (.error e, d') => (.error e, d', n) := by
  have hlift : (liftM x : CountM α).runFrom d n = ((x.runFrom d).1, (x.runFrom d).2, n) := rfl
  rw [runFrom_bind, hlift]
  rcases x.runFrom d with ⟨e | a, d'⟩ <;> rfl

end CountM

/-! ## Items that are tried -/

namespace Codec

variable {c : Codec}

/-- A reading that counts as tried, whether or not it succeeds. -/
def countedRead (c : Codec) : CountM Value := do
  CountM.tick
  c.read

theorem runFrom_countedRead (c : Codec) (d : Cursor) (n : Nat) :
    c.countedRead.runFrom d n = ((c.read.runFrom d).1, (c.read.runFrom d).2, n + 1) := rfl

theorem runFrom_itemsBy_countedRead (c : Codec) (scarce : Bool) (count : Nat) (d : Cursor)
    (n : Nat) :
    (itemsBy c.countedRead scarce (count + 1)).runFrom d n =
      match c.read.runFrom d with
      | (.error e, d') => (.error e, d', n + 1)
      | (.ok v, d') =>
        if d'.pos = d.pos ∧ scarce = true then (.error .unexpectedEnd, d', n + 1)
        else (itemsBy c.countedRead scarce count >>= fun rest =>
          pure (v :: rest)).runFrom d' (n + 1) := by
  rw [itemsBy, CountM.runFrom_lift_bind]
  simp only [runFrom_get]
  rw [CountM.runFrom_bind, runFrom_countedRead]
  rcases c.read.runFrom d with ⟨e | v, d'⟩
  · rfl
  · dsimp only
    rw [CountM.runFrom_lift_bind]
    simp only [runFrom_get]
    split <;> rfl

/-- A counted reading of items goes like the plain one.  It tries no more items than there are, and
where no item may be empty, at most one more than there are bytes. -/
theorem runFrom_itemsBy_counted (hc : Onward c.read) (scarce : Bool) (count : Nat) {d : Cursor}
    (hd : d.WellFormed) (m : Nat) :
    ∃ n ≤ count, (scarce = true → n ≤ d.remaining + 1) ∧
      (itemsBy c.countedRead scarce count).runFrom d m =
        (((c.readItems scarce count).runFrom d).1, ((c.readItems scarce count).runFrom d).2,
          m + n) := by
  induction count generalizing d m with
  | zero => exact ⟨0, Nat.le_refl 0, fun _ => Nat.zero_le _, rfl⟩
  | succ count ih =>
    rw [runFrom_itemsBy_countedRead]
    rcases hrun : c.read.runFrom d with ⟨e | v, d'⟩
    · refine ⟨1, by omega, fun _ => by omega, ?_⟩
      rw [runFrom_readItems_error hrun]
    · obtain ⟨k, rfl, hk⟩ := hc d v d' hd hrun
      dsimp only
      rw [runFrom_readItems_ok hrun]
      by_cases hempty : (d.advance k).pos = d.pos ∧ scarce = true
      · refine ⟨1, by omega, fun _ => by omega, ?_⟩
        rw [if_pos hempty, if_pos hempty]
      · obtain ⟨n, hn, hbound, hrest⟩ := ih (d := d.advance k) ⟨hk, hd.2⟩ (m + 1)
        refine ⟨n + 1, by omega, fun hscarce => ?_, ?_⟩
        · -- the item took a byte, so one less is left for the others
          have hmoved : d.pos + k ≠ d.pos := fun h => hempty ⟨h, hscarce⟩
          have hleft := hbound hscarce
          simp only [Cursor.remaining, Cursor.advance] at hleft ⊢
          omega
        · rw [if_neg hempty, if_neg hempty, CountM.runFrom_bind, runFrom_bind, hrest,
            Nat.add_comm n, ← Nat.add_assoc]
          rcases (c.readItems scarce count).runFrom (d.advance k) with ⟨e | rest, d'⟩ <;> rfl

/-- All announced items are read, and where none may be empty they are no more than the bytes. -/
theorem length_of_readItems (hc : Onward c.read) {scarce : Bool} {count : Nat} {d d' : Cursor}
    (hd : d.WellFormed) {items : List Value}
    (h : (c.readItems scarce count).runFrom d = (.ok items, d')) :
    items.length = count ∧ (scarce = true → count ≤ d.remaining) := by
  induction count generalizing d items with
  | zero =>
    cases h
    exact ⟨rfl, fun _ => Nat.zero_le _⟩
  | succ count ih =>
    rcases hrun : c.read.runFrom d with ⟨e | v, d₁⟩
    · rw [runFrom_readItems_error hrun] at h
      cases h
    · obtain ⟨k, rfl, hk⟩ := hc d v d₁ hd hrun
      rw [runFrom_readItems_ok hrun] at h
      split at h
      · cases h
      · rename_i hempty
        obtain ⟨rest, d₂, hrest, hgives⟩ := runFrom_bind_inv h
        cases hgives
        obtain ⟨hlen, hleft⟩ := ih (d := d.advance k) ⟨hk, hd.2⟩ hrest
        refine ⟨by rw [List.length_cons, hlen], fun hscarce => ?_⟩
        have hmoved : d.pos + k ≠ d.pos := fun h => hempty ⟨h, hscarce⟩
        have hleft := hleft hscarce
        simp only [Cursor.remaining, Cursor.advance] at hleft ⊢
        omega

/-- Reading the number of items only moves the position. -/
theorem varint_onward {d d₁ : Cursor} (hd : d.WellFormed) {r : Except CodecError Nat}
    (h : Varint.read.runFrom d = (r, d₁)) : d₁.WellFormed ∧ ∃ k, d₁ = d.advance k := by
  obtain ⟨hle, hrun⟩ := Varint.confined_varint d hd
  rw [hrun] at h
  obtain rfl := (Prod.mk.inj h).2
  exact ⟨Cursor.wellFormed_advance hd hle, _, rfl⟩

/-- The number of items that the reader of a sequence tries to read. -/
def attempts (c : Codec) (d : Cursor) : Nat := ((listBy c.countedRead).runFrom d 0).2.2

/-- A counted reading of a sequence goes like the plain one. -/
theorem runFrom_listBy_counted (hc : Onward c.read) {d : Cursor} (hd : d.WellFormed) :
    (listBy c.countedRead).runFrom d 0 =
        ((c.sequence.read.runFrom d).1, (c.sequence.read.runFrom d).2, c.attempts d) ∧
      (∀ e d₁, Varint.read.runFrom d = (.error e, d₁) → c.attempts d = 0) ∧
      ∀ count d₁, Varint.read.runFrom d = (.ok count, d₁) → c.attempts d ≤ d₁.remaining + 1 := by
  rcases hnumber : Varint.read.runFrom d with ⟨e | count, d₁⟩
  · have hcounted : (listBy c.countedRead).runFrom d 0 = (.error e, d₁, 0) := by
      rw [listBy, CountM.runFrom_lift_bind, hnumber]
    rw [runFrom_sequence_error hnumber, attempts, hcounted]
    exact ⟨rfl, fun _ _ _ => rfl, nofun⟩
  · obtain ⟨hwf, -⟩ := varint_onward hd hnumber
    obtain ⟨n, hn, hbound, hitems⟩ := runFrom_itemsBy_counted hc
      (decide (d₁.remaining < count)) count hwf 0
    have hcounted : (listBy c.countedRead).runFrom d 0 =
        ((c.sequence.read.runFrom d).1, (c.sequence.read.runFrom d).2, n) := by
      rw [listBy, CountM.runFrom_lift_bind, hnumber, runFrom_sequence_ok hnumber, runFrom_bind]
      dsimp only
      rw [CountM.runFrom_lift_bind]
      simp only [runFrom_get]
      rw [CountM.runFrom_bind, hitems, Nat.zero_add]
      rcases (c.readItems _ count).runFrom d₁ with ⟨e | items, d'⟩ <;> rfl
    rw [attempts, hcounted]
    refine ⟨rfl, nofun, ?_⟩
    rintro _ _ ⟨⟩
    show n ≤ d₁.remaining + 1
    by_cases hfits : count ≤ d₁.remaining
    · omega
    · exact hbound (decide_eq_true (Nat.not_le.mp hfits))

/-- What the reader of a sequence gives has no more items than there were bytes behind their number,
and a greater number is a fault. -/
theorem sequence_within_input (hc : Onward c.read) {d d₁ : Cursor} (hd : d.WellFormed)
    {count : Nat} (hnumber : Varint.read.runFrom d = (.ok count, d₁)) :
    (∀ v d', c.sequence.read.runFrom d = (.ok v, d') →
        ∃ items, v = .array items ∧ items.length = count ∧ count ≤ d₁.remaining) ∧
      (d₁.remaining < count → ∃ e d', c.sequence.read.runFrom d = (.error e, d')) := by
  obtain ⟨hwf, -⟩ := varint_onward hd hnumber
  rw [runFrom_sequence_ok hnumber]
  rcases hitems : (c.readItems (decide (d₁.remaining < count)) count).runFrom d₁ with
    ⟨e | items, d'⟩
  · rw [runFrom_bind_error hitems]
    exact ⟨nofun, fun _ => ⟨e, d', rfl⟩⟩
  · obtain ⟨hlength, hscarce⟩ := length_of_readItems hc hwf hitems
    have hfits : count ≤ d₁.remaining := by
      by_contra hmore
      exact hmore (hscarce (decide_eq_true (Nat.not_le.mp hmore)))
    rw [runFrom_bind_ok hitems]
    refine ⟨?_, fun hmore => absurd hfits (Nat.not_le.mpr hmore)⟩
    rintro v _ ⟨⟩
    exact ⟨items, rfl, hlength, hfits⟩

/-- Every composed reader only moves on within the input, and of every such reader: a sequence that
is read has no more items than there were bytes behind their number, a number that exceeds these
bytes is a fault, and no more items are tried than these bytes and one, which a counted reading
shows that goes like the plain one.  Nothing is tried when the number itself cannot be read. -/
theorem items_within_input :
    (∀ c : Codec, c.Composed → Onward c.read) ∧
      ∀ (c : Codec) (d : Cursor), Onward c.read → d.WellFormed →
        (∀ v d', c.sequence.read.runFrom d = (.ok v, d') →
          ∃ items count d₁, v = .array items ∧ Varint.read.runFrom d = (.ok count, d₁) ∧
            items.length ≤ d₁.remaining) ∧
        (∀ count d₁, Varint.read.runFrom d = (.ok count, d₁) → d₁.remaining < count →
          ∃ e d', c.sequence.read.runFrom d = (.error e, d')) ∧
        (∀ count d₁, Varint.read.runFrom d = (.ok count, d₁) → c.attempts d ≤ d₁.remaining + 1) ∧
        (∀ e d₁, Varint.read.runFrom d = (.error e, d₁) → c.attempts d = 0) ∧
        (listBy c.countedRead).runFrom d 0 =
          ((c.sequence.read.runFrom d).1, (c.sequence.read.runFrom d).2, c.attempts d) := by
  refine ⟨fun c hc => hc.confined.onward, fun c d hc hd => ?_⟩
  obtain ⟨hcounted, hnone, hbound⟩ := runFrom_listBy_counted hc hd
  refine ⟨fun v d' hrun => ?_, fun count d₁ hnumber => (sequence_within_input hc hd hnumber).2,
    hbound, hnone, hcounted⟩
  rcases hnumber : Varint.read.runFrom d with ⟨e | count, d₁⟩
  · rw [runFrom_sequence_error hnumber] at hrun
    cases hrun
  · obtain ⟨items, hv, hlength, hle⟩ := (sequence_within_input hc hd hnumber).1 v d' hrun
    exact ⟨items, count, d₁, hv, rfl, hlength ▸ hle⟩

/-- Raw items, of which the first takes all that is left and the others nothing: of two, both are
read; of the greatest number of 64 bits, no more than four are tried in front of three bytes. -/
theorem items_within_input_raw :
    (∃ count d₁, Primitive.raw.codec.sequence.decodeFirst [2, 1, 2, 3] =
        .ok (.array [.bytes [1, 2, 3], .bytes []], 4) ∧
      Varint.read.runFrom (Cursor.ofBytes [2, 1, 2, 3]) = (.ok count, d₁) ∧ 2 ≤ d₁.remaining) ∧
      (∃ e d', Primitive.raw.codec.sequence.read.runFrom
        (Cursor.ofBytes [255, 255, 255, 255, 255, 255, 255, 255, 255, 1, 2, 3]) = (.error e, d')) ∧
      Primitive.raw.codec.attempts
        (Cursor.ofBytes [255, 255, 255, 255, 255, 255, 255, 255, 255, 1, 2, 3]) ≤ 4 := by
  obtain ⟨hcomposed, hbounded⟩ := items_within_input
  have honward := hcomposed _ (.primitive .raw)
  have htwo := hbounded _ _ honward (Cursor.wellFormed_ofBytes [2, 1, 2, 3])
  have hmany := hbounded _ _ honward
    (Cursor.wellFormed_ofBytes [255, 255, 255, 255, 255, 255, 255, 255, 255, 1, 2, 3])
  have hnumber : Varint.read.runFrom
      (Cursor.ofBytes [255, 255, 255, 255, 255, 255, 255, 255, 255, 1, 2, 3]) =
        (.ok 0xffffffffffffffff, (Cursor.ofBytes
          [255, 255, 255, 255, 255, 255, 255, 255, 255, 1, 2, 3]).advance 9) := by rfl
  refine ⟨?_, hmany.2.1 _ _ hnumber (by decide), hmany.2.2.1 _ _ hnumber⟩
  obtain ⟨items, count, d₁, hitems, hcount, hle⟩ := htwo.1 (.array [.bytes [1, 2, 3], .bytes []])
    ((Cursor.ofBytes [2, 1, 2, 3]).advance 4) (by rfl)
  cases hitems
  exact ⟨count, d₁, by rfl, hcount, hle⟩

end Codec

end WireSchema

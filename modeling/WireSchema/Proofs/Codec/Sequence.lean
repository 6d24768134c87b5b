import WireSchema.Codec.Sequence
import WireSchema.Proofs.Basic
import WireSchema.Proofs.Integer

/-!
# Sequences of values

A sequence is written as its number of items and the items one after the other
(`sequence_yields_inv`).  When every item is read back to its end and takes at least one byte, so is
the sequence (`parse_sequence_append`).
-/

namespace WireSchema

namespace Codec

open CursorM

/-! ## Measuring and writing -/

section Composable

variable {R : CursorM Unit → CursorM Unit → Prop} {c : Codec}

theorem composable_items (hR : Composable R) (h : ∀ v, R (c.reserve v) (c.write v))
    (items : List Value) : R (c.reserveItems items) (c.writeItems items) := by
  induction items with
  | nil => exact hR.nothing
  | cons v rest ih => exact hR.bind (h v) ih

theorem composable_sequence (hR : Composable R) (h : ∀ v, R (c.reserve v) (c.write v)) (v : Value) :
    R (c.sequence.reserve v) (c.sequence.write v) :=
  hR.ofExcept _ fun items _ => hR.bind (Varint.composable_varint hR items.length)
    (composable_items hR h items)

end Composable

theorem tandem_items {c : Codec} (h : c.Regular) (items : List Value) :
    Tandem (c.reserveItems items) (c.writeItems items) :=
  composable_items composable_tandem h items

theorem regular_sequence {c : Codec} (h : c.Regular) : c.sequence.Regular :=
  composable_sequence composable_tandem h

/-- The bytes of items, one by one. -/
inductive YieldsItems (c : Codec) : List Value → List Bytes → Prop
  | nil : YieldsItems c [] []
  | cons {v : Value} {b : Bytes} {items : List Value} {bs : List Bytes} (head : c.Yields v b)
      (tail : YieldsItems c items bs) : YieldsItems c (v :: items) (b :: bs)

theorem YieldsItems.length_eq {c : Codec} {items : List Value} {bs : List Bytes}
    (h : YieldsItems c items bs) : items.length = bs.length := by
  induction h with
  | nil => rfl
  | cons _ _ ih => rw [List.length_cons, List.length_cons, ih]

theorem yields_items {c : Codec} {items : List Value} {bs : List Bytes}
    (h : YieldsItems c items bs) :
    CursorM.Yields (c.reserveItems items) (c.writeItems items) bs.flatten := by
  induction h with
  | nil => exact yields_pure
  | cons head _ ih => exact yields_bind head ih

theorem items_yields_inv {c : Codec} (hc : c.Regular) {items : List Value} {bytes : Bytes}
    (h : CursorM.Yields (c.reserveItems items) (c.writeItems items) bytes) :
    ∃ bs, bytes = bs.flatten ∧ YieldsItems c items bs := by
  induction items generalizing bytes with
  | nil => exact ⟨[], h.unique yields_pure, .nil⟩
  | cons v rest ih =>
    obtain ⟨a, b, rfl, ha, hb⟩ := yields_bind_inv (hc v) (tandem_items hc rest) h
    obtain ⟨bs, rfl, hbs⟩ := ih hb
    exact ⟨a :: bs, rfl, .cons ha hbs⟩

/-- What a sequence writes is its length and its items. -/
theorem sequence_yields_inv {c : Codec} (hc : c.Regular) {v : Value} {bytes : Bytes}
    (h : c.sequence.Yields v bytes) :
    ∃ items bs, v.toItems = .ok items ∧ bytes = Varint.bytes items.length ++ bs.flatten ∧
      YieldsItems c items bs := by
  obtain ⟨items, hitems, h⟩ := yields_ofExcept_inv h
  obtain ⟨a, b, rfl, ha, hb⟩ := yields_bind_inv (Varint.tandem_varint _) (tandem_items hc items) h
  obtain ⟨bs, rfl, hbs⟩ := items_yields_inv hc hb
  exact ⟨items, bs, hitems, by rw [ha.unique (Varint.yields_bytes _)], hbs⟩

/-! ## Reading -/

/-- Reads a number of items. -/
def readItems (c : Codec) (scarce : Bool) (count : Nat) : CursorM (List Value) :=
  itemsBy c.read scarce count

theorem readItems_succ (c : Codec) (scarce : Bool) (count : Nat) :
    c.readItems scarce (count + 1) = do
      let before := (← get).pos
      let v ← c.read
      let after := (← get).pos
      if after = before ∧ scarce = true then throw .unexpectedEnd
      else
        let rest ← readItems c scarce count
        return v :: rest := rfl

theorem outcome_readItems_succ {c : Codec} (hc : Confined c.read) {scarce : Bool} {count : Nat}
    (ih : Confined (c.readItems scarce count)) :
    Outcome (c.readItems scarce (count + 1))
      (fun w => match c.read.parse w with
        | .error e => .error e
        | .ok (v, k) =>
          if k = 0 ∧ scarce = true then .error .unexpectedEnd
          else shift k
            (((c.readItems scarce count).parse (w.drop k)).map fun p => (v :: p.1, p.2)))
      fun w => match c.read.parse w with
        | .error _ => c.read.passed w
        | .ok (_, k) =>
          if k = 0 ∧ scarce = true then k
          else k + (c.readItems scarce count).passed (w.drop k) := by
  refine ⟨fun d hd => ?_, fun d hd => ?_, fun w vs m hm => ?_⟩
  · cases hp : c.read.parse d.window with
    | error e => exact (hc d hd).1
    | ok p =>
      obtain ⟨v, k⟩ := p
      obtain ⟨-, hk⟩ := hc.run_ok hd hp
      have hle := (ih _ (Cursor.wellFormed_advance hd hk)).1
      rw [Cursor.window_advance, List.length_drop] at hle
      dsimp only
      split <;> omega
  · rw [readItems_succ, runFrom_bind_ok (runFrom_get d)]
    dsimp only
    cases hp : c.read.parse d.window with
    | error e => rw [runFrom_bind_error (hc.run_error hd hp).1]; rfl
    | ok p =>
      obtain ⟨v, k⟩ := p
      obtain ⟨hrun, hk⟩ := hc.run_ok hd hp
      have hpos : (d.advance k).pos = d.pos ↔ k = 0 := by
        simp only [Cursor.advance]
        omega
      rw [runFrom_bind_ok hrun, runFrom_bind_ok (runFrom_get _)]
      dsimp only
      by_cases hz : k = 0 ∧ scarce = true
      · rw [if_pos ⟨hpos.mpr hz.1, hz.2⟩, if_pos hz, if_pos hz]
        rfl
      · rw [if_neg fun h => hz ⟨hpos.mp h.1, h.2⟩, if_neg hz, if_neg hz]
        have hrest := (ih _ (Cursor.wellFormed_advance hd hk)).2
        rw [Cursor.window_advance, Cursor.advance_advance] at hrest
        cases hr : (c.readItems scarce count).parse (d.window.drop k) with
        | error e =>
          rw [hr] at hrest
          rw [runFrom_bind_error hrest]
          rfl
        | ok p =>
          rw [hr] at hrest
          rw [runFrom_bind_ok hrest]
          rfl
  · cases hp : c.read.parse w with
    | error e => simp only [hp] at hm; cases hm
    | ok p =>
      obtain ⟨v, k⟩ := p
      simp only [hp] at hm ⊢
      by_cases hz : k = 0 ∧ scarce = true
      · rw [if_pos hz] at hm
        cases hm
      · rw [if_neg hz] at hm ⊢
        obtain ⟨j, hj, rfl⟩ := shift_eq_ok hm
        obtain ⟨⟨rest, i⟩, hr, heq⟩ := ok_of_map hj
        cases heq
        rw [passed_of_parse hr]

theorem confined_readItems {c : Codec} (hc : Confined c.read) (scarce : Bool) (count : Nat) :
    Confined (c.readItems scarce count) := by
  induction count with
  | zero => exact confined_pure _
  | succ count ih => exact (outcome_readItems_succ hc ih).confined

theorem parse_readItems_succ {c : Codec} (hc : Confined c.read) (scarce : Bool) (count : Nat)
    (w : Bytes) :
    (c.readItems scarce (count + 1)).parse w =
      match c.read.parse w with
      | .error e => .error e
      | .ok (v, k) =>
        if k = 0 ∧ scarce = true then .error .unexpectedEnd
        else shift k (((c.readItems scarce count).parse (w.drop k)).map fun p => (v :: p.1, p.2)) :=
  (outcome_readItems_succ hc (confined_readItems hc scarce count)).parse_eq w

/-- Reads the items of a sequence of a known length. -/
def readCounted (c : Codec) (count : Nat) : CursorM Value := do
  let available := (← get).remaining
  return .array (← c.readItems (decide (available < count)) count)

theorem sequence_read (c : Codec) : c.sequence.read = Varint.read >>= c.readCounted := rfl

theorem confined_readCounted {c : Codec} (hc : Confined c.read) (count : Nat) :
    Confined (c.readCounted count) := by
  refine (outcome_get
    (g := fun w => do return Value.array (← c.readItems (decide (w.length < count)) count))
    (fun d hd => ?_) fun w => ?_).confined
  · rw [Cursor.remaining_eq hd]
  · exact confined_bind (confined_readItems hc _ _) fun _ => confined_pure _

theorem confined_sequence {c : Codec} (hc : Confined c.read) : Confined c.sequence.read :=
  confined_bind Varint.confined_varint fun n => confined_readCounted hc n

theorem onward_readItems {c : Codec} (hc : Onward c.read) (scarce : Bool) (count : Nat) :
    Onward (c.readItems scarce count) := by
  induction count with
  | zero => exact (confined_pure []).onward
  | succ count ih =>
    refine onward_bind onward_get fun _ => onward_bind hc fun v =>
      onward_bind onward_get fun _ => ?_
    dsimp only
    split
    · exact (confined_throw _).onward
    · exact onward_bind ih fun _ => (confined_pure _).onward

theorem onward_sequence {c : Codec} (hc : Onward c.read) : Onward c.sequence.read :=
  onward_bind Varint.confined_varint.onward fun _ => onward_bind onward_get fun _ =>
    onward_bind (onward_readItems hc _ _) fun _ => (confined_pure _).onward

/-- A sequence is read as its length and as many items; when there are fewer bytes than items, no
item may be empty. -/
theorem parse_sequence {c : Codec} (hc : Confined c.read) {w : Bytes} {count k : Nat}
    (h : Varint.read.parse w = .ok (count, k)) :
    c.sequence.read.parse w =
      ((c.readItems (decide ((w.drop k).length < count)) count).parse (w.drop k)).map
        fun p => (.array p.1, k + p.2) := by
  rw [sequence_read, parse_bind_ok Varint.confined_varint
    (fun n => confined_readCounted hc n) h, readCounted, parse_get, Cursor.remaining_ofBytes]
  cases hr : (c.readItems (decide ((w.drop k).length < count)) count).parse (w.drop k) with
  | error e =>
    rw [parse_bind_error hr]
    rfl
  | ok p =>
    obtain ⟨vs, m⟩ := p
    rw [parse_bind_ok (confined_readItems hc _ _) (fun _ => confined_pure _) hr]
    rfl

/-- The bytes are read as the value up to their end, whatever follows them. -/
def ReadsBack (c : Codec) (b : Bytes) (w : Value) : Prop :=
  ∀ s, c.read.parse (b ++ s) = .ok (w, b.length)

/-- The bytes of items are read as values one by one, and none takes no bytes. -/
inductive ReadsItems (c : Codec) : List Bytes → List Value → Prop
  | nil : ReadsItems c [] []
  | cons {b : Bytes} {w : Value} {bs : List Bytes} {ws : List Value} (head : c.ReadsBack b w)
      (pos : b ≠ []) (tail : ReadsItems c bs ws) : ReadsItems c (b :: bs) (w :: ws)

theorem ReadsItems.length_le {c : Codec} {bs : List Bytes} {ws : List Value}
    (h : ReadsItems c bs ws) : ws.length ≤ bs.flatten.length := by
  induction h with
  | nil => exact Nat.le_refl 0
  | cons _ pos _ ih =>
    have := List.length_pos_iff.mpr pos
    rw [List.length_cons, List.flatten_cons, List.length_append]
    omega

theorem parse_items {c : Codec} (hc : Confined c.read) {bs : List Bytes} {ws : List Value}
    (h : ReadsItems c bs ws) (scarce : Bool) (s : Bytes) :
    (c.readItems scarce ws.length).parse (bs.flatten ++ s) = .ok (ws, bs.flatten.length) := by
  induction h with
  | nil => rfl
  | cons head pos _ ih =>
    have hlen := List.length_pos_iff.mpr pos
    rw [List.length_cons, List.flatten_cons, List.append_assoc, parse_readItems_succ hc, head]
    dsimp only
    rw [if_neg (by omega), List.drop_left, ih, List.length_append]
    rfl

/-- A sequence is read back when its items are. -/
theorem parse_sequence_append {c : Codec} (hc : Confined c.read) {bs : List Bytes}
    {ws : List Value} (h : ReadsItems c bs ws)
    (hcount : ws.length < 0x10000000000000000) :
    c.sequence.ReadsBack (Varint.bytes ws.length ++ bs.flatten) (.array ws) := by
  intro s
  have hn := Varint.parse_varint_append hcount (bs.flatten ++ s)
  rw [← Varint.length_bytes] at hn
  rw [List.append_assoc, parse_sequence hc hn, List.drop_left, parse_items hc h,
    List.length_append]
  rfl

theorem runFrom_readItems_congr {c c' : Codec} (hc : Onward c.read) (scarce : Bool)
    (count : Nat) {d : Cursor} (hd : d.WellFormed)
    (h : ∀ d', d.Ahead 0 d' → c'.read.runFrom d' = c.read.runFrom d') :
    (c'.readItems scarce count).runFrom d = (c.readItems scarce count).runFrom d := by
  induction count generalizing d with
  | zero => rfl
  | succ count ih =>
    rw [readItems_succ, readItems_succ]
    rw [runFrom_bind_ok (runFrom_get _), runFrom_bind_ok (runFrom_get _)]
    refine runFrom_bind_onward hc hd (h d hd.ahead) fun v k hk => ?_
    rw [runFrom_bind_ok (runFrom_get _), runFrom_bind_ok (runFrom_get _)]
    dsimp only
    split
    · rfl
    · rw [runFrom_bind, runFrom_bind,
        ih (hk.wellFormed hd) fun d' hd' => h d' ((hk.mono (Nat.zero_le k)).trans hd')]

/-- The items of a sequence are read behind their number. -/
theorem runFrom_sequence_congr {c c' : Codec} (hc : Onward c.read) {d : Cursor}
    (hd : d.WellFormed) (h : ∀ d', d.Ahead 1 d' → c'.read.runFrom d' = c.read.runFrom d') :
    c'.sequence.read.runFrom d = c.sequence.read.runFrom d := by
  rw [sequence_read, sequence_read]
  refine runFrom_bind_congr Varint.confined_varint hd rfl fun n k hp hk => ?_
  have hone : d.Ahead 1 (d.advance k) := hk.mono (Varint.parse_varint_pos hp)
  unfold readCounted
  rw [runFrom_bind_ok (runFrom_get _), runFrom_bind_ok (runFrom_get _), runFrom_bind, runFrom_bind,
    runFrom_readItems_congr hc _ _ (hk.wellFormed hd) fun d' hd' => h d' (hone.trans hd')]

end Codec

end WireSchema

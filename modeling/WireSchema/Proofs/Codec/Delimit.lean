import WireSchema.Proofs.Codec.Follow
import WireSchema.Proofs.NormalForm
import WireSchema.Proofs.Primitive.Demand

/-!
# Readers on input that ends too soon

A reader that is given a proper beginning of what was written asks for more, or it is content with
it: then the beginning ends at a mark.  Bytes are delimited by a reader when, once it accepts them,
it takes no more and no less of any input that goes on behind them, and ends early at a mark or not
at all (`CursorM.Delimits`).  Primitives, choices and frames have no marks; those of a sequence are
the marks of its items (`Codec.MemberMark`), and those of a tagged value the marks of its payload.
-/

namespace WireSchema

namespace CursorM

variable {α β ι κ : Type}

/-! ## Input that ends -/

section Halts

variable {x : CursorM α} {f : α → CursorM β} {w : Bytes} {P Q : Nat → Prop}

/-- The reader takes a number of bytes with the property, or the input is too short for it. -/
def Halts (x : CursorM α) (w : Bytes) (P : Nat → Prop) : Prop :=
  x.parse w = .error .unexpectedEnd ∨ ∃ a n, x.parse w = .ok (a, n) ∧ P n

theorem Halts.imp (h : Halts x w P) (hPQ : ∀ n, P n → Q n) : Halts x w Q := by
  rcases h with hend | ⟨a, n, hread, hn⟩
  · exact .inl hend
  · exact .inr ⟨a, n, hread, hPQ n hn⟩

theorem halts_bind (hx : Confined x) (hf : ∀ a, Confined (f a)) (h : Halts x w P)
    (hrest : ∀ a n, P n → Halts (f a) (w.drop n) fun m => Q (n + m)) : Halts (x >>= f) w Q := by
  rcases h with hend | ⟨a, n, hread, hn⟩
  · exact .inl (parse_bind_error hend)
  · have hbind := parse_bind_ok hx hf hread
    rcases hrest a n hn with hend | ⟨b, m, hread', hm⟩
    · left
      rw [hbind, hend]
      rfl
    · exact .inr ⟨b, n + m, by rw [hbind, hread', shift_ok], hm⟩

/-- Without any input the reader takes nothing or asks for more. -/
def Dry (x : CursorM α) : Prop := Halts x [] (· = 0)

theorem dry_pure (a : α) : Dry (pure a) := .inr ⟨a, 0, rfl, rfl⟩

theorem Dry.bind (hx : Confined x) (hf : ∀ a, Confined (f a)) (h : Dry x)
    (hrest : ∀ a, Dry (f a)) : Dry (x >>= f) := by
  apply halts_bind hx hf h
  rintro a n rfl
  exact (hrest a).imp fun m hm => by rw [hm]

/-- A reader that starts with an integer asks for more. -/
theorem dry_varint_bind (f : Nat → CursorM β) : Dry (Varint.read >>= f) :=
  .inl (parse_bind_error Varint.parse_varint_nil)

end Halts

/-! ## Delimited bytes -/

/-- Readers that differ only in what they were given take just the bytes whatever stands behind
them, and a proper beginning of the bytes up to a mark; otherwise the input is too short.  What they
were given is what was read before, which may be another value where the input is another. -/
structure Fenced (step : ι → CursorM α) (M : Nat → Prop) (x : Bytes) : Prop where
  whole : ∀ i s, Halts (step i) (x ++ s) (· = x.length)
  cut : ∀ i, ∀ k < x.length, Halts (step i) (x.take k) fun n => n = k ∧ M k

/-- Bytes that one of the readers accepts, it takes as they are, and they are fenced for all. -/
def Delimits (step : ι → CursorM α) (M : Nat → Prop) (x : Bytes) : Prop :=
  ∀ i s a n, (step i).parse (x ++ s) = .ok (a, n) → n = x.length ∧ Fenced step M x

section Delimits

variable {step : ι → CursorM α} {step' : κ → CursorM β} {M N : Nat → Prop} {x y : Bytes}

theorem Delimits.imp (h : Delimits step M x) (hMN : ∀ k, M k → N k) : Delimits step N x := by
  intro i s a n hp
  obtain ⟨hn, hfenced⟩ := h i s a n hp
  refine ⟨hn, hfenced.whole, fun j k hk => ?_⟩
  exact (hfenced.cut j k hk).imp fun n hn => ⟨hn.1, hMN k hn.2⟩

/-- Some of the readers, or one of them under many names. -/
theorem Delimits.reindex (h : Delimits step M x) (index : κ → ι) :
    Delimits (fun i => step (index i)) M x := by
  intro i s a n hp
  obtain ⟨hn, hfenced⟩ := h (index i) s a n hp
  exact ⟨hn, fun j => hfenced.whole (index j), fun j => hfenced.cut (index j)⟩

theorem delimits_pure (g : ι → α) (M : Nat → Prop) : Delimits (fun i => pure (g i)) M [] := by
  intro i s a n hp
  cases hp
  refine ⟨rfl, fun j s' => .inr ⟨g j, 0, rfl, rfl⟩, fun j k hk => ?_⟩
  cases hk

/-- Every proper beginning of bytes that are demanded is too short. -/
theorem delimits_of_demands {x : Bytes} {read : CursorM α}
    (hread : ∀ s a n, read.parse (x ++ s) = .ok (a, n) →
      ∀ s', read.parse (x ++ s') = .ok (a, x.length))
    (h : Demands read x) (M : Nat → Prop) : Delimits (fun _ : Unit => read) M x := by
  intro _ s a n hp
  have hstable := hread s a n hp
  have hsame := hp.symm.trans (hstable s)
  simp only [Except.ok.injEq, Prod.mk.injEq, true_and] at hsame
  exact ⟨hsame, fun _ s' => .inr ⟨a, _, hstable s', rfl⟩, fun _ k hk => .inl (h k hk)⟩

/-- On any input each of the first readers finds it too short or takes what one of the second does,
as another value. -/
def Mimics (step' : κ → CursorM β) (step : ι → CursorM α) : Prop :=
  ∀ i w, (step' i).parse w = .error .unexpectedEnd ∨
    ∃ (j : ι) (g : α → β), (step' i).parse w = ((step j).parse w).map fun p => (g p.1, p.2)

theorem Mimics.halts (h : Mimics step' step) {w : Bytes} {P : Nat → Prop}
    (hall : ∀ j, Halts (step j) w P) (i : κ) : Halts (step' i) w P := by
  rcases h i w with hend | ⟨j, g, heq⟩
  · exact .inl hend
  · rcases hall j with hend | ⟨a, n, hread, hn⟩
    · left
      rw [heq, hend]
      rfl
    · exact .inr ⟨g a, n, by rw [heq, hread]; rfl, hn⟩

theorem Mimics.delimits (h : Mimics step' step) (hd : Delimits step M x) : Delimits step' M x := by
  intro i s b n hp
  rcases h i (x ++ s) with hend | ⟨j, g, heq⟩
  · rw [hend] at hp
    cases hp
  · rw [heq] at hp
    obtain ⟨⟨a, m⟩, hread, hpair⟩ := ok_of_map hp
    cases hpair
    obtain ⟨hn, hfenced⟩ := hd j s a m hread
    exact ⟨hn, fun i s => h.halts (fun j => hfenced.whole j s) i,
      fun i k hk => h.halts (fun j => hfenced.cut j k hk) i⟩

theorem mimics_of_parse_eq {step₁ step₂ : ι → CursorM α}
    (h : ∀ i w, (step₁ i).parse w = (step₂ i).parse w) : Mimics step₁ step₂ := by
  intro i w
  refine .inr ⟨i, id, ?_⟩
  rw [h]
  cases (step₂ i).parse w <;> rfl

/-- Building another value at the end takes nothing. -/
theorem mimics_bind_pure (hc : ∀ i, Confined (step i)) (index : κ → ι) (g : κ → α → β) :
    Mimics (fun i => step (index i) >>= fun a => pure (g i a)) step := by
  intro i w
  refine .inr ⟨index i, g i, ?_⟩
  cases hp : (step (index i)).parse w with
  | error e => exact parse_bind_error hp
  | ok p => exact parse_bind_ok (hc _) (fun _ => confined_pure _) hp

/-- A first piece of a known value, whose proper beginnings are too short or marked, and what stands
behind it. -/
theorem delimits_behind {first : CursorM β} {f : ι → β → CursorM α} (hx : Confined first)
    (hf : ∀ i b, Confined (f i b)) {b : β}
    (hread : ∀ s, first.parse (x ++ s) = .ok (b, x.length))
    (hcut : ∀ i, ∀ k < x.length, Halts (first >>= f i) (x.take k) fun n => n = k ∧ M k)
    (h : Delimits (fun i => f i b) N y) :
    Delimits (fun i => first >>= f i) (fun k => M k ∨ ∃ j, k = x.length + j ∧ N j) (x ++ y) := by
  have hbind (i : ι) (s : Bytes) :
      (first >>= f i).parse (x ++ s) = shift x.length ((f i b).parse s) := by
    rw [parse_bind_ok hx (hf i) (hread s), List.drop_left]
  have hshift {i : ι} {s : Bytes} {P Q : Nat → Prop} (hs : Halts (f i b) s P)
      (hPQ : ∀ n, P n → Q (x.length + n)) : Halts (first >>= f i) (x ++ s) Q := by
    rcases hs with hend | ⟨a, n, hp, hn⟩
    · left
      rw [hbind, hend]
      rfl
    · exact .inr ⟨a, x.length + n, by rw [hbind, hp, shift_ok], hPQ n hn⟩
  intro i s a n hp
  rw [List.append_assoc, hbind] at hp
  obtain ⟨m, hm, rfl⟩ := shift_eq_ok hp
  obtain ⟨rfl, hfenced⟩ := h i s a m hm
  refine ⟨by rw [List.length_append], fun j s' => ?_, fun j k hk => ?_⟩
  · rw [List.append_assoc]
    refine hshift (hfenced.whole j s') fun n hn => ?_
    rw [hn, List.length_append]
  · rw [List.length_append] at hk
    by_cases hlt : k < x.length
    · rw [List.take_append_of_le_length (Nat.le_of_lt hlt)]
      exact (hcut j k hlt).imp fun n hn => ⟨hn.1, .inl hn.2⟩
    · rw [List.take_append, List.take_of_length_le (Nat.not_lt.mp hlt)]
      refine hshift (hfenced.cut j (k - x.length) (by omega)) fun n hn => ?_
      exact ⟨by omega, .inr ⟨k - x.length, by omega, hn.2⟩⟩

/-- One reader after another: a beginning that ends at a mark of the first leaves nothing to the
second. -/
theorem delimits_bind {f : ι → α → CursorM β} (hc : ∀ i, Confined (step i))
    (hf : ∀ i a, Confined (f i a)) (hx : Delimits step M x)
    (hy : Delimits (fun p : ι × α => f p.1 p.2) N y) (hdry : ∀ i a, Dry (f i a)) :
    Delimits (fun i => step i >>= f i) (fun k => M k ∨ ∃ j, k = x.length + j ∧ N j) (x ++ y) := by
  intro i s b n hp
  rw [List.append_assoc] at hp
  obtain ⟨a, k, m, ha, hb, rfl⟩ := parse_bind_inv (hc i) (hf i) hp
  obtain ⟨rfl, hfirst⟩ := hx i _ a k ha
  rw [List.drop_left] at hb
  obtain ⟨rfl, hsecond⟩ := hy (i, a) s b m hb
  refine ⟨by rw [List.length_append], fun j s' => ?_, fun j k hk => ?_⟩
  · rw [List.append_assoc]
    apply halts_bind (hc j) (hf j) (hfirst.whole j _)
    rintro a n rfl
    rw [List.drop_left]
    refine (hsecond.whole (j, a) s').imp fun m hm => ?_
    rw [hm, List.length_append]
  · rw [List.length_append] at hk
    by_cases hlt : k < x.length
    · rw [List.take_append_of_le_length (Nat.le_of_lt hlt)]
      apply halts_bind (hc j) (hf j) (hfirst.cut j k hlt)
      rintro a n ⟨rfl, hM⟩
      -- the beginning ends in the first piece, so the second reader has no input
      rw [List.drop_eq_nil_of_le (List.length_take_le n x)]
      refine (hdry j a).imp fun m hm => ?_
      rw [hm]
      exact ⟨rfl, .inl hM⟩
    · rw [List.take_append, List.take_of_length_le (Nat.not_lt.mp hlt)]
      apply halts_bind (hc j) (hf j) (hfirst.whole j _)
      rintro a n rfl
      rw [List.drop_left]
      refine (hsecond.cut (j, a) (k - x.length) (by omega)).imp fun m hm => ?_
      exact ⟨by omega, .inr ⟨k - x.length, by omega, hm.2⟩⟩

/-- The integer in front of a payload. -/
theorem delimits_varint_bind {f : Nat → CursorM α} (hf : ∀ n, Confined (f n)) {n : Nat}
    (hn : n < 0x10000000000000000) (h : Delimits (fun _ : Unit => f n) N y) :
    Delimits (fun _ : Unit => Varint.read >>= f) (fun k => ∃ j, k = Varint.size n + j ∧ N j)
      (Varint.bytes n ++ y) := by
  have hlength := Varint.length_bytes n
  have hread (s : Bytes) :
      Varint.read.parse (Varint.bytes n ++ s) = .ok (n, (Varint.bytes n).length) := by
    rw [Varint.parse_varint_append hn, hlength]
  have hcut : ∀ _ : Unit, ∀ k < (Varint.bytes n).length, Halts (Varint.read >>= f)
      ((Varint.bytes n).take k) fun m => m = k ∧ False :=
    fun _ k hk => .inl (parse_bind_error (Varint.demands_bytes n k hk))
  refine (delimits_behind Varint.confined_varint (fun _ => hf) hread hcut h).imp fun k hk => ?_
  rcases hk with hk | ⟨j, hk, hj⟩
  · exact hk.elim
  · exact ⟨j, hlength ▸ hk, hj⟩

end Delimits

end CursorM

open CursorM

/-! ## Frames and sequences -/

namespace Codec

variable {c : Codec} {M N : Value → Nat → Prop} {v : Value}

/-- What a codec yields for a value is delimited by its reader. -/
def Guards (c : Codec) (M : Value → Nat → Prop) (v : Value) : Prop :=
  ∀ x : Bytes, x.Fits → c.Yields v x → Delimits (fun _ : Unit => c.read) (M v) x

theorem Guards.imp (h : Guards c M v) (hMN : ∀ k, M v k → N v k) : Guards c N v :=
  fun x hfits hy => (h x hfits hy).imp hMN

theorem dry_frame (c : Codec) : Dry c.frame.read := dry_varint_bind _

theorem dry_sequence (c : Codec) : Dry c.sequence.read := dry_varint_bind _

theorem dry_member {array framed : Bool} (h : array = false → framed = false → Dry c.read) :
    Dry (c.member framed array).read := by
  cases array with
  | true => exact dry_sequence _
  | false =>
    cases framed with
    | true => exact dry_frame c
    | false => exact h rfl rfl

theorem demands_frame (hc : Confined c.read) {x : Bytes} (hx : x.Fits) :
    Demands c.frame.read (Varint.bytes x.length ++ x) := by
  have hread (s : Bytes) : Varint.read.parse (Varint.bytes x.length ++ s) =
      .ok (x.length, (Varint.bytes x.length).length) := by
    rw [Varint.parse_varint_append hx, Varint.length_bytes]
  have hpayload : Demands (c.readPayload x.length) x := by
    intro k hk
    rw [(outcome_readPayload hc x.length).parse_eq, if_neg]
    rw [List.length_take]
    omega
  exact demands_append Varint.confined_varint (fun n => (outcome_readPayload hc n).confined) hread
    (Varint.demands_bytes _) hpayload

/-- What stands in a frame is read whole or not at all. -/
theorem guards_frame (hreg : c.Regular) (hc : Confined c.read) (M : Value → Nat → Prop)
    (v : Value) : Guards c.frame M v := by
  intro bytes hfits hy
  obtain ⟨x, rfl, -⟩ := frame_yields_inv hreg hy
  refine delimits_of_demands (fun s a n hp s' => ?_) (demands_frame hc hfits.right) (M v)
  rw [parse_frame_append hc hfits.right] at hp ⊢
  obtain ⟨p, hread, hpair⟩ := ok_of_map hp
  cases hpair
  rw [hread]
  rfl

/-- The marks of a member: those of its value, or those of its items where they stand. -/
inductive MemberMark (c : Codec) (M : Value → Nat → Prop) (v : Value) : Bool → Nat → Prop
  | one {k : Nat} (h : M v k) : MemberMark c M v false k
  | item {before after : List Value} {u : Value} {bs : List Bytes} {k : Nat}
      (hv : v.toItems = .ok (before ++ u :: after)) (hbs : YieldsItems c before bs) (h : M u k) :
      MemberMark c M v true
        (Varint.size (before ++ u :: after).length + (bs.flatten.length + k))

theorem mimics_readItems_succ (hc : Confined c.read) (count : Nat) :
    Mimics (fun scarce => c.readItems scarce (count + 1))
      fun scarce => c.read >>= fun v => c.readItems scarce count >>= fun vs => pure (v :: vs) := by
  intro scarce w
  cases hv : c.read.parse w with
  | error e =>
    refine .inr ⟨scarce, id, ?_⟩
    rw [parse_readItems_succ hc, parse_bind_error hv, hv]
    rfl
  | ok p =>
    obtain ⟨v, k⟩ := p
    by_cases hempty : k = 0 ∧ scarce = true
    · left
      rw [parse_readItems_succ hc, hv]
      exact if_pos hempty
    · refine .inr ⟨scarce, id, ?_⟩
      have hitems := confined_readItems hc scarce count
      rw [parse_readItems_succ hc, hv,
        parse_bind_ok hc (fun _ => confined_bind hitems fun _ => confined_pure _) hv]
      dsimp only
      rw [if_neg hempty]
      cases hvs : (c.readItems scarce count).parse (w.drop k) with
      | error e => rw [parse_bind_error hvs]; rfl
      | ok q => rw [parse_bind_ok hitems (fun _ => confined_pure _) hvs]; rfl

theorem dry_readItems (hc : Confined c.read) (hdry : Dry c.read) (scarce : Bool) (count : Nat) :
    Dry (c.readItems scarce count) := by
  induction count generalizing scarce with
  | zero => exact dry_pure _
  | succ count ih =>
    refine (mimics_readItems_succ hc count).halts (fun scarce => ?_) scarce
    have hitems := confined_readItems hc scarce count
    exact hdry.bind hc (fun _ => confined_bind hitems fun _ => confined_pure _) fun _ =>
      (ih scarce).bind hitems (fun _ => confined_pure _) fun _ => dry_pure _

/-- Where the marks of items stand in the bytes of them all. -/
def ItemMark (c : Codec) (M : Value → Nat → Prop) (items : List Value) (k : Nat) : Prop :=
  ∃ before u after bs j, items = before ++ u :: after ∧ YieldsItems c before bs ∧ M u j ∧
    k = bs.flatten.length + j

theorem delimits_readItems (hc : Confined c.read) (hdry : Dry c.read) {items : List Value}
    {bs : List Bytes} (hbs : YieldsItems c items bs) (hfits : Bytes.Fits bs.flatten)
    (h : ∀ u ∈ items, Guards c M u) :
    Delimits (fun scarce => c.readItems scarce bs.length) (ItemMark c M items) bs.flatten := by
  induction hbs with
  | nil => exact delimits_pure (fun _ => []) _
  | @cons u x items bs head _ ih =>
    rw [List.flatten_cons] at hfits
    have hitems (scarce : Bool) : Confined (c.readItems scarce bs.length) :=
      confined_readItems hc scarce bs.length
    have hfirst := h u List.mem_cons_self x hfits.left head
    have hrest := ih hfits.right fun u' hu' => h u' (List.mem_cons_of_mem _ hu')
    have hcons := (mimics_bind_pure hitems Prod.fst
      fun (p : Bool × Value) vs => p.2 :: vs).delimits hrest
    have hboth := delimits_bind
      (f := fun scarce v => c.readItems scarce bs.length >>= fun vs => pure (v :: vs))
      (fun _ => hc) (fun scarce _ => confined_bind (hitems scarce) fun _ => confined_pure _)
      (hfirst.reindex fun _ => ()) hcons
      fun scarce _ => (dry_readItems hc hdry scarce _).bind (hitems scarce)
        (fun _ => confined_pure _) fun _ => dry_pure _
    refine ((mimics_readItems_succ hc bs.length).delimits hboth).imp fun k hk => ?_
    rcases hk with hk | ⟨_, rfl, before, w, after, cs, j, rfl, hcs, hj, rfl⟩
    · exact ⟨[], u, items, [], k, rfl, .nil, hk, (Nat.zero_add k).symm⟩
    · refine ⟨u :: before, w, after, x :: cs, j, rfl, .cons head hcs, hj, ?_⟩
      rw [List.flatten_cons, List.length_append, Nat.add_assoc]

theorem mimics_readCounted (hc : Confined c.read) (count : Nat) :
    Mimics (fun _ : Unit => c.readCounted count) fun scarce => c.readItems scarce count := by
  intro _ w
  refine .inr ⟨decide (w.length < count), Value.array, ?_⟩
  rw [readCounted, parse_get, Cursor.remaining_ofBytes]
  cases hp : (c.readItems (decide (w.length < count)) count).parse w with
  | error e => exact parse_bind_error hp
  | ok p =>
    rw [parse_bind_ok (confined_readItems hc _ _) (fun _ => confined_pure _) hp]
    rfl

theorem guards_sequence (hreg : c.Regular) (hc : Confined c.read) (hdry : Dry c.read)
    (hcount : ∀ items, v.toItems = .ok items → items.length < 0x10000000000000000)
    (h : ∀ u, v.Part true u → Guards c M u) :
    Guards c.sequence (fun v => MemberMark c M v true) v := by
  intro bytes hfits hy
  obtain ⟨items, bs, hv, rfl, hbs⟩ := sequence_yields_inv hreg hy
  have hitems := delimits_readItems hc hdry hbs hfits.right fun u hu => h u (.of_item hv hu)
  have hcounted := (mimics_readCounted hc bs.length).delimits hitems
  rw [hbs.length_eq]
  refine (delimits_varint_bind (fun n => confined_readCounted hc n)
    (hbs.length_eq ▸ hcount items hv) hcounted).imp ?_
  rintro k ⟨_, rfl, before, u, after, cs, j, rfl, hcs, hj, rfl⟩
  rw [← hbs.length_eq]
  exact .item hv hcs hj

/-- The marks of a field, or of an array field, are those of its parts outside frames. -/
theorem guards_member (hreg : c.Regular) (hc : Confined c.read) (hdry : Dry c.read)
    (hcount : ∀ items, v.toItems = .ok items → items.length < 0x10000000000000000)
    {framed array : Bool}
    (h : framed = false → ∀ u, v.Part array u → Guards c M u) :
    Guards (c.member framed array)
      (fun v k => framed = false ∧ MemberMark c M v array k) v := by
  cases framed with
  | false =>
    cases array with
    | false => exact (h rfl v rfl).imp fun k hk => ⟨rfl, .one hk⟩
    | true =>
      exact (guards_sequence hreg hc hdry hcount (h rfl)).imp fun k hk => ⟨rfl, hk⟩
  | true =>
    cases array with
    | false => exact guards_frame hreg hc _ v
    | true =>
      have hsequence : Guards c.frame.sequence _ v :=
        guards_sequence (regular_frame hreg) (confined_frame hc) (dry_frame c) hcount fun u _ =>
          guards_frame hreg hc (fun _ _ => False) u
      refine hsequence.imp fun k hk => ?_
      cases hk with
      | item _ _ hfalse => exact hfalse.elim

/-- The marks behind a tag are those of the payload. -/
theorem guards_tagged {fqn : String} {entries : List VersionEntry} {payload : VersionEntry → Codec}
    {migration : String → Option (Value → Value)} (hreg : ∀ e ∈ entries, (payload e).Regular)
    (hc : ∀ e ∈ entries, Confined (payload e).read) (hasc : Ascending entries)
    {M : VersionEntry → Value → Nat → Prop}
    (h : ∀ e, latestEntry fqn entries = .ok e → e.map = none ∧ Guards (payload e) (M e) v) :
    Guards (tagged fqn entries payload migration) (fun v k => ∃ e j,
      latestEntry fqn entries = .ok e ∧ k = Varint.size e.version.toNat + j ∧ M e v j) v := by
  intro bytes hfits hy
  obtain ⟨e, x, he, rfl, hx⟩ := tagged_yields_inv hreg hy
  obtain ⟨hmap, hguards⟩ := h e he
  have hentry : entryOfTag fqn entries e.version.toNat = .ok e :=
    entryOfTag_of_mem hasc (latestEntry_mem he)
  have hpayload : Delimits (fun _ : Unit => CursorM.ofExcept (entryOfTag fqn entries
      e.version.toNat) >>= fun e => (payload e).read >>= fun v =>
        CursorM.ofExcept (migrate migration e v)) (M e v) x := by
    have hmigrate (u : Value) : CursorM.ofExcept (migrate migration e u) = pure u := by
      rw [migrate, hmap]
      rfl
    rw [hentry, ofExcept_ok, pure_bind]
    simp only [hmigrate, bind_pure]
    exact hguards x hfits.right hx
  refine (delimits_varint_bind (confined_payload hc) e.version.toNat_lt hpayload).imp ?_
  rintro k ⟨j, hk, hj⟩
  exact ⟨e, j, he, hk, hj⟩

end Codec

/-! ## Leaves -/

theorem Primitive.dry_primitive (p : Primitive) : Dry p.codec.read := by
  have hread {n : Nat} (hn : 0 < n) : (CursorM.read n).parse [] = .error .unexpectedEnd :=
    parse_read_short hn
  cases p with
  | uintBytes w | intBytes w =>
    exact .inl (parse_bind_error (parse_bind_error (hread (Nat.succ_pos w.val))))
  | address f | endpoint f =>
    left
    rcases f with _ | (_ | _) <;> rfl
  | none | raw => exact .inr ⟨_, 0, rfl, rfl⟩
  | _ => exact .inl rfl

theorem Choice.dry_choice (e : Choice) : Dry e.codec.read := by
  show Dry e.read
  cases hs : e.strings with
  | true =>
    rw [read_strings hs]
    exact .inl rfl
  | false =>
    rw [read_numbers hs]
    exact dry_varint_bind _

theorem Primitive.guards_primitive {p : Primitive} (hraw : p ≠ .raw) (M : Value → Nat → Prop)
    (v : Value) : Codec.Guards p.codec M v := by
  intro bytes hfits hy
  obtain ⟨ps, hps, rfl⟩ := pieces_of_yields hy
  obtain ⟨r, hr⟩ := parse_pieces_stable hraw hps hfits
  refine delimits_of_demands (fun s a n hp s' => ?_) (demands_pieces hraw hps hfits) (M v)
  rw [hr s] at hp
  obtain ⟨u, rfl, hpair⟩ := ok_of_map hp
  cases hpair
  exact hr s'

theorem Choice.guards_choice (e : Choice) (M : Value → Nat → Prop) (v : Value) :
    Codec.Guards e.codec M v := fun _ hfits hy =>
  delimits_of_demands (fun _ _ _ hp s' => parse_choice_stable hy hfits hp s')
    (demands_choice hy hfits) (M v)

end WireSchema

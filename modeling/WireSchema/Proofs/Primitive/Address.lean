import WireSchema.Proofs.Primitive.Canonical

/-!
# Addresses on the wire

The kinds of addresses and endpoints write the texts of the grammar and read canonical texts
(`Primitive.Texts`): what was read is written as the bytes it was read from, and what was written
is read back as the canonical text of the same address.
-/

namespace WireSchema

open CursorM

/-- The address is of the family of a kind, if that has one. -/
def Address.Within (family : Option Family) (a : Address) : Prop :=
  ∀ f, family = some f → a.family = f

namespace Primitive

/-- A kind between texts and bytes.  `Names` tells which texts stand for a thing, `Form` which one
of them is canonical, and `Accepts` which things the kind has bytes for. -/
structure Texts {α : Type} (p : Primitive) (Names : List Char → α → Prop)
    (Form : α → List Char → Prop) (Accepts : α → Prop) : Prop where
  /-- What is read is a text, which is written as the bytes it was read from. -/
  back : ∀ w v k, p.codec.decodeFirst w = .ok (v, k) →
    k ≤ w.length ∧ ∃ t, v = .string t ∧ p.codec.encode (.string t) = .ok (w.take k)
  /-- What is written is a text, which is read back as the canonical one for the same thing. -/
  canonical : ∀ v b, p.codec.encode v = .ok b → ∃ t a u, v = .string t ∧ Names t.toList a ∧
    Form a u.toList ∧ ∀ s, p.codec.decodeFirst (b ++ s) = .ok (.string u, b.length)
  /-- The texts that are written are those of things that the kind has bytes for. -/
  accepted : ∀ t, (∃ b, p.codec.encode (.string t) = .ok b) ↔ ∃ a, Names t.toList a ∧ Accepts a

/-! ## Octets -/

theorem octets_ofOctets {f : Family} {b : Bytes} (h : b.length = familyWidth f) :
    (Address.ofOctets f b).octets = b ∧ (Address.ofOctets f b).family = f := by
  have hlt := ofBE_lt b
  have hback := beBytes_ofBE b
  cases f with
  | v4 =>
    rw [h] at hlt hback
    have hnumber : (UInt32.ofNat (ofBE b)).toNat = ofBE b := UInt32.toNat_ofNat_of_lt hlt
    refine ⟨?_, rfl⟩
    rw [Address.ofOctets, Address.octets, hnumber]
    exact hback
  | v6 =>
    rw [h] at hlt hback
    have hnumber : (BitVec.ofNat 128 (ofBE b)).toNat = ofBE b := Nat.mod_eq_of_lt hlt
    refine ⟨?_, rfl⟩
    rw [Address.ofOctets, Address.octets, hnumber]
    exact hback

theorem parse_readFamily_inv {w : Bytes} {f : Family} {k : Nat}
    (h : (readFamily Option.none).parse w = .ok (f, k)) : w.take 1 = [familyTag f] ∧ k = 1 := by
  obtain ⟨tag, j, m, htag, hfamily, rfl⟩ := parse_bind_inv confined_readByte (fun tag => by
    split
    · exact confined_pure _
    · split
      · exact confined_pure _
      · exact confined_throw _) h
  cases w with
  | nil =>
    rw [parse_readByte_nil] at htag
    cases htag
  | cons x s =>
    rw [parse_readByte_cons] at htag
    cases htag
    split at hfamily
    · rename_i hx
      cases hfamily
      exact ⟨by rw [UInt8.toNat_inj.mp (show x.toNat = (4 : UInt8).toNat from hx)]; rfl, rfl⟩
    · split at hfamily
      · rename_i hx
        cases hfamily
        exact ⟨by rw [UInt8.toNat_inj.mp (show x.toNat = (6 : UInt8).toNat from hx)]; rfl, rfl⟩
      · cases hfamily

/-- The octets that an address was read from are the ones it has. -/
theorem parse_readAddress_inv (p : Primitive) {family : Option Family} {w : Bytes} {a : Address}
    {k : Nat} (h : (readAddress family).parse w = .ok (a, k)) :
    p.addressBytes family a = .ok (w.take k) := by
  obtain ⟨f, j, m, hfamily, hbody, rfl⟩ := parse_bind_inv (confined_readFamily family)
    (fun _ => confined_bind (confined_read _) fun _ => confined_pure _) h
  obtain ⟨b, hread, rfl⟩ := parse_return_inv (confined_read _) hbody
  obtain ⟨hle, rfl, rfl⟩ := parse_read_inv hread
  obtain ⟨hoctets, hsame⟩ := octets_ofOctets (List.length_take_of_le hle)
  cases family with
  | some g =>
    rw [readFamily, parse_pure] at hfamily
    cases hfamily
    rw [addressBytes, if_pos hsame, hoctets, List.drop_zero, Nat.zero_add]
  | none =>
    obtain ⟨htag, rfl⟩ := parse_readFamily_inv hfamily
    rw [addressBytes, hsame, hoctets, List.take_add, htag]
    rfl

theorem within_iff (p : Primitive) (family : Option Family) (a : Address) :
    a.Within family ↔ ∃ b, p.addressBytes family a = .ok b := by
  unfold Address.Within addressBytes
  cases family with
  | none => simp
  | some f =>
    by_cases hf : a.family = f
    · simp [hf]
    · simp [hf]

theorem length_addressBytes {p : Primitive} {family : Option Family} {a : Address} {b : Bytes}
    (h : p.addressBytes family a = .ok b) : b.length ≤ 17 := by
  have hwidth : a.octets.length ≤ 16 := by
    rw [length_octets]
    cases a.family <;> decide
  unfold addressBytes at h
  split at h
  · cases h
    exact Nat.succ_le_succ hwidth
  · split at h
    · cases h
      omega
    · cases h

/-! ## Texts of addresses -/

section Texts

variable {α : Type} {p : Primitive} {family : Option Family} {Names : List Char → α → Prop}
  {Form : α → List Char → Prop}

/-- A kind whose things hold an address: it writes the octets of the address and then what else
there is. -/
theorem texts_of_parts (view : Value → Except CodecError α) (text : α → String)
    (host : α → Address) (tail : α → List Bytes) (hraw : p ≠ .raw) (hjson : p ≠ .json)
    (hpieces : ∀ v, p.pieces v = do
      let a ← view v
      return (← p.addressBytes family (host a)) :: tail a)
    (hnorm : ∀ v, p.norm v = do return .string (text (← view v)))
    (hview : ∀ v a, view v = .ok a ↔ ∃ t, v = .string t ∧ Names t.toList a)
    (hform : ∀ a, Form a (text a).toList) (hnames : ∀ a, Names (text a).toList a)
    (hshort : ∀ a, (tail a).flatten.length ≤ 2)
    (hread : ∀ w v k, p.read.parse w = .ok (v, k) → ∃ a b, v = .string (text a) ∧
      p.addressBytes family (host a) = .ok b ∧ b ++ (tail a).flatten = w.take k) :
    p.Texts Names Form fun a => (host a).Within family := by
  have hwrite {t : String} {a : α} {b : Bytes} (ht : Names t.toList a)
      (hb : p.addressBytes family (host a) = .ok b) :
      p.pieces (.string t) = .ok (b :: tail a) := by
    rw [hpieces, (hview _ a).mpr ⟨t, rfl, ht⟩, ok_bind, hb]
    rfl
  have hencode {t : String} {a : α} {b : Bytes} (ht : Names t.toList a)
      (hb : p.addressBytes family (host a) = .ok b) :
      p.codec.encode (.string t) = .ok (b ++ (tail a).flatten) :=
    Codec.encode_of_yields (yields_codec (hwrite ht hb))
  have hsplit {v : Value} {w : Bytes} (h : p.codec.encode v = .ok w) :
      ∃ t a b, v = .string t ∧ Names t.toList a ∧ p.addressBytes family (host a) = .ok b ∧
        w = b ++ (tail a).flatten := by
    obtain ⟨ps, hwhole, rfl⟩ := pieces_of_yields ((Codec.encode_eq_ok_iff (regular_codec p)).mp h)
    rw [hpieces] at hwhole
    obtain ⟨a, ha, hrest⟩ := ok_of_bind hwhole
    obtain ⟨b, hb, ⟨⟩⟩ := ok_of_bind hrest
    obtain ⟨t, rfl, ht⟩ := (hview v a).mp ha
    exact ⟨t, a, b, rfl, ht, hb, rfl⟩
  constructor
  · intro w v k h
    rw [Codec.decodeFirst_eq] at h
    obtain ⟨-, hle⟩ := (confined_primitive p).run_ok (Cursor.wellFormed_ofBytes w)
      (by rwa [Cursor.window_ofBytes])
    rw [Cursor.window_ofBytes] at hle
    obtain ⟨a, b, rfl, hb, hflat⟩ := hread w v k h
    exact ⟨hle, text a, rfl, hflat ▸ hencode (hnames a) hb⟩
  · intro v w h
    obtain ⟨t, a, b, rfl, ht, hb, rfl⟩ := hsplit h
    refine ⟨t, a, text a, rfl, ht, hform a, fun s => ?_⟩
    have hfits : Bytes.Fits (b :: tail a).flatten := by
      have hlength := length_addressBytes hb
      have htail := hshort a
      rw [Bytes.Fits, List.flatten_cons, List.length_append]
      omega
    obtain ⟨u, hu, hparse⟩ := parse_pieces hraw hjson (hwrite ht hb) hfits s
    rw [hnorm, (hview _ a).mpr ⟨t, rfl, ht⟩] at hu
    cases hu
    rw [Codec.decodeFirst_eq]
    exact hparse
  · intro t
    constructor
    · rintro ⟨w, h⟩
      obtain ⟨t', a, b, ht', ht, hb, -⟩ := hsplit h
      cases ht'
      exact ⟨a, ht, (within_iff p family _).mpr ⟨b, hb⟩⟩
    · rintro ⟨a, ht, ha⟩
      obtain ⟨b, hb⟩ := (within_iff p family _).mp ha
      exact ⟨_, hencode ht hb⟩

end Texts

theorem toText_bind_eq_ok_iff {α : Type} {x : String → Except CodecError α} {v : Value} {a : α} :
    v.toText >>= x = .ok a ↔ ∃ t, v = .string t ∧ x t = .ok a := by
  constructor
  · intro h
    obtain ⟨t, ht, hx⟩ := ok_of_bind h
    cases v with
    | string s =>
      cases ht
      exact ⟨t, rfl, hx⟩
    | _ => cases ht
  · rintro ⟨t, rfl, hx⟩
    exact hx

theorem toAddress_eq_ok_iff (p : Primitive) (v : Value) (a : Address) :
    p.toAddress v = .ok a ↔ ∃ t, v = .string t ∧ Address.Names t.toList a := by
  unfold toAddress
  simp only [toText_bind_eq_ok_iff, ← Address.ofText?_eq_some_iff]
  refine exists_congr fun t => and_congr_right fun _ => ?_
  cases Address.ofText? t <;> simp

theorem toEndpoint_eq_ok_iff (p : Primitive) (v : Value) (e : Endpoint) :
    p.toEndpoint v = .ok e ↔ ∃ t, v = .string t ∧ Endpoint.Names t.toList e := by
  unfold toEndpoint
  simp only [toText_bind_eq_ok_iff, ← Endpoint.ofText?_eq_some_iff]
  refine exists_congr fun t => and_congr_right fun _ => ?_
  cases Endpoint.ofText? t <;> simp

theorem texts_address (family : Option Family) :
    (address family).Texts Address.Names Address.Form (Address.Within family) := by
  refine texts_of_parts (address family).toAddress Address.text id (fun _ => []) (by simp)
    (by simp) (fun _ => rfl) (fun _ => rfl) (toAddress_eq_ok_iff _) ?_ ?_ ?_ ?_
  · intro a
    rw [Address.text, String.toList_ofList]
    exact (Address.form_iff a a.chars).mpr rfl
  · intro a
    exact Address.ofText?_eq_some_iff.mp (Address.ofText?_text a)
  · intro a
    exact Nat.zero_le 2
  · intro w v k h
    obtain ⟨a, hread, rfl⟩ := parse_return_inv (confined_readAddress family) h
    exact ⟨a, w.take k, rfl, parse_readAddress_inv _ hread, by simp⟩

theorem texts_endpoint (family : Option Family) :
    (endpoint family).Texts Endpoint.Names Endpoint.Form (fun e => e.address.Within family) := by
  refine texts_of_parts (endpoint family).toEndpoint Endpoint.text Endpoint.address
    (fun e => [leBytes 2 e.port.toNat]) (by simp) (by simp) (fun _ => rfl) (fun _ => rfl)
    (toEndpoint_eq_ok_iff _) ?_ ?_ ?_ ?_
  · intro e
    rw [Endpoint.text, String.toList_ofList]
    exact (Endpoint.form_iff e e.chars).mpr rfl
  · intro e
    exact Endpoint.ofText?_eq_some_iff.mp (Endpoint.ofText?_text e)
  · intro e
    simp
  · intro w v k h
    obtain ⟨a, j, m, hread, hrest, rfl⟩ := parse_bind_inv (confined_readAddress family)
      (fun _ => confined_bind (Varint.confined_readFixed 2) fun _ => confined_pure _) h
    obtain ⟨n, hport, rfl⟩ := parse_return_inv (Varint.confined_readFixed 2) hrest
    obtain ⟨hle, rfl, rfl⟩ := Varint.parse_readFixed_inv hport
    have hlength : ((w.drop j).take 2).length = 2 := List.length_take_of_le hle
    have hlt := ofLE_lt ((w.drop j).take 2)
    have hback := leBytes_ofLE ((w.drop j).take 2)
    rw [hlength] at hlt hback
    have hnumber : (UInt16.ofNat (ofLE ((w.drop j).take 2))).toNat = ofLE ((w.drop j).take 2) :=
      UInt16.toNat_ofNat_of_lt hlt
    refine ⟨⟨a, UInt16.ofNat (ofLE ((w.drop j).take 2))⟩, w.take j, rfl,
      parse_readAddress_inv _ hread, ?_⟩
    rw [hnumber, hback, List.take_add]
    simp

/-- Each of the six kinds takes its bytes to canonical texts and back, and every text of an address
or an endpoint to the canonical one. -/
theorem texts_network (family : Option Family) :
    (address family).Texts Address.Names Address.Form (Address.Within family) ∧
      (endpoint family).Texts Endpoint.Names Endpoint.Form fun e => e.address.Within family :=
  ⟨texts_address family, texts_endpoint family⟩

end Primitive

end WireSchema

import Mathlib.Data.List.Induction
import WireSchema.Address.Reader

/-!
# The texts of addresses

Which texts are read as an address and as which one (`Address.Names`, `Endpoint.Names`).  A short
address has one text.  A group of a long one is up to four hexadecimal digits of either case; a run
of groups that is left out is filled with zeros, and the last two groups may be a short address.
An endpoint may name the scope of a long address.  The readers take these texts and no others
(`Address.ofText?_eq_some_iff`, `Endpoint.ofText?_eq_some_iff`).
-/

namespace WireSchema

namespace Address

/-! ## Numbers -/

/-- The text does not go on with a digit. -/
def EndsNumber (radix : Nat) (text : List Char) : Prop :=
  ∀ c, text.head? = some c → isDigitIn radix c = false

/-- The number that digits stand for. -/
def valueOf (radix : Nat) (digits : List Char) : Nat :=
  digits.foldl (fun n c => radix * n + (hexValue? c).getD 0) 0

/-- At least one and at most `most` digits, which stand for a number below a bound. -/
structure NumberText (radix most bound : Nat) (digits : List Char) (n : Nat) : Prop where
  nonempty : digits ≠ []
  short : digits.length ≤ most
  digit : ∀ c ∈ digits, isDigitIn radix c = true
  value : valueOf radix digits = n
  bounded : n < bound

/-- There is no zero in front of other digits. -/
def Bare (digits : List Char) : Prop := digits.head? = some '0' → digits.length ≤ 1

theorem endsNumber_nil (radix : Nat) : EndsNumber radix [] := nofun

theorem endsNumber_cons {radix : Nat} {c : Char} (h : hexValue? c = none) (rest : List Char) :
    EndsNumber radix (c :: rest) := by
  rintro _ ⟨⟩
  rw [isDigitIn, h]

section Digits

variable {radix : Nat} {digits rest : List Char}

theorem takeWhile_digits (hd : ∀ c ∈ digits, isDigitIn radix c = true)
    (hr : EndsNumber radix rest) : (digits ++ rest).takeWhile (isDigitIn radix) = digits := by
  rw [List.takeWhile_append_of_pos hd]
  cases rest with
  | nil => simp
  | cons c rest =>
    have hc := hr c rfl
    simp [hc]

theorem dropWhile_digits (hd : ∀ c ∈ digits, isDigitIn radix c = true)
    (hr : EndsNumber radix rest) : (digits ++ rest).dropWhile (isDigitIn radix) = rest := by
  rw [List.dropWhile_append_of_pos hd]
  cases rest with
  | nil => rfl
  | cons c rest => rw [List.dropWhile_cons, hr c rfl, if_neg Bool.false_ne_true]

theorem endsNumber_dropWhile (radix : Nat) (text : List Char) :
    EndsNumber radix (text.dropWhile (isDigitIn radix)) := by
  intro c hc
  have hhead := List.head?_dropWhile_not (isDigitIn radix) text
  rw [hc] at hhead
  exact hhead

/-- A number is read up to the end of its digits. -/
theorem readNumber_eq_some_iff {most bound n : Nat} {leadingZero : Bool} {text : List Char} :
    readNumber radix most bound leadingZero text = some (n, rest) ↔
      ∃ digits, text = digits ++ rest ∧ NumberText radix most bound digits n ∧
        (leadingZero = false → Bare digits) ∧ EndsNumber radix rest := by
  constructor
  · intro h
    unfold readNumber at h
    dsimp only at h
    split at h
    · cases h
    · rename_i hnumber
      split at h
      · cases h
      · rename_i hbare
        cases h
        simp only [Bool.or_eq_true, decide_eq_true_eq, not_or, Nat.not_lt, Nat.not_le,
          List.isEmpty_iff] at hnumber
        have hdigit : ∀ c ∈ text.takeWhile (isDigitIn radix), isDigitIn radix c = true :=
          List.all_eq_true.mp List.all_takeWhile
        refine ⟨text.takeWhile (isDigitIn radix), List.takeWhile_append_dropWhile.symm,
          ⟨hnumber.1.1, hnumber.1.2, hdigit, rfl, hnumber.2⟩, ?_, endsNumber_dropWhile radix text⟩
        rintro rfl hhead
        by_contra hlong
        exact hbare (by simp [hhead]; omega)
  · rintro ⟨digits, rfl, h, hbare, hr⟩
    unfold readNumber
    dsimp only
    rw [takeWhile_digits h.digit hr, dropWhile_digits h.digit hr]
    have hvalue := h.value
    have hshort := h.short
    have hbounded := h.bounded
    unfold valueOf at hvalue
    rw [hvalue, if_neg, if_neg]
    · simp only [Bool.and_eq_true, Bool.not_eq_true', beq_iff_eq, decide_eq_true_eq]
      rintro ⟨⟨hlead, hhead⟩, hlong⟩
      have hle := hbare hlead hhead
      omega
    · simp only [Bool.or_eq_true, decide_eq_true_eq, List.isEmpty_iff, h.nonempty, false_or]
      omega

/-- Where there is no digit there is no number. -/
theorem readNumber_none {most bound : Nat} {leadingZero : Bool} (h : EndsNumber radix rest) :
    readNumber radix most bound leadingZero rest = none := by
  have hnone : ([] ++ rest).takeWhile (isDigitIn radix) = [] := takeWhile_digits (by simp) h
  unfold readNumber
  rw [← List.nil_append rest, hnone]
  rfl

end Digits

theorem hexValue?_digitChar {d : Nat} (h : d < 16) : hexValue? (Nat.digitChar d) = some d := by
  have hall : ∀ d : Fin 16, hexValue? (Nat.digitChar d.val) = some d.val := by decide
  exact hall ⟨d, h⟩

theorem valueOf_concat (radix : Nat) (digits : List Char) (c : Char) :
    valueOf radix (digits ++ [c]) = radix * valueOf radix digits + (hexValue? c).getD 0 := by
  simp [valueOf]

section Canonical

variable {radix : Nat} (hlow : 1 < radix) (hhigh : radix ≤ 16)

include hhigh in
theorem isDigitIn_digitChar {d : Nat} (h : d < radix) :
    isDigitIn radix (Nat.digitChar d) = true := by
  rw [isDigitIn, hexValue?_digitChar (by omega)]
  exact decide_eq_true h

include hlow hhigh

theorem isDigitIn_toDigits {n : Nat} {c : Char} (h : c ∈ Nat.toDigits radix n) :
    isDigitIn radix c = true := by
  induction n using Nat.strongRecOn with
  | ind n ih =>
    rcases Nat.lt_or_ge n radix with hn | hn
    · rw [Nat.toDigits_of_lt_base hn, List.mem_singleton] at h
      rw [h]
      exact isDigitIn_digitChar hhigh hn
    · rw [Nat.toDigits_of_base_le hlow hn, List.mem_append, List.mem_singleton] at h
      rcases h with h | rfl
      · exact ih (n / radix) (Nat.div_lt_self (by omega) hlow) h
      · exact isDigitIn_digitChar hhigh (Nat.mod_lt n (by omega))

theorem valueOf_toDigits (n : Nat) : valueOf radix (Nat.toDigits radix n) = n := by
  induction n using Nat.strongRecOn with
  | ind n ih =>
    rcases Nat.lt_or_ge n radix with hn | hn
    · rw [Nat.toDigits_of_lt_base hn]
      simp [valueOf, hexValue?_digitChar (show n < 16 by omega)]
    · have hmod : n % radix < radix := Nat.mod_lt n (by omega)
      rw [Nat.toDigits_of_base_le hlow hn, valueOf_concat,
        ih (n / radix) (Nat.div_lt_self (by omega) hlow),
        hexValue?_digitChar (show n % radix < 16 by omega)]
      exact Nat.div_add_mod n radix

/-- The digits of a number stand for it. -/
theorem numberText_toDigits {n most bound : Nat} (hn : n < bound)
    (hmost : (Nat.toDigits radix n).length ≤ most) :
    NumberText radix most bound (Nat.toDigits radix n) n :=
  ⟨Nat.toDigits_ne_nil, hmost, fun _ hc => isDigitIn_toDigits hlow hhigh hc,
    valueOf_toDigits hlow hhigh n, hn⟩

/-- A number has no leading zero, unless it is zero. -/
theorem bare_toDigits (n : Nat) : Bare (Nat.toDigits radix n) := by
  have hzero : (Nat.toDigits radix n).head? = some '0' → n = 0 := by
    intro h
    induction n using Nat.strongRecOn with
    | ind n ih =>
      rcases Nat.lt_or_ge n radix with hn | hn
      · rw [Nat.toDigits_of_lt_base hn, List.head?_cons, Option.some.injEq,
          Nat.digitChar_eq_zero] at h
        exact h
      · rw [Nat.toDigits_of_base_le hlow hn, List.head?_append,
          List.head?_eq_some_head Nat.toDigits_ne_nil, Option.some_or,
          ← List.head?_eq_some_head Nat.toDigits_ne_nil] at h
        have hnone := ih (n / radix) (Nat.div_lt_self (by omega) hlow) h
        have hpos : 0 < n / radix := Nat.div_pos hn (by omega)
        omega
  intro h
  rw [hzero h, Nat.toDigits_of_lt_base (by omega)]
  exact Nat.le_refl 1

end Canonical

/-- A character is the decimal digit of its value. -/
theorem digitChar_of_isDigitIn {c : Char} (h : isDigitIn 10 c = true) :
    ∃ d < 10, hexValue? c = some d ∧ Nat.digitChar d = c := by
  unfold isDigitIn at h
  split at h
  · rename_i d hd
    have hlt : d < 10 := of_decide_eq_true h
    refine ⟨d, hlt, hd, Char.toNat_inj.mp ?_⟩
    rw [Nat.toNat_digitChar_of_lt_ten hlt]
    unfold hexValue? at hd
    split at hd
    · rename_i hrange
      obtain rfl := Option.some.inj hd
      have hlow : 48 ≤ c.toNat := hrange.1
      omega
    · split at hd
      · rename_i hrange
        obtain rfl := Option.some.inj hd
        have hlow : 97 ≤ c.toNat := hrange.1
        omega
      · split at hd
        · rename_i hrange
          obtain rfl := Option.some.inj hd
          have hlow : 65 ≤ c.toNat := hrange.1
          omega
        · cases hd
  · cases h

/-- Decimal digits without a leading zero are the digits of the number. -/
theorem toDigits_of_bare {digits : List Char} (hne : digits ≠ [])
    (hd : ∀ c ∈ digits, isDigitIn 10 c = true) (hbare : Bare digits) :
    Nat.toDigits 10 (valueOf 10 digits) = digits := by
  induction digits using List.reverseRecOn with
  | nil => exact absurd rfl hne
  | append_singleton digits c ih =>
    obtain ⟨d, hlt, hvalue, hchar⟩ := digitChar_of_isDigitIn (hd c (by simp))
    rw [valueOf_concat, hvalue, Option.getD_some]
    by_cases hempty : digits = []
    · subst hempty
      rw [valueOf, List.foldl_nil, Nat.mul_zero, Nat.zero_add, Nat.toDigits_of_lt_base hlt, hchar]
      rfl
    · -- the digits in front do not start with a zero, so they are not zero
      have hhead : (digits ++ [c]).head? = digits.head? := by
        rw [List.head?_append, List.head?_eq_some_head hempty, Option.some_or]
      have hlong : 1 < (digits ++ [c]).length := by
        have := List.length_pos_iff.mpr hempty
        simp
        omega
      have hfront : digits.head? ≠ some '0' := by
        intro h
        have hle := hbare (hhead.trans h)
        omega
      have hdigits := ih hempty (fun x hx => hd x (List.mem_append_left _ hx))
        fun h => absurd h hfront
      have hpos : 0 < valueOf 10 digits := by
        refine Nat.pos_of_ne_zero fun hzero => hfront ?_
        rw [← hdigits, hzero]
        rfl
      rw [← Nat.toDigits_append_toDigits (by decide) hpos hlt, hdigits,
        Nat.toDigits_of_lt_base hlt, hchar]

/-! ## Short addresses -/

theorem expect_eq_some_iff {c : Char} {text rest : List Char} :
    expect c text = some rest ↔ text = c :: rest := by
  cases text with
  | nil => simp [expect]
  | cons d text =>
    by_cases hd : d = c
    · simp [expect, hd]
    · simp [expect, hd]

theorem readOctet_eq_some_iff {n : Nat} {text rest : List Char} :
    readOctet text = some (n, rest) ↔
      n < 256 ∧ text = decimalChars n ++ rest ∧ EndsNumber 10 rest := by
  unfold readOctet decimalChars
  rw [readNumber_eq_some_iff]
  constructor
  · rintro ⟨digits, rfl, h, hbare, hr⟩
    have hdigits := toDigits_of_bare h.nonempty h.digit (hbare rfl)
    rw [h.value] at hdigits
    exact ⟨h.bounded, by rw [hdigits], hr⟩
  · rintro ⟨hn, rfl, hr⟩
    have hlength : (Nat.toDigits 10 n).length ≤ 3 :=
      (Nat.length_toDigits_le_iff (by decide) (by decide)).mpr (by omega)
    exact ⟨_, rfl, numberText_toDigits (by decide) (by decide) hn hlength,
      fun _ => bare_toDigits (by decide) (by decide) n, hr⟩

theorem endsNumber_point (more : List Char) : EndsNumber 10 ('.' :: more) :=
  endsNumber_cons (by decide) more

/-- A short address is read up to its last digit, and from its canonical text alone. -/
theorem readV4_eq_some_iff {n : Nat} {text rest : List Char} :
    readV4 text = some (n, rest) ↔
      n < 0x100000000 ∧ text = v4Chars n ++ rest ∧ EndsNumber 10 rest := by
  unfold readV4
  simp only [Option.bind_eq_bind, Option.bind_eq_some_iff, Option.pure_def, Option.some.injEq,
    Prod.exists, readOctet_eq_some_iff, expect_eq_some_iff, Prod.mk.injEq]
  constructor
  · rintro ⟨a, _, ⟨ha, rfl, -⟩, _, rfl, b, _, ⟨hb, rfl, -⟩, _, rfl, c, _, ⟨hc, rfl, -⟩, _, rfl,
      d, _, ⟨hd, rfl, hr⟩, rfl, rfl⟩
    refine ⟨by omega, ?_, hr⟩
    have hparts : (a * 0x1000000 + b * 0x10000 + c * 0x100 + d) / 0x1000000 % 256 = a ∧
        (a * 0x1000000 + b * 0x10000 + c * 0x100 + d) / 0x10000 % 256 = b ∧
        (a * 0x1000000 + b * 0x10000 + c * 0x100 + d) / 0x100 % 256 = c ∧
        (a * 0x1000000 + b * 0x10000 + c * 0x100 + d) % 256 = d := by omega
    rw [v4Chars, hparts.1, hparts.2.1, hparts.2.2.1, hparts.2.2.2]
    simp
  · rintro ⟨hn, rfl, hr⟩
    have hmod (m : Nat) : m % 256 < 256 := Nat.mod_lt m (by decide)
    refine ⟨_, _, ⟨hmod (n / 0x1000000), by rw [v4Chars]; simp, endsNumber_point _⟩, _, rfl,
      _, _, ⟨hmod (n / 0x10000), rfl, endsNumber_point _⟩, _, rfl,
      _, _, ⟨hmod (n / 0x100), rfl, endsNumber_point _⟩, _, rfl,
      _, _, ⟨hmod n, rfl, hr⟩, by omega, rfl⟩

theorem isDigitIn_hex {c : Char} (h : isDigitIn 10 c = true) : isDigitIn 16 c = true := by
  obtain ⟨d, hlt, hvalue, -⟩ := digitChar_of_isDigitIn h
  rw [isDigitIn, hvalue]
  exact decide_eq_true (by omega)

/-- A text whose hexadecimal digits do not stand before a point is not a short address. -/
theorem readV4_none {text : List Char}
    (h : (text.dropWhile (isDigitIn 16)).head? ≠ some '.') : readV4 text = none := by
  cases hread : readV4 text with
  | none => rfl
  | some p =>
    obtain ⟨n, rest⟩ := p
    obtain ⟨-, rfl, -⟩ := readV4_eq_some_iff.mp hread
    have hdigits : ∀ c ∈ decimalChars (n / 0x1000000 % 256), isDigitIn 16 c = true :=
      fun c hc => isDigitIn_hex (isDigitIn_toDigits (by decide) (by decide) hc)
    rw [v4Chars, List.append_assoc, List.append_assoc, List.append_assoc, List.cons_append,
      dropWhile_digits hdigits (endsNumber_cons (by decide) _)] at h
    exact absurd rfl h

/-! ## Groups -/

/-- Groups that stand after others, and whether the last two are a short address. -/
inductive Later : Bool → List Char → List Nat → Prop
  | nil : Later false [] []
  | group {dotted : Bool} {digits text : List Char} {g : Nat} {groups : List Nat}
    (h : NumberText 16 4 65536 digits g) (hrest : Later dotted text groups) :
    Later dotted (':' :: (digits ++ text)) (g :: groups)
  | short {n : Nat} (h : n < 0x100000000) :
    Later true (':' :: v4Chars n) [n / 65536, n % 65536]

/-- Groups on one side of those that are left out. -/
inductive Side : Bool → List Char → List Nat → Prop
  | nil : Side false [] []
  | cons {dotted : Bool} {text : List Char} {groups : List Nat}
    (h : Later dotted (':' :: text) groups) : Side dotted text groups

/-- The text of a long address with the given number. -/
inductive LongText : List Char → Nat → Prop
  | whole {dotted : Bool} {text : List Char} {groups : List Nat} (h : Side dotted text groups)
    (hlen : groups.length = 8) : LongText text (ofGroups groups)
  | gap {dotted : Bool} {head tail : List Char} {before after : List Nat}
    (hhead : Side false head before) (htail : Side dotted tail after)
    (hlen : before.length + after.length < 8) :
    LongText (head ++ ':' :: ':' :: tail)
      (ofGroups (before ++ List.replicate (8 - before.length - after.length) 0 ++ after))

/-- The text does not go on with a group: it has ended, a scope is named, a bracket is closed, or
groups are left out. -/
inductive EndsGroups : List Char → Prop
  | nil : EndsGroups []
  | scope (rest : List Char) : EndsGroups ('%' :: rest)
  | bracket (rest : List Char) : EndsGroups (']' :: rest)
  | gap (rest : List Char) : EndsGroups (':' :: ':' :: rest)

theorem EndsGroups.endsNumber {rest : List Char} (h : EndsGroups rest) (radix : Nat) :
    EndsNumber radix rest := by
  cases h with
  | nil => exact endsNumber_nil radix
  | scope rest => exact endsNumber_cons (by decide) rest
  | bracket rest => exact endsNumber_cons (by decide) rest
  | gap rest => exact endsNumber_cons (by decide) _

theorem EndsGroups.head?_ne {rest : List Char} (h : EndsGroups rest) : rest.head? ≠ some '.' := by
  cases h <;> simp

/-- The first group is read like one that stands after a colon. -/
theorem readGroups_first (limit : Nat) (text : List Char) :
    readGroups limit true text =
      if (readGroups limit false (':' :: text)).groups = [] then ⟨[], false, text⟩
      else readGroups limit false (':' :: text) := by
  cases limit with
  | zero => simp [readGroups]
  | succ limit =>
    have hfirst : afterSeparator true text = some text := rfl
    have hlater : afterSeparator false (':' :: text) = some text := rfl
    simp only [readGroups, hfirst, hlater]
    split
    · simp
    · split <;> simp

/-! ### What is read -/

theorem readGroups_sound (limit : Nat) (text : List Char) :
    (readGroups limit false text).groups.length ≤ limit ∧
      ∃ taken, text = taken ++ (readGroups limit false text).rest ∧
        Later (readGroups limit false text).dotted taken (readGroups limit false text).groups := by
  induction limit generalizing text with
  | zero => exact ⟨Nat.le_refl 0, [], rfl, .nil⟩
  | succ limit ih =>
    rw [readGroups]
    split
    · rename_i n rest hdotted
      split at hdotted
      · cases hdotted
      · obtain ⟨body, hsep, hshort⟩ := Option.bind_eq_some_iff.mp hdotted
        obtain rfl := expect_eq_some_iff.mp hsep
        obtain ⟨hn, rfl, -⟩ := readV4_eq_some_iff.mp hshort
        exact ⟨by simp; omega, ':' :: v4Chars n, rfl, .short hn⟩
    · split
      · rename_i g rest hgroup
        obtain ⟨body, hsep, hnumber⟩ := Option.bind_eq_some_iff.mp hgroup
        obtain rfl := expect_eq_some_iff.mp hsep
        obtain ⟨digits, rfl, hdigits, -, -⟩ := readNumber_eq_some_iff.mp hnumber
        obtain ⟨hlen, taken, htaken, hlater⟩ := ih rest
        refine ⟨Nat.succ_le_succ hlen, ':' :: (digits ++ taken), ?_, .group hdigits hlater⟩
        dsimp only
        rw [List.cons_append, List.append_assoc, ← htaken]
      · exact ⟨Nat.zero_le _, [], rfl, .nil⟩

theorem readGroups_first_sound (limit : Nat) (text : List Char) :
    (readGroups limit true text).groups.length ≤ limit ∧
      ∃ taken, text = taken ++ (readGroups limit true text).rest ∧
        Side (readGroups limit true text).dotted taken (readGroups limit true text).groups := by
  rw [readGroups_first]
  split
  · exact ⟨Nat.zero_le _, [], rfl, .nil⟩
  · rename_i hne
    obtain ⟨hlen, taken, htaken, hlater⟩ := readGroups_sound limit (':' :: text)
    -- what was taken starts with the colon that was put in front
    generalize readGroups limit false (':' :: text) = read at hne hlen htaken hlater ⊢
    obtain ⟨groups, dotted, rest⟩ := read
    refine ⟨hlen, ?_⟩
    cases taken with
    | nil =>
      cases hlater
      exact absurd rfl hne
    | cons c taken =>
      rw [List.cons_append] at htaken
      obtain ⟨rfl, htext⟩ := List.cons.inj htaken
      exact ⟨taken, htext, .cons hlater⟩

theorem readV6_sound {text rest : List Char} {n : Nat} (h : readV6 text = some (n, rest)) :
    ∃ taken, text = taken ++ rest ∧ LongText taken n := by
  obtain ⟨hlimit, head, hhead, hbefore⟩ := readGroups_first_sound 8 text
  unfold readV6 at h
  dsimp only at h
  generalize readGroups 8 true text = first at h hlimit hhead hbefore
  split at h
  · rename_i hlen
    cases h
    exact ⟨head, hhead, .whole hbefore hlen⟩
  · rename_i hfew
    split at h
    · cases h
    · rename_i hplain
      rw [Bool.not_eq_true] at hplain
      rw [hplain] at hbefore
      split at h
      · rename_i more hrest
        rw [hrest] at hhead
        obtain ⟨hlen, tail, htail, hafter⟩ :=
          readGroups_first_sound (7 - first.groups.length) more
        cases h
        refine ⟨head ++ ':' :: ':' :: tail, ?_, .gap hbefore hafter (by omega)⟩
        rw [hhead, List.append_assoc, List.cons_append, List.cons_append, ← htail]
      · cases h

/-! ### What is taken -/

/-- Nothing is read where no number follows. -/
theorem readGroups_none {limit : Nat} {first : Bool} {text : List Char}
    (h : ∀ more, afterSeparator first text = some more →
      EndsNumber 16 more ∧ more.head? ≠ some '.') :
    readGroups limit first text = ⟨[], false, text⟩ := by
  cases limit with
  | zero => rfl
  | succ limit =>
    have hnone {α : Type} {f : List Char → Option α}
        (hf : ∀ more, EndsNumber 16 more → more.head? ≠ some '.' → f more = none) :
        (afterSeparator first text).bind f = none := by
      cases hsep : afterSeparator first text with
      | none => rfl
      | some more => exact hf more (h more hsep).1 (h more hsep).2
    have hshort : (afterSeparator first text).bind readV4 = none :=
      hnone fun more hmore hpoint => readV4_none
        (by rwa [← List.nil_append more, dropWhile_digits (by simp) hmore])
    have hgroup : (afterSeparator first text).bind (readNumber 16 4 65536 true) = none :=
      hnone fun more hmore _ => readNumber_none hmore
    rw [readGroups, hshort, hgroup, ite_self]

theorem readGroups_end {limit : Nat} {rest : List Char} (h : EndsGroups rest) (first : Bool) :
    readGroups limit first rest = ⟨[], false, rest⟩ := by
  refine readGroups_none fun more hsep => ?_
  cases first with
  | true =>
    cases hsep
    exact ⟨h.endsNumber 16, h.head?_ne⟩
  | false =>
    cases h with
    | gap rest =>
      cases hsep
      exact ⟨endsNumber_cons (by decide) _, by simp⟩
    | _ => cases hsep

/-- Behind the digits of a group there is no further digit and no point. -/
theorem Later.ends {dotted : Bool} {text rest : List Char} {groups : List Nat}
    (h : Later dotted text groups) (hr : EndsGroups rest) :
    EndsNumber 16 (text ++ rest) ∧ (text ++ rest).head? ≠ some '.' := by
  cases h with
  | nil => exact ⟨hr.endsNumber 16, hr.head?_ne⟩
  | group => exact ⟨endsNumber_cons (by decide) _, by simp⟩
  | short => exact ⟨endsNumber_cons (by decide) _, by simp⟩

/-- A group is not taken for the start of a short address. -/
theorem NumberText.readV4_none {digits rest : List Char} {g : Nat}
    (h : NumberText 16 4 65536 digits g) (hr : EndsNumber 16 rest)
    (hpoint : rest.head? ≠ some '.') : readV4 (digits ++ rest) = none :=
  Address.readV4_none (by rwa [dropWhile_digits h.digit hr])

theorem readGroups_complete {dotted : Bool} {text rest : List Char} {groups : List Nat}
    (h : Later dotted text groups) (hr : EndsGroups rest) {limit : Nat}
    (hlimit : groups.length ≤ limit) :
    readGroups limit false (text ++ rest) = ⟨groups, dotted, rest⟩ := by
  induction h generalizing limit with
  | nil => exact readGroups_end hr false
  | @group dotted digits text g groups hdigits hlater ih =>
    rw [List.length_cons] at hlimit
    obtain ⟨limit, rfl⟩ : ∃ m, limit = m + 1 := ⟨limit - 1, by omega⟩
    obtain ⟨hends, hpoint⟩ := hlater.ends hr
    have hsep : afterSeparator false (':' :: (digits ++ text) ++ rest) =
        some (digits ++ (text ++ rest)) := by
      rw [List.cons_append, List.append_assoc]
      rfl
    have hnumber : readNumber 16 4 65536 true (digits ++ (text ++ rest)) =
        some (g, text ++ rest) :=
      readNumber_eq_some_iff.mpr ⟨digits, rfl, hdigits, nofun, hends⟩
    rw [readGroups, hsep, Option.bind_some, Option.bind_some,
      hdigits.readV4_none hends hpoint, hnumber, ite_self]
    dsimp only
    rw [ih (Nat.le_of_succ_le_succ hlimit)]
  | @short n hn =>
    obtain ⟨limit, rfl⟩ : ∃ m, limit = m + 1 := ⟨limit - 1, by simp at hlimit; omega⟩
    have hshort : (afterSeparator false (':' :: v4Chars n ++ rest)).bind readV4 =
        some (n, rest) := readV4_eq_some_iff.mpr ⟨hn, rfl, hr.endsNumber 10⟩
    rw [readGroups, hshort, if_neg (by simp at hlimit; omega)]

theorem Side.readGroups_complete {dotted : Bool} {text rest : List Char} {groups : List Nat}
    (h : Side dotted text groups) (hr : EndsGroups rest) {limit : Nat}
    (hlimit : groups.length ≤ limit) :
    readGroups limit true (text ++ rest) = ⟨groups, dotted, rest⟩ := by
  cases h with
  | nil => exact readGroups_end hr true
  | cons h =>
    rw [readGroups_first, ← List.cons_append, Address.readGroups_complete h hr hlimit, if_neg]
    cases h <;> simp

theorem readV6_complete {text rest : List Char} {n : Nat} (h : LongText text n)
    (hr : EndsGroups rest) : readV6 (text ++ rest) = some (n, rest) := by
  unfold readV6
  cases h with
  | whole h hlen =>
    rw [h.readGroups_complete hr (Nat.le_of_eq hlen)]
    dsimp only
    rw [if_pos hlen]
  | @gap dotted head tail before after hhead htail hlen =>
    have hmore : readGroups (7 - before.length) true (tail ++ rest) = ⟨after, dotted, rest⟩ :=
      htail.readGroups_complete hr (by omega)
    rw [List.append_assoc, List.cons_append, List.cons_append,
      hhead.readGroups_complete (.gap _) (by omega)]
    dsimp only
    rw [if_neg (by omega), if_neg Bool.false_ne_true]
    simp only [hmore]

/-- A long address is not taken for a short one. -/
theorem LongText.readV4_none {text : List Char} {n : Nat} (h : LongText text n) :
    readV4 text = none := by
  have hcolon (more : List Char) : EndsNumber 16 (':' :: more) := endsNumber_cons (by decide) more
  have hgroup {digits : List Char} {g : Nat} (hg : NumberText 16 4 65536 digits g)
      (more : List Char) : readV4 (digits ++ ':' :: more) = none :=
    hg.readV4_none (hcolon more) (by simp)
  cases h with
  | whole h hlen =>
    -- there are eight groups, so the first one is a number in front of a colon
    cases h with
    | nil => cases hlen
    | cons h =>
      cases h with
      | group hg hrest =>
        cases hrest with
        | nil => cases hlen
        | group hg' hrest => exact hgroup hg _
        | short hn => cases hlen
      | short hn => cases hlen
  | gap hhead htail hlen =>
    cases hhead with
    | nil => exact Address.readV4_none (by rw [List.nil_append]; simp [isDigitIn, hexValue?])
    | cons h =>
      cases h with
      | group hg hrest =>
        rw [List.append_assoc]
        cases hrest with
        | nil => exact hgroup hg _
        | group hg' hrest => exact hgroup hg _

/-! ## Addresses -/

/-- The text is one of the address. -/
inductive Names : List Char → Address → Prop
  | short (n : UInt32) : Names (v4Chars n.toNat) (.v4 n)
  | long {text : List Char} {n : Nat} (h : LongText text n) : Names text (.v6 (BitVec.ofNat 128 n))

/-- A text is read as an address exactly if it is one of the address. -/
theorem ofText?_eq_some_iff {text : String} {a : Address} :
    ofText? text = some a ↔ Names text.toList a := by
  unfold ofText? readAddress
  generalize text.toList = chars
  constructor
  · intro h
    cases hshort : readV4 chars with
    | some p =>
      obtain ⟨n, rest⟩ := p
      rw [hshort] at h
      cases rest with
      | nil =>
        cases h
        obtain ⟨hn, rfl, -⟩ := readV4_eq_some_iff.mp hshort
        rw [List.append_nil]
        have hnumber : (UInt32.ofNat n).toNat = n := UInt32.toNat_ofNat_of_lt hn
        have hnames := Names.short (UInt32.ofNat n)
        rwa [hnumber] at hnames
      | cons c rest => cases h
    | none =>
      rw [hshort] at h
      cases hlong : readV6 chars with
      | none =>
        rw [hlong] at h
        cases h
      | some p =>
        obtain ⟨n, rest⟩ := p
        rw [hlong] at h
        cases rest with
        | nil =>
          cases h
          obtain ⟨taken, rfl, htext⟩ := readV6_sound hlong
          rw [List.append_nil]
          exact .long htext
        | cons c rest => cases h
  · intro h
    cases h with
    | short n =>
      have hshort : readV4 (v4Chars n.toNat) = some (n.toNat, []) :=
        readV4_eq_some_iff.mpr ⟨n.toNat_lt, by simp, endsNumber_nil 10⟩
      rw [hshort]
      simp
    | long h =>
      have hlong := readV6_complete h .nil
      rw [List.append_nil] at hlong
      rw [h.readV4_none, hlong]
      rfl

end Address

namespace Endpoint

open Address

/-- The digits of a port. -/
def PortText (digits : List Char) (port : UInt16) : Prop :=
  NumberText 10 digits.length 0x10000 digits port.toNat

/-- Nothing, or a scope behind a percent sign. -/
inductive ScopeText : List Char → Prop
  | nil : ScopeText []
  | cons {digits : List Char} {n : Nat} (h : NumberText 10 digits.length 0x100000000 digits n) :
    ScopeText ('%' :: digits)

/-- The text is one of the endpoint. -/
inductive Names : List Char → Endpoint → Prop
  | short (n : UInt32) {digits : List Char} {port : UInt16} (hport : PortText digits port) :
    Names (v4Chars n.toNat ++ ':' :: digits) ⟨.v4 n, port⟩
  | long {text scope digits : List Char} {n : Nat} {port : UInt16} (h : LongText text n)
    (hscope : ScopeText scope) (hport : PortText digits port) :
    Names ('[' :: (text ++ (scope ++ ']' :: ':' :: digits))) ⟨.v6 (BitVec.ofNat 128 n), port⟩

theorem readPort_eq_some_iff {text : List Char} {port : UInt16} :
    readPort text = some (port, []) ↔ ∃ digits, text = ':' :: digits ∧ PortText digits port := by
  unfold readPort PortText
  simp only [Option.bind_eq_bind, Option.bind_eq_some_iff, Option.pure_def, Option.some.injEq,
    Prod.exists, readNumber_eq_some_iff, expect_eq_some_iff, Prod.mk.injEq]
  constructor
  · rintro ⟨_, rfl, n, _, ⟨digits, rfl, h, -, -⟩, rfl, rfl⟩
    have hnumber : (UInt16.ofNat n).toNat = n := UInt16.toNat_ofNat_of_lt h.bounded
    rw [List.append_nil, hnumber]
    exact ⟨digits, rfl, { h with short := Nat.le_refl _ }⟩
  · rintro ⟨digits, rfl, h⟩
    exact ⟨digits, rfl, port.toNat, [], ⟨digits, by simp, { h with short := Nat.le_succ _ }, nofun,
      endsNumber_nil 10⟩, by simp, rfl⟩

/-- What stands before a bracket behind a long address is a scope. -/
theorem expect_skipScope_iff {text rest : List Char} :
    expect ']' (skipScope text) = some rest ↔
      ∃ scope, text = scope ++ ']' :: rest ∧ ScopeText scope := by
  constructor
  · intro h
    unfold skipScope at h
    split at h
    · obtain rfl := expect_eq_some_iff.mp h
      exact ⟨[], rfl, .nil⟩
    · rename_i body hbody
      obtain rfl := expect_eq_some_iff.mp hbody
      split at h
      · rename_i n more hnumber
        obtain rfl := expect_eq_some_iff.mp h
        obtain ⟨digits, rfl, hdigits, -, -⟩ := readNumber_eq_some_iff.mp hnumber
        exact ⟨'%' :: digits, rfl, .cons { hdigits with short := Nat.le_refl _ }⟩
      · cases h
  · rintro ⟨scope, rfl, hscope⟩
    cases hscope with
    | nil => rfl
    | @cons digits n hdigits =>
      have hnumber : readNumber 10 (digits ++ ']' :: rest).length 0x100000000 true
          (digits ++ ']' :: rest) = some (n, ']' :: rest) :=
        readNumber_eq_some_iff.mpr ⟨digits, rfl, { hdigits with short := by simp }, nofun,
          endsNumber_cons (by decide) rest⟩
      have hskip : skipScope ('%' :: digits ++ ']' :: rest) = ']' :: rest := by
        unfold skipScope
        rw [List.cons_append, expect_eq_some_iff.mpr rfl]
        dsimp only
        rw [hnumber]
      rw [hskip]
      rfl

theorem ScopeText.endsGroups {scope : List Char} (h : ScopeText scope) (rest : List Char) :
    EndsGroups (scope ++ ']' :: rest) := by
  cases h with
  | nil => exact .bracket rest
  | cons h => exact .scope _

theorem readV4_eq_some_iff {text : List Char} {e : Endpoint} :
    readV4 text = some (e, []) ↔ ∃ n digits port, text = v4Chars (UInt32.toNat n) ++ ':' :: digits ∧
      PortText digits port ∧ e = ⟨.v4 n, port⟩ := by
  unfold readV4
  simp only [Option.bind_eq_bind, Option.bind_eq_some_iff, Option.pure_def, Option.some.injEq,
    Prod.exists, Address.readV4_eq_some_iff, Prod.mk.injEq]
  constructor
  · rintro ⟨n, _, ⟨hn, rfl, -⟩, port, _, hport, rfl, rfl⟩
    obtain ⟨digits, rfl, hdigits⟩ := readPort_eq_some_iff.mp hport
    have hnumber : (UInt32.ofNat n).toNat = n := UInt32.toNat_ofNat_of_lt hn
    exact ⟨UInt32.ofNat n, digits, port, by rw [hnumber], hdigits, rfl⟩
  · rintro ⟨n, digits, port, rfl, hport, rfl⟩
    exact ⟨n.toNat, _, ⟨n.toNat_lt, rfl, endsNumber_cons (by decide) digits⟩, port, [],
      readPort_eq_some_iff.mpr ⟨digits, rfl, hport⟩, by simp, rfl⟩

theorem readV6_eq_some_iff {text : List Char} {e : Endpoint} :
    readV6 text = some (e, []) ↔ ∃ body scope digits n port,
      text = '[' :: (body ++ (scope ++ ']' :: ':' :: digits)) ∧ LongText body n ∧
        ScopeText scope ∧ PortText digits port ∧ e = ⟨.v6 (BitVec.ofNat 128 n), port⟩ := by
  unfold readV6
  simp only [Option.bind_eq_bind, Option.bind_eq_some_iff, Option.pure_def, Option.some.injEq,
    Prod.exists, expect_eq_some_iff (c := '['), expect_skipScope_iff, Prod.mk.injEq]
  constructor
  · rintro ⟨_, rfl, n, _, hread, _, ⟨scope, rfl, hscope⟩, port, _, hport, rfl, rfl⟩
    obtain ⟨body, rfl, hbody⟩ := readV6_sound hread
    obtain ⟨digits, rfl, hdigits⟩ := readPort_eq_some_iff.mp hport
    exact ⟨body, scope, digits, n, port, rfl, hbody, hscope, hdigits, rfl⟩
  · rintro ⟨body, scope, digits, n, port, rfl, hbody, hscope, hport, rfl⟩
    exact ⟨_, rfl, n, _, readV6_complete hbody (hscope.endsGroups _), _, ⟨scope, rfl, hscope⟩, port,
      [], readPort_eq_some_iff.mpr ⟨digits, rfl, hport⟩, rfl, rfl⟩

/-- A text is read as an endpoint exactly if it is one of the endpoint. -/
theorem ofText?_eq_some_iff {text : String} {e : Endpoint} :
    ofText? text = some e ↔ Names text.toList e := by
  have hbracket (more : List Char) : readV4 ('[' :: more) = none := by
    unfold readV4
    rw [Address.readV4_none
      (by rw [← List.nil_append ('[' :: more), dropWhile_digits (by simp)
        (endsNumber_cons (by decide) more)]; simp)]
    rfl
  unfold ofText?
  generalize text.toList = chars
  constructor
  · intro h
    cases hshort : readV4 chars with
    | some p =>
      obtain ⟨e', rest⟩ := p
      rw [hshort] at h
      cases rest with
      | nil =>
        cases h
        obtain ⟨n, digits, port, rfl, hport, rfl⟩ := readV4_eq_some_iff.mp hshort
        exact .short n hport
      | cons c rest => cases h
    | none =>
      rw [hshort] at h
      cases hlong : readV6 chars with
      | none =>
        simp [hlong] at h
      | some p =>
        obtain ⟨e', rest⟩ := p
        simp only [Option.orElse_none, hlong] at h
        cases rest with
        | nil =>
          cases h
          obtain ⟨body, scope, digits, n, port, rfl, hbody, hscope, hport, rfl⟩ :=
            readV6_eq_some_iff.mp hlong
          exact .long hbody hscope hport
        | cons c rest => cases h
  · intro h
    cases h with
    | @short n digits port hport =>
      rw [readV4_eq_some_iff.mpr ⟨n, digits, port, rfl, hport, rfl⟩]
      rfl
    | @long body scope digits n port hbody hscope hport =>
      rw [hbracket, Option.orElse_none,
        readV6_eq_some_iff.mpr ⟨body, scope, digits, n, port, rfl, hbody, hscope, hport, rfl⟩]

end Endpoint

end WireSchema

import Mathlib.Data.List.DropRight
import Mathlib.Data.Nat.Basic
import WireSchema.Json.Reader
import WireSchema.Proofs.Json.Text

/-!
# JSON text read back

Every text of a value is scanned as a document that spells the value (`scan_text`), up to what
follows it, whatever that is, as long as it does not go on with a numeral.  So a value that nests no
deeper than a reader follows is read back from its compact text (`Json.parse_compact`), and one that
nests deeper is not (`Json.parse_compact_deep`).
-/

namespace WireSchema

namespace Document

/-! ## Blanks -/

theorem skipBlanks_cons {c : Char} (h : isBlank c = false) (rest : List Char) :
    skipBlanks (c :: rest) = c :: rest := by
  simp [skipBlanks, h]

theorem skipBlanks_append {blanks : List Char} (h : Blanks blanks) (text : List Char) :
    skipBlanks (blanks ++ text) = skipBlanks text := List.dropWhile_append_of_pos h

theorem skipBlanks_skipBlanks (text : List Char) : skipBlanks (skipBlanks text) = skipBlanks text :=
  List.dropWhile_idempotent isBlank text

theorem scan_skipBlanks (fuel : Nat) (text : List Char) :
    scan fuel (skipBlanks text) = scan fuel text := by
  cases fuel with
  | zero => rfl
  | succ fuel => rw [scan, scan, skipBlanks_skipBlanks]

theorem scanItems_skipBlanks (fuel : Nat) (text : List Char) :
    scanItems fuel (skipBlanks text) = scanItems fuel text := by
  cases fuel with
  | zero => rfl
  | succ fuel => rw [scanItems, scanItems, scan_skipBlanks]

theorem scanMembers_skipBlanks (fuel : Nat) (text : List Char) :
    scanMembers fuel (skipBlanks text) = scanMembers fuel text := by
  cases fuel with
  | zero => rfl
  | succ fuel => rw [scanMembers, scanMembers, skipBlanks_skipBlanks]

/-! ## Strings -/

/-- A code that is no surrogate stands for its character, whatever follows. -/
theorem decode?_code {n : Nat} (h : n < 0xD800) (units : List TextUnit) :
    TextUnit.decode? (.code n :: units) = (TextUnit.decode? units).map (Char.ofNat n :: ·) := by
  have hl : TextUnit.isLeading n = false := by
    simp [TextUnit.isLeading]
    omega
  have ht : TextUnit.isTrailing n = false := by
    simp [TextUnit.isTrailing]
    omega
  cases units with
  | nil => simp [TextUnit.decode?, hl, ht]
  | cons u rest =>
    cases u with
    | char c => simp [TextUnit.decode?, hl, ht]
    | code m => rw [TextUnit.decode?]; simp [hl, ht]

/-- The digits of a control character are read as its code. -/
theorem hexCode?_control {n : Nat} (h : n < 32) :
    hexCode? '0' '0' (Nat.digitChar (n / 16)) (Nat.digitChar (n % 16)) = some n := by
  have hall : ∀ m < 32, hexCode? '0' '0' (Nat.digitChar (m / 16)) (Nat.digitChar (m % 16)) =
      some m := by decide
  exact hall n h

/-- A character that needs no escape stands for itself. -/
theorem scanString_plain {c : Char} (hq : c ≠ '"') (hb : c ≠ '\\') (hc : ¬ c.toNat < 32)
    {rest more : List Char} {units : List TextUnit}
    (h : scanString rest = some (units, more)) :
    scanString (c :: rest) = some (.char c :: units, more) := by
  rw [scanString.eq_def]
  split
  · simp_all
  · simp_all
  · simp_all
  · simp_all
  · rename_i heq
    cases heq
    rw [if_neg hc, h]
    rfl

/-- A character behind a backslash, other than `u`, is read as what it stands for. -/
theorem scanString_short {d e : Char} (hu : d ≠ 'u') (he : escaped? d = some e)
    {rest more : List Char} {units : List TextUnit} (h : scanString rest = some (units, more)) :
    scanString ('\\' :: d :: rest) = some (.char e :: units, more) := by
  rw [scanString]
  · rw [he, h]
    rfl
  · intro a b c d' rest' heq
    exact absurd heq hu

/-- An escaped character is read back. -/
theorem scanString_escape (c : Char) {rest more : List Char} {units : List TextUnit}
    {l : List Char} (h : scanString rest = some (units, more))
    (hd : TextUnit.decode? units = some l) :
    ∃ units', scanString (Json.escape c ++ rest) = some (units', more) ∧
      TextUnit.decode? units' = some (c :: l) := by
  have char (e : Char) : TextUnit.decode? (.char e :: units) = some (e :: l) := by
    rw [TextUnit.decode?, hd]
    rfl
  unfold Json.escape
  split
  · rename_i hc; subst hc
    exact ⟨_, scanString_short (by decide) (by decide) h, char _⟩
  split
  · rename_i hc; subst hc
    exact ⟨_, scanString_short (by decide) (by decide) h, char _⟩
  split
  · rename_i hc; subst hc
    exact ⟨_, scanString_short (by decide) (by decide) h, char _⟩
  split
  · rename_i hc; subst hc
    exact ⟨_, scanString_short (by decide) (by decide) h, char _⟩
  split
  · rename_i hc; subst hc
    exact ⟨_, scanString_short (by decide) (by decide) h, char _⟩
  split
  · rename_i hc; subst hc
    exact ⟨_, scanString_short (by decide) (by decide) h, char _⟩
  split
  · rename_i hc; subst hc
    exact ⟨_, scanString_short (by decide) (by decide) h, char _⟩
  split
  · rename_i hc
    refine ⟨.code c.toNat :: units, ?_, ?_⟩
    · simp only [List.cons_append, List.nil_append]
      rw [scanString, hexCode?_control hc]
      simp only [h, Option.bind_eq_bind, Option.bind_some]
      rfl
    · rw [decode?_code (by omega), hd, Char.ofNat_toNat]
      rfl
  · exact ⟨_, scanString_plain (by assumption) (by assumption) (by assumption) h, char c⟩

/-- The characters of a string are read back up to the closing quote. -/
theorem scanString_chars (l rest : List Char) :
    ∃ units, scanString (l.flatMap Json.escape ++ '"' :: rest) = some (units, rest) ∧
      TextUnit.decode? units = some l := by
  induction l with
  | nil => exact ⟨[], rfl, rfl⟩
  | cons c l ih =>
    obtain ⟨units, hs, hd⟩ := ih
    rw [List.flatMap_cons, List.append_assoc]
    exact scanString_escape c hs hd

/-! ## Numerals -/

/-- The text does not go on with a numeral. -/
def EndsNumeral (rest : List Char) : Prop :=
  ∀ c more, rest = c :: more → c.isDigit = false ∧ c ≠ '.' ∧ c ≠ 'e' ∧ c ≠ 'E'

theorem endsNumeral_nil : EndsNumeral [] := nofun

theorem endsNumeral_cons {c : Char} (rest : List Char)
    (h : c.isDigit = false ∧ c ≠ '.' ∧ c ≠ 'e' ∧ c ≠ 'E') : EndsNumeral (c :: rest) := by
  rintro _ _ ⟨⟩
  exact h

theorem scanDigits_append {digits rest : List Char} (hd : ∀ c ∈ digits, c.isDigit = true)
    (hr : EndsNumeral rest) : scanDigits (digits ++ rest) = (digits, rest) := by
  unfold scanDigits
  rw [List.takeWhile_append_of_pos hd, List.dropWhile_append_of_pos hd]
  cases rest with
  | nil => simp
  | cons c more => simp [(hr c more rfl).1]

/-- A positive number does not start with a zero. -/
theorem natChars_head {n : Nat} (h : 0 < n) : ∃ c rest, natChars n = c :: rest ∧ c ≠ '0' := by
  induction n using Nat.strongRecOn with
  | ind n ih =>
    unfold natChars at *
    by_cases hn : n < 10
    · refine ⟨Nat.digitChar n, [], Nat.toDigits_of_lt_base hn, ?_⟩
      intro h0
      have := Nat.toNat_digitChar_of_lt_ten hn
      rw [h0] at this
      have h48 : Char.toNat '0' = 48 := rfl
      omega
    · obtain ⟨c, rest, hc, hne⟩ := ih (n / 10) (by omega) (by omega)
      exact ⟨c, _, by rw [Nat.toDigits_of_base_le (by decide) (by omega), hc]; rfl, hne⟩

theorem isDigit_natChars {n : Nat} {c : Char} (h : c ∈ natChars n) : c.isDigit = true :=
  Nat.isDigit_of_mem_toDigits (by decide) (by decide) h

theorem natChars_cons (n : Nat) : ∃ c rest, natChars n = c :: rest ∧ c.isDigit = true := by
  cases h : natChars n with
  | nil => exact absurd h Nat.toDigits_ne_nil
  | cons c rest =>
    refine ⟨c, rest, rfl, isDigit_natChars (n := n) ?_⟩
    rw [h]
    exact List.mem_cons_self

theorem scanWhole_append (n : Nat) {rest : List Char} (hr : EndsNumeral rest) :
    scanWhole (natChars n ++ rest) = some (natChars n, rest) := by
  unfold scanWhole
  rw [scanDigits_append (fun c hc => isDigit_natChars hc) hr]
  by_cases hn : n = 0
  · subst hn
    rfl
  · obtain ⟨c, more, hc, hne⟩ := natChars_head (Nat.pos_of_ne_zero hn)
    rw [hc]
    split
    · simp_all
    · simp_all
    · simp_all
    · rename_i heq
      cases heq
      rfl

theorem digitsValue_natChars (n : Nat) : Numeral.digitsValue (natChars n) = n := by
  have h := Nat.ofDigitChars_toDigits (b := 10) (n := n) (by decide) (by decide)
  have hfold : ∀ (l : List Char) (k : Nat),
      l.foldl (fun n c => 10 * n + Numeral.digitValue c) k = Nat.ofDigitChars 10 l k := by
    intro l
    induction l with
    | nil => intro k; rfl
    | cons c l ih =>
      intro k
      rw [List.foldl_cons, ih, Nat.ofDigitChars_cons]
      rfl
  rw [Numeral.digitsValue, hfold]
  exact h

/-- An integer is scanned up to what follows it. -/
theorem scanNumeral_append {text rest : List Char} {negative : Bool} {n : Nat}
    (hsign : scanSign text = (negative, natChars n ++ rest)) (hr : EndsNumeral rest) :
    scanNumeral text = some (⟨negative, natChars n, none, none⟩, rest) := by
  have hfraction : scanFraction rest = some (none, rest) := by
    unfold scanFraction
    split
    · rename_i more
      exact absurd rfl (hr '.' more rfl).2.1
    · rfl
  have hexponent : scanExponent rest = some (none, rest) := by
    cases rest with
    | nil => rfl
    | cons c more =>
      obtain ⟨-, -, he, hE⟩ := hr c more rfl
      show (if c = 'e' ∨ c = 'E' then _ else some (none, c :: more)) = _
      exact if_neg (by simp [he, hE])
  unfold scanNumeral
  rw [hsign]
  simp only [scanWhole_append n hr, hfraction, hexponent, Option.bind_eq_bind, Option.bind_some,
    Option.pure_def]

theorem toNumber?_natural (n : UInt64) :
    Numeral.toNumber? ⟨false, natChars n.toNat, none, none⟩ = some (.natural n) := by
  have h := n.toNat_lt
  simp only [Numeral.toNumber?, digitsValue_natChars, Numeral.isInteger]
  rw [if_pos (by simpa using h), UInt64.ofNat_toNat]

theorem toNumber?_negative {n : Int64} (h : n.toInt < 0) :
    Numeral.toNumber? ⟨true, natChars n.toInt.natAbs, none, none⟩ = some (.negative n) := by
  have hl := n.le_toInt
  have hval : -(n.toInt.natAbs : Int) = n.toInt := by omega
  simp only [Numeral.toNumber?, digitsValue_natChars, Numeral.isInteger]
  rw [if_neg (by simp), if_pos (by simp; omega), hval, Int64.ofInt_toInt]

end Document

/-! ## Documents that spell a value -/

namespace Json

mutual

/-- A document that spells a value: strings are decoded, numerals have their numbers, and members
stand in written order. -/
inductive Spells : Json → Document → Prop
  | null : Spells .null .null
  | bool (b : Bool) : Spells (.bool b) (.bool b)
  | number {n : JsonNumber} {m : Numeral} (h : m.toNumber? = some n) :
      Spells (.number n) (.number m)
  | string {s : String} {units : List TextUnit} (h : TextUnit.text? units = some s) :
      Spells (.string s) (.string units)
  | array {items : List Json} {ds : List Document} (h : SpellsItems items ds) :
      Spells (.array items) (.array ds)
  | object {members : List (String × Json)} {ds : List (List TextUnit × Document)}
      (h : SpellsMembers members ds) : Spells (.object members) (.object ds)

/-- Documents that spell items, one by one. -/
inductive SpellsItems : List Json → List Document → Prop
  | nil : SpellsItems [] []
  | cons {j : Json} {d : Document} {items : List Json} {ds : List Document} (h : Spells j d)
      (hrest : SpellsItems items ds) : SpellsItems (j :: items) (d :: ds)

/-- Named documents that spell members, one by one. -/
inductive SpellsMembers : List (String × Json) → List (List TextUnit × Document) → Prop
  | nil : SpellsMembers [] []
  | cons {name : String} {j : Json} {units : List TextUnit} {d : Document}
      {members : List (String × Json)} {ds : List (List TextUnit × Document)}
      (hname : TextUnit.text? units = some name) (h : Spells j d)
      (hrest : SpellsMembers members ds) : SpellsMembers ((name, j) :: members) ((units, d) :: ds)

end

end Json

namespace Document

/-! ## Scanning -/

/-- A text that starts with no other opening character is a numeral. -/
theorem scan_numeral {c : Char} (fuel : Nat) (text : List Char)
    (hc : c.isDigit = true ∨ c = '-') :
    scan (fuel + 1) (c :: text) =
      (scanNumeral (c :: text)).map fun (n, rest) => (.number n, rest) := by
  have hne : ∀ d ∈ [' ', '\t', '\n', '\r', 'n', 't', 'f', '"', '[', '\x7b'], c ≠ d := by
    rintro d hd rfl
    rcases hc with hc | hc
    · revert hd hc
      simp only [List.mem_cons, List.not_mem_nil, or_false]
      rintro (rfl | rfl | rfl | rfl | rfl | rfl | rfl | rfl | rfl | rfl) <;> decide
    · subst hc
      revert hd
      decide
  have hblank : isBlank c = false := by
    simp [isBlank, hne]
  rw [scan, skipBlanks_cons hblank]
  split <;> first | rfl | (rename_i heq; cases heq; exact absurd rfl (hne _ (by decide)))

/-- A natural is scanned up to what follows it. -/
theorem scan_natural (n : UInt64) (fuel : Nat) {rest : List Char} (hr : EndsNumeral rest) :
    ∃ m : Numeral, scan (fuel + 1) (natChars n.toNat ++ rest) = some (.number m, rest) ∧
      m.toNumber? = some (.natural n) := by
  obtain ⟨c, more, hc, hd⟩ := natChars_cons n.toNat
  have hsign : scanSign (natChars n.toNat ++ rest) = (false, natChars n.toNat ++ rest) := by
    rw [hc, List.cons_append]
    unfold scanSign
    split
    · rename_i heq
      cases heq
      exact absurd hd (by decide)
    · rfl
  refine ⟨⟨false, natChars n.toNat, none, none⟩, ?_, toNumber?_natural n⟩
  have hs := scanNumeral_append hsign hr
  rw [hc, List.cons_append] at hs ⊢
  rw [scan_numeral _ _ (.inl hd), hs]
  rfl

/-- A negative number is scanned up to what follows it. -/
theorem scan_negative {n : Int64} (h : n.toInt < 0) (fuel : Nat) {rest : List Char}
    (hr : EndsNumeral rest) :
    ∃ m : Numeral, scan (fuel + 1) ('-' :: natChars n.toInt.natAbs ++ rest) =
      some (.number m, rest) ∧ m.toNumber? = some (.negative n) := by
  refine ⟨⟨true, natChars n.toInt.natAbs, none, none⟩, ?_, toNumber?_negative h⟩
  have hsign : scanSign ('-' :: (natChars n.toInt.natAbs ++ rest)) =
      (true, natChars n.toInt.natAbs ++ rest) := rfl
  rw [List.cons_append, scan_numeral _ _ (.inr rfl), scanNumeral_append hsign hr]
  rfl

theorem text?_of_decode? {units : List TextUnit} {s : String}
    (h : TextUnit.decode? units = some s.toList) : TextUnit.text? units = some s := by
  rw [TextUnit.text?, h, Option.map_some, String.ofList_toList]

/-- A string in quotes is scanned up to what follows it. -/
theorem scanString_stringChars (s : String) (rest : List Char) :
    ∃ text units, Json.stringChars s ++ rest = '"' :: text ∧
      scanString text = some (units, rest) ∧ TextUnit.text? units = some s := by
  obtain ⟨units, hs, hd⟩ := scanString_chars s.toList rest
  exact ⟨_, units, by simp [Json.stringChars], hs, text?_of_decode? hd⟩

/-- The text of a value starts with a character that is neither blank nor a closing bracket. -/
theorem text_head {j : Json} {text : List Char} (h : j.Text text) :
    ∃ c rest, text = c :: rest ∧ isBlank c = false ∧ c ≠ ']' := by
  cases h with
  | natural n =>
    obtain ⟨c, rest, hc, hd⟩ := natChars_cons n.toNat
    refine ⟨c, rest, hc, ?_, ?_⟩
    · rw [Bool.eq_false_iff]
      intro hb
      simp only [isBlank, Bool.or_eq_true, beq_iff_eq] at hb
      rcases hb with ((rfl | rfl) | rfl) | rfl <;> exact absurd hd (by decide)
    · rintro rfl
      exact absurd hd (by decide)
  | _ => exact ⟨_, _, rfl, by decide, by decide⟩

/-- Blanks and what follows an item or a member end a numeral. -/
theorem endsNumeral_follow {blanks : List Char} (hb : Blanks blanks) {c : Char}
    (h : c = ',' ∨ c = ']' ∨ c = '\x7d') (rest : List Char) :
    EndsNumeral (blanks ++ c :: rest) := by
  cases blanks with
  | nil => rcases h with rfl | rfl | rfl <;> exact endsNumeral_cons rest (by decide)
  | cons b blanks =>
    refine endsNumeral_cons _ ?_
    have hblank := hb b List.mem_cons_self
    simp only [isBlank, Bool.or_eq_true, beq_iff_eq] at hblank
    rcases hblank with ((rfl | rfl) | rfl) | rfl <;> decide

/-- Blanks are passed over. -/
theorem skipBlanks_follow {blanks : List Char} (hb : Blanks blanks) {c : Char}
    (h : c = ',' ∨ c = ']' ∨ c = '\x7d') (rest : List Char) :
    skipBlanks (blanks ++ c :: rest) = c :: rest := by
  rw [skipBlanks_append hb]
  rcases h with rfl | rfl | rfl <;> exact skipBlanks_cons (by decide) rest

theorem scan_blanks {blanks : List Char} (hb : Blanks blanks) (fuel : Nat) (text : List Char) :
    scan fuel (blanks ++ text) = scan fuel text := by
  rw [← scan_skipBlanks, skipBlanks_append hb, scan_skipBlanks]

/-- An array whose text goes on, behind blanks, with something else than the closing bracket. -/
theorem scan_array {fuel : Nat} {c : Char} {text more rest : List Char} {ds : List Document}
    (hskip : skipBlanks text = c :: more) (hne : c ≠ ']')
    (h : scanItems fuel text = some (ds, rest)) :
    scan (fuel + 1) ('[' :: text) = some (.array ds, rest) := by
  rw [← scanItems_skipBlanks, hskip] at h
  rw [scan, skipBlanks_cons (by decide)]
  simp only [hskip]
  split
  · rename_i heq
    cases heq
    exact absurd rfl hne
  · rw [h]
    rfl

/-- An object whose text goes on, behind blanks, with a name. -/
theorem scan_object {fuel : Nat} {text more rest : List Char}
    {ds : List (List TextUnit × Document)} (hskip : skipBlanks text = '"' :: more)
    (h : scanMembers fuel text = some (ds, rest)) :
    scan (fuel + 1) ('\x7b' :: text) = some (.object ds, rest) := by
  rw [← scanMembers_skipBlanks, hskip] at h
  rw [scan, skipBlanks_cons (by decide)]
  simp only [hskip]
  split
  · rename_i heq
    exact absurd (List.cons.inj heq).1 (by decide)
  · rw [h]
    rfl

theorem skipBlanks_items {items : List Json} {inner : List Char} (h : Json.ItemsText items inner)
    (rest : List Char) : ∃ c more, skipBlanks (inner ++ rest) = c :: more ∧ c ≠ ']' := by
  cases h with
  | last hb hj ha | more hb hj hrest =>
    obtain ⟨c, text, rfl, hblank, hne⟩ := text_head hj
    rw [List.append_assoc, skipBlanks_append hb]
    exact ⟨c, _, skipBlanks_cons hblank _, hne⟩

theorem skipBlanks_members {members : List (String × Json)} {inner : List Char}
    (h : Json.MembersText members inner) (rest : List Char) :
    ∃ more, skipBlanks (inner ++ rest) = '"' :: more := by
  cases h with
  | last hb hg hj ha | more hb hg hj hrest =>
    rw [List.append_assoc, skipBlanks_append hb]
    exact ⟨_, skipBlanks_cons (by decide) _⟩

/-- A member is scanned up to what follows it: the closing brace, or a comma and more members. -/
theorem scanMembers_member {before : List Char} (hb : Blanks before) (name : String) {fuel : Nat}
    {value rest : List Char} {d : Document} (h : scan fuel value = some (d, rest)) :
    ∃ units, TextUnit.text? units = some name ∧
      (∀ more, skipBlanks rest = '\x7d' :: more →
        scanMembers (fuel + 1) (before ++ (Json.stringChars name ++ ':' :: value)) =
          some ([(units, d)], more)) ∧
      ∀ more ds tail, skipBlanks rest = ',' :: more → scanMembers fuel more = some (ds, tail) →
        scanMembers (fuel + 1) (before ++ (Json.stringChars name ++ ':' :: value)) =
          some ((units, d) :: ds, tail) := by
  obtain ⟨text, units, htext, hs, hname⟩ := scanString_stringChars name (':' :: value)
  have hcolon : isBlank ':' = false := by decide
  rw [htext, scanMembers, skipBlanks_append hb, skipBlanks_cons (by decide)]
  refine ⟨units, hname, fun more hrest => ?_, fun more ds tail hrest hmore => ?_⟩
  · simp only [hs, skipBlanks_cons hcolon, h, hrest]
  · simp only [hs, skipBlanks_cons hcolon, h, hrest, hmore, Option.map_some]

mutual

/-- A text of a value is scanned up to what follows it, as a document that spells the value. -/
theorem scan_text (j : Json) {text : List Char} (ht : j.Text text) (fuel : Nat) (rest : List Char)
    (hf : text.length ≤ fuel) (hr : EndsNumeral rest) :
    ∃ d, scan fuel (text ++ rest) = some (d, rest) ∧ j.Spells d := by
  obtain ⟨fuel, rfl⟩ : ∃ m, fuel = m + 1 := by
    obtain ⟨c, more, rfl, -⟩ := text_head ht
    exact Nat.exists_eq_succ_of_ne_zero (by rw [List.length_cons] at hf; omega)
  match j, ht with
  | .null, .null => exact ⟨.null, rfl, .null⟩
  | .bool true, .true => exact ⟨.bool true, rfl, .bool true⟩
  | .bool false, .false => exact ⟨.bool false, rfl, .bool false⟩
  | .number _, .natural n =>
    obtain ⟨m, hs, hm⟩ := scan_natural n fuel hr
    exact ⟨.number m, hs, .number hm⟩
  | .number _, .negative n hneg =>
    obtain ⟨m, hs, hm⟩ := scan_negative hneg fuel hr
    exact ⟨.number m, hs, .number hm⟩
  | .string s, .string _ =>
    obtain ⟨text, units, htext, hs, hname⟩ := scanString_stringChars s rest
    refine ⟨.string units, ?_, .string hname⟩
    rw [htext, scan, skipBlanks_cons (by decide)]
    simp only [hs, Option.map_some]
  | .array _, .emptyArray => exact ⟨.array [], rfl, .array .nil⟩
  | .array items, .array hi =>
    rw [List.length_cons, List.length_append, List.length_singleton] at hf
    obtain ⟨ds, hs, hd⟩ := scanItems_text items hi fuel rest (by omega)
    obtain ⟨c, more, hskip, hne⟩ := skipBlanks_items hi (']' :: rest)
    refine ⟨.array ds, ?_, .array hd⟩
    rw [List.cons_append, List.append_assoc, List.singleton_append]
    exact scan_array hskip hne hs
  | .object _, .emptyObject => exact ⟨.object [], rfl, .object .nil⟩
  | .object members, .object hm =>
    rw [List.length_cons, List.length_append, List.length_singleton] at hf
    obtain ⟨ds, hs, hd⟩ := scanMembers_text members hm fuel rest (by omega)
    obtain ⟨more, hskip⟩ := skipBlanks_members hm ('\x7d' :: rest)
    refine ⟨.object ds, ?_, .object hd⟩
    rw [List.cons_append, List.append_assoc, List.singleton_append]
    exact scan_object hskip hs

/-- The text of items is scanned up to the closing bracket. -/
theorem scanItems_text (items : List Json) {inner : List Char} (hi : Json.ItemsText items inner)
    (fuel : Nat) (rest : List Char) (hf : inner.length + 1 ≤ fuel) :
    ∃ ds, scanItems fuel (inner ++ ']' :: rest) = some (ds, rest) ∧ Json.SpellsItems items ds := by
  obtain ⟨fuel, rfl⟩ : ∃ m, fuel = m + 1 := Nat.exists_eq_succ_of_ne_zero (by omega)
  match items, hi with
  | [j], .last hb hj ha =>
    simp only [List.length_append] at hf
    obtain ⟨d, hs, hd⟩ := scan_text j hj fuel _ (by omega)
      (endsNumeral_follow ha (.inr (.inl rfl)) rest)
    refine ⟨[d], ?_, .cons hd .nil⟩
    rw [List.append_assoc, List.append_assoc, scanItems, scan_blanks hb, hs]
    simp only [skipBlanks_follow ha (.inr (.inl rfl)) rest]
  | j :: items, .more hb hj hrest =>
    simp only [List.length_append, List.length_cons] at hf
    obtain ⟨d, hs, hd⟩ := scan_text j hj fuel _ (by omega)
      (endsNumeral_follow blanks_nil (.inl rfl) _)
    obtain ⟨ds, hss, hds⟩ := scanItems_text items hrest fuel rest (by omega)
    refine ⟨d :: ds, ?_, .cons hd hds⟩
    rw [List.append_assoc, List.append_assoc, List.cons_append, scanItems, scan_blanks hb]
    rw [List.nil_append] at hs
    rw [hs]
    simp only [skipBlanks_cons (show isBlank ',' = false from by decide), hss, Option.map_some]

/-- The text of members is scanned up to the closing brace. -/
theorem scanMembers_text (members : List (String × Json)) {inner : List Char}
    (hm : Json.MembersText members inner) (fuel : Nat) (rest : List Char)
    (hf : inner.length + 1 ≤ fuel) :
    ∃ ds, scanMembers fuel (inner ++ '\x7d' :: rest) = some (ds, rest) ∧
      Json.SpellsMembers members ds := by
  obtain ⟨fuel, rfl⟩ : ∃ m, fuel = m + 1 := Nat.exists_eq_succ_of_ne_zero (by omega)
  match members, hm with
  | [(name, j)], .last hb hg hj ha =>
    simp only [List.length_append, List.length_cons] at hf
    obtain ⟨d, hs, hd⟩ := scan_text j hj fuel _ (by omega)
      (endsNumeral_follow ha (.inr (.inr rfl)) rest)
    rw [← scan_blanks hg] at hs
    obtain ⟨units, hname, hlast, -⟩ := scanMembers_member hb name hs
    refine ⟨[(units, d)], ?_, .cons hname hd .nil⟩
    simp only [List.append_assoc, List.cons_append]
    exact hlast rest (skipBlanks_follow ha (.inr (.inr rfl)) rest)
  | (name, j) :: members, .more hb hg hj hrest =>
    simp only [List.length_append, List.length_cons] at hf
    obtain ⟨d, hs, hd⟩ := scan_text j hj fuel _ (by omega)
      (endsNumeral_follow blanks_nil (.inl rfl) _)
    rw [← scan_blanks hg] at hs
    obtain ⟨ds, hss, hds⟩ := scanMembers_text members hrest fuel rest (by omega)
    obtain ⟨units, hname, -, hmore⟩ := scanMembers_member hb name hs
    refine ⟨(units, d) :: ds, ?_, .cons hname hd hds⟩
    simp only [List.append_assoc, List.cons_append]
    exact hmore _ ds rest (skipBlanks_follow blanks_nil (.inl rfl) _) hss

end

/-! ## Values -/

mutual

/-- A document that spells a plain value has that value. -/
theorem toJson?_of_spells (j : Json) {d : Document} (hj : j.Plain) (h : j.Spells d) (room : Nat)
    (hroom : j.depth ≤ room) : toJson? room d = some j := by
  match j, h with
  | .null, .null => rfl
  | .bool b, .bool _ => rfl
  | .number n, .number hm => rw [toJson?, hm]; rfl
  | .string s, .string hs => rw [toJson?, hs]; rfl
  | .array items, .array hitems =>
    rw [Json.depth] at hroom
    rw [toJson?, if_neg (by omega), itemsToJson?_of_spells items hj hitems _ (by omega)]
    rfl
  | .object members, .object hmembers =>
    obtain ⟨hsorted, hp⟩ : Assoc.Sorted members ∧ Json.PlainMembers members := hj
    rw [Json.depth] at hroom
    rw [toJson?, if_neg (by omega), membersToJson?_of_spells members hp hmembers _ (by omega),
      Option.map_some, Assoc.ofList_of_sorted hsorted]

theorem itemsToJson?_of_spells (items : List Json) {ds : List Document} (hi : Json.PlainItems items)
    (h : Json.SpellsItems items ds) (room : Nat) (hroom : Json.depthItems items ≤ room) :
    itemsToJson? room ds = some items := by
  match items, h with
  | [], .nil => rfl
  | j :: items, .cons hd hrest =>
    rw [Json.depthItems] at hroom
    rw [itemsToJson?, toJson?_of_spells j hi.1 hd room (by omega),
      itemsToJson?_of_spells items hi.2 hrest room (by omega)]

theorem membersToJson?_of_spells (members : List (String × Json))
    {ds : List (List TextUnit × Document)} (hm : Json.PlainMembers members)
    (h : Json.SpellsMembers members ds) (room : Nat) (hroom : Json.depthMembers members ≤ room) :
    membersToJson? room ds = some members := by
  match members, h with
  | [], .nil => rfl
  | (name, j) :: members, .cons hname hd hrest =>
    rw [Json.depthMembers] at hroom
    rw [membersToJson?, hname, toJson?_of_spells j hm.1 hd room (by omega),
      membersToJson?_of_spells members hm.2 hrest room (by omega)]

end

mutual

/-- A document that spells a value of too many levels has no value. -/
theorem toJson?_of_deep (j : Json) {d : Document} (h : j.Spells d) (room : Nat)
    (hroom : room < j.depth) : toJson? room d = none := by
  match j, h with
  | .null, .null => exact absurd hroom (Nat.not_lt_zero room)
  | .bool b, .bool _ => exact absurd hroom (Nat.not_lt_zero room)
  | .number n, .number _ => exact absurd hroom (Nat.not_lt_zero room)
  | .string s, .string _ => exact absurd hroom (Nat.not_lt_zero room)
  | .array items, .array hitems =>
    rw [Json.depth] at hroom
    rw [toJson?]
    by_cases hzero : room = 0
    · rw [if_pos hzero]
    · rw [if_neg hzero, itemsToJson?_of_deep items hitems _ (by omega)]
      rfl
  | .object members, .object hmembers =>
    rw [Json.depth] at hroom
    rw [toJson?]
    by_cases hzero : room = 0
    · rw [if_pos hzero]
    · rw [if_neg hzero, membersToJson?_of_deep members hmembers _ (by omega)]
      rfl

theorem itemsToJson?_of_deep (items : List Json) {ds : List Document}
    (h : Json.SpellsItems items ds) (room : Nat) (hroom : room < Json.depthItems items) :
    itemsToJson? room ds = none := by
  match items, h with
  | [], .nil => exact absurd hroom (Nat.not_lt_zero room)
  | j :: items, .cons hd hrest =>
    rw [Json.depthItems] at hroom
    rw [itemsToJson?]
    by_cases hdeep : room < j.depth
    · rw [toJson?_of_deep j hd room hdeep]
    · rw [itemsToJson?_of_deep items hrest room (by omega)]
      split
      · rename_i hnone
        cases hnone
      · rfl

theorem membersToJson?_of_deep (members : List (String × Json))
    {ds : List (List TextUnit × Document)} (h : Json.SpellsMembers members ds) (room : Nat)
    (hroom : room < Json.depthMembers members) : membersToJson? room ds = none := by
  match members, h with
  | [], .nil => exact absurd hroom (Nat.not_lt_zero room)
  | (name, j) :: members, .cons hname hd hrest =>
    rw [Json.depthMembers] at hroom
    rw [membersToJson?, hname]
    by_cases hdeep : room < j.depth
    · rw [toJson?_of_deep j hd room hdeep]
    · rw [membersToJson?_of_deep members hrest room (by omega)]
      split
      · rename_i hnone
        cases hnone
      · rfl

end

/-- A text of a value is a document that spells it. -/
theorem parse?_text {j : Json} {text : List Char} (h : j.Text text) :
    ∃ d, parse? (String.ofList text) = some d ∧ j.Spells d := by
  obtain ⟨d, hs, hd⟩ := scan_text j h (fuelFor text) [] (by rw [fuelFor]; omega) endsNumeral_nil
  refine ⟨d, ?_, hd⟩
  rw [List.append_nil] at hs
  rw [parse?, String.toList_ofList, ofChars?, hs]
  rfl

/-- The text of a whole value, indented or compact, is a document that spells it. -/
theorem parse?_render {j : Json} (h : j.Whole) (pretty : Bool) :
    ∃ d, parse? (j.render pretty) = some d ∧ j.Spells d := by
  cases pretty with
  | true => exact parse?_text (Json.text_indented 0 j h)
  | false => exact parse?_text (Json.text_chars j h)

end Document

/-- The compact text of a plain value is read back as the value. -/
theorem Json.parse_compact {j : Json} (h : j.Plain) (hd : j.depth ≤ 127) :
    Json.parse? j.compact = some j := by
  obtain ⟨d, hparse, hspells⟩ := Document.parse?_text (Json.text_chars j h.whole)
  rw [Json.parse?, Json.compact, hparse]
  exact Document.toJson?_of_spells j h hspells Document.maxDepth hd

/-- The compact text of a value that nests deeper than a reader follows is not read. -/
theorem Json.parse_compact_deep {j : Json} (h : j.Whole) (hd : 127 < j.depth) :
    Json.parse? j.compact = none := by
  obtain ⟨d, hparse, hspells⟩ := Document.parse?_text (Json.text_chars j h)
  rw [Json.parse?, Json.compact, hparse]
  exact Document.toJson?_of_deep j hspells Document.maxDepth hd

end WireSchema

import Mathlib.Tactic.Ring
import WireSchema.Proofs.AddressGrammar

/-!
# The canonical texts of addresses

What the canonical text of an address is, without the steps that write it (`Address.Form`,
`Endpoint.Form`).  A short address is its octets in decimal, with points between them.  A long
address is its groups of sixteen bits in hexadecimal, with colons between them, where the first of
the longest runs of at least two zero groups is left out; if it maps a short address, that one
stands in it as such.  The text that is written is the one text of this form (`Address.form_iff`,
`Endpoint.form_iff`), as the run that was found is the first of the longest ones
(`leads_longestZeroRun`), and it is read back (`Address.ofText?_text`, `Endpoint.ofText?_text`).
-/

namespace WireSchema

namespace Address

/-! ## Runs of zeros -/

namespace ZeroRun

/-- The run lies before an index, and there are only zeros in it. -/
structure Fits (run : ZeroRun) (groups : List Nat) (index : Nat) : Prop where
  inside : run.start + run.length ≤ index
  zeros : ∀ i, run.start ≤ i → i < run.start + run.length → groups[i]? = some 0

/-- The run ends at an index, and no run that does is longer. -/
structure Reaches (run : ZeroRun) (groups : List Nat) (index : Nat) : Prop where
  fits : run.Fits groups index
  ends : run.length ≠ 0 → run.start + run.length = index
  longest : ∀ other : ZeroRun, other.Fits groups index → other.start + other.length = index →
    other.length ≤ run.length

/-- The run is the first of the longest ones before an index. -/
structure Leads (run : ZeroRun) (groups : List Nat) (index : Nat) : Prop where
  fits : run.Fits groups index
  longest : ∀ other : ZeroRun, other.Fits groups index → other.length ≤ run.length
  first : ∀ other : ZeroRun, other.Fits groups index → other.length = run.length →
    0 < other.length → run.start ≤ other.start

/-- The run with the group at an index. -/
def grow (run : ZeroRun) (index : Nat) : ZeroRun :=
  if run.length = 0 then ⟨index, 1⟩ else ⟨run.start, run.length + 1⟩

variable {run longest other : ZeroRun} {groups : List Nat} {index : Nat}

theorem Fits.mono {i j : Nat} (h : run.Fits groups i) (hle : i ≤ j) : run.Fits groups j :=
  ⟨Nat.le_trans h.inside hle, h.zeros⟩

theorem fits_empty (groups : List Nat) (index : Nat) : (⟨0, 0⟩ : ZeroRun).Fits groups index :=
  ⟨Nat.zero_le _, fun i _ hi => absurd hi (Nat.not_lt_zero i)⟩

theorem reaches_empty (groups : List Nat) : (⟨0, 0⟩ : ZeroRun).Reaches groups 0 :=
  ⟨fits_empty groups 0, fun h => absurd rfl h, fun _ h _ => by have := h.inside; omega⟩

theorem leads_empty (groups : List Nat) : (⟨0, 0⟩ : ZeroRun).Leads groups 0 :=
  ⟨fits_empty groups 0, fun _ h => by have := h.inside; omega, fun _ _ _ _ => Nat.zero_le _⟩

theorem length_grow (run : ZeroRun) (index : Nat) : (run.grow index).length = run.length + 1 := by
  unfold grow
  split
  · simp [*]
  · rfl

theorem Reaches.end_grow (h : run.Reaches groups index) :
    (run.grow index).start + (run.grow index).length = index + 1 := by
  unfold grow
  split
  · rfl
  · rename_i hne
    have hend := h.ends hne
    dsimp only
    omega

/-- A run before the next index is one before this index, or it has the group there. -/
theorem Fits.of_succ (h : other.Fits groups (index + 1)) :
    other.Fits groups index ∨ other.start + other.length = index + 1 := by
  rcases Nat.lt_or_ge index (other.start + other.length) with hlt | hle
  · have hinside := h.inside
    exact .inr (by omega)
  · exact .inl ⟨hle, h.zeros⟩

/-- A zero makes the run that reaches up to it longer by one. -/
theorem Reaches.zero (h : run.Reaches groups index) (hzero : groups[index]? = some 0) :
    (run.grow index).Reaches groups (index + 1) := by
  have hend := h.end_grow
  have hlength := run.length_grow index
  refine ⟨⟨Nat.le_of_eq hend, fun i hl hu => ?_⟩, fun _ => hend, fun other hfits hother => ?_⟩
  · rcases Nat.lt_or_ge i index with hlt | hge
    · have hne : run.length ≠ 0 := by omega
      have hstart := h.ends hne
      exact h.fits.zeros i (by omega) (by omega)
    · obtain rfl : i = index := by omega
      exact hzero
  · by_cases hnone : other.length = 0
    · omega
    · -- without its last group it reaches up to here
      have hless : (⟨other.start, other.length - 1⟩ : ZeroRun).Fits groups index :=
        ⟨by dsimp only; omega, fun i hl hu => hfits.zeros i hl (by dsimp only at hu; omega)⟩
      have hle := h.longest _ hless (by dsimp only; omega)
      dsimp only at hle
      omega

/-- No run reaches beyond a group that is not zero. -/
theorem reaches_of_ne_zero {g : Nat} (hg : groups[index]? = some g) (hne : g ≠ 0) :
    (⟨0, 0⟩ : ZeroRun).Reaches groups (index + 1) := by
  refine ⟨fits_empty groups _, fun h => absurd rfl h, fun other hfits hend => ?_⟩
  by_contra hlength
  have hzero := hfits.zeros index (by omega) (by omega)
  rw [hg] at hzero
  exact hne (Option.some.inj hzero)

/-- A run that reaches further is the first longest one if it is longer than those before. -/
theorem Leads.replace (h : longest.Leads groups index) (hrun : run.Reaches groups (index + 1))
    (hlt : longest.length < run.length) : run.Leads groups (index + 1) := by
  have hend := hrun.ends (by omega)
  refine ⟨hrun.fits, fun other hfits => ?_, fun other hfits hlength _ => ?_⟩
  · rcases hfits.of_succ with hbefore | hreach
    · exact Nat.le_trans (h.longest other hbefore) (Nat.le_of_lt hlt)
    · exact hrun.longest other hfits hreach
  · rcases hfits.of_succ with hbefore | hreach
    · have hle := h.longest other hbefore
      omega
    · omega

/-- Where what reaches further is not longer, the longest one stays. -/
theorem Leads.keep (h : longest.Leads groups index) (hrun : run.Reaches groups (index + 1))
    (hle : run.length ≤ longest.length) : longest.Leads groups (index + 1) := by
  have hinside := h.fits.inside
  refine ⟨h.fits.mono (Nat.le_succ _), fun other hfits => ?_, fun other hfits hlength hpos => ?_⟩
  · rcases hfits.of_succ with hbefore | hreach
    · exact h.longest other hbefore
    · exact Nat.le_trans (hrun.longest other hfits hreach) hle
  · rcases hfits.of_succ with hbefore | hreach
    · exact h.first other hbefore hlength hpos
    · omega

/-- There is one first longest run. -/
theorem Leads.unique (h : run.Leads groups index) (h' : other.Leads groups index)
    (hpos : 0 < run.length) : run = other := by
  have hlength : run.length = other.length :=
    Nat.le_antisymm (h'.longest run h.fits) (h.longest other h'.fits)
  have hstart : run.start = other.start :=
    Nat.le_antisymm (h.first other h'.fits hlength.symm (by omega))
      (h'.first run h.fits hlength hpos)
  cases run
  cases other
  cases hlength
  cases hstart
  rfl

/-- What a run leaves out is as many zeros as it is long. -/
theorem Fits.split (h : run.Fits groups groups.length) :
    groups.take run.start ++ List.replicate run.length 0 ++
      groups.drop (run.start + run.length) = groups := by
  have hmiddle : (groups.drop run.start).take run.length = List.replicate run.length 0 := by
    refine List.ext_getElem? fun i => ?_
    rw [List.getElem?_take, List.getElem?_drop, List.getElem?_replicate]
    split
    · exact h.zeros _ (by omega) (by omega)
    · rfl
  rw [← hmiddle, List.append_assoc, ← List.drop_drop, List.take_append_drop,
    List.take_append_drop]

end ZeroRun

/-- Going on from a run that reaches up to the rest and the first longest one before it. -/
theorem longestZeroRun_leads {groups before rest : List Nat} (hg : groups = before ++ rest)
    {current longest : ZeroRun} (hcurrent : current.Reaches groups before.length)
    (hlongest : longest.Leads groups before.length) :
    (longestZeroRun rest before.length current longest).Leads groups groups.length := by
  induction rest generalizing before current longest with
  | nil =>
    rw [List.append_nil] at hg
    rw [hg] at hlongest ⊢
    exact hlongest
  | cons g rest ih =>
    have hnext : groups = (before ++ [g]) ++ rest := by simp [hg]
    have hhere : groups[before.length]? = some g := by simp [hg]
    have hstep := @ih (before ++ [g]) hnext
    rw [List.length_append, List.length_singleton] at hstep
    unfold longestZeroRun
    dsimp only
    split
    · rename_i hzero
      rw [hzero] at hhere
      have hgrown := hcurrent.zero hhere
      have hbest : (if longest.length < (current.grow before.length).length
          then current.grow before.length else longest).Leads groups (before.length + 1) := by
        by_cases hlt : longest.length < (current.grow before.length).length
        · rw [if_pos hlt]
          exact hlongest.replace hgrown hlt
        · rw [if_neg hlt]
          exact hlongest.keep hgrown (Nat.le_of_not_lt hlt)
      exact hstep hgrown hbest
    · rename_i hne
      have hreset := ZeroRun.reaches_of_ne_zero hhere hne
      exact hstep hreset (hlongest.keep hreset (Nat.zero_le _))

/-- The run that is found is the first of the longest ones. -/
theorem leads_longestZeroRun (groups : List Nat) :
    (longestZeroRun groups 0 ⟨0, 0⟩ ⟨0, 0⟩).Leads groups groups.length :=
  @longestZeroRun_leads groups [] groups rfl _ _ (ZeroRun.reaches_empty groups)
    (ZeroRun.leads_empty groups)

/-! ## Canonical texts -/

/-- The digits of numbers, with a separator between them. -/
def joined (separator : Char) (radix : Nat) (numbers : List Nat) : List Char :=
  List.intercalate [separator] (numbers.map (Nat.toDigits radix))

/-- The octets of a short address, with points between them. -/
def dotted (n : UInt32) : List Char := joined '.' 10 ((octets (.v4 n)).map UInt8.toNat)

/-- A text of groups, without the first of the longest runs of at least two zeros. -/
inductive GroupsForm (groups : List Nat) : List Char → Prop
  | whole (h : ∀ run : ZeroRun, run.Fits groups groups.length → run.length < 2) :
    GroupsForm groups (joined ':' 16 groups)
  | gap (run : ZeroRun) (hrun : run.Leads groups groups.length) (h : 2 ≤ run.length) :
    GroupsForm groups (joined ':' 16 (groups.take run.start) ++ [':', ':'] ++
      joined ':' 16 (groups.drop (run.start + run.length)))

/-- The long address stands for the short one. -/
def Maps (n : BitVec 128) (m : UInt32) : Prop := n.toNat = 0xffff00000000 + m.toNat

/-- A canonical text of an address. -/
inductive Form : Address → List Char → Prop
  | short (n : UInt32) : Form (.v4 n) (dotted n)
  | mapped (n : BitVec 128) (m : UInt32) (h : Maps n m) :
    Form (.v6 n) ("::ffff:".toList ++ dotted m)
  | long (n : BitVec 128) (h : ∀ m, ¬ Maps n m) (text : List Char)
    (htext : GroupsForm (groupsOf 8 n.toNat) text) : Form (.v6 n) text

end Address

/-- A canonical text of an endpoint. -/
inductive Endpoint.Form : Endpoint → List Char → Prop
  | short (n : UInt32) (port : UInt16) (text : List Char) (h : (Address.v4 n).Form text) :
    Form ⟨.v4 n, port⟩ (text ++ ':' :: Nat.toDigits 10 port.toNat)
  | long (n : BitVec 128) (port : UInt16) (text : List Char) (h : (Address.v6 n).Form text) :
    Form ⟨.v6 n, port⟩ ('[' :: text ++ ']' :: ':' :: Nat.toDigits 10 port.toNat)

namespace Address

theorem groupChars_eq_joined (groups : List Nat) : groupChars groups = joined ':' 16 groups := by
  induction groups with
  | nil => rfl
  | cons g rest ih =>
    cases rest with
    | nil => simp [groupChars, joined]
    | cons g' rest =>
      have hcons : groupChars (g :: g' :: rest) =
          Nat.toDigits 16 g ++ ':' :: groupChars (g' :: rest) := rfl
      rw [hcons, ih]
      simp [joined]

theorem v4Chars_eq_dotted (n : UInt32) : v4Chars n.toNat = dotted n := by
  have hoctets : (octets (.v4 n)).map UInt8.toNat =
      [n.toNat / 0x1000000 % 256, n.toNat / 0x10000 % 256, n.toNat / 0x100 % 256,
        n.toNat % 256] := by
    simp [octets, beBytes, leBytes, Nat.div_div_eq_div_mul]
  rw [dotted, hoctets]
  simp [v4Chars, joined, decimalChars]

theorem groupsForm_iff (groups : List Nat) (text : List Char) :
    GroupsForm groups text ↔ text = plainV6Chars groups := by
  have hleads := leads_longestZeroRun groups
  unfold plainV6Chars
  simp only [groupChars_eq_joined]
  by_cases hlong : 1 < (longestZeroRun groups 0 ⟨0, 0⟩ ⟨0, 0⟩).length
  · rw [if_pos hlong]
    constructor
    · intro h
      cases h with
      | whole h =>
        have hshort := h _ hleads.fits
        omega
      | gap run hrun h =>
        rw [hrun.unique hleads (by omega)]
        simp
    · rintro rfl
      have hgap := GroupsForm.gap _ hleads hlong
      rwa [List.append_assoc] at hgap
  · rw [if_neg hlong]
    constructor
    · intro h
      cases h with
      | whole h => rfl
      | gap run hrun h =>
        have hle := hleads.longest run hrun.fits
        omega
    · rintro rfl
      refine .whole fun run hrun => ?_
      have hle := hleads.longest run hrun
      omega

theorem maps_iff (n : BitVec 128) (m : UInt32) :
    Maps n m ↔ n.toNat / 0x100000000 = 0xffff ∧ m.toNat = n.toNat % 0x100000000 := by
  have hm := m.toNat_lt
  unfold Maps
  omega

/-- An address has one canonical text, the one that is written. -/
theorem form_iff (a : Address) (text : List Char) : a.Form text ↔ text = a.chars := by
  cases a with
  | v4 n =>
    rw [chars, v4Chars_eq_dotted]
    constructor
    · rintro ⟨⟩
      rfl
    · rintro rfl
      exact .short n
  | v6 n =>
    rw [chars, v6Chars]
    by_cases hmapped : n.toNat / 0x100000000 = 0xffff
    · obtain ⟨m, hm⟩ : ∃ m : UInt32, m.toNat = n.toNat % 0x100000000 :=
        ⟨UInt32.ofNat (n.toNat % 0x100000000), by simp⟩
      have hmaps : Maps n m := (maps_iff n m).mpr ⟨hmapped, hm⟩
      rw [if_pos hmapped, ← hm, v4Chars_eq_dotted]
      constructor
      · intro h
        cases h with
        | mapped _ m' h =>
          have hsame : m' = m := UInt32.toNat_inj.mp (((maps_iff n m').mp h).2.trans hm.symm)
          rw [hsame]
          rfl
        | long _ h => exact absurd hmaps (h m)
      · rintro rfl
        exact .mapped n m hmaps
    · rw [if_neg hmapped, ← groupsForm_iff]
      have hnone (m : UInt32) : ¬ Maps n m := fun h => hmapped ((maps_iff n m).mp h).1
      constructor
      · intro h
        cases h with
        | mapped _ m h => exact absurd h (hnone m)
        | long _ _ _ htext => exact htext
      · intro h
        exact .long n hnone text h

/-! Of two runs of two zero groups the first is left out. -/

example : (Address.v6 0x20010db8000000000001000000000001).text = "2001:db8::1:0:0:1" := by
  decide +kernel

/-! ## Reading canonical texts -/

theorem length_groupsOf (count n : Nat) : (groupsOf count n).length = count := by
  induction count with
  | zero => rfl
  | succ count ih => rw [groupsOf, List.length_cons, ih]

theorem groupsOf_lt {count n g : Nat} (h : g ∈ groupsOf count n) : g < 65536 := by
  induction count with
  | zero => cases h
  | succ count ih =>
    rcases List.mem_cons.mp h with rfl | h
    · exact Nat.mod_lt _ (by decide)
    · exact ih h

theorem foldl_groupsOf (count n acc : Nat) :
    (groupsOf count n).foldl (fun m g => 65536 * m + g) acc =
      acc * 65536 ^ count + n % 65536 ^ count := by
  induction count generalizing acc with
  | zero => simp [groupsOf, Nat.mod_one]
  | succ count ih =>
    have hmod : n % 65536 ^ (count + 1) =
        n % 65536 ^ count + 65536 ^ count * (n / 65536 ^ count % 65536) := by
      rw [Nat.pow_succ, Nat.mod_mul]
    rw [groupsOf, List.foldl_cons, ih, Nat.pow_eq, hmod, Nat.pow_succ]
    ring

/-- A number of 128 bits has eight groups. -/
theorem ofGroups_groupsOf {n : Nat} (h : n < 2 ^ 128) : ofGroups (groupsOf 8 n) = n := by
  have hpow : (65536 : Nat) ^ 8 = 2 ^ 128 := by norm_num
  rw [ofGroups, foldl_groupsOf, Nat.zero_mul, Nat.zero_add, hpow, Nat.mod_eq_of_lt h]

theorem later_joined {g : Nat} {groups : List Nat} (hg : ∀ x ∈ g :: groups, x < 65536) :
    Later false (':' :: joined ':' 16 (g :: groups)) (g :: groups) := by
  have hgroup {x : Nat} (hx : x < 65536) : NumberText 16 4 65536 (Nat.toDigits 16 x) x :=
    numberText_toDigits (by decide) (by decide) hx
      ((Nat.length_toDigits_le_iff (by decide) (by decide)).mpr hx)
  induction groups generalizing g with
  | nil =>
    have hlast := Later.group (hgroup (hg g List.mem_cons_self)) .nil
    rw [List.append_nil] at hlast
    simpa [joined] using hlast
  | cons g' groups ih =>
    have hrest := ih fun x hx => hg x (List.mem_cons_of_mem _ hx)
    have hcons : joined ':' 16 (g :: g' :: groups) =
        Nat.toDigits 16 g ++ ':' :: joined ':' 16 (g' :: groups) := by simp [joined]
    rw [hcons]
    exact .group (hgroup (hg g List.mem_cons_self)) hrest

theorem side_joined {groups : List Nat} (hg : ∀ g ∈ groups, g < 65536) :
    Side false (joined ':' 16 groups) groups := by
  cases groups with
  | nil => exact .nil
  | cons g groups => exact .cons (later_joined hg)

/-- Groups stand for their number, also if some are left out. -/
theorem GroupsForm.longText {groups : List Nat} {text : List Char} (h : GroupsForm groups text)
    (hg : ∀ g ∈ groups, g < 65536) (hlen : groups.length = 8) :
    LongText text (ofGroups groups) := by
  cases h with
  | whole h => exact .whole (side_joined hg) hlen
  | gap run hrun h =>
    have hinside := hrun.fits.inside
    have hhead : (groups.take run.start).length = run.start := by
      rw [List.length_take]
      omega
    have htail : (groups.drop (run.start + run.length)).length = 8 - (run.start + run.length) := by
      rw [List.length_drop, hlen]
    have hgap : 8 - (groups.take run.start).length -
        (groups.drop (run.start + run.length)).length = run.length := by omega
    have htext := LongText.gap (side_joined fun g h => hg g (List.mem_of_mem_take h))
      (side_joined fun g h => hg g (List.mem_of_mem_drop h)) (show
        (groups.take run.start).length + (groups.drop (run.start + run.length)).length < 8 by omega)
    rw [hgap, hrun.fits.split] at htext
    rw [List.append_assoc]
    exact htext

/-- A long address may end in the short one that it maps. -/
theorem Maps.longText {n : BitVec 128} {m : UInt32} (h : Maps n m) :
    LongText ("::ffff:".toList ++ dotted m) n.toNat := by
  have hm : m.toNat < 0x100000000 := m.toNat_lt
  have hgroup : NumberText 16 4 65536 ['f', 'f', 'f', 'f'] 0xffff := by
    exact numberText_toDigits (n := 0xffff) (by decide) (by decide) (by decide) (by decide)
  have htext := LongText.gap .nil (.cons (.group hgroup (.short hm))) (by simp)
  have hvalue : ofGroups [0, 0, 0, 0, 0, 0xffff, m.toNat / 65536, m.toNat % 65536] = n.toNat := by
    rw [h]
    simp only [ofGroups, List.foldl_cons, List.foldl_nil]
    omega
  rw [← hvalue, ← v4Chars_eq_dotted]
  exact htext

/-- The canonical text is one of the address. -/
theorem Form.names {a : Address} {text : List Char} (h : a.Form text) : Names text a := by
  cases h with
  | short n =>
    rw [← v4Chars_eq_dotted]
    exact .short n
  | mapped n m h =>
    have hnames := Names.long h.longText
    rwa [BitVec.ofNat_toNat, BitVec.setWidth_eq] at hnames
  | long n h text htext =>
    have hlong := htext.longText (fun g hg => groupsOf_lt hg) (length_groupsOf 8 _)
    rw [ofGroups_groupsOf n.isLt] at hlong
    have hnames := Names.long hlong
    rwa [BitVec.ofNat_toNat, BitVec.setWidth_eq] at hnames

/-- The text of an address is read as the address. -/
theorem ofText?_text (a : Address) : ofText? a.text = some a := by
  rw [ofText?_eq_some_iff, text, String.toList_ofList]
  exact ((form_iff a a.chars).mpr rfl).names

end Address

namespace Endpoint

open Address

/-- An endpoint has one canonical text, the one that is written. -/
theorem form_iff (e : Endpoint) (text : List Char) : e.Form text ↔ text = e.chars := by
  obtain ⟨address, port⟩ := e
  constructor
  · intro h
    cases h with
    | short n port text h =>
      rw [(Address.form_iff _ text).mp h]
      rfl
    | long n port text h =>
      rw [(Address.form_iff _ text).mp h]
      rfl
  · rintro rfl
    cases address with
    | v4 n => exact .short n port _ ((Address.form_iff _ _).mpr rfl)
    | v6 n => exact .long n port _ ((Address.form_iff _ _).mpr rfl)

theorem portText_toDigits (port : UInt16) : PortText (Nat.toDigits 10 port.toNat) port :=
  numberText_toDigits (by decide) (by decide) port.toNat_lt (Nat.le_refl _)

/-- The canonical text is one of the endpoint. -/
theorem Form.names {e : Endpoint} {text : List Char} (h : e.Form text) : Names text e := by
  cases h with
  | short n port text h =>
    cases h
    rw [← v4Chars_eq_dotted]
    exact .short n (portText_toDigits port)
  | long n port text h =>
    have hnames := h.names
    cases hnames with
    | long htext => exact .long htext .nil (portText_toDigits port)

/-- The text of an endpoint is read as the endpoint. -/
theorem ofText?_text (e : Endpoint) : ofText? e.text = some e := by
  rw [ofText?_eq_some_iff, text, String.toList_ofList]
  exact ((form_iff e e.chars).mpr rfl).names

end Endpoint

end WireSchema

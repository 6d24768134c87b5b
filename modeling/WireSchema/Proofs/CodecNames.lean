import Mathlib.Data.List.Nodup
import WireSchema.Emit.Module
import WireSchema.Proofs.AppendOnly

/-!
# Identifiers of codecs

A codec is called by the base name of its type, or by the base name with the first number from two
on behind it that no earlier codec and nothing in the module is called by (`firstFree_freeName`).
So the identifiers of a table are distinct, and each is a capital letter with letters and digits
behind it.  An identifier depends on the declarations before its own only, and therefore stays when
a schema is revised (`codecNames_stable`).
-/

namespace WireSchema

namespace Emit

/-! ## Identifiers -/

/-- A capital letter with letters and digits behind it, all of them ASCII. -/
def IsIdentifier (name : String) : Prop :=
  ∃ c rest, name.toList = c :: rest ∧ c.isUpper = true ∧ ∀ x ∈ rest, x.isAlphanum = true

theorem toNat_lt_of_isAlphanum {c : Char} (h : c.isAlphanum = true) : c.toNat < 128 := by
  -- the last letters and the last digit are below that
  have hle {last : Char} (hlast : c.val ≤ last.val) (hascii : last.toNat < 128) : c.toNat < 128 :=
    Nat.lt_of_le_of_lt (UInt32.le_iff_toNat_le.mp hlast) hascii
  delta Char.isAlphanum Char.isAlpha Char.isUpper Char.isLower Char.isDigit at h
  simp only [Bool.or_eq_true, Bool.and_eq_true, decide_eq_true_eq] at h
  rcases h with (⟨-, hupper⟩ | ⟨-, hlower⟩) | ⟨-, hdigit⟩
  · exact hle hupper (by decide)
  · exact hle hlower (by decide)
  · exact hle hdigit (by decide)

/-- A letter or digit stays one when it is made a capital, and a letter becomes a capital. -/
theorem toUpper_of_isAlphanum {c : Char} (h : c.isAlphanum = true) :
    c.toUpper.isAlphanum = true ∧ (c.toUpper.isAlpha = true → c.toUpper.isUpper = true) := by
  have hall : ∀ n : Fin 128, (Char.ofNat n.val).isAlphanum = true →
      (Char.ofNat n.val).toUpper.isAlphanum = true ∧
        ((Char.ofNat n.val).toUpper.isAlpha = true →
          (Char.ofNat n.val).toUpper.isUpper = true) := by
    decide
  have hc := hall ⟨c.toNat, toNat_lt_of_isAlphanum h⟩
  rw [Char.ofNat_toNat] at hc
  exact hc h

theorem isAlphanum_pascalChars {capital : Bool} {text : List Char} {c : Char}
    (h : c ∈ pascalChars capital text) : c.isAlphanum = true := by
  induction text generalizing capital with
  | nil => cases h
  | cons x rest ih =>
    unfold pascalChars at h
    split at h
    · exact ih h
    · split at h
      · exact ih h
      · rename_i hx
        have hx : x.isAlphanum = true := by simpa using hx
        rcases List.mem_cons.mp h with rfl | h
        · split
          · exact (toUpper_of_isAlphanum hx).1
          · exact hx
        · exact ih h

/-- A word that starts with a letter starts with a capital. -/
theorem isUpper_head_pascalChars {text : List Char} {c : Char}
    (h : (pascalChars true text).head? = some c) (hc : c.isAlpha = true) : c.isUpper = true := by
  induction text with
  | nil => cases h
  | cons x rest ih =>
    unfold pascalChars at h
    split at h
    · exact ih h
    · split at h
      · exact ih h
      · rename_i hx
        cases h
        exact (toUpper_of_isAlphanum (by simpa using hx)).2 hc

theorem toList_pascalCase (name : String) :
    (pascalCase name).toList = pascalChars true name.toList := String.toList_ofList

theorem isIdentifier_baseName (ns name : String) : IsIdentifier (baseName ns name) := by
  have hchars : ∀ c ∈ (pascalCase ns ++ pascalCase name).toList, c.isAlphanum = true := by
    intro c hc
    rw [String.toList_append, toList_pascalCase, toList_pascalCase] at hc
    rcases List.mem_append.mp hc with hc | hc
    · exact isAlphanum_pascalChars hc
    · exact isAlphanum_pascalChars hc
  have hhead : ∀ c, (pascalCase ns ++ pascalCase name).toList.head? = some c →
      c.isAlpha = true → c.isUpper = true := by
    intro c hc
    rw [String.toList_append, toList_pascalCase, toList_pascalCase, List.head?_append] at hc
    rcases Option.or_eq_some_iff.mp hc with hc | ⟨-, hc⟩
    · exact isUpper_head_pascalChars hc
    · exact isUpper_head_pascalChars hc
  unfold baseName
  dsimp only
  split
  · rename_i c rest heq
    rw [heq] at hchars hhead
    split
    · rename_i halpha
      exact ⟨c, rest, heq, hhead c rfl halpha, fun x hx => hchars x (List.mem_cons_of_mem _ hx)⟩
    · refine ⟨'T', c :: rest, ?_, rfl, hchars⟩
      rw [String.toList_append, heq]
      rfl
  · exact ⟨'T', [], rfl, rfl, nofun⟩

/-! ## The first free name -/

/-- The base name, and then the base name with the numbers from two on behind it. -/
def candidate (base : String) : Nat → String
  | 0 => base
  | k + 1 => base ++ toString (k + 2)

theorem toList_candidate (base : String) (k : Nat) :
    (candidate base k).toList = base.toList ++ if k = 0 then [] else Nat.toDigits 10 (k + 1) := by
  cases k with
  | zero => simp [candidate]
  | succ k => simp [candidate]

theorem candidate_injective (base : String) : Function.Injective (candidate base) := by
  intro j k h
  have hdigits := congrArg String.toList h
  rw [toList_candidate, toList_candidate, List.append_cancel_left_eq] at hdigits
  split at hdigits
  · split at hdigits
    · omega
    · exact absurd hdigits.symm Nat.toDigits_ne_nil
  · split at hdigits
    · exact absurd hdigits Nat.toDigits_ne_nil
    · have hnumbers := congrArg (fun digits => Nat.ofDigitChars 10 digits 0) hdigits
      simp only [Nat.ofDigitChars_ten_toDigits] at hnumbers
      omega

theorem isIdentifier_candidate {base : String} (h : IsIdentifier base) (k : Nat) :
    IsIdentifier (candidate base k) := by
  obtain ⟨c, rest, hbase, hc, hrest⟩ := h
  refine ⟨c, rest ++ if k = 0 then [] else Nat.toDigits 10 (k + 1), ?_, hc, ?_⟩
  · rw [toList_candidate, hbase, List.cons_append]
  · intro x hx
    rcases List.mem_append.mp hx with hx | hx
    · exact hrest x hx
    · split at hx
      · cases hx
      · have hdigit := Nat.isDigit_of_mem_toDigits (by decide) (by decide) hx
        simp [Char.isAlphanum, hdigit]

/-- The name is the first candidate that is not taken, and at most as many candidates are tried
before it as names are taken. -/
def FirstFree (taken : List String) (base name : String) : Prop :=
  ∃ k ≤ taken.length, name = candidate base k ∧ name ∉ taken ∧
    ∀ j < k, candidate base j ∈ taken

/-- No more candidates are taken than there are names. -/
theorem lt_length_of_taken {taken : List String} {base : String} {k : Nat}
    (h : ∀ j ≤ k, candidate base j ∈ taken) : k < taken.length := by
  have hnodup : ((List.range (k + 1)).map (candidate base)).Nodup :=
    List.nodup_range.map (candidate_injective base)
  have hsubset : (List.range (k + 1)).map (candidate base) ⊆ taken := by
    intro name hname
    obtain ⟨j, hj, rfl⟩ := List.mem_map.mp hname
    exact h j (Nat.le_of_lt_succ (List.mem_range.mp hj))
  have hle := hnodup.length_le_of_subset hsubset
  rwa [List.length_map, List.length_range] at hle

theorem firstFree_freeSuffix {taken : List String} {base : String} {fuel k : Nat}
    (htaken : ∀ j ≤ k, candidate base j ∈ taken) (hfuel : taken.length ≤ k + fuel) :
    FirstFree taken base (freeSuffix taken base fuel (k + 2)) := by
  have hlt := lt_length_of_taken htaken
  induction fuel generalizing k with
  | zero => omega
  | succ fuel ih =>
    unfold freeSuffix
    dsimp only
    split
    · rename_i hmem
      have htaken' : ∀ j ≤ k + 1, candidate base j ∈ taken := by
        intro j hj
        rcases Nat.lt_or_eq_of_le hj with hj | rfl
        · exact htaken j (Nat.le_of_lt_succ hj)
        · exact List.contains_iff_mem.mp hmem
      exact ih htaken' (by omega) (lt_length_of_taken htaken')
    · rename_i hfree
      refine ⟨k + 1, hlt, rfl, ?_, fun j hj => htaken j (Nat.le_of_lt_succ hj)⟩
      rwa [← List.contains_iff_mem]

theorem firstFree_freeName (taken : List String) (base : String) :
    FirstFree taken base (freeName taken base) := by
  unfold freeName
  split
  · rename_i hmem
    refine firstFree_freeSuffix (k := 0) (fun j hj => ?_) (by omega)
    rw [Nat.le_zero.mp hj]
    exact List.contains_iff_mem.mp hmem
  · rename_i hfree
    refine ⟨0, Nat.zero_le _, rfl, ?_, nofun⟩
    rwa [← List.contains_iff_mem]

/-! ## Assigning names -/

theorem firstFree_perm {taken taken' : List String} (h : taken.Perm taken') {base name : String} :
    FirstFree taken base name ↔ FirstFree taken' base name := by
  simp only [FirstFree, h.length_eq, h.mem_iff]

theorem length_assignNames (taken bases : List String) :
    (assignNames taken bases).length = bases.length := by
  induction bases generalizing taken with
  | nil => rfl
  | cons base rest ih => rw [assignNames, List.length_cons, List.length_cons, ih]

/-- Each name is the first free one after those before it. -/
theorem firstFree_assignNames (taken : List String) {bases : List String} {i : Nat} {base : String}
    (h : bases[i]? = some base) : ∃ name, (assignNames taken bases)[i]? = some name ∧
      FirstFree (taken ++ (assignNames taken bases).take i) base name := by
  induction bases generalizing taken i with
  | nil => cases h
  | cons first rest ih =>
    cases i with
    | zero =>
      cases h
      refine ⟨freeName taken base, rfl, ?_⟩
      rw [List.take_zero, List.append_nil]
      exact firstFree_freeName taken base
    | succ i =>
      obtain ⟨name, hname, hfree⟩ := ih (freeName taken first :: taken) h
      exact ⟨name, hname, (firstFree_perm List.perm_middle.symm).mp hfree⟩

/-- Names are not taken, and none is assigned twice. -/
theorem nodup_assignNames (taken bases : List String) :
    (assignNames taken bases).Nodup ∧ ∀ name ∈ assignNames taken bases, name ∉ taken := by
  induction bases generalizing taken with
  | nil => exact ⟨List.nodup_nil, nofun⟩
  | cons base rest ih =>
    obtain ⟨-, -, -, hfree, -⟩ := firstFree_freeName taken base
    obtain ⟨hnodup, hrest⟩ := ih (freeName taken base :: taken)
    refine ⟨List.nodup_cons.mpr ⟨fun hmem => hrest _ hmem List.mem_cons_self, hnodup⟩, ?_⟩
    intro name hname
    rcases List.mem_cons.mp hname with rfl | hname
    · exact hfree
    · exact fun hmem => hrest name hname (List.mem_cons_of_mem _ hmem)

/-- More base names leave the names of the others alone. -/
theorem assignNames_isPrefix {bases bases' : List String} (h : bases <+: bases')
    (taken : List String) : assignNames taken bases <+: assignNames taken bases' := by
  induction bases generalizing taken bases' with
  | nil => exact List.nil_prefix
  | cons base rest ih =>
    obtain ⟨more, rfl⟩ := h
    exact List.cons_prefix_cons.mpr ⟨rfl, ih (List.prefix_append rest more) _⟩

/-! ## Codecs of a table -/

theorem length_codecNames (t : TypeTable) : (codecNames t).length = t.length := by
  rw [codecNames, length_assignNames, List.length_map]

/-- A codec is called by the first free name after those before it. -/
theorem firstFree_codecNames {t : TypeTable} {i : Nat} {d : Declaration} (h : t[i]? = some d) :
    ∃ name, (codecNames t)[i]? = some name ∧
      FirstFree (reserved ++ (codecNames t).take i) (baseName d.ns d.name) name := by
  refine firstFree_assignNames reserved ?_
  rw [List.getElem?_map, h]
  rfl

theorem isIdentifier_codecNames {t : TypeTable} {name : String} (h : name ∈ codecNames t) :
    IsIdentifier name := by
  obtain ⟨i, hi⟩ := List.getElem?_of_mem h
  have hlt : i < t.length := length_codecNames t ▸ (List.getElem?_eq_some_iff.mp hi).1
  obtain ⟨name', hname', k, -, hk, -⟩ := firstFree_codecNames (List.getElem?_eq_getElem hlt)
  obtain rfl : name = name' := Option.some.inj (hi.symm.trans hname')
  rw [hk]
  exact isIdentifier_candidate (isIdentifier_baseName _ _) k

theorem lookup_zip {keys values : List String} (h : keys.Nodup) {i : Nat} {key : String}
    (hkey : keys[i]? = some key) : (keys.zip values).lookup key = values[i]? := by
  induction keys generalizing values i with
  | nil => cases hkey
  | cons first rest ih =>
    obtain ⟨hfirst, hrest⟩ := List.nodup_cons.mp h
    cases values with
    | nil => rfl
    | cons value values =>
      cases i with
      | zero =>
        cases hkey
        simp
      | succ i =>
        have hne : key ≠ first := by
          rintro rfl
          exact hfirst (List.mem_of_getElem? hkey)
        rw [List.zip_cons_cons, List.lookup_cons, beq_false_of_ne hne]
        exact ih hrest hkey

/-- Under distinct names a codec is called by the identifier at the place of its declaration. -/
theorem codecName_eq {s : Schema} (h : (s.types.map (·.fqn)).Nodup) {i : Nat} {d : Declaration}
    (hfqn : (s.types.map (·.fqn))[i]? = some d.fqn) :
    (Scope.ofSchema s).codecName d = (codecNames s.types)[i]?.getD "" := by
  rw [Scope.codecName, Scope.ofSchema, lookup_zip h hfqn]

end Emit

namespace Schema

open Emit

/-- The codecs of the first schema have the same identifiers, in the same places, in the second. -/
structure KeepsNames (s s' : Schema) : Prop where
  places : codecNames s.types <+: codecNames s'.types
  codecs : ∀ d ∈ s.types, (Scope.ofSchema s').codecName d = (Scope.ofSchema s).codecName d

/-- The name by which a type is addressed decides the identifier before it is made free. -/
theorem baseNames_isPrefix {s s' : Schema} (hs' : s'.Built)
    (h : s.types.map (·.fqn) <+: s'.types.map (·.fqn)) :
    (s.types.map fun d => baseName d.ns d.name) <+:
      s'.types.map fun d => baseName d.ns d.name := by
  rw [List.prefix_iff_getElem?] at h ⊢
  intro i hi
  have hfqn := h i (by rwa [List.length_map] at hi ⊢)
  rw [List.getElem?_map, List.getElem_map] at hfqn ⊢
  obtain ⟨d', hd', heq⟩ := Option.map_eq_some_iff.mp hfqn
  have hnamed := hs'.named d' (List.mem_of_getElem? hd')
  obtain ⟨hns, hname⟩ := Name.qualified_inj (hnamed d'.ns (by simp)) (hnamed d'.name (by simp)) heq
  rw [hd', Option.map_some, hns, hname]

theorem keepsNames_of_isPrefix {s s' : Schema} (hs : s.Built) (hs' : s'.Built)
    (h : s.types.map (·.fqn) <+: s'.types.map (·.fqn)) : s.KeepsNames s' := by
  have hplaces : codecNames s.types <+: codecNames s'.types :=
    assignNames_isPrefix (baseNames_isPrefix hs' h) reserved
  refine ⟨hplaces, fun d hd => ?_⟩
  obtain ⟨i, hi⟩ := List.getElem?_of_mem (List.mem_map_of_mem (f := Declaration.fqn) hd)
  have hlt := (List.getElem?_eq_some_iff.mp hi).1
  have hi' : (s'.types.map Declaration.fqn)[i]? = some d.fqn := by
    obtain ⟨more, hmore⟩ := h
    rw [← hmore, List.getElem?_append_left hlt, hi]
  have hsame : (codecNames s'.types)[i]? = (codecNames s.types)[i]? := by
    obtain ⟨more, hmore⟩ := hplaces
    rw [← hmore, List.getElem?_append_left (by rwa [length_codecNames, ← List.length_map])]
  rw [codecName_eq hs.sound.wellFormed.unique hi, codecName_eq hs'.sound.wellFormed.unique hi',
    hsame]

/-- In a built schema every declaration has an identifier of its own for its codec: the first free
one of its base name and the base name with a number behind it, which is a capital letter with
letters and digits behind it and nothing that the module means already.  A later schema that starts
with the declarations of this one, as every revision does, calls their codecs by the same
identifiers. -/
theorem codecNames_stable {s : Schema} (hs : s.Built) :
    (codecNames s.types).length = s.types.length ∧ (codecNames s.types).Nodup ∧
      (∀ name ∈ codecNames s.types, name ∉ reserved ∧ IsIdentifier name) ∧
      (∀ i d, s.types[i]? = some d → ∃ name, (codecNames s.types)[i]? = some name ∧
        (Scope.ofSchema s).codecName d = name ∧
        FirstFree (reserved ++ (codecNames s.types).take i) (baseName d.ns d.name) name) ∧
      (∀ s' : Schema, s'.Built → s.types.map (·.fqn) <+: s'.types.map (·.fqn) → s.KeepsNames s') ∧
      ∀ s', Relation.ReflTransGen Revises s s' → s.KeepsNames s' := by
  obtain ⟨hnodup, hfree⟩ := nodup_assignNames reserved (s.types.map fun d => baseName d.ns d.name)
  refine ⟨length_codecNames s.types, hnodup,
    fun name hname => ⟨hfree name hname, isIdentifier_codecNames hname⟩, ?_,
    fun s' hs' h => keepsNames_of_isPrefix hs hs' h, ?_⟩
  · intro i d hd
    obtain ⟨name, hname, hfirst⟩ := firstFree_codecNames hd
    refine ⟨name, hname, ?_, hfirst⟩
    rw [codecName_eq hs.sound.wellFormed.unique (i := i) (by rw [List.getElem?_map, hd]; rfl),
      hname]
    rfl
  · intro s' h
    obtain ⟨hs', hext⟩ := extends_of_revisions hs h
    exact keepsNames_of_isPrefix hs hs' hext.names_isPrefix

/-! Types whose base names are alike, and one more of them. -/

/-- Two types with one base name, one whose base name the module means already, and one whose words
start with a digit. -/
def labels : Schema :=
  ⟨1, true, true,
    [⟨"c", "a-b", 1, .alias "uint"⟩, ⟨"b-c", "a", 1, .alias "uint"⟩,
      ⟨"codec", "enum", 1, .struct ⟨false, some 0, [⟨"x", "uint", false, false, 1⟩]⟩⟩,
      ⟨"lives", "9", 1, .alias "uint"⟩],
    [("9", none), ("a", none), ("a-b", none), ("enum", none)],
    [⟨.typeAdded, "@a-b/c", none, 1⟩, ⟨.typeAdded, "@a/b-c", none, 1⟩,
      ⟨.typeAdded, "@enum/codec", none, 1⟩, ⟨.typeAdded, "@9/lives", none, 1⟩]⟩

/-- The schema with a third type of the first base name. -/
def labels' : Schema :=
  ⟨2, true, true, labels.types ++ [⟨"_c", "a.b", 2, .array "@a/b-c"⟩], [("a.b", none)],
    [⟨.typeAdded, "@a.b/_c", none, 2⟩]⟩

theorem labels_built : labels.Built := by
  refine ⟨(Builder.fresh true).after
    [.declareNamespace "a-b", .registerIn "a-b" (.aliasOf "c" "uint"),
      .declareNamespace "a", .registerIn "a" (.aliasOf "b-c" "uint"),
      .declareNamespace "enum", .registerIn "enum" (.structOf "codec"
        [{ name := "x", typeName := "uint" }]),
      .declareNamespace "9", .registerIn "9" (.aliasOf "lives" "uint")],
    (Builder.Reachable.fresh true).after _, ?_⟩
  decide +kernel

theorem labels_revised : labels.Revises labels' := by
  refine ⟨by decide +kernel, { revision := ⟨1, true, false, false⟩, types := labels.types },
    [.declareNamespace "a.b", .registerIn "a.b" (.arrayOf "_c" "@a/b-c")], ?_, ?_⟩
  · decide +kernel
  · decide +kernel

theorem codecNames_stable_labels :
    codecNames labels.types = ["ABC", "ABC2", "EnumCodec2", "T9Lives"] ∧
      codecNames labels'.types = ["ABC", "ABC2", "EnumCodec2", "T9Lives", "ABC3"] ∧
      labels.KeepsNames labels' := by
  obtain ⟨-, -, -, -, -, hkeeps⟩ := codecNames_stable labels_built
  exact ⟨by decide +kernel, by decide +kernel, hkeeps labels' (.single labels_revised)⟩

end Schema

end WireSchema

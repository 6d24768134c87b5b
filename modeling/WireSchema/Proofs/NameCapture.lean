import WireSchema.Proofs.ModuleWords

/-!
# Captured names

An emitted module declares its codecs, so that a codec captures every word of the text that is its
identifier and means something else.  No codec has a reserved identifier.  The standard names are
not reserved, and a declaration captures one exactly if its namespace and its name together spell
nothing but it and no declaration before it has taken the identifier (`captures_iff`).
-/

namespace WireSchema

namespace Emit

/-! ## Proper words -/

/-- Whether a text is a capital other than that of identifiers without a letter, with small letters
behind it. -/
def isProper (w : String) : Bool :=
  match w.toList with
  | c :: rest => c.isUpper && c != 'T' && rest.all Char.isLower
  | [] => false

variable {w : String}

theorem isProper_iff : isProper w = true ↔ ∃ c rest, w.toList = c :: rest ∧ c.isUpper = true ∧
    c ≠ 'T' ∧ ∀ x ∈ rest, x.isLower = true := by
  unfold isProper
  cases w.toList with
  | nil => simp
  | cons c rest => simp [and_assoc]

theorem isAlpha_of_isLower {c : Char} (h : c.isLower = true) : c.isAlpha = true :=
  (Bool.or_eq_true _ _).mpr (.inr h)

theorem isAlpha_of_isProper (hw : isProper w = true) {c : Char} (hc : c ∈ w.toList) :
    c.isAlpha = true := by
  obtain ⟨first, rest, hchars, hfirst, -, hrest⟩ := isProper_iff.mp hw
  rw [hchars] at hc
  rcases List.mem_cons.mp hc with rfl | hc
  · exact isAlpha_of_isUpper hfirst
  · exact isAlpha_of_isLower (hrest c hc)

theorem not_isUpper_of_isLower {c : Char} (h : c.isLower = true) : c.isUpper = false := by
  rw [Bool.eq_false_iff]
  intro hupper
  delta Char.isLower at h
  delta Char.isUpper at hupper
  simp only [Bool.and_eq_true, decide_eq_true_eq] at h hupper
  exact absurd (UInt32.le_iff_toNat_le.mp (UInt32.le_trans h.1 hupper.2)) (by decide)

/-- One of the two parts of a name is the word with capital initials, and the other has no letters
and no digits. -/
def Spells (ns name w : String) : Prop :=
  pascalCase ns = w ∧ pascalCase name = "" ∨ pascalCase ns = "" ∧ pascalCase name = w

instance (ns name w : String) : Decidable (Spells ns name w) :=
  inferInstanceAs (Decidable (_ ∧ _ ∨ _ ∧ _))

/-- Behind the first character of a proper word there is no capital for the name to start with. -/
theorem append_pascalCase_eq_iff (hw : isProper w = true) {ns name : String} :
    pascalCase ns ++ pascalCase name = w ↔ Spells ns name w := by
  constructor
  · rintro rfl
    obtain ⟨c, rest, hchars, -, -, hrest⟩ := isProper_iff.mp hw
    rw [String.toList_append, toList_pascalCase, toList_pascalCase] at hchars
    cases hns : pascalChars true ns.toList with
    | nil =>
      have hempty : pascalCase ns = "" := congrArg String.ofList hns
      exact .inr ⟨hempty, by rw [hempty, String.empty_append]⟩
    | cons x before =>
      cases hname : pascalChars true name.toList with
      | nil =>
        have hempty : pascalCase name = "" := congrArg String.ofList hname
        exact .inl ⟨by rw [hempty, String.append_empty], hempty⟩
      | cons y after =>
        rw [hns, hname, List.cons_append] at hchars
        cases hchars
        have hlower := hrest y (by simp)
        have hupper := isUpper_head_pascalChars (congrArg List.head? hname)
          (isAlpha_of_isLower hlower)
        rw [not_isUpper_of_isLower hlower] at hupper
        cases hupper
  · rintro (⟨rfl, hempty⟩ | ⟨hempty, rfl⟩)
    · rw [hempty, String.append_empty]
    · rw [hempty, String.empty_append]

theorem baseName_eq_iff (hw : isProper w = true) {ns name : String} :
    baseName ns name = w ↔ Spells ns name w := by
  rw [← append_pascalCase_eq_iff hw]
  obtain ⟨first, rest, hchars, hfirst, hT, -⟩ := isProper_iff.mp hw
  have hne (text : String) : "T" ++ text ≠ w := by
    rintro rfl
    rw [String.toList_append] at hchars
    cases hchars
    exact hT rfl
  unfold baseName
  dsimp only
  split
  · next c more hbase =>
    split
    · rfl
    · next hc =>
      refine iff_of_false (hne _) ?_
      rintro rfl
      rw [hbase] at hchars
      cases hchars
      exact hc (isAlpha_of_isUpper hfirst)
  · next hbase =>
    refine iff_of_false ?_ ?_
    · exact fun heq => hne "" (by rwa [String.append_empty])
    · rintro rfl
      rw [hbase] at hchars
      cases hchars

/-! ## Who gets a proper word -/

/-- A candidate with a number behind it is no proper word. -/
theorem candidate_eq_iff (hw : isProper w = true) {base : String} {k : Nat} :
    candidate base k = w ↔ k = 0 ∧ base = w := by
  cases k with
  | zero => simp [candidate]
  | succ k =>
    refine iff_of_false ?_ (by simp)
    rintro rfl
    obtain ⟨c, rest, hdigits⟩ :=
      List.exists_cons_of_ne_nil (Nat.toDigits_ne_nil (b := 10) (n := k + 2))
    have hmem : c ∈ Nat.toDigits 10 (k + 2) := by simp [hdigits]
    have halpha := isAlpha_of_isProper hw (c := c) (by simp [toList_candidate, hmem])
    rw [not_isAlpha_of_isDigit (Nat.isDigit_of_mem_toDigits (by decide) (by decide) hmem)] at halpha
    cases halpha

section Places

variable {t : TypeTable} {i : Nat}

theorem mem_take_iff {α : Type} {l : List α} {x : α} :
    x ∈ l.take i ↔ ∃ j < i, l[j]? = some x := by
  simp only [List.mem_iff_getElem?, List.getElem?_take, Option.ite_none_right_eq_some]

/-- A proper word is the identifier of a codec as soon as it is a base name. -/
theorem mem_take_codecNames_iff (hw : isProper w = true) (hfree : w ∉ reserved) :
    w ∈ (codecNames t).take i ↔ ∃ e ∈ t.take i, baseName e.ns e.name = w := by
  constructor
  · intro hmem
    obtain ⟨j, hj, hplace⟩ := mem_take_iff.mp hmem
    have hlt : j < t.length := length_codecNames t ▸ (List.getElem?_eq_some_iff.mp hplace).1
    obtain ⟨name, hname, k, -, hk, -⟩ := firstFree_codecNames (List.getElem?_eq_getElem hlt)
    obtain rfl : w = name := Option.some.inj (hplace.symm.trans hname)
    exact ⟨t[j], mem_take_iff.mpr ⟨j, hj, List.getElem?_eq_getElem hlt⟩,
      ((candidate_eq_iff hw).mp hk.symm).2⟩
  · rintro ⟨e, he, hbase⟩
    obtain ⟨j, hj, hplace⟩ := mem_take_iff.mp he
    obtain ⟨name, hname, k, -, hk, -, htaken⟩ := firstFree_codecNames hplace
    cases k with
    | zero =>
      obtain rfl : name = w := hk.trans hbase
      exact mem_take_iff.mpr ⟨j, hj, hname⟩
    | succ k =>
      -- an earlier declaration took the word
      have hmem : w ∈ reserved ++ (codecNames t).take j := hbase ▸ htaken 0 (Nat.succ_pos k)
      have htake := (List.mem_append.mp hmem).resolve_left hfree
      obtain ⟨j', hj', hplace'⟩ := mem_take_iff.mp htake
      exact mem_take_iff.mpr ⟨j', hj'.trans hj, hplace'⟩

/-- A proper word goes to the first declaration whose base name it is. -/
theorem getElem?_codecNames_eq_iff (hw : isProper w = true) (hfree : w ∉ reserved)
    {d : Declaration} (hd : t[i]? = some d) :
    (codecNames t)[i]? = some w ↔
      baseName d.ns d.name = w ∧ ∀ e ∈ t.take i, baseName e.ns e.name ≠ w := by
  have hearlier : (∀ e ∈ t.take i, baseName e.ns e.name ≠ w) ↔ w ∉ (codecNames t).take i := by
    rw [mem_take_codecNames_iff hw hfree]
    push Not
    rfl
  obtain ⟨name, hname, k, -, hk, hnew, htaken⟩ := firstFree_codecNames hd
  rw [hearlier, hname, Option.some.injEq]
  constructor
  · rintro rfl
    exact ⟨((candidate_eq_iff hw).mp hk.symm).2, fun hmem => hnew (List.mem_append_right _ hmem)⟩
  · rintro ⟨hbase, hnot⟩
    cases k with
    | zero => exact hk.trans hbase
    | succ k =>
      have hmem : w ∈ reserved ++ (codecNames t).take i := hbase ▸ htaken 0 (Nat.succ_pos k)
      exact absurd ((List.mem_append.mp hmem).resolve_left hfree) hnot

end Places

/-! ## Other meanings -/

/-- What the text of a module refers to besides its codecs: the words of the text in which no codec
has a name. -/
def otherReferences (s : Schema) (o : Options) : List String :=
  references ((⟨s, []⟩ : Scope).text o)

theorem isProper_of_standardNames {s : Schema} (h : w ∈ standardNames s) :
    isProper w = true ∧ w ∉ reserved := by
  have hall : ∀ w ∈ ["Option", "None", "Result", "Vec", "Some", "Ok", "Err"],
      isProper w = true ∧ w ∉ reserved := by decide
  refine hall w ?_
  rcases List.mem_append.mp h with h | h
  · grind
  · obtain ⟨d, -, hword⟩ := List.mem_flatMap.mp h
    unfold codecWords at hword
    grind

theorem newline_not_mem_fqn {s : Schema} (hs : s.Built) {d : Declaration} (hd : d ∈ s.types) :
    '\n' ∉ d.fqn.toList := by
  have hvalid {name : String} (h : Name.isValid name = true) : '\n' ∉ name.toList := by
    unfold Name.isValid at h
    split at h
    · cases h
    · next c rest hchars =>
      rw [Bool.and_eq_true, List.all_eq_true] at h
      rw [hchars, List.mem_cons, not_or]
      refine ⟨?_, fun hmem => absurd (h.2 _ hmem) (by decide)⟩
      rintro rfl
      exact absurd h.1 (by decide)
  have hns := hvalid (hs.named d hd d.ns (by simp))
  have hname := hvalid (hs.named d hd d.name (by simp))
  simp [Declaration.fqn, Name.qualified, hns, hname]

theorem within_ofSchema (s : Schema) : (Scope.ofSchema s).Within (codecNames s.types) := by
  intro entry hentry
  have hmem := (List.of_mem_zip hentry).2
  exact ⟨isIdentifier_codecNames hmem, hmem⟩

/-- The identifiers of codecs have a capital initial and are not reserved. -/
theorem isOpen_of_codecNames {t : TypeTable} (h : w ∈ codecNames t) : isOpen w = true := by
  obtain ⟨c, rest, hchars, hc, -⟩ := isIdentifier_codecNames h
  have hfree : w ∉ reserved := (nodup_assignNames _ _).2 w h
  simp [isOpen, hchars, hc, hfree]

section Built

variable {s : Schema} (hs : s.Built) {o : Options}

include hs

theorem getElem?_codecNames {i : Nat} {d : Declaration} (hd : s.types[i]? = some d) :
    (codecNames s.types)[i]? = some ((Scope.ofSchema s).codecName d) := by
  obtain ⟨name, hname, -⟩ := firstFree_codecNames hd
  have hfqn : (s.types.map (·.fqn))[i]? = some d.fqn := by
    rw [List.getElem?_map, hd, Option.map_some]
  rw [codecName_eq hs.sound.wellFormed.unique hfqn, hname, Option.getD_some]

theorem mem_otherReferences_iff (hgiven : GivesPaths s o) (hw : isOpen w = true) :
    w ∈ otherReferences s o ↔ w ∈ standardNames s ∨ w ∈ (givenPaths s o).map pathHead := by
  have hnameless : (⟨s, []⟩ : Scope).Within [] := nofun
  have htext := Scope.reads_text ⟨s, []⟩ hnameless hgiven fun d hd => newline_not_mem_fqn hs hd
  rw [← List.mem_append]
  exact htext.words w hw List.not_mem_nil

/-- A standard name is the identifier of the first codec whose declaration spells it. -/
theorem codecName_eq_iff {i : Nat} {d : Declaration} (hd : s.types[i]? = some d)
    (hw : w ∈ standardNames s) :
    (Scope.ofSchema s).codecName d = w ↔
      Spells d.ns d.name w ∧ ∀ e ∈ s.types.take i, ¬ Spells e.ns e.name w := by
  obtain ⟨hproper, hfree⟩ := isProper_of_standardNames hw
  have hplace := getElem?_codecNames_eq_iff hproper hfree hd
  rw [getElem?_codecNames hs hd, Option.some.injEq] at hplace
  simpa only [ne_eq, baseName_eq_iff hproper] using hplace

/-- In a built schema, with paths for what it is given to name, no codec has a reserved identifier.
Besides codecs and reserved names, and words with a small initial, the text of the module refers to
what it refers to with no names for the codecs.  The identifier of a codec is among these other
references exactly if it is the first word of a given path, or the namespace and the name of the
declaration spell a standard name that the module refers to, one of them alone, and those of no
declaration before it do. -/
theorem captures_iff (hgiven : GivesPaths s o) {i : Nat} {d : Declaration}
    (hd : s.types[i]? = some d) :
    (Scope.ofSchema s).codecName d ∉ reserved ∧
    (∀ w, isOpen w = true → w ∉ codecNames s.types →
      (w ∈ references (moduleText s o) ↔ w ∈ otherReferences s o)) ∧
    ((Scope.ofSchema s).codecName d ∈ otherReferences s o ↔
      (Scope.ofSchema s).codecName d ∈ (givenPaths s o).map pathHead ∨
      ∃ w ∈ standardNames s, Spells d.ns d.name w ∧
        ∀ e ∈ s.types.take i, ¬ Spells e.ns e.name w) := by
  have hmem := List.mem_of_getElem? (getElem?_codecNames hs hd)
  refine ⟨(nodup_assignNames _ _).2 _ hmem, fun w hw hnot => ?_, ?_⟩
  · have htext := Scope.reads_text (Scope.ofSchema s) (within_ofSchema s) hgiven fun d hd =>
      newline_not_mem_fqn hs hd
    rw [mem_otherReferences_iff hs hgiven hw, moduleText_eq, ← List.mem_append]
    exact htext.words w hw hnot
  · rw [mem_otherReferences_iff hs hgiven (isOpen_of_codecNames hmem), or_comm]
    refine or_congr Iff.rfl ⟨fun hname => ?_, ?_⟩
    · exact ⟨_, hname, (codecName_eq_iff hs hd hname).mp rfl⟩
    · rintro ⟨w, hw, hspells⟩
      exact (codecName_eq_iff hs hd hw).mpr hspells ▸ hw

end Built

/-! Two types that spell a standard name. -/

/-- The namespace of the first type and the name of the second are the word, and the other parts
have no letters. -/
def optionTypes : Schema :=
  ⟨1, true, true, [⟨"_", "option", 1, .alias "uint"⟩, ⟨"option", "_", 1, .alias "string"⟩],
    [("_", none), ("option", none)],
    [⟨.typeAdded, "@option/_", none, 1⟩, ⟨.typeAdded, "@_/option", none, 1⟩]⟩

theorem optionTypes_built : optionTypes.Built := by
  refine ⟨(Builder.fresh true).after
    [.declareNamespace "option", .registerIn "option" (.aliasOf "_" "uint"),
      .declareNamespace "_", .registerIn "_" (.aliasOf "option" "string")],
    (Builder.Reachable.fresh true).after _, ?_⟩
  decide +kernel

theorem optionTypes_givesPaths : GivesPaths optionTypes {} where
  runtime := by
    have hpath : IsPath ("hyperschema" ++ "::" ++ "runtime") :=
      (IsPath.word (by decide)).member (by decide)
    exact hpath
  modules := by simp [optionTypes, usesModule]
  symbols := by simp [optionTypes]
  maps := by simp [optionTypes]

theorem captures_iff_optionTypes :
    codecNames optionTypes.types = ["Option", "Option2"] ∧
      "Option" ∈ otherReferences optionTypes {} ∧ "Option2" ∉ otherReferences optionTypes {} := by
  obtain ⟨-, -, hfirst⟩ := captures_iff optionTypes_built optionTypes_givesPaths (i := 0) rfl
  obtain ⟨-, -, hsecond⟩ := captures_iff optionTypes_built optionTypes_givesPaths (i := 1) rfl
  refine ⟨by decide +kernel, hfirst.mpr ?_, fun hmem => absurd (hsecond.mp hmem) ?_⟩
  · decide +kernel
  · decide +kernel

end Emit

end WireSchema

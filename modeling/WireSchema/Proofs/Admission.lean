import WireSchema.Admission
import WireSchema.Proofs.Attempt
import WireSchema.Proofs.Extension

/-!
# What is admitted

Every declaration that is admitted is well formed (`accept_wellFormed`), and one that is admitted on
top of an earlier declaration extends it (`accept_extends`).  Each kind of declaration has its own
rules, so each is taken apart on its own first, and all of them together say what is admitted
(`accept_cases`).
-/

namespace WireSchema

/-- An admitted body with its version, and the session after it. -/
structure Admitted where
  body : Body
  version : UInt32
  session : Session
  deriving DecidableEq

namespace Admitted

/-- A body that is declared for the first time, with its stamp. -/
def fresh (s : Session) (fqn : String) (persisted : Option UInt32) (body : Body) : Admitted :=
  let (version, s) := s.stamp persisted .typeAdded fqn none
  ⟨body, version, s⟩

/-- A struct that is declared for the first time, with its stamp. -/
def freshStruct (s : Session) (fqn : String) (persisted : Option UInt32) (compact : Bool)
    (position : Option Nat) (fields : List FieldDescription) : Admitted :=
  let (version, s) := s.stamp persisted .typeAdded fqn none
  let stamped := fields.map fun f =>
    Admission.stampedField f (if s.revision.replaying then f.version.getD version else version)
  ⟨.struct ⟨compact, position, stamped⟩, version, s⟩

/-- A struct with the fields behind the known ones added. -/
def grownStruct (s : Session) (fqn : String) (version : UInt32) (known : StructBody)
    (position : Option Nat) (fields : List FieldDescription) : Admitted :=
  let added := fields.drop known.fields.length
  let (stamps, s) := s.stampMembers .fieldAdded fqn (added.map (·.name))
  let stamped := known.fields ++ (added.zip stamps).map fun (f, v) => Admission.stampedField f v
  ⟨.struct ⟨known.compact, position, stamped⟩, newest version stamps, s⟩

/-- An enum with the keys behind the known ones added. -/
def grownEnum (s : Session) (fqn : String) (version : UInt32) (known : EnumBody)
    (keys : List String) : Admitted :=
  let added := keys.drop known.values.length
  let (stamps, s) := s.stampMembers .enumValueAdded fqn added
  ⟨.enum { known with values := known.values ++ (added.zip stamps).map fun (k, v) => ⟨k, v⟩ },
    newest version stamps, s⟩

/-- A versioned type with the entries behind the known ones added. -/
def grownVersioned (s : Session) (fqn : String) (version : UInt32)
    (known entries : List VersionEntry) : Admitted :=
  let added := (entries.drop known.length).map fun e => toString e.version.toNat
  let (stamps, s) := s.stampMembers .versionAdded fqn added
  ⟨.versioned entries, newest version stamps, s⟩

end Admitted

namespace Admission

open Attempt

/-- Behind a stamp the other steps run from the session with it. -/
theorem result_stamp_bind {α : Type} (persisted : Option UInt32) (kind : ChangeKind) (fqn : String)
    (member : Option String) (f : UInt32 → SessionM α) (s : Session) :
    (SessionM.stamp persisted kind fqn member >>= f).result s =
      (f (s.stamp persisted kind fqn member).1).result (s.stamp persisted kind fqn member).2 :=
  result_bind _ _ _

theorem result_stampMembers_bind {α : Type} (kind : ChangeKind) (fqn : String)
    (members : List String) (f : List UInt32 → SessionM α) (s : Session) :
    (SessionM.stampMembers kind fqn members >>= f).result s =
      (f (s.stampMembers kind fqn members).1).result (s.stampMembers kind fqn members).2 :=
  result_bind _ _ _

theorem shape_stampedField (f : FieldDescription) (version : UInt32) :
    (stampedField f version).shape = f.shape := rfl

/-! ## Known members -/

theorem prefix_of_firstChanged {known entries : List VersionEntry}
    (hlen : known.length ≤ entries.length) (h : firstChanged known entries = none) :
    known <+: entries := by
  induction known generalizing entries with
  | nil => exact List.nil_prefix
  | cons was known ih =>
    cases entries with
    | nil => exact absurd hlen (by simp)
    | cons now entries =>
      rw [firstChanged] at h
      split at h
      · rename_i heq
        subst heq
        exact List.cons_prefix_cons.mpr ⟨rfl, ih (by simpa using hlen) h⟩
      · cases h

theorem prefix_of_firstRenamed {i : Nat} {known keys : List String}
    (hlen : known.length ≤ keys.length) (h : firstRenamed i known keys = none) :
    known <+: keys := by
  induction known generalizing i keys with
  | nil => exact List.nil_prefix
  | cons was known ih =>
    cases keys with
    | nil => exact absurd hlen (by simp)
    | cons now keys =>
      rw [firstRenamed] at h
      split at h
      · rename_i heq
        subst heq
        exact List.cons_prefix_cons.mpr ⟨rfl, ih (by simpa using hlen) h⟩
      · cases h

theorem ascending_of_increasing {entries : List VersionEntry} (h : increasing entries = true) :
    Codec.Ascending entries := by
  induction entries with
  | nil => exact .nil
  | cons a rest ih =>
    cases rest with
    | nil => exact List.pairwise_singleton _ _
    | cons b rest =>
      rw [increasing, Bool.and_eq_true, decide_eq_true_eq] at h
      have htail := ih h.2
      refine List.pairwise_cons.mpr ⟨fun e he => ?_, htail⟩
      rcases List.mem_cons.mp he with rfl | he
      · exact h.1
      · exact UInt64.lt_trans h.1 ((List.pairwise_cons.mp htail).1 e he)

theorem increasing_of_ascending {entries : List VersionEntry} (h : Codec.Ascending entries) :
    increasing entries = true := by
  induction entries with
  | nil => rfl
  | cons a rest ih =>
    cases rest with
    | nil => rfl
    | cons b rest =>
      obtain ⟨hhead, htail⟩ := List.pairwise_cons.mp h
      rw [increasing, ih htail, Bool.and_true]
      exact decide_eq_true (hhead b List.mem_cons_self)

/-- The known fields that are declared again as they were are the first of the new ones. -/
theorem shapes_of_checkKnownFields {fqn : String} {known : List Field}
    {fields : List FieldDescription} (hlen : known.length ≤ fields.length)
    (h : checkKnownFields fqn known fields = .ok ()) :
    known.map Field.shape = (fields.take known.length).map FieldDescription.shape := by
  induction known generalizing fields with
  | nil => rfl
  | cons was known ih =>
    cases fields with
    | nil => exact absurd hlen (by simp)
    | cons now fields =>
      rw [checkKnownFields] at h
      split at h
      · cases h
      · rename_i hsame
        split at h
        · cases h
        · rename_i hreq
          have hhead : was.shape = now.shape := by
            simp only [ne_eq, not_or, Decidable.not_not] at hsame hreq
            rw [Field.shape, FieldDescription.shape, hsame.1, hsame.2.1, hsame.2.2, hreq]
          rw [List.length_cons, List.take_succ_cons, List.map_cons, List.map_cons, hhead,
            ih (by simpa using hlen) h]

theorem length_stampMembers (kind : ChangeKind) (fqn : String) (s : Session)
    (members : List String) : (s.stampMembers kind fqn members).1.length = members.length := by
  induction members generalizing s with
  | nil => rfl
  | cons m rest ih =>
    rw [Session.stampMembers]
    exact congrArg (· + 1) (ih _)

/-- Members that are stamped by name have a version each. -/
theorem length_stampMembers_map {α : Type} (kind : ChangeKind) (fqn : String) (s : Session)
    (name : α → String) (members : List α) :
    (s.stampMembers kind fqn (members.map name)).1.length = members.length :=
  (length_stampMembers kind fqn s _).trans (List.length_map _)

/-- Stamping gives every member a version and changes nothing else about it. -/
theorem map_zip_stamps {α β γ : Type} {members : List α} {stamps : List β} (g : α → β → γ)
    (g' : α → γ) (hlen : stamps.length = members.length) (h : ∀ a b, g a b = g' a) :
    (members.zip stamps).map (fun p => g p.1 p.2) = members.map g' := by
  have hmap : (members.zip stamps).map (fun p => g p.1 p.2) =
      ((members.zip stamps).map Prod.fst).map g' := by
    rw [List.map_map]
    exact List.map_congr_left fun p _ => h p.1 p.2
  rw [hmap, List.map_fst_zip (Nat.le_of_eq hlen.symm)]

/-! ## Aliases, arrays and external types -/

/-- What is admitted of a type that is told by one text: it is new, or it is as it was. -/
inductive TextAdmitted (s : Session) (fqn : String) (d : Description) (body : Body) :
    Option (UInt32 × Body) → Admitted → Prop
  | new : TextAdmitted s fqn d body none (.fresh s fqn d.version body)
  | kept (version : UInt32) : TextAdmitted s fqn d body (some (version, body)) ⟨body, version, s⟩

section Texts

variable {s s' : Session} {fqn : String} {previous : Option (UInt32 × String)} {d : Description}
  {version : UInt32} {a : Admitted}

theorem result_fresh (s : Session) (fqn : String) (persisted : Option UInt32) (body : Body) :
    (fresh fqn persisted body).result s =
      .ok (((Admitted.fresh s fqn persisted body).version, body),
        (Admitted.fresh s fqn persisted body).session) :=
  result_stamp_bind _ _ _ _ _ _

theorem admitText_cases {tell : String → Body} {refusal : String → SchemaError} {text : String}
    {body : Body}
    (h : (admitText fqn previous d tell refusal text).result s = .ok ((version, body), s')) :
    TextAdmitted s fqn d (tell text) (previous.map (Prod.map id tell)) ⟨body, version, s'⟩ := by
  unfold admitText at h
  split at h
  · rw [result_fresh] at h
    cases h
    exact .new
  · split at h
    · rename_i heq
      cases h
      exact heq ▸ .kept _
    · cases h

theorem admitArray_cases {body : Body}
    (h : (admitArray fqn previous d).result s = .ok ((version, body), s')) :
    ∃ element, d.element = some element ∧
      TextAdmitted s fqn d (.array element) (previous.map (Prod.map id .array))
        ⟨body, version, s'⟩ := by
  unfold admitArray at h
  split at h
  · cases h
  · rename_i element helement
    exact ⟨element, helement, admitText_cases h⟩

/-- The body is the one that is told, and so was the earlier one. -/
theorem TextAdmitted.body {body : Body} {previous : Option (UInt32 × Body)}
    (h : TextAdmitted s fqn d body previous a) :
    a.body = body ∧ ∀ version was, previous = some (version, was) → was = body := by
  cases h with
  | new => exact ⟨rfl, nofun⟩
  | kept version =>
    refine ⟨rfl, fun _ _ hprevious => ?_⟩
    cases hprevious
    rfl

end Texts

/-! ## Enums -/

/-- How an enum was admitted, for the first time or on top of an earlier one. -/
inductive EnumAdmitted (s : Session) (fqn : String) (d : Description) (entries : List EnumEntry) :
    Option (UInt32 × EnumBody) → Admitted → Prop
  | fresh {version : UInt32} {s' : Session}
      (h : s.stamp d.version .typeAdded fqn none = (version, s')) :
      EnumAdmitted s fqn d entries none
        ⟨.enum ⟨freshValues s' version entries, d.offset.getD 1, d.strings⟩, version, s'⟩
  | grown {version : UInt32} {known : EnumBody} (hoffset : known.offset = d.offset.getD 1)
      (hstrings : known.strings = d.strings)
      (hkeys : known.keys <+: entries.map EnumEntry.keyText) :
      EnumAdmitted s fqn d entries (some (version, known))
        (.grownEnum s fqn version known (entries.map EnumEntry.keyText))

theorem admitEnum_cases {s s' : Session} {fqn : String} {previous : Option (UInt32 × EnumBody)}
    {d : Description} {version : UInt32} {body : Body}
    (h : (admitEnum fqn previous d).result s = .ok ((version, body), s')) :
    ∃ entries, d.enumEntries? = some entries ∧
      EnumAdmitted s fqn d entries previous ⟨body, version, s'⟩ := by
  unfold admitEnum at h
  split at h
  · cases h
  · rename_i entries hentries
    refine ⟨entries, hentries, ?_⟩
    dsimp only at h
    split at h
    · rw [result_stamp_bind] at h
      cases h
      exact .fresh rfl
    · rename_i known
      split at h
      · cases h
      · rename_i hlen
        split at h
        · cases h
        · rename_i hsame
          simp only [ne_eq, not_or, Decidable.not_not] at hsame
          split at h
          · cases h
          · rename_i hrenamed
            rw [result_stampMembers_bind] at h
            cases h
            have hkeys : known.keys <+: entries.map EnumEntry.keyText := by
              refine prefix_of_firstRenamed ?_ hrenamed
              rw [EnumBody.keys, List.length_map]
              exact Nat.not_lt.mp hlen
            rw [← hsame.1, ← hsame.2]
            exact .grown hsame.1 hsame.2 hkeys

/-- An enum that was admitted on top of an earlier one has its numbering and its keys first. -/
theorem EnumAdmitted.body {s : Session} {fqn : String} {d : Description}
    {entries : List EnumEntry} {previous : Option (UInt32 × EnumBody)} {a : Admitted}
    (h : EnumAdmitted s fqn d entries previous a) :
    ∃ e, a.body = .enum e ∧ ∀ version known, previous = some (version, known) →
      e.offset = known.offset ∧ e.strings = known.strings ∧ known.keys <+: e.keys := by
  cases h with
  | fresh => exact ⟨_, rfl, nofun⟩
  | @grown version known hoffset hstrings hkeys =>
    refine ⟨_, rfl, fun _ _ h => ?_⟩
    cases h
    refine ⟨rfl, rfl, ?_⟩
    rw [EnumBody.keys, EnumBody.keys, List.map_append]
    exact List.prefix_append _ _

/-! ## Versioned types -/

/-- How a versioned type was admitted, for the first time or on top of an earlier one. -/
inductive VersionedAdmitted (s : Session) (fqn : String) (d : Description)
    (entries : List VersionEntry) : Option (UInt32 × List VersionEntry) → Admitted → Prop
  | fresh : VersionedAdmitted s fqn d entries none (.fresh s fqn d.version (.versioned entries))
  | grown {version : UInt32} {known : List VersionEntry} (hknown : known <+: entries) :
      VersionedAdmitted s fqn d entries (some (version, known))
        (.grownVersioned s fqn version known entries)

theorem admitVersioned_cases {s s' : Session} {fqn : String}
    {previous : Option (UInt32 × List VersionEntry)} {d : Description} {version : UInt32}
    {body : Body} (h : (admitVersioned fqn previous d).result s = .ok ((version, body), s')) :
    ∃ entries, d.versions.getD [] = entries ∧ entries ≠ [] ∧ increasing entries = true ∧
      VersionedAdmitted s fqn d entries previous ⟨body, version, s'⟩ := by
  unfold admitVersioned at h
  dsimp only at h
  split at h
  · cases h
  · rename_i hne
    split at h
    · cases h
    · rename_i hinc
      refine ⟨_, rfl, by simpa using hne, by simpa using hinc, ?_⟩
      split at h
      · rw [result_fresh] at h
        cases h
        exact .fresh
      · split at h
        · cases h
        · rename_i hlen
          split at h
          · cases h
          · rename_i hsame
            rw [result_stampMembers_bind] at h
            cases h
            exact .grown (prefix_of_firstChanged (Nat.not_lt.mp hlen) hsame)

/-- A versioned type that was admitted on top of an earlier one has its entries first. -/
theorem VersionedAdmitted.body {s : Session} {fqn : String} {d : Description}
    {entries : List VersionEntry} {previous : Option (UInt32 × List VersionEntry)} {a : Admitted}
    (h : VersionedAdmitted s fqn d entries previous a) :
    a.body = .versioned entries ∧
      ∀ version known, previous = some (version, known) → known <+: entries := by
  cases h with
  | fresh => exact ⟨rfl, nofun⟩
  | grown hknown =>
    refine ⟨rfl, fun _ _ h => ?_⟩
    cases h
    exact hknown

/-! ## Structs -/

/-- The index of the first optional field. -/
def firstOptional (fields : List FieldDescription) : Option Nat :=
  fields.findIdx? fun f => !f.required

/-- How a struct was admitted, for the first time or on top of an earlier one. -/
inductive StructAdmitted (s : Session) (fqn : String) (d : Description)
    (fields : List FieldDescription) (explicit : Option Nat) :
    Option (UInt32 × StructBody) → Admitted → Prop
  | fresh (hposition : checkPosition fqn (explicit.or (firstOptional fields))
        (firstOptional fields) = .ok ()) :
      StructAdmitted s fqn d fields explicit none
        (.freshStruct s fqn d.version (d.compact.getD false) (explicit.or (firstOptional fields))
          fields)
  | grown {version : UInt32} {known : StructBody} {position : Option Nat}
      (hlen : known.fields.length ≤ fields.length) (hcompact : known.compact = d.compact.getD false)
      (hfrozen : known.compact = true → fields.length = known.fields.length)
      (hknown : checkKnownFields fqn known.fields fields = .ok ())
      (hkept : keptPosition fqn known explicit (firstOptional fields) = .ok position)
      (hposition : checkPosition fqn position (firstOptional fields) = .ok ()) :
      StructAdmitted s fqn d fields explicit (some (version, known))
        (.grownStruct s fqn version known position fields)

theorem checkGrowth_inv {fqn : String} {known : StructBody} {compact : Bool}
    {explicit first position : Option Nat} {fields : List FieldDescription}
    (h : checkGrowth fqn known compact explicit first fields = .ok position) :
    known.fields.length ≤ fields.length ∧ known.compact = compact ∧
      (known.compact = true → fields.length = known.fields.length) ∧
      checkKnownFields fqn known.fields fields = .ok () ∧
      keptPosition fqn known explicit first = .ok position := by
  unfold checkGrowth at h
  dsimp only at h
  split at h
  · cases h
  · rename_i hlen
    split at h
    · cases h
    · rename_i hcompact
      simp only [ne_eq, not_or, not_and, Decidable.not_not] at hcompact
      obtain ⟨⟨⟩, hknown, hkept⟩ := ok_of_bind h
      exact ⟨Nat.not_lt.mp hlen, hcompact.1, fun hc => hcompact.2 (hcompact.1 ▸ hc), hknown, hkept⟩

theorem admitStruct_cases {s s' : Session} {fqn : String}
    {previous : Option (UInt32 × StructBody)} {d : Description} {version : UInt32} {body : Body}
    (h : (admitStruct fqn previous d).result s = .ok ((version, body), s')) :
    ∃ given explicit, d.fields = some given ∧
      ((given.map relaxBool).countP fun f => !f.required) ≤ maxOptionals ∧
      explicitPosition fqn (given.map relaxBool).length d.flagsPosition = .ok explicit ∧
      StructAdmitted s fqn d (given.map relaxBool) explicit previous ⟨body, version, s'⟩ := by
  unfold admitStruct at h
  split at h
  · cases h
  · rename_i given hgiven
    dsimp only at h
    split at h
    · cases h
    · rename_i hfew
      obtain ⟨explicit, hexplicit, h⟩ := result_check_bind_inv h
      refine ⟨given, explicit, hgiven, Nat.not_lt.mp hfew, hexplicit, ?_⟩
      obtain ⟨⟨v, b⟩, s₁, hbody, h⟩ := result_bind_inv h
      obtain ⟨⟨⟩, hposition, h⟩ := result_check_bind_inv h
      cases h
      unfold stampStruct at hbody
      split at hbody
      · cases hbody
        exact .fresh hposition
      · obtain ⟨position, hgrowth, hbody⟩ := result_check_bind_inv hbody
        obtain ⟨hlen, hcompact, hfrozen, hknown, hkept⟩ := checkGrowth_inv hgrowth
        cases hbody
        exact .grown hlen hcompact hfrozen hknown hkept hposition

/-- The shapes of the fields of an admitted struct are those that were given. -/
theorem shapes_grownStruct (s : Session) {fqn : String} (version : UInt32) {known : StructBody}
    (position : Option Nat) {fields : List FieldDescription}
    (hlen : known.fields.length ≤ fields.length)
    (hknown : checkKnownFields fqn known.fields fields = .ok ()) :
    ∃ s', (Admitted.grownStruct s fqn version known position fields).body = .struct s' ∧
      s'.compact = known.compact ∧ s'.flagsPosition = position ∧
      s'.shapes = fields.map FieldDescription.shape ∧ known.shapes <+: s'.shapes := by
  refine ⟨_, rfl, rfl, rfl, ?_, ?_⟩
  · have hadded := map_zip_stamps (fun f v => (stampedField f v).shape) FieldDescription.shape
      (length_stampMembers_map .fieldAdded fqn s (·.name) (fields.drop known.fields.length))
      shape_stampedField
    rw [StructBody.shapes, List.map_append, shapes_of_checkKnownFields hlen hknown, List.map_map]
    refine (congrArg (_ ++ ·) hadded).trans ?_
    rw [← List.map_append, List.take_append_drop]
  · rw [StructBody.shapes, StructBody.shapes, List.map_append]
    exact List.prefix_append _ _

/-- An admitted struct has the fields that were given. -/
theorem StructAdmitted.shapes {s : Session} {fqn : String} {d : Description}
    {fields : List FieldDescription} {explicit : Option Nat}
    {previous : Option (UInt32 × StructBody)} {a : Admitted}
    (h : StructAdmitted s fqn d fields explicit previous a) :
    ∃ s', a.body = .struct s' ∧ s'.shapes = fields.map FieldDescription.shape := by
  cases h with
  | fresh hposition =>
    refine ⟨_, rfl, ?_⟩
    rw [StructBody.shapes, List.map_map]
    rfl
  | @grown version known position hlen hcompact hfrozen hknown hkept hposition =>
    obtain ⟨s', hbody, -, -, hshapes, -⟩ := shapes_grownStruct s version position hlen hknown
    exact ⟨s', hbody, hshapes⟩

/-! ### Positions -/

theorem explicitPosition_le {fqn : String} {count : Nat} {given : Option Int64} {p : Nat}
    (h : explicitPosition fqn count given = .ok (some p)) : p ≤ count := by
  unfold explicitPosition at h
  split at h
  · cases h
  · split at h
    · cases h
    · split at h
      · rename_i hrange
        cases h
        omega
      · cases h

theorem firstOptional_le {fields : List FieldDescription} {i : Nat} {f : FieldDescription}
    (hi : fields[i]? = some f) (hf : f.required = false) :
    ∃ first ≤ i, firstOptional fields = some first := by
  cases h : firstOptional fields with
  | none =>
    rw [firstOptional, List.findIdx?_eq_none_iff] at h
    have := h f (List.mem_of_getElem? hi)
    rw [hf] at this
    cases this
  | some first =>
    refine ⟨first, ?_, rfl⟩
    rw [firstOptional, List.findIdx?_eq_some_iff_getElem] at h
    obtain ⟨hfirst, -, hmin⟩ := h
    by_contra hlt
    obtain ⟨hlen, heq⟩ := List.getElem?_eq_some_iff.mp hi
    have := hmin i (Nat.not_le.mp hlt)
    rw [heq, hf] at this
    exact this rfl

theorem le_of_checkPosition {fqn : String} {p first : Nat}
    (h : checkPosition fqn (some p) (some first) = .ok ()) : p ≤ first := by
  unfold checkPosition at h
  dsimp only at h
  split at h
  · cases h
  · rename_i hlt
    exact Nat.not_lt.mp hlt

theorem relaxBool_typeName {f : FieldDescription} (hr : (relaxBool f).required = true)
    (ha : (relaxBool f).array = false) : (relaxBool f).typeName ≠ "bool" := by
  unfold relaxBool at *
  split at hr
  · cases hr
  · rename_i hne
    rw [if_neg hne] at ha ⊢
    intro htype
    exact hne (by simp [hr, ha, htype])

/-- A struct is well formed when its fields are those that were given and its flags stand where a
position was admitted. -/
theorem wellFormed_of_position {fqn : String} {given : List FieldDescription} {s' : StructBody}
    (hfew : ((given.map relaxBool).countP fun f => !f.required) ≤ maxOptionals)
    (hshapes : s'.shapes = (given.map relaxBool).map FieldDescription.shape)
    (hset : ∀ first, firstOptional (given.map relaxBool) = some first →
      ∃ p, s'.flagsPosition = some p)
    (hposition : checkPosition fqn s'.flagsPosition (firstOptional (given.map relaxBool)) = .ok ())
    (hinside : ∀ p, s'.flagsPosition = some p → p ≤ (given.map relaxBool).length) :
    s'.WellFormed where
  few := by
    rw [hshapes, List.countP_map]
    exact hfew
  behind := by
    intro i f hi hf
    rw [hshapes, List.getElem?_map] at hi
    obtain ⟨g, hg, rfl⟩ := Option.map_eq_some_iff.mp hi
    obtain ⟨first, hle, hfirst⟩ := firstOptional_le hg hf
    obtain ⟨p, hp⟩ := hset first hfirst
    rw [hp, hfirst] at hposition
    exact ⟨p, Nat.le_trans (le_of_checkPosition hposition) hle, hp⟩
  inside := by
    intro p hp
    rw [hshapes, List.length_map]
    exact hinside p hp
  relaxed := by
    intro f hf hr ha
    rw [hshapes, List.map_map] at hf
    obtain ⟨g, -, rfl⟩ := List.mem_map.mp hf
    exact relaxBool_typeName hr ha

theorem lt_of_firstOptional {fields : List FieldDescription} {first : Nat}
    (h : firstOptional fields = some first) : first < fields.length := by
  rw [firstOptional, List.findIdx?_eq_some_iff_getElem] at h
  exact h.1

/-- A position that is asked for or else found lies within the fields. -/
theorem or_le {fqn : String} {given : Option Int64} {fields : List FieldDescription}
    {explicit : Option Nat} {p : Nat}
    (hexplicit : explicitPosition fqn fields.length given = .ok explicit)
    (h : explicit.or (firstOptional fields) = some p) : p ≤ fields.length := by
  cases explicit with
  | none => exact Nat.le_of_lt (lt_of_firstOptional h)
  | some q =>
    cases h
    exact explicitPosition_le hexplicit

theorem or_of_firstOptional {fields : List FieldDescription} {explicit : Option Nat} {first : Nat}
    (h : firstOptional fields = some first) : ∃ p, explicit.or (firstOptional fields) = some p := by
  rw [h]
  cases explicit with
  | none => exact ⟨first, rfl⟩
  | some p => exact ⟨p, rfl⟩

/-- A kept position is the earlier one, or one that is asked for or else found. -/
theorem keptPosition_cases {fqn : String} {known : StructBody}
    {explicit first position : Option Nat}
    (h : keptPosition fqn known explicit first = .ok position) :
    (∃ was, known.flagsPosition = some was ∧ position = some was) ∨
      known.flagsPosition = none ∧ position = explicit.or first ∧
        ∀ p, position = some p → known.fields.length ≤ p := by
  unfold keptPosition at h
  split at h
  · rename_i was hwas
    refine .inl ⟨was, hwas, ?_⟩
    split at h
    · split at h
      · cases h
        rfl
      · cases h
    · cases h
      rfl
  · rename_i hnone
    refine .inr ⟨hnone, ?_⟩
    split at h
    · rename_i now hnow
      split at h
      · cases h
      · rename_i hge
        cases h
        refine ⟨hnow.symm, fun p hp => ?_⟩
        cases hp
        exact Nat.not_lt.mp hge
    · rename_i hnow
      cases h
      exact ⟨hnow.symm, nofun⟩

theorem StructAdmitted.wellFormed {s : Session} {fqn : String} {d : Description}
    {given : List FieldDescription} {explicit : Option Nat}
    {previous : Option (UInt32 × StructBody)} {a : Admitted}
    (hfew : ((given.map relaxBool).countP fun f => !f.required) ≤ maxOptionals)
    (hexplicit : explicitPosition fqn (given.map relaxBool).length d.flagsPosition = .ok explicit)
    (h : StructAdmitted s fqn d (given.map relaxBool) explicit previous a)
    (hprevious : ∀ version known, previous = some (version, known) → known.WellFormed) :
    a.body.WellFormed := by
  cases h with
  | fresh hposition =>
    refine wellFormed_of_position hfew ?_ (fun first hfirst => or_of_firstOptional hfirst) hposition
      fun p hp => or_le hexplicit hp
    rw [StructBody.shapes, List.map_map]
    rfl
  | @grown version known position hlen hcompact hfrozen hknown hkept hposition =>
    obtain ⟨s', hbody, -, hpos, hshapes, -⟩ :=
      shapes_grownStruct s version position hlen hknown
    rw [hbody]
    subst hpos
    refine wellFormed_of_position hfew hshapes (fun first hfirst => ?_) hposition fun p hp => ?_
    · rcases keptPosition_cases hkept with ⟨was, -, hp⟩ | ⟨-, hp, -⟩
      · exact ⟨was, hp⟩
      · rw [hp]
        exact or_of_firstOptional hfirst
    · rcases keptPosition_cases hkept with ⟨was, hwas, hp'⟩ | ⟨-, hp', -⟩
      · obtain rfl : was = p := Option.some.inj (hp'.symm.trans hp)
        have hin := (hprevious version known rfl).inside was hwas
        rw [StructBody.length_shapes] at hin
        exact Nat.le_trans hin hlen
      · exact or_le hexplicit (hp'.symm.trans hp)

theorem StructAdmitted.extends {s : Session} {fqn : String} {d : Description}
    {fields : List FieldDescription} {explicit : Option Nat} {version : UInt32}
    {known : StructBody} {a : Admitted}
    (h : StructAdmitted s fqn d fields explicit (some (version, known)) a) :
    (Body.struct known).Extends a.body := by
  cases h with
  | @grown _ _ position hlen hcompact hfrozen hknown hkept hposition =>
    obtain ⟨s', hbody, hcomp, hpos, hshapes, hleading⟩ :=
      shapes_grownStruct s version position hlen hknown
    rw [hbody]
    subst hpos
    refine .struct ⟨hcomp, hleading, fun hc => ?_, fun p hp => ?_, fun p hp hp' => ?_⟩
    · refine (hleading.eq_of_length ?_).symm
      rw [hshapes, List.length_map, hfrozen hc, StructBody.length_shapes]
    · rcases keptPosition_cases hkept with ⟨was, hwas, hp'⟩ | ⟨hnone, -, -⟩
      · exact hp'.trans (hwas.symm.trans hp)
      · rw [hnone] at hp
        cases hp
    · rw [StructBody.length_shapes]
      rcases keptPosition_cases hkept with ⟨was, hwas, -⟩ | ⟨-, -, hge⟩
      · rw [hp] at hwas
        cases hwas
      · exact hge p hp'

/-! ## All kinds -/

/-- The body that a description tells by one text. -/
inductive Textual (d : Description) : Body → Prop
  | target (h : d.kind = .alias) : Textual d (.alias (d.target.getD ""))
  | element (h : d.kind = .array) {element : String} (helement : d.element = some element) :
      Textual d (.array element)
  | symbol (h : d.kind = .external) : Textual d (.external (d.external.getD ""))

/-- How a body was admitted, for the first time or on top of the earlier version and body. -/
inductive BodyAdmitted (s : Session) (fqn : String) (d : Description) :
    Option (UInt32 × Body) → Admitted → Prop
  | text {body : Body} {previous : Option (UInt32 × Body)} {a : Admitted} (hbody : Textual d body)
      (h : TextAdmitted s fqn d body previous a) : BodyAdmitted s fqn d previous a
  | enum {entries : List EnumEntry} {previous : Option (UInt32 × EnumBody)} {a : Admitted}
      (hkind : d.kind = .enum) (hentries : d.enumEntries? = some entries)
      (h : EnumAdmitted s fqn d entries previous a) :
      BodyAdmitted s fqn d (previous.map (Prod.map id .enum)) a
  | struct {given : List FieldDescription} {explicit : Option Nat}
      {previous : Option (UInt32 × StructBody)} {a : Admitted} (hkind : d.kind = .struct)
      (hgiven : d.fields = some given)
      (hfew : ((given.map relaxBool).countP fun f => !f.required) ≤ maxOptionals)
      (hexplicit : explicitPosition fqn (given.map relaxBool).length d.flagsPosition =
        .ok explicit)
      (h : StructAdmitted s fqn d (given.map relaxBool) explicit previous a) :
      BodyAdmitted s fqn d (previous.map (Prod.map id .struct)) a
  | versioned {entries : List VersionEntry} {previous : Option (UInt32 × List VersionEntry)}
      {a : Admitted} (hkind : d.kind = .versioned) (hentries : d.versions.getD [] = entries)
      (hne : entries ≠ []) (hinc : increasing entries = true)
      (h : VersionedAdmitted s fqn d entries previous a) :
      BodyAdmitted s fqn d (previous.map (Prod.map id .versioned)) a

/-- What is admitted of a description, and the session after it. -/
def accept (s : Session) (previous : Option Declaration) (d : Description) :
    Except SchemaError (Declaration × Session) :=
  (admitDescription previous d).result s

theorem accept_eq (s : Session) (previous : Option Declaration) (d : Description) :
    accept s previous d = checkKind d.fqn previous d.kind >>= fun _ =>
      ((admitBody d.fqn previous d).result s).map fun p =>
        (⟨d.name, d.ns.getD "", p.1.1, p.1.2⟩, p.2) := by
  unfold accept admitDescription
  rw [result_check_bind]
  simp only [result_bind]
  cases (admitBody d.fqn previous d).result s <;> rfl

theorem accept_inv {s s' : Session} {previous : Option Declaration} {d : Description}
    {declaration : Declaration} (h : accept s previous d = .ok (declaration, s')) :
    ∃ version body, checkKind d.fqn previous d.kind = .ok () ∧
      (admitBody d.fqn previous d).result s = .ok ((version, body), s') ∧
      declaration = ⟨d.name, d.ns.getD "", version, body⟩ := by
  rw [accept_eq] at h
  obtain ⟨⟨⟩, hkind, h⟩ := ok_of_bind h
  obtain ⟨⟨⟨version, body⟩, s₁⟩, ha, h⟩ := ok_of_map h
  cases h
  exact ⟨version, body, hkind, ha, rfl⟩

theorem fqn_of_accept {s s' : Session} {previous : Option Declaration} {d : Description}
    {declaration : Declaration} (h : accept s previous d = .ok (declaration, s')) :
    declaration.fqn = d.fqn := by
  obtain ⟨version, body, -, -, rfl⟩ := accept_inv h
  rfl

/-- An earlier declaration of the kind at hand is seen by that kind. -/
theorem map_earlier {α : Type} {kind : Kind} (view : Body → Option α) (body : α → Body)
    (hview : ∀ b, b.kind = kind → ∃ x, view b = some x ∧ body x = b) {fqn : String}
    {previous : Option Declaration} (h : checkKind fqn previous kind = .ok ()) :
    (earlier view previous).map (Prod.map id body) =
      previous.map fun p => (p.version, p.body) := by
  cases previous with
  | none => rfl
  | some p =>
    rw [checkKind] at h
    split at h
    · rename_i hkind
      obtain ⟨x, hx, hbody⟩ := hview p.body hkind
      rw [earlier, Option.bind_some, hx, Option.map_some, Option.map_some, Option.map_some,
        Prod.map, hbody]
      rfl
    · cases h

/-- What is admitted is a body of one of the kinds, on top of the earlier body if there is one. -/
theorem accept_cases {s s' : Session} {previous : Option Declaration} {d : Description}
    {declaration : Declaration} (h : accept s previous d = .ok (declaration, s')) :
    ∃ a, BodyAdmitted s d.fqn d (previous.map fun p => (p.version, p.body)) a ∧
      declaration = ⟨d.name, d.ns.getD "", a.version, a.body⟩ ∧ s' = a.session := by
  obtain ⟨version, body, hcheck, ha, hdeclaration⟩ := accept_inv h
  refine ⟨⟨body, version, s'⟩, ?_, hdeclaration, rfl⟩
  unfold admitBody at ha
  split at ha
  all_goals
    rename_i hkind
    rw [hkind] at hcheck
  · rw [← map_earlier Body.alias? .alias ?_ hcheck]
    · exact .text (.target hkind) (admitText_cases ha)
    · rintro b hb
      cases b <;> cases hb
      exact ⟨_, rfl, rfl⟩
  · rw [← map_earlier Body.enum? .enum ?_ hcheck]
    · obtain ⟨entries, hentries, ha⟩ := admitEnum_cases ha
      exact .enum hkind hentries ha
    · rintro b hb
      cases b <;> cases hb
      exact ⟨_, rfl, rfl⟩
  · rw [← map_earlier Body.struct? .struct ?_ hcheck]
    · obtain ⟨given, explicit, hgiven, hfew, hexplicit, ha⟩ := admitStruct_cases ha
      exact .struct hkind hgiven hfew hexplicit ha
    · rintro b hb
      cases b <;> cases hb
      exact ⟨_, rfl, rfl⟩
  · rw [← map_earlier Body.array? .array ?_ hcheck]
    · obtain ⟨element, helement, ha⟩ := admitArray_cases ha
      exact .text (.element hkind helement) ha
    · rintro b hb
      cases b <;> cases hb
      exact ⟨_, rfl, rfl⟩
  · rw [← map_earlier Body.versioned? .versioned ?_ hcheck]
    · obtain ⟨entries, hentries, hne, hinc, ha⟩ := admitVersioned_cases ha
      exact .versioned hkind hentries hne hinc ha
    · rintro b hb
      cases b <;> cases hb
      exact ⟨_, rfl, rfl⟩
  · rw [← map_earlier Body.external? .external ?_ hcheck]
    · exact .text (.symbol hkind) (admitText_cases ha)
    · rintro b hb
      cases b <;> cases hb
      exact ⟨_, rfl, rfl⟩

section Bodies

variable {s : Session} {fqn : String} {d : Description} {a : Admitted}

theorem BodyAdmitted.wellFormed {previous : Option (UInt32 × Body)}
    (h : BodyAdmitted s fqn d previous a)
    (hprevious : ∀ version body, previous = some (version, body) → body.WellFormed) :
    a.body.WellFormed := by
  cases h with
  | text hbody h =>
    rw [h.body.1]
    cases hbody <;> trivial
  | enum _ _ h =>
    obtain ⟨e, he, -⟩ := h.body
    rw [he]
    trivial
  | struct _ _ hfew hexplicit h =>
    refine h.wellFormed hfew hexplicit fun version known hknown => ?_
    exact hprevious version (.struct known) (hknown ▸ rfl)
  | versioned _ _ hne hinc h =>
    rw [h.body.1]
    exact ⟨hne, ascending_of_increasing hinc⟩

theorem BodyAdmitted.extends {version : UInt32} {body : Body}
    (h : BodyAdmitted s fqn d (some (version, body)) a) : body.Extends a.body := by
  generalize hprevious : some (version, body) = previous at h
  cases h with
  | text _ h =>
    rw [h.body.1, h.body.2 version body hprevious.symm]
    exact .refl _
  | enum _ _ h =>
    obtain ⟨⟨_, known⟩, rfl, ⟨⟩⟩ := Option.map_eq_some_iff.mp hprevious.symm
    obtain ⟨e, he, hsame⟩ := h.body
    obtain ⟨hoffset, hstrings, hkeys⟩ := hsame _ _ rfl
    rw [he]
    exact .enum hoffset hstrings hkeys
  | struct _ _ _ _ h =>
    obtain ⟨⟨_, known⟩, rfl, ⟨⟩⟩ := Option.map_eq_some_iff.mp hprevious.symm
    exact h.extends
  | versioned _ _ _ _ h =>
    obtain ⟨⟨_, known⟩, rfl, ⟨⟩⟩ := Option.map_eq_some_iff.mp hprevious.symm
    rw [h.body.1]
    exact .versioned (h.body.2 _ _ rfl)

end Bodies

/-- What is admitted is well formed. -/
theorem accept_wellFormed {s s' : Session} {previous : Option Declaration} {d : Description}
    {declaration : Declaration} (h : accept s previous d = .ok (declaration, s'))
    (hprevious : ∀ p, previous = some p → p.body.WellFormed) : declaration.body.WellFormed := by
  obtain ⟨a, ha, rfl, -⟩ := accept_cases h
  refine ha.wellFormed fun version body hbody => ?_
  obtain ⟨p, hp, ⟨⟩⟩ := Option.map_eq_some_iff.mp hbody
  exact hprevious p hp

/-- What is admitted on top of an earlier declaration extends it. -/
theorem accept_extends {s s' : Session} {p : Declaration} {d : Description}
    {declaration : Declaration} (h : accept s (some p) d = .ok (declaration, s')) :
    p.body.Extends declaration.body := by
  obtain ⟨a, ha, rfl, -⟩ := accept_cases h
  exact ha.extends

end Admission

end WireSchema

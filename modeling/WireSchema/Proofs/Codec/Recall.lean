import WireSchema.Proofs.Codec.Follow

/-!
# Readers that know less

One codec recalls another when it reads every byte string that the other reads, and gets the part of
the value that it knows (`Codec.Recalls`).  Nothing is asked of how the bytes were made.  Frames and
sequences recall when their parts do, a choice recalls one with further keys as long as it knows the
key, and a record recalls one with further fields: it leaves them where they stand, and its own
flags are where they were (`recalls_record`).
-/

namespace WireSchema

open CursorM

namespace Fields

/-- The fields of the given names, each with a change. -/
def keep (names : List String) (g : String → Value → Value) (fields : Fields) : Fields :=
  (fields.filter fun p => names.contains p.1).map fun p => (p.1, g p.1 p.2)

variable {names : List String} {g : String → Value → Value} {name : String} {fields : Fields}

theorem keep_insert_of_mem (h : Assoc.Sorted fields) (hn : name ∈ names) (v : Value) :
    keep names g (Assoc.insert name v fields) =
      Assoc.insert name (g name v) (keep names g fields) := by
  rw [keep, Assoc.filter_insert_of_pos (P := names.contains) (by simpa using hn) h,
    Assoc.map_insert, keep]

theorem keep_insert_of_not_mem (h : Assoc.Sorted fields) (hn : name ∉ names) (v : Value) :
    keep names g (Assoc.insert name v fields) = keep names g fields := by
  rw [keep, Assoc.filter_insert_of_neg (P := names.contains) (by simpa using hn) h, keep]

theorem keep_insertAll_of_mem {bindings : Fields} (h : Assoc.Sorted fields)
    (hn : ∀ p ∈ bindings, p.1 ∈ names) (hg : ∀ p ∈ bindings, g p.1 p.2 = p.2) :
    keep names g (Assoc.insertAll fields bindings) =
      Assoc.insertAll (keep names g fields) bindings := by
  induction bindings generalizing fields with
  | nil => rfl
  | cons b rest ih =>
    rw [Assoc.insertAll_cons, Assoc.insertAll_cons,
      ih (Assoc.sorted_insert h) (fun p hp => hn p (List.mem_cons_of_mem _ hp))
        (fun p hp => hg p (List.mem_cons_of_mem _ hp)),
      keep_insert_of_mem h (hn b List.mem_cons_self), hg b List.mem_cons_self]

theorem keep_insertAll_of_not_mem {bindings : Fields} (h : Assoc.Sorted fields)
    (hn : ∀ p ∈ bindings, p.1 ∉ names) :
    keep names g (Assoc.insertAll fields bindings) = keep names g fields := by
  induction bindings generalizing fields with
  | nil => rfl
  | cons b rest ih =>
    rw [Assoc.insertAll_cons,
      ih (Assoc.sorted_insert h) fun p hp => hn p (List.mem_cons_of_mem _ hp),
      keep_insert_of_not_mem h (hn b List.mem_cons_self)]

end Fields

/-- The value with the fields of the given names only, each with a change. -/
def Value.keep (names : List String) (g : String → Value → Value) : Value → Value
  | .struct fields => .struct (Fields.keep names g fields)
  | v => v

namespace Codec

variable {c c' : Codec} {down : Value → Value} {Known : Value → Prop} {framed : Bool}

/-- What the second codec reads from any bytes the first reads too, as far as it knows it.  A value
that does not stand alone in a frame must be read to the same end. -/
def Recalls (framed : Bool) (c c' : Codec) (down : Value → Value) (Known : Value → Prop) : Prop :=
  ∀ (w : Bytes) (v : Value) (k : Nat), c'.read.parse w = .ok (v, k) → Known v →
    ∃ j, c.read.parse w = .ok (down v, j) ∧ (framed = false → j = k)

theorem Recalls.weaken (h : Recalls false c c' down Known) : Recalls framed c c' down Known := by
  intro w v k hp hv
  obtain ⟨j, hj, heq⟩ := h w v k hp hv
  exact ⟨j, hj, fun _ => heq rfl⟩

theorem Recalls.of_known {Known' : Value → Prop} (h : Recalls framed c c' down Known)
    (hknown : ∀ v, Known' v → Known v) : Recalls framed c c' down Known' :=
  fun w v k hp hv => h w v k hp (hknown v hv)

theorem Recalls.unframed (h : Recalls false c c' down Known) {w : Bytes} {v : Value} {k : Nat}
    (hp : c'.read.parse w = .ok (v, k)) (hv : Known v) : c.read.parse w = .ok (down v, k) := by
  obtain ⟨j, hj, heq⟩ := h w v k hp hv
  rw [hj, heq rfl]

/-- The frame tells where its payload ends, so the payload need not be read to its end. -/
theorem recalls_frame (hc : Confined c.read) (hc' : Confined c'.read)
    (h : Recalls true c c' down Known) : Recalls false c.frame c'.frame down Known := by
  intro w v k hp hv
  cases hn : Varint.read.parse w with
  | error e =>
    rw [frame_read, parse_bind_error hn] at hp
    cases hp
  | ok p =>
    obtain ⟨n, m⟩ := p
    rw [parse_frame hc' hn] at hp
    rw [parse_frame hc hn]
    by_cases hle : n ≤ (w.drop m).length
    · rw [if_pos hle] at hp ⊢
      obtain ⟨⟨u, i⟩, hread, heq⟩ := ok_of_map hp
      cases heq
      obtain ⟨j, hj, -⟩ := h _ _ _ hread hv
      rw [hj]
      exact ⟨_, rfl, fun _ => rfl⟩
    · rw [if_neg hle] at hp
      cases hp

theorem recalls_items (hc : Confined c.read) (hc' : Confined c'.read)
    (h : Recalls false c c' down Known) (scarce : Bool) (count : Nat) {w : Bytes}
    {vs : List Value} {k : Nat} (hp : (c'.readItems scarce count).parse w = .ok (vs, k))
    (hv : ∀ u ∈ vs, Known u) : (c.readItems scarce count).parse w = .ok (vs.map down, k) := by
  induction count generalizing w vs k with
  | zero =>
    cases hp
    rfl
  | succ count ih =>
    rw [parse_readItems_succ hc'] at hp
    rw [parse_readItems_succ hc]
    cases hread : c'.read.parse w with
    | error e => rw [hread] at hp; cases hp
    | ok p =>
      obtain ⟨u, m⟩ := p
      rw [hread] at hp
      dsimp only at hp
      -- an item takes as many bytes as before, so it is empty for both readers or for none
      by_cases hempty : m = 0 ∧ scarce = true
      · rw [if_pos hempty] at hp
        cases hp
      · rw [if_neg hempty] at hp
        obtain ⟨j, hj, rfl⟩ := shift_eq_ok hp
        obtain ⟨⟨us, i⟩, hrest, heq⟩ := ok_of_map hj
        cases heq
        rw [h.unframed hread (hv u List.mem_cons_self)]
        dsimp only
        rw [if_neg hempty, ih hrest fun x hx => hv x (List.mem_cons_of_mem _ hx)]
        rfl

theorem recalls_sequence (hc : Confined c.read) (hc' : Confined c'.read)
    (h : Recalls false c c' down Known) :
    Recalls false c.sequence c'.sequence (Value.mapItems down)
      fun v => ∀ items, v = .array items → ∀ u ∈ items, Known u := by
  intro w v k hp hv
  cases hn : Varint.read.parse w with
  | error e =>
    rw [sequence_read, parse_bind_error hn] at hp
    cases hp
  | ok p =>
    obtain ⟨count, m⟩ := p
    rw [parse_sequence hc' hn] at hp
    obtain ⟨⟨us, i⟩, hitems, heq⟩ := ok_of_map hp
    cases heq
    refine ⟨m + i, ?_, fun _ => rfl⟩
    rw [parse_sequence hc hn, recalls_items hc hc' h _ _ hitems (hv us rfl)]
    rfl

end Codec

/-- A choice reads the keys that it knows of a choice with further keys, as long as no number that
it does not know stands for one of its keys. -/
theorem Choice.recalls_choice {e e' : Choice} (hstrings : e'.strings = e.strings)
    (hoffset : e'.offset = e.offset) (hkeys : e.keys <+: e'.keys)
    (hfresh : e.strings = false → ∀ key ∈ e'.keys.drop e.keys.length, key ∉ e.keys) :
    Codec.Recalls false e.codec e'.codec id fun v => ∀ key, v = .string key → key ∈ e.keys := by
  intro w v k hp hv
  refine ⟨k, ?_, fun _ => rfl⟩
  change e.read.parse w = .ok (v, k)
  cases hs : e.strings with
  | true =>
    obtain ⟨key, i, hread, -, rfl⟩ := parse_strings_inv (hstrings.trans hs) hp
    obtain ⟨j, hj⟩ := index_of_mem (hv key rfl)
    exact parse_strings hs hj hread
  | false =>
    obtain ⟨n, key, hread, hkey, rfl⟩ := parse_numbers_inv (hstrings.trans hs) hp
    refine parse_numbers hs ?_ hread
    unfold keyOf? at hkey ⊢
    rw [hoffset] at hkey
    by_cases hlow : n < e.offset.toNat
    · rw [if_pos hlow] at hkey
      cases hkey
    · rw [if_neg hlow] at hkey ⊢
      obtain ⟨more, hmore⟩ := hkeys
      by_cases hlt : n - e.offset.toNat < e.keys.length
      · rwa [← hmore, List.getElem?_append_left hlt] at hkey
      · -- the number of a further key
        have hmem : key ∈ e'.keys.drop e.keys.length := by
          refine List.mem_of_getElem? (i := n - e.offset.toNat - e.keys.length) ?_
          rw [List.getElem?_drop, ← hkey]
          congr 1
          omega
        exact absurd (hv key rfl) (hfresh hs key hmem)

namespace RecordLayout

/-! ## Records -/

/-- A layout goes on where another ends: it has further steps under further names, and its flags
stand where they stood, or behind all earlier steps when there were none. -/
structure Continues (l l' : RecordLayout) (extra : List FieldStep) : Prop where
  steps : l'.steps = l.steps ++ extra
  names : (l'.steps.map (·.name)).Nodup
  position : l'.flagsPosition = l.flagsPosition ∨
    l.flagsPosition = none ∧ ∀ p, l'.flagsPosition = some p → l.steps.length ≤ p

variable {l l' : RecordLayout} {extra : List FieldStep} {member member' : FieldStep → Codec}
  {g : String → Value → Value} {names : List String}

theorem Continues.flagsAt_eq (h : l.Continues l' extra) {i : Nat} (hi : i < l.steps.length)
    (known : Nat) : l'.flagsAt i known = l.flagsAt i known := by
  rcases h.position with heq | ⟨hnone, hge⟩
  · unfold flagsAt
    rw [heq]
  · rw [flagsAt_elsewhere (l := l) (by rw [hnone]; simp), flagsAt_elsewhere]
    intro hsome
    have := hge i hsome
    omega

/-- Reading a field binds at most its name. -/
theorem readField_inv {s : FieldStep} (hc : Confined (member s).read) {flags k : Nat}
    {fields fields' : Fields} {w : Bytes}
    (h : (readField member s flags fields).parse w = .ok (fields', k)) :
    fields' = fields ∨ ∃ v, fields' = Assoc.insert s.name v fields := by
  unfold readField at h
  by_cases honly : s.flagOnly
  · rw [if_pos honly] at h
    cases h
    exact .inr ⟨_, rfl⟩
  · rw [if_neg honly] at h
    by_cases hwritten : s.isWritten flags
    · rw [if_pos hwritten] at h
      obtain ⟨v, j, m, -, hrest, -⟩ := parse_bind_inv hc (fun _ => confined_pure _) h
      cases hrest
      exact .inr ⟨v, rfl⟩
    · rw [if_neg hwritten] at h
      cases h
      exact .inl rfl

/-- Reading steps ends at the flags, or goes on with the first field. -/
theorem readSteps_inv {s : FieldStep} {rest : List FieldStep}
    (hc : ∀ s' ∈ s :: rest, Confined (member s').read) {i known k : Nat} {fields found : Fields}
    {w : Bytes} (h : (l.readSteps member i known fields (s :: rest)).parse w = .ok (found, k)) :
    ((l.flagsAt i known).parse w = .ok (none, k) ∧ found = fields) ∨
      ∃ flags m fields' j n, (l.flagsAt i known).parse w = .ok (some flags, m) ∧
        (readField member s flags fields).parse (w.drop m) = .ok (fields', j) ∧
        (l.readSteps member (i + 1) flags fields' rest).parse ((w.drop m).drop j) =
          .ok (found, n) ∧ k = m + (j + n) := by
  have hrest : ∀ s' ∈ rest, Confined (member s').read := fun s' hs' =>
    hc s' (List.mem_cons_of_mem _ hs')
  cases hflags : (l.flagsAt i known).parse w with
  | error e =>
    rw [parse_readSteps_error hflags] at h
    cases h
  | ok p =>
    obtain ⟨r, m⟩ := p
    cases r with
    | none =>
      rw [parse_readSteps_end hc hflags] at h
      cases h
      exact .inl ⟨rfl, rfl⟩
    | some flags =>
      rw [parse_readSteps_cons hc hflags] at h
      obtain ⟨q, hq, rfl⟩ := shift_eq_ok h
      obtain ⟨fields', j, n, hfield, hsteps, rfl⟩ := parse_bind_inv
        (confined_readField (hc s List.mem_cons_self) flags fields)
        (fun _ => confined_readSteps hrest _ _ _) hq
      exact .inr ⟨flags, m, fields', j, n, rfl, hfield, hsteps, rfl⟩

/-- What holds of the fields before, and still holds when the name of a step is bound, holds of the
fields that were read. -/
theorem readSteps_induction {P : Fields → Prop} {steps : List FieldStep}
    (hc : ∀ s ∈ steps, Confined (member s).read)
    (hstep : ∀ s ∈ steps, ∀ fields v, P fields → P (Assoc.insert s.name v fields))
    {i known k : Nat} {fields found : Fields} {w : Bytes} (hstart : P fields)
    (h : (l.readSteps member i known fields steps).parse w = .ok (found, k)) : P found := by
  induction steps generalizing i known k fields w with
  | nil =>
    cases hflags : (l.flagsAt i known).parse w with
    | error e =>
      rw [parse_readSteps_error hflags] at h
      cases h
    | ok p =>
      rw [parse_readSteps_nil hflags] at h
      cases h
      exact hstart
  | cons s rest ih =>
    rcases readSteps_inv hc h with ⟨-, rfl⟩ | ⟨flags, m, fields', j, n, -, hfield, hsteps, -⟩
    · exact hstart
    · refine ih (fun s' hs' => hc s' (List.mem_cons_of_mem _ hs'))
        (fun s' hs' => hstep s' (List.mem_cons_of_mem _ hs')) ?_ hsteps
      rcases readField_inv (hc s List.mem_cons_self) hfield with rfl | ⟨v, rfl⟩
      · exact hstart
      · exact hstep s List.mem_cons_self fields v hstart

/-- A field is recalled when its value is. -/
theorem recalls_readField {s : FieldStep} {Known : Value → Prop}
    (hc : Confined (member s).read) (hc' : Confined (member' s).read)
    (h : Codec.Recalls false (member s) (member' s) (g s.name) Known)
    (hbool : ∀ b, g s.name (.bool b) = .bool b) (hs : s.name ∈ names) {flags k : Nat}
    {fields fields' : Fields} (hsorted : Assoc.Sorted fields) {w : Bytes}
    (hp : (readField member' s flags fields).parse w = .ok (fields', k))
    (hknown : Known (Fields.get fields' s.name)) :
    (readField member s flags (Fields.keep names g fields)).parse w =
      .ok (Fields.keep names g fields', k) := by
  unfold readField at hp ⊢
  by_cases honly : s.flagOnly
  · rw [if_pos honly] at hp ⊢
    cases hp
    rw [Fields.keep_insert_of_mem hsorted hs, hbool]
    rfl
  · rw [if_neg honly] at hp ⊢
    by_cases hwritten : s.isWritten flags
    · rw [if_pos hwritten] at hp ⊢
      obtain ⟨v, j, m, hread, hrest, rfl⟩ := parse_bind_inv hc' (fun _ => confined_pure _) hp
      cases hrest
      have hget : Fields.get (Assoc.insert s.name v fields) s.name = v := by simp [Fields.get]
      rw [parse_bind_ok hc (fun _ => confined_pure _) (h.unframed hread (hget ▸ hknown)),
        Fields.keep_insert_of_mem hsorted hs]
      rfl
    · rw [if_neg hwritten] at hp ⊢
      cases hp
      rfl

/-- After its last step a layout leaves the further steps of another one alone. -/
theorem Continues.recalls_end (h : l.Continues l' extra)
    (hc' : ∀ s ∈ extra, Confined (member' s).read) (hextra : ∀ s ∈ extra, s.name ∉ names)
    {flags k : Nat} {fields found : Fields} (hsorted : Assoc.Sorted fields) {w : Bytes}
    (hp : (l'.readSteps member' l.steps.length flags fields extra).parse w = .ok (found, k)) :
    ∃ j, (l.readSteps member l.steps.length flags (Fields.keep names g fields) []).parse w =
      .ok (Fields.keep names g found, j) ∧
        (extra = [] → l'.flagsPosition = l.flagsPosition → j = k) := by
  have hkeep : Fields.keep names g found = Fields.keep names g fields :=
    (readSteps_induction
      (P := fun x => Assoc.Sorted x ∧ Fields.keep names g x = Fields.keep names g fields) hc'
      (fun s hs x v hx => ⟨Assoc.sorted_insert hx.1,
        (Fields.keep_insert_of_not_mem hx.1 (hextra s hs) v).trans hx.2⟩)
      ⟨hsorted, rfl⟩ hp).2
  rw [hkeep]
  by_cases hposition : l'.flagsPosition = l.flagsPosition
  · have hsame : l'.flagsAt l.steps.length flags = l.flagsAt l.steps.length flags := by
      unfold flagsAt
      rw [hposition]
    cases hflags : (l'.flagsAt l.steps.length flags).parse w with
    | error e =>
      rw [parse_readSteps_error hflags] at hp
      cases hp
    | ok p =>
      obtain ⟨r, m⟩ := p
      refine ⟨m, parse_readSteps_nil (hsame ▸ hflags), fun hnil _ => ?_⟩
      rw [hnil, parse_readSteps_nil hflags] at hp
      cases hp
      rfl
  · have hnone : l.flagsPosition ≠ some l.steps.length := by
      rcases h.position with heq | ⟨hnone, -⟩
      · exact absurd heq hposition
      · rw [hnone]
        simp
    refine ⟨0, parse_readSteps_nil (r := some flags) ?_, fun _ heq => absurd heq hposition⟩
    rw [flagsAt_elsewhere hnone]
    rfl

/-- The steps of a layout are recalled one after the other. -/
theorem Continues.recalls_steps (h : l.Continues l' extra) {Known : FieldStep → Value → Prop}
    {steps : List FieldStep} (hc : ∀ s ∈ steps, Confined (member s).read)
    (hc' : ∀ s ∈ steps ++ extra, Confined (member' s).read)
    (hmember : ∀ s ∈ steps,
      Codec.Recalls false (member s) (member' s) (g s.name) (Known s))
    (hbool : ∀ s ∈ steps, ∀ b, g s.name (.bool b) = .bool b)
    (hnames : ((steps ++ extra).map (·.name)).Nodup) (hsteps : ∀ s ∈ steps, s.name ∈ names)
    (hextra : ∀ s ∈ extra, s.name ∉ names) {i flags k : Nat}
    (hi : i + steps.length = l.steps.length) {fields found : Fields}
    (hsorted : Assoc.Sorted fields) {w : Bytes}
    (hp : (l'.readSteps member' i flags fields (steps ++ extra)).parse w = .ok (found, k))
    (hknown : ∀ s ∈ steps, Known s (Fields.get found s.name)) :
    ∃ j, (l.readSteps member i flags (Fields.keep names g fields) steps).parse w =
      .ok (Fields.keep names g found, j) ∧
        (extra = [] → l'.flagsPosition = l.flagsPosition → j = k) := by
  induction steps generalizing i flags k fields w with
  | nil =>
    obtain rfl : i = l.steps.length := hi
    exact h.recalls_end hc' hextra hsorted hp
  | cons s rest ih =>
    rw [List.length_cons] at hi
    have hrest : ∀ s' ∈ rest, s' ∈ s :: rest := fun s' hs' => List.mem_cons_of_mem _ hs'
    have hcrest : ∀ s' ∈ rest, Confined (member s').read := fun s' hs' => hc s' (hrest s' hs')
    have hcrest' : ∀ s' ∈ rest ++ extra, Confined (member' s').read := fun s' hs' =>
      hc' s' (List.mem_cons_of_mem _ hs')
    have hflags := h.flagsAt_eq (i := i) (by omega) flags
    rw [List.cons_append, List.map_cons, List.nodup_cons] at hnames
    rcases readSteps_inv hc' hp with ⟨hend, rfl⟩ | ⟨set, m, fields', j, n, hset, hfield, htail, rfl⟩
    · exact ⟨k, parse_readSteps_end hc (hflags ▸ hend), fun _ _ => rfl⟩
    · -- no later step binds the name of this one, so what it has read is what is held in the end
      have hheld : Fields.get found s.name = Fields.get fields' s.name := by
        have hlookup := readSteps_induction (P := fun x => x.lookup s.name = fields'.lookup s.name)
          hcrest' (fun s' hs' x v hx => by
            have hne : s.name ≠ s'.name := fun heq =>
              hnames.1 (heq ▸ List.mem_map_of_mem (f := (·.name)) hs')
            rw [Assoc.lookup_insert, if_neg hne, hx]) rfl htail
        rw [Fields.get, Fields.get, hlookup]
      have hread := recalls_readField (hc s List.mem_cons_self) (hc' s List.mem_cons_self)
        (hmember s List.mem_cons_self) (hbool s List.mem_cons_self) (hsteps s List.mem_cons_self)
        hsorted hfield (hheld ▸ hknown s List.mem_cons_self)
      have hsorted' : Assoc.Sorted fields' := by
        rcases readField_inv (hc' s List.mem_cons_self) hfield with rfl | ⟨v, rfl⟩
        · exact hsorted
        · exact Assoc.sorted_insert hsorted
      obtain ⟨q, hq, hlast⟩ := ih hcrest hcrest' (fun s' hs' => hmember s' (hrest s' hs'))
        (fun s' hs' => hbool s' (hrest s' hs')) hnames.2 (fun s' hs' => hsteps s' (hrest s' hs'))
        (by omega) hsorted' htail fun s' hs' => hknown s' (hrest s' hs')
      refine ⟨m + (j + q), ?_, fun hnil hposition => by rw [hlast hnil hposition]⟩
      rw [parse_readSteps_cons hc (hflags ▸ hset),
        parse_bind_ok (confined_readField (hc s List.mem_cons_self) set _)
          (fun _ => confined_readSteps hcrest _ _ _) hread, hq]
      rfl

theorem Continues.keep_defaults (h : l.Continues l' extra)
    (hdefault : ∀ s ∈ l.steps, g s.name s.default = s.default) :
    Fields.keep (l.steps.map (·.name)) g l'.defaults = l.defaults := by
  have hnodup := h.names
  rw [h.steps, List.map_append, List.nodup_append] at hnodup
  rw [defaults, h.steps, List.map_append, Assoc.ofList_eq, Assoc.insertAll_append,
    Fields.keep_insertAll_of_not_mem (Assoc.sorted_insertAll List.Pairwise.nil _),
    Fields.keep_insertAll_of_mem List.Pairwise.nil]
  · rfl
  · intro p hp
    obtain ⟨s, hs, rfl⟩ := List.mem_map.mp hp
    exact List.mem_map_of_mem (f := (·.name)) hs
  · intro p hp
    obtain ⟨s, hs, rfl⟩ := List.mem_map.mp hp
    exact hdefault s hs
  · intro p hp hmem
    obtain ⟨s, hs, rfl⟩ := List.mem_map.mp hp
    exact hnodup.2.2 _ hmem _ (List.mem_map_of_mem (f := (·.name)) hs) rfl

/-- A record recalls one with further fields: it gets the fields that it has, each with a change,
and it gets them to the same end when there are no further fields and no further flags. -/
theorem Continues.recalls_record (h : l.Continues l' extra) {Known : FieldStep → Value → Prop}
    (hc : ∀ s ∈ l.steps, Confined (member s).read)
    (hc' : ∀ s ∈ l'.steps, Confined (member' s).read)
    (hmember : ∀ s ∈ l.steps,
      Codec.Recalls false (member s) (member' s) (g s.name) (Known s))
    (hbool : ∀ s ∈ l.steps, ∀ b, g s.name (.bool b) = .bool b)
    (hdefault : ∀ s ∈ l.steps, g s.name s.default = s.default) {framed : Bool}
    (hframed : framed = false → extra = [] ∧ l'.flagsPosition = l.flagsPosition) :
    Codec.Recalls framed (l.codec member) (l'.codec member')
      (Value.keep (l.steps.map (·.name)) g)
      fun v => ∀ fields : Fields, v = .struct fields →
        ∀ s ∈ l.steps, Known s (Fields.get fields s.name) := by
  intro w v k hp hknown
  obtain ⟨found, m, n, hread, hrest, rfl⟩ := parse_bind_inv (confined_readSteps hc' _ _ _)
    (fun _ => confined_pure _) hp
  rw [parse_pure] at hrest
  cases hrest
  have hnames := h.names
  have hsorted : Assoc.Sorted l'.defaults := Assoc.sorted_ofList _
  rw [h.steps] at hread hnames
  have hextra : ∀ s ∈ extra, s.name ∉ l.steps.map (·.name) := by
    intro s hs hmem
    rw [List.map_append, List.nodup_append] at hnames
    exact hnames.2.2 _ hmem _ (List.mem_map_of_mem (f := (·.name)) hs) rfl
  obtain ⟨j, hj, hlast⟩ := h.recalls_steps hc (h.steps ▸ hc') hmember hbool hnames
    (fun s hs => List.mem_map_of_mem (f := (·.name)) hs) hextra (Nat.zero_add _) hsorted hread
    (hknown found rfl)
  rw [h.keep_defaults hdefault] at hj
  refine ⟨j + 0, ?_, fun hf => by rw [hlast (hframed hf).1 (hframed hf).2]⟩
  exact parse_bind_ok (confined_readSteps hc _ _ _) (fun _ => confined_pure _) hj

end RecordLayout

end WireSchema

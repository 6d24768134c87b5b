import WireSchema.Proofs.Cycles
import WireSchema.Proofs.Rearranged

/-!
# The least versions

Tables that differ in the versions of structs and of their fields alone are ordered by these
versions (`TypeTable.Below`).  A newer table has newer types, so a round does not lead past a settled
table that lies above (`round_below`), and the rounds lead to the least settled table above the one
they start with (`leastSettled_rounds`).

The loop over rounds has no bound of its own (`RaisesTo`).  It ends, and with the least settled table
unless a field of a compact struct is older there than its type: such a field stays as it was in all
rounds before it is found (`RaisesTo.outcome`).
-/

namespace WireSchema

theorem le_max_iff_le {a b c : UInt32} : a ≤ max b c ↔ a ≤ b ∨ a ≤ c := by
  rw [UInt32.le_iff_toNat_le, toNat_max, le_max_iff, ← UInt32.le_iff_toNat_le,
    ← UInt32.le_iff_toNat_le]

/-! ## The order of tables -/

/-- The same field, at most in a newer version. -/
structure Field.Below (f f' : Field) : Prop where
  shape : f'.shape = f.shape
  version : f.version ≤ f'.version

namespace Field

variable {f f' f'' : Field}

theorem Below.refl (f : Field) : f.Below f := ⟨rfl, UInt32.le_refl _⟩

theorem Below.trans (h : f.Below f') (h' : f'.Below f'') : f.Below f'' :=
  ⟨h'.shape.trans h.shape, UInt32.le_trans h.version h'.version⟩

theorem Below.typeName_eq (h : f.Below f') : f'.typeName = f.typeName :=
  congrArg FieldShape.typeName h.shape

theorem Below.antisymm (h : f.Below f') (h' : f'.Below f) : f = f' := by
  have hversion := UInt32.le_antisymm h.version h'.version
  have hshape := h.shape
  obtain ⟨name, typeName, required, array, version⟩ := f
  obtain ⟨name', typeName', required', array', version'⟩ := f'
  cases hshape
  cases hversion
  rfl

theorem Below.unversioned_eq (h : f.Below f') : f'.unversioned = f.unversioned := by
  have hshape := h.shape
  obtain ⟨name, typeName, required, array, version⟩ := f
  obtain ⟨name', typeName', required', array', version'⟩ := f'
  cases hshape
  rfl

end Field

/-- The same declaration, at most a struct in a newer version and with fields in newer versions. -/
inductive Declaration.Below : Declaration → Declaration → Prop
  | struct {name ns : String} {version version' : UInt32} {compact : Bool} {position : Option Nat}
      {fields fields' : List Field} (hversion : version ≤ version')
      (hfields : List.Forall₂ Field.Below fields fields') :
      Below ⟨name, ns, version, .struct ⟨compact, position, fields⟩⟩
        ⟨name, ns, version', .struct ⟨compact, position, fields'⟩⟩
  | other {d : Declaration} (h : ∀ s, d.body ≠ .struct s) : Below d d

namespace Declaration

variable {d d' d'' : Declaration}

theorem Below.refl (d : Declaration) : d.Below d := by
  obtain ⟨name, ns, version, body⟩ := d
  cases body with
  | struct s => exact .struct (UInt32.le_refl _) (List.forall₂_same.mpr fun f _ => .refl f)
  | _ => exact .other nofun

theorem Below.trans (h : d.Below d') (h' : d'.Below d'') : d.Below d'' := by
  cases h with
  | struct hversion hfields =>
    cases h' with
    | struct hversion' hfields' =>
      exact .struct (UInt32.le_trans hversion hversion')
        (forall₂_trans Field.Below.trans hfields hfields')
    | other hother => exact absurd rfl (hother _)
  | other => exact h'

theorem Below.antisymm (h : d.Below d') (h' : d'.Below d) : d = d' := by
  cases h with
  | struct hversion hfields =>
    cases h' with
    | struct hversion' hfields' =>
      have hsame := forall₂_antisymm Field.Below.antisymm hfields hfields'
      rw [UInt32.le_antisymm hversion hversion', hsame]
    | other => rfl
  | other => rfl

theorem Below.fqn_eq (h : d.Below d') : d'.fqn = d.fqn := by
  cases h <;> rfl

theorem Below.version_le (h : d.Below d') : d.version ≤ d'.version := by
  cases h with
  | struct hversion _ => exact hversion
  | other => exact UInt32.le_refl _

theorem Below.inner?_eq (h : d.Below d') : d'.body.inner? = d.body.inner? := by
  cases h <;> rfl

theorem Below.shape_eq (h : d.Below d') : d'.shape = d.shape := by
  cases h with
  | @struct name ns version version' compact position fields fields' hversion hfields =>
    have hsame : fields'.map Field.unversioned = fields.map Field.unversioned := by
      clear hversion
      induction hfields with
      | nil => rfl
      | cons hf _ ih => rw [List.map_cons, List.map_cons, hf.unversioned_eq, ih]
    simp only [shape, Body.shape, hsame]
  | other => rfl

end Declaration

namespace TypeTable

/-- The same declarations, at most structs in newer versions and with fields in newer versions. -/
def Below (t u : TypeTable) : Prop := List.Forall₂ Declaration.Below t u

variable {t u l : TypeTable}

theorem Below.refl (t : TypeTable) : t.Below t := List.forall₂_same.mpr fun d _ => .refl d

theorem Below.trans {t' : TypeTable} (h : t.Below u) (h' : u.Below t') : t.Below t' :=
  forall₂_trans Declaration.Below.trans h h'

theorem Below.antisymm (h : t.Below u) (h' : u.Below t) : t = u :=
  forall₂_antisymm Declaration.Below.antisymm h h'

theorem Below.shape_eq (h : t.Below u) : u.shape = t.shape := by
  unfold Below at h
  induction h with
  | nil => rfl
  | cons hd _ ih => exact congrArg₂ List.cons hd.shape_eq ih

theorem Below.resolve? (h : t.Below u) {name : String} {d : Declaration}
    (hd : t.resolve? name = some (.declared d)) :
    ∃ d', u.resolve? name = some (.declared d') ∧ d.Below d' := by
  obtain ⟨hname, hd⟩ := resolve?_eq_declared.mp hd
  have hfound := declaration?_forall₂ Declaration.Below.fqn_eq h name
  rw [hd] at hfound
  generalize hu : u.declaration? name = found at hfound
  cases hfound with
  | some hbelow => exact ⟨_, resolve?_eq_declared.mpr ⟨hname, hu⟩, hbelow⟩

/-- Newer tables have newer types. -/
theorem Below.effectiveVersionWithin_le (h : t.Below u) (n : Nat) (name : String) :
    t.effectiveVersionWithin n name ≤ u.effectiveVersionWithin n name := by
  induction n generalizing name with
  | zero => exact UInt32.le_refl _
  | succ n ih =>
    by_cases hdeclared : ∃ d, t.resolve? name = some (.declared d)
    · obtain ⟨d, hd⟩ := hdeclared
      obtain ⟨d', hd', hbelow⟩ := h.resolve? hd
      have hversion := hbelow.version_le
      rw [effectiveVersionWithin_declared hd, effectiveVersionWithin_declared hd',
        hbelow.inner?_eq]
      cases d.body.inner? with
      | none => exact hversion
      | some inner =>
        exact max_le_iff_le.mpr
          ⟨le_max_iff_le.mpr (.inl hversion), le_max_iff_le.mpr (.inr (ih inner))⟩
    · push Not at hdeclared
      rw [effectiveVersionWithin_undeclared hdeclared]
      exact UInt32.zero_le

theorem Below.effectiveVersion_le (h : t.Below u) (name : String) :
    t.effectiveVersion name ≤ u.effectiveVersion name := by
  rw [effectiveVersion, effectiveVersion, List.Forall₂.length_eq h]
  exact h.effectiveVersionWithin_le _ _

/-! ## Rounds -/

theorem below_raise (t : TypeTable) (d : Declaration) : d.Below (t.raise d) := by
  obtain ⟨name, ns, version, body⟩ := d
  cases body with
  | struct s =>
    rw [raise_of_struct rfl]
    refine .struct ?_ ?_
    · rw [UInt32.le_iff_toNat_le, le_toNat_foldl_max]
      exact .inl (Nat.le_refl _)
    · rw [List.forall₂_map_right_iff, List.forall₂_same]
      exact fun f _ => ⟨rfl, le_max_iff_le.mpr (.inl (UInt32.le_refl _))⟩
  | _ => exact .refl _

theorem below_round (t : TypeTable) : t.Below t.round := by
  rw [Below, round, List.forall₂_map_right_iff, List.forall₂_same]
  exact fun d _ => t.below_raise d

theorem below_rounds (t : TypeTable) (k : Nat) : t.Below (round^[k] t) := by
  induction k with
  | zero => exact .refl t
  | succ k ih =>
    rw [Function.iterate_succ_apply']
    exact ih.trans (below_round _)

/-- Raised fields do not pass newer fields that are at least as new as their types. -/
theorem raiseField_below (h : t.Below u) {fields fields' : List Field}
    (hfields : List.Forall₂ Field.Below fields fields')
    (hsettled : ∀ f ∈ fields', u.effectiveVersion f.typeName ≤ f.version) :
    List.Forall₂ Field.Below (fields.map t.raiseField) fields' := by
  induction hfields with
  | nil => exact .nil
  | @cons f f' _ _ hf _ ih =>
    obtain ⟨hhead, htail⟩ := List.forall_mem_cons.mp hsettled
    refine .cons ⟨hf.shape, max_le_iff_le.mpr ⟨hf.version, ?_⟩⟩ (ih htail)
    have htype := h.effectiveVersion_le f.typeName
    rw [hf.typeName_eq] at hhead
    exact UInt32.le_trans htype hhead

/-- A round does not lead past a settled table. -/
theorem round_below (h : t.Below u) (hu : u.Settled) : t.round.Below u := by
  have hraise : ∀ d d', d' ∈ u → d.Below d' → (t.raise d).Below d' := by
    intro d d' hd' hbelow
    cases hbelow with
    | other hother =>
      rw [raise_of_not_struct hother]
      exact .refl d
    | @struct name ns version version' compact position fields fields' hversion hfields =>
      have hnew := hu _ hd' _ rfl
      have hraised := raiseField_below h hfields fun f hf => (hnew f hf).1
      rw [raise_of_struct rfl]
      refine .struct ?_ hraised
      rw [UInt32.le_iff_toNat_le]
      rcases le_toNat_foldl_max.mp (Nat.le_refl _) with hown | ⟨x, hx, hown⟩
      · exact Nat.le_trans hown (UInt32.le_iff_toNat_le.mp hversion)
      · -- the newest field is one that the settled struct is at least as new as
        obtain ⟨f, hf, rfl⟩ := List.mem_map.mp hx
        obtain ⟨f', hf', hfield⟩ := exists_of_mem_left hraised hf
        have hle := UInt32.le_trans hfield.version (hnew f' hf').2
        exact Nat.le_trans hown (UInt32.le_iff_toNat_le.mp hle)
  rw [Below, round, List.forall₂_map_left_iff]
  have hmem : List.Forall₂ (fun d d' => d' ∈ u) t u :=
    List.forall₂_iff_zip.mpr ⟨List.Forall₂.length_eq h, fun hp => (List.of_mem_zip hp).2⟩
  exact List.Forall₂.mp (fun d d' => hraise d d') hmem h

/-- The least of the settled tables that lie above a table. -/
structure LeastSettled (t l : TypeTable) : Prop where
  above : t.Below l
  settled : l.Settled
  least : ∀ u, t.Below u → u.Settled → l.Below u

theorem LeastSettled.of_settled (hl : t.LeastSettled l) (h : t.Settled) : l = t :=
  (hl.least t (.refl t) h).antisymm hl.above

theorem LeastSettled.round (hl : t.LeastSettled l) : t.round.LeastSettled l where
  above := round_below hl.above hl.settled
  settled := hl.settled
  least u h hu := hl.least u (t.below_round.trans h) hu

theorem settled_rounds (t : TypeTable) : (TypeTable.round^[t.length + 1] t).Settled := by
  rw [Function.iterate_succ_apply']
  exact settled_round not_raises

/-- The rounds lead to the least settled table. -/
theorem leastSettled_rounds (t : TypeTable) : t.LeastSettled (TypeTable.round^[t.length + 1] t) where
  above := t.below_rounds _
  settled := t.settled_rounds
  least u h hu := by
    generalize t.length + 1 = k
    induction k with
    | zero => exact h
    | succ k ih =>
      rw [Function.iterate_succ_apply']
      exact round_below ih hu

/-! ## The loop -/

/-- What the loop over rounds ends with, however many rounds it takes: a fault as soon as a field of
a compact struct is older than its type, or else a table that a round leaves as it is. -/
inductive RaisesTo : TypeTable → Except SchemaError TypeTable → Prop
  | drift {t : TypeTable} {fqn field : String} (h : t.drift? = some (fqn, field)) :
      RaisesTo t (.error (.compactVersionDrift fqn field))
  | settled {t : TypeTable} (hdrift : t.drift? = none) (h : t.round = t) : RaisesTo t (.ok t)
  | again {t : TypeTable} {r : Except SchemaError TypeTable} (hdrift : t.drift? = none)
      (hmoved : t.round ≠ t) (h : RaisesTo t.round r) : RaisesTo t r

/-- The loop has one outcome. -/
theorem RaisesTo.unique {r r' : Except SchemaError TypeTable} (h : t.RaisesTo r)
    (h' : t.RaisesTo r') : r = r' := by
  induction h with
  | drift h =>
    cases h' with
    | drift h' =>
      rw [h] at h'
      cases h'
      rfl
    | settled hdrift _ | again hdrift _ _ =>
      rw [h] at hdrift
      cases hdrift
  | settled hdrift h =>
    cases h' with
    | drift h' =>
      rw [hdrift] at h'
      cases h'
    | settled _ _ => rfl
    | again _ hmoved _ => exact absurd h hmoved
  | again hdrift hmoved _ ih =>
    cases h' with
    | drift h' =>
      rw [hdrift] at h'
      cases h'
    | settled _ h' => exact absurd h' hmoved
    | again _ _ h' => exact ih h'

theorem raisesTo_raiseWithin {n : Nat} (h : (TypeTable.round^[n] t).Settled) :
    t.RaisesTo (raiseWithin n t) := by
  induction n generalizing t with
  | zero => exact .settled h.drift? (round_eq_self_iff.mpr h)
  | succ n ih =>
    rw [raiseWithin]
    cases hdrift : t.drift? with
    | some fault => exact .drift hdrift
    | none =>
      show t.RaisesTo (if t.round = t then _ else _)
      by_cases hround : t.round = t
      · rw [if_pos hround]
        exact .settled hdrift hround
      · rw [if_neg hround]
        exact .again hdrift hround (ih h)

/-- The loop ends with what the bounded one gives. -/
theorem raisesTo_raiseVersions (t : TypeTable) : t.RaisesTo t.raiseVersions :=
  raisesTo_raiseWithin t.settled_rounds

/-- A field of a compact struct of one table is older than its type in another. -/
def Drifts (t l : TypeTable) (fqn field : String) : Prop :=
  ∃ d ∈ t, ∃ s, d.body = .struct s ∧ s.compact = true ∧ ∃ f ∈ s.fields,
    d.fqn = fqn ∧ f.name = field ∧ f.version < l.effectiveVersion f.typeName

theorem drifts_of_drift? {fqn field : String} (h : t.drift? = some (fqn, field)) :
    t.Drifts t fqn field := by
  obtain ⟨d, hd, hfault⟩ := List.mem_flatMap.mp (List.mem_of_head? h)
  split at hfault
  · rename_i s hs
    split at hfault
    · rename_i hcompact
      obtain ⟨f, hf, hname⟩ := List.mem_map.mp hfault
      obtain ⟨hf, hold⟩ := List.mem_filter.mp hf
      obtain ⟨hfqn, hfield⟩ := Prod.mk.inj hname
      exact ⟨d, hd, s, hs, hcompact, f, hf, hfqn, hfield, of_decide_eq_true hold⟩
    · cases hfault
  · cases hfault

theorem Drifts.mono (h : l.Below u) {fqn field : String} (hd : t.Drifts l fqn field) :
    t.Drifts u fqn field := by
  obtain ⟨d, hd, s, hs, hcompact, f, hf, hfqn, hfield, hold⟩ := hd
  have hnewer := h.effectiveVersion_le f.typeName
  exact ⟨d, hd, s, hs, hcompact, f, hf, hfqn, hfield, UInt32.lt_of_lt_of_le hold hnewer⟩

/-- A round that finds no fault leaves the fields of compact structs as they are. -/
theorem drifts_round (hdrift : t.drift? = none) {fqn field : String} :
    t.round.Drifts l fqn field ↔ t.Drifts l fqn field := by
  have hkept {d : Declaration} (hd : d ∈ t) {s : StructBody} (hs : d.body = .struct s)
      (hcompact : s.compact = true) {f : Field} (hf : f ∈ s.fields) : t.raiseField f = f :=
    raiseField_eq_self_iff.mpr (drift?_eq_none_iff.mp hdrift d hd s hs hcompact f hf)
  constructor
  · rintro ⟨d', hd', s', hs', hcompact, f', hf', hfqn, hrest⟩
    obtain ⟨d, hd, rfl⟩ := List.mem_map.mp hd'
    obtain ⟨s, hs, rfl⟩ := body_raise_eq_struct.mp hs'
    obtain ⟨f, hf, rfl⟩ := List.mem_map.mp hf'
    rw [hkept hd hs hcompact hf] at hrest
    exact ⟨d, hd, s, hs, hcompact, f, hf, (fqn_raise d).symm.trans hfqn, hrest⟩
  · rintro ⟨d, hd, s, hs, hcompact, f, hf, hfqn, hrest⟩
    refine ⟨t.raise d, List.mem_map_of_mem hd, _, body_raise_eq_struct.mpr ⟨s, hs, rfl⟩, hcompact, f,
      ?_, (fqn_raise d).trans hfqn, hrest⟩
    exact List.mem_map.mpr ⟨f, hf, hkept hd hs hcompact hf⟩

/-- The loop ends with the least settled table, or with a fault if a field of a compact struct is
older than its type is there. -/
theorem RaisesTo.outcome {r : Except SchemaError TypeTable} (h : t.RaisesTo r)
    (hl : t.LeastSettled l) :
    (r = .ok l ∧ ∀ fqn field, ¬ t.Drifts l fqn field) ∨
      ∃ fqn field, r = .error (.compactVersionDrift fqn field) ∧ t.Drifts l fqn field := by
  induction h with
  | drift h => exact .inr ⟨_, _, rfl, (drifts_of_drift? h).mono hl.above⟩
  | @settled t hdrift h =>
    obtain rfl := hl.of_settled (round_eq_self_iff.mp h)
    refine .inl ⟨rfl, ?_⟩
    rintro fqn field ⟨d, hd, s, hs, hcompact, f, hf, -, -, hold⟩
    have hnew := drift?_eq_none_iff.mp hdrift d hd s hs hcompact f hf
    exact UInt32.not_lt.mpr hnew hold
  | again hdrift _ _ ih =>
    simpa only [drifts_round hdrift] using ih hl.round

/-! ## Main statement -/

/-- In a linked table without infinite types the loop over rounds ends.  There is a least settled
table above it, in which versions through aliases and arrays are what is computed; the loop ends with
that table if it succeeds, and it fails exactly when some field of a compact struct is older than its
type is there, naming such a field.  Tables in another order fail alike, or end with the same
declarations in that order. -/
theorem raiseVersions_least {t : TypeTable} (hunique : (t.map (·.fqn)).Nodup)
    (hlinked : t.checkLinked = .ok ()) (hfinite : t.checkFinite = .ok ()) :
    t.RaisesTo t.raiseVersions ∧
      (∃ l, t.LeastSettled l ∧
        (∀ name, (l.resolve? name).isSome = true → l.HasVersion name (l.effectiveVersion name)) ∧
        (∀ t', t.raiseVersions = .ok t' → t' = l) ∧
        ((∃ fault, t.raiseVersions = .error fault) ↔ ∃ fqn field, t.Drifts l fqn field) ∧
        ∀ fault, t.raiseVersions = .error fault →
          ∃ fqn field, fault = .compactVersionDrift fqn field ∧ t.Drifts l fqn field) ∧
      ∀ t' : TypeTable, t.Perm t' →
        Likewise (fun l l' : TypeTable => l.Perm l' ∧ l.map (·.fqn) = t.map (·.fqn) ∧
          l'.map (·.fqn) = t'.map (·.fqn)) t.raiseVersions t'.raiseVersions := by
  have hleast := t.leastSettled_rounds
  have hends := t.raisesTo_raiseVersions
  refine ⟨hends, ⟨_, hleast, fun name hname => ?_, ?_⟩, fun t' hperm => ?_⟩
  · have hshape := hleast.above.shape_eq
    refine hasVersion_effectiveVersion ?_ ?_ hname
    · rw [← checkLinked_shape, hshape, checkLinked_shape, hlinked]
    · rw [Finite, ← checkFinite_shape, hshape, checkFinite_shape, hfinite]
  · rcases hends.outcome hleast with ⟨hok, hnone⟩ | ⟨fqn, field, herror, hdrifts⟩
    · rw [hok]
      refine ⟨fun t' h => (Except.ok.inj h).symm, ⟨?_, ?_⟩, fun fault h => by cases h⟩
      · rintro ⟨fault, h⟩
        cases h
      · rintro ⟨fqn, field, hdrifts⟩
        exact absurd hdrifts (hnone fqn field)
    · rw [herror]
      refine ⟨fun t' h => ?_, ⟨fun _ => ⟨fqn, field, hdrifts⟩, fun _ => ⟨_, rfl⟩⟩, fun fault h => ?_⟩
      · cases h
      · cases h
        exact ⟨fqn, field, rfl, hdrifts⟩
  · have hnames {t l : TypeTable} (h : t.raiseVersions = .ok l) :
        l.map (·.fqn) = t.map (·.fqn) := names_of_shape (shape_raiseWithin h)
    have hlike := (Rearranged.mk (k := 0) hperm hunique rfl).raiseWithin (t.length + 1)
    have hlength : t.length + 1 = t'.length + 1 := by rw [hperm.length_eq]
    refine Likewise.imp (R := Rearranged 0) ?_ fun l l' hl hl' h => ⟨h.perm, hnames hl, hnames hl'⟩
    rw [raiseVersions, raiseVersions, ← hlength]
    exact hlike

/-- Books with a genre through an alias and with sequels, shelves of books through an array, and
labels of which no field may move.  The genres are of version three; the labels' own field is of the
given type, and the shelves, the books and their sequels are of the given versions. -/
def catalogue (label : String) (shelf book sequel : UInt32) : TypeTable :=
  [⟨"label", "a", 1, .struct ⟨true, none, [⟨"text", label, true, false, 1⟩]⟩⟩,
    ⟨"shelf", "a", shelf, .struct ⟨false, none, [⟨"books", "@a/books", true, false, shelf⟩]⟩⟩,
    ⟨"books", "a", 2, .array "@a/book"⟩,
    ⟨"book", "a", book, .struct ⟨false, some 1,
      [⟨"tag", "@a/tag", true, false, book⟩, ⟨"sequel", "@a/book", false, false, sequel⟩]⟩⟩,
    ⟨"tag", "a", 1, .alias "@a/genre"⟩,
    ⟨"genre", "a", 3, .enum ⟨[⟨"essay", 1⟩, ⟨"novel", 3⟩], 1, false⟩⟩]

theorem raiseVersions_least_catalogue :
    (catalogue "string" 1 1 1).LeastSettled (catalogue "string" 3 3 3) ∧
      ∃ l, (catalogue "@a/books" 1 1 1).LeastSettled l ∧
        (catalogue "@a/books" 1 1 1).Drifts l "@a/label" "text" := by
  have hraised : (catalogue "string" 1 1 1).raiseVersions = .ok (catalogue "string" 3 3 3) := by
    -- what refers to books is raised a round after them
    have hfirst : (catalogue "string" 1 1 1).round = catalogue "string" 2 3 1 := by
      decide +kernel
    have hsecond : (catalogue "string" 2 3 1).round = catalogue "string" 3 3 3 := by
      decide +kernel
    have hlast : (catalogue "string" 3 3 3).round = catalogue "string" 3 3 3 := by
      decide +kernel
    refine (raisesTo_raiseVersions _).unique (.again (by decide +kernel) ?_ ?_)
    · rw [hfirst]
      decide +kernel
    · rw [hfirst]
      refine .again (by decide +kernel) ?_ ?_
      · rw [hsecond]
        decide +kernel
      · rw [hsecond]
        exact .settled (by decide +kernel) hlast
  have hfault : (catalogue "@a/books" 1 1 1).raiseVersions =
      .error (.compactVersionDrift "@a/label" "text") := by decide +kernel
  obtain ⟨-, ⟨l, hleast, -, hok, -, -⟩, -⟩ := raiseVersions_least (t := catalogue "string" 1 1 1)
    (by decide +kernel) (by decide +kernel) (by decide +kernel)
  obtain ⟨-, ⟨l', hleast', -, -, -, herror⟩, -⟩ :=
    raiseVersions_least (t := catalogue "@a/books" 1 1 1) (by decide +kernel) (by decide +kernel)
      (by decide +kernel)
  obtain ⟨fqn, field, heq, hdrifts⟩ := herror _ hfault
  cases heq
  exact ⟨hok _ hraised ▸ hleast, l', hleast', hdrifts⟩

end TypeTable

end WireSchema

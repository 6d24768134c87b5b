import WireSchema.Builder
import WireSchema.Proofs.Admission

/-!
# Tables under construction

A call to a builder reads and checks first and commits only what it has vetted, so a call that fails
leaves the builder as it was, however far it came (`Call.clean_run`).  A call that succeeds takes a
table of well-formed declarations with distinct names to such a table that extends it
(`perform_wellFormed`, `perform_extends`), and so does a run of calls, some of which may fail
(`after_extends`).
-/

namespace WireSchema

namespace Builder

open Attempt TypeTable

/-! ## Placing a declaration -/

theorem place_of_some {t : TypeTable} {d p : Declaration} (h : t.declaration? d.fqn = some p) :
    place t d = t.map fun e => if e.fqn == d.fqn then d else e := by
  rw [place, h]
  rfl

theorem place_of_none {t : TypeTable} {d : Declaration} (h : t.declaration? d.fqn = none) :
    place t d = t ++ [d] := by
  rw [place, h]
  rfl

/-- The table holds what is placed, and of the rest what has another name. -/
theorem mem_place {t : TypeTable} {d e : Declaration} :
    e ∈ place t d ↔ e = d ∨ e ∈ t ∧ e.fqn ≠ d.fqn := by
  cases hp : t.declaration? d.fqn with
  | none =>
    have hnew : ∀ x ∈ t, x.fqn ≠ d.fqn := fun x hx hfqn =>
      TypeTable.declaration?_eq_none_iff.mp hp (hfqn ▸ List.mem_map_of_mem hx)
    rw [place_of_none hp, List.mem_append, List.mem_singleton, or_comm]
    exact or_congr_right ⟨fun he => ⟨he, hnew e he⟩, And.left⟩
  | some p =>
    obtain ⟨hmem, hfqn⟩ := TypeTable.mem_of_declaration? hp
    rw [place_of_some hp, List.mem_map]
    constructor
    · rintro ⟨x, hx, rfl⟩
      split
      · exact .inl rfl
      · rename_i hne
        exact .inr ⟨hx, by simpa using hne⟩
    · rintro (rfl | ⟨he, hne⟩)
      · exact ⟨p, hmem, if_pos (by simpa using hfqn)⟩
      · exact ⟨e, he, if_neg (by simpa using hne)⟩

theorem place_extends {t : TypeTable} (ht : t.WellFormed) {d : Declaration}
    (h : ∀ p, t.declaration? d.fqn = some p → p.body.Extends d.body) : t.Extends (place t d) := by
  intro i e he
  cases hp : t.declaration? d.fqn with
  | none =>
    rw [place_of_none hp]
    have hlt := (List.getElem?_eq_some_iff.mp he).1
    exact ⟨e, by rw [List.getElem?_append_left hlt, he], .refl e⟩
  | some p =>
    rw [place_of_some hp, List.getElem?_map, he]
    refine ⟨_, rfl, ?_⟩
    dsimp only
    split
    · rename_i heq
      have hfqn : e.fqn = d.fqn := by simpa using heq
      -- names are distinct, so this is the earlier declaration
      have hep := ht.declaration?_of_mem (List.mem_of_getElem? he)
      rw [hfqn] at hep
      exact ⟨hfqn.symm, h e hep⟩
    · exact .refl e

theorem place_wellFormed {t : TypeTable} (ht : t.WellFormed) {d : Declaration}
    (hd : d.body.WellFormed) : (place t d).WellFormed := by
  cases hp : t.declaration? d.fqn with
  | none =>
    rw [place_of_none hp]
    constructor
    · rw [List.map_append]
      refine List.nodup_append.mpr ⟨ht.unique, List.pairwise_singleton _ _, fun a ha b hb => ?_⟩
      rw [List.mem_singleton.mp hb]
      rintro rfl
      exact declaration?_eq_none_iff.mp hp ha
    · intro e he
      rcases List.mem_append.mp he with he | he
      · exact ht.bodies e he
      · rw [List.mem_singleton.mp he]
        exact hd
  | some p =>
    rw [place_of_some hp]
    constructor
    · have hnames : (t.map fun e => if e.fqn == d.fqn then d else e).map (·.fqn) =
          t.map (·.fqn) := by
        rw [List.map_map]
        refine List.map_congr_left fun e _ => ?_
        simp only [Function.comp_apply]
        split
        · rename_i heq
          exact (beq_iff_eq.mp heq).symm
        · rfl
      rw [hnames]
      exact ht.unique
    · intro e he
      obtain ⟨x, hx, rfl⟩ := List.mem_map.mp he
      split
      · exact hd
      · exact ht.bodies x hx

/-! ## Registering -/

theorem home_eq_ok_iff {d : Description} {ns : String} : home d = .ok ns ↔ d.ns = some ns := by
  unfold home
  cases d.ns <;> simp

theorem checkFree_eq_ok_iff {taken : Bool} {fqn : String} :
    checkFree taken fqn = .ok () ↔ taken = false := by
  cases taken <;> simp [checkFree]

/-- What is admitted of a description once everything else about it is right. -/
def vetted (b : Builder) (taken : Bool) (previous : Option Declaration) (d : Description) :
    Except SchemaError (Declaration × Session) := do
  let ns ← home d
  b.checkHome ns
  checkNames (ns :: d.name :: d.fieldNames)
  checkFree taken d.fqn
  Admission.accept { revision := b.revision } previous d

/-- The builder after a declaration was admitted, with the table that holds it. -/
def commit (b : Builder) (types : TypeTable) (fqn : String) (session : Session) : Builder :=
  { b with
    revision := session.revision, types
    registered := if b.revision.replaying then b.registered else b.registered ++ [fqn]
    changes := b.changes ++ session.changes }

/-- A session changes nothing of the builder. -/
theorem reads_inSession {α : Type} (x : SessionM α) : Reads (BuilderM.inSession x) := by
  refine Reads.bind reads_get fun b => ?_
  exact Reads.bind (reads_check _) fun _ => reads_pure _

theorem reads_vet (taken : Bool) (previous : Option Declaration) (d : Description) :
    Reads (BuilderM.vet taken previous d) := by
  refine Reads.bind reads_get fun b => ?_
  refine Reads.bind (reads_check _) fun ns => ?_
  refine Reads.bind (reads_check _) fun _ => ?_
  refine Reads.bind (reads_check _) fun _ => ?_
  refine Reads.bind (reads_check _) fun _ => ?_
  exact reads_inSession _

/-- A session that succeeds gives what it gives on its own. -/
theorem result_inSession {α : Type} (x : SessionM α) (b : Builder) :
    (BuilderM.inSession x).result b =
      (x.result { revision := b.revision }).map fun p => (p, b) := by
  unfold BuilderM.inSession
  rw [result_bind, result_of_ok (runFrom_get b), ok_bind]
  rcases h : x.runFrom { revision := b.revision } with ⟨e | a, session⟩
  · rw [result_of_error h]
    rfl
  · rw [result_of_ok h]
    rfl

theorem result_vet (b : Builder) (taken : Bool) (previous : Option Declaration) (d : Description) :
    (BuilderM.vet taken previous d).result b =
      (b.vetted taken previous d).map fun p => (p, b) := by
  unfold BuilderM.vet vetted
  rw [result_bind, result_of_ok (runFrom_get b), ok_bind]
  simp only [result_check_bind, result_inSession, map_of_bind, Admission.accept]

theorem register_eq_vetted (b : Builder) (d : Description) :
    b.register d = (b.vetted (b.isTaken d.fqn) (b.types.declaration? d.fqn) d).map fun p =>
      b.commit (place b.types p.1) d.fqn p.2 := by
  unfold register BuilderM.register
  rw [next, result_bind, result_of_ok (runFrom_get b), ok_bind, result_bind, result_vet]
  cases b.vetted (b.isTaken d.fqn) (b.types.declaration? d.fqn) d <;> rfl

/-- A description passes when its names are right, its own is not taken and it is admitted. -/
theorem vetted_inv {b : Builder} {taken : Bool} {previous : Option Declaration} {d : Description}
    {p : Declaration × Session} (h : b.vetted taken previous d = .ok p) :
    ∃ ns, d.ns = some ns ∧ checkNames (ns :: d.name :: d.fieldNames) = .ok () ∧ taken = false ∧
      Admission.accept { revision := b.revision } previous d = .ok p := by
  obtain ⟨ns, hns, h⟩ := ok_of_bind h
  obtain ⟨⟨⟩, -, h⟩ := ok_of_bind h
  obtain ⟨⟨⟩, hnames, h⟩ := ok_of_bind h
  obtain ⟨⟨⟩, htaken, haccept⟩ := ok_of_bind h
  exact ⟨ns, home_eq_ok_iff.mp hns, hnames, checkFree_eq_ok_iff.mp htaken, haccept⟩

/-- A description is registered when it passes; what was admitted is placed in the table. -/
theorem register_inv {b b' : Builder} {d : Description} (h : b.register d = .ok b') :
    ∃ ns declaration session, d.ns = some ns ∧
      checkNames (ns :: d.name :: d.fieldNames) = .ok () ∧ b.isTaken d.fqn = false ∧
      Admission.accept { revision := b.revision } (b.types.declaration? d.fqn) d =
        .ok (declaration, session) ∧
      b'.types = place b.types declaration ∧ b'.revision = session.revision ∧
      b'.changes = b.changes ++ session.changes := by
  rw [register_eq_vetted] at h
  obtain ⟨⟨declaration, session⟩, hvetted, rfl⟩ := ok_of_map h
  obtain ⟨ns, hns, hnames, htaken, haccept⟩ := vetted_inv hvetted
  exact ⟨ns, declaration, session, hns, hnames, htaken, haccept, rfl, rfl, rfl⟩

theorem register_wellFormed {b b' : Builder} {d : Description} (h : b.register d = .ok b')
    (hb : b.types.WellFormed) : b'.types.WellFormed := by
  obtain ⟨-, declaration, session, -, -, -, haccept, htypes, -⟩ := register_inv h
  rw [htypes]
  refine place_wellFormed hb (Admission.accept_wellFormed haccept fun p hp => ?_)
  exact hb.bodies p (mem_of_declaration? hp).1

theorem register_extends {b b' : Builder} {d : Description} (h : b.register d = .ok b')
    (hb : b.types.WellFormed) : b.types.Extends b'.types := by
  obtain ⟨-, declaration, session, -, -, -, haccept, htypes, -⟩ := register_inv h
  rw [htypes]
  refine place_extends hb fun p hp => ?_
  rw [Admission.fqn_of_accept haccept] at hp
  rw [hp] at haccept
  exact Admission.accept_extends haccept

/-- What every registration preserves of the table, a run of registrations preserves. -/
theorem registerAll_induction {P : TypeTable → Prop}
    (hstep : ∀ {b b' : Builder} {d : Description}, b.register d = .ok b' → P b.types → P b'.types)
    {b b' : Builder} {ds : List Description} (h : b.registerAll ds = .ok b') (hb : P b.types) :
    P b'.types := by
  induction ds generalizing b with
  | nil =>
    cases h
    exact hb
  | cons d rest ih =>
    rw [registerAll, List.foldlM_cons] at h
    obtain ⟨b₁, h₁, h⟩ := ok_of_bind h
    exact ih h (hstep h₁ hb)

/-! ## Calls -/

/-- A call to a builder. -/
inductive Call where
  | declareNamespace (name : String)
  | openNamespace (name : String)
  | requireModule (name modulePath : String)
  | register (d : Description)
  | registerIn (ns : String) (d : Description)

/-- Makes a call. -/
def Call.run : Call → BuilderM Unit
  | .declareNamespace name => BuilderM.declareNamespace name
  | .openNamespace name => BuilderM.openNamespace name
  | .requireModule name modulePath => BuilderM.requireModule name modulePath
  | .register d => do
    let _ ← BuilderM.register d
  | .registerIn ns d => do
    let _ ← BuilderM.registerIn ns d

/-- The builder after a call that succeeds. -/
def perform (b : Builder) (c : Call) : Except SchemaError Builder := c.run.next b

/-- The description that a call registers, under the namespace that it is registered in. -/
def Call.description? : Call → Option Description
  | .register d => some d
  | .registerIn ns d => some { d with ns := some ns }
  | _ => none

theorem declareNamespace_eq (b : Builder) (name : String) :
    b.declareNamespace name = Name.check name >>= fun _ =>
      if (b.namespaces.lookup name).isSome then .error (.namespaceExists name)
      else .ok { b with namespaces := Assoc.insert name none b.namespaces } := by
  unfold declareNamespace BuilderM.declareNamespace
  rw [next_check_bind]
  simp only [next_get_bind]
  split <;> rfl

theorem perform_openNamespace (b : Builder) (name : String) :
    b.perform (.openNamespace name) = (b.checkNamespace name).map fun _ => b :=
  next_check _ b

theorem perform_register (b : Builder) (d : Description) :
    b.perform (.register d) = b.register d :=
  next_bind_pure _ _ b

theorem perform_registerIn (b : Builder) (ns : String) (d : Description) :
    b.perform (.registerIn ns d) =
      b.checkNamespace ns >>= fun _ => b.register { d with ns := some ns } :=
  (next_bind_pure _ _ b).trans (next_check_bind _ _ b)

/-- A call registers a description or changes nothing but namespaces. -/
theorem perform_cases {b b' : Builder} {c : Call} (h : b.perform c = .ok b') :
    (∃ d, c.description? = some d ∧ b.register d = .ok b') ∨
      c.description? = none ∧ b'.types = b.types ∧ b'.registered = b.registered ∧
        b'.revision = b.revision ∧ b'.changes = b.changes := by
  cases c with
  | declareNamespace name =>
    refine .inr ?_
    replace h := (declareNamespace_eq b name).symm.trans h
    obtain ⟨⟨⟩, -, h⟩ := ok_of_bind h
    split at h
    · cases h
    · cases h
      exact ⟨rfl, rfl, rfl, rfl, rfl⟩
  | openNamespace name =>
    rw [perform_openNamespace] at h
    obtain ⟨⟨⟩, -, rfl⟩ := ok_of_map h
    exact .inr ⟨rfl, rfl, rfl, rfl, rfl⟩
  | requireModule name modulePath =>
    cases h
    exact .inr ⟨rfl, rfl, rfl, rfl, rfl⟩
  | register d => exact .inl ⟨d, rfl, perform_register b d ▸ h⟩
  | registerIn ns d =>
    rw [perform_registerIn] at h
    obtain ⟨⟨⟩, -, h⟩ := ok_of_bind h
    exact .inl ⟨_, rfl, h⟩

theorem perform_wellFormed {b b' : Builder} {c : Call} (h : b.perform c = .ok b')
    (hb : b.types.WellFormed) : b'.types.WellFormed := by
  rcases perform_cases h with ⟨d, -, h⟩ | ⟨-, h, -⟩
  · exact register_wellFormed h hb
  · rw [h]
    exact hb

theorem perform_extends {b b' : Builder} {c : Call} (h : b.perform c = .ok b')
    (hb : b.types.WellFormed) : b.types.Extends b'.types := by
  rcases perform_cases h with ⟨d, -, h⟩ | ⟨-, h, -⟩
  · exact register_extends h hb
  · rw [h]
    exact .refl _

/-! ## Calls that fail -/

theorem clean_declareNamespace (name : String) : Clean (BuilderM.declareNamespace name) := by
  refine .after_reading (reads_check _) fun _ => .after_reading reads_get fun b => ?_
  dsimp only
  split
  · exact Reads.clean (moves_throw (fun _ => rfl) _)
  · exact (sure_modify _).clean

theorem clean_openNamespace (name : String) : Clean (BuilderM.openNamespace name) :=
  .after_reading reads_get fun _ => (reads_check _).clean

/-- A registration that fails changes nothing: everything is checked, and admitted in a session of
its own, before the first change. -/
theorem clean_register (d : Description) : Clean (BuilderM.register d) := by
  refine .after_reading reads_get fun b => .after_reading (reads_vet _ _ _) fun p => Sure.clean ?_
  refine Sure.bind ((sure_modify _).bind fun _ => sure_modify _) fun _ => ?_
  exact (sure_modify _).bind fun _ => (sure_modify _).bind fun _ => sure_pure _

theorem clean_registerIn (ns : String) (d : Description) : Clean (BuilderM.registerIn ns d) :=
  .after_reading (.bind reads_get fun _ => reads_check _) fun _ => clean_register _

/-- A call that fails leaves the builder as it was. -/
theorem Call.clean_run (c : Call) : Clean c.run := by
  cases c with
  | declareNamespace name => exact clean_declareNamespace name
  | openNamespace name => exact clean_openNamespace name
  | requireModule name modulePath => exact (sure_modify _).clean
  | register d => exact (clean_register d).before_sure fun _ => sure_pure _
  | registerIn ns d => exact (clean_registerIn ns d).before_sure fun _ => sure_pure _

/-- A call that registers nothing leaves the table alone. -/
theorem Call.leaves_types {c : Call} (hc : c.description? = none) (b : Builder) :
    (c.run.leaves b).types = b.types := by
  rw [c.clean_run.leaves_eq]
  cases h : c.run.next b with
  | error e => rfl
  | ok b' =>
    rcases perform_cases h with ⟨d, hd, -⟩ | ⟨-, htypes, -⟩
    · rw [hc] at hd
      cases hd
    · exact htypes

/-! ## Runs of calls -/

/-- The builder that a run of calls leaves; a call goes on from what the one before has left, also
where that one has failed. -/
def after (b : Builder) (calls : List Call) : Builder :=
  calls.foldl (fun b c => c.run.leaves b) b

theorem after_cons (b : Builder) (c : Call) (calls : List Call) :
    b.after (c :: calls) = ((b.perform c).toOption.getD b).after calls := by
  rw [perform, ← c.clean_run.leaves_eq]
  rfl

/-- What every successful call preserves, a run preserves. -/
theorem after_induction {P : Builder → Prop} (hstep : ∀ b b' c, b.perform c = .ok b' → P b → P b')
    {b : Builder} (calls : List Call) (hb : P b) : P (b.after calls) := by
  induction calls generalizing b with
  | nil => exact hb
  | cons c rest ih =>
    rw [after_cons]
    cases h : b.perform c with
    | error e => exact ih hb
    | ok b' => exact ih (hstep b b' c h hb)

/-- A run of calls takes nothing away and changes nothing. -/
theorem after_extends {b : Builder} (calls : List Call) (hb : b.types.WellFormed) :
    b.types.Extends (b.after calls).types := by
  have hall := after_induction
    (P := fun b' => b'.types.WellFormed ∧ b.types.Extends b'.types)
    (fun _ _ _ h hP => ⟨perform_wellFormed h hP.1, hP.2.trans (perform_extends h hP.1)⟩) calls
    ⟨hb, .refl _⟩
  exact hall.2

/-- The builders that calls lead to, from nothing or from a snapshot. -/
inductive Reachable : Builder → Prop
  | fresh (versioned : Bool) : Reachable (fresh versioned)
  | ofSnapshot {s : Snapshot} {versioned : Bool} {b : Builder}
      (h : Builder.ofSnapshot s versioned = .ok b) : Reachable b
  | call {b b' : Builder} {c : Call} (h : Reachable b) (hc : b.perform c = .ok b') : Reachable b'

theorem Reachable.after {b : Builder} (h : b.Reachable) (calls : List Call) :
    (b.after calls).Reachable :=
  after_induction (fun _ _ _ hc hb => .call hb hc) calls h

/-- What the empty table has and every registration preserves, every table under construction
has. -/
theorem Reachable.types_induction {P : TypeTable → Prop} (hnil : P [])
    (hstep : ∀ {b b' : Builder} {d : Description}, b.register d = .ok b' → P b.types → P b'.types)
    {b : Builder} (h : b.Reachable) : P b.types := by
  induction h with
  | fresh versioned => exact hnil
  | ofSnapshot h =>
    obtain ⟨b₁, h₁, h⟩ := ok_of_bind h
    cases h
    have hb₁ : P b₁.types := registerAll_induction hstep h₁ hnil
    exact hb₁
  | call _ hc ih =>
    rcases perform_cases hc with ⟨d, -, hd⟩ | ⟨-, htypes, -⟩
    · exact hstep hd ih
    · rw [htypes]
      exact ih

theorem Reachable.wellFormed {b : Builder} (h : b.Reachable) : b.types.WellFormed :=
  h.types_induction ⟨List.nodup_nil, nofun⟩ register_wellFormed

end Builder

end WireSchema

import WireSchema.Proofs.Rearranged
import WireSchema.Proofs.Stamps

/-!
# The order of registrations

What a registration admits depends on the earlier declaration of its name and on whether the build
has raised its version yet, and the latter shows neither in what is admitted nor in what is logged
(`Admission.accept_later`).  So descriptions of distinct names are accepted or refused each on its
own, and what is registered in one go can be told from the builder at the start
(`Builder.after_registers`): known declarations are replaced in their places and new ones stand
behind them.  Another order gives the same table but for the order of the new declarations, and the
same schema in all that it reads and writes (`Builder.build_in_any_order`).
-/

namespace WireSchema

/-! ## Sessions with a raised version -/

/-- The session after something else was stamped. -/
def Session.later (s : Session) : Session := ⟨s.revision.bump, s.changes⟩

namespace Session

variable {s : Session} (hr : s.revision.replaying = false)

include hr

theorem stamp_later (persisted : Option UInt32) (kind : ChangeKind) (fqn : String)
    (member : Option String) :
    s.later.stamp persisted kind fqn member = s.stamp persisted kind fqn member := by
  have hr' : s.later.revision.replaying = false := (Revision.replaying_bump _).trans hr
  rw [stamp_of_started hr, stamp_of_started hr']
  simp only [later, Revision.bump_bump]

theorem later_stamp (persisted : Option UInt32) (kind : ChangeKind) (fqn : String)
    (member : Option String) :
    (s.stamp persisted kind fqn member).2.later = (s.stamp persisted kind fqn member).2 := by
  rw [stamp_of_started hr]
  simp only [later, Revision.bump_bump]

end Session

namespace Admission

open Attempt

/-- After another stamp the same comes of it, and the same is logged. -/
theorem Stamping.runFrom_later {α : Type} {x : SessionM α} (h : Stamping x) {s : Session}
    (hr : s.revision.replaying = false) :
    x.runFrom s.later = ((x.runFrom s).1, (x.runFrom s).2.later) := by
  induction h generalizing s with
  | pure a => rfl
  | throw e => rfl
  | stamp persisted kind fqn member =>
    rw [SessionM.stamp, runFrom_modifyGet, runFrom_modifyGet, Session.stamp_later hr,
      Session.later_stamp hr]
  | read hf =>
    have hsame := hf s.later s (Revision.replaying_bump _)
    rw [runFrom_bind_ok (runFrom_get _), runFrom_bind_ok (runFrom_get _), hsame]
    rfl
  | @bind α β x f hx hf ihx ihf =>
    have hstamps := hx.moves s
    have hlater := ihx hr
    rw [leaves] at hstamps
    rcases hrun : x.runFrom s with ⟨e | a, s'⟩
    · rw [hrun] at hlater
      rw [runFrom_bind_error hlater, runFrom_bind_error hrun]
    · rw [hrun] at hlater hstamps
      rw [runFrom_bind_ok hlater, runFrom_bind_ok hrun]
      exact ihf a (hstamps.replaying_eq.trans hr)

theorem accept_later {s : Session} (hr : s.revision.replaying = false)
    (previous : Option Declaration) (d : Description) :
    accept s.later previous d = (accept s previous d).map fun p => (p.1, p.2.later) := by
  have hlater := (stamping_admitDescription previous d).runFrom_later hr
  unfold accept
  rcases hrun : (admitDescription previous d).runFrom s with ⟨e | declaration, s'⟩
  · rw [hrun] at hlater
    rw [result_of_error hrun, result_of_error hlater]
    rfl
  · rw [hrun] at hlater
    rw [result_of_ok hrun, result_of_ok hlater]
    rfl

end Admission

/-! ## Placing declarations -/

namespace TypeTable

theorem declaration?_cons (d : Declaration) (t : TypeTable) (name : String) :
    declaration? (d :: t) name = if d.fqn = name then some d else t.declaration? name := by
  unfold declaration?
  by_cases h : d.fqn = name
  · rw [if_pos h, List.find?_cons_of_pos (by simpa using h)]
  · rw [if_neg h, List.find?_cons_of_neg (by simpa using h)]

/-- Placing a declaration changes what is found under its name alone. -/
theorem declaration?_place {t : TypeTable} {d : Declaration} {name : String} (h : name ≠ d.fqn) :
    (Builder.place t d).declaration? name = t.declaration? name := by
  cases hd : t.declaration? d.fqn with
  | none =>
    have hnone : declaration? [d] name = none := by
      rw [declaration?_cons, if_neg h.symm]
      rfl
    rw [Builder.place_of_none hd, declaration?, List.find?_append]
    exact (congrArg ((t.declaration? name).or ·) hnone).trans (Option.or_none)
  | some p =>
    have hnames : ((fun e : Declaration => e.fqn == name) ∘
        fun e => if e.fqn == d.fqn then d else e) = fun e => e.fqn == name := by
      funext e
      simp only [Function.comp_apply]
      split
      · rename_i heq
        rw [beq_iff_eq.mp heq]
      · rfl
    rw [Builder.place_of_some hd, declaration?, List.find?_map, hnames]
    cases he : t.declaration? name with
    | none => exact congrArg (Option.map _) he
    | some e =>
      have hne : ¬ (e.fqn == d.fqn) = true := by
        rw [(mem_of_declaration? he).2]
        simpa using h
      exact (congrArg (Option.map _) he).trans (congrArg some (if_neg hne))

/-- Declarations of distinct names that are placed one after the other replace what was known in its
place, and the new ones stand behind it in order. -/
theorem foldl_place {ds : List Declaration} (hds : (ds.map (·.fqn)).Nodup) (t : TypeTable) :
    ds.foldl Builder.place t =
      (t.map fun e => (declaration? ds e.fqn).getD e) ++
        ds.filter fun d => (t.declaration? d.fqn).isNone := by
  induction ds generalizing t with
  | nil => simp [declaration?]
  | cons d rest ih =>
    rw [List.map_cons, List.nodup_cons] at hds
    obtain ⟨hd, hrest⟩ := hds
    have hgone : declaration? rest d.fqn = none := declaration?_eq_none_iff.mpr hd
    have hnew : rest.filter (fun e => ((Builder.place t d).declaration? e.fqn).isNone) =
        rest.filter fun e => (t.declaration? e.fqn).isNone := by
      refine List.filter_congr fun e he => ?_
      rw [declaration?_place fun heq => hd (heq ▸ List.mem_map_of_mem he)]
    rw [List.foldl_cons, ih hrest, hnew]
    cases hknown : t.declaration? d.fqn with
    | none =>
      have hkept : t.map (fun e => (declaration? (d :: rest) e.fqn).getD e) =
          t.map fun e => (declaration? rest e.fqn).getD e := by
        refine List.map_congr_left fun e he => ?_
        have hne : d.fqn ≠ e.fqn := fun heq =>
          declaration?_eq_none_iff.mp hknown (heq ▸ List.mem_map_of_mem he)
        rw [declaration?_cons, if_neg hne]
      rw [Builder.place_of_none hknown, hkept, List.map_append,
        List.filter_cons_of_pos (by rw [hknown]; rfl), List.append_assoc]
      simp [hgone]
    | some p =>
      rw [Builder.place_of_some hknown, List.map_map,
        List.filter_cons_of_neg (by rw [hknown]; exact Bool.false_ne_true)]
      congr 1
      refine List.map_congr_left fun e _ => ?_
      rw [Function.comp_apply, declaration?_cons]
      by_cases heq : e.fqn = d.fqn
      · simp [heq, hgone]
      · simp [heq, Ne.symm heq]

/-- The order in which declarations of distinct names are placed decides only where the new ones
stand. -/
theorem rearranged_place {t : TypeTable} {ds ds' : List Declaration} (hperm : ds.Perm ds')
    (hds : (ds.map (·.fqn)).Nodup) (hunique : ((ds.foldl Builder.place t).map (·.fqn)).Nodup) :
    Rearranged t.length (ds.foldl Builder.place t) (ds'.foldl Builder.place t) := by
  have hds' : (ds'.map (·.fqn)).Nodup := (hperm.map _).nodup_iff.mp hds
  have hfound : (fun e : Declaration => (declaration? ds' e.fqn).getD e) =
      fun e => (declaration? ds e.fqn).getD e := by
    funext e
    rw [declaration?_perm hperm hds]
  rw [foldl_place hds] at hunique ⊢
  rw [foldl_place hds', hfound]
  refine ⟨(hperm.filter _).append_left _, hunique, ?_⟩
  rw [List.take_left' (List.length_map _), List.take_left' (List.length_map _)]

end TypeTable

/-! ## Registering in one go -/

namespace Builder

/-- What is checked of a description before it is held against an earlier declaration. -/
def checkEntry (b : Builder) (d : Description) : Except SchemaError Unit := do
  let ns ← home d
  b.checkNamespace ns
  checkNames (ns :: d.name :: d.fieldNames)
  checkFree (b.registered.contains d.fqn) d.fqn

/-- What is admitted of a description, and the session after it. -/
def verdict (b : Builder) (d : Description) : Except SchemaError (Declaration × Session) := do
  b.checkEntry d
  Admission.accept { revision := b.revision } (b.types.declaration? d.fqn) d

/-- The builder with what was admitted. -/
def keep (b : Builder) (p : Declaration × Session) : Builder :=
  { b with
    revision := p.2.revision, types := place b.types p.1,
    registered := b.registered ++ [p.1.fqn], changes := b.changes ++ p.2.changes }

variable {b : Builder}

theorem verdict_inv {d : Description} {p : Declaration × Session} (h : b.verdict d = .ok p) :
    p.1.fqn = d.fqn ∧ Session.Stamps { revision := b.revision } p.2 := by
  obtain ⟨⟨⟩, -, h⟩ := ok_of_bind h
  exact ⟨Admission.fqn_of_accept h, Admission.accept_stamps h⟩

section Started

variable (hr : b.revision.replaying = false)

include hr

theorem register_eq (d : Description) : b.register d = (b.verdict d).map b.keep := by
  have hnot : ¬ b.revision.replaying = true := by simp [hr]
  have htaken : b.isTaken d.fqn = b.registered.contains d.fqn := if_neg hnot
  have hvetted : b.vetted (b.isTaken d.fqn) (b.types.declaration? d.fqn) d = b.verdict d := by
    have hhome : b.checkHome = b.checkNamespace := funext fun _ => if_neg hnot
    simp only [vetted, verdict, checkEntry, htaken, hhome, bind_assoc]
  rw [register_eq_vetted, hvetted]
  cases hv : b.verdict d with
  | error e => rfl
  | ok p =>
    show Except.ok (b.commit (place b.types p.1) d.fqn p.2) = .ok (b.keep p)
    rw [commit, keep, (verdict_inv hv).1, if_neg hnot]

/-- What was kept of one description leaves the verdict on another as it was, up to a raised
version. -/
theorem verdict_keep {d d' : Description} {p : Declaration × Session} (hp : b.verdict d = .ok p)
    (hne : d'.fqn ≠ d.fqn) :
    (b.keep p).verdict d' =
      (b.verdict d').map fun q => (q.1, if p.2.changes = [] then q.2 else q.2.later) := by
  obtain ⟨hfqn, hstamps⟩ := verdict_inv hp
  have hentry : (b.keep p).checkEntry d' = b.checkEntry d' := by
    have hcontains :
        (b.registered ++ [p.1.fqn]).contains d'.fqn = b.registered.contains d'.fqn := by
      rw [hfqn]
      simp [hne]
    unfold checkEntry keep checkNamespace
    dsimp only
    rw [hcontains]
  have hfound : (b.keep p).types.declaration? d'.fqn = b.types.declaration? d'.fqn :=
    TypeTable.declaration?_place (hfqn ▸ hne)
  unfold verdict
  rw [hentry, hfound]
  cases b.checkEntry d' with
  | error e => rfl
  | ok _ =>
    rw [ok_bind, ok_bind]
    have htally : Session.Tally b.revision p.2 := .stamps hr .idle hstamps
    obtain ⟨declaration, session⟩ := p
    cases htally with
    | idle =>
      show Admission.accept { revision := b.revision } (b.types.declaration? d'.fqn) d' =
        (Admission.accept { revision := b.revision } (b.types.declaration? d'.fqn) d').map
          fun q => (q.1, q.2)
      cases Admission.accept { revision := b.revision } (b.types.declaration? d'.fqn) d' <;> rfl
    | counted hchanges _ =>
      simp only [if_neg hchanges]
      exact Admission.accept_later (s := { revision := b.revision }) hr _ d'

theorem keep_started {d : Description} {p : Declaration × Session} (hp : b.verdict d = .ok p) :
    (b.keep p).revision.replaying = false :=
  (verdict_inv hp).2.replaying_eq.trans hr

end Started

/-- What registering a description would declare and log, when it is accepted. -/
def admission? (b : Builder) (d : Description) : Option (Declaration × List Change) :=
  (b.verdict d).toOption.map fun p => (p.1, p.2.changes)

theorem admission?_of_ok {d : Description} {p : Declaration × Session} (h : b.verdict d = .ok p) :
    b.admission? d = some (p.1, p.2.changes) := by
  rw [admission?, h]
  rfl

theorem admission?_of_error {d : Description} {e : SchemaError} (h : b.verdict d = .error e) :
    b.admission? d = none := by
  rw [admission?, h]
  rfl

theorem fqn_of_admission? {d : Description} {added : Declaration × List Change}
    (h : b.admission? d = some added) : added.1.fqn = d.fqn := by
  cases hv : b.verdict d with
  | error e =>
    rw [admission?_of_error hv] at h
    cases h
  | ok p =>
    rw [admission?_of_ok hv] at h
    cases h
    exact (verdict_inv hv).1

theorem names_admitted (b : Builder) (ds : List Description) :
    ((ds.filterMap b.admission?).map (·.1.fqn)).Sublist (ds.map (·.fqn)) := by
  induction ds with
  | nil => exact .slnil
  | cons d rest ih =>
    cases h : b.admission? d with
    | none =>
      rw [List.filterMap_cons_none h]
      exact ih.cons _
    | some added =>
      rw [List.filterMap_cons_some h, List.map_cons, List.map_cons, fqn_of_admission? h]
      exact ih.cons_cons _

theorem isOk_register (hr : b.revision.replaying = false) (d : Description) :
    (b.register d).isOk = (b.admission? d).isSome := by
  rw [register_eq hr, admission?]
  cases b.verdict d <;> rfl

/-- What was kept of one description leaves what another would declare and log as it was. -/
theorem admission?_keep (hr : b.revision.replaying = false) {d d' : Description}
    {p : Declaration × Session} (hp : b.verdict d = .ok p) (hne : d'.fqn ≠ d.fqn) :
    (b.keep p).admission? d' = b.admission? d' := by
  rw [admission?, admission?, verdict_keep hr hp hne]
  cases b.verdict d' with
  | error e => rfl
  | ok q =>
    show some (q.1, (if p.2.changes = [] then q.2 else q.2.later).changes) = _
    split <;> rfl

/-- The builder with declarations and what they log. -/
def enlarge (b : Builder) (added : List (Declaration × List Change)) : Builder :=
  { b with
    revision := if added.flatMap (·.2) = [] then b.revision else b.revision.bump
    types := (added.map (·.1)).foldl place b.types
    registered := b.registered ++ added.map (·.1.fqn)
    changes := b.changes ++ added.flatMap (·.2) }

theorem enlarge_keep (hr : b.revision.replaying = false) {d : Description}
    {p : Declaration × Session} (hp : b.verdict d = .ok p)
    (added : List (Declaration × List Change)) :
    (b.keep p).enlarge added = b.enlarge ((p.1, p.2.changes) :: added) := by
  have htally : Session.Tally b.revision p.2 := .stamps hr .idle (verdict_inv hp).2
  obtain ⟨declaration, session⟩ := p
  cases htally with
  | idle =>
    unfold keep enlarge
    simp only [List.flatMap_cons, List.nil_append, List.append_nil, List.map_cons,
      List.foldl_cons, List.append_assoc, List.cons_append]
  | counted hchanges _ => simp [keep, enlarge, List.flatMap_cons, hchanges, Revision.bump_bump]

/-- Descriptions of distinct names are registered as if each were the first. -/
theorem after_registers (hr : b.revision.replaying = false) {ds : List Description}
    (hds : (ds.map (·.fqn)).Nodup) :
    b.after (ds.map .register) = b.enlarge (ds.filterMap b.admission?) := by
  induction ds generalizing b with
  | nil => simp [after, enlarge]
  | cons d rest ih =>
    rw [List.map_cons, List.nodup_cons] at hds
    obtain ⟨hd, hrest⟩ := hds
    have hperform : b.perform (.register d) = (b.verdict d).map b.keep :=
      (perform_register b d).trans (register_eq hr d)
    rw [List.map_cons, after_cons, hperform]
    cases hv : b.verdict d with
    | error e =>
      rw [List.filterMap_cons_none (admission?_of_error hv)]
      exact ih hr hrest
    | ok p =>
      have hothers : rest.filterMap (b.keep p).admission? = rest.filterMap b.admission? := by
        refine List.filterMap_congr fun d' hd' => ?_
        exact admission?_keep hr hv fun heq => hd (heq ▸ List.mem_map_of_mem hd')
      rw [List.filterMap_cons_some (admission?_of_ok hv), ← enlarge_keep hr hv, ← hothers]
      exact ih (keep_started hr hv) hrest

/-- Descriptions of distinct names are accepted or refused as if each were the first. -/
theorem succeeding_registers (hr : b.revision.replaying = false) {ds : List Description}
    (hds : (ds.map (·.fqn)).Nodup) :
    b.succeeding (ds.map .register) =
      (ds.filter fun d => (b.admission? d).isSome).map .register := by
  induction ds generalizing b with
  | nil => rfl
  | cons d rest ih =>
    rw [List.map_cons, List.nodup_cons] at hds
    obtain ⟨hd, hrest⟩ := hds
    have hperform : b.perform (.register d) = (b.verdict d).map b.keep :=
      (perform_register b d).trans (register_eq hr d)
    rw [List.map_cons, succeeding_cons, hperform, List.filter_cons]
    cases hv : b.verdict d with
    | error e =>
      rw [admission?_of_error hv]
      exact ih hr hrest
    | ok p =>
      have hothers : rest.filter (fun d => ((b.keep p).admission? d).isSome) =
          rest.filter fun d => (b.admission? d).isSome := by
        refine List.filter_congr fun d' hd' => ?_
        rw [admission?_keep hr hv fun heq => hd (heq ▸ List.mem_map_of_mem hd')]
      rw [admission?_of_ok hv, ← hothers]
      exact congrArg (Call.register d :: ·) (ih (keep_started hr hv) hrest)

/-! ## Building -/

theorem rearranged_enlarge {added added' : List (Declaration × List Change)}
    (hperm : added.Perm added') (hunique : (added.map (·.1.fqn)).Nodup)
    (htypes : ((b.enlarge added).types.map (·.fqn)).Nodup) :
    TypeTable.Rearranged b.types.length (b.enlarge added).types (b.enlarge added').types ∧
      (b.enlarge added').revision = (b.enlarge added).revision ∧
      (b.enlarge added).changes.Perm (b.enlarge added').changes := by
  have hlog := hperm.flatMap_right (·.2)
  refine ⟨TypeTable.rearranged_place (hperm.map _) ?_ htypes, ?_, hlog.append_left _⟩
  · rw [List.map_map]
    exact hunique
  · have hnil : added'.flatMap (·.2) = [] ↔ added.flatMap (·.2) = [] :=
      ⟨fun h => (h ▸ hlog).eq_nil, fun h => (h ▸ hlog.symm).eq_nil⟩
    simp only [enlarge, hnil]

/-- Builders with the same counter and the same log up to order, whose tables differ in order alone,
are built alike. -/
theorem build_rearranged {k : Nat} {b b' : Builder}
    (htypes : TypeTable.Rearranged k b.types b'.types) (hrevision : b'.revision = b.revision)
    (hchanges : b.changes.Perm b'.changes) :
    Likewise (fun s s' : Schema => TypeTable.Rearranged k s.types s'.types ∧
      s'.version = s.version ∧ s'.versioned = s.versioned ∧ s'.changed = s.changed ∧
      s.changes.Perm s'.changes) b.build b'.build := by
  unfold build schemaOf
  rw [hrevision]
  exact htypes.checkTypes.bind fun t t' ht => .done ⟨ht, rfl, rfl, rfl, hchanges⟩

/-- Descriptions of distinct names may be registered in any order: the same ones are accepted, and
the schema is built or not.  When it is built it has the same version, the same declarations, those
that the builder had before in their places, and the same log up to order, and it reads, writes and
lists enum values alike. -/
theorem build_in_any_order (hb : b.Reachable) {ds ds' : List Description}
    (hds : (ds.map (·.fqn)).Nodup) (hperm : ds.Perm ds') :
    b.succeeding (ds.map .register) =
        (ds.filter fun d => (b.register d).isOk).map .register ∧
      b.succeeding (ds'.map .register) =
        (ds'.filter fun d => (b.register d).isOk).map .register ∧
      (b.after (ds'.map .register)).build.isOk = (b.after (ds.map .register)).build.isOk ∧
      ∀ s s' : Schema, (b.after (ds.map .register)).build = .ok s →
        (b.after (ds'.map .register)).build = .ok s' →
        s'.version = s.version ∧ s'.versioned = s.versioned ∧ s'.changed = s.changed ∧
          s.types.Perm s'.types ∧ (∀ i < b.types.length, s'.types[i]? = s.types[i]?) ∧
          s.changes.Perm s'.changes ∧
          ∀ (bindings : Bindings) (name : String),
            (∀ v, s'.encode bindings name v = s.encode bindings name v) ∧
            (∀ bytes, s'.decode bindings name bytes = s.decode bindings name bytes) ∧
            s'.enumValues? name = s.enumValues? name := by
  have hr := hb.started
  have hds' : (ds'.map (·.fqn)).Nodup := (hperm.map _).nodup_iff.mp hds
  have hunique : ((ds.filterMap b.admission?).map (·.1.fqn)).Nodup :=
    hds.sublist (b.names_admitted ds)
  have htypes : ((b.enlarge (ds.filterMap b.admission?)).types.map (·.fqn)).Nodup := by
    rw [← after_registers hr hds]
    exact (hb.after _).wellFormed.unique
  obtain ⟨hrearranged, hrevision, hchanges⟩ :=
    rearranged_enlarge (hperm.filterMap b.admission?) hunique htypes
  rw [← after_registers hr hds, ← after_registers hr hds'] at hrearranged hrevision hchanges
  have hbuild := build_rearranged hrearranged hrevision hchanges
  have haccept : (fun d => (b.register d).isOk) = fun d => (b.admission? d).isSome :=
    funext (isOk_register hr)
  rw [haccept]
  refine ⟨succeeding_registers hr hds, succeeding_registers hr hds', hbuild.isOk_eq, ?_⟩
  intro s s' hs hs'
  obtain ⟨ht, hversion, hversioned, hchanged, hlog⟩ := hbuild.of_ok hs hs'
  refine ⟨hversion, hversioned, hchanged, ht.perm, ?_, hlog, fun bindings name => ?_⟩
  · intro i hi
    rw [← List.getElem?_take_of_lt hi, ht.front, List.getElem?_take_of_lt hi]
  · refine ⟨fun v => ?_, fun bytes => ?_, ?_⟩
    · rw [Schema.encode, Schema.encode, Schema.codec?, Schema.codec?, ht.codec?_eq]
    · rw [Schema.decode, Schema.decode, Schema.codec?, Schema.codec?, ht.codec?_eq]
    · rw [Schema.enumValues?, Schema.enumValues?, ht.resolve?_eq]

/-- Descriptions of which the second is refused, and the others name types that come after them. -/
def crateDescriptions : List Description :=
  [{ name := "crate", ns := some "a",
     fields := some [{ name := "weight", typeName := "@a/weight", required := true }] },
    { Description.aliasOf "unit" "uint" with ns := some "a" },
    { Description.aliasOf "weight" "@a/size" with ns := some "a" },
    { Description.aliasOf "size" "uint" with ns := some "a" }]

/-- The builder on top of the snapshot, with its namespace. -/
def crateBuilder : Builder := unitBuilder.after [.declareNamespace "a"]

/-- The schema with its new types in a given order. -/
def crateSchema (added : List Declaration) : Schema :=
  ⟨8, true, true, ⟨"unit", "a", 3, .alias "string"⟩ :: added, [("a", none)],
    added.map fun d => ⟨.typeAdded, d.fqn, none, 8⟩⟩

/-- The new types. -/
def crateTypes : List Declaration :=
  [⟨"crate", "a", 8, .struct ⟨false, none, [⟨"weight", "@a/weight", true, false, 8⟩]⟩⟩,
    ⟨"weight", "a", 8, .alias "@a/size"⟩, ⟨"size", "a", 8, .alias "uint"⟩]

theorem build_in_any_order_crate :
    (crateBuilder.after (crateDescriptions.map .register)).build =
        .ok (crateSchema crateTypes) ∧
      (crateBuilder.after (crateDescriptions.reverse.map .register)).build =
        .ok (crateSchema crateTypes.reverse) ∧
      (crateBuilder.succeeding (crateDescriptions.map .register)).length = 3 ∧
      (crateSchema crateTypes).changes.Perm (crateSchema crateTypes.reverse).changes ∧
      ∀ v, (crateSchema crateTypes.reverse).encode {} "@a/crate" v =
        (crateSchema crateTypes).encode {} "@a/crate" v := by
  have hstart : Builder.ofSnapshot unitSnapshot true = .ok unitBuilder := by decide +kernel
  have hreach : crateBuilder.Reachable := (Reachable.ofSnapshot hstart).after _
  have hnames : (crateDescriptions.map (·.fqn)).Nodup := by decide +kernel
  have hbuild : (crateBuilder.after (crateDescriptions.map .register)).build =
      .ok (crateSchema crateTypes) := by decide +kernel
  have hbuild' : (crateBuilder.after (crateDescriptions.reverse.map .register)).build =
      .ok (crateSchema crateTypes.reverse) := by decide +kernel
  obtain ⟨haccepted, -, -, hsame⟩ :=
    build_in_any_order hreach hnames (List.reverse_perm crateDescriptions).symm
  obtain ⟨-, -, -, -, -, hlog, hcodecs⟩ := hsame _ _ hbuild hbuild'
  refine ⟨hbuild, hbuild', ?_, hlog, (hcodecs {} "@a/crate").1⟩
  rw [haccepted]
  decide +kernel

end Builder

end WireSchema

import Mathlib.Logic.Relation
import WireSchema.Proofs.Builder

/-!
# Counting the changes of a build

Whatever a declaration adds is stamped, so a registration leads from one session to another by
stamps and by nothing else, also where it fails behind some of them (`Admission.accept_stamps`).  A
stamp during a replay leaves the session as it is.  Any other stamp counts a change, and only the
first of them raises the version (`Session.Tally`).  The session of a call that fails is dropped
with its stamps.  So a build has at most one version of its own, and every change of its log carries
it (`Builder.version_after`).
-/

namespace WireSchema

theorem Revision.bump_bump (r : Revision) : r.bump.bump = r.bump := by
  unfold bump
  split <;> rfl

theorem Revision.replaying_bump (r : Revision) : r.bump.replaying = r.replaying := by
  unfold bump
  split <;> rfl

/-! ## Stamps -/

namespace Session

/-- Behind the replay a stamp gives the raised version and logs it. -/
theorem stamp_of_started {s : Session} (hr : s.revision.replaying = false)
    (persisted : Option UInt32) (kind : ChangeKind) (fqn : String) (member : Option String) :
    s.stamp persisted kind fqn member =
      (s.revision.bump.version,
        ⟨s.revision.bump, s.changes ++ [⟨kind, fqn, member, s.revision.bump.version⟩]⟩) := by
  simp [stamp, hr]

/-- Stamps lead from one session to another. -/
def Stamps : Session → Session → Prop :=
  Relation.ReflTransGen fun s s' =>
    ∃ persisted kind fqn member, s' = (s.stamp persisted kind fqn member).2

theorem stamps_stamp (s : Session) (persisted : Option UInt32) (kind : ChangeKind) (fqn : String)
    (member : Option String) : s.Stamps (s.stamp persisted kind fqn member).2 :=
  .single ⟨persisted, kind, fqn, member, rfl⟩

/-- While a snapshot is replayed stamps change nothing. -/
theorem Stamps.of_replaying {s s' : Session} (h : s.Stamps s')
    (hr : s.revision.replaying = true) : s' = s := by
  induction h with
  | refl => rfl
  | tail _ hstep ih =>
    obtain ⟨persisted, kind, fqn, member, rfl⟩ := hstep
    rw [ih, stamp, if_pos hr]

theorem Stamps.replaying_eq {s s' : Session} (h : s.Stamps s') :
    s'.revision.replaying = s.revision.replaying := by
  induction h with
  | refl => rfl
  | tail _ hstep ih =>
    obtain ⟨persisted, kind, fqn, member, rfl⟩ := hstep
    unfold stamp
    split
    · exact ih
    · exact (Revision.replaying_bump _).trans ih

/-- Whatever was stamped, the next change has the same revision. -/
theorem Stamps.bump_eq {s s' : Session} (h : s.Stamps s') :
    s'.revision.bump = s.revision.bump := by
  induction h with
  | refl => rfl
  | tail _ hstep ih =>
    obtain ⟨persisted, kind, fqn, member, rfl⟩ := hstep
    unfold stamp
    split
    · exact ih
    · exact (Revision.bump_bump _).trans ih

/-- Earlier changes stay in front of those that are stamped. -/
theorem Stamps.behind {s s' : Session} (h : s.Stamps s') (changes : List Change) :
    Stamps ⟨s.revision, changes ++ s.changes⟩ ⟨s'.revision, changes ++ s'.changes⟩ := by
  induction h with
  | refl => exact .refl
  | tail _ hstep ih =>
    obtain ⟨persisted, kind, fqn, member, rfl⟩ := hstep
    refine ih.tail ⟨persisted, kind, fqn, member, ?_⟩
    unfold stamp
    split
    · rfl
    · simp only [List.append_assoc]

/-- What was counted since a revision: nothing, or changes that all carry the version that the first
of them gave. -/
inductive Tally (r : Revision) : Session → Prop
  | idle : Tally r ⟨r, []⟩
  | counted {changes : List Change} (hne : changes ≠ [])
      (h : ∀ c ∈ changes, c.version = r.bump.version) : Tally r ⟨r.bump, changes⟩

theorem Tally.stamp {r : Revision} (hr : r.replaying = false) {s : Session} (h : Tally r s)
    (persisted : Option UInt32) (kind : ChangeKind) (fqn : String) (member : Option String) :
    Tally r (s.stamp persisted kind fqn member).2 := by
  cases h with
  | idle =>
    rw [stamp_of_started hr]
    exact .counted (by simp) (by simp)
  | counted hne h =>
    rw [stamp_of_started ((Revision.replaying_bump r).trans hr)]
    dsimp only
    rw [Revision.bump_bump]
    refine .counted (by simp) fun c hc => ?_
    rcases List.mem_append.mp hc with hc | hc
    · exact h c hc
    · rw [List.mem_singleton.mp hc]

theorem Tally.stamps {r : Revision} (hr : r.replaying = false) {s s' : Session} (h : Tally r s)
    (hs : s.Stamps s') : Tally r s' := by
  induction hs with
  | refl => exact h
  | tail _ hstep ih =>
    obtain ⟨persisted, kind, fqn, member, rfl⟩ := hstep
    exact ih.stamp hr persisted kind fqn member

/-- Without changes nothing was counted, and otherwise the version was raised. -/
theorem Tally.quiet_or_bumped {r : Revision} {s : Session} (h : Tally r s) :
    s.changes = [] ∨ s.revision = r.bump := by
  cases h with
  | idle => exact .inl rfl
  | counted => exact .inr rfl

end Session

/-! ## Registrations -/

namespace Admission

open Attempt

/-- Steps that change a session by stamps alone, and see no more of it than whether a snapshot is
being replayed. -/
inductive Stamping : ∀ {α : Type}, SessionM α → Prop
  | pure {α : Type} (a : α) : Stamping (Pure.pure a)
  | throw {α : Type} (e : SchemaError) : Stamping (throw e : SessionM α)
  | stamp (persisted : Option UInt32) (kind : ChangeKind) (fqn : String) (member : Option String) :
      Stamping (SessionM.stamp persisted kind fqn member)
  | read {α : Type} {f : Session → α}
      (h : ∀ s s', s.revision.replaying = s'.revision.replaying → f s = f s') :
      Stamping (get >>= fun s => Pure.pure (f s))
  | bind {α β : Type} {x : SessionM α} {f : α → SessionM β} (hx : Stamping x)
      (hf : ∀ a, Stamping (f a)) : Stamping (x >>= f)

theorem stamping_check {α : Type} (x : Except SchemaError α) :
    Stamping (check x : SessionM α) := by
  cases x with
  | error e => exact .throw e
  | ok a => exact .pure a

theorem stamping_stampMembers (kind : ChangeKind) (fqn : String) (members : List String) :
    Stamping (SessionM.stampMembers kind fqn members) := by
  induction members with
  | nil => exact .pure []
  | cons m rest ih =>
    have hstep : SessionM.stampMembers kind fqn (m :: rest) = do
        let version ← SessionM.stamp none kind fqn (some m)
        let versions ← SessionM.stampMembers kind fqn rest
        return version :: versions := rfl
    rw [hstep]
    exact .bind (.stamp _ _ _ _) fun _ => .bind ih fun _ => .pure _

theorem stamping_fresh (fqn : String) (persisted : Option UInt32) (body : Body) :
    Stamping (fresh fqn persisted body) :=
  .bind (.stamp _ _ _ _) fun _ => .pure _

theorem stamping_admitText (fqn : String) (previous : Option (UInt32 × String)) (d : Description)
    (tell : String → Body) (refusal : String → SchemaError) (text : String) :
    Stamping (admitText fqn previous d tell refusal text) := by
  unfold admitText
  cases previous with
  | none => exact stamping_fresh _ _ _
  | some p =>
    dsimp only
    split
    · exact .pure _
    · exact .throw _

theorem stamping_admitEnum (fqn : String) (previous : Option (UInt32 × EnumBody))
    (d : Description) : Stamping (admitEnum fqn previous d) := by
  unfold admitEnum
  cases d.enumEntries? with
  | none => exact .throw _
  | some entries =>
    cases previous with
    | none =>
      refine .bind (.stamp _ _ _ _) fun version => .read fun s s' h => ?_
      rw [freshValues, freshValues, h]
    | some p =>
      dsimp only
      split
      · exact .throw _
      · split
        · exact .throw _
        · split
          · exact .throw _
          · exact .bind (stamping_stampMembers _ _ _) fun _ => .pure _

theorem stamping_stampStruct (fqn : String) (previous : Option (UInt32 × StructBody))
    (persisted : Option UInt32) (compact : Bool) (explicit first : Option Nat)
    (fields : List FieldDescription) :
    Stamping (stampStruct fqn previous persisted compact explicit first fields) := by
  unfold stampStruct
  cases previous with
  | none =>
    refine .bind (.stamp _ _ _ _) fun version => .read fun s s' h => ?_
    simp only [h]
  | some p =>
    refine .bind (stamping_check _) fun position => ?_
    exact .bind (stamping_stampMembers _ _ _) fun _ => .pure _

theorem stamping_admitStruct (fqn : String) (previous : Option (UInt32 × StructBody))
    (d : Description) : Stamping (admitStruct fqn previous d) := by
  unfold admitStruct
  cases d.fields with
  | none => exact .throw _
  | some given =>
    dsimp only
    split
    · exact .throw (.tooManyOptionals fqn _)
    · refine .bind (stamping_check _) fun explicit => ?_
      refine .bind (stamping_stampStruct _ _ _ _ _ _ _) fun p => ?_
      exact .bind (stamping_check _) fun _ => .pure _

theorem stamping_admitVersioned (fqn : String) (previous : Option (UInt32 × List VersionEntry))
    (d : Description) : Stamping (admitVersioned fqn previous d) := by
  unfold admitVersioned
  dsimp only
  split
  · exact .throw _
  · split
    · exact .throw _
    · cases previous with
      | none => exact stamping_fresh _ _ _
      | some p =>
        dsimp only
        split
        · exact .throw _
        · split
          · exact .throw _
          · exact .bind (stamping_stampMembers _ _ _) fun _ => .pure _

theorem stamping_admitBody (fqn : String) (previous : Option Declaration) (d : Description) :
    Stamping (admitBody fqn previous d) := by
  unfold admitBody
  split
  · exact stamping_admitText _ _ _ _ _ _
  · exact stamping_admitEnum _ _ _
  · exact stamping_admitStruct _ _ _
  · unfold admitArray
    cases d.element with
    | none => exact .throw _
    | some element => exact stamping_admitText _ _ _ _ _ _
  · exact stamping_admitVersioned _ _ _
  · exact stamping_admitText _ _ _ _ _ _

theorem stamping_admitDescription (previous : Option Declaration) (d : Description) :
    Stamping (admitDescription previous d) := by
  refine .bind (stamping_check _) fun _ => ?_
  exact .bind (stamping_admitBody _ _ _) fun _ => .pure _

/-- A session is changed by stamps alone, whether what is admitted in it fails or not. -/
theorem Stamping.moves {α : Type} {x : SessionM α} (h : Stamping x) : Moves Session.Stamps x := by
  induction h with
  | pure a => exact moves_pure (fun _ => .refl) a
  | throw e => exact moves_throw (fun _ => .refl) e
  | stamp persisted kind fqn member => exact fun s => s.stamps_stamp persisted kind fqn member
  | read => exact fun _ => .refl
  | bind _ _ hx hf => exact hx.bind .trans hf

theorem accept_stamps {s s' : Session} {previous : Option Declaration} {d : Description}
    {declaration : Declaration} (h : accept s previous d = .ok (declaration, s')) :
    s.Stamps s' := by
  have hleft := (stamping_admitDescription previous d).moves s
  rw [leaves, result_eq_ok_iff.mp h] at hleft
  exact hleft

end Admission

/-! ## Runs of calls -/

namespace Builder

/-- The counter and the log of a builder. -/
def session (b : Builder) : Session := ⟨b.revision, b.changes⟩

theorem register_stamps {b b' : Builder} {d : Description} (h : b.register d = .ok b') :
    b.session.Stamps b'.session := by
  obtain ⟨-, declaration, session, -, -, -, haccept, -, hrevision, hchanges⟩ := register_inv h
  have hstamps := (Admission.accept_stamps haccept).behind b.changes
  rw [List.append_nil] at hstamps
  rw [Builder.session, Builder.session, hrevision, hchanges]
  exact hstamps

theorem perform_stamps {b b' : Builder} {c : Call} (h : b.perform c = .ok b') :
    b.session.Stamps b'.session := by
  rcases perform_cases h with ⟨d, -, h⟩ | ⟨-, -, -, hrevision, hchanges⟩
  · exact register_stamps h
  · rw [session, session, hrevision, hchanges]
    exact .refl

theorem after_stamps (b : Builder) (calls : List Call) :
    b.session.Stamps (b.after calls).session :=
  after_induction (P := fun b' => b.session.Stamps b'.session)
    (fun _ _ _ hc h => h.trans (perform_stamps hc)) calls .refl

theorem registerAll_stamps {b b' : Builder} {ds : List Description}
    (h : b.registerAll ds = .ok b') : b.session.Stamps b'.session := by
  induction ds generalizing b with
  | nil =>
    cases h
    exact .refl
  | cons d rest ih =>
    rw [registerAll, List.foldlM_cons] at h
    obtain ⟨b₁, h₁, h⟩ := ok_of_bind h
    exact (register_stamps h₁).trans (ih h)

/-- A replay counts nothing and logs nothing. -/
theorem session_ofSnapshot {s : Snapshot} {versioned : Bool} {b : Builder}
    (h : ofSnapshot s versioned = .ok b) :
    b.session = ⟨⟨s.version, versioned, false, false⟩, []⟩ := by
  obtain ⟨b₁, h₁, h⟩ := ok_of_bind h
  cases h
  have hsame : b₁.session = ⟨.resume s.version versioned, []⟩ :=
    (registerAll_stamps h₁).of_replaying rfl
  have hrevision : b₁.revision = .resume s.version versioned := congrArg Session.revision hsame
  have hchanges : b₁.changes = [] := congrArg Session.changes hsame
  rw [session, hrevision, hchanges]
  rfl

/-- The builders that calls lead to have ended their replay. -/
theorem Reachable.started {b : Builder} (h : b.Reachable) : b.revision.replaying = false := by
  induction h with
  | fresh versioned => rfl
  | ofSnapshot h =>
    exact congrArg (fun s : Session => s.revision.replaying) (session_ofSnapshot h)
  | call _ hc ih => exact (perform_stamps hc).replaying_eq.trans ih

/-- A builder at the start of a build, from nothing or from a snapshot, with the version and the
mode that it starts with. -/
inductive Starts : Builder → UInt32 → Bool → Prop
  | fresh (versioned : Bool) :
      Starts (Builder.fresh versioned) (if versioned then 0 else 1) versioned
  | replayed {s : Snapshot} {versioned : Bool} {b : Builder}
      (h : ofSnapshot s versioned = .ok b) : Starts b s.version versioned

theorem Starts.session {b : Builder} {version : UInt32} {versioned : Bool}
    (h : b.Starts version versioned) :
    b.session = ⟨⟨version, versioned, false, false⟩, []⟩ := by
  cases h with
  | fresh => rfl
  | replayed h => exact session_ofSnapshot h

/-- The calls of a run that succeed where they are made, each on what the calls before have left. -/
def succeeding : Builder → List Call → List Call
  | _, [] => []
  | b, c :: rest =>
    match c.run.runFrom b with
    | (.ok _, b') => c :: b'.succeeding rest
    | (.error _, b') => b'.succeeding rest

/-- Behind a call that fails a run goes on as if it had not been made. -/
theorem succeeding_cons (b : Builder) (c : Call) (rest : List Call) :
    b.succeeding (c :: rest) =
      match b.perform c with
      | .ok b' => c :: b'.succeeding rest
      | .error _ => b.succeeding rest := by
  rw [succeeding]
  cases h : b.perform c with
  | ok b' =>
    obtain ⟨_, hrun⟩ := Attempt.next_eq_ok_iff.mp h
    rw [hrun]
  | error e =>
    have hfailed := Attempt.next_eq_error_iff.mp h
    have hsame := c.clean_run b e hfailed
    rw [show c.run.runFrom b = (.error e, b) from Prod.ext hfailed hsame]

/-- Without the calls that fail a run succeeds throughout, and ends in the same builder. -/
theorem foldlM_succeeding (b : Builder) (calls : List Call) :
    (b.succeeding calls).foldlM perform b = .ok (b.after calls) := by
  induction calls generalizing b with
  | nil => rfl
  | cons c rest ih =>
    rw [after_cons, succeeding_cons]
    cases h : b.perform c with
    | error e => exact ih b
    | ok b' =>
      dsimp only
      rw [List.foldlM_cons, h]
      exact ih b'

/-- After any calls, failing ones among them, a build has changed something exactly when it has a
log; then it has the next version if changes raise the version, and otherwise the version that it
started with; every change of the log carries that version.  A call that fails leaves the builder
as it was, whatever was stamped before it failed, so that the calls that failed might as well not
have been made. -/
theorem version_after {b : Builder} {version : UInt32} {versioned : Bool}
    (hb : b.Starts version versioned) (hversion : version.toNat < 2 ^ 32 - 1)
    (calls : List Call) :
    ((b.after calls).revision.changed = true ↔ (b.after calls).changes ≠ []) ∧
      (b.after calls).revision.version.toNat =
        (if versioned = true ∧ (b.after calls).revision.changed = true then version.toNat + 1
          else version.toNat) ∧
      (∀ change ∈ (b.after calls).changes,
        change.version = (b.after calls).revision.version) ∧
      (b.after calls).revision.versioned = versioned ∧
      (∀ (c : Call) (e : SchemaError), (c.run.runFrom (b.after calls)).1 = .error e →
        c.run.leaves (b.after calls) = b.after calls) ∧
      (b.succeeding calls).foldlM perform b = .ok (b.after calls) := by
  have htally : Session.Tally ⟨version, versioned, false, false⟩ (b.after calls).session :=
    Session.Tally.stamps rfl (hb.session ▸ .idle) (b.after_stamps calls)
  have hfailed : ∀ (c : Call) (e : SchemaError), (c.run.runFrom (b.after calls)).1 = .error e →
      c.run.leaves (b.after calls) = b.after calls := fun c => c.clean_run _
  have hrun := b.foldlM_succeeding calls
  generalize b.after calls = after at htally hfailed hrun ⊢
  obtain ⟨revision, types, registered, namespaces, changes⟩ := after
  cases htally with
  | idle => exact ⟨by simp, by simp, nofun, rfl, hfailed, hrun⟩
  | counted hne h =>
    refine ⟨⟨fun _ => hne, fun _ => rfl⟩, ?_, h, rfl, hfailed, hrun⟩
    cases versioned with
    | false => rfl
    | true =>
      show (version + 1).toNat = version.toNat + 1
      rw [UInt32.toNat_add, UInt32.toNat_one, Nat.mod_eq_of_lt (by omega)]

/-- A snapshot with one alias. -/
def unitSnapshot : Snapshot :=
  ⟨7, [{ Description.aliasOf "unit" "string" with ns := some "a", version := some 3 }]⟩

/-- The builder on top of it. -/
def unitBuilder : Builder :=
  { revision := ⟨7, true, false, false⟩, types := [⟨"unit", "a", 3, .alias "string"⟩] }

/-- A struct with its flags behind an optional field, which shows only when it is stamped. -/
def lateFlags : Description :=
  { name := "late", flagsPosition := some 1, fields := some [{ name := "x", typeName := "uint" }] }

/-- Calls of which the first, the third and the fourth fail, the last of these after a stamp, and
the fifth adds nothing. -/
def unitCalls : List Call :=
  [.openNamespace "a", .declareNamespace "a", .registerIn "a" (.aliasOf "unit" "uint"),
    .registerIn "a" lateFlags, .registerIn "a" (.aliasOf "unit" "string"),
    .registerIn "a" (.aliasOf "size" "uint"), .registerIn "a" (.aliasOf "weight" "@a/size")]

theorem version_after_units :
    (unitBuilder.after unitCalls).changes =
        [⟨.typeAdded, "@a/size", none, 8⟩, ⟨.typeAdded, "@a/weight", none, 8⟩] ∧
      (unitBuilder.after unitCalls).revision.changed = true ∧
      (unitBuilder.after unitCalls).revision.version.toNat = 7 + 1 ∧
      ((Admission.admitDescription none { lateFlags with ns := some "a" }).leaves
        { revision := unitBuilder.revision }).changes = [⟨.typeAdded, "@a/late", none, 8⟩] ∧
      (Call.registerIn "a" lateFlags).run.leaves (unitBuilder.after unitCalls) =
        unitBuilder.after unitCalls ∧
      (unitBuilder.succeeding unitCalls).length = 4 ∧
      (unitBuilder.succeeding unitCalls).foldlM perform unitBuilder =
        .ok (unitBuilder.after unitCalls) := by
  have hstarts : unitBuilder.Starts 7 true := .replayed (s := unitSnapshot) (by decide +kernel)
  have hlog : (unitBuilder.after unitCalls).changes =
      [⟨.typeAdded, "@a/size", none, 8⟩, ⟨.typeAdded, "@a/weight", none, 8⟩] := by decide +kernel
  have hlate : ((Call.registerIn "a" lateFlags).run.runFrom (unitBuilder.after unitCalls)).1 =
      .error (.invalidFlagsPosition "@a/late" 1) := by decide +kernel
  obtain ⟨hchanged, hversion, -, -, hfailed, hrun⟩ := version_after hstarts (by decide) unitCalls
  have hyes := hchanged.mpr (by rw [hlog]; exact List.cons_ne_nil _ _)
  rw [hyes, if_pos ⟨rfl, rfl⟩] at hversion
  exact ⟨hlog, hyes, hversion, by decide +kernel, hfailed _ _ hlate, by decide +kernel, hrun⟩

end Builder

end WireSchema

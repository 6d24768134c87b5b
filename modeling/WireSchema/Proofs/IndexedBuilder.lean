import Mathlib.Data.List.Forall2
import WireSchema.IndexedBuilder
import WireSchema.Proofs.Index

/-!
# Builders with an index

As long as the index of a builder locates its declarations, each step does to the table what it does
without an index, also where it fails, and the index goes on to locate the declarations
(`Simulates`).  A call is put together from such steps (`perform_follows`).  So the builders that
calls lead to are the same with an index and without (`reachable_iff`), and they build the same
schemas (`map_build`).  In each of them the index is exact, and in the schemas that they build each
reference leads to the type that it names (`places_exact`).
-/

namespace WireSchema

namespace IndexedBuilder

open Attempt

/-- The index leads to the declarations. -/
def Located (b : IndexedBuilder) : Prop := b.index.Locates (b.types.map (·.fqn))

/-- A call with an index fails as it does without one, or ends in the same builder with its
declarations located. -/
inductive Follows : Except SchemaError IndexedBuilder → Except SchemaError Builder → Prop
  | failed (e : SchemaError) : Follows (.error e) (.error e)
  | done {b : IndexedBuilder} (h : b.Located) : Follows (.ok b) (.ok b.toBuilder)

section Follows

variable {x : Except SchemaError IndexedBuilder} {y : Except SchemaError Builder}

theorem Follows.bind (h : Follows x y) {f : IndexedBuilder → Except SchemaError IndexedBuilder}
    {g : Builder → Except SchemaError Builder}
    (hf : ∀ b : IndexedBuilder, b.Located → Follows (f b) (g b.toBuilder)) :
    Follows (x >>= f) (y >>= g) := by
  cases h with
  | failed e => exact .failed e
  | done h => exact hf _ h

theorem Follows.of_ok (h : Follows x y) {b : IndexedBuilder} (hx : x = .ok b) :
    b.Located ∧ y = .ok b.toBuilder := by
  cases h with
  | failed e => cases hx
  | done h =>
    cases hx
    exact ⟨h, rfl⟩

theorem Follows.exists_of_ok (h : Follows x y) {c : Builder} (hy : y = .ok c) :
    ∃ b, x = .ok b ∧ b.toBuilder = c := by
  cases h with
  | failed e => cases hy
  | done h =>
    cases hy
    exact ⟨_, rfl, rfl⟩

end Follows

/-! ## Calls -/

variable {b b' : IndexedBuilder} {α β : Type}

/-- With an index a step does what it does without one: the same comes of it and the same builder is
left, whose declarations are located. -/
structure Simulates (b : IndexedBuilder) (x : IndexedBuilderM α) (y : BuilderM α) : Prop where
  outcome : (x.runFrom b).1 = (y.runFrom b.toBuilder).1
  left : (x.leaves b).toBuilder = y.leaves b.toBuilder
  located : (x.leaves b).Located

section Simulates

variable {x : IndexedBuilderM α} {y : BuilderM α}

theorem Simulates.runFrom_eq (h : Simulates b x y) {outcome : Except SchemaError α}
    (hx : x.runFrom b = (outcome, b')) : y.runFrom b.toBuilder = (outcome, b'.toBuilder) := by
  refine Prod.ext ?_ ?_
  · rw [← h.outcome, hx]
  · have hleft := h.left
    rw [leaves, hx] at hleft
    exact hleft.symm

theorem Simulates.follows (h : Simulates b x y) : Follows (x.next b) (y.next b.toBuilder) := by
  have hlocated := h.located
  rw [leaves] at hlocated
  rcases hx : x.runFrom b with ⟨e | a, b'⟩
  · rw [next, next, result_of_error hx, result_of_error (h.runFrom_eq hx)]
    exact .failed e
  · rw [hx] at hlocated
    rw [next, next, result_of_ok hx, result_of_ok (h.runFrom_eq hx)]
    exact .done hlocated

theorem Simulates.bind (h : Simulates b x y) {f : α → IndexedBuilderM β} {g : α → BuilderM β}
    (hf : ∀ a c, x.runFrom b = (.ok a, c) → c.Located → Simulates c (f a) (g a)) :
    Simulates b (x >>= f) (y >>= g) := by
  have hlocated := h.located
  rw [leaves] at hlocated
  rcases hx : x.runFrom b with ⟨e | a, c⟩
  · rw [hx] at hlocated
    have hxf := runFrom_bind_error (f := f) hx
    have hyg := runFrom_bind_error (f := g) (h.runFrom_eq hx)
    constructor
    · rw [hxf, hyg]
    · rw [leaves, leaves, hxf, hyg]
    · rw [leaves, hxf]
      exact hlocated
  · rw [hx] at hlocated
    have hxf := runFrom_bind_ok (f := f) hx
    have hyg := runFrom_bind_ok (f := g) (h.runFrom_eq hx)
    obtain ⟨houtcome, hleft, hlocated⟩ := hf a c hx hlocated
    constructor
    · rw [hxf, hyg, houtcome]
    · rw [leaves, leaves, hxf, hyg]
      exact hleft
    · rw [leaves, hxf]
      exact hlocated

theorem simulates_get {f : IndexedBuilder → IndexedBuilderM α} {g : Builder → BuilderM α}
    (h : Simulates b (f b) (g b.toBuilder)) : Simulates b (get >>= f) (get >>= g) :=
  ⟨h.outcome, h.left, h.located⟩

theorem simulates_pure (hb : b.Located) (a : α) : Simulates b (pure a) (pure a) := ⟨rfl, rfl, hb⟩

theorem runFrom_below (y : BuilderM α) (b : IndexedBuilder) :
    (IndexedBuilderM.below y).runFrom b =
      ((y.runFrom b.toBuilder).1, { b with toBuilder := y.leaves b.toBuilder }) := rfl

/-- A step of the builder below that only reads leaves the builder as it was. -/
theorem runFrom_of_below (hy : Reads y) {outcome : Except SchemaError α}
    (h : (IndexedBuilderM.below y).runFrom b = (outcome, b')) :
    y.runFrom b.toBuilder = (outcome, b.toBuilder) ∧ b' = b := by
  rw [runFrom_below, ← hy, Prod.mk.injEq] at h
  exact ⟨Prod.ext h.1 (hy _).symm, h.2.symm⟩

/-- A step of the builder below that leaves the table alone. -/
theorem simulates_below (hb : b.Located) (hy : (y.leaves b.toBuilder).types = b.types) :
    Simulates b (IndexedBuilderM.below y) y := by
  refine ⟨rfl, rfl, ?_⟩
  show b.index.Locates ((y.leaves b.toBuilder).types.map (·.fqn))
  rw [hy]
  exact hb

end Simulates

/-- The index tells what is declared and what is taken. -/
theorem isTaken_eq (hb : b.Located) (fqn : String) :
    (if b.revision.replaying then (b.index.lookup fqn).isSome else b.registered.contains fqn) =
      b.isTaken fqn := by
  rw [Builder.isTaken, NameIndex.Locates.declaration?_eq hb fqn]
  cases hi : b.index.lookup fqn with
  | none => rfl
  | some i =>
    obtain ⟨p, hp, -⟩ := (NameIndex.Locates.lookup_eq_some_iff hb).mp hi
    rw [Option.bind_some, hp]
    rfl

/-- Storing a declaration places it in the table, and the index goes along. -/
theorem simulates_store (hb : b.Located) {fqn : String} {d : Declaration} (hfqn : d.fqn = fqn) :
    Simulates b (IndexedBuilderM.store fqn (b.index.lookup fqn) d)
      (modify fun b => { b with types := Builder.place b.types d }) := by
  subst hfqn
  have hplace := NameIndex.Locates.place_eq hb d
  cases hi : b.index.lookup d.fqn with
  | none =>
    rw [hi] at hplace
    refine ⟨rfl, congrArg (fun t => { b.toBuilder with types := t }) hplace.symm, ?_⟩
    have hnew := NameIndex.Locates.append hb hi
    rw [List.length_map] at hnew
    rw [← List.map_singleton, ← List.map_append] at hnew
    exact hnew
  | some i =>
    rw [hi] at hplace
    refine ⟨rfl, congrArg (fun t => { b.toBuilder with types := t }) hplace.symm, ?_⟩
    exact NameIndex.Locates.set hb hi

/-- Registering with an index looks up and stores what registering without one finds and places. -/
theorem simulates_register (hb : b.Located) (d : Description) :
    Simulates b (IndexedBuilderM.register d) (BuilderM.register d) := by
  refine simulates_get ?_
  dsimp only
  rw [isTaken_eq hb, ← NameIndex.Locates.declaration?_eq hb]
  have hreads := Builder.reads_vet (b.isTaken d.fqn) (b.types.declaration? d.fqn) d
  refine (simulates_below hb (congrArg Builder.types (hreads _).symm)).bind fun p c hp _ => ?_
  -- the checks have left the builder as it was, and what was admitted has the name looked up
  obtain ⟨hrun, rfl⟩ := runFrom_of_below hreads hp
  have hfqn : p.1.fqn = d.fqn := by
    have hok := result_of_ok hrun
    rw [Builder.result_vet] at hok
    obtain ⟨q, hq, hpair⟩ := ok_of_map hok
    cases hpair
    obtain ⟨-, -, -, -, haccept⟩ := Builder.vetted_inv hq
    exact Admission.fqn_of_accept haccept
  refine (simulates_below hb rfl).bind fun _ c hc hlocated => ?_
  cases hc
  refine (simulates_store hlocated hfqn).bind fun _ c _ hc => ?_
  exact (simulates_below hc rfl).bind fun _ c _ hc => simulates_pure hc _

/-- Makes a call. -/
def run : Builder.Call → IndexedBuilderM Unit
  | .declareNamespace name => IndexedBuilderM.declareNamespace name
  | .openNamespace name => IndexedBuilderM.openNamespace name
  | .requireModule name modulePath => IndexedBuilderM.requireModule name modulePath
  | .register d => do
    let _ ← IndexedBuilderM.register d
  | .registerIn ns d => do
    let _ ← IndexedBuilderM.registerIn ns d

/-- The builder after a call that succeeds. -/
def perform (b : IndexedBuilder) (c : Builder.Call) : Except SchemaError IndexedBuilder :=
  (run c).next b

theorem simulates_run (hb : b.Located) (c : Builder.Call) : Simulates b (run c) c.run := by
  have hbelow (c : Builder.Call) (hc : c.description? = none) :
      Simulates b (IndexedBuilderM.below c.run) c.run :=
    simulates_below hb (Builder.Call.leaves_types hc _)
  cases c with
  | declareNamespace name => exact hbelow (.declareNamespace name) rfl
  | openNamespace name => exact hbelow (.openNamespace name) rfl
  | requireModule name modulePath => exact hbelow (.requireModule name modulePath) rfl
  | register d => exact (simulates_register hb d).bind fun _ _ _ h => simulates_pure h _
  | registerIn ns d =>
    refine Simulates.bind ?_ fun _ _ _ h => simulates_pure h _
    exact (hbelow (.openNamespace ns) rfl).bind fun _ _ _ h => simulates_register h _

theorem perform_follows (hb : b.Located) (c : Builder.Call) :
    Follows (b.perform c) (b.toBuilder.perform c) :=
  (simulates_run hb c).follows

/-- A call that fails leaves the builder as it was. -/
theorem leaves_of_perform_error (hb : b.Located) {c : Builder.Call} {e : SchemaError}
    (h : b.perform c = .error e) : (run c).leaves b = b := by
  obtain ⟨houtcome, hleft, hlocated⟩ := simulates_run hb c
  rw [next_eq_error_iff.mp h] at houtcome
  have hsame : ((run c).leaves b).toBuilder = b.toBuilder :=
    hleft.trans (c.clean_run _ e houtcome.symm)
  have hindex : ((run c).leaves b).index = b.index := by
    rw [Located, hsame] at hlocated
    exact hlocated.unique hb
  show IndexedBuilder.mk ((run c).leaves b).toBuilder ((run c).leaves b).index = b
  rw [hsame, hindex]

theorem register_follows (hb : b.Located) (d : Description) :
    Follows (b.register d) (b.toBuilder.register d) :=
  (simulates_register hb d).follows

theorem registerAll_follows (hb : b.Located) (ds : List Description) :
    Follows (ds.foldlM register b) (b.toBuilder.registerAll ds) := by
  induction ds generalizing b with
  | nil => exact .done hb
  | cons d rest ih =>
    rw [Builder.registerAll, List.foldlM_cons, List.foldlM_cons]
    exact (register_follows hb d).bind fun _ h => ih h

theorem ofSnapshot_follows (s : Snapshot) (versioned : Bool) :
    Follows (ofSnapshot s versioned) (Builder.ofSnapshot s versioned) := by
  have hstart : Located { toBuilder := { revision := .resume s.version versioned } } :=
    NameIndex.locates_nil
  refine (registerAll_follows hstart s.declarations).bind fun b hb => ?_
  exact .done (b := { b with revision := b.revision.finishReplay }) hb

/-! ## Builders that calls lead to -/

/-- The builders that calls lead to, from nothing or from a snapshot. -/
inductive Reachable : IndexedBuilder → Prop
  | fresh (versioned : Bool) : Reachable (fresh versioned)
  | ofSnapshot {s : Snapshot} {versioned : Bool} {b : IndexedBuilder}
      (h : IndexedBuilder.ofSnapshot s versioned = .ok b) : Reachable b
  | call {b b' : IndexedBuilder} {c : Builder.Call} (h : Reachable b) (hc : b.perform c = .ok b') :
      Reachable b'

theorem Reachable.follows (h : b.Reachable) : b.Located ∧ b.toBuilder.Reachable := by
  induction h with
  | fresh versioned => exact ⟨NameIndex.locates_nil, .fresh versioned⟩
  | ofSnapshot h =>
    obtain ⟨hlocated, h⟩ := (ofSnapshot_follows _ _).of_ok h
    exact ⟨hlocated, .ofSnapshot h⟩
  | call _ hc ih =>
    obtain ⟨hlocated, hc⟩ := (perform_follows ih.1 _).of_ok hc
    exact ⟨hlocated, .call ih.2 hc⟩

/-- The builder that a run of calls leaves, those that fail among them. -/
def after (b : IndexedBuilder) (calls : List Builder.Call) : IndexedBuilder :=
  calls.foldl (fun b c => (run c).leaves b) b

theorem Reachable.after (h : b.Reachable) (calls : List Builder.Call) :
    (b.after calls).Reachable := by
  induction calls generalizing b with
  | nil => exact h
  | cons c rest ih =>
    show (((run c).leaves b).after rest).Reachable
    cases hc : b.perform c with
    | error e =>
      rw [leaves_of_perform_error h.follows.1 hc]
      exact ih h
    | ok b' =>
      rw [leaves_of_next hc]
      exact ih (.call h hc)

/-- Calls lead to the same builders with an index and without. -/
theorem reachable_iff {c : Builder} :
    c.Reachable ↔ ∃ b : IndexedBuilder, b.Reachable ∧ b.toBuilder = c := by
  constructor
  · intro h
    induction h with
    | fresh versioned => exact ⟨_, .fresh versioned, rfl⟩
    | ofSnapshot h =>
      obtain ⟨b, hb, rfl⟩ := (ofSnapshot_follows _ _).exists_of_ok h
      exact ⟨b, .ofSnapshot hb, rfl⟩
    | call _ hc ih =>
      obtain ⟨b, hb, rfl⟩ := ih
      obtain ⟨b', hb', rfl⟩ := (perform_follows hb.follows.1 _).exists_of_ok hc
      exact ⟨b', .call hb hb', rfl⟩
  · rintro ⟨b, hb, rfl⟩
    exact hb.follows.2

/-! ## Schemas -/

/-- With an index the same schema is built. -/
theorem map_build (hb : b.Located) : b.build.map (·.schema) = b.toBuilder.build := by
  have hlink := NameIndex.Locates.map_linkTable_eq hb
  unfold build Builder.build Builder.checkTypes
  rw [← hlink]
  cases b.index.linkTable b.types with
  | error e => rfl
  | ok targets =>
    cases Builder.settle b.types with
    | error e => rfl
    | ok types => rfl

/-- The references of a schema that was built lead where the index of the builder says. -/
theorem targets_of_build {s : LinkedSchema} (h : b.build = .ok s) :
    s.index = .ofTable b.types ∧
      List.Forall₂ (fun d rs => List.Forall₂ (fun ref r => b.index.resolve? ref.1 = some r)
        d.references rs) b.types s.targets := by
  obtain ⟨targets, hlink, h⟩ := ok_of_bind h
  obtain ⟨types, -, h⟩ := ok_of_bind h
  cases h
  exact ⟨rfl, NameIndex.forall₂_of_linkTable hlink⟩

/-- In every builder that calls lead to the index is exact: it leads from the names of the
declarations to their places and from no other name.  The names are distinct, no other namespace and
name give any of them, and none is that of a primitive.  The builder is one that calls lead to
without an index, and the schema is built that is built without one.  The index of that schema is
the index of the builder, its declarations have the same names in the same order, and each of its
references stands for the type that it names; so does whatever a name refers to, and every such
reference leads to a type. -/
theorem places_exact (hb : b.Reachable) :
    (∀ name i, b.index.lookup name = some i ↔ ∃ d, b.types[i]? = some d ∧ d.fqn = name) ∧
    (b.types.map (·.fqn)).Nodup ∧
    (∀ d ∈ b.types, Primitive.ofName? d.fqn = none ∧
      ∀ ns name, Name.qualified ns name = d.fqn → ns = d.ns ∧ name = d.name) ∧
    b.toBuilder.Reachable ∧ b.build.map (·.schema) = b.toBuilder.build ∧
    ∀ s, b.build = .ok s →
      s.index = b.index ∧ s.schema.types.map (·.fqn) = b.types.map (·.fqn) ∧
      List.Forall₂ (fun d rs => List.Forall₂ (fun ref r => r.StandsFor s.schema.types ref.1)
        d.references rs) s.schema.types s.targets ∧
      (∀ name r, s.ref? name = some r → r.StandsFor s.schema.types name) ∧
      ∀ name r, r.StandsFor s.schema.types name →
        ∃ target, s.get? r = some target ∧ s.schema.types.resolve? name = some target := by
  obtain ⟨hlocated, hreach⟩ := hb.follows
  have hunique : (b.types.map (·.fqn)).Nodup := NameIndex.Locates.nodup hlocated
  refine ⟨fun name i => NameIndex.Locates.lookup_eq_some_iff hlocated, hunique, fun d hd => ?_,
    hreach, map_build hlocated, fun s hs => ?_⟩
  · refine ⟨Primitive.ofName?_qualified d.ns d.name, fun ns name heq => ?_⟩
    have hnamed := hreach.named d hd
    obtain ⟨hns, hname⟩ := Name.qualified_inj (hnamed d.ns List.mem_cons_self)
      (hnamed d.name (List.mem_cons_of_mem _ List.mem_cons_self)) heq.symm
    exact ⟨hns.symm, hname.symm⟩
  · obtain ⟨hindex, htargets⟩ := targets_of_build hs
    have hbuild : b.toBuilder.build = .ok s.schema := by
      rw [← map_build hlocated, hs]
      rfl
    have hshape := Builder.shape_of_build hbuild
    have hnames := TypeTable.names_of_shape hshape
    have hplaces : b.index.Locates (s.schema.types.map (·.fqn)) := hnames ▸ hlocated
    have hsame : s.index = b.index := by
      rw [hindex]
      exact (NameIndex.locates_ofTable hunique).unique hlocated
    refine ⟨hsame, hnames, ?_, fun name r hr => ?_, fun name r hr => ?_⟩
    · -- raising versions leaves the references alone
      have hrefs := TypeTable.references_of_shape hshape
      rw [← List.forall₂_map_left_iff (f := Declaration.references)] at htargets ⊢
      rw [hrefs]
      exact htargets.imp fun refs rs hrs => hrs.imp fun ref r hr => hplaces.standsFor hr
    · rw [LinkedSchema.ref?, hsame] at hr
      exact hplaces.standsFor hr
    · exact hr.target?_eq (hnames ▸ hunique)

/-- A snapshot with a struct that refers to itself, and an alias of it. -/
def treeSnapshot : Snapshot :=
  ⟨2, [
    { name := "tree", ns := some "a", version := some 1,
      fields := some [{ name := "child", typeName := "@a/tree", version := some 1 }] },
    { Description.aliasOf "root" "@a/tree" with ns := some "a", version := some 2 }]⟩

/-- The builder on top of it. -/
def treeBuilder : IndexedBuilder :=
  { revision := ⟨2, true, false, false⟩
    types := [
      ⟨"tree", "a", 1, .struct ⟨false, some 0, [⟨"child", "@a/tree", false, false, 1⟩]⟩⟩,
      ⟨"root", "a", 2, .alias "@a/tree"⟩]
    index := [("@a/root", 1), ("@a/tree", 0)] }

/-- Calls that add a versioned type and an array, declare the alias again and let the struct grow;
the first struct is refused. -/
def treeCalls : List Builder.Call :=
  let child : FieldDescription := { name := "child", typeName := "@a/tree" }
  [.declareNamespace "a",
    .registerIn "a" { name := "any", versions := some [⟨"uint", 1, none⟩, ⟨"@a/root", 4, none⟩] },
    .registerIn "a" { name := "tree", fields := some [{ child with typeName := "@a/any" }] },
    .registerIn "a" (.aliasOf "root" "@a/tree"),
    .registerIn "a" (.arrayOf "all" "@a/any"),
    .registerIn "a" { name := "tree", fields := some [child,
      { name := "label", typeName := "string" }, { name := "more", typeName := "@a/all" }] }]

theorem places_exact_trees :
    ∃ (b : IndexedBuilder) (s : LinkedSchema), b.Reachable ∧ b.build = .ok s ∧
      s.index = [("@a/all", 3), ("@a/any", 2), ("@a/root", 1), ("@a/tree", 0)] ∧
      s.targets = [[.declared 0, .primitive .string, .declared 3], [.declared 0],
        [.primitive .uint, .declared 1], [.declared 2]] ∧
      List.Forall₂ (fun d rs => List.Forall₂ (fun ref r => r.StandsFor s.schema.types ref.1)
        d.references rs) s.schema.types s.targets := by
  have hstart : ofSnapshot treeSnapshot true = .ok treeBuilder := by decide +kernel
  have hreach : (treeBuilder.after treeCalls).Reachable := Reachable.after (.ofSnapshot hstart) _
  have hindex : (treeBuilder.after treeCalls).index =
      [("@a/all", 3), ("@a/any", 2), ("@a/root", 1), ("@a/tree", 0)] := by decide +kernel
  have hbuild : (treeBuilder.after treeCalls).build.map (·.targets) =
      .ok [[.declared 0, .primitive .string, .declared 3], [.declared 0],
        [.primitive .uint, .declared 1], [.declared 2]] := by decide +kernel
  obtain ⟨s, hs, htargets⟩ := ok_of_map hbuild
  obtain ⟨-, -, -, -, -, hschema⟩ := places_exact hreach
  obtain ⟨hsame, -, hrefs, -⟩ := hschema s hs
  exact ⟨_, s, hreach, hs, hsame.trans hindex, htargets, hrefs⟩

end IndexedBuilder

end WireSchema

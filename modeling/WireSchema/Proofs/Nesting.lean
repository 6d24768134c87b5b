import WireSchema.Proofs.SchemaRoundTrip
import WireSchema.Proofs.WritingDepth

/-!
# How deep reading nests

Reading a type calls the readers of the types that its declaration names.  A level is a type and the
cursor that it is read from, and a level calls another when its own run changes with what the other
one gives (`TypeTable.Calls`).  A call comes behind a byte, or it follows a reference that every
value must hold (`calls_inv`).  Such references do not go in circles in a table that passed its
checks, so the levels below each other are bounded by the bytes that are left (`length_calls_le`).
Together with `runFrom_layersOver_eq` and `samePasses_layersOver` this says that the recursion along
the declarations comes to an end for all bytes and all values (`Schema.recursion_ends`).
-/

namespace WireSchema

open CursorM

namespace TypeTable

variable {t : TypeTable} {b : Bindings}

theorem rank_lt_of_needs (hfin : t.Finite) {name other : String}
    (h : Relation.TransGen t.Needs name other) : t.rank other < t.rank name := by
  induction h with
  | single h =>
    obtain ⟨d, hd, hc⟩ := h
    exact rank_lt hfin hd hc
  | tail _ h ih =>
    obtain ⟨d, hd, hc⟩ := h
    exact Nat.lt_trans (rank_lt hfin hd hc) ih

/-- No type needs itself. -/
theorem Finite.needs_irrefl (hfin : t.Finite) (name : String) :
    ¬ Relation.TransGen t.Needs name name :=
  fun h => Nat.lt_irrefl _ (rank_lt_of_needs hfin h)

/-! ## Calls -/

/-- The reader of one level calls that of another: it runs differently over some codecs that read
like those of the table everywhere but at the other level. -/
def Calls (t : TypeTable) (b : Bindings) (level other : String × Cursor) : Prop :=
  ∃ child : String → Codec,
    (∀ l, l ≠ other → (child l.1).read.runFrom l.2 = (t.typeCodec b l.1).read.runFrom l.2) ∧
    (t.codecLayer b child level.1).read.runFrom level.2 ≠
      (t.typeCodec b level.1).read.runFrom level.2

/-- The codecs of the table, but that one level fails. -/
def failingAt (t : TypeTable) (b : Bindings) (level : String × Cursor) (e : CodecError)
    (name : String) : Codec :=
  { t.typeCodec b name with
    read := do
      let c ← get
      if (name, c) = level then throw e else (t.typeCodec b name).read }

/-- A level that fails differently when another fails has called it. -/
theorem calls_of_failingAt {level other : String × Cursor} {e : CodecError}
    (h : (t.codecLayer b (t.failingAt b other e) level.1).read.runFrom level.2 ≠
      (t.typeCodec b level.1).read.runFrom level.2) : t.Calls b level other := by
  refine ⟨t.failingAt b other e, fun l hl => ?_, h⟩
  unfold failingAt
  rw [runFrom_bind_ok (runFrom_get l.2), if_neg hl]

/-- A type that is called is needed, or it is named and read behind a byte. -/
theorem calls_inv (hfin : t.Finite) {name child : String} {c c' : Cursor}
    (hclosed : t.Throughout (t.IsClosed b) name) (hc : c.WellFormed)
    (h : t.Calls b (name, c) (child, c')) :
    ∃ d, t.resolve? name = some (.declared d) ∧
      (child ∈ d.needs ∧ c.Ahead 0 c' ∨ child ∈ d.refNames ∧ c.Ahead 1 c') := by
  obtain ⟨other, hsame, hdiffer⟩ := h
  by_contra hno
  -- a level that the layer may look at is none that was changed
  apply hdiffer
  show (t.codecLayer b other name).read.runFrom c = (t.typeCodec b name).read.runFrom c
  rw [runFrom_typeCodec_layer hfin hclosed.binds hc]
  refine runFrom_layer_congr
    (fun d hd x hx => (confined_typeCodec (hclosed.child hd hx)).onward) hc ?_ ?_
  · intro d hd x hx e he
    refine hsame (x, e) fun heq => hno ⟨d, hd, .inl ?_⟩
    cases heq
    exact ⟨hx, he⟩
  · intro d hd x hx e he
    refine hsame (x, e) fun heq => hno ⟨d, hd, .inr ?_⟩
    cases heq
    exact ⟨hx, he⟩

/-- The levels below each other are at most as many as are enough for the bytes that are left. -/
theorem length_calls_le (hfin : t.Finite) {name : String} {c : Cursor}
    {levels : List (String × Cursor)} (hclosed : t.Throughout (t.IsClosed b) name)
    (hc : c.WellFormed) (h : ((name, c) :: levels).IsChain (t.Calls b)) :
    levels.length + 1 ≤ t.enough name c.remaining := by
  induction levels generalizing name c with
  | nil => exact Nat.le_add_left 1 _
  | cons level rest ih =>
    obtain ⟨child, c'⟩ := level
    obtain ⟨hcall, hrest⟩ := List.isChain_cons_cons.mp h
    obtain ⟨d, hd, ⟨hneed, hahead⟩ | ⟨hname, hahead⟩⟩ := calls_inv hfin hclosed hc hcall
    · have hclosed' := hclosed.child hd (d.needs_subset_refNames hneed)
      have hle := enough_need hfin hd hneed (show c'.remaining ≤ c.remaining from hahead.remaining)
      exact Nat.le_trans (Nat.succ_le_succ (ih hclosed' (hahead.wellFormed hc) hrest)) hle
    · have hclosed' := hclosed.child hd hname
      have hle := enough_lt hfin name child hahead.remaining
      exact Nat.le_trans (Nat.succ_le_succ (ih hclosed' (hahead.wellFormed hc) hrest)) hle

end TypeTable

namespace Schema

/-- In a built schema without external types the references that every value must hold do not go in
circles.  A nested call of a reader looks at the same bytes up to the same limit or a nearer one,
and comes behind a byte or follows such a reference, so at most `(N + 1) * (L + 1)` levels stand
below each other when one of `N` types is read from `L` bytes.  The codec of a type is the
solution of the recursion along the declarations: it reads, measures and writes like its layer over
the codecs of all types, and like so many layers over any codecs whatever, which are never come
to. -/
theorem recursion_ends {s : Schema} (hs : s.Built)
    (hplain : ∀ d ∈ s.types, ∀ symbol, d.body ≠ .external symbol) (b : Bindings) (name : String) :
    ¬ Relation.TransGen s.types.Needs name name ∧
      (∀ c child c', c.WellFormed → s.types.Calls b (name, c) (child, c') →
        c'.buffer = c.buffer ∧ c.pos ≤ c'.pos ∧ c'.pos ≤ c'.limit ∧ c'.limit ≤ c.limit ∧
          (c.pos < c'.pos ∨ s.types.Needs name child)) ∧
      (∀ (bytes : Bytes) levels,
        ((name, Cursor.ofBytes bytes) :: levels).IsChain (s.types.Calls b) →
          levels.length + 1 ≤ (s.types.length + 1) * (bytes.length + 1)) ∧
      (∀ c : Cursor, c.WellFormed →
        (s.types.typeCodec b name).read.runFrom c =
            (s.types.codecLayer b (s.types.typeCodec b) name).read.runFrom c ∧
          ∀ base n, (s.types.length + 1) * (c.remaining + 1) ≤ n →
            (s.types.layersOver b base n name).read.runFrom c =
              (s.types.typeCodec b name).read.runFrom c) ∧
      ∀ v : Value,
        Codec.SamePasses (s.types.typeCodec b name)
            (s.types.codecLayer b (s.types.typeCodec b) name) v ∧
          ∀ base n, (s.types.length + 1) * (v.depth + 1) ≤ n →
            Codec.SamePasses (s.types.layersOver b base n name) (s.types.typeCodec b name) v := by
  have hfin := hs.sound.finite
  have hclosed : s.types.Throughout (s.types.IsClosed b) name := fun _ _ d symbol hd hb =>
    absurd hb (hplain d (TypeTable.mem_of_resolve? hd).1 symbol)
  have hdepth (size : Nat) : s.types.enough name size ≤ (s.types.length + 1) * (size + 1) :=
    TypeTable.enough_le_depthFor hfin name size
  refine ⟨hfin.needs_irrefl name, ?_, ?_, ?_, ?_⟩
  · intro c child c' hc hcall
    obtain ⟨d, hd, ⟨hneed, hahead⟩ | ⟨-, hahead⟩⟩ := TypeTable.calls_inv hfin hclosed hc hcall
    · have hneeds : s.types.Needs name child := ⟨d, (TypeTable.resolve?_eq_declared.mp hd).2, hneed⟩
      exact ⟨hahead.buffer, hahead.pos, hahead.inside, hahead.limit, .inr hneeds⟩
    · exact ⟨hahead.buffer, Nat.le_of_lt hahead.pos, hahead.inside, hahead.limit, .inl hahead.pos⟩
  · intro bytes levels h
    have hle := TypeTable.length_calls_le hfin hclosed (Cursor.wellFormed_ofBytes bytes) h
    exact Nat.le_trans hle (hdepth bytes.length)
  · intro c hc
    refine ⟨TypeTable.runFrom_typeCodec_layer hfin hclosed.binds hc, fun base n hn => ?_⟩
    exact TypeTable.runFrom_layersOver_eq hfin hclosed.binds hc (Nat.le_trans (hdepth _) hn)
  · intro v
    refine ⟨TypeTable.samePasses_typeCodec_layer hfin name v, fun base n hn => ?_⟩
    exact TypeTable.samePasses_typeCodec hfin (Nat.le_trans (hdepth _) hn)

/-- A node with two kids, written out. -/
def treeBytes : Bytes := [7, 7, 1, 120, 2, 4, 253, 44, 1, 0, 2, 1, 1]

/-- The first kid is called in its frame and calls its number where it stands, and no list of such
levels is longer than 42. -/
theorem recursion_ends_tree :
    [("@a/node", Cursor.ofBytes treeBytes),
        ("@a/node", { pos := 6, limit := 10, buffer := treeBytes }),
        ("uint", { pos := 6, limit := 10, buffer := treeBytes })].IsChain (tree.types.Calls {}) ∧
      tree.types.Needs "@a/node" "uint" ∧
      (∀ levels, (("@a/node", Cursor.ofBytes treeBytes) :: levels).IsChain (tree.types.Calls {}) →
        levels.length + 1 ≤ 42) ∧
      ∀ base, (tree.types.layersOver {} base 42 "@a/node").read.runFrom (.ofBytes treeBytes) =
        (tree.types.typeCodec {} "@a/node").read.runFrom (.ofBytes treeBytes) := by
  have hplain : ∀ d ∈ tree.types, ∀ symbol, d.body ≠ .external symbol := by
    simp [tree]
  have hkid : tree.types.Calls {} ("@a/node", Cursor.ofBytes treeBytes)
      ("@a/node", { pos := 6, limit := 10, buffer := treeBytes }) := by
    refine TypeTable.calls_of_failingAt (e := .unexpectedEnd) fun h => ?_
    have hok := congrArg (fun r => r.1.toBool) h
    revert hok
    decide +kernel
  have hid : tree.types.Calls {} ("@a/node", { pos := 6, limit := 10, buffer := treeBytes })
      ("uint", { pos := 6, limit := 10, buffer := treeBytes }) := by
    refine TypeTable.calls_of_failingAt (e := .unexpectedEnd) fun h => ?_
    have hok := congrArg (fun r => r.1.toBool) h
    revert hok
    decide +kernel
  obtain ⟨-, hcalls, hlevels, hreads, -⟩ := recursion_ends tree_built hplain {} "@a/node"
  refine ⟨.cons_cons hkid (.cons_cons hid (.singleton _)), ?_, hlevels treeBytes, fun base => ?_⟩
  · have hstill := (hcalls _ _ _ ⟨by decide, by decide⟩ hid).2.2.2.2
    exact hstill.resolve_left (Nat.lt_irrefl 6)
  · exact (hreads _ (Cursor.wellFormed_ofBytes treeBytes)).2 base 42 (by decide)

end Schema

end WireSchema

import WireSchema.Proofs.PassEnds
import WireSchema.Proofs.Reproduction
import WireSchema.Proofs.SchemaCompatibility

/-!
# Schemas write what they have read

What a built schema reads from the bytes of a value it writes again, and reads as the same value, if
every struct in it has its required fields; otherwise it refuses the value for one that is missing.
The required fields are there whenever none of them can be read as null (`encode_decoded`).
-/

namespace WireSchema

namespace Schema

/-- A value that was read from written bytes is written again and read as itself, provided that
every struct in it has its required fields, and is refused for a missing one otherwise.  This holds
for every type that reaches no external type, no `raw`, no `float32`, no migrated latest shape, no
struct with two fields of one name and no array of items that may be empty.  The required fields are
there if no type that is reached has a required field whose type ends in `buffer` or `none`. -/
theorem encode_decoded {s : Schema} (hs : s.Built) {b : Bindings} {name : String}
    (hT : s.types.Throughout (s.types.Reproducible b) name) {v : Value}
    (hj : s.types.PlainJson false name v) {bytes : Bytes} (hfits : bytes.Fits)
    (h : s.encode b name v = .ok bytes) {w : Value} (hw : s.decode b name bytes = .ok w) :
    (s.types.Filled false name w → ∃ again, s.encode b name w = .ok again ∧
      (again.Fits → s.decode b name again = .ok w)) ∧
    (¬ s.types.Filled false name w →
      ∃ fqn field, s.encode b name w = .error (.missingRequiredField fqn field)) ∧
    (s.types.Throughout s.types.Solid name → s.types.Filled false name w) := by
  have hresolve := resolve?_of_encode h
  obtain ⟨hcodec, hencode⟩ := codec?_of_encode h
  have hwritten (u : Value) : s.encode b name u = (s.types.typeCodec b name).encode u := by
    rw [encode, hcodec, ok_bind]
  have hread (x : Bytes) :
      s.decode b name x = ((s.types.typeCodec b name).read.parse x).map Prod.fst := by
    rw [decode_eq_map, decodeFirst_eq_parse hresolve]
  rw [hread] at hw
  obtain ⟨⟨w', k⟩, hparse, rfl⟩ := ok_of_map hw
  have hy := (Codec.encode_eq_ok_iff (TypeTable.regular_typeCodec hT.reproducible_closed)).mp hencode
  obtain ⟨-, hsettled⟩ := TypeTable.settles_typeCodec hs.sound hT hj bytes hfits hy [] w' k
    (by rw [List.append_nil]; exact hparse)
  refine ⟨fun hfilled => ?_, fun hfilled => ?_, hsettled.full⟩
  · obtain ⟨again, hagain, hback⟩ := hsettled.again hfilled
    refine ⟨again, (hwritten _).trans (Codec.encode_of_yields hagain), fun hfits' => ?_⟩
    have halone := hback hfits' []
    rw [List.append_nil] at halone
    rw [hread, halone]
    rfl
  · obtain ⟨fqn, field, hrefuses⟩ := hsettled.missing hfilled
    exact ⟨fqn, field, (hwritten _).trans (Codec.encode_of_refuses hrefuses).2⟩

/-! Notes with a required body, which may be empty, and pages with a title. -/

/-- The fields of a page. -/
def pageFields : List FieldDescription :=
  [{ name := "title", typeName := "string", required := true },
    { name := "seal", typeName := "buffer" }, { name := "count", typeName := "uint" },
    { name := "pages", typeName := "@a/page", array := true }]

/-- The calls that register notes and pages. -/
def notebookCalls : List Builder.Call :=
  [.declareNamespace "a",
    .registerIn "a" { name := "note",
                      fields := some [{ name := "body", typeName := "buffer", required := true }] },
    .registerIn "a" { name := "page", fields := some pageFields }]

/-- The struct of a note. -/
def noteBody : StructBody := ⟨false, none, [⟨"body", "buffer", true, false, 1⟩]⟩

/-- The struct of a page. -/
def pageBody : StructBody :=
  ⟨false, some 1, [⟨"title", "string", true, false, 1⟩, ⟨"seal", "buffer", false, false, 1⟩,
    ⟨"count", "uint", false, false, 1⟩, ⟨"pages", "@a/page", false, true, 1⟩]⟩

/-- The schema of notes and pages. -/
def notebook : Schema :=
  ⟨1, true, true, [⟨"note", "a", 1, .struct noteBody⟩, ⟨"page", "a", 1, .struct pageBody⟩],
    [("a", none)], [⟨.typeAdded, "@a/note", none, 1⟩, ⟨.typeAdded, "@a/page", none, 1⟩]⟩

theorem notebook_built : notebook.Built :=
  ⟨(Builder.fresh true).after notebookCalls, (Builder.Reachable.fresh true).after notebookCalls,
    rfl⟩

/-- The types of notes and pages. -/
def notebookTypes : List String := ["@a/note", "@a/page", "buffer", "string", "uint"]

theorem notebook_restorable : ∀ name ∈ notebookTypes, notebook.types.Restorable {} name := by
  have hnote : notebook.types.resolve? "@a/note" =
      some (.declared ⟨"note", "a", 1, .struct noteBody⟩) := rfl
  have hpage : notebook.types.resolve? "@a/page" =
      some (.declared ⟨"page", "a", 1, .struct pageBody⟩) := rfl
  have hbuffer : notebook.types.resolve? "buffer" = some (.primitive .buffer) := rfl
  have hstring : notebook.types.resolve? "string" = some (.primitive .string) := rfl
  have huint : notebook.types.resolve? "uint" = some (.primitive .uint) := rfl
  simp only [notebookTypes, List.forall_mem_cons]
  refine ⟨TypeTable.restorable_struct hnote rfl (by decide) (by decide),
    TypeTable.restorable_struct hpage rfl (by decide) (by decide), ?_⟩
  simp [TypeTable.Restorable, hbuffer, hstring, huint]

theorem notebook_reproducible (name : String) (hname : name ∈ notebookTypes) :
    notebook.types.Reproducible {} name := by
  have hdouble : ∀ name ∈ notebookTypes,
      notebook.types.resolve? name ≠ some (.primitive .float32) := by decide
  exact (notebook_restorable name hname).reproducible (hdouble name hname)

theorem notebook_no_json :
    ∀ name ∈ notebookTypes, notebook.types.resolve? name ≠ some (.primitive .json) := by
  decide

/-- Notes and pages are read back as their normal forms. -/
theorem decode_notebook {name : String} (hname : name ∈ notebookTypes) {v w : Value}
    {bytes : Bytes} (h : notebook.encode {} name v = .ok bytes)
    (hw : notebook.types.norm name v = .ok w) (hfits : bytes.Fits) :
    notebook.decode {} name bytes = .ok w := by
  have hclosed : notebook.types.encloses notebookTypes = true := rfl
  obtain ⟨w', hw', hread⟩ := decodeFirst_of_encloses notebook_built hclosed notebook_restorable
    notebook_no_json hname hfits h
  obtain rfl := Except.ok.inj (hw.symm.trans hw')
  rw [decode_eq_map, ← List.append_nil bytes, hread []]
  rfl

/-- The types that a page reaches have no required field that can be read as null. -/
theorem page_solid : notebook.types.Throughout notebook.types.Solid "@a/page" := by
  have hstring : notebook.types.resolve? "string" = some (.primitive .string) := rfl
  have hclosed : notebook.types.encloses notebookTypes.tail = true := rfl
  refine TypeTable.throughout_of_encloses hclosed (fun name hname s hs => ?_) List.mem_cons_self
  have hstruct : ∀ name ∈ notebookTypes.tail, notebook.types.struct? name = none ∨
      notebook.types.struct? name = some pageBody := by decide
  rcases hstruct name hname with hnone | hpage
  · cases hs.symm.trans hnone
  · cases hs.symm.trans hpage
    have htitle : ∀ f ∈ pageBody.fields, f.required = true → f.typeName = "string" := by decide
    intro f hf hrequired _
    rw [htitle f hf hrequired]
    exact TypeTable.not_blank_primitive hstring (by decide)

/-- The value of a page that holds another. -/
def page : Value :=
  .struct [("title", .string "x"), ("pages", .array [.struct [("title", .string "y")]])]

/-- The page as it is read: with the defaults of what is absent. -/
def pageRead : Value :=
  .struct [("count", .uint 0),
    ("pages", .array [.struct [("count", .uint 0), ("pages", .null), ("seal", .null),
      ("title", .string "y")]]),
    ("seal", .null), ("title", .string "x")]

/-- An empty body is read as null, and a note without a body is refused; a page is written again,
with the defaults that were read. -/
theorem encode_decoded_notebook :
    (notebook.encode {} "@a/note" (.struct [("body", .bytes [])]) = .ok [0] ∧
      notebook.decode {} "@a/note" [0] = .ok (.struct [("body", .null)]) ∧
      ∃ fqn field, notebook.encode {} "@a/note" (.struct [("body", .null)]) =
        .error (.missingRequiredField fqn field)) ∧
    (notebook.encode {} "@a/page" page = .ok [1, 120, 4, 1, 3, 1, 121, 0] ∧
      notebook.decode {} "@a/page" [1, 120, 4, 1, 3, 1, 121, 0] = .ok pageRead ∧
      ∃ again, notebook.encode {} "@a/page" pageRead = .ok again ∧
        (again.Fits → notebook.decode {} "@a/page" again = .ok pageRead)) := by
  have hclosed : notebook.types.encloses notebookTypes = true := by rfl
  have hthroughout {name : String} (hname : name ∈ notebookTypes) :=
    TypeTable.throughout_of_encloses hclosed notebook_reproducible hname
  have hjson {name : String} (hname : name ∈ notebookTypes) (v : Value) :=
    TypeTable.plainJson_of_unreached
      (TypeTable.throughout_of_encloses hclosed notebook_no_json hname) false v
  have hnote : "@a/note" ∈ notebookTypes := by decide
  have hpage : "@a/page" ∈ notebookTypes := by decide
  have hempty : notebook.encode {} "@a/note" (.struct [("body", .bytes [])]) = .ok [0] := by
    decide +kernel
  have hnull : notebook.decode {} "@a/note" [0] = .ok (.struct [("body", .null)]) := by
    have hnorm : notebook.types.norm "@a/note" (.struct [("body", .bytes [])]) =
        .ok (.struct [("body", .null)]) := by rfl
    exact decode_notebook hnote hempty hnorm (by decide)
  have hmissing : ¬ notebook.types.Filled false "@a/note" (.struct [("body", .null)]) := by
    intro hfilled
    have hbody := hfilled _ _ _ (.here _ _ _) noteBody rfl _ rfl
      ⟨"body", "buffer", true, false, 1⟩ (by decide) rfl
    exact absurd hbody (by decide)
  have hencode : notebook.encode {} "@a/page" page = .ok [1, 120, 4, 1, 3, 1, 121, 0] := by
    decide +kernel
  have hdecode : notebook.decode {} "@a/page" [1, 120, 4, 1, 3, 1, 121, 0] = .ok pageRead := by
    have hnorm : notebook.types.norm "@a/page" page = .ok pageRead := by rfl
    exact decode_notebook hpage hencode hnorm (by decide)
  have hrefused := encode_decoded notebook_built (hthroughout hnote) (hjson hnote _) (by decide)
    hempty hnull
  have hagain := encode_decoded notebook_built (hthroughout hpage) (hjson hpage _) (by decide)
    hencode hdecode
  exact ⟨⟨hempty, hnull, hrefused.2.1 hmissing⟩, hencode, hdecode,
    hagain.1 (hagain.2.2 page_solid)⟩

end Schema

end WireSchema

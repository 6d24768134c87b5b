import WireSchema.Proofs.SourceWords
import WireSchema.Proofs.TypeCodec

/-!
# Words of emitted modules

What an emitted module refers to besides its codecs and the reserved names: standard names
(`standardNames`) and the first words of the paths that it is given (`givenPaths`).  The lines of
each part are gone through with any names for the codecs, none of them included
(`Scope.reads_text`).
-/

namespace WireSchema

namespace Emit

/-- The text of a module with the codecs named as in a scope. -/
def Scope.text (sc : Scope) (o : Options) : String :=
  unlines (preludeLines sc.schema o ++ sc.schema.types.flatMap (declarationLines sc) ++
    lookupsLines sc o)

theorem moduleText_eq (s : Schema) (o : Options) : moduleText s o = (Scope.ofSchema s).text o := rfl

/-- The names in a scope are identifiers among the given ones. -/
def Scope.Within (sc : Scope) (names : List String) : Prop :=
  ∀ entry ∈ sc.names, IsIdentifier entry.2 ∧ entry.2 ∈ names

/-! ## Given paths and standard names -/

/-- Whether a codec takes something from the module of its namespace. -/
def usesModule : Body → Bool
  | .external _ => true
  | .versioned entries => entries.any (·.map.isSome)
  | _ => false

/-- The standard names that a codec refers to. -/
def codecWords : Body → List String
  | .struct _ => ["Result", "Ok"]
  | .versioned entries =>
    if entries.isEmpty then []
    else ["Result", "Err"] ++ if entries.any (·.map.isSome) then ["Ok"] else []
  | .external _ => []
  | _ => ["Result"]

/-- The path of the module of a namespace. -/
def givenModule (s : Schema) (ns : String) : String := (s.modulePath? ns).getD "super"

theorem modulePath_eq (sc : Scope) (ns : String) :
    modulePath sc ns = givenModule sc.schema ns := rfl

/-- The paths that stand in the text of a module as they are given. -/
def givenPaths (s : Schema) (o : Options) : List String :=
  o.runtimePath :: (s.types.filter fun d => usesModule d.body).map fun d => givenModule s d.ns

/-- The standard names that the text of a module refers to. -/
def standardNames (s : Schema) : List String :=
  ["Option", "None", "Result", "Vec"] ++ (if s.types.isEmpty then [] else ["Some"]) ++
    s.types.flatMap fun d => codecWords d.body

/-- What is given to be named in the text of a module is named by paths. -/
structure GivesPaths (s : Schema) (o : Options) : Prop where
  runtime : IsPath o.runtimePath
  modules : ∀ d ∈ s.types, usesModule d.body = true → IsPath (givenModule s d.ns)
  symbols : ∀ d ∈ s.types, ∀ symbol, d.body = .external symbol → IsPath symbol
  maps : ∀ d ∈ s.types, ∀ entries, d.body = .versioned entries →
    ∀ e ∈ entries, ∀ map, e.map = some map → IsPath map

/-! ## Expressions -/

section Lines

variable {names : List String} {sc : Scope}

theorem Scope.Within.mentions (h : sc.Within names) (key : String) :
    Mentions names ((sc.names.lookup key).getD "") [] := by
  refine mentions_name ?_
  cases hfound : sc.names.lookup key with
  | none => exact .inl rfl
  | some name =>
    obtain ⟨before, after, hnames, -⟩ := List.lookup_eq_some_iff.mp hfound
    exact .inr (h (key, name) (by simp [hnames]))

theorem isPart_variant : ∀ entry ∈ Primitive.catalogue, IsPart (variant entry.2) := by
  decide +kernel

theorem mentions_typeExpr (h : sc.Within names) (name : String) :
    Mentions names (typeExpr sc name) [] := by
  unfold typeExpr
  split
  · next p hp =>
    obtain ⟨before, after, hcatalogue, -⟩ := List.lookup_eq_some_iff.mp hp
    have hpart := isPart_variant (name, p) (by simp [hcatalogue])
    have hpath : IsPath ("Primitive" ++ "::" ++ variant p) := (IsPath.word (by decide)).member hpart
    refine hpath.mentions_nothing ?_
    rw [String.append_assoc, pathHead_append _ (opens_colons _)]
    decide
  · exact h.mentions name

theorem mentions_memberExpr (h : sc.Within names) (name : String) (framed array : Bool) :
    Mentions names (memberExpr sc name framed array) [] := by
  have hwrap {head : List Char} (hhead : isSilent head = true) {expr : String}
      (hexpr : Mentions names expr []) (wrap : Bool) :
      Mentions names (if wrap then String.ofList head ++ expr ++ ")" else expr) [] := by
    cases wrap with
    | false => exact hexpr
    | true => exact hexpr.between hhead (by decide)
  exact hwrap (by decide) (hwrap (by decide) (mentions_typeExpr h name) framed) array

theorem valueLiteral_zero : valueLiteral (.int 0) = "Value::Int(0)" ∧
    valueLiteral (.float Double.zero) = "Value::Float(0.0)" ∧
    valueLiteral (.bigInt (Int128.ofInt 0)) = "Value::BigInt(0)" := by
  decide +kernel

/-- The literals of default values mention nothing. -/
theorem mentions_default (t : TypeTable) (f : Field) (flag : Nat) :
    Mentions names (valueLiteral (t.fieldStep f flag).default) [] := by
  obtain ⟨hint, hfloat, hbigInt⟩ := valueLiteral_zero
  have hnull : Mentions names (valueLiteral .null) [] := mentions_of_isQuiet (by decide)
  have hprimitive (p : Primitive) : Mentions names (valueLiteral p.defaultValue) [] := by
    unfold Primitive.defaultValue
    cases p.category with
    | unsigned => exact (mentions_number _).between (by decide) (by decide)
    | signed => exact hint ▸ mentions_of_isQuiet (by decide)
    | float => exact hfloat ▸ mentions_of_isQuiet (by decide)
    | bigInt => exact hbigInt ▸ mentions_of_isQuiet (by decide)
    | boolean => exact (mentions_bool _).between (by decide) (by decide)
    | _ => exact hnull
  show Mentions names (valueLiteral (if f.array then .null else t.defaultValue f.typeName)) []
  split
  · exact hnull
  · unfold TypeTable.defaultValue
    split
    · exact hprimitive _
    · exact hnull

/-! ## Parts of codecs -/

theorem linesMention_blank : LinesMention names [""] [] :=
  (reads_of_isSilent (by decide)).line

theorem reads_writerHead {method : String} (h : Mentions names method []) :
    Reads names (writerHead method) ["Result"] := by
  have htail : Reads names "(&self, state: &mut State, m: &Value) -> Result<(), CodecError>"
      ["Result"] := .literal (by decide)
  exact (h.behind (by decide)).reads htail (by decide)

theorem linesMention_methods {name : String} {preencode encode decode : Lines}
    {ws ws' ws'' : List String} (hname : Mentions names name [])
    (hp : LinesMention names preencode ws) (he : LinesMention names encode ws')
    (hd : LinesMention names decode ws'') :
    LinesMention names (methods name preencode encode decode)
      ("Result" :: (ws ++ ws' ++ ws'')) := by
  have hmeasure : Reads names (writerHead "preencode") ["Result"] :=
    reads_writerHead (mentions_of_isQuiet (by decide))
  have hwrite : Reads names (writerHead "encode") ["Result"] :=
    reads_writerHead (mentions_of_isQuiet (by decide))
  have hread : Reads names readerHead ["Result"] := .literal (by decide)
  have hbody := ((((LinesMention.block hmeasure.toMentions hp).before linesMention_blank).append
    (.block hwrite.toMentions he)).before linesMention_blank).append (.block hread.toMentions hd)
  refine LinesMention.congr (.before (.within (hname.behind (by decide)) hbody)
    linesMention_blank) fun w => ?_
  grind

theorem linesMention_delegate {name expr : String} (hname : Mentions names name [])
    (hexpr : Mentions names expr []) : LinesMention names (delegate name expr) ["Result"] :=
  linesMention_methods hname (hexpr.before (by decide)).line
    (hexpr.before (by decide)).line (hexpr.before (by decide)).line

theorem newline_not_mem_caption {d : Declaration} (h : '\n' ∉ d.fqn.toList) :
    '\n' ∉ (caption d).toList := by
  have hversion : '\n' ∉ Nat.toDigits 10 d.version.toNat := fun hmem =>
    absurd (Nat.isDigit_of_mem_toDigits (by decide) (by decide) hmem) (by decide)
  simp [caption, h, hversion]

/-- The comment that heads a codec. -/
theorem linesMention_caption {d : Declaration} (h : '\n' ∉ d.fqn.toList) (note : String)
    (hnote : '\n' ∉ note.toList) : LinesMention names [caption d ++ note] [] := by
  have hslashes : (caption d ++ note).toList.take 2 = ['/', '/'] := by
    simp only [caption, String.toList_append, List.append_assoc]
    rfl
  refine linesMention_comment hslashes ?_
  rw [String.toList_append, List.mem_append, not_or]
  exact ⟨newline_not_mem_caption h, hnote⟩

theorem linesMention_heading {d : Declaration} (h : '\n' ∉ d.fqn.toList) {name : String}
    (hname : Mentions names name []) : LinesMention names (heading d name) [] := by
  have hcaption : LinesMention names [caption d] [] := by
    simpa using linesMention_caption h "" (by decide)
  exact hcaption.behind (.cons (hname.between (by decide) (by decide)) linesMention_blank)

/-! ## Enums, external and versioned types -/

theorem linesMention_enumLines {d : Declaration} (h : '\n' ∉ d.fqn.toList) (e : EnumBody)
    {name : String} (hname : Mentions names name []) :
    LinesMention names (enumLines d e name) ["Result"] := by
  have hpairs : Reads names (String.intercalate ", " (e.codes.map fun code =>
      "(" ++ quoted code.1 ++ ", " ++ toString code.2.toNat ++ ")")) [] := by
    refine reads_intercalate (by decide) fun piece hpiece => ?_
    obtain ⟨code, -, rfl⟩ := List.mem_map.mp hpiece
    exact (((reads_quoted code.1).between (by decide) (by decide)).mentions
      (mentions_number _)).before (by decide)
  have hkeys : Reads names (String.intercalate ", " (e.keys.map quoted)) [] := by
    refine reads_intercalate (by decide) fun piece hpiece => ?_
    obtain ⟨key, -, rfl⟩ := List.mem_map.mp hpiece
    exact reads_quoted key
  refine .behind (.behind (.behind (linesMention_heading h hname) ?_) linesMention_blank)
    (linesMention_delegate hname (mentions_of_isQuiet (by decide)))
  refine .within (hname.behind (by decide)) (.behind (.behind ?_ (.indent ?_))
    (mentions_of_isQuiet (by decide)).line)
  · exact .cons (hpairs.between (by decide) (by decide)).toMentions
      (.cons (mentions_of_isQuiet (by decide)) (mentions_of_isQuiet (by decide)).line)
  · exact .cons ((reads_quoted _).between (by decide) (by decide)).toMentions
      (.cons (hkeys.between (by decide) (by decide)).toMentions
        (.cons ((mentions_number _).between (by decide) (by decide))
          ((mentions_bool _).between (by decide) (by decide)).line))

theorem linesMention_externalLines {d : Declaration} (h : '\n' ∉ d.fqn.toList)
    {symbol name : String} (hmodule : IsPath (givenModule sc.schema d.ns)) (hsymbol : IsPath symbol)
    (hname : Mentions names name []) :
    LinesMention names (externalLines sc d symbol name)
      [pathHead (givenModule sc.schema d.ns)] := by
  have huse : Reads names ("pub use " ++ (givenModule sc.schema d.ns ++ "::" ++ symbol) ++ " as " ++
      name ++ ";") [pathHead (givenModule sc.schema d.ns)] :=
    ((((hmodule.mentions_member hsymbol).behind (by decide)).before (by decide)).mentions_silent
      hname).before (by decide)
  simp only [← String.append_assoc] at huse
  rw [externalLines, modulePath_eq]
  exact .behind (linesMention_caption h ", supplied externally" (by decide))
    (huse.line.before linesMention_blank)

/-- An arm with a map mentions the module that the map comes from. -/
theorem mentions_entryArm (hsc : sc.Within names) {d : Declaration} {e : VersionEntry}
    (hmodule : e.map.isSome = true → IsPath (givenModule sc.schema d.ns))
    (hmap : ∀ map, e.map = some map → IsPath map) :
    Mentions names (entryArm sc d e)
      (if e.map.isSome then ["Ok", pathHead (givenModule sc.schema d.ns)] else []) := by
  have htag : Mentions names (toString e.version.toNat) [] := mentions_number _
  have hexpr := mentions_typeExpr hsc e.typeName
  rw [entryArm, modulePath_eq]
  cases hm : e.map with
  | none =>
    exact (((htag.before (by decide)).mentions hexpr).before (by decide)).toMentions
  | some map =>
    have hok : Reads names " => Ok(" ["Ok"] := .literal (by decide)
    have hpath : IsPath (givenModule sc.schema d.ns) := hmodule (by simp [hm])
    have harm : Reads names (toString e.version.toNat ++ " => Ok(" ++
        (givenModule sc.schema d.ns ++ "::" ++ map) ++ "(" ++ typeExpr sc e.typeName ++
        ".decode(state)?)),") ["Ok", pathHead (givenModule sc.schema d.ns)] :=
      ((((htag.reads hok (by decide)).mentions (hpath.mentions_member (hmap map hm))).before
        (by decide)).mentions_silent hexpr).before (by decide)
    simp only [← String.append_assoc] at harm
    exact harm.toMentions

theorem linesMention_versionedLines (hsc : sc.Within names) {d : Declaration}
    (h : '\n' ∉ d.fqn.toList) {entries : List VersionEntry} {name : String}
    (hmodule : usesModule (.versioned entries) = true → IsPath (givenModule sc.schema d.ns))
    (hmaps : ∀ e ∈ entries, ∀ map, e.map = some map → IsPath map)
    (hname : Mentions names name []) :
    LinesMention names (versionedLines sc d entries name) (codecWords (.versioned entries) ++
      if usesModule (.versioned entries) then [pathHead (givenModule sc.schema d.ns)] else []) := by
  unfold versionedLines
  refine .behind (linesMention_heading h hname) ?_
  cases hlast : entries.getLast? with
  | none =>
    obtain rfl := List.getLast?_eq_none_iff.mp hlast
    exact .nil
  | some latest =>
    have hne : entries.isEmpty = false := by
      cases entries with
      | nil => cases hlast
      | cons => rfl
    have htag : Mentions names (toString latest.version.toNat) [] := mentions_number _
    have hexpr := mentions_typeExpr hsc latest.typeName
    have herr : Reads names "version => Err(CodecError::UnknownVersion \x7b" ["Err"] :=
      .literal (by decide)
    have hentries := LinesMention.map fun e he => mentions_entryArm hsc
      (fun hm => hmodule (List.any_eq_true.mpr ⟨e, he, hm⟩)) (hmaps e he)
    refine (linesMention_methods hname
      (.cons (htag.between (by decide) (by decide)) (hexpr.before (by decide)).line)
      (.cons (htag.between (by decide) (by decide)) (hexpr.before (by decide)).line)
      (.within (mentions_of_isQuiet (by decide)) (((hentries.append herr.line).before
        (.indent (.cons ((reads_quoted _).between (by decide) (by decide)).toMentions
          (mentions_of_isQuiet (by decide)).line))).before
        (mentions_of_isQuiet (by decide)).line))).congr fun w => ?_
    -- the arms with a map mention two words, those without mention none
    have harms : (w ∈ entries.flatMap fun e => if e.map.isSome then
        ["Ok", pathHead (givenModule sc.schema d.ns)] else []) ↔
        entries.any (·.map.isSome) = true ∧ w ∈ ["Ok", pathHead (givenModule sc.schema d.ns)] := by
      rw [List.mem_flatMap, List.any_eq_true, ← exists_and_right]
      exact exists_congr fun e => by split <;> simp_all
    rw [codecWords, usesModule, hne]
    simp only [List.mem_cons, List.mem_append, harms]
    cases entries.any (·.map.isSome) with
    | false => simp
    | true => grind

/-! ## Structs -/

/-- Between the steps stand the lines for the flags, if they stand anywhere. -/
theorem linesMention_withFlags (position : Option Nat) {flags : Lines} {ws : List String}
    (hflags : LinesMention names flags ws) {step : FieldStep → Lines} {steps : List FieldStep}
    (hsteps : ∀ s ∈ steps, LinesMention names (step s) []) (i : Nat) :
    ∃ ws', (∀ w ∈ ws', w ∈ ws) ∧
      LinesMention names (withFlags position flags step i steps) ws' := by
  have hplace (i : Nat) : ∃ ws', (∀ w ∈ ws', w ∈ ws) ∧
      LinesMention names (if position = some i then flags else []) ws' := by
    split
    · exact ⟨ws, fun _ => id, hflags⟩
    · exact ⟨[], nofun, .nil⟩
  induction steps generalizing i with
  | nil => exact hplace i
  | cons s rest ih =>
    obtain ⟨here, hhere, hlines⟩ := hplace i
    obtain ⟨later, hlater, hrest⟩ := ih (fun x hx => hsteps x (List.mem_cons_of_mem _ hx)) (i + 1)
    refine ⟨here ++ later, fun w hw => ?_,
      (hlines.before (hsteps s List.mem_cons_self)).append hrest⟩
    exact (List.mem_append.mp hw).elim (hhere w) (hlater w)

theorem linesMention_whenPresent {s : FieldStep} {statement : String}
    (h : Mentions names statement []) : LinesMention names (whenPresent s statement) [] := by
  unfold whenPresent
  split
  · refine .within ?_ h.line
    exact ((mentions_number _).behind (by decide)).append_opens (mentions_of_isQuiet (by decide))
      (by decide)
  · exact h.line

theorem linesMention_flagsLines (l : RecordLayout) : LinesMention names (flagsLines l) [] := by
  have hterms : Reads names (String.intercalate "\n            | "
      ((l.steps.filter (·.optional)).map fun s => "field_flag(m, " ++ quoted s.name ++ ", " ++
        toString s.flag ++ ", " ++ toString s.flagOnly ++ ")")) [] := by
    refine reads_intercalate (by decide) fun piece hpiece => ?_
    obtain ⟨s, -, rfl⟩ := List.mem_map.mp hpiece
    exact (((((reads_quoted s.name).between (by decide) (by decide)).mentions
      (mentions_number _)).before (by decide)).mentions (mentions_bool _)).before (by decide)
  unfold flagsLines
  dsimp only
  split
  · exact (mentions_of_isQuiet (by decide)).line
  · exact (hterms.between (by decide) (by decide)).line

theorem linesMention_structWriter (hsc : sc.Within names) (l : RecordLayout)
    {method putFlags : String} (hmethod : Mentions names method [])
    (hput : Mentions names putFlags []) :
    LinesMention names (structWriter sc l method putFlags) ["Ok"] := by
  have hrequired : LinesMention names ((l.steps.filter fun s => !s.optional).map fun s =>
      "require(m, Self::FQN, " ++ quoted s.name ++ ")?;") [] := by
    refine .of_silent fun line hline => ?_
    obtain ⟨s, -, rfl⟩ := List.mem_map.mp hline
    exact ((reads_quoted s.name).between (by decide) (by decide)).toMentions
  have hflags : LinesMention names (if l.flagsPosition.isSome then flagsLines l else []) [] := by
    split
    · exact linesMention_flagsLines l
    · exact .nil
  have hstep (s : FieldStep) : LinesMention names (if s.flagOnly then [] else
      whenPresent s (memberExpr sc s.typeName s.framed s.array ++ "." ++ method ++
        "(state, get(m, " ++ quoted s.name ++ "))?;")) [] := by
    split
    · exact .nil
    · refine linesMention_whenPresent ?_
      exact ((((((mentions_memberExpr hsc _ _ _).before (by decide)).mentions hmethod).before
        (by decide)).append (reads_quoted _)).before (by decide)).toMentions
  obtain ⟨ws, hws, hsteps⟩ := linesMention_withFlags l.flagsPosition hput.line
    (fun s (_ : s ∈ l.steps) => hstep s) 0
  obtain rfl : ws = [] := List.eq_nil_iff_forall_not_mem.mpr fun w hw => nomatch hws w hw
  have hok : Reads names "Ok(())" ["Ok"] := .literal (by decide)
  exact .behind (.behind (.behind (.behind (mentions_of_isQuiet (by decide)).line hrequired)
    hflags) hsteps) hok.line

/-- The line that keeps a value of a field. -/
theorem mentions_insert (s : FieldStep) {value : String} (h : Mentions names value []) :
    Mentions names ("res.insert(" ++ quoted s.name ++ ".to_string(), " ++ value ++ ");") [] :=
  ((((reads_quoted s.name).between (by decide) (by decide)).mentions h).before
    (by decide)).toMentions

theorem linesMention_structReader (hsc : sc.Within names) (t : TypeTable) (fqn : String)
    (s : StructBody) : LinesMention names (structReader sc (t.layout fqn s)) ["Ok"] := by
  have hdefaults : LinesMention names ((t.layout fqn s).steps.map fun s =>
      "res.insert(" ++ quoted s.name ++ ".to_string(), " ++ valueLiteral s.default ++ ");") [] := by
    refine .of_silent fun line hline => ?_
    obtain ⟨step, hstep, rfl⟩ := List.mem_map.mp hline
    obtain ⟨f, -, flag, rfl⟩ := TypeTable.mem_steps hstep
    exact mentions_insert _ (mentions_default t f flag)
  have hstep (s : FieldStep) : LinesMention names (if s.flagOnly then
      ["res.insert(" ++ quoted s.name ++ ".to_string(), " ++
        ("Value::Bool(flags & " ++ toString s.flag ++ " != 0)") ++ ");"] else
      whenPresent s ("res.insert(" ++ quoted s.name ++ ".to_string(), " ++
        (memberExpr sc s.typeName s.framed s.array ++ ".decode(state)?") ++ ");")) [] := by
    split
    · exact (mentions_insert s ((mentions_number _).between (by decide) (by decide))).line
    · exact linesMention_whenPresent (mentions_insert s
        ((mentions_memberExpr hsc _ _ _).before (by decide)).toMentions)
  have hreturn : Reads names "return Ok(Value::Struct(res));" ["Ok"] := .literal (by decide)
  have hflags : LinesMention names
      (block "if state.is_exhausted()" ["return Ok(Value::Struct(res));"] ++
        ["let flags = decode_flags(state)?;"]) ["Ok"] :=
    .before (.within (mentions_of_isQuiet (by decide)) hreturn.line)
      (mentions_of_isQuiet (by decide)).line
  obtain ⟨ws, hws, hsteps⟩ := linesMention_withFlags (t.layout fqn s).flagsPosition hflags
    (fun step (_ : step ∈ (t.layout fqn s).steps) => hstep step) 0
  have hok : Reads names "Ok(Value::Struct(res))" ["Ok"] := .literal (by decide)
  refine LinesMention.congr (.append (.behind (.behind (mentions_of_isQuiet (by decide)).line
    hdefaults) hsteps) hok.line) fun w => ?_
  rw [List.mem_append, or_iff_right_of_imp (hws w)]

theorem linesMention_structLines (hsc : sc.Within names) {d : Declaration}
    (h : '\n' ∉ d.fqn.toList) (s : StructBody) {name : String} (hname : Mentions names name []) :
    LinesMention names (structLines sc d s name) ["Result", "Ok"] := by
  refine .behind (.behind (.behind (linesMention_heading h hname) ?_) linesMention_blank)
    (LinesMention.congr (linesMention_methods hname
      (linesMention_structWriter hsc _ (mentions_of_isQuiet (by decide))
        (mentions_of_isQuiet (by decide)))
      (linesMention_structWriter hsc _ (mentions_of_isQuiet (by decide))
        (mentions_of_isQuiet (by decide)))
      (linesMention_structReader hsc _ d.fqn s)) fun w => by simp)
  exact .within (hname.behind (by decide))
    ((reads_quoted _).between (by decide) (by decide)).line

/-! ## Modules -/

/-- The codec of a declaration refers to standard names, and to the module of its namespace where it
takes something from there. -/
theorem linesMention_declarationLines (hsc : sc.Within names) {o : Options}
    (hgiven : GivesPaths sc.schema o) {d : Declaration} (hd : d ∈ sc.schema.types)
    (h : '\n' ∉ d.fqn.toList) :
    LinesMention names (declarationLines sc d) (codecWords d.body ++
      if usesModule d.body then [pathHead (givenModule sc.schema d.ns)] else []) := by
  have hname : Mentions names (sc.codecName d) [] := hsc.mentions d.fqn
  unfold declarationLines
  dsimp only
  cases hbody : d.body with
  | «alias» target =>
    exact .behind (linesMention_heading h hname)
      (linesMention_delegate hname (mentions_typeExpr hsc target))
  | enum e => exact linesMention_enumLines h e hname
  | struct s => exact linesMention_structLines hsc h s hname
  | array element =>
    exact .behind (linesMention_heading h hname)
      (linesMention_delegate hname (mentions_memberExpr hsc element _ _))
  | versioned entries =>
    exact linesMention_versionedLines hsc h (fun huses => hgiven.modules d hd (by rwa [hbody]))
      (hgiven.maps d hd entries hbody) hname
  | external symbol =>
    exact linesMention_externalLines h (hgiven.modules d hd (by rw [hbody]; rfl))
      (hgiven.symbols d hd symbol hbody) hname

theorem splitNewlines_ne_nil (text : List Char) : splitNewlines text ≠ [] := by
  fun_cases splitNewlines text <;> simp_all

theorem newline_not_mem_splitNewlines {text part : List Char} (h : part ∈ splitNewlines text) :
    '\n' ∉ part := by
  induction text generalizing part with
  | nil =>
    rw [splitNewlines, List.mem_singleton] at h
    exact h ▸ List.not_mem_nil
  | cons c rest ih =>
    unfold splitNewlines at h
    split at h
    · next hnil => exact absurd hnil (splitNewlines_ne_nil rest)
    · next first more hparts =>
      rw [hparts] at ih
      split at h
      · rcases List.mem_cons.mp h with rfl | h
        · exact List.not_mem_nil
        · exact ih h
      · next hc =>
        rcases List.mem_cons.mp h with rfl | h
        · rw [List.mem_cons, not_or]
          exact ⟨Ne.symm hc, ih List.mem_cons_self⟩
        · exact ih (List.mem_cons_of_mem _ h)

theorem newline_not_mem_linesOf {text line : String} (h : line ∈ linesOf text) :
    '\n' ∉ line.toList := by
  obtain ⟨chars, hchars, rfl⟩ := List.mem_map.mp h
  rw [String.toList_ofList]
  rcases List.mem_append.mp hchars with hended | hlast
  · obtain ⟨part, hpart, rfl⟩ := List.mem_map.mp hended
    have hnone := newline_not_mem_splitNewlines (List.dropLast_subset _ hpart)
    unfold dropReturn
    split
    · exact fun hmem => hnone (List.dropLast_subset _ hmem)
    · exact hnone
  · have hne := splitNewlines_ne_nil text.toList
    rw [List.getLastD_eq_getLast?, List.getLast?_eq_some_getLast hne, Option.getD_some] at hlast
    split at hlast
    · cases hlast
    · rw [List.mem_singleton.mp hlast]
      exact newline_not_mem_splitNewlines (List.getLast_mem hne)

theorem linesMention_header (text : String) :
    LinesMention names ("//!" :: (linesOf text).map ("//! " ++ ·)) [] := by
  have hlines : LinesMention names ((linesOf text).flatMap fun line => ["//! " ++ line])
      ((linesOf text).flatMap fun _ => []) := by
    refine .flatMap fun line hline => linesMention_comment ?_ ?_
    · rw [String.toList_append]
      rfl
    · rw [String.toList_append, List.mem_append, not_or]
      exact ⟨by decide, newline_not_mem_linesOf hline⟩
  rw [← List.map_eq_flatMap] at hlines
  exact (linesMention_note (by decide)).append (hlines.congr fun w => by simp)

theorem linesMention_preludeLines {s : Schema} {o : Options} (h : IsPath o.runtimePath) :
    LinesMention names (preludeLines s o) [pathHead o.runtimePath] := by
  have huse : Reads names ("use " ++ o.runtimePath ++ "::\x7b") [pathHead o.runtimePath] :=
    (h.mentions.behind (by decide)).before (by decide)
  have hhead : LinesMention names
      ["", "#![allow(unused_imports, unused_variables, clippy::all)]", "",
        "use " ++ o.runtimePath ++ "::\x7b"] [pathHead o.runtimePath] :=
    .cons (mentions_of_isQuiet (by decide)) (.cons (mentions_of_isQuiet (by decide))
      (.cons (mentions_of_isQuiet (by decide)) huse.line))
  have himports : LinesMention names
      ["decode_flags, decode_uint, encode_uint, field_flag, get, preencode_uint, require,",
        "struct_fields, Array, Codec, CodecError, EnumCodec, Fields, Frame, Primitive, State,",
        "Value,"] [] :=
    .cons (mentions_of_isQuiet (by decide +kernel)) (.cons (mentions_of_isQuiet (by decide +kernel))
      (mentions_of_isQuiet (by decide)).line)
  refine .before (.before (.behind (.behind (linesMention_note (by decide)) ?_) hhead)
    himports.indent) ?_
  · cases o.header with
    | none => exact .nil
    | some text => exact linesMention_header text
  · exact .cons (mentions_of_isQuiet (by decide)) (.cons (mentions_of_isQuiet (by decide))
      (.behind (linesMention_note (by decide))
        (.cons ((mentions_number _).between (by decide) (by decide)) linesMention_blank)))

theorem linesMention_lookupLines {caption head : String} {arms : List (String × String)}
    {ws : List String} (hcaption : LinesMention names [caption] []) (hhead : Mentions names head ws)
    (harms : ∀ arm ∈ arms, Mentions names arm.2 []) :
    LinesMention names (lookupLines caption head arms)
      (ws ++ ((arms.flatMap fun _ => ["Some"]) ++ ["None"])) := by
  have hsome : Reads names " => Some(" ["Some"] := .literal (by decide)
  have hnone : Reads names "_ => None," ["None"] := .literal (by decide)
  have hlines : LinesMention names (arms.map fun arm =>
      quoted arm.1 ++ " => Some(" ++ arm.2 ++ "),") (arms.flatMap fun _ => ["Some"]) :=
    .map fun arm harm => ((((reads_quoted arm.1).append hsome).mentions_silent
      (harms arm harm)).before (by decide)).toMentions
  exact .before (.behind hcaption (.block hhead (.within (mentions_of_isQuiet (by decide))
    (hlines.append hnone.line)))) linesMention_blank

theorem linesMention_runLines {head call : String} {ws ws' : List String}
    (hhead : Mentions names head ws) (hcall : Mentions names call ws') :
    LinesMention names (runLines head call) (ws ++ ws') :=
  .block hhead (.cons (mentions_of_isQuiet (by decide +kernel)) hcall.line)

theorem linesMention_lookupsLines (hsc : sc.Within names) {o : Options}
    (h : IsPath o.runtimePath) :
    LinesMention names (lookupsLines sc o) (["Option", "None", "Result", "Vec"] ++
      (if sc.schema.types.isEmpty then [] else ["Some"]) ++ [pathHead o.runtimePath]) := by
  have harms (select : Body → Bool) (found : String → String)
      (hfound : ∀ name, Mentions names name [] → Mentions names (found name) []) :
      ∀ arm ∈ ((sc.schema.types.map fun d => (d, sc.codecName d)).filter fun codec =>
        select codec.1.body).map fun codec => (codec.1.fqn, found codec.2),
        Mentions names arm.2 [] := by
    intro arm harm
    obtain ⟨codec, hcodec, rfl⟩ := List.mem_map.mp harm
    obtain ⟨d, -, rfl⟩ := List.mem_map.mp (List.mem_of_mem_filter hcodec)
    exact hfound _ (hsc.mentions d.fqn)
  have hreference (name : String) (hname : Mentions names name []) :
      Mentions names ("&" ++ name) [] := hname.behind (by decide)
  have hvalues (name : String) (hname : Mentions names name []) :
      Mentions names (name ++ "::VALUES") [] :=
    hname.append_opens (mentions_of_isQuiet (by decide)) (by decide)
  have hcodec : Reads names "pub fn resolve(fqn: &str) -> Option<&'static dyn Codec>" ["Option"] :=
    .literal (by decide)
  have hstruct : Reads names "pub fn resolve_struct(fqn: &str) -> Option<&'static dyn Codec>"
      ["Option"] := .literal (by decide)
  have henum : Reads names "pub fn get_enum(fqn: &str) -> Option<&'static [(&'static str, u64)]>"
      ["Option"] := .literal (by decide)
  have hencode : Reads names
      "pub fn encode(fqn: &str, value: &Value) -> Result<Vec<u8>, CodecError>" ["Result", "Vec"] :=
    .literal (by decide)
  have hdecode : Reads names "pub fn decode(fqn: &str, bytes: &[u8]) -> Result<Value, CodecError>"
      ["Result"] := .literal (by decide)
  refine LinesMention.congr (.append (.before (.append (.append (.append
    (linesMention_lookupLines (linesMention_note (by decide)) hcodec.toMentions
      (harms (fun _ => true) _ hreference))
    (linesMention_lookupLines (linesMention_note (by decide)) hstruct.toMentions
      (harms (fun b => b.struct?.isSome) _ hreference)))
    (linesMention_lookupLines (linesMention_note (by decide)) henum.toMentions
      (harms (fun b => b.enum?.any fun e => !e.strings) _ hvalues)))
    (linesMention_runLines hencode.toMentions (h.mentions.before (by decide)).toMentions))
    linesMention_blank)
    (linesMention_runLines hdecode.toMentions (h.mentions.before (by decide)).toMentions))
    fun w => ?_
  -- each of the three look-ups may have arms, and the first has one for every declaration
  have hsome (arms : List (String × String)) :
      (w ∈ arms.flatMap fun _ => ["Some"]) ↔ arms ≠ [] ∧ w = "Some" := by
    cases arms with
    | nil => simp
    | cons arm rest => simp +contextual
  cases sc.schema.types with
  | nil =>
    simp only [List.map_nil, List.filter_nil, List.flatMap_nil, List.mem_append, List.mem_cons]
    grind
  | cons d rest =>
    simp only [hsome, List.mem_append, List.mem_cons]
    grind

/-- However its codecs are named, the text of a module refers to standard names and to the first
words of the paths that it is given, and to nothing else that is neither reserved nor a codec. -/
theorem Scope.reads_text (sc : Scope) (hsc : sc.Within names) {o : Options}
    (hgiven : GivesPaths sc.schema o) (hplain : ∀ d ∈ sc.schema.types, '\n' ∉ d.fqn.toList) :
    Reads names (sc.text o)
      (standardNames sc.schema ++ (givenPaths sc.schema o).map pathHead) := by
  refine LinesMention.unlines (LinesMention.congr (.append (.append
    (linesMention_preludeLines hgiven.runtime)
    (.flatMap fun d hd => linesMention_declarationLines hsc hgiven hd (hplain d hd)))
    (linesMention_lookupsLines hsc hgiven.runtime)) fun w => ?_)
  have hcodecs : (w ∈ sc.schema.types.flatMap fun d => codecWords d.body ++
      if usesModule d.body then [pathHead (givenModule sc.schema d.ns)] else []) ↔
      (w ∈ sc.schema.types.flatMap fun d => codecWords d.body) ∨
        ∃ d ∈ sc.schema.types, usesModule d.body = true ∧
          w = pathHead (givenModule sc.schema d.ns) := by
    simp only [List.mem_flatMap, List.mem_append, and_or_left, exists_or]
    refine or_congr Iff.rfl (exists_congr fun d => and_congr_right fun _ => ?_)
    split <;> simp_all
  have hgivens : (w ∈ (givenPaths sc.schema o).map pathHead) ↔ w = pathHead o.runtimePath ∨
      ∃ d ∈ sc.schema.types, usesModule d.body = true ∧
        w = pathHead (givenModule sc.schema d.ns) := by
    simp only [givenPaths, List.map_cons, List.mem_cons, List.map_map, List.mem_map,
      List.mem_filter, and_assoc, Function.comp_apply, eq_comm]
  simp only [standardNames, List.mem_append, hcodecs, hgivens, List.mem_singleton]
  grind

end Lines

end Emit

end WireSchema

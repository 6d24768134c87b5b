import WireSchema.Emit.Lines
import WireSchema.Emit.Name
import WireSchema.Schema.Basic
import WireSchema.Text.Quoted

/-!
# Emitted modules

A schema is emitted as one source module with a codec for each declaration and look-ups by name.
The text depends only on the schema and the options, and declarations stand in their order, so an
unchanged schema gives the same text.
-/

namespace WireSchema

namespace Emit

/-- What an emitted module imports from, and a comment for its head. -/
structure Options where
  runtimePath : String := "hyperschema::runtime"
  header : Option String := none
  deriving DecidableEq

/-- The identifiers of the codecs of a table, in declaration order. -/
def codecNames (t : TypeTable) : List String :=
  assignNames reserved (t.map fun d => baseName d.ns d.name)

/-- A schema with the identifiers of its codecs by type name. -/
structure Scope where
  schema : Schema
  names : List (String × String)

/-- The scope of a schema. -/
def Scope.ofSchema (s : Schema) : Scope := ⟨s, (s.types.map (·.fqn)).zip (codecNames s.types)⟩

/-- The identifier of the codec of a declaration. -/
def Scope.codecName (sc : Scope) (d : Declaration) : String := (sc.names.lookup d.fqn).getD ""

/-! ## Expressions -/

/-- The variant that stands for a primitive. -/
def variant (p : Primitive) : String :=
  match p.name.toList with
  | c :: rest => String.ofList (c.toUpper :: rest)
  | [] => ""

/-- The codec of a type. -/
def typeExpr (sc : Scope) (name : String) : String :=
  match Primitive.ofName? name with
  | some p => "Primitive::" ++ variant p
  | none => (sc.names.lookup name).getD ""

/-- The codec of a field or of an array element. -/
def memberExpr (sc : Scope) (name : String) (framed array : Bool) : String :=
  let expr := typeExpr sc name
  let expr := if framed then "Frame(&" ++ expr ++ ")" else expr
  if array then "Array(&" ++ expr ++ ")" else expr

/-- The literal of a default value. -/
def valueLiteral : Value → String
  | .bool b => "Value::Bool(" ++ toString b ++ ")"
  | .uint n => "Value::Uint(" ++ toString n.toNat ++ ")"
  | .int n => "Value::Int(" ++ toString n.toInt ++ ")"
  | .float x => "Value::Float(" ++ (Json.ofDouble x).compact ++ ")"
  | .bigInt n => "Value::BigInt(" ++ toString n.val ++ ")"
  | _ => "Value::Null"

/-! ## Parts of codecs -/

/-- The head of a method that measures or writes. -/
def writerHead (method : String) : String :=
  "fn " ++ method ++ "(&self, state: &mut State, m: &Value) -> Result<(), CodecError>"

/-- The head of the method that reads. -/
def readerHead : String := "fn decode(&self, state: &mut State) -> Result<Value, CodecError>"

/-- The three methods of a codec. -/
def methods (name : String) (preencode encode decode : Lines) : Lines :=
  block ("impl Codec for " ++ name)
    (block (writerHead "preencode") preencode ++ [""] ++
      block (writerHead "encode") encode ++ [""] ++ block readerHead decode) ++ [""]

/-- A codec that does what another one does. -/
def delegate (name expr : String) : Lines :=
  methods name [expr ++ ".preencode(state, m)"] [expr ++ ".encode(state, m)"]
    [expr ++ ".decode(state)"]

/-- The type name and version that head a codec. -/
def caption (d : Declaration) : String :=
  "/// `" ++ d.fqn ++ "` (v" ++ toString d.version.toNat ++ ")"

/-- The declaration of a codec. -/
def heading (d : Declaration) (name : String) : Lines :=
  [caption d, "pub struct " ++ name ++ ";", ""]

/-! ## Enums, external and versioned types -/

/-- The codec of an enum. -/
def enumLines (d : Declaration) (e : EnumBody) (name : String) : Lines :=
  let pairs := e.codes.map fun (key, n) => "(" ++ quoted key ++ ", " ++ toString n.toNat ++ ")"
  let keys := e.keys.map quoted
  heading d name ++
    block ("impl " ++ name)
      (["pub const VALUES: &'static [(&'static str, u64)] = &[" ++ String.intercalate ", " pairs ++
          "];", "",
        "const CODEC: EnumCodec<'static, &'static str> = EnumCodec \x7b"] ++
      indent ["fqn: " ++ quoted d.fqn ++ ",",
        "keys: &[" ++ String.intercalate ", " keys ++ "],",
        "offset: " ++ toString e.offset.toNat ++ ",",
        "strings: " ++ toString e.strings ++ ","] ++ ["\x7d;"]) ++
    [""] ++ delegate name "Self::CODEC"

/-- The module that the external parts of a namespace come from. -/
def modulePath (sc : Scope) (ns : String) : String := (sc.schema.modulePath? ns).getD "super"

/-- The codec of an external type, which is imported. -/
def externalLines (sc : Scope) (d : Declaration) (symbol name : String) : Lines :=
  [caption d ++ ", supplied externally",
    "pub use " ++ modulePath sc d.ns ++ "::" ++ symbol ++ " as " ++ name ++ ";", ""]

/-- The arm that reads the payload of one tag. -/
def entryArm (sc : Scope) (d : Declaration) (e : VersionEntry) : String :=
  let tag := toString e.version.toNat
  let expr := typeExpr sc e.typeName
  match e.map with
  | some map =>
    tag ++ " => Ok(" ++ modulePath sc d.ns ++ "::" ++ map ++ "(" ++ expr ++ ".decode(state)?)),"
  | none => tag ++ " => " ++ expr ++ ".decode(state),"

/-- The codec of a versioned type. -/
def versionedLines (sc : Scope) (d : Declaration) (entries : List VersionEntry) (name : String) :
    Lines :=
  heading d name ++
    match entries.getLast? with
    | none => []
    | some latest =>
      let tag := toString latest.version.toNat
      let expr := typeExpr sc latest.typeName
      methods name
        ["preencode_uint(state, " ++ tag ++ ");", expr ++ ".preencode(state, m)"]
        ["encode_uint(state, " ++ tag ++ ")?;", expr ++ ".encode(state, m)"]
        (block "match decode_uint(state)?"
          (entries.map (entryArm sc d) ++ ["version => Err(CodecError::UnknownVersion \x7b"] ++
            indent ["fqn: " ++ quoted d.fqn ++ ".to_string(),", "version,"] ++ ["\x7d),"]))

/-! ## Structs -/

/-- The steps of a layout in order, with lines for the flags at their position. -/
def withFlags (position : Option Nat) (flags : Lines) (step : FieldStep → Lines) :
    Nat → List FieldStep → Lines
  | i, [] => if position = some i then flags else []
  | i, s :: rest =>
    (if position = some i then flags else []) ++ step s ++
      withFlags position flags step (i + 1) rest

/-- A statement for a field that is present: under its flag when it is optional. -/
def whenPresent (s : FieldStep) (statement : String) : Lines :=
  if s.optional then block ("if flags & " ++ toString s.flag ++ " != 0") [statement]
  else [statement]

/-- The terms of the flags, joined over lines. -/
def flagsLines (l : RecordLayout) : Lines :=
  let terms := (l.steps.filter (·.optional)).map fun s =>
    "field_flag(m, " ++ quoted s.name ++ ", " ++ toString s.flag ++ ", " ++
      toString s.flagOnly ++ ")"
  match terms with
  | [] => ["let flags: u64 = 0;"]
  | _ => ["let flags: u64 = " ++ String.intercalate "\n            | " terms ++ ";"]

/-- The body of the method that measures or writes a struct. -/
def structWriter (sc : Scope) (l : RecordLayout) (method putFlags : String) : Lines :=
  let required := (l.steps.filter fun s => !s.optional).map fun s =>
    "require(m, Self::FQN, " ++ quoted s.name ++ ")?;"
  let step (s : FieldStep) : Lines :=
    if s.flagOnly then []
    else
      whenPresent s (memberExpr sc s.typeName s.framed s.array ++ "." ++ method ++
        "(state, get(m, " ++ quoted s.name ++ "))?;")
  ["let m = struct_fields(m)?;"] ++ required ++
    (if l.flagsPosition.isSome then flagsLines l else []) ++
    withFlags l.flagsPosition [putFlags] step 0 l.steps ++ ["Ok(())"]

/-- The body of the method that reads a struct. -/
def structReader (sc : Scope) (l : RecordLayout) : Lines :=
  let insert (s : FieldStep) (value : String) : String :=
    "res.insert(" ++ quoted s.name ++ ".to_string(), " ++ value ++ ");"
  let readFlags := block "if state.is_exhausted()" ["return Ok(Value::Struct(res));"] ++
    ["let flags = decode_flags(state)?;"]
  let step (s : FieldStep) : Lines :=
    if s.flagOnly then [insert s ("Value::Bool(flags & " ++ toString s.flag ++ " != 0)")]
    else whenPresent s (insert s (memberExpr sc s.typeName s.framed s.array ++ ".decode(state)?"))
  ["let mut res = Fields::new();"] ++ l.steps.map (fun s => insert s (valueLiteral s.default)) ++
    withFlags l.flagsPosition readFlags step 0 l.steps ++ ["Ok(Value::Struct(res))"]

/-- The codec of a struct. -/
def structLines (sc : Scope) (d : Declaration) (s : StructBody) (name : String) : Lines :=
  let l := sc.schema.types.layout d.fqn s
  heading d name ++
    block ("impl " ++ name) ["const FQN: &'static str = " ++ quoted d.fqn ++ ";"] ++ [""] ++
    methods name (structWriter sc l "preencode" "preencode_uint(state, flags);")
      (structWriter sc l "encode" "encode_uint(state, flags)?;") (structReader sc l)

/-! ## Modules -/

/-- The codec of a declaration. -/
def declarationLines (sc : Scope) (d : Declaration) : Lines :=
  let name := sc.codecName d
  match d.body with
  | .alias target => heading d name ++ delegate name (typeExpr sc target)
  | .enum e => enumLines d e name
  | .struct s => structLines sc d s name
  | .array element =>
    heading d name ++
      delegate name (memberExpr sc element (sc.schema.types.isFrameable element) true)
  | .versioned entries => versionedLines sc d entries name
  | .external symbol => externalLines sc d symbol name

/-- The head of a module. -/
def preludeLines (s : Schema) (o : Options) : Lines :=
  let header := match o.header with
    | some text => "//!" :: (linesOf text).map ("//! " ++ ·)
    | none => []
  ["//! Generated by hyperschema. Do not edit."] ++ header ++
    ["", "#![allow(unused_imports, unused_variables, clippy::all)]", "",
      "use " ++ o.runtimePath ++ "::\x7b"] ++
    indent ["decode_flags, decode_uint, encode_uint, field_flag, get, preencode_uint, require,",
      "struct_fields, Array, Codec, CodecError, EnumCodec, Fields, Frame, Primitive, State,",
      "Value,"] ++
    ["\x7d;", "", "/// Schema version this module was generated from",
      "pub const VERSION: u32 = " ++ toString s.version.toNat ++ ";", ""]

/-- A function that looks a type name up. -/
def lookupLines (caption head : String) (arms : List (String × String)) : Lines :=
  [caption] ++
    block head (block "match fqn"
      (arms.map (fun (fqn, found) => quoted fqn ++ " => Some(" ++ found ++ "),") ++
        ["_ => None,"])) ++ [""]

/-- A function that runs the codec of a type name. -/
def runLines (head call : String) : Lines :=
  block head
    ["let codec = resolve(fqn).ok_or_else(|| CodecError::UnknownType(fqn.to_string()))?;", call]

/-- The look-ups by type name at the end of a module. -/
def lookupsLines (sc : Scope) (o : Options) : Lines :=
  let codecs := sc.schema.types.map fun d => (d, sc.codecName d)
  let arms (select : Body → Bool) (found : String → String) : List (String × String) :=
    (codecs.filter fun (d, _) => select d.body).map fun (d, name) => (d.fqn, found name)
  let isNumbered (b : Body) : Bool := b.enum?.any fun e => !e.strings
  lookupLines "/// Codec of a declared type by fully-qualified name"
    "pub fn resolve(fqn: &str) -> Option<&'static dyn Codec>" (arms (fun _ => true) ("&" ++ ·)) ++
  lookupLines "/// Codec of a struct by fully-qualified name"
    "pub fn resolve_struct(fqn: &str) -> Option<&'static dyn Codec>"
    (arms (fun b => b.struct?.isSome) ("&" ++ ·)) ++
  lookupLines "/// `(key, encoded integer)` table of an integer-valued enum"
    "pub fn get_enum(fqn: &str) -> Option<&'static [(&'static str, u64)]>"
    (arms isNumbered (· ++ "::VALUES")) ++
  runLines "pub fn encode(fqn: &str, value: &Value) -> Result<Vec<u8>, CodecError>"
    (o.runtimePath ++ "::encode(codec, value)") ++ [""] ++
  runLines "pub fn decode(fqn: &str, bytes: &[u8]) -> Result<Value, CodecError>"
    (o.runtimePath ++ "::decode(codec, bytes)")

/-- The module of a schema. -/
def moduleText (s : Schema) (o : Options) : String :=
  let sc := Scope.ofSchema s
  unlines (preludeLines s o ++ s.types.flatMap (declarationLines sc) ++ lookupsLines sc o)

end Emit

end WireSchema

import ModGraph.Json.Decode

/-!
# Package options

A package chooses how its `.js` files are classified, and how much its declarative modules and its
legacy modules see of each other. Options are written as JSON: `{"mode": "auto", "cjs": true}`.
-/

namespace ModGraph

open Json (Decoder Doc Fault Payload RecordField Value)

/-- How the `.js` files of a package are classified. -/
inductive Mode where
  /-- As legacy modules, whatever they hold. -/
  | strict
  /-- By what they hold: import and export declarations make a module declarative. -/
  | auto
  /-- As declarative modules, whatever they hold. -/
  | all
deriving DecidableEq, Repr, Inhabited

/-- The name of a mode in options. -/
def Mode.name : Mode → String
  | strict => "strict"
  | auto => "auto"
  | all => "all"

/-- The mode of a name. -/
def Mode.ofName? : String → Option Mode
  | "strict" => some .strict
  | "auto" => some .auto
  | "all" => some .all
  | _ => none

/-- Read a mode. -/
def Mode.decode : Decoder Mode := Decoder.variant fun name => (ofName? name).map Payload.plain

/-- What the two formats see of each other. -/
structure Interop where
  /-- Whether declarative modules are kept in the cache that legacy modules see. -/
  cache : Bool
  /-- Whether legacy modules search the global module folders. -/
  paths : Bool
deriving DecidableEq, Repr

instance : Inhabited Interop := ⟨⟨false, false⟩⟩

/-- The truth value of a member that may be left out, but may not come twice. -/
def Interop.flag? (members : List (String × Doc)) (name : String) : Option Bool :=
  match members.filter fun m => m.1 == name with
  | [] => some false
  | [(_, .bool b)] => some b
  | _ => none

/-- What a document says about it: one truth value for both fields, or each on its own. -/
def Interop.ofDoc? : Doc → Option Interop
  | .bool on => some ⟨on, on⟩
  | .array [] => some ⟨false, false⟩
  | .array [.bool cache] => some ⟨cache, false⟩
  | .array [.bool cache, .bool paths] => some ⟨cache, paths⟩
  | .object members => do return ⟨← flag? members "cache", ← flag? members "paths"⟩
  | _ => none

/-- Read what the formats see of each other. All of the value is read before it is looked at, so what
is not known in it is not skipped either. -/
def Interop.decode : Decoder Interop := fun depth => do
  match ofDoc? (← Decoder.document depth) with
  | some i => return i
  | none => Decoder.unexpected

/-- The options of a package. -/
structure PackageOptions where
  /-- How `.js` files are classified. -/
  mode : Mode
  /-- What the two formats see of each other. -/
  cjs : Interop
deriving DecidableEq, Repr

namespace PackageOptions

/-- The options of a package that chooses nothing. -/
def default : PackageOptions := ⟨.auto, ⟨false, false⟩⟩

instance : Inhabited PackageOptions := ⟨default⟩

/-- The fields of options, in their order. -/
def fields : List (RecordField PackageOptions) := [
  .of "mode" .free Mode.decode fun o mode => { o with mode := mode },
  .of "cjs" .free Interop.decode fun o cjs => { o with cjs := cjs }]

/-- Read options; what is left out has its default. -/
def decode : Decoder PackageOptions := Decoder.record fields default

/-- Read options from a text. -/
def read (text : String) : Except Fault PackageOptions := decode.run text

/-- The options as a JSON value, with their fields in the order of a record. -/
def toJson (o : PackageOptions) : Value :=
  .object [("mode", .string o.mode.name),
    ("cjs", .object [("cache", .bool o.cjs.cache), ("paths", .bool o.cjs.paths)])]

end PackageOptions

end ModGraph

import OptionSchema.Compile
import OptionSchema.Raw.Descriptor
/-!
# Reading schemas from data

A raw key specification is first validated against a schema of its own. The problems of all keys of
a schema are reported together.
-/
namespace OptionSchema.Raw

def typeDescriptor (ty : Value → Except DescriptorFault Ty) : Validator where
  name := "type_descriptor"
  args := []
  identity := 0
  run raw _ :=
    match ty raw with
    | .ok _ => .ok raw
    | .error fault => .error fault.message

def keySpecSchema (ty : Value → Except DescriptorFault Ty) : Schema where
  keys := [
    ("type", { ty := .custom (typeDescriptor ty), default := some (.string "any") }),
    ("required", { ty := .boolean, default := some (.bool false) }),
    ("default", { ty := .any }),
    ("keys", { ty := .union [.string, .atom, .keywordList, .map] }),
    ("deprecated", { ty := .string }),
    ("doc", { ty := .union [.string, .choice (.values [.bool false])] }),
    ("subsection", { ty := .string }),
    ("type_doc", { ty := .string })]

def defectOfFailure (path : Path) (failure : Failure) : Defect :=
  let enclosing := path ++ failure.path
  let place := match failure.place with
    | .key name => enclosing.pushKey name
    | _ => enclosing
  ⟨place, failure.message, failure.kind.code⟩

/-- A keyed type on a key is the key's own nested schema. -/
def liftKeyed : Ty → Ty × Option Nested
  | .keyed container nested => (container, some nested)
  | ty => (ty, none)

def attributes (reader : Reader) (raw : Value) : Except Failure Value :=
  ((keySpecSchema reader.ty).validate (fun _ => .empty) raw .new).outcome

def attributeType (reader : Reader) (attrs : Value) (path : Path) : Except Defects Ty :=
  match attrs.find? "type" with
  | none => .ok .any
  | some raw =>
    match reader.ty raw with
    | .ok ty => .ok ty
    | .error fault => .error (.single ⟨path.pushKey "type", fault.message, "invalid_type"⟩)

def attributeName? (attrs : Value) (name : String) : Option String :=
  (attrs.find? name).bind Value.identifier?

def attributeSpec (attrs : Value) (ty : Ty) (nested : Option Nested) : KeySpec where
  ty := ty
  required := attrs.find? "required" == some (.bool true)
  default := attrs.find? "default"
  nested := nested
  deprecated := attributeName? attrs "deprecated"
  doc := attributeName? attrs "doc"
  subsection := attributeName? attrs "subsection"
  typeDoc := attributeName? attrs "type_doc"

def Reader.keySpec (reader : Reader) (raw : Value) (path : Path) : Except Defects KeySpec :=
  match attributes reader raw with
  | .error failure => .error (.single (defectOfFailure path failure))
  | .ok attrs => do
    let (ty, shorthand) := liftKeyed (← attributeType reader attrs path)
    let spec := attributeSpec attrs ty shorthand
    match attrs.find? "keys", shorthand with
    | none, _ => .ok spec
    | some _, some _ => .error (.single
        ⟨path.pushKey "keys", "keys are already given by the keyed type", "keys_not_allowed"⟩)
    | some keys, none =>
      match keys.identifier? with
      | some name => .ok { spec with nested := some (.ref name) }
      | none => do
        let schema ← reader.schema keys path
        .ok { spec with nested := some (.inline schema) }

def notASchema (raw : Value) (path : Path) : Defect :=
  { path, message :=
      "expected a keyword list or a map with identifier keys, got: " ++ raw.text }

/-- Reads every entry, or collects the defects of all that cannot be read. -/
def readEntries (read : String → Value → Except Defects KeySpec) :
    List (String × Value) → Except Defects (List (String × KeySpec))
  | [] => .ok []
  | (name, raw) :: entries =>
    match read name raw, readEntries read entries with
    | .ok spec, .ok specs => .ok ((name, spec) :: specs)
    | .error defects, .ok _ => .error defects
    | .ok _, .error defects => .error defects
    | .error defects, .error others => .error (defects ++ others)

def Reader.keys (reader : Reader) (raw : Value) (path : Path) : Except Defects Schema :=
  match raw.entries? with
  | none => .error (.single (notASchema raw path))
  | some entries =>
    (readEntries (fun name spec => reader.keySpec spec (path.pushKey name)) entries).map
      Schema.ofList

def Reader.ofDepth (validator? : String → Option Validator) : Nat → Reader
  | 0 =>
    ⟨fun raw => .error (.notADescriptor raw),
      fun raw path => .error (.single (notASchema raw path))⟩
  | depth + 1 =>
    let reader := ofDepth validator? depth
    ⟨reader.descriptor validator?, reader.keys⟩

def readType (validator? : String → Option Validator) (raw : Value) : Except DescriptorFault Ty :=
  (Reader.ofDepth validator? raw.depth).ty raw

def readSchema (validator? : String → Option Validator) (raw : Value) : Except Defects Schema :=
  (Reader.ofDepth validator? raw.depth).schema raw .root

def compile (producers : Producers) (validator? : String → Option Validator) (raw : Value) :
    Run Defects Schema := do
  let schema ← Run.ofExcept (readSchema validator? raw)
  schema.compile producers

end OptionSchema.Raw

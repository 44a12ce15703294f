import OptionSchema.Schema.Text
/-!
# Why a value does not satisfy a schema

A failure says what is wrong, and by a path where in the nested options.
-/
namespace OptionSchema

inductive Segment where
  | key (name : String)
  | index (position : Nat)
deriving DecidableEq, Repr

/-- The segments that enclose a value, outermost first. -/
abbrev Path := List Segment

namespace Path

def root : Path := []

def push (path : Path) (segment : Segment) : Path := path ++ [segment]

def pushKey (path : Path) (name : String) : Path := path.push (.key name)

def continued : Segment → String
  | .key name => "." ++ name
  | .index position => "[" ++ toString position ++ "]"

/-- Keys are joined by dots and indices stand in brackets: `stages[0].name`. -/
def text : Path → String
  | [] => ""
  | .key name :: rest => name ++ String.join (rest.map continued)
  | segment :: rest => continued segment ++ String.join (rest.map continued)

end Path

inductive Place where
  /-- The whole input. -/
  | root
  /-- A named key of a schema. -/
  | key (name : String)
  /-- The keys that a schema does not declare. -/
  | unknown (names : List String)
  /-- An element of a list or tuple. -/
  | position (index : Nat)
  | mapKey
  /-- The value under a key of a map. -/
  | mapValue (held : Value)
deriving Repr

namespace Place

def text : Place → String
  | .root => "input"
  | .key name => "'" ++ name ++ "'"
  | .unknown names => "[" ++ Text.commaSeparated names ++ "]"
  | .position index => "element at position " ++ toString index
  | .mapKey => "map key"
  | .mapValue held => "map key " ++ held.text

def segment : Place → Segment
  | .key name => .key name
  | .position index => .index index
  | .mapValue held => .key (held.identifier?.getD held.text)
  | place => .key place.text

end Place

inductive FailureKind where
  /-- The value has the wrong kind, size or range. -/
  | shape
  /-- A required key is missing. -/
  | presence
  | unknownKeys
  /-- No alternative of a union matched. -/
  | unionExhausted
  /-- A validator refused the value. -/
  | custom
  /-- A schema is referred to by a name that is not registered. -/
  | unresolvedReference
  /-- Nested schemas went deeper than allowed. -/
  | depthLimit
deriving DecidableEq, Repr

def FailureKind.code : FailureKind → String
  | .shape => "invalid_type"
  | .presence => "required"
  | .unknownKeys => "unknown_keys"
  | .unionExhausted => "no_matching_type"
  | .custom => "custom"
  | .unresolvedReference => "unresolved_reference"
  | .depthLimit => "max_depth_exceeded"

/-- A failure at `place`, inside the keys of `path`. The failure of a composite has the failure of
its element as its cause; that of a union has one cause for each alternative. -/
structure Failure where
  kind : FailureKind
  place : Place
  value : Option Value
  message : String
  path : Path
  causes : List Failure
deriving Repr

namespace Failure

def new (kind : FailureKind) (place : Place) (message : String) : Failure :=
  ⟨kind, place, none, message, .root, []⟩

def withValue (failure : Failure) (value : Value) : Failure := { failure with value := some value }

def withCauses (failure : Failure) (causes : List Failure) : Failure :=
  { failure with causes := failure.causes ++ causes }

def nest (failure : Failure) (segment : Segment) : Failure :=
  { failure with path := segment :: failure.path }

def isNested (failure : Failure) : Bool := !failure.path.isEmpty

def text (failure : Failure) : String :=
  if failure.isNested then failure.message ++ " (in " ++ failure.path.text ++ ")"
  else failure.message

def source? (failure : Failure) : Option String := failure.causes.head?.map text

def nameList (names : List String) : String := "[" ++ Text.commaSeparated names ++ "]"

def notAMapping (value : Value) : Failure :=
  (new .shape .root ("invalid input: expected a keyword list or a map with identifier keys, got: "
    ++ value.text)).withValue value

def ambiguousKey (name : String) (value : Value) : Failure :=
  (new .shape .root ("invalid input: key '" ++ name
    ++ "' is given both as a string and as an atom, got: " ++ value.text)).withValue value

def unknownKeys (names valid : List String) : Failure :=
  new .unknownKeys (.unknown names)
    ("unknown keys " ++ (Place.unknown names).text ++ ", valid keys are: " ++ nameList valid)

def missing (name : String) (received : List String) : Failure :=
  new .presence (.key name)
    ("required key " ++ (Place.key name).text ++ " not found, received keys: " ++ nameList received)

def mismatch (ty : Ty) (place : Place) (value : Value) : Failure :=
  (new .shape place ("invalid value for " ++ place.text ++ ": expected " ++ ty.expectation
    ++ ", got: " ++ value.text)).withValue value

def refused (reason : String) (place : Place) (value : Value) : Failure :=
  (new .custom place ("invalid value for " ++ place.text ++ ": " ++ reason)).withValue value

def exhausted (place : Place) (value : Value) (causes : List Failure) : Failure :=
  ((new .unionExhausted place ("expected " ++ place.text
    ++ " to match at least one given type, but didn't match any. "
    ++ "Here are the reasons why it didn't match each of the allowed types:"
    ++ String.join (causes.map fun cause => "\n  * " ++ cause.text))).withValue value).withCauses
      causes

def unresolved (name : String) (place : Place) : Failure :=
  new .unresolvedReference place
    ("schema '" ++ name ++ "' referenced by " ++ place.text ++ " is not registered")

def tooDeep (maxDepth : Nat) (place : Place) : Failure :=
  new .depthLimit place
    ("maximum nesting depth of " ++ toString maxDepth ++ " exceeded at " ++ place.text)

/-- The failure of an element, seen from the composite that holds it. One from a nested schema
stays as it is and gains the step to the composite; any other is reported for the composite, which
is a `noun`. -/
def within (failure : Failure) (noun : String) (place : Place) (composite : Value) : Failure :=
  if failure.isNested then failure.nest place.segment
  else ((new failure.kind place ("invalid " ++ noun ++ " in " ++ place.text ++ ": "
    ++ failure.message)).withValue composite).withCauses [failure]

end Failure

end OptionSchema

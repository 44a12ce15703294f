import OptionSchema.Schema.Basic

/-! # Equality of schemas

The order of the keys does not count. Validators are equal when name, arguments and function are,
and lazy keys only when they have one producer.
-/
namespace OptionSchema

def Choices.beq : Choices → Choices → Bool
  | .values a, .values b => a == b
  | .range a b, .range c d => a == c && b == d
  | _, _ => false

def Validator.beq (a b : Validator) : Bool :=
  a.name == b.name && a.args == b.args && a.identity == b.identity

mutual

def Ty.beq : Ty → Ty → Bool
  | .any, .any => true
  | .atom, .atom => true
  | .string, .string => true
  | .boolean, .boolean => true
  | .integer, .integer => true
  | .nonNegInteger, .nonNegInteger => true
  | .posInteger, .posInteger => true
  | .float, .float => true
  | .timeout, .timeout => true
  | .pid, .pid => true
  | .reference, .reference => true
  | .null, .null => true
  | .keywordList, .keywordList => true
  | .nonEmptyKeywordList, .nonEmptyKeywordList => true
  | .map, .map => true
  | .mapOf j u, .mapOf k v => j.beq k && u.beq v
  | .func m, .func n => m == n
  | .choice a, .choice b => a.beq b
  | .custom a, .custom b => a.beq b
  | .union as, .union bs => Ty.beqAll as bs
  | .listOf a, .listOf b => a.beq b
  | .tuple as, .tuple bs => Ty.beqAll as bs
  | .struct s, .struct t => s == t
  | .keyed a m, .keyed b n => a.beq b && m.beq n
  | _, _ => false
termination_by structural ty => ty

def Ty.beqAll : List Ty → List Ty → Bool
  | [], [] => true
  | a :: as, b :: bs => a.beq b && Ty.beqAll as bs
  | _, _ => false
termination_by structural types => types

def Nested.beq : Nested → Nested → Bool
  | .inline a, .inline b => a.beq b
  | .lazy a, .lazy b => a == b
  | .ref a, .ref b => a == b
  | _, _ => false
termination_by structural nested => nested

def Nested.beqOption : Option Nested → Option Nested → Bool
  | none, none => true
  | some a, some b => a.beq b
  | _, _ => false
termination_by structural nested => nested

def KeySpec.beq : KeySpec → KeySpec → Bool
  | ⟨ty, required, default, nested, deprecated, doc, subsection, typeDoc⟩, other =>
    ty.beq other.ty && required == other.required && default == other.default &&
      Nested.beqOption nested other.nested && deprecated == other.deprecated &&
      doc == other.doc && subsection == other.subsection && typeDoc == other.typeDoc
termination_by structural spec => spec

def Schema.beq : Schema → Schema → Bool
  | ⟨keys⟩, other => keys.length == other.keys.length && Schema.keysWithin keys other.keys
termination_by structural schema => schema

def Schema.keysWithin : List (String × KeySpec) → List (String × KeySpec) → Bool
  | [], _ => true
  | (name, spec) :: rest, others =>
    (match others.lookup name with
      | some other => spec.beq other
      | none => false) && Schema.keysWithin rest others
termination_by structural keys => keys

end

instance : BEq Choices := ⟨Choices.beq⟩
instance : BEq Validator := ⟨Validator.beq⟩
instance : BEq Ty := ⟨Ty.beq⟩
instance : BEq Nested := ⟨Nested.beq⟩
instance : BEq KeySpec := ⟨KeySpec.beq⟩
instance : BEq Schema := ⟨Schema.beq⟩

end OptionSchema

import OptionSchema.Failure
import OptionSchema.Registry.Basic
/-! # Where a validation stands -/
namespace OptionSchema

/-- The registry that resolves references, and the position of the schema level being walked. -/
structure Context where
  registry : Option Registry := none
  depth : Nat := 0
  maxDepth : Nat := defaultMaxDepth
  path : Path := .root

namespace Context

def new : Context := {}

def withRegistry (ctx : Context) (registry : Registry) : Context :=
  { ctx with registry := some registry }

def withMaxDepth (ctx : Context) (maxDepth : Nat) : Context := { ctx with maxDepth }

def step (ctx : Context) (segment : Segment) : Context := { ctx with path := ctx.path.push segment }

def descend (ctx : Context) (segment : Segment) : Context :=
  { ctx with depth := ctx.depth + 1, path := ctx.path.push segment }

def atLimit (ctx : Context) : Bool := decide (ctx.maxDepth ≤ ctx.depth)

def remaining (ctx : Context) : Nat := ctx.maxDepth - ctx.depth

def schema? (ctx : Context) (name : String) : Option Schema :=
  ctx.registry.bind fun registry => registry.schema? name

theorem atLimit_iff_remaining (ctx : Context) : ctx.atLimit = true ↔ ctx.remaining = 0 := by
  simp [atLimit, remaining, Nat.sub_eq_zero_iff_le]

theorem remaining_step (ctx : Context) (segment : Segment) :
    (ctx.step segment).remaining = ctx.remaining := rfl

theorem remaining_descend (ctx : Context) (segment : Segment) :
    (ctx.descend segment).remaining = ctx.remaining - 1 := by
  simp [remaining, descend, Nat.sub_sub]

end Context

def Registry.context (registry : Registry) : Context :=
  (Context.new.withRegistry registry).withMaxDepth registry.maxDepth

end OptionSchema

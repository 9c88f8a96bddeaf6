/-!
# Why a step is not fused

An unsupported step is an ordinary outcome: it stays in the chain and is interpreted. An illegal
state would be a step that was let into a composite body and then could not be read there.
-/

set_option autoImplicit false

namespace TraversalSql

/-- What keeps a step out of a run. -/
inductive Obstacle where
  | stopCondition
  | unboundedLoop
  | conditionalEmit
  | zeroTurns
  | tooManyTurns (times limit : Nat)
  | standstill
  | loopBody (step : String)
  | computedSortKey
  | emptyOptional
  | optionalStart (step : String)
  | partialFilter (step : String)
  | orderBelowIncoming
  | optionalBody (step : String) (position : Nat)
  | falseBranch
  | conditionDiffers
  | nestedFilter
  | mutationListener
deriving DecidableEq, Repr

def Obstacle.text : Obstacle → String
  | stopCondition => "repeat with an until condition has no fixed depth"
  | unboundedLoop => "repeat without times(n) has no fixed depth"
  | conditionalEmit => "conditional emit"
  | zeroTurns => "times(0) before repeat never runs the body"
  | tooManyTurns times limit =>
    "times(" ++ toString times ++ ") exceeds the unroll limit of " ++ toString limit
  | standstill => "repeat body does not move along edges"
  | loopBody step => step ++ " inside a repeat body"
  | computedSortKey => "order key is not a column"
  | emptyOptional => "empty optional body"
  | optionalStart step => "optional body starting with " ++ step
  | partialFilter step => step ++ " cannot be fully translated"
  | orderBelowIncoming => "order inside an optional needs a graph-rooted run"
  | optionalBody step position =>
    step ++ " at position " ++ toString position ++ " of an optional body"
  | falseBranch => "choose is only fused when the false branch is identity()"
  | conditionDiffers => "choose condition differs from its true branch"
  | nestedFilter => "has filter with untranslatable containers inside a composite"
  | mutationListener => "drop with a mutation listener runs element by element"

/-- Why a step is not fused; the step is given by its text. -/
inductive FusionError where
  | unsupported (obstacle : Obstacle) (step : String)
  /-- A slice before the end of a composite body. -/
  | earlyRange (step : String)
  /-- A step that no composite body admits. -/
  | strayStep (step : String)
deriving DecidableEq, Repr

def FusionError.message : FusionError → String
  | unsupported obstacle step =>
    "Unsupported for SQL compilation: " ++ obstacle.text ++ "\n  Step: " ++ step
  | earlyRange step => "Illegal rewriter state: " ++ step ++ " before the end of a composite body"
  | strayStep step => "Illegal rewriter state: " ++ step ++ " inside a fused composite"

end TraversalSql

import TraversalSql.Fusion.Machine

/-!
# Fusing a chain

A chain is read from left to right. Each step that opens a run is replaced, together with the
steps the run takes over, by one fused step; all other steps stay. A step that was tried and left
to the interpreter is reported once.
-/

set_option autoImplicit false

namespace TraversalSql

/-- A step that was tried and is left to the interpreter. -/
structure Fallback where
  /-- The step's position in the chain when it was tried. -/
  index : Nat
  step : String
  reason : FusionError
deriving DecidableEq, Repr

/-- A chain with its runs fused, and what could not be fused. -/
structure FusedChain where
  traversal : Traversal
  fallbacks : List Fallback

/-- Report a fallback, unless it was reported before. -/
def report (fallbacks : List Fallback) (f : Fallback) : List Fallback :=
  if f ∈ fallbacks then fallbacks else fallbacks ++ [f]

/-- Report the step behind a run that was tried and not taken. -/
def FusedRun.report (f : FusedRun) (position : Nat) (chain : List StepNode)
    (fallbacks : List Fallback) : List Fallback :=
  match f.obstacle, chain[f.consumed]? with
  | some reason, some node =>
    TraversalSql.report fallbacks ⟨position + f.consumed, node.step.text, reason⟩
  | _, _ => fallbacks

/-- Fuse the runs of a chain from a position on; the first `skip` steps belong to the run before
and are left out. -/
def fuseChain (o : FusionOptions) (mutationListener : Bool) (fallbacks : List Fallback) :
    (position skip : Nat) → List StepNode → List StepNode × List Fallback
  | _, _, [] => ([], fallbacks)
  | position, skip + 1, _ :: rest => fuseChain o mutationListener fallbacks position skip rest
  | position, 0, node :: rest =>
    match fuseRun? o mutationListener node rest with
    | none =>
      let (steps, fallbacks) := fuseChain o mutationListener fallbacks (position + 1) 0 rest
      (node :: steps, fallbacks)
    | some f =>
      let fallbacks := f.report position (node :: rest) fallbacks
      -- what was left over stands behind the run, and the chain goes on behind both
      let replacement := .plain (.fused f.run) :: f.leftover.toList
      let (steps, fallbacks) := fuseChain o mutationListener fallbacks
        (position + replacement.length) (f.consumed - 1) rest
      (replacement ++ steps, fallbacks)

/-- Fuse every run of a traversal. -/
def Traversal.fuse (t : Traversal) (o : FusionOptions) : FusedChain :=
  let (steps, fallbacks) := fuseChain o t.mutationListener [] 0 0 t.steps
  ⟨{ t with steps := steps }, fallbacks⟩

/-- The fused runs, in order. -/
def FusedChain.runs (r : FusedChain) : List Run := r.traversal.runs

end TraversalSql

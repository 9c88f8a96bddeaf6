import TraversalSql.Traversal.Step
import TraversalSql.Fusion.Bucket
import TraversalSql.Fusion.Error

/-!
# Which composites can be fused

Loops, optional parts and choices are looked through before a run enters them. The checks see the
steps only, never the tables. A loop needs a fixed number of turns and a body of moves and filters;
an optional part starts with a move and may end in a slice or a further optional part; a choice is
an optional part in disguise when its condition is its true branch and its false branch does
nothing.
-/

set_option autoImplicit false

namespace TraversalSql

/-- What a loop's body may hold. -/
def Step.fitsLoop (fullText : Bool) : Step → Bool
  | .move _ | .identity => true
  | .has fs => allCarried fullText fs
  | _ => false

namespace Loop

/-- How often a body is read: a bound in front of the loop may be zero, one behind it comes after
the first turn. -/
def turnCount (l : Loop) : Nat :=
  if l.controlFirst then l.times.getD 0 else max (l.times.getD 0) 1

/-- What keeps a loop from being unrolled. -/
def obstacle? (l : Loop) (limit : Nat) (fullText : Bool) : Option Obstacle :=
  if l.stopWhen.isSome then some .stopCondition
  else if l.times.isNone then some .unboundedLoop
  else if l.emit.any fun e => e.condition.isSome then some .conditionalEmit
  else if l.turnCount = 0 then some .zeroTurns
  else if limit < l.turnCount then some (.tooManyTurns (l.times.getD 0) limit)
  else if !l.body.any fun n => n.step.isMove then some .standstill
  else (l.body.find? fun n => !n.step.fitsLoop fullText).map fun n => .loopBody n.step.text

/-- The turns a loop is unrolled into. -/
def turns (l : Loop) (limit : Nat) (fullText : Bool) : Except FusionError Nat :=
  match l.obstacle? limit fullText with
  | some o => .error (.unsupported o l.text)
  | none => .ok l.turnCount

end Loop

/-- Every sort key is a column. -/
def checkOrder (specs : List SortSpec) : Except FusionError Unit :=
  match specs.find? fun s => s.key.isComputed with
  | some s => .error (.unsupported .computedSortKey s.text)
  | none => .ok ()

mutual

/-- The body of an optional part can be fused. Sorting and slicing inside it need a run that
starts at the graph. -/
def checkOptional (rooted fullText : Bool) : List StepNode → Except FusionError Unit
  | [] => .error (.unsupported .emptyOptional (Step.optional []).text)
  | ⟨step, labels⟩ :: rest =>
    let text := (Step.optional (⟨step, labels⟩ :: rest)).text
    if step.isMove then checkBody rooted fullText text 1 rest
    else .error (.unsupported (.optionalStart step.text) text)

/-- The steps behind the first of an optional part, from a position on. -/
def checkBody (rooted fullText : Bool) (text : String) (position : Nat) :
    List StepNode → Except FusionError Unit
  | [] => .ok ()
  | ⟨step, _⟩ :: rest => do
    checkInner rooted fullText text position rest.isEmpty step
    checkBody rooted fullText text (position + 1) rest

/-- One step of an optional part behind the first. -/
def checkInner (rooted fullText : Bool) (text : String) (position : Nat) (last : Bool) :
    Step → Except FusionError Unit
  | .move _ | .identity => .ok ()
  | .has fs =>
    if allCarried fullText fs then .ok ()
    else .error (.unsupported (.partialFilter (Step.has fs).text) text)
  | .order specs => do
    checkOrder specs
    if rooted then return () else throw (.unsupported .orderBelowIncoming text)
  | .range slice =>
    if last && rooted then .ok ()
    else .error (.unsupported (.optionalBody (Step.range slice).text position) text)
  | .optional body =>
    if last then checkOptional rooted fullText body
    else .error (.unsupported (.optionalBody (Step.optional body).text position) text)
  | other => .error (.unsupported (.optionalBody other.text position) text)

end

/-- A condition without the test at its end. -/
def withoutTest (steps : List StepNode) : List StepNode :=
  match steps.getLast? with
  | some ⟨.hasNext, _⟩ => steps.dropLast
  | _ => steps

/-- A chain that does nothing. -/
def isIdentityChain : List StepNode → Bool
  | [⟨.identity, _⟩] => true
  | _ => false

/-- The branch of a choice that can be fused as an optional part. -/
def chosenBranch (condition yes no : List StepNode) : Except FusionError (List StepNode) :=
  let text := (Step.choose condition yes no).text
  if !isIdentityChain no then .error (.unsupported .falseBranch text)
  else if !chainAlike (withoutTest condition) yes then .error (.unsupported .conditionDiffers text)
  else .ok yes

end TraversalSql

import TraversalSql.Traversal.Hop

/-!
# Traversals

A traversal is a chain of steps, each with the names that `as(..)` gave it. Loops, optional parts
and branches hold chains of their own. A chain that was fused holds `fused` steps in place of the
steps a run took over.
-/

set_option autoImplicit false

namespace TraversalSql

/-- Whether a loop's input is emitted too, or only what its body produces. -/
inductive EmitPosition where
  | before
  | after
deriving DecidableEq, Repr

mutual

/-- One step of a traversal. -/
inductive Step where
  /-- The source: all vertices or edges, or those with the given ids. -/
  | graph (kind : ElementKind) (ids : List Value)
  | move (m : Move)
  | has (filters : List Filter)
  | order (specs : List SortSpec)
  | range (slice : Slice)
  | loop (l : Loop)
  | optional (body : List StepNode)
  | choose (condition trueBranch falseBranch : List StepNode)
  | drop
  | identity
  /-- The test that ends the condition of a choice. -/
  | hasNext
  | path
  | tree
  /-- Any other step; it is left to an interpreter. -/
  | interpreted (text : String)
  | fused (run : Run)

/-- A step and the names the user gave it. -/
structure StepNode where
  step : Step
  labels : SortedSet String

/-- A repeated chain with its controls. -/
structure Loop where
  body : List StepNode
  times : Option Nat
  stopWhen : Option (List StepNode)
  emit : Option Emit
  /-- The bound or the stop condition was written before the loop. -/
  controlFirst : Bool

/-- Which elements of a loop are results, besides the last. -/
structure Emit where
  position : EmitPosition
  condition : Option (List StepNode)

end

instance : Inhabited Step := ⟨.identity⟩

instance : Inhabited StepNode := ⟨⟨.identity, ∅⟩⟩

/-- A chain of steps. With a mutation listener, deletions must run step by step. -/
structure Traversal where
  steps : List StepNode
  mutationListener : Bool := false

/-- A step without names. -/
def StepNode.plain (step : Step) : StepNode := ⟨step, ∅⟩

namespace Step

/-- The step moves along the graph. -/
def isMove : Step → Bool
  | move _ => true
  | _ => false

/-- The step asks for the elements on the way, not only the last. -/
def isPathLike : Step → Bool
  | path | tree => true
  | _ => false

/-- A fused run can begin at the step. -/
def startsRun : Step → Bool
  | graph .. | move _ => true
  | _ => false

end Step

/-- The names of a step as the call that gave them, with a dot in front. -/
def labelsText (labels : SortedSet String) : String :=
  match labels.toList with
  | [] => ""
  | names => ".as(" ++ Text.joined "," (names.map Text.inQuotes) ++ ")"

/-- The source step's text. -/
def graphText (kind : ElementKind) (ids : List Value) : String :=
  "g." ++ (match kind with
    | .vertex => "V"
    | .edge => "E") ++ "(" ++ Value.listText ids ++ ")"

mutual

/-- The step as a traversal writes it. -/
def Step.text : Step → String
  | .graph kind ids => graphText kind ids
  | .move m => m.text
  | .has filters => "has(" ++ Text.joined "," (filters.map Filter.text) ++ ")"
  | .order specs => SortSpec.orderText specs
  | .range slice => slice.text
  | .loop l => l.text
  | .optional body => "optional(" ++ chainText body ++ ")"
  | .choose condition yes no =>
    "choose(" ++ chainText condition ++ "," ++ chainText yes ++ "," ++ chainText no ++ ")"
  | .drop => "drop()"
  | .identity => "identity()"
  | .hasNext => "hasNext()"
  | .path => "path()"
  | .tree => "tree()"
  | .interpreted text => text
  | .fused run => run.text

def StepNode.text : StepNode → String
  | ⟨step, labels⟩ => step.text ++ labelsText labels

def nodeTexts : List StepNode → List String
  | [] => []
  | n :: ns => n.text :: nodeTexts ns

/-- A chain's steps with dots between. -/
def chainText : List StepNode → String
  | ns => Text.joined "." (nodeTexts ns)

def Loop.text : Loop → String
  | ⟨body, times, stopWhen, emit, _⟩ =>
    "repeat(" ++ chainText body ++ ")"
      ++ (match times with
          | some n => ".times(" ++ toString n ++ ")"
          | none => "")
      ++ stopText stopWhen
      ++ emitText emit

def stopText : Option (List StepNode) → String
  | some c => ".until(" ++ chainText c ++ ")"
  | none => ""

def emitText : Option Emit → String
  | some e => e.text
  | none => ""

def Emit.text : Emit → String
  | ⟨_, condition⟩ => ".emit(" ++ conditionText condition ++ ")"

def conditionText : Option (List StepNode) → String
  | some c => chainText c
  | none => ""

end

mutual

/-- The two steps are built alike from values that are alike. -/
def Step.alike : Step → Step → Bool
  | .graph k ids, .graph k' ids' => k == k' && Predicate.valuesAlike ids ids'
  | .move m, .move m' => m == m'
  | .has fs, .has gs => Filter.allAlike fs gs
  | .order s, .order s' => s == s'
  | .range r, .range r' => r == r'
  | .loop l, .loop l' => l.alike l'
  | .optional b, .optional b' => chainAlike b b'
  | .choose c t f, .choose c' t' f' => chainAlike c c' && chainAlike t t' && chainAlike f f'
  | .drop, .drop => true
  | .identity, .identity => true
  | .hasNext, .hasNext => true
  | .path, .path => true
  | .tree, .tree => true
  | .interpreted s, .interpreted s' => s == s'
  | .fused r, .fused r' => Hop.allAlike r.hops r'.hops
  | _, _ => false

def StepNode.alike : StepNode → StepNode → Bool
  | ⟨s, labels⟩, ⟨s', labels'⟩ => s.alike s' && labels == labels'

/-- The two chains agree step by step. -/
def chainAlike : List StepNode → List StepNode → Bool
  | [], [] => true
  | n :: ns, m :: ms => n.alike m && chainAlike ns ms
  | _, _ => false

def Loop.alike : Loop → Loop → Bool
  | ⟨b, n, u, e, f⟩, ⟨b', n', u', e', f'⟩ =>
    chainAlike b b' && n == n' && optionAlike u u' && emitAlike e e' && f == f'

def optionAlike : Option (List StepNode) → Option (List StepNode) → Bool
  | none, none => true
  | some c, some c' => chainAlike c c'
  | _, _ => false

def emitAlike : Option Emit → Option Emit → Bool
  | none, none => true
  | some e, some e' => e.alike e'
  | _, _ => false

def Emit.alike : Emit → Emit → Bool
  | ⟨p, c⟩, ⟨p', c'⟩ => p == p' && optionAlike c c'

end

namespace Traversal

def text (t : Traversal) : String := chainText t.steps

/-- The fused runs of a chain, in order. -/
def runs (t : Traversal) : List Run :=
  t.steps.filterMap fun n =>
    match n.step with
    | .fused run => some run
    | _ => none

end Traversal

end TraversalSql

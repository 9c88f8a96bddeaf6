import TraversalSql.Traversal.Call

/-!
# Calls read as steps

The second pass of reading. Calls become steps from left to right; names given by `as(..)` go to
the step before them, sort keys to the `order()` before them, and the controls of a loop to the
loop before them or, if that has them already, to the next loop. A call that is no known step
stays as it is, for an interpreter.
-/

set_option autoImplicit false

namespace TraversalSql

/-- Why a text is not a traversal. -/
inductive ParseError where
  /-- The text does not begin with the graph; the offset is in bytes. -/
  | unreadable (offset : Nat) (near : String)
  | missingSource (found : String)
  | trailingInput (rest : String)
  | invalidArgument (step reason : String)
  | unknownPredicate (name : String)
  /-- A loop's control that belongs to no loop. -/
  | danglingModulator (modulator : String)
deriving DecidableEq, Repr

def ParseError.message : ParseError → String
  | unreadable offset near =>
    "Unable to parse traversal at offset " ++ toString offset ++ ": near `" ++ near ++ "`"
  | missingSource found =>
    "Traversal must start with g.V(..) or g.E(..), found `" ++ found ++ "`"
  | trailingInput rest => "Unexpected input after traversal: `" ++ rest ++ "`"
  | invalidArgument step reason => "Invalid arguments for `" ++ step ++ "`: " ++ reason
  | unknownPredicate name => "Unknown predicate `" ++ name ++ "`"
  | danglingModulator modulator =>
    "`" ++ modulator ++ "` does not follow or precede a repeat step"

namespace Argument

/-- A literal value. -/
def value (step : String) : Argument → Except ParseError Value
  | .string s => .ok (.string s)
  | .int i => .ok (.int i)
  | .float x => .ok (.float x)
  | .keyword "true" => .ok (.bool true)
  | .keyword "false" => .ok (.bool false)
  | .keyword "null" => .ok .null
  | other => .error (.invalidArgument step ("expected a literal value, found " ++ other.text))

/-- The key of a property, or one of the reserved keys. -/
def propertyKey (step : String) : Argument → Except ParseError String
  | .string s => .ok s
  | .keyword "T.id" | .keyword "id" => .ok idKey
  | .keyword "T.label" | .keyword "label" => .ok labelKey
  | other => .error (.invalidArgument step ("expected a property key, found " ++ other.text))

/-- The name of an order, behind any number of repeated qualifiers. -/
def dropOrderQualifier : Nat → List Char → List Char
  | 0, cs => cs
  | n + 1, cs =>
    match Grammar.afterText "Order.".toList cs with
    | some rest => dropOrderQualifier n rest
    | none => cs

/-- The direction a keyword names. -/
def sortDirection? : Argument → Option SortDirection
  | .keyword name =>
    match String.ofList (dropOrderQualifier name.length name.toList) with
    | "asc" | "incr" => some .asc
    | "desc" | "decr" => some .desc
    | _ => none
  | _ => none

end Argument

namespace Call

def invalid (c : Call) (reason : String) : ParseError := .invalidArgument c.name reason

/-- All arguments, as strings. -/
def strings (c : Call) : Except ParseError (List String) :=
  c.arguments.mapM fun
    | .string s => .ok s
    | other => .error (c.invalid ("expected a string, found " ++ other.text))

/-- All arguments, as literal values. -/
def values (c : Call) : Except ParseError (List Value) := c.arguments.mapM (Argument.value c.name)

/-- The argument at a position, as a count. -/
def countAt (c : Call) (index : Nat) : Except ParseError Nat :=
  match c.arguments[index]? with
  | some (.int i) =>
    if 0 ≤ i.toInt then .ok i.toInt.toNat
    else .error (c.invalid (message index))
  | _ => .error (c.invalid (message index))
where
  message (index : Nat) : String :=
    "argument " ++ toString (index + 1) ++ " must be a non-negative integer"

/-- The only argument, as a value. -/
def singleValue (c : Call) : Except ParseError Value := do
  match ← c.values with
  | [v] => .ok v
  | _ => .error (c.invalid "expected one value")

/-- The two arguments, as values. -/
def valuePair (c : Call) : Except ParseError (Value × Value) := do
  match ← c.values with
  | [a, b] => .ok (a, b)
  | _ => .error (c.invalid "expected two values")

def textTest (c : Call) (test : TextTest) : Except ParseError Predicate := do
  match ← c.singleValue with
  | .string s => .ok (.text test s)
  | _ => .error (c.invalid "expected a string")

/-- A call that names a predicate. -/
def predicate (c : Call) : Except ParseError Predicate :=
  match c.name with
  | "eq" => c.singleValue.map (.compare .eq)
  | "neq" => c.singleValue.map (.compare .neq)
  | "lt" => c.singleValue.map (.compare .lt)
  | "lte" => c.singleValue.map (.compare .lte)
  | "gt" => c.singleValue.map (.compare .gt)
  | "gte" => c.singleValue.map (.compare .gte)
  | "within" => c.values.map .within
  | "without" => c.values.map .without
  | "between" => c.valuePair.map fun (a, b) => .between a b
  | "inside" => c.valuePair.map fun (a, b) => .inside a b
  | "outside" => c.valuePair.map fun (a, b) => .outside a b
  | "containing" => c.textTest .containing
  | "notContaining" => c.textTest .notContaining
  | "startingWith" => c.textTest .startingWith
  | "notStartingWith" => c.textTest .notStartingWith
  | "endingWith" => c.textTest .endingWith
  | "notEndingWith" => c.textTest .notEndingWith
  | "fullText" => do
    match ← c.values with
    | [.string query] => .ok (.fullText query none)
    | [.string query, .string configuration] => .ok (.fullText query (some configuration))
    | _ => .error (c.invalid "expected (query) or (query, configuration)")
  | other => .error (.unknownPredicate other)

/-- The label that a `select(..)` names. -/
def selectLabel (c : Call) : Except ParseError String :=
  match c.arguments with
  | [.string label] => .ok label
  | _ => .error (.invalidArgument "select" "expected one label")

/-- What a `by(..)` sorts by, given its key argument. -/
def sortKey : Option Argument → Except ParseError SortKey
  | none => .ok .id
  | some (.string p) => .ok (.property p)
  | some (.keyword "T.id") | some (.keyword "id") => .ok .id
  | some (.lambda code) => .ok (.lambda code)
  | some (.chain [select]) =>
    if select.name = "select" then do return .select (← select.selectLabel) none
    else .ok (.aggregate (Argument.chain [select]).text)
  | some (.chain [select, by_]) =>
    if select.name = "select" ∧ by_.name = "by" then do
      let label ← select.selectLabel
      match ← by_.strings with
      | p :: _ => return .select label (some p)
      | [] => throw (.invalidArgument "by" "expected a property key")
    else .ok (.aggregate (Argument.chain [select, by_]).text)
  | some (.chain calls) => .ok (.aggregate (Argument.chain calls).text)
  | some other => .error (.invalidArgument "by" ("unsupported order key " ++ other.text))

/-- One sort key of an `order()`: a key, an order, or both; by default the id, ascending. -/
def sortSpec (c : Call) : Except ParseError SortSpec := do
  let (key, direction) ← match c.arguments with
    | [] => .ok (none, .asc)
    | [only] =>
      match only.sortDirection? with
      | some direction => .ok (none, direction)
      | none => .ok (some only, .asc)
    | [key, order] =>
      match order.sortDirection? with
      | some direction => .ok (some key, direction)
      | none => .error (.invalidArgument "by" ("unknown sort order " ++ order.text))
    | _ => .error (.invalidArgument "by" "expected (key) or (key, order)")
  return ⟨← sortKey key, direction⟩

end Call

mutual

/-- The predicate an argument stands for: code, a chain of predicate calls joined by `and` and
`or` from the left, or a literal that the value is to equal. -/
def Argument.predicate (step : String) : Argument → Except ParseError Predicate
  | .lambda code => .ok (.lambda code)
  | .chain [] => .error (.invalidArgument step "empty predicate")
  | .chain (first :: rest) => do connect (← first.predicate) rest
  | .string s => .ok (.compare .eq (.string s))
  | .int i => .ok (.compare .eq (.int i))
  | .float x => .ok (.compare .eq (.float x))
  | .keyword name => return .compare .eq (← (Argument.keyword name).value step)

/-- Join further predicates to one that was read. -/
def connect (p : Predicate) : List Call → Except ParseError Predicate
  | [] => .ok p
  | c :: rest => do
    -- a fault in what is joined is found before an unknown way of joining
    let q ← connected c
    match c.name with
    | "and" => connect (.and [p, q]) rest
    | "or" => connect (.or [p, q]) rest
    | other => throw (.unknownPredicate other)

/-- The predicate that a connective joins. -/
def connected : Call → Except ParseError Predicate
  | ⟨name, [a]⟩ => a.predicate name
  | ⟨name, _⟩ => .error (.invalidArgument name "expected one predicate")

end

namespace Call

/-- The filters of a `has(..)`. -/
def filters (c : Call) : Except ParseError (List Filter) :=
  match c.arguments with
  | [key] => do return [⟨← key.propertyKey c.name, .present⟩]
  | [key, value] => do
    let key ← key.propertyKey c.name
    return [⟨key, ← value.predicate c.name⟩]
  | [.string label, key, value] => do
    let key ← key.propertyKey c.name
    return [⟨labelKey, .compare .eq (.string label)⟩, ⟨key, ← value.predicate c.name⟩]
  | _ => .error (c.invalid "expected (key), (key, value) or (label, key, value)")

/-- One predicate, or several values of which one is to be equal. -/
def membership (c : Call) : Except ParseError Predicate :=
  match c.arguments with
  | [] => .error (c.invalid "expected at least one value")
  | [single] => single.predicate c.name
  | _ => c.values.map .within

/-- The slice of a `range(..)`; `-1` as its end leaves it open. -/
def slice (c : Call) : Except ParseError Slice := do
  let low ← c.countAt 0
  let high ← match c.arguments[1]? with
    | some (.int (-1)) => .ok none
    | _ => (c.countAt 1).map some
  if high.any (· < low) then throw (.invalidArgument "range" "high must not be below low")
  return ⟨low, high⟩

/-- The moves, by the names of their calls. -/
def move? (c : Call) : Option (Except ParseError Move) :=
  match c.name with
  | "out" => some (follow .outgoing .vertex)
  | "in" => some (follow .incoming .vertex)
  | "both" => some (follow .both .vertex)
  | "outE" => some (follow .outgoing .edge)
  | "inE" => some (follow .incoming .edge)
  | "bothE" => some (follow .both .edge)
  | "outV" => some (.ok (.endpoint .outgoing))
  | "inV" => some (.ok (.endpoint .incoming))
  | "bothV" => some (.ok (.endpoint .both))
  | _ => none
where
  follow (direction : Direction) (returns : ElementKind) : Except ParseError Move :=
    c.strings.map fun labels => .follow direction labels returns

end Call

/-- Controls of a loop that is still to come. -/
structure PendingLoop where
  times : Option Nat := none
  stopWhen : Option (List StepNode) := none
  emit : Option (Option (List StepNode)) := none

namespace PendingLoop

/-- The control that a missing loop would have taken, by the name of its call. -/
def dangling? (p : PendingLoop) : Option String :=
  if p.times.isSome then some "times"
  else if p.stopWhen.isSome then some "until"
  else if p.emit.isSome then some "emit"
  else none

/-- The loop around a body that takes over all pending controls. -/
def loop (p : PendingLoop) (body : List StepNode) : Loop where
  body := body
  times := p.times
  stopWhen := p.stopWhen
  emit := p.emit.map fun condition => ⟨.before, condition⟩
  controlFirst := p.times.isSome || p.stopWhen.isSome

end PendingLoop

/-- A chain under construction: the steps read so far, the last one first. -/
structure ChainBuilder where
  steps : List StepNode := []
  pending : PendingLoop := {}
  /-- The last call was an `order()` or one of its keys. -/
  ordering : Bool := false

namespace ChainBuilder

def push (b : ChainBuilder) (step : Step) : ChainBuilder :=
  { b with steps := .plain step :: b.steps, ordering := false }

/-- Give names to the last step. -/
def label (b : ChainBuilder) (names : List String) : Except ParseError ChainBuilder :=
  match b.steps with
  | last :: before =>
    .ok { b with
      steps := { last with labels := last.labels.insertAll names } :: before, ordering := false }
  | [] => .error (.invalidArgument "as" "must follow a step")

/-- The last step, if it is a loop, and a way to put a changed loop back. -/
def lastLoop? (b : ChainBuilder) : Option (Loop × (Loop → ChainBuilder)) :=
  match b.steps with
  | ⟨.loop l, labels⟩ :: before =>
    some (l, fun l => { b with steps := ⟨.loop l, labels⟩ :: before, ordering := false })
  | _ => none

/-- Change the controls that wait for a loop. -/
def postpone (b : ChainBuilder) (f : PendingLoop → PendingLoop) : ChainBuilder :=
  { b with pending := f b.pending, ordering := false }

/-- A count of turns goes to the loop before, if that has no end yet. -/
def times (b : ChainBuilder) (n : Nat) : ChainBuilder :=
  match b.lastLoop? with
  | some (l, put) =>
    if l.times.isNone && l.stopWhen.isNone then put { l with times := some n }
    else b.postpone fun p => { p with times := some n }
  | none => b.postpone fun p => { p with times := some n }

/-- A stop condition goes to the loop before, if that has no end yet. -/
def stopWhen (b : ChainBuilder) (condition : List StepNode) : ChainBuilder :=
  match b.lastLoop? with
  | some (l, put) =>
    if l.times.isNone && l.stopWhen.isNone then put { l with stopWhen := some condition }
    else b.postpone fun p => { p with stopWhen := some condition }
  | none => b.postpone fun p => { p with stopWhen := some condition }

/-- An emit goes to the loop before, if that has none yet. -/
def emit (b : ChainBuilder) (condition : Option (List StepNode)) : ChainBuilder :=
  match b.lastLoop? with
  | some (l, put) =>
    if l.emit.isNone then put { l with emit := some ⟨.after, condition⟩ }
    else b.postpone fun p => { p with emit := some condition }
  | none => b.postpone fun p => { p with emit := some condition }

/-- A loop takes over the controls that waited for it. -/
def pushLoop (b : ChainBuilder) (body : List StepNode) : ChainBuilder :=
  { b with
    steps := .plain (.loop (b.pending.loop body)) :: b.steps, pending := {}, ordering := false }

/-- The finished chain; no control may be left over. -/
def finish (b : ChainBuilder) : Except ParseError (List StepNode) :=
  match b.pending.dangling? with
  | some modulator => .error (.danglingModulator modulator)
  | none => .ok b.steps.reverse

end ChainBuilder

/-- The steps of an argument that is a chain, or the fault in it; other arguments have none. -/
abbrev Nested := Option (Except ParseError (List StepNode))

/-- The argument at a position, as a chain of steps. -/
def Call.chainAt (c : Call) (nested : List Nested) (index : Nat) :
    Except ParseError (List StepNode) :=
  match nested[index]? with
  | some (some steps) => steps
  | _ => .error (c.invalid ("argument " ++ toString (index + 1) ++ " must be a traversal"))

/-- The sort keys of an `order()`: those of the `by` calls right behind it. -/
def sortSpecs (following : List Call) : Except ParseError (List SortSpec) := do
  match ← (following.takeWhile fun c => c.name == "by").mapM Call.sortSpec with
  | [] => return [⟨.id, .asc⟩]
  | specs => return specs

/-- Read one call. Its arguments that are chains are given as steps, and the calls behind it are
looked at for sort keys. -/
def ChainBuilder.read (b : ChainBuilder) (c : Call) (nested : List Nested)
    (following : List Call) : Except ParseError ChainBuilder := do
  -- the `order()` before has read this key already
  if b.ordering && c.name == "by" then return b
  if let some move := c.move? then return b.push (.move (← move))
  match c.name with
  | "has" => return b.push (.has (← c.filters))
  | "hasLabel" => return b.push (.has [⟨labelKey, ← c.membership⟩])
  | "hasId" => return b.push (.has [⟨idKey, ← c.membership⟩])
  | "hasNot" =>
    match ← c.strings with
    | [key] => return b.push (.has [⟨key, .absent⟩])
    | _ => throw (c.invalid "expected one property key")
  | "as" => b.label (← c.strings)
  | "order" => return { b.push (.order (← sortSpecs following)) with ordering := true }
  | "limit" => return b.push (.range (.limit (← c.countAt 0)))
  | "skip" => return b.push (.range ⟨← c.countAt 0, none⟩)
  | "range" => return b.push (.range (← c.slice))
  | "repeat" => return b.pushLoop (← c.chainAt nested 0)
  | "times" => return b.times (← c.countAt 0)
  | "until" => return b.stopWhen (← c.chainAt nested 0)
  | "emit" =>
    if c.arguments.isEmpty then return b.emit none
    else return b.emit (some (← c.chainAt nested 0))
  | "optional" => return b.push (.optional (← c.chainAt nested 0))
  | "identity" => return b.push .identity
  | "drop" => return b.push .drop
  | "path" => return b.push .path
  | "tree" => return b.push .tree
  | "choose" =>
    if c.arguments.length = 3 then do
      let condition ← c.chainAt nested 0
      let yes ← c.chainAt nested 1
      let no ← c.chainAt nested 2
      return b.push (.choose (condition ++ [.plain .hasNext]) yes no)
    else return b.push (.interpreted c.text)
  | _ => return b.push (.interpreted c.text)

mutual

/-- Read calls from left to right. -/
def readCalls (b : ChainBuilder) : List Call → Except ParseError ChainBuilder
  | [] => .ok b
  | ⟨name, arguments⟩ :: rest => do
    readCalls (← b.read ⟨name, arguments⟩ (nestedChains arguments) rest) rest

/-- The steps of the arguments that are chains. -/
def nestedChains : List Argument → List Nested
  | [] => []
  | a :: as => a.nested :: nestedChains as

def Argument.nested : Argument → Nested
  | .chain calls => some (readCalls {} calls >>= ChainBuilder.finish)
  | .string _ | .int _ | .float _ | .keyword _ | .lambda _ => none

end

/-- The kind of element a source call asks for. -/
def Call.sourceKind? (c : Call) : Option ElementKind :=
  match c.name with
  | "V" => some .vertex
  | "E" => some .edge
  | _ => none

/-- Read a traversal: the graph, a source of vertices or edges, then steps. -/
def Traversal.parse (text : String) : Except ParseError Traversal :=
  match Grammar.source text.toList with
  | none =>
    let spaces := text.toList.takeWhile Grammar.isSpace
    let near := (Grammar.skipSpaces text.toList).take 24
    .error (.unreadable spaces.length (String.ofList near))
  | some (calls, rest) => do
    let rest := Text.trimList rest
    if !rest.isEmpty then throw (.trailingInput (String.ofList rest))
    match calls with
    | [] => throw (.missingSource (Text.trim text))
    | first :: calls =>
      let some kind := first.sourceKind? | throw (.missingSource first.text)
      let ids ← first.values
      let built ← readCalls { steps := [.plain (.graph kind ids)] } calls
      return { steps := ← built.finish }

end TraversalSql

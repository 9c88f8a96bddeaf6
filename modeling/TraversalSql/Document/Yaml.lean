import TraversalSql.Document.Yaml.Layout

/-!
# Documents written in YAML

A text is read in two steps: into tokens, which show where lists, maps and their parts begin and
end, and from these into a document.

Scalars, lists and maps are read off the tokens, each with an anchor and a tag if it has them. What
is left out between tokens, such as the value of a key, is an empty scalar. A list may stand in the
column of the key whose value it is; it has then no tokens for its start and end.
-/

set_option autoImplicit false

namespace TraversalSql

namespace Yaml

/-- The tokens that are left, and what the names in them stand for. -/
structure Outline where
  tokens : List Token
  /-- Parts by their anchors, last first. -/
  anchors : List (String × Document) := []
  /-- The meaning of the handles of tags. -/
  handles : List (String × String) := []

/-- What may stand before a part of a document. -/
structure NodeProperties where
  anchor : Option String := none
  tag : Option String := none

namespace Outline

variable (o : Outline)

/-- The outline behind the next `n` tokens. -/
def drop (n : Nat) : Outline := { o with tokens := o.tokens.drop n }

/-- The next token passes a test. -/
def next (test : Token → Bool) : Bool := o.tokens.head?.any test

/-- The full name of a tag. -/
def tag? (handle name : String) : Option String :=
  if handle.isEmpty then some name else (o.handles.lookup handle).map (· ++ name)

/-- Read an anchor and a tag, in any order. -/
def properties : Option (NodeProperties × Outline) :=
  match o.tokens with
  | .anchor a :: .tag h n :: _ => (o.tag? h n).map fun t => (⟨some a, some t⟩, o.drop 2)
  | .tag h n :: .anchor a :: _ => (o.tag? h n).map fun t => (⟨some a, some t⟩, o.drop 2)
  | .anchor a :: _ => some (⟨some a, none⟩, o.drop 1)
  | .tag h n :: _ => (o.tag? h n).map fun t => (⟨none, some t⟩, o.drop 1)
  | _ => some ({}, o)

/-- Give a name to a part. -/
def bind (anchor : Option String) (d : Document) : Outline :=
  match anchor with
  | some a => { o with anchors := (a, d) :: o.anchors }
  | none => o

/-- Give the part for whose name `before` others stood its document, now that it is complete. -/
def complete (anchor : Option String) (before : Nat) (d : Document) : Outline :=
  match anchor with
  | some a => { o with anchors := o.anchors.set (o.anchors.length - 1 - before) (a, d) }
  | none => o

/-- An empty scalar, if at least an anchor or a tag stands for it. -/
def bare (p : NodeProperties) : Option (Document × Outline) :=
  if p.anchor.isNone && p.tag.isNone then none
  else
    let d := .scalar "" .plain p.tag
    some (d, o.bind p.anchor d)

/-- A scalar. An exclamation mark alone is no tag of a scalar. -/
def scalar (p : NodeProperties) (s : String) (style : ScalarStyle) : Document × Outline :=
  let d := .scalar s style (if p.tag = some "!" then none else p.tag)
  (d, (o.drop 1).bind p.anchor d)

end Outline

mutual

/-- Read a part. Blocks may stand only in blocks, and a list without start and end only as a key or
value of a block. -/
def node : Nat → (inBlock inEntry : Bool) → Outline → Option (Document × Outline)
  | 0, _, _, _ => none
  | fuel + 1, inBlock, inEntry, o => do
    let (p, inner) ← o.properties
    let begun := inner.bind p.anchor .enclosing
    let part (d : Document) (behind : Outline) : Document × Outline :=
      (d, behind.complete p.anchor inner.anchors.length d)
    match inner.tokens with
    | .alias name :: _ =>
      if p.anchor.isSome || p.tag.isSome then inner.bare p
      else (o.anchors.lookup name).map fun d => (d, o.drop 1)
    | .scalar s style :: _ => some (inner.scalar p s style)
    | .flowListStart :: _ =>
      (flowItems fuel true [] (begun.drop 1)).map fun (ds, behind) => part (.list ds) behind
    | .flowMapStart :: _ =>
      (flowEntries fuel true [] (begun.drop 1)).map fun (es, behind) => part (.map es) behind
    | .blockListStart :: _ =>
      if inBlock then
        (blockItems fuel [] (begun.drop 1)).map fun (ds, behind) => part (.list ds) behind
      else inner.bare p
    | .blockMapStart :: _ =>
      if inBlock then
        (blockEntries fuel [] (begun.drop 1)).map fun (es, behind) => part (.map es) behind
      else inner.bare p
    | .blockEntry :: _ =>
      if inEntry then
        (openItems fuel [] begun).map fun (ds, behind) => part (.list ds) behind
      else inner.bare p
    | _ => inner.bare p

/-- Read a part, or nothing if the next token is one that follows a part. -/
def nodeBefore : Nat → (ends : Token → Bool) → (inBlock inEntry : Bool) → Outline →
    Option (Document × Outline)
  | 0, _, _, _, _ => none
  | fuel + 1, ends, inBlock, inEntry, o =>
    if o.next ends then some (.nothing, o) else node fuel inBlock inEntry o

/-- Read the items of a block up to its end. -/
def blockItems : Nat → List Document → Outline → Option (List Document × Outline)
  | 0, _, _ => none
  | fuel + 1, items, o =>
    match o.tokens with
    | .blockEntry :: _ => do
      let (d, o) ← nodeBefore fuel ([.blockEntry, .blockEnd].contains ·) true false (o.drop 1)
      blockItems fuel (d :: items) o
    | .blockEnd :: _ => some (items.reverse, o.drop 1)
    | _ => none

/-- Read the items of a list without start and end. -/
def openItems : Nat → List Document → Outline → Option (List Document × Outline)
  | 0, _, _ => none
  | fuel + 1, items, o =>
    match o.tokens with
    | .blockEntry :: _ => do
      let (d, o) ← nodeBefore fuel ([.blockEntry, .key, .value, .blockEnd].contains ·) true false
        (o.drop 1)
      openItems fuel (d :: items) o
    | _ => some (items.reverse, o)

/-- Read the entries of a block up to its end. Every entry has a key. -/
def blockEntries : Nat → List (Document × Document) → Outline →
    Option (List (Document × Document) × Outline)
  | 0, _, _ => none
  | fuel + 1, entries, o =>
    match o.tokens with
    | .key :: _ => do
      let ends := ([.key, .value, .blockEnd].contains ·)
      let (k, o) ← nodeBefore fuel ends true true (o.drop 1)
      let (v, o) ← if o.next (· == .value) then nodeBefore fuel ends true true (o.drop 1)
        else some (.nothing, o)
      blockEntries fuel ((k, v) :: entries) o
    | .blockEnd :: _ => some (entries.reverse, o.drop 1)
    | _ => none

/-- Read the value of a key in brackets, if it has one. -/
def flowEntryValue : Nat → (close : Token) → Outline → Option (Document × Outline)
  | 0, _, _ => none
  | fuel + 1, close, o =>
    if o.next (· == .value) then
      nodeBefore fuel ([.flowEntry, close].contains ·) false false (o.drop 1)
    else some (.nothing, o)

/-- Read the items of a list in brackets. A key among them is a map of its own; a token that stands
for its absence is passed over. -/
def flowItems : Nat → (first : Bool) → List Document → Outline →
    Option (List Document × Outline)
  | 0, _, _, _ => none
  | fuel + 1, first, items, o => do
    if o.next (· == .flowListEnd) then return (items.reverse, o.drop 1)
    if !first && !o.next (· == .flowEntry) then none
    let o := if first then o else o.drop 1
    match o.tokens with
    | .key :: _ =>
      let o := o.drop 1
      let (k, o) ← if o.next ([.value, .flowEntry, .flowListEnd].contains ·) then
          some (.nothing, o.drop 1)
        else node fuel false false o
      let (v, o) ← flowEntryValue fuel .flowListEnd o
      flowItems fuel false (.map [(k, v)] :: items) o
    | .flowListEnd :: _ => return (items.reverse, o.drop 1)
    | _ =>
      let (d, o) ← node fuel false false o
      flowItems fuel false (d :: items) o

/-- Read the entries of a map in brackets. What has no key before it is a key without a value. -/
def flowEntries : Nat → (first : Bool) → List (Document × Document) → Outline →
    Option (List (Document × Document) × Outline)
  | 0, _, _, _ => none
  | fuel + 1, first, entries, o => do
    if o.next (· == .flowMapEnd) then return (entries.reverse, o.drop 1)
    if !first && !o.next (· == .flowEntry) then none
    let o := if first then o else o.drop 1
    match o.tokens with
    | .key :: _ =>
      let (k, o) ← nodeBefore fuel ([.value, .flowEntry, .flowMapEnd].contains ·) false false
        (o.drop 1)
      let (v, o) ← flowEntryValue fuel .flowMapEnd o
      flowEntries fuel false ((k, v) :: entries) o
    | .flowMapEnd :: _ => return (entries.reverse, o.drop 1)
    | _ =>
      let (k, o) ← node fuel false false o
      flowEntries fuel false ((k, .nothing) :: entries) o

end

/-! ## Documents -/

/-- What is known about a document from its directives. -/
structure Directives where
  versioned : Bool := false
  handles : List (String × String) := []

/-- Read directives, none of which may be given twice. -/
def directives (d : Directives) : List Token → Option (Directives × List Token)
  | .version major minor :: ts =>
    if d.versioned || major != 1 || (minor != 1 && minor != 2) then none
    else directives { d with versioned := true } ts
  | .handle name meaning :: ts =>
    if (d.handles.lookup name).isSome then none
    else directives { d with handles := d.handles ++ [(name, meaning)] } ts
  | ts => some (d, ts)

/-- The handles that need no directive. -/
def defaultHandles : List (String × String) :=
  [("!", "!"), ("!!", Document.standardTag "")]

/-- A token that stands between documents. -/
def Token.isOutside : Token → Bool
  | .version .. | .handle .. | .documentStart | .documentEnd => true
  | _ => false

/-- The only document of some tokens. With a mark at its start or directives it may be empty, and
so may a text without any tokens. -/
def documentOf? (ts : List Token) : Option Document := do
  if ts.isEmpty then return .nothing
  let fuel := 4 * ts.length + 8
  let (d, rest) ← directives {} ts
  let o : Outline := { tokens := rest, handles := d.handles ++ defaultHandles }
  let (document, o) ←
    if o.next (· == .documentStart) then
      let o := o.drop 1
      if o.tokens.isEmpty || o.next Token.isOutside then some (.nothing, o)
      else node fuel true false o
    else if rest.length == ts.length then node fuel true false o
    else none
  if o.tokens.all (· == .documentEnd) then some document else none

end Yaml

/-- The document that a YAML text holds. -/
def Document.ofYaml? (s : String) : Option Document := do
  let text := Yaml.withoutMark s.toList
  if !text.all Yaml.isAllowed then none
  Yaml.documentOf? (← Yaml.tokens? (Yaml.withLineFeeds text))

end TraversalSql

import TraversalSql.Traversal.Ordering

/-!
# Hops and runs

A run is a part of a traversal that becomes SQL: a root, and one hop per move away from it. A hop
carries everything that was folded into it, so that filters, sort keys, labels and flags of the
steps between two moves are found at the hop they act on.
-/

set_option autoImplicit false

namespace TraversalSql

/-- A move from an element to its neighbours. -/
inductive Move where
  /-- From a vertex along its edges: to the edges, or to the vertices behind them. Without
  labels, edges of every label are followed. -/
  | follow (direction : Direction) (edgeLabels : List String) (returns : ElementKind)
  /-- From an edge to the vertices at its ends. -/
  | endpoint (direction : Direction)
deriving DecidableEq, Repr

namespace Move

def directionText : Direction → String
  | .outgoing => "out"
  | .incoming => "in"
  | .both => "both"

def text : Move → String
  | follow direction labels returns =>
    directionText direction ++ (if returns = .edge then "E" else "") ++
      "(" ++ Text.joined "," (labels.map Text.inQuotes) ++ ")"
  | endpoint direction => directionText direction ++ "V()"

/-- The kind of element a move leaves from. -/
def source : Move → ElementKind
  | follow .. => .vertex
  | endpoint _ => .edge

/-- The kind of element a move arrives at. -/
def target : Move → ElementKind
  | follow _ _ returns => returns
  | endpoint _ => .vertex

end Move

/-- Why a label is asked for in the result. -/
inductive LabelOrigin where
  /-- The user wrote it with `as(..)`. -/
  | user
  /-- A path step needs the otherwise unlabelled hop. -/
  | path
  /-- The hop's elements are emitted in the middle of a loop. -/
  | emit
deriving DecidableEq, Repr

namespace LabelOrigin

def rank : LabelOrigin → Nat
  | user => 0
  | path => 1
  | emit => 2

theorem rank_injective {a b : LabelOrigin} (h : a.rank = b.rank) : a = b := by
  cases a <;> cases b <;> simp_all [rank]

end LabelOrigin

/-- A label asked for in the result at one hop. -/
structure ResultLabel where
  depth : Nat
  name : String
  origin : LabelOrigin
deriving DecidableEq, Repr

namespace ResultLabel

def isUser (l : ResultLabel) : Bool := l.origin == .user

/-- Labels are ordered by depth, name and origin. -/
def order : ResultLabel → ResultLabel → Ordering :=
  compareLex (compareOn depth)
    (compareLex (compareOn name) (compareOn (LabelOrigin.rank ∘ origin)))

instance : Ord ResultLabel := ⟨order⟩

/-- The names that the user wrote. -/
def userNames (labels : SortedSet ResultLabel) : List String :=
  (labels.toList.filter isUser).map name

end ResultLabel

instance : Std.TransOrd ResultLabel :=
  inferInstanceAs (Std.TransCmp (compareLex (compareOn ResultLabel.depth)
    (compareLex (compareOn ResultLabel.name) (compareOn (LabelOrigin.rank ∘ ResultLabel.origin)))))

instance : Std.LawfulEqOrd ResultLabel where
  eq_of_compare {a b} h := by
    have h : ResultLabel.order a b = .eq := h
    simp only [ResultLabel.order, compareLex, compareOn, Ordering.then_eq_eq] at h
    obtain ⟨h₁, h₂, h₃⟩ := h
    have e₁ := Std.LawfulEqOrd.eq_of_compare h₁
    have e₂ := Std.LawfulEqOrd.eq_of_compare h₂
    have e₃ := LabelOrigin.rank_injective (Std.LawfulEqOrd.eq_of_compare h₃)
    cases a
    cases b
    simp_all

/-- Where a hop gets its elements from. -/
inductive HopKind where
  /-- Every table of the kind is a candidate root. -/
  | graphRoot (element : ElementKind)
  /-- The roots are the elements that arrive from the step before. -/
  | incomingRoot (element : ElementKind)
  | move (m : Move)
deriving DecidableEq, Repr

namespace HopKind

def isRoot : HopKind → Bool
  | graphRoot _ | incomingRoot _ => true
  | move _ => false

/-- The kind of element a hop produces. -/
def target : HopKind → ElementKind
  | graphRoot k | incomingRoot k => k
  | move m => m.target

def text : HopKind → String
  | graphRoot .vertex => "V()"
  | graphRoot .edge => "E()"
  | incomingRoot _ => "incoming()"
  | move m => m.text

end HopKind

/-- One hop of a run, with all that was folded into it. -/
structure Hop where
  kind : HopKind
  /-- The hop's position in its run. -/
  depth : Nat
  filters : List Filter := []
  idPredicates : List Predicate := []
  labelPredicates : List Predicate := []
  order : List SortSpec := []
  range : Option Slice := none
  /-- The hop's elements are results, even if the run goes on. -/
  emit : Bool := false
  /-- The loop the hop belongs to was given its bound before its body. -/
  untilFirst : Bool := false
  /-- The hop opens an optional part: its source is a result where the part finds nothing. -/
  leftJoin : Bool := false
  drop : Bool := false
  labels : SortedSet ResultLabel := ∅
deriving Repr

namespace Hop

instance : Inhabited Hop := ⟨{ kind := .graphRoot .vertex, depth := 0 }⟩

/-- The name of labels that path steps ask for. -/
def pathLabel : String := "_path"

/-- The name of labels that mark emitted hops. -/
def emitLabel : String := "_emit"

def addLabel (h : Hop) (name : String) (origin : LabelOrigin) : Hop :=
  { h with labels := h.labels.insert ⟨h.depth, name, origin⟩ }

/-- Add names the user wrote. -/
def addUserLabels (h : Hop) (names : List String) : Hop :=
  names.foldl (fun h name => h.addLabel name .user) h

/-- Mark the hop's elements as results. -/
def markEmit (h : Hop) : Hop := { h with emit := true }.addLabel emitLabel .emit

/-- An optional suffix of a hop's text. -/
def suffix (flag : Bool) (text : String) : String := if flag then text else ""

def text (h : Hop) : String :=
  h.kind.text
    ++ String.join (h.idPredicates.map fun p => ".hasId(" ++ p.toText ++ ")")
    ++ String.join (h.labelPredicates.map fun p => ".hasLabel(" ++ p.toText ++ ")")
    ++ String.join (h.filters.map fun f => ".has(" ++ f.text ++ ")")
    ++ suffix (!h.order.isEmpty) ("." ++ SortSpec.orderText h.order)
    ++ (match h.range with
        | some r => "." ++ r.text
        | none => "")
    ++ suffix h.emit ".emit"
    ++ suffix h.leftJoin ".leftJoin"
    ++ suffix h.drop ".drop()"
    ++ (match ResultLabel.userNames h.labels with
        | [] => ""
        | names => ".as(" ++ Text.joined "," (names.map Text.inQuotes) ++ ")")

/-- The two hops are built alike from values that are alike. -/
def alike (h k : Hop) : Bool :=
  h.kind == k.kind && h.depth == k.depth && Filter.allAlike h.filters k.filters
    && Predicate.allAlike h.idPredicates k.idPredicates
    && Predicate.allAlike h.labelPredicates k.labelPredicates
    && h.order == k.order && h.range == k.range && h.emit == k.emit
    && h.untilFirst == k.untilFirst && h.leftJoin == k.leftJoin && h.drop == k.drop
    && h.labels == k.labels

/-- The hops agree place by place. -/
def allAlike : List Hop → List Hop → Bool
  | [], [] => true
  | h :: hs, k :: ks => h.alike k && allAlike hs ks
  | _, _ => false

end Hop

/-- A fused run: its root first, then one hop per move. -/
structure Run where
  hops : List Hop
deriving Repr

namespace Run

/-- The run deletes the elements it ends at. -/
def isDrop (r : Run) : Bool := r.hops.getLast?.any Hop.drop

/-- The run sorts its elements or keeps only some of them. -/
def hasOrderOrRange (r : Run) : Bool := r.hops.any fun h => !h.order.isEmpty || h.range.isSome

/-- The run starts from the elements that flow into it. -/
def isIncoming (r : Run) : Bool :=
  match r.hops with
  | { kind := .incomingRoot _, .. } :: _ => true
  | _ => false

def text (r : Run) : String := "sql[" ++ Text.joined "." (r.hops.map Hop.text) ++ "]"

end Run

end TraversalSql

import Wiring.Lookup

/-!
# Expanding a graph

From its roots a graph is expanded breadth first.  Each key requested is looked up once; the binding
found requests further keys.  A key that nothing yields is left without a value if every request for
it has a default, and is an error otherwise.  The expansion ends when no key waits, or when as many
errors are kept as the cap allows.
-/

namespace Wiring

/-- An expansion so far. -/
structure Expansion where
  diagnostics : Diagnostics
  bindings : SortedMap TypeKey Binding := .empty
  /-- The bound keys, in the order they were bound. -/
  order : List TypeKey := []
  edges : SortedSet Edge := .empty
  /-- The chains of the aliases met. -/
  aliasChains : SortedMap TypeKey (List TypeKey) := .empty
  /-- The keys that ancestors are asked to hold. -/
  ancestorRequests : SortedMap DeclarationId (SortedSet TypeKey) := .empty
  /-- The keys that wait to be looked up. -/
  queue : List TypeKey := []
  /-- The keys requested, with whether every request so far has a default. -/
  requested : SortedMap TypeKey Bool := .empty
  /-- The key to whose request a requested key is put down; roots have none. -/
  parents : SortedMap TypeKey TypeKey := .empty

namespace Expansion

/-- The keys that led to a request, nearest first, in at most the given number of steps. -/
def ancestry (parents : SortedMap TypeKey TypeKey) :
    Nat → List TypeKey → Option TypeKey → List TypeKey
  | 0, _, _ => []
  | _ + 1, _, none => []
  | steps + 1, seen, some key =>
      if key ∈ seen then []
      else key :: ancestry parents steps (key :: seen) (parents.get? key)

/-- The chain of requests from a root through `parent` to a key. -/
def chainTo (x : Expansion) (key : TypeKey) (parent : Option TypeKey) : List TypeKey :=
  (key :: ancestry x.parents (x.parents.size + 1) [] parent).reverse

/-- Reports that nothing yields the key that `parent` requests. -/
def reportUnresolved (l : Lookup) (x : Expansion) (key : TypeKey) (parent : Option TypeKey) :
    Expansion :=
  let requestedBy := (parent.bind x.bindings.get?).map (·.origin)
  { x with
    diagnostics := x.diagnostics.report
      (.unresolvedDependency key (x.chainTo key parent) requestedBy (l.catalog.missingHint? key)) }

/-- Whether a key was left without a value. -/
def isAbsent (x : Expansion) (key : TypeKey) : Bool :=
  ((x.bindings.get? key).map (·.isAbsent)).getD false

/-- Puts a key down to the request of `parent`. -/
def credit (x : Expansion) (key : TypeKey) (parent : Option TypeKey) : Expansion :=
  { x with
    parents := match parent with
      | some p => x.parents.insert key p
      | none => x.parents.erase key }

/-- A request for a key.  A new key waits to be looked up.  The first request without a default
takes a key over from those with one; if the key was left without a value by then, that request
cannot be met. -/
def request (l : Lookup) (x : Expansion) (key : TypeKey) (parent : Option TypeKey)
    (hasDefault : Bool) : Expansion :=
  if x.isAbsent key then
    if !hasDefault && parent.isSome then reportUnresolved l x key parent else x
  else
    match x.requested.get? key with
    | some true =>
        if hasDefault then x
        else { x.credit key parent with requested := x.requested.insert key false }
    | some false => x
    | none =>
        { x with
          requested := x.requested.insert key hasDefault
          parents := match parent with
            | some p => x.parents.insert key p
            | none => x.parents
          queue := x.queue ++ [key] }

/-- Binds a key and requests what the binding depends on. -/
def accept (l : Lookup) (x : Expansion) (b : Binding) : Expansion :=
  let bound : Expansion :=
    { x with
      edges := x.edges.insertAll b.edges
      order := x.order ++ [b.key]
      bindings := x.bindings.insert b.key b }
  b.dependencies.foldl (fun x d => request l x d.key (some b.key) d.hasDefault) bound

/-- Takes up what looking a key up brought. -/
def note (x : Expansion) (key : TypeKey) (f : Finding) : Expansion :=
  { x with
    diagnostics := x.diagnostics.reportAll f.errors
    aliasChains := match f.chain with
      | some chain => x.aliasChains.insert key chain
      | none => x.aliasChains
    ancestorRequests := match f.asked with
      | some ancestor =>
          x.ancestorRequests.alter ancestor fun keys => (keys.getD .empty).insert key
      | none => x.ancestorRequests }

/-- The binding of a key without a value. -/
def absentBinding (key : TypeKey) : Binding := .absent key (.madeUp ("default:" ++ key.render))

/-- Goes on from what looking a key up brought. -/
def settle (l : Lookup) (x : Expansion) (key : TypeKey) (f : Finding) : Expansion :=
  let noted := x.note key f
  match f.resolution with
  | .found b => accept l noted b
  | .failed => noted
  | .missing =>
      if (noted.requested.get? key).getD false then accept l noted (absentBinding key)
      else reportUnresolved l noted key (noted.parents.get? key)

/-- Looks a key up and goes on from what is found. -/
def process (l : Lookup) (x : Expansion) (key : TypeKey) : Expansion :=
  settle l x key (l.resolve key)

/-- Whether the expansion has ended. -/
def isDone (x : Expansion) : Bool := x.queue.isEmpty || x.diagnostics.limitReached

/-- Looks up the key that has waited longest, unless the expansion has ended. -/
def step (l : Lookup) (x : Expansion) : Expansion :=
  match x.queue with
  | [] => x
  | key :: rest => if x.diagnostics.limitReached then x else process l { x with queue := rest } key

/-- The expansion after as many steps as there are keys that may wait. -/
def run (l : Lookup) (x : Expansion) : Expansion :=
  (x.queue.length + l.vocabulary.length).repeat (step l) x

/-- Looks up the key that has waited longest in a look-up that remembers, unless the expansion has
ended. -/
def stepRemembering : Lookup × Expansion → Lookup × Expansion
  | (l, x) =>
      match x.queue with
      | [] => (l, x)
      | key :: rest =>
          if x.diagnostics.limitReached then (l, x)
          else
            let (f, l, diagnostics) := l.consult key x.diagnostics
            (l, settle l { x with queue := rest, diagnostics } key f)

/-- The expansion after as many steps, with a look-up that remembers its answers. -/
def runRemembering (l : Lookup) (x : Expansion) : Expansion :=
  ((x.queue.length + l.vocabulary.length).repeat stepRemembering (l, x)).2

end Expansion

end Wiring

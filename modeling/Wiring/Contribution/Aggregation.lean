import Wiring.Contribution
import Wiring.GraphError
import Wiring.SortedMap
import Wiring.SortedSet

/-!
# Aggregated contributions

What the contributions to a graph's scopes amount to.  Contributions are put in the order of their
declarations, so the order in which they are found plays no part.  Wrong ones are reported, excluded
ones are dropped, then those that a remaining one replaces; what survives is taken over, and of the
survivors that bind one key in one scope only the one of the greatest rank counts.
-/

namespace Wiring

open Std

/-- One key bound in one scope. -/
@[ext]
structure Slot where
  scope : Scope
  key : TypeKey
deriving DecidableEq, Repr

namespace Slot

/-- By scope, then by key. -/
instance : Ord Slot := ⟨compareLex (compareOn scope) (compareOn key)⟩

instance : TransOrd Slot := inferInstanceAs (TransCmp (compareLex _ _))

instance : LawfulEqOrd Slot where
  compare_self := ReflCmp.compare_self
  eq_of_compare h :=
    Slot.ext (eq_of_compareOn (and_eq_of_compareLex h).1)
      (eq_of_compareOn (and_eq_of_compareLex h).2)

end Slot

namespace Contribution

/-- By declaration, kind, scope and contributed type. -/
protected def compare : Contribution → Contribution → Ordering :=
  compareLex (compareOn declaration)
    (compareLex (compareOn fun c => c.kind.rank)
      (compareLex (compareOn scope) (compareOn contributedType)))

/-- The slot that a contribution binds. -/
def slot? (c : Contribution) : Option Slot := c.boundKey?.map fun key => ⟨c.scope, key⟩

/-- The elements that a contribution adds: a container adds its own, a contributed element redirects
to the contributed type. -/
def contributedElements (c : Contribution) : List Element :=
  match c.kind with
  | .container => c.elements
  | .binding => []
  | .intoSet =>
      c.boundKey?.toList.map fun bound =>
        ⟨c.origin, .set bound, .intoSet, .binds c.contributedType⟩
  | .intoMap =>
      match c.boundKey?, c.mapKey with
      | some bound, some mapKey =>
          [⟨c.origin, .map mapKey.typeName bound, .intoMap mapKey, .binds c.contributedType⟩]
      | _, _ => []

/-- The greater of two ranks; no rank is below every rank. -/
def maxRank : Option Int32 → Option Int32 → Option Int32
  | none, r => r
  | r, none => r
  | some a, some b => some (if a < b then b else a)

/-- The greatest rank of a list. -/
def topRank (candidates : List Contribution) : Option Int32 :=
  candidates.foldl (fun r c => maxRank r c.rank) none

/-- The contributions of the greatest rank. -/
def topRanked (candidates : List Contribution) : List Contribution :=
  candidates.filter fun c => c.rank = topRank candidates

/-- The alias of a slot to its only candidate of the greatest rank, or the candidates that tie. -/
def decide (slot : Slot) (candidates : List Contribution) : Except GraphError Binding :=
  match topRanked candidates with
  | [winner] => .ok (.aliased slot.key winner.origin { key := winner.contributedType })
  | tied =>
      .error (.duplicateContribution slot.scope slot.key (topRank candidates) (tied.map (·.origin)))

end Contribution

/-- What contributions amount to. -/
structure AggregatedContributions where
  /-- The bindings of containers, then the aliases to supertypes. -/
  bindings : List Binding := []
  collections : List CollectionDeclaration := []
  elements : List Element := []
  containers : List DeclarationId := []
  excluded : List DeclarationId := []
  replaced : List DeclarationId := []
deriving DecidableEq, Repr

namespace Contribution

/-- The contributions to any of the scopes, in order, repeated ones once. -/
def gather (provider : Scope → List Contribution) (scopes : List Scope) : List Contribution :=
  (sortBy Contribution.compare ((SortedSet.ofList scopes).toList.flatMap provider)).eraseReps

/-- The declarations that some contribution replaces. -/
def replacedBy (contributions : List Contribution) : List DeclarationId :=
  contributions.flatMap (·.replaces)

/-- The errors of the contributions that are declared wrongly. -/
def problems (contributions : List Contribution) : List GraphError :=
  contributions.filterMap fun c => c.problem?.map (.invalidContribution c.origin)

/-- The contributions that neither are excluded nor declared wrongly. -/
def admitted (contributions : List Contribution) (excludes : List DeclarationId) :
    List Contribution :=
  contributions.filter fun c => c.problem?.isNone && !excludes.contains c.declaration

/-- The contributions that no other of the list replaces. -/
def survivors (contributions : List Contribution) : List Contribution :=
  contributions.filter fun c => !(replacedBy contributions).contains c.declaration

/-- The bindings to supertypes by slot. -/
def candidates (contributions : List Contribution) : SortedMap Slot (List Contribution) :=
  contributions.foldl (fun slots c =>
    match c.kind, c.slot? with
    | .binding, some slot => slots.alter slot fun cs => cs.getD [] ++ [c]
    | _, _ => slots) .empty

/-- What the contributions found for the scopes amount to, and the errors among them. -/
def aggregate (provider : Scope → List Contribution) (scopes : List Scope)
    (excludes : List DeclarationId) : AggregatedContributions × List GraphError :=
  let found := gather provider scopes
  let admitted := admitted found excludes
  let survivors := survivors admitted
  let containers := survivors.filter (·.kind = .container)
  let decisions := (candidates survivors).entries.map fun (slot, cs) => decide slot cs
  let winners := decisions.filterMap fun
    | .ok b => some b
    | .error _ => none
  let ties := decisions.filterMap fun
    | .ok _ => none
    | .error e => some e
  ({ bindings := containers.flatMap (·.bindings) ++ winners
     collections := containers.flatMap (·.collections)
     elements := survivors.flatMap contributedElements
     containers := containers.map declaration
     excluded := (found.filter fun c => c.problem?.isNone && excludes.contains c.declaration).map
       declaration
     replaced := (admitted.filter fun c => (replacedBy admitted).contains c.declaration).map
       declaration },
    problems found ++ ties)

end Contribution

end Wiring

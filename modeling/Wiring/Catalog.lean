import Wiring.Catalog.AliasChain
import Wiring.Catalog.ImplicitCache
import Wiring.GraphError
import Wiring.Index

/-!
# The catalog of a graph

A catalog holds the bindings registered for one graph, the first per key, and answers requests for
others from the index.  Chains of aliases and implicit bindings are remembered; registering a new
key forgets the chains, since it may lengthen them.
-/

namespace Wiring

/-- The bindings that a graph can draw on. -/
structure Catalog where
  index : Index
  explicit : SortedMap TypeKey Binding
  implicits : ImplicitCache
  chains : SortedMap TypeKey (List TypeKey)

namespace Catalog

/-- The catalog over an index, without registered bindings. -/
def ofIndex (index : Index) : Catalog := ⟨index, .empty, .empty, .empty⟩

/-- Whether a binding may stand for the one registered: it has the same origin, or both are aliases
of one key. -/
def agrees (registered new : Binding) : Bool :=
  registered.origin = new.origin ||
    (registered.isAlias && registered.aliasTarget? = new.aliasTarget?)

/-- The catalog with a binding at its key.  A key keeps its first binding; another one is refused
unless it agrees with the first. -/
def register (c : Catalog) (b : Binding) : Except GraphError Catalog :=
  match c.explicit.get? b.key with
  | none => .ok { c with explicit := c.explicit.insert b.key b, chains := .empty }
  | some registered =>
      if agrees registered b then .ok c
      else .error (.duplicateBinding b.key registered.origin b.origin)

/-- Registers a list of bindings, each if it can be. -/
def registerAll (c : Catalog) : List Binding → Catalog × List GraphError
  | [] => (c, [])
  | b :: rest =>
      match c.register b with
      | .ok c => c.registerAll rest
      | .error e =>
          let (c, errors) := c.registerAll rest
          (c, e :: errors)

/-- The key that a registered alias stands for. -/
def aliasTarget? (c : Catalog) (key : TypeKey) : Option TypeKey :=
  (c.explicit.get? key).bind (·.aliasTarget?)

/-- Walks along the registered aliases from a key, using the chains known. -/
def walk (c : Catalog) (known : TypeKey → Option (List TypeKey)) (key : TypeKey) : AliasWalk :=
  .follow c.aliasTarget? known (c.explicit.size + 1) [key] key

/-- The error of a walk that comes back, at the binding it comes back to. -/
def loopError (c : Catalog) (passed : List TypeKey) (back : TypeKey) : GraphError :=
  .fatalCycle (AliasWalk.loopKeys passed back) ((c.explicit.get? back).map (·.origin))

/-- The keys from `key` along the registered aliases to one that is no alias. -/
def aliasChain (c : Catalog) (key : TypeKey) : Except GraphError (List TypeKey) :=
  match c.walk (fun _ => none) key with
  | .chain keys => .ok keys
  | .loop passed back => .error (c.loopError passed back)

/-- The chain of a key, remembered for the next request. -/
def resolveAlias (c : Catalog) (key : TypeKey) : Except GraphError (List TypeKey × Catalog) :=
  match c.chains.get? key with
  | some keys => .ok (keys, c)
  | none =>
      match c.walk c.chains.get? key with
      | .chain keys => .ok (keys, { c with chains := c.chains.insert key keys })
      | .loop passed back => .error (c.loopError passed back)

/-- The binding made for a key that nothing binds, remembered for the next request. -/
def implicit (c : Catalog) (key : TypeKey) : Option Binding × Catalog :=
  let (made, implicits) := c.implicits.getOrMake key fun _ => c.index.synthesize? key
  (made, { c with implicits })

/-- The registered binding of a key, else the one made for it. -/
def lookup (c : Catalog) (key : TypeKey) : Option Binding × Catalog :=
  match c.explicit.get? key with
  | some b => (some b, c)
  | none => c.implicit key

/-- What keeps injection from making the class at a key. -/
def constructorHint? (c : Catalog) (key : TypeKey) : Option String := do
  let found ← c.index.classes.get? key
  match found.injectables with
  | [] => some (key.typeName ++ " 没有可注入的构造函数")
  | [only] =>
      if only.hasAssistedParameters then
        some (key.typeName ++ " 包含辅助注入参数，只能通过其辅助注入工厂获取")
      else none
  | several =>
      some (key.typeName ++ " 有 " ++ toString several.length ++ " 个可注入的构造函数，只能有一个")

/-- That a qualified key is bound without its qualifier. -/
def qualifierHint? (c : Catalog) (key : TypeKey) : Option String :=
  let plain : TypeKey := ⟨key.typeName, none⟩
  if key.qualifier.isSome && (c.explicit.contains plain || c.index.classes.contains plain) then
    some ("存在未限定的绑定 " ++ plain.render ++ "，是否缺少限定符？")
  else none

/-- The registered keys that look like a key. -/
def similarHint? (c : Catalog) (key : TypeKey) : Option String :=
  let similar := c.explicit.keys.filter fun k =>
    k ≠ key && (k.typeName = key.typeName || k.shortName = key.shortName)
  if similar.isEmpty then none else some ("相似的绑定: " ++ renderKeys ", " similar)

/-- What may help a user whose request for a key cannot be met. -/
def missingHint? (c : Catalog) (key : TypeKey) : Option String :=
  c.constructorHint? key |>.orElse fun _ => c.qualifierHint? key |>.orElse fun _ =>
    c.similarHint? key

end Catalog

end Wiring

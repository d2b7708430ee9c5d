import Wiring.Origin
import Wiring.Scope
import Wiring.TypeKey

/-!
# Errors of a graph

Why a graph cannot be built, and how each cause reads.
-/

namespace Wiring

/-- Why a graph cannot be built. -/
inductive GraphError where
  /-- Two declarations bind one key. -/
  | duplicateBinding (key : TypeKey) (first second : Origin)
  /-- Several contributions of the greatest rank bind one key. -/
  | duplicateContribution (scope : Scope) (key : TypeKey) (rank : Option Int32)
      (candidates : List Origin)
  /-- Nothing yields a key that is requested; the chain of requests leads from a root to it. -/
  | unresolvedDependency (key : TypeKey) (chain : List TypeKey) (requestedBy : Option Origin)
      (hint : Option String)
  /-- A collection is declared or filled wrongly. -/
  | multibinding (key : TypeKey) (message : String) (origin : Option Origin)
  /-- Two entries of a map have one key. -/
  | duplicateMapKey (key : TypeKey) (mapKey : String) (first second : Origin)
  /-- Values depend on each other, and no handle comes between. -/
  | fatalCycle (cycle : List TypeKey) (origin : Option Origin)
  /-- The graph may not hold instances of a scope. -/
  | scopeMismatch (key : TypeKey) (scope : Scope) (graph : DeclarationId) (allowed : List Scope)
      (origin : Origin)
  /-- A contribution is declared wrongly. -/
  | invalidContribution (origin : Origin) (message : String)
  /-- No entry point leads to a declared binding. -/
  | unusedBinding (key : TypeKey) (origin : Origin)
deriving DecidableEq, Repr

namespace GraphError

/-- The kinds of errors. -/
inductive Kind where
  | duplicateBinding
  | duplicateContribution
  | unresolvedDependency
  | multibinding
  | duplicateMapKey
  | fatalCycle
  | scopeMismatch
  | invalidContribution
  | unusedBinding
deriving DecidableEq, Repr

/-- The kind of an error. -/
def kind : GraphError → Kind
  | duplicateBinding .. => .duplicateBinding
  | duplicateContribution .. => .duplicateContribution
  | unresolvedDependency .. => .unresolvedDependency
  | multibinding .. => .multibinding
  | duplicateMapKey .. => .duplicateMapKey
  | fatalCycle .. => .fatalCycle
  | scopeMismatch .. => .scopeMismatch
  | invalidContribution .. => .invalidContribution
  | unusedBinding .. => .unusedBinding

/-- The declaration to look at first. -/
def origin? : GraphError → Option Origin
  | duplicateBinding _ _ second | duplicateMapKey _ _ _ second => some second
  | duplicateContribution _ _ _ candidates => candidates.head?
  | unresolvedDependency _ _ origin _ | multibinding _ _ origin | fatalCycle _ origin => origin
  | scopeMismatch _ _ _ _ origin | invalidContribution origin _ | unusedBinding _ origin =>
      some origin

/-- The text of the error. -/
def message : GraphError → String
  | duplicateBinding key first second =>
      "重复绑定: " ++ key.render ++ " 同时由 " ++ first.render ++ " 和 " ++ second.render ++ " 声明"
  | duplicateContribution scope key rank candidates =>
      let rank := match rank with
        | some r => toString r.toInt
        | none => "未指定"
      "重复贡献: 作用域 " ++ scope.render ++ " 中的 " ++ key.render ++ " 存在 " ++
        toString candidates.length ++ " 个同为最高优先级(" ++ rank ++ ")的贡献: " ++
        ", ".intercalate (candidates.map Origin.render)
  | unresolvedDependency key chain _ hint =>
      let hint := match hint with
        | some h => "\n提示: " ++ h
        | none => ""
      "无法解析依赖: " ++ key.render ++ "\n请求链: " ++ renderKeys " -> " chain ++ hint
  | multibinding key message _ => "多重绑定错误: " ++ key.render ++ ": " ++ message
  | duplicateMapKey key mapKey first second =>
      "Map 多重绑定 " ++ key.render ++ " 中存在重复的键 " ++ mapKey ++ ": " ++ first.render ++
        " 与 " ++ second.render
  | fatalCycle cycle _ =>
      "检测到致命循环依赖（循环中没有 Provider/Lazy 延迟访问）: " ++ renderKeys " --> " cycle
  | scopeMismatch key scope graph allowed _ =>
      "作用域不匹配: " ++ key.render ++ " 的作用域 " ++ scope.render ++ " 不在图 " ++ graph.name ++
        " 可满足的作用域 [" ++ ", ".intercalate (allowed.map Scope.render) ++ "] 中"
  | invalidContribution origin message => "无效贡献: " ++ origin.render ++ ": " ++ message
  | unusedBinding key origin => "未使用的绑定: " ++ key.render ++ " (" ++ origin.render ++ ")"

end GraphError

end Wiring

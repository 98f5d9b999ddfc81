import RoutineFlow.Settings.Basic
import RoutineFlow.Yaml.Number

namespace RoutineFlow

open Yaml (Node)

-- A policy is a word, or the tag of a scalar that holds nothing.
def Policy.ofNode? : Node → Option Policy
  | .scalar s =>
    match s.tag?.map String.toList with
    | some ('!' :: name) => if s.isNull then ofLabel? (.ofList name) else none
    | _                  => ofLabel? s.text
  | _ => none

namespace Settings

-- A limit is a plain whole number, or one in a literal block that is tagged as such.
def limit? : Node → Option Nat
  | .scalar s => do
    guard (s.style = .plain || (s.style = .literal && s.tag? = some "tag:yaml.org,2002:int"))
    let n ← Yaml.natural? s.text
    guard (n ≤ maxDepthBound)
    return n
  | _ => none

-- What a mapping has set so far.
structure Fields where
  unreachable? : Option Policy := none
  maxDepth?    : Option Nat := none

-- Takes over one entry. A name is a scalar, and one that is known stands only once.
def Fields.add? (f : Fields) : Node × Node → Option Fields
  | (.scalar key, value) =>
    match key.text with
    | "unreachable" => do
      guard f.unreachable?.isNone
      return { f with unreachable? := ← Policy.ofNode? value }
    | "max_depth"   => do
      guard f.maxDepth?.isNone
      return { f with maxDepth? := ← limit? value }
    | _             => some f
  | _ => none

-- The settings of a document; what is not set keeps its default.
def ofNode? : Option Node → Option Settings
  | none                      => some {}
  | some (.mapping entries)   => do
    let f ← entries.foldlM Fields.add? {}
    let default : Settings := {}
    return {
      unreachable := f.unreachable?.getD default.unreachable
      maxDepth    := f.maxDepth?.getD default.maxDepth }
  | some (.scalar s)          => if s.style = .plain && s.text.isEmpty then some {} else none
  | some _                    => none

-- The settings that the first document of a text gives.
def ofYaml? (text : String) : Option Settings := do
  ofNode? (← Node.ofTokens? (← Yaml.Token.ofText? text))

end Settings
end RoutineFlow

import RoutineFlow.Flow.Error
import RoutineFlow.Syntax.Tree

-- The routine around a position. A position belongs to the innermost routine above it, whose body
-- is the last block passed on the way up; a static block is a scope of its own.

namespace RoutineFlow.Flow

open Syntax

-- The scope found on a way up, where `outermost?` is the last block passed so far. A routine that
-- is itself the position has its own body for a scope.
def scopeAlong (t : Tree) (position : Id) (outermost? : Option Id) : List Id → Option Id
  | []        => none
  | id :: ids =>
    match t.kind? id with
    | some (.block _ true)      => some id
    | some (.block _ false)     => scopeAlong t position (some id) ids
    | some (.routine _ body?)   => if id = position then body? else outermost?
    | _                         => scopeAlong t position outermost? ids

-- The body of the innermost routine around `position`, or the nearest static block.
def scopeOf (t : Tree) (position : Id) : Except Error Id :=
  if (t.get? position).isSome then
    match scopeAlong t position none (t.ancestors position) with
    | some scope => .ok scope
    | none       => .error (.invalidStart position)
  else
    .error (.unknownSyntaxNode position)

end RoutineFlow.Flow

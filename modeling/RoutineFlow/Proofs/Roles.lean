import RoutineFlow.Proofs.Forest

-- What may stand in which place of a syntax tree. Each kind of node has places for its parts, and
-- each place admits some kinds of part.

namespace RoutineFlow.Syntax

-- The places that nodes have for their parts.
inductive Role
  -- Evaluated: conditions, operands, receivers, arguments, arms, initializers, values of jumps.
  | value
  -- The clause that opens a loop, which may declare.
  | initial
  | statement
  | member
  | declarator
  -- The body of a routine, or of a clause of `try`.
  | body
deriving DecidableEq

namespace Kind

def isRoutine : Kind → Bool
  | routine .. => true
  | _          => false

def isStaticBlock : Kind → Bool
  | block _ isStatic => isStatic
  | _                => false

def isBody : Kind → Bool
  | block _ isStatic => !isStatic
  | _                => false

def isProgram : Kind → Bool
  | program _ => true
  | _         => false

def isClass : Kind → Bool
  | classDecl .. => true
  | _            => false

end Kind

def Role.admits : Role → Kind → Bool
  | value,      kind => !kind.isStatement && !kind.isVarDecl
  | initial,    kind => !kind.isStatement
  | statement,  kind => !kind.isDeclarator && !kind.isStaticBlock && !kind.isProgram
  | member,     kind => !kind.isDeclarator && !kind.isProgram
  | declarator, kind => kind.isDeclarator
  | body,       kind => kind.isBody

-- What stands in a place even where rows keep to no grammar: declarations may be taken for values
-- then, and static blocks may stand anywhere.
def Role.tolerates : Role → Kind → Bool
  | value,      kind => !kind.isStatement
  | initial,    kind => !kind.isStatement
  | statement,  kind => !kind.isDeclarator && !kind.isProgram
  | member,     kind => !kind.isDeclarator && !kind.isProgram
  | declarator, kind => kind.isDeclarator
  | body,       kind => kind.isBody

namespace Role

variable {role : Role} {kind : Kind}

theorem tolerates_of_admits (h : role.admits kind) : role.tolerates kind := by
  cases role <;> simp_all [admits, tolerates]

theorem member_of_isStaticBlock (h : role.admits kind) (hs : kind.isStaticBlock) :
    role = .member := by
  cases role <;> cases kind <;>
    simp_all [admits, Kind.isStatement, Kind.isBody, Kind.isStaticBlock, Kind.isDeclarator]

theorem initial_of_value (h : value.admits kind) : initial.admits kind :=
  (Bool.and_eq_true_iff.mp h).1

theorem statement_of_value (h : value.admits kind) : statement.admits kind := by
  cases kind
  all_goals first
    | rfl
    | cases h

theorem statement_of_body (h : body.admits kind) : statement.admits kind := by
  cases kind
  case block isStatic => cases isStatic <;> first | rfl | cases h
  all_goals cases h

theorem member_of_value (h : value.admits kind) : member.admits kind := by
  cases kind
  all_goals first
    | rfl
    | cases h

theorem tolerates_statement_of_value (h : value.tolerates kind) : statement.tolerates kind := by
  cases kind
  all_goals first
    | rfl
    | cases h

theorem tolerates_statement_of_body (h : body.tolerates kind) : statement.tolerates kind := by
  cases kind
  all_goals first
    | rfl
    | cases h

end Role

namespace Kind

-- The parts of a node, each with its place.
def slots : Kind → List (Id × Role)
  | program items                        => items.map (·, .statement)
  | classDecl _ members                  => members.map (·, .member)
  | routine _ body?                      => body?.toList.map (·, .body)
  | block statements _                   => statements.map (·, .statement)
  | ifStmt condition yes no?             =>
    [(condition, .value), (yes, .statement)] ++ no?.toList.map (·, .statement)
  | ternary condition yes no             => [(condition, .value), (yes, .value), (no, .value)]
  | whileStmt condition body             => [(condition, .value), (body, .statement)]
  | doWhileStmt body condition           => [(body, .statement), (condition, .value)]
  | forStmt init condition? update body  =>
    init.map (·, .initial) ++ condition?.toList.map (·, .value) ++ update.map (·, .value) ++
      [(body, .statement)]
  | binary _ left right                  => [(left, .value), (right, .value)]
  | unary _ operand                      => [(operand, .value)]
  | parens inner                         => [(inner, .value)]
  | assignment target value              => [(target, .value), (value, .value)]
  | call receiver? _ arguments           =>
    receiver?.toList.map (·, .value) ++ arguments.map (·, .value)
  | new _ arguments                      => arguments.map (·, .value)
  | cast _ expr                          => [(expr, .value)]
  | arrayAccess indexed index            => [(indexed, .value), (index, .value)]
  | varDecl declarators                  => declarators.map (·, .declarator)
  | declarator _ initializer?            => initializer?.toList.map (·, .value)
  | returnStmt value?                    => value?.toList.map (·, .value)
  | throwStmt exception                  => [(exception, .value)]
  | tryStmt blocks                       => blocks.map (·, .body)
  | switchStmt discriminant? statements  =>
    discriminant?.toList.map (·, .value) ++ statements.map (·, .statement)
  | identifier _ | literal _ | breakStmt | continueStmt | other _ => []

theorem slots_map_fst (kind : Kind) : kind.slots.map (·.1) = kind.children := by
  cases kind <;> simp [slots, children, Function.comp_def]

end Kind
end RoutineFlow.Syntax

namespace RoutineFlow.Syntax

-- The place of a node in the tree that holds it.
@[ext]
structure Id where
  index : Nat
deriving DecidableEq, Inhabited

namespace Id

def label (id : Id) : String :=
  s!"#{id.index}"

end Id

-- Only the two operators that may leave their right operand alone are told apart.
inductive BinaryOp
  | and
  | or
  | other (token : String)
deriving DecidableEq

namespace BinaryOp

def ofToken : String → BinaryOp
  | "&&"  => and
  | "||"  => or
  | token => other token

def token : BinaryOp → String
  | and         => "&&"
  | or          => "||"
  | other token => token

end BinaryOp

-- Only logical negation is told apart.
inductive UnaryOp
  | not
  | other (token : String)
deriving DecidableEq

namespace UnaryOp

def ofToken : String → UnaryOp
  | "!"   => not
  | token => other token

def token : UnaryOp → String
  | not         => "!"
  | other token => token

end UnaryOp

inductive Kind
  | program      (items : List Id)
  | classDecl    (name : String) (members : List Id)
  -- A function, method or lambda. Declarations that end in a semicolon have no body.
  | routine      (name : String) (body? : Option Id)
  | block        (statements : List Id) (isStatic : Bool)
  | ifStmt       (condition thenPart : Id) (elsePart? : Option Id)
  | ternary      (condition truePart falsePart : Id)
  | whileStmt    (condition body : Id)
  | doWhileStmt  (body condition : Id)
  | forStmt      (init : List Id) (condition? : Option Id) (update : List Id) (body : Id)
  | binary       (op : BinaryOp) (left right : Id)
  | unary        (op : UnaryOp) (operand : Id)
  | parens       (inner : Id)
  | assignment   (target value : Id)
  | call         (receiver? : Option Id) (name : String) (arguments : List Id)
  | new          (name : String) (arguments : List Id)
  | cast         (type : String) (expr : Id)
  | arrayAccess  (indexed index : Id)
  | varDecl      (declarators : List Id)
  | declarator   (name : String) (initializer? : Option Id)
  | identifier   (name : String)
  | literal      (text : String)
  | returnStmt   (value? : Option Id)
  | throwStmt    (exception : Id)
  | tryStmt      (blocks : List Id)
  | switchStmt   (discriminant? : Option Id) (statements : List Id)
  | breakStmt
  | continueStmt
  -- Whatever has no rule of its own. It has no parts.
  | other        (kind : String)
deriving DecidableEq

namespace Kind

-- The parts of a node, in the order in which the source text writes them.
def children : Kind → List Id
  | program items                          => items
  | classDecl _ members                    => members
  | routine _ body?                        => body?.toList
  | block statements _                     => statements
  | ifStmt condition thenPart elsePart?    => condition :: thenPart :: elsePart?.toList
  | ternary condition truePart falsePart   => [condition, truePart, falsePart]
  | whileStmt condition body               => [condition, body]
  | doWhileStmt body condition             => [body, condition]
  | forStmt init condition? update body    => init ++ condition?.toList ++ update ++ [body]
  | binary _ left right                    => [left, right]
  | unary _ operand                        => [operand]
  | parens inner                           => [inner]
  | assignment target value                => [target, value]
  | call receiver? _ arguments             => receiver?.toList ++ arguments
  | new _ arguments                        => arguments
  | cast _ expr                            => [expr]
  | arrayAccess indexed index              => [indexed, index]
  | varDecl declarators                    => declarators
  | declarator _ initializer?              => initializer?.toList
  | returnStmt value?                      => value?.toList
  | throwStmt exception                    => [exception]
  | tryStmt blocks                         => blocks
  | switchStmt discriminant? statements    => discriminant?.toList ++ statements
  | identifier _ | literal _ | breakStmt | continueStmt | other _ => []

-- A short text for diagrams.
def label : Kind → String
  | program _             => "program"
  | classDecl name _      => "class " ++ name
  | routine name _        => "fn " ++ name
  | block _ true          => "static \x7b\x7d"
  | block _ false         => "\x7b\x7d"
  | ifStmt ..             => "if"
  | ternary ..            => "?:"
  | whileStmt ..          => "while"
  | doWhileStmt ..        => "do-while"
  | forStmt ..            => "for"
  | binary op ..          => op.token
  | unary op _            => op.token
  | parens _              => "()"
  | assignment ..         => "="
  | call _ name _         => name ++ "()"
  | new name _            => "new " ++ name ++ "()"
  | cast type _           => "(" ++ type ++ ")"
  | arrayAccess ..        => "[]"
  | varDecl _             => "var"
  | declarator name _     => name
  | identifier name       => name
  | literal text          => text
  | returnStmt _          => "return"
  | throwStmt _           => "throw"
  | tryStmt _             => "try"
  | switchStmt ..         => "switch"
  | breakStmt             => "break"
  | continueStmt          => "continue"
  | other kind            => kind

end Kind
end RoutineFlow.Syntax

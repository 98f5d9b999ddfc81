-- The grammar rules of JavaScript and TypeScript that a concrete syntax tree names. Rules that are
-- treated alike share a constructor.

namespace RoutineFlow.Concrete

inductive Rule
  | comment
  -- Statements
  | emptyStatement
  | statementBlock
  | staticBlock
  | expressionStatement
  | declaration
  | ifStatement
  | elseClause
  | whileStatement
  | doStatement
  | forStatement
  | forInStatement
  | returnStatement
  | throwStatement
  | tryStatement
  | switchStatement
  | breakStatement
  | continueStatement
  | functionDeclaration
  | classDeclaration
  | exportStatement
  | labeledStatement
  -- Expressions
  | parenthesized
  | binary
  | unary
  | await
  | spread
  | yield
  | ternary
  | assignment
  | augmentedAssignment
  | call
  | arguments
  | new
  | subscript
  | typeCast
  | typeAssertion
  | nonNull
  | sequence
  | function
  | classExpression
  | identifier
  | name
  | member
  | literal
  -- Parts of declarations
  | variableDeclarator
  | pair
  | method
  | field
  -- All that has no rule of its own here.
  | other
deriving DecidableEq

namespace Rule

-- The rule of a node, by the name that the grammar gives it.
def ofName : String → Rule
  | "comment"                         => comment
  | "empty_statement"                 => emptyStatement
  | "statement_block"                 => statementBlock
  | "class_static_block"              => staticBlock
  | "expression_statement"            => expressionStatement
  | "lexical_declaration"             => declaration
  | "variable_declaration"            => declaration
  | "if_statement"                    => ifStatement
  | "else_clause"                     => elseClause
  | "while_statement"                 => whileStatement
  | "do_statement"                    => doStatement
  | "for_statement"                   => forStatement
  | "for_in_statement"                => forInStatement
  | "return_statement"                => returnStatement
  | "throw_statement"                 => throwStatement
  | "try_statement"                   => tryStatement
  | "switch_statement"                => switchStatement
  | "break_statement"                 => breakStatement
  | "continue_statement"              => continueStatement
  | "function_declaration"            => functionDeclaration
  | "generator_function_declaration"  => functionDeclaration
  | "class_declaration"               => classDeclaration
  | "abstract_class_declaration"      => classDeclaration
  | "export_statement"                => exportStatement
  | "labeled_statement"               => labeledStatement
  | "parenthesized_expression"        => parenthesized
  | "binary_expression"               => binary
  | "unary_expression"                => unary
  | "update_expression"               => unary
  | "await_expression"                => await
  | "spread_element"                  => spread
  | "yield_expression"                => yield
  | "ternary_expression"              => ternary
  | "assignment_expression"           => assignment
  | "augmented_assignment_expression" => augmentedAssignment
  | "call_expression"                 => call
  | "arguments"                       => arguments
  | "new_expression"                  => new
  | "subscript_expression"            => subscript
  | "as_expression"                   => typeCast
  | "satisfies_expression"            => typeCast
  | "type_assertion"                  => typeAssertion
  | "non_null_expression"             => nonNull
  | "sequence_expression"             => sequence
  | "arrow_function"                  => function
  | "function_expression"             => function
  | "function"                        => function
  | "generator_function"              => function
  | "class"                           => classExpression
  | "identifier"                      => identifier
  | "this"                            => name
  | "super"                           => name
  | "property_identifier"             => name
  | "private_property_identifier"     => name
  | "shorthand_property_identifier"   => name
  | "member_expression"               => member
  | "number"                          => literal
  | "string"                          => literal
  | "template_string"                 => literal
  | "true"                            => literal
  | "false"                           => literal
  | "null"                            => literal
  | "undefined"                       => literal
  | "regex"                           => literal
  | "variable_declarator"             => variableDeclarator
  | "pair"                            => pair
  | "method_definition"               => method
  | "abstract_method_signature"       => method
  | "field_definition"                => field
  | "public_field_definition"         => field
  | _                                 => other

end Rule
end RoutineFlow.Concrete

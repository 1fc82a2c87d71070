import LamScope.Double.Shortest
import LamScope.Syntax.Tree
import LamScope.Text.Outline
import LamScope.Text.Quoted

/-!
# Outlines of syntax trees

Every node is written with its number, its kind and its span.
-/
namespace LamScope

namespace Outline

def nat (n : Nat) : Outline := atom (toString n)

def ofSpan (s : Span) : Outline := record "Span" [("start", nat s.start), ("end", nat s.stop)]

/-- A name or keyword with the kind of token it is. -/
def ofWord (kind : String) (w : Word) : Outline :=
  record "Token" [("kind", atom kind), ("lexeme", atom (Text.quoted w.text)), ("line", nat w.line),
    ("span", ofSpan w.span)]

def ofName (w : Word) : Outline := ofWord "Ident" w

def ofNode (name : String) (node : Node) (kind : Outline) : Outline :=
  record name [("id", tuple "NodeId" [nat node.id]), ("kind", kind), ("span", ofSpan node.span)]

def ofOption : Option Outline → Outline
  | none => atom "None"
  | some o => tuple "Some" [o]

def ofLiteral : Literal → Outline
  | .number value => tuple "Number" [atom value.text]
  | .string contents => tuple "String" [atom (Text.quoted contents)]
  | .bool value => tuple "Bool" [atom (if value then "true" else "false")]
  | .nil => atom "Nil"

def binaryName : BinaryOp → String
  | .add => "Add"
  | .sub => "Sub"
  | .mul => "Mul"
  | .div => "Div"
  | .eq => "Eq"
  | .ne => "Ne"
  | .lt => "Lt"
  | .le => "Le"
  | .gt => "Gt"
  | .ge => "Ge"

def logicalName : LogicalOp → String
  | .and => "And"
  | .or => "Or"

def unaryName : UnaryOp → String
  | .neg => "Neg"
  | .not => "Not"

mutual

def ofExpr : Expr → Outline
  | .literal node value => ofNode "Expr" node (tuple "Literal" [ofLiteral value])
  | .read node name => ofNode "Expr" node (tuple "Variable" [ofName name])
  | .assign node name value =>
      ofNode "Expr" node (record "Assign" [("name", ofName name), ("value", ofExpr value)])
  | .binary node op left right =>
      ofNode "Expr" node (record "Binary" [("op", atom (binaryName op)), ("left", ofExpr left),
        ("right", ofExpr right)])
  | .logical node op left right =>
      ofNode "Expr" node (record "Logical" [("op", atom (logicalName op)), ("left", ofExpr left),
        ("right", ofExpr right)])
  | .unary node op operand =>
      ofNode "Expr" node (record "Unary" [("op", atom (unaryName op)), ("operand", ofExpr operand)])
  | .group node inner => ofNode "Expr" node (tuple "Grouping" [ofExpr inner])
  | .call node callee args =>
      ofNode "Expr" node (record "Call" [("callee", ofExpr callee), ("args", list (ofExprs args))])
  | .property node object name =>
      ofNode "Expr" node (record "Get" [("object", ofExpr object), ("name", ofName name)])
  | .setProperty node object name value =>
      ofNode "Expr" node (record "Set" [("object", ofExpr object), ("name", ofName name),
        ("value", ofExpr value)])

def ofExprs : List Expr → List Outline
  | [] => []
  | e :: es => ofExpr e :: ofExprs es

end

mutual

def ofStmt : Stmt → Outline
  | .block node body => ofNode "Stmt" node (tuple "Block" [list (ofStmts body)])
  | .var node name init =>
      ofNode "Stmt" node (record "Var" [("name", ofName name),
        ("init", ofOption (init.map ofExpr))])
  | .function node decl => ofNode "Stmt" node (tuple "Function" [ofCallable decl])
  | .expr node value => ofNode "Stmt" node (tuple "Expr" [ofExpr value])
  | .print node value => ofNode "Stmt" node (tuple "Print" [ofExpr value])
  | .ifThen node cond body =>
      ofNode "Stmt" node (record "If" [("cond", ofExpr cond), ("then_branch", ofStmt body),
        ("else_branch", ofOption none)])
  | .ifThenElse node cond body otherwise =>
      ofNode "Stmt" node (record "If" [("cond", ofExpr cond), ("then_branch", ofStmt body),
        ("else_branch", ofOption (some (ofStmt otherwise)))])
  | .ret node keyword value =>
      ofNode "Stmt" node (record "Return" [("keyword", ofWord "Return" keyword),
        ("value", ofOption (value.map ofExpr))])
  | .loop node cond body =>
      ofNode "Stmt" node (record "While" [("cond", ofExpr cond), ("body", ofStmt body)])
  | .classDef node name methods =>
      ofNode "Stmt" node (tuple "Class" [record "ClassDecl" [("name", ofName name),
        ("methods", list (ofCallables methods))]])

def ofStmts : List Stmt → List Outline
  | [] => []
  | s :: ss => ofStmt s :: ofStmts ss

def ofCallable : Callable → Outline
  | ⟨name, params, body⟩ =>
      record "FunDecl" [("name", ofName name), ("params", list (params.map ofName)),
        ("body", list (ofStmts body))]

def ofCallables : List Callable → List Outline
  | [] => []
  | c :: cs => ofCallable c :: ofCallables cs

end

end Outline

end LamScope

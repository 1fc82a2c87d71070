import LamScope.Syntax.Tree

/-!
# References

The variables that a program reads and assigns, by the numbers of their nodes.
-/
namespace LamScope

mutual

def Expr.references : Expr → List (Nat × Word)
  | .literal .. => []
  | .read node name => [(node.id, name)]
  | .assign node name value => (node.id, name) :: value.references
  | .binary _ _ left right => left.references ++ right.references
  | .logical _ _ left right => left.references ++ right.references
  | .unary _ _ operand => operand.references
  | .group _ inner => inner.references
  | .call _ callee args => callee.references ++ Expr.allReferences args
  | .property _ object _ => object.references
  | .setProperty _ object _ value => object.references ++ value.references

def Expr.allReferences : List Expr → List (Nat × Word)
  | [] => []
  | e :: es => e.references ++ Expr.allReferences es

end

def Expr.optionReferences : Option Expr → List (Nat × Word)
  | none => []
  | some e => e.references

mutual

def Stmt.references : Stmt → List (Nat × Word)
  | .block _ body => Stmt.allReferences body
  | .var _ _ init => Expr.optionReferences init
  | .function _ decl => decl.references
  | .expr _ value => value.references
  | .print _ value => value.references
  | .ifThen _ cond body => cond.references ++ body.references
  | .ifThenElse _ cond body otherwise =>
      cond.references ++ body.references ++ otherwise.references
  | .ret _ _ value => Expr.optionReferences value
  | .loop _ cond body => cond.references ++ body.references
  | .classDef _ _ methods => Callable.allReferences methods

def Stmt.allReferences : List Stmt → List (Nat × Word)
  | [] => []
  | s :: ss => s.references ++ Stmt.allReferences ss

def Callable.references : Callable → List (Nat × Word)
  | ⟨_, _, body⟩ => Stmt.allReferences body

def Callable.allReferences : List Callable → List (Nat × Word)
  | [] => []
  | c :: cs => c.references ++ Callable.allReferences cs

end

end LamScope

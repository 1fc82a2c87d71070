import LamScope.Syntax.Statement

/-!
# The grammar

Which lists of tokens are expressions, statements and programs, and of which trees. Each rule
ties the tokens of a construct to its tree, node numbers and spans aside; read from right to left
the rules write a tree back as tokens. Operators bind by levels: an operand of a level holds only
operators of that level or tighter ones. There is no tree for a `for`: its rule gives the block
and the `while` it stands for.
-/
namespace LamScope

/-- The token that a literal is written as. -/
def Literal.kind : Literal → TokenKind
  | number value => .number value
  | string contents => .string contents
  | bool true => .keyword .true_
  | bool false => .keyword .false_
  | nil => .keyword .nil_

def UnaryOp.kind : UnaryOp → TokenKind
  | neg => .symbol .minus
  | not => .symbol .bang

namespace Operator

def kind : Operator → TokenKind
  | logical .or => .keyword .or_
  | logical .and => .keyword .and_
  | binary .add => .symbol .plus
  | binary .sub => .symbol .minus
  | binary .mul => .symbol .star
  | binary .div => .symbol .slash
  | binary .eq => .symbol .equalEqual
  | binary .ne => .symbol .bangEqual
  | binary .lt => .symbol .less
  | binary .le => .symbol .lessEqual
  | binary .gt => .symbol .greater
  | binary .ge => .symbol .greaterEqual

theorem kind_of_ofKind? {kind : TokenKind} {o : Operator} (h : ofKind? kind = some o) :
    kind = o.kind := by
  unfold ofKind? ofSymbol? at h
  split at h
  · cases h
    rfl
  · cases h
    rfl
  · split at h <;> cases h <;> rfl
  · cases h

theorem precedence_le (o : Operator) : o.precedence ≤ tightest := by
  rcases o with op | op <;> cases op <;> decide

theorem precedence_pos (o : Operator) : 0 < o.precedence := by
  rcases o with op | op <;> cases op <;> decide

end Operator

namespace Grammar

/-- Above the levels of the operators, which are their precedences, lie three more. -/
def unaryLevel : Nat := Operator.tightest + 1
def postfixLevel : Nat := Operator.tightest + 2
def primaryLevel : Nat := Operator.tightest + 3

/-- How tightly a token holds on to the expression before it, if it continues one at all. -/
def pull : TokenKind → Nat
  | .symbol .leftParen | .symbol .dot => postfixLevel
  | kind => ((Operator.ofKind? kind).map Operator.precedence).getD 0

theorem pull_kind (o : Operator) : pull o.kind = o.precedence := by
  rcases o with op | op <;> cases op <;> rfl

theorem pull_le (kind : TokenKind) : pull kind ≤ postfixLevel := by
  unfold pull
  split
  · exact Nat.le_refl _
  · exact Nat.le_refl _
  · cases Operator.ofKind? kind with
    | none => exact Nat.zero_le _
    | some o => exact Nat.le_trans o.precedence_le (Nat.le_add_right _ 2)

theorem pull_of_ofKind? {kind : TokenKind} {o : Operator} (h : Operator.ofKind? kind = some o) :
    pull kind = o.precedence := by rw [Operator.kind_of_ofKind? h, pull_kind]

mutual

inductive Expression : List Token → Expr → Prop
  | operand {ts : List Token} {e : Expr} : Operand 1 ts e → Expression ts e
  | assign {name equals : Token} {ts : List Token} {value : Expr} (node : Node) :
      name.kind = .name → equals.kind = .symbol .equal → Expression ts value →
      Expression (name :: equals :: ts) (.assign node name.toWord value)
  | setProperty {ts us : List Token} {dot name equals : Token} {object value : Expr}
      (node : Node) :
      Operand postfixLevel ts object → dot.kind = .symbol .dot → name.kind = .name →
      equals.kind = .symbol .equal → Expression us value →
      Expression (ts ++ dot :: name :: equals :: us)
        (.setProperty node object name.toWord value)

/-- Expressions of a level. Operators of one level group to the left. -/
inductive Operand : Nat → List Token → Expr → Prop
  | tighter {level : Nat} {ts : List Token} {e : Expr} :
      Operand (level + 1) ts e → Operand level ts e
  | operation {o : Operator} {ts us : List Token} {t : Token} {left right : Expr} (node : Node) :
      Operand o.precedence ts left → t.kind = o.kind → Operand (o.precedence + 1) us right →
      Operand o.precedence (ts ++ t :: us) (o.apply node left right)
  | unary {op : UnaryOp} {t : Token} {ts : List Token} {operand : Expr} (node : Node) :
      t.kind = op.kind → Operand unaryLevel ts operand →
      Operand unaryLevel (t :: ts) (.unary node op operand)
  | call {ts us : List Token} {opening closing : Token} {callee : Expr} {args : List Expr}
      (node : Node) :
      Operand postfixLevel ts callee → opening.kind = .symbol .leftParen → Arguments us args →
      args.length ≤ maxArguments → closing.kind = .symbol .rightParen →
      Operand postfixLevel (ts ++ opening :: us ++ [closing]) (.call node callee args)
  | property {ts : List Token} {dot name : Token} {object : Expr} (node : Node) :
      Operand postfixLevel ts object → dot.kind = .symbol .dot → name.kind = .name →
      Operand postfixLevel (ts ++ [dot, name]) (.property node object name.toWord)
  | literal {t : Token} {value : Literal} (node : Node) :
      t.kind = value.kind → Operand primaryLevel [t] (.literal node value)
  | name {t : Token} (node : Node) :
      t.kind = .name → Operand primaryLevel [t] (.read node t.toWord)
  | group {opening closing : Token} {ts : List Token} {inner : Expr} (node : Node) :
      opening.kind = .symbol .leftParen → Expression ts inner →
      closing.kind = .symbol .rightParen →
      Operand primaryLevel (opening :: ts ++ [closing]) (.group node inner)

inductive Arguments : List Token → List Expr → Prop
  | none : Arguments [] []
  | some {ts us : List Token} {first : Expr} {others : List Expr} :
      Expression ts first → MoreArguments us others → Arguments (ts ++ us) (first :: others)

/-- Arguments with a comma before each. -/
inductive MoreArguments : List Token → List Expr → Prop
  | none : MoreArguments [] []
  | some {ts us : List Token} {comma : Token} {first : Expr} {others : List Expr} :
      comma.kind = .symbol .comma → Expression ts first → MoreArguments us others →
      MoreArguments (comma :: ts ++ us) (first :: others)

end

theorem Operand.mono {level level' : Nat} {ts : List Token} {e : Expr}
    (h : Operand level ts e) (hl : level' ≤ level) : Operand level' ts e := by
  induction hl with
  | refl => exact h
  | step _ ih => exact ih h.tighter

/-- An expression that may be left out. -/
inductive Clause : List Token → Option Expr → Prop
  | none : Clause [] none
  | some {ts : List Token} {e : Expr} : Expression ts e → Clause ts (some e)

inductive Condition : List Token → Expr → Prop
  | parens {opening closing : Token} {ts : List Token} {e : Expr} :
      opening.kind = .symbol .leftParen → Expression ts e → closing.kind = .symbol .rightParen →
      Condition (opening :: ts ++ [closing]) e

/-- `name = value;` or `name;` -/
inductive VariableRest : List Token → Stmt → Prop
  | bare {name semicolon : Token} (node : Node) :
      name.kind = .name → semicolon.kind = .symbol .semicolon →
      VariableRest [name, semicolon] (.var node name.toWord none)
  | initialized {name equals semicolon : Token} {ts : List Token} {value : Expr} (node : Node) :
      name.kind = .name → equals.kind = .symbol .equal → Expression ts value →
      semicolon.kind = .symbol .semicolon →
      VariableRest (name :: equals :: ts ++ [semicolon]) (.var node name.toWord (some value))

/-- Parameters with a comma before each. -/
inductive MoreParameters : List Token → List Word → Prop
  | none : MoreParameters [] []
  | some {comma name : Token} {ts : List Token} {others : List Word} :
      comma.kind = .symbol .comma → name.kind = .name → MoreParameters ts others →
      MoreParameters (comma :: name :: ts) (name.toWord :: others)

inductive Parameters : List Token → List Word → Prop
  | none : Parameters [] []
  | some {name : Token} {ts : List Token} {others : List Word} :
      name.kind = .name → MoreParameters ts others → Parameters (name :: ts) (name.toWord :: others)

/-- The first clause of a `for`, with its semicolon. -/
inductive ForInit : List Token → Option Stmt → Prop
  | none {semicolon : Token} : semicolon.kind = .symbol .semicolon → ForInit [semicolon] none
  | variable {keyword : Token} {ts : List Token} {s : Stmt} :
      keyword.kind = .keyword .var_ → VariableRest ts s → ForInit (keyword :: ts) (some s)
  | expression {ts : List Token} {semicolon : Token} {e : Expr} (node : Node) :
      Expression ts e → semicolon.kind = .symbol .semicolon →
      ForInit (ts ++ [semicolon]) (some (.expr node e))

/-- The increment of a `for` runs after its body. -/
def withIncrement (block increment : Node) (body : Stmt) : Option Expr → Stmt
  | none => body
  | some e => .block block [body, .expr increment e]

/-- A `for` without a condition runs on. -/
def orTrue (node : Node) : Option Expr → Expr
  | none => .literal node (.bool true)
  | some cond => cond

/-- The first clause of a `for` runs before the loop. -/
def withInit (block : Node) (loop : Stmt) : Option Stmt → Stmt
  | none => loop
  | some init => .block block [init, loop]

mutual

/-- Statements that are no declarations. The flag says whether one ends in an `if` without an
`else`, to which an `else` after it would belong; so only others stand before an `else`. -/
inductive Statement : Bool → List Token → Stmt → Prop
  | expr {ts : List Token} {semicolon : Token} {value : Expr} (node : Node) :
      Expression ts value → semicolon.kind = .symbol .semicolon →
      Statement false (ts ++ [semicolon]) (.expr node value)
  | print {keyword semicolon : Token} {ts : List Token} {value : Expr} (node : Node) :
      keyword.kind = .keyword .print_ → Expression ts value →
      semicolon.kind = .symbol .semicolon →
      Statement false (keyword :: ts ++ [semicolon]) (.print node value)
  | ret {keyword semicolon : Token} {ts : List Token} {value : Option Expr} (node : Node) :
      keyword.kind = .keyword .return_ → Clause ts value →
      semicolon.kind = .symbol .semicolon →
      Statement false (keyword :: ts ++ [semicolon]) (.ret node keyword.toWord value)
  | block {ts : List Token} {body : List Stmt} (node : Node) :
      Body ts body → Statement false ts (.block node body)
  | ifThen {dangling : Bool} {keyword : Token} {ts us : List Token} {cond : Expr} {body : Stmt}
      (node : Node) :
      keyword.kind = .keyword .if_ → Condition ts cond → Statement dangling us body →
      Statement true (keyword :: ts ++ us) (.ifThen node cond body)
  | ifThenElse {dangling : Bool} {keyword otherwise : Token} {ts us vs : List Token} {cond : Expr}
      {body alternative : Stmt} (node : Node) :
      keyword.kind = .keyword .if_ → Condition ts cond → Statement false us body →
      otherwise.kind = .keyword .else_ → Statement dangling vs alternative →
      Statement dangling (keyword :: ts ++ us ++ otherwise :: vs)
        (.ifThenElse node cond body alternative)
  | loop {dangling : Bool} {keyword : Token} {ts us : List Token} {cond : Expr} {body : Stmt}
      (node : Node) :
      keyword.kind = .keyword .while_ → Condition ts cond → Statement dangling us body →
      Statement dangling (keyword :: ts ++ us) (.loop node cond body)
  | forLoop {dangling : Bool} {keyword opening semicolon closing : Token} {ts us vs ws : List Token}
      {init : Option Stmt} {cond increment : Option Expr} {body : Stmt}
      (incremented step endless loop whole : Node) :
      keyword.kind = .keyword .for_ → opening.kind = .symbol .leftParen → ForInit ts init →
      Clause us cond → semicolon.kind = .symbol .semicolon → Clause vs increment →
      closing.kind = .symbol .rightParen → Statement dangling ws body →
      Statement dangling (keyword :: opening :: ts ++ us ++ semicolon :: vs ++ closing :: ws)
        (withInit whole
          (.loop loop (orTrue endless cond) (withIncrement incremented step body increment)) init)

/-- Declarations in braces. -/
inductive Body : List Token → List Stmt → Prop
  | braces {opening closing : Token} {ts : List Token} {body : List Stmt} :
      opening.kind = .symbol .leftBrace → Declarations ts body →
      closing.kind = .symbol .rightBrace → Body (opening :: ts ++ [closing]) body

/-- What may stand at top level and directly in braces. -/
inductive Declaration : List Token → Stmt → Prop
  | variable {keyword : Token} {ts : List Token} {s : Stmt} :
      keyword.kind = .keyword .var_ → VariableRest ts s → Declaration (keyword :: ts) s
  | function {keyword : Token} {ts : List Token} {decl : Callable} (node : Node) :
      keyword.kind = .keyword .fun_ → Function ts decl →
      Declaration (keyword :: ts) (.function node decl)
  | classDef {keyword name opening closing : Token} {ts : List Token} {methods : List Callable}
      (node : Node) :
      keyword.kind = .keyword .class_ → name.kind = .name → opening.kind = .symbol .leftBrace →
      Methods ts methods → closing.kind = .symbol .rightBrace →
      Declaration (keyword :: name :: opening :: ts ++ [closing])
        (.classDef node name.toWord methods)
  | statement {dangling : Bool} {ts : List Token} {s : Stmt} :
      Statement dangling ts s → Declaration ts s

inductive Declarations : List Token → List Stmt → Prop
  | none : Declarations [] []
  | some {ts us : List Token} {first : Stmt} {others : List Stmt} :
      Declaration ts first → Declarations us others → Declarations (ts ++ us) (first :: others)

/-- A function or method from its name on. -/
inductive Function : List Token → Callable → Prop
  | callable {name opening closing : Token} {ts us : List Token} {params : List Word}
      {body : List Stmt} :
      name.kind = .name → opening.kind = .symbol .leftParen → Parameters ts params →
      params.length ≤ maxArguments → closing.kind = .symbol .rightParen → Body us body →
      Function (name :: opening :: ts ++ closing :: us) ⟨name.toWord, params, body⟩

inductive Methods : List Token → List Callable → Prop
  | none : Methods [] []
  | some {ts us : List Token} {first : Callable} {others : List Callable} :
      Function ts first → Methods us others → Methods (ts ++ us) (first :: others)

end

end Grammar

end LamScope

import LamScope.Proofs.Reading.Grammar

/-!
# Spelling

How a tree is written as tokens, and which trees are written so that they can be read back: those
whose operands bind tightly enough, whose declarations stand where they may, and in which no
`else` would be taken by an inner `if`. `nesting` is how deep reading such a tree goes.
-/
namespace LamScope

/-- What a tree says of one of its tokens: the kind, and for names and `return` the word. -/
structure TokenMark where
  kind : TokenKind
  word : Option Word
deriving DecidableEq

namespace TokenMark

def symbol (s : Symbol) : TokenMark := ⟨.symbol s, none⟩
def keyword (k : Keyword) : TokenMark := ⟨.keyword k, none⟩
def name (w : Word) : TokenMark := ⟨.name, some w⟩
def returning (w : Word) : TokenMark := ⟨.keyword .return_, some w⟩

/-- Items with commas between them. -/
def listed {α : Type} (write : α → List TokenMark) : List α → List TokenMark
  | [] => []
  | x :: xs => write x ++ xs.flatMap fun x => symbol .comma :: write x

end TokenMark

/-- What a tree keeps of a token. -/
def Token.mark (t : Token) : TokenMark :=
  ⟨t.kind, if t.kind = .name ∨ t.kind = .keyword .return_ then some t.toWord else none⟩

/-- A token for a mark, without a text if the mark has none. -/
def TokenMark.token (m : TokenMark) : Token := ⟨m.word.getD ⟨"", 1, ⟨0, 0⟩⟩, m.kind⟩

namespace Expr

mutual

def marks : Expr → List TokenMark
  | literal _ value => [⟨value.kind, none⟩]
  | read _ name => [.name name]
  | assign _ name value => .name name :: .symbol .equal :: value.marks
  | binary _ op left right => left.marks ++ ⟨(Operator.binary op).kind, none⟩ :: right.marks
  | logical _ op left right => left.marks ++ ⟨(Operator.logical op).kind, none⟩ :: right.marks
  | unary _ op operand => ⟨op.kind, none⟩ :: operand.marks
  | group _ inner => .symbol .leftParen :: inner.marks ++ [.symbol .rightParen]
  | call _ callee args =>
      callee.marks ++ .symbol .leftParen :: argumentMarks args ++ [.symbol .rightParen]
  | property _ object name => object.marks ++ [.symbol .dot, .name name]
  | setProperty _ object name value =>
      object.marks ++ .symbol .dot :: .name name :: .symbol .equal :: value.marks

def argumentMarks : List Expr → List TokenMark
  | [] => []
  | e :: es => e.marks ++ moreMarks es

def moreMarks : List Expr → List TokenMark
  | [] => []
  | e :: es => .symbol .comma :: e.marks ++ moreMarks es

end

/-- How tightly the outermost construct binds. -/
def level : Expr → Nat
  | assign .. | setProperty .. => 0
  | binary _ op _ _ => (Operator.binary op).precedence
  | logical _ op _ _ => (Operator.logical op).precedence
  | unary .. => Grammar.unaryLevel
  | call .. | property .. => Grammar.postfixLevel
  | literal .. | read .. | group .. => Grammar.primaryLevel

mutual

/-- The tree can be written without further parentheses. -/
def Canonical : Expr → Prop
  | literal .. | read .. => True
  | assign _ _ value => value.Canonical
  | binary _ op left right =>
      (Operator.binary op).precedence ≤ left.level ∧ (Operator.binary op).precedence < right.level ∧
        left.Canonical ∧ right.Canonical
  | logical _ op left right =>
      (Operator.logical op).precedence ≤ left.level ∧
        (Operator.logical op).precedence < right.level ∧ left.Canonical ∧ right.Canonical
  | unary _ _ operand => Grammar.unaryLevel ≤ operand.level ∧ operand.Canonical
  | group _ inner => inner.Canonical
  | call _ callee args =>
      Grammar.postfixLevel ≤ callee.level ∧ args.length ≤ maxArguments ∧ callee.Canonical ∧
        AllCanonical args
  | property _ object _ => Grammar.postfixLevel ≤ object.level ∧ object.Canonical
  | setProperty _ object _ value =>
      Grammar.postfixLevel ≤ object.level ∧ object.Canonical ∧ value.Canonical

def AllCanonical : List Expr → Prop
  | [] => True
  | e :: es => e.Canonical ∧ AllCanonical es

end

mutual

/-- One level for the expression itself, and one more for every right or unary operand, assigned
value, argument and parenthesis on the way down. -/
def nesting : Expr → Nat
  | literal .. | read .. => 1
  | assign _ _ value => value.nesting + 1
  | binary _ _ left right | logical _ _ left right => max left.nesting (right.nesting + 1)
  | unary _ _ operand => operand.nesting + 1
  | group _ inner => inner.nesting + 1
  | call _ callee args => max callee.nesting (allNesting args + 1)
  | property _ object _ => object.nesting
  | setProperty _ object _ value => max object.nesting (value.nesting + 1)

def allNesting : List Expr → Nat
  | [] => 0
  | e :: es => max e.nesting (allNesting es)

end

mutual

/-- The tree without its node numbers and spans. -/
def bare : Expr → Expr
  | literal _ value => literal default value
  | read _ name => read default name
  | assign _ name value => assign default name value.bare
  | binary _ op left right => binary default op left.bare right.bare
  | logical _ op left right => logical default op left.bare right.bare
  | unary _ op operand => unary default op operand.bare
  | group _ inner => group default inner.bare
  | call _ callee args => call default callee.bare (allBare args)
  | property _ object name => property default object.bare name
  | setProperty _ object name value => setProperty default object.bare name value.bare

def allBare : List Expr → List Expr
  | [] => []
  | e :: es => e.bare :: allBare es

end

def clauseMarks : Option Expr → List TokenMark
  | none => []
  | some e => e.marks

def clauseNesting : Option Expr → Nat
  | none => 0
  | some e => e.nesting

def ClauseCanonical : Option Expr → Prop
  | none => True
  | some e => e.Canonical

theorem moreMarks_eq (es : List Expr) :
    moreMarks es = es.flatMap fun e => TokenMark.symbol .comma :: e.marks := by
  induction es with
  | nil => rfl
  | cons e es ih => rw [moreMarks, ih, List.flatMap_cons]

theorem argumentMarks_eq (es : List Expr) : argumentMarks es = TokenMark.listed marks es := by
  cases es with
  | nil => rfl
  | cons e es => rw [argumentMarks, moreMarks_eq, TokenMark.listed]

theorem allBare_eq (es : List Expr) : allBare es = es.map bare := by
  induction es with
  | nil => rfl
  | cons e es ih => rw [allBare, ih, List.map_cons]

theorem allNesting_le_iff {es : List Expr} {n : Nat} :
    allNesting es ≤ n ↔ ∀ e ∈ es, e.nesting ≤ n := by
  induction es with
  | nil => simp [allNesting]
  | cons e es ih => rw [allNesting, Nat.max_le, ih, List.forall_mem_cons]

end Expr

namespace Stmt

/-- Only allowed at top level and directly in braces. -/
def isDeclaration : Stmt → Bool
  | var .. | function .. | classDef .. => true
  | _ => false

/-- Ends in an `if` without an `else`, to which an `else` after it would belong. -/
def dangles : Stmt → Bool
  | ifThen .. => true
  | ifThenElse _ _ _ otherwise => otherwise.dangles
  | loop _ _ body => body.dangles
  | _ => false

mutual

def marks : Stmt → List TokenMark
  | block _ body => .symbol .leftBrace :: allMarks body ++ [.symbol .rightBrace]
  | var _ name init =>
      .keyword .var_ :: .name name ::
        (match init with
          | none => []
          | some e => .symbol .equal :: e.marks) ++ [.symbol .semicolon]
  | function _ decl => .keyword .fun_ :: callableMarks decl
  | expr _ value => value.marks ++ [.symbol .semicolon]
  | print _ value => .keyword .print_ :: value.marks ++ [.symbol .semicolon]
  | ifThen _ cond body =>
      .keyword .if_ :: .symbol .leftParen :: cond.marks ++ .symbol .rightParen :: body.marks
  | ifThenElse _ cond body otherwise =>
      .keyword .if_ :: .symbol .leftParen :: cond.marks ++ .symbol .rightParen :: body.marks ++
        .keyword .else_ :: otherwise.marks
  | ret _ keyword value => .returning keyword :: Expr.clauseMarks value ++ [.symbol .semicolon]
  | loop _ cond body =>
      .keyword .while_ :: .symbol .leftParen :: cond.marks ++ .symbol .rightParen :: body.marks
  | classDef _ name methods =>
      .keyword .class_ :: .name name :: .symbol .leftBrace :: methodMarks methods ++
        [.symbol .rightBrace]

def allMarks : List Stmt → List TokenMark
  | [] => []
  | s :: ss => s.marks ++ allMarks ss

/-- A function or method from its name on. -/
def callableMarks : Callable → List TokenMark
  | ⟨name, params, body⟩ =>
      .name name :: .symbol .leftParen :: TokenMark.listed (fun w => [.name w]) params ++
        .symbol .rightParen :: .symbol .leftBrace :: allMarks body ++ [.symbol .rightBrace]

def methodMarks : List Callable → List TokenMark
  | [] => []
  | c :: cs => callableMarks c ++ methodMarks cs

end

mutual

/-- The tree can be written so that it is read back. -/
def Canonical : Stmt → Prop
  | block _ body => AllCanonical body
  | var _ _ init => Expr.ClauseCanonical init
  | function _ decl => CallableCanonical decl
  | expr _ value | print _ value => value.Canonical
  | ifThen _ cond body | loop _ cond body =>
      cond.Canonical ∧ body.isDeclaration = false ∧ body.Canonical
  | ifThenElse _ cond body otherwise =>
      cond.Canonical ∧ body.isDeclaration = false ∧ body.dangles = false ∧ body.Canonical ∧
        otherwise.isDeclaration = false ∧ otherwise.Canonical
  | ret _ _ value => Expr.ClauseCanonical value
  | classDef _ _ methods => MethodsCanonical methods

def AllCanonical : List Stmt → Prop
  | [] => True
  | s :: ss => s.Canonical ∧ AllCanonical ss

def CallableCanonical : Callable → Prop
  | ⟨_, params, body⟩ => params.length ≤ maxArguments ∧ AllCanonical body

def MethodsCanonical : List Callable → Prop
  | [] => True
  | c :: cs => CallableCanonical c ∧ MethodsCanonical cs

end

mutual

/-- One level for every statement that is no declaration and every function or method body, and
the levels of expressions. -/
def nesting : Stmt → Nat
  | block _ body => allNesting body + 1
  | var _ _ init => Expr.clauseNesting init
  | function _ decl => callableNesting decl
  | expr _ value | print _ value => value.nesting + 1
  | ifThen _ cond body | loop _ cond body => max cond.nesting body.nesting + 1
  | ifThenElse _ cond body otherwise =>
      max cond.nesting (max body.nesting otherwise.nesting) + 1
  | ret _ _ value => Expr.clauseNesting value + 1
  | classDef _ _ methods => methodsNesting methods

def allNesting : List Stmt → Nat
  | [] => 0
  | s :: ss => max s.nesting (allNesting ss)

def callableNesting : Callable → Nat
  | ⟨_, _, body⟩ => allNesting body + 1

def methodsNesting : List Callable → Nat
  | [] => 0
  | c :: cs => max (callableNesting c) (methodsNesting cs)

end

mutual

/-- The tree without its node numbers and spans. -/
def bare : Stmt → Stmt
  | block _ body => block default (allBare body)
  | var _ name init => var default name (init.map Expr.bare)
  | function _ decl => function default (callableBare decl)
  | expr _ value => expr default value.bare
  | print _ value => print default value.bare
  | ifThen _ cond body => ifThen default cond.bare body.bare
  | ifThenElse _ cond body otherwise => ifThenElse default cond.bare body.bare otherwise.bare
  | ret _ keyword value => ret default keyword (value.map Expr.bare)
  | loop _ cond body => loop default cond.bare body.bare
  | classDef _ name methods => classDef default name (methodsBare methods)

def allBare : List Stmt → List Stmt
  | [] => []
  | s :: ss => s.bare :: allBare ss

def callableBare : Callable → Callable
  | ⟨name, params, body⟩ => ⟨name, params, allBare body⟩

def methodsBare : List Callable → List Callable
  | [] => []
  | c :: cs => callableBare c :: methodsBare cs

end

end Stmt

end LamScope

import LamScope.Proofs.Reading.Grammar

/-!
# The rough grammar

What can be read from tokens with faults or without. A rule of the rough grammar says which nodes
a construct gets: their spans by the tokens they were read from, and their numbers, which are
drawn one after the other from a number `m` up to a number `n`. What the grammar demands of tokens
is left out. In turn there are rules for a value that nothing can be assigned to and for tokens
that are skipped in a sequence of statements; numbers that were drawn for a tree that was given up
are used by no other.
-/
namespace LamScope.Rough

/-- From the start of a token to the end of the last of those after it. -/
def through (t : Token) (ts : List Token) : Span := ⟨t.span.start, (ts.getLastD t).span.stop⟩

mutual

inductive Expression : List Token → Nat → Nat → Expr → Prop
  | operand {ts : List Token} {m n : Nat} {e : Expr} : Operand ts m n e → Expression ts m n e
  | assign {ts us : List Token} {equals : Token} {m k n : Nat} {node : Node} {name : Word}
      {value : Expr} :
      Operand ts m k (.read node name) → Expression us k n value →
      Expression (ts ++ equals :: us) m (n + 1) (.assign ⟨n, node.span.join value.span⟩ name value)
  | setProperty {ts us : List Token} {equals : Token} {m k n : Nat} {node : Node} {name : Word}
      {object value : Expr} :
      Operand ts m k (.property node object name) → Expression us k n value →
      Expression (ts ++ equals :: us) m (n + 1)
        (.setProperty ⟨n, node.span.join value.span⟩ object name value)
  /-- The target stands alone and its value is dropped. -/
  | rejected {ts us : List Token} {equals : Token} {m k n : Nat} {target value : Expr} :
      Operand ts m k target → Expression us k n value →
      Expression (ts ++ equals :: us) m n target

/-- Whatever can stand beside an operator. -/
inductive Operand : List Token → Nat → Nat → Expr → Prop
  | literal {t : Token} {m : Nat} (value : Literal) :
      Operand [t] m (m + 1) (.literal ⟨m, t.span⟩ value)
  | name {t : Token} {m : Nat} : Operand [t] m (m + 1) (.read ⟨m, t.span⟩ t.toWord)
  | group {opening closing : Token} {ts : List Token} {m n : Nat} {inner : Expr} :
      Expression ts m n inner →
      Operand (opening :: ts ++ [closing]) m (n + 1)
        (.group ⟨n, opening.span.start, closing.span.stop⟩ inner)
  | unary {t : Token} {ts : List Token} {m n : Nat} {operand : Expr} (op : UnaryOp) :
      Operand ts m n operand → Operand (t :: ts) m (n + 1) (.unary ⟨n, through t ts⟩ op operand)
  | operation {t : Token} {ts us : List Token} {m k n : Nat} {left right : Expr} (o : Operator) :
      Operand ts m k left → Operand us k n right →
      Operand (ts ++ t :: us) m (n + 1) (o.apply ⟨n, left.span.join right.span⟩ left right)
  | call {opening closing : Token} {ts us : List Token} {m k n : Nat} {callee : Expr}
      {args : List Expr} :
      Operand ts m k callee → Arguments us k n args →
      Operand (ts ++ opening :: us ++ [closing]) m (n + 1)
        (.call ⟨n, callee.span.start, closing.span.stop⟩ callee args)
  | property {dot name : Token} {ts : List Token} {m n : Nat} {object : Expr} :
      Operand ts m n object →
      Operand (ts ++ [dot, name]) m (n + 1)
        (.property ⟨n, object.span.start, name.span.stop⟩ object name.toWord)

/-- Expressions, each after a comma or none. -/
inductive Arguments : List Token → Nat → Nat → List Expr → Prop
  | none {m : Nat} : Arguments [] m m []
  | some {ts us : List Token} {m k n : Nat} {first : Expr} {others : List Expr}
      (commas : List Token) :
      Expression ts m k first → Arguments us k n others →
      Arguments (commas ++ ts ++ us) m n (first :: others)

end

inductive Clause : List Token → Nat → Nat → Option Expr → Prop
  | none {m : Nat} : Clause [] m m none
  | some {ts : List Token} {m n : Nat} {e : Expr} : Expression ts m n e → Clause ts m n (some e)

/-- `var name = value;` or `var name;` -/
inductive Variable : List Token → Nat → Nat → Stmt → Prop
  | declared {keyword name semicolon : Token} {ts : List Token} {m n : Nat} {init : Option Expr}
      (equals : List Token) :
      Clause ts m n init →
      Variable (keyword :: name :: equals ++ ts ++ [semicolon]) m (n + 1)
        (.var ⟨n, keyword.span.start, semicolon.span.stop⟩ name.toWord init)

/-- An expression as a statement. -/
inductive Simple : List Token → Nat → Nat → Stmt → Prop
  | expr {t semicolon : Token} {ts : List Token} {m n : Nat} {value : Expr} :
      Expression (t :: ts) m n value →
      Simple (t :: ts ++ [semicolon]) m (n + 1)
        (.expr ⟨n, t.span.start, semicolon.span.stop⟩ value)

inductive ForInit : List Token → Nat → Nat → Option Stmt → Prop
  | none {semicolon : Token} {m : Nat} : ForInit [semicolon] m m none
  | variable {ts : List Token} {m n : Nat} {s : Stmt} :
      Variable ts m n s → ForInit ts m n (some s)
  | simple {ts : List Token} {m n : Nat} {s : Stmt} : Simple ts m n s → ForInit ts m n (some s)

/-- The body of a loop with its increment. -/
inductive Increment (span : Span) (body : Stmt) : Nat → Nat → Option Expr → Stmt → Prop
  | none {m : Nat} : Increment span body m m none body
  | some {m : Nat} {e : Expr} :
      Increment span body m (m + 2) (some e) (.block ⟨m + 1, span⟩ [body, .expr ⟨m, e.span⟩ e])

/-- The condition of a loop, which may be left out. -/
inductive Endless (span : Span) : Nat → Nat → Option Expr → Expr → Prop
  | none {m : Nat} : Endless span m (m + 1) none (.literal ⟨m, span⟩ (.bool true))
  | some {m : Nat} {cond : Expr} : Endless span m m (some cond) cond

/-- A loop with what runs before it. -/
inductive Initial (span : Span) (loop : Stmt) : Nat → Nat → Option Stmt → Stmt → Prop
  | none {m : Nat} : Initial span loop m m none loop
  | some {m : Nat} {init : Stmt} :
      Initial span loop m (m + 1) (some init) (.block ⟨m, span⟩ [init, loop])

mutual

inductive Statement : List Token → Nat → Nat → Stmt → Prop
  | simple {ts : List Token} {m n : Nat} {s : Stmt} : Simple ts m n s → Statement ts m n s
  | print {keyword semicolon : Token} {ts : List Token} {m n : Nat} {value : Expr} :
      Expression ts m n value →
      Statement (keyword :: ts ++ [semicolon]) m (n + 1)
        (.print ⟨n, keyword.span.start, semicolon.span.stop⟩ value)
  | ret {keyword semicolon : Token} {ts : List Token} {m n : Nat} {value : Option Expr} :
      Clause ts m n value →
      Statement (keyword :: ts ++ [semicolon]) m (n + 1)
        (.ret ⟨n, keyword.span.start, semicolon.span.stop⟩ keyword.toWord value)
  | block {opening closing : Token} {ts : List Token} {m n : Nat} {body : List Stmt} :
      Sequence ts m n body →
      Statement (opening :: ts ++ [closing]) m (n + 1)
        (.block ⟨n, opening.span.start, closing.span.stop⟩ body)
  | ifThen {keyword opening closing : Token} {ts us : List Token} {m k n : Nat} {cond : Expr}
      {body : Stmt} :
      Expression ts m k cond → Statement us k n body →
      Statement (keyword :: opening :: ts ++ closing :: us) m (n + 1)
        (.ifThen ⟨n, through keyword us⟩ cond body)
  | ifThenElse {keyword opening closing alternative : Token} {ts us vs : List Token}
      {m k l n : Nat} {cond : Expr} {body otherwise : Stmt} :
      Expression ts m k cond → Statement us k l body → Statement vs l n otherwise →
      Statement (keyword :: opening :: ts ++ closing :: us ++ alternative :: vs) m (n + 1)
        (.ifThenElse ⟨n, through keyword vs⟩ cond body otherwise)
  | loop {keyword opening closing : Token} {ts us : List Token} {m k n : Nat} {cond : Expr}
      {body : Stmt} :
      Expression ts m k cond → Statement us k n body →
      Statement (keyword :: opening :: ts ++ closing :: us) m (n + 1)
        (.loop ⟨n, through keyword us⟩ cond body)
  | forLoop {keyword opening semicolon closing : Token} {ts us vs ws : List Token}
      {m k₁ k₂ k₃ k₄ k₅ k₆ n : Nat} {init : Option Stmt} {cond increment : Option Expr}
      {endless : Expr} {body repeated s : Stmt} :
      ForInit ts m k₁ init → Clause us k₁ k₂ cond → Clause vs k₂ k₃ increment →
      Statement ws k₃ k₄ body →
      Increment (through keyword ws) body k₄ k₅ increment repeated →
      Endless (through keyword ws) k₅ k₆ cond endless →
      Initial (through keyword ws) (.loop ⟨k₆, through keyword ws⟩ endless repeated) (k₆ + 1) n
        init s →
      Statement (keyword :: opening :: ts ++ us ++ semicolon :: vs ++ closing :: ws) m n s

inductive Declaration : List Token → Nat → Nat → Stmt → Prop
  | variable {ts : List Token} {m n : Nat} {s : Stmt} : Variable ts m n s → Declaration ts m n s
  | function {keyword : Token} {ts : List Token} {m n : Nat} {decl : Callable} :
      Function ts m n decl →
      Declaration (keyword :: ts) m (n + 1) (.function ⟨n, through keyword ts⟩ decl)
  | classDef {keyword name opening closing : Token} {ts : List Token} {m n : Nat}
      {methods : List Callable} :
      Methods ts m n methods →
      Declaration (keyword :: name :: opening :: ts ++ [closing]) m (n + 1)
        (.classDef ⟨n, keyword.span.start, closing.span.stop⟩ name.toWord methods)
  | statement {ts : List Token} {m n : Nat} {s : Stmt} : Statement ts m n s → Declaration ts m n s

/-- Between its statements a sequence may skip tokens and numbers. -/
inductive Sequence : List Token → Nat → Nat → List Stmt → Prop
  | none {m : Nat} : Sequence [] m m []
  | skip {us : List Token} {m k n : Nat} {ss : List Stmt} (skipped : List Token) :
      m ≤ k → Sequence us k n ss → Sequence (skipped ++ us) m n ss
  | some {ts us : List Token} {m k n : Nat} {first : Stmt} {others : List Stmt} :
      Declaration ts m k first → Sequence us k n others →
      Sequence (ts ++ us) m n (first :: others)

/-- A function or method from its name on. -/
inductive Function : List Token → Nat → Nat → Callable → Prop
  | callable {name opening closing start stop : Token} {ts us : List Token} {m n : Nat}
      {params : List Word} {body : List Stmt} :
      params.Sublist (ts.map Token.toWord) → Sequence us m n body →
      Function (name :: opening :: ts ++ closing :: start :: us ++ [stop]) m n
        ⟨name.toWord, params, body⟩

inductive Methods : List Token → Nat → Nat → List Callable → Prop
  | none {m : Nat} : Methods [] m m []
  | some {ts us : List Token} {m k n : Nat} {first : Callable} {others : List Callable} :
      Function ts m k first → Methods us k n others → Methods (ts ++ us) m n (first :: others)

end

end LamScope.Rough

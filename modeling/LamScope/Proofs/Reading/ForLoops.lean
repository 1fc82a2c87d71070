import LamScope.Proofs.Reading.Gives
import LamScope.Proofs.Reading.ProgramDerivation
import LamScope.Proofs.Reading.RoughProgram
import LamScope.Proofs.Reading.Spelling
import LamScope.Proofs.Scope.Contexts

/-!
# Loops that are read from `for`

The branches of an `if` and the bodies of loops are statements that are no declarations, also where
the loop stands for a `for`. Each `for` among tokens that are read without a fault has its place in
the tree, and what stands in that place are its clauses around its body.
-/
namespace LamScope

mutual

/-- No branch and no body of a loop is a declaration. -/
def Stmt.Tidy : Stmt → Prop
  | .block _ body => Stmt.AllTidy body
  | .var .. | .expr .. | .print .. | .ret .. => True
  | .function _ decl => decl.Tidy
  | .ifThen _ _ body | .loop _ _ body => body.isDeclaration = false ∧ body.Tidy
  | .ifThenElse _ _ body otherwise =>
      (body.isDeclaration = false ∧ body.Tidy) ∧ otherwise.isDeclaration = false ∧ otherwise.Tidy
  | .classDef _ _ methods => Callable.AllTidy methods

def Stmt.AllTidy : List Stmt → Prop
  | [] => True
  | s :: ss => s.Tidy ∧ Stmt.AllTidy ss

def Callable.Tidy : Callable → Prop
  | ⟨_, _, body⟩ => Stmt.AllTidy body

def Callable.AllTidy : List Callable → Prop
  | [] => True
  | c :: cs => c.Tidy ∧ Callable.AllTidy cs

end

namespace Rough
variable {ts : List Token} {m n : Nat}

/-- What may stand as a branch or as the body of a loop. -/
def Plain (s : Stmt) : Prop := s.isDeclaration = false ∧ s.Tidy

theorem Variable.tidy {s : Stmt} (h : Variable ts m n s) : s.Tidy := by
  cases h
  exact trivial

theorem Simple.plain {s : Stmt} (h : Simple ts m n s) : Plain s := by
  cases h
  exact ⟨rfl, trivial⟩

theorem ForInit.tidy {init : Option Stmt} : ForInit ts m n init → ∀ s ∈ init, s.Tidy
  | .none, _, hs => by cases hs
  | .variable h, _, rfl => h.tidy
  | .simple h, _, rfl => h.plain.2

theorem Increment.plain {span : Span} {body s : Stmt} {increment : Option Expr}
    (h : Increment span body m n increment s) (hbody : Plain body) : Plain s := by
  cases h with
  | none => exact hbody
  | some => exact ⟨rfl, hbody.2, trivial, trivial⟩

theorem Initial.plain {span : Span} {loop s : Stmt} {init : Option Stmt}
    (h : Initial span loop m n init s) (hloop : Plain loop) (hinit : ∀ s ∈ init, s.Tidy) :
    Plain s := by
  cases h with
  | none => exact hloop
  | some => exact ⟨rfl, hinit _ rfl, hloop.2, trivial⟩

mutual

theorem Statement.plain {ts : List Token} {m n : Nat} {s : Stmt} : Statement ts m n s → Plain s
  | .simple h => h.plain
  | .print _ | .ret _ => ⟨rfl, trivial⟩
  | .block h => ⟨rfl, h.tidy⟩
  | .ifThen _ hbody | .loop _ hbody => ⟨rfl, hbody.plain⟩
  | .ifThenElse _ hbody hotherwise => ⟨rfl, hbody.plain, hotherwise.plain⟩
  | .forLoop hinit _ _ hbody hrepeated _ hs =>
      hs.plain ⟨rfl, hrepeated.plain hbody.plain⟩ hinit.tidy

theorem Declaration.tidy {ts : List Token} {m n : Nat} {s : Stmt} : Declaration ts m n s → s.Tidy
  | .variable h => h.tidy
  | .function h => h.tidy
  | .classDef h => h.tidy
  | .statement h => h.plain.2

theorem Sequence.tidy {ts : List Token} {m n : Nat} {ss : List Stmt} :
    Sequence ts m n ss → Stmt.AllTidy ss
  | .none => trivial
  | .skip _ _ hothers => hothers.tidy
  | .some hfirst hothers => ⟨hfirst.tidy, hothers.tidy⟩

theorem Function.tidy {ts : List Token} {m n : Nat} {decl : Callable} :
    Function ts m n decl → decl.Tidy
  | .callable _ hbody => hbody.tidy

theorem Methods.tidy {ts : List Token} {m n : Nat} {decls : List Callable} :
    Methods ts m n decls → Callable.AllTidy decls
  | .none => trivial
  | .some hfirst hothers => ⟨hfirst.tidy, hothers.tidy⟩

end

end Rough

/-- With faults or without, no declaration is read where only a statement may stand. -/
theorem Program.allTidy_ofTokens (tokens : List Token) :
    Stmt.AllTidy (ofTokens tokens).statements := by
  obtain ⟨ts, -, hstatements⟩ := ofCursor_goes (Cursor.closed_ofTokens tokens).over
  exact hstatements.tidy

open Grammar

/-- The parts of a `for` around its body, and the nodes that its tree gets. -/
structure ForLoop where
  init : Option Stmt
  cond : Option Expr
  increment : Option Expr
  incremented : Node
  step : Node
  endless : Node
  loop : Node
  whole : Node

/-- What stands for a `for` with the given body. -/
def ForLoop.tree (l : ForLoop) (body : Stmt) : Stmt :=
  withInit l.whole
    (.loop l.loop (orTrue l.endless l.cond) (withIncrement l.incremented l.step body l.increment))
    l.init

/-- The tokens are a `for` with the given parts and body. -/
inductive ForLoop.Written (l : ForLoop) (body : Stmt) : List Token → Prop
  | tokens {dangling : Bool} {keyword opening semicolon closing : Token}
      {ts us vs ws : List Token} :
      keyword.kind = .keyword .for_ → opening.kind = .symbol .leftParen → ForInit ts l.init →
      Clause us l.cond → semicolon.kind = .symbol .semicolon → Clause vs l.increment →
      closing.kind = .symbol .rightParen → Statement dangling ws body →
      Written l body (keyword :: opening :: ts ++ us ++ semicolon :: vs ++ closing :: ws)

namespace Parser

/-- What stands between `for` and the body. -/
def forHeader (inner : Levels) : Parser (Option Stmt × Option Expr × Option Expr) := do
  expect .leftParen
  let init ← forInit inner
  let cond ← forClause inner .semicolon
  let increment ← forClause inner .rightParen
  return (init, cond, increment)

variable {α β : Type} {inner : Levels}

theorem exists_of_bind_eq_ok {p : Parser α} {f : α → Parser β} {c d : Cursor} {b : β}
    (h : (p >>= f) c = .ok b d) : ∃ a next, p c = .ok a next ∧ f a next = .ok b d := by
  rw [bind_apply] at h
  cases hp : p c with
  | ok a next =>
      rw [hp] at h
      exact ⟨a, next, rfl, h⟩
  | failed fault next =>
      rw [hp] at h
      cases h

/-- Declarations are read at top level and directly in braces only. -/
theorem statement_gives (inner : Levels) :
    (statement inner).Gives fun s => s.isDeclaration = false := by
  have hlast {f : Node → Stmt} (start : Nat) (hf : ∀ node, (f node).isDeclaration = false) :
      Gives (do return f (← closeNode start)) fun s => s.isDeclaration = false :=
    gives_bind fun node => gives_pure (hf node)
  refine gives_bind fun t => ?_
  dsimp only
  split
  · exact gives_bind fun _ => hlast _ fun _ => rfl
  · exact gives_bind fun _ => gives_bind fun _ => gives_bind fun _ => hlast _ fun _ => rfl
  · refine gives_bind fun _ => gives_bind fun _ => ?_
    split <;> exact gives_bind fun _ => gives_bind fun _ => hlast _ fun _ => rfl
  · refine gives_bind fun _ => gives_bind fun _ => gives_bind fun _ => gives_bind fun _ => ?_
    split
    · exact gives_bind fun _ => gives_bind fun _ => hlast _ fun _ => rfl
    · exact hlast _ fun _ => rfl
  · exact gives_bind fun _ => gives_bind fun _ => gives_bind fun _ => hlast _ fun _ => rfl
  · refine gives_bind fun _ => gives_bind fun _ => gives_bind fun init => gives_bind fun _ =>
      gives_bind fun _ => gives_bind fun _ => gives_bind fun _ => gives_bind fun _ =>
      gives_bind fun _ => gives_bind fun _ => ?_
    cases init with
    | none => exact gives_pure rfl
    | some => exact gives_bind fun _ => gives_pure rfl
  · exact gives_bind fun _ => gives_bind fun _ => hlast _ fun _ => rfl

theorem ofDepth_statement_gives (n : Nat) :
    (Levels.ofDepth n).statement.Gives fun s => s.isDeclaration = false := by
  cases n with
  | zero => exact fun _ _ _ h => by cases h
  | succ n => exact statement_gives _

theorem withIncrement_form (span : Span) (body : Stmt) (increment : Option Expr) :
    (withIncrement span body increment).Gives
      fun s => ∃ block step, s = Grammar.withIncrement block step body increment := by
  cases increment with
  | none => exact gives_pure ⟨default, default, rfl⟩
  | some e => exact gives_bind fun step => gives_bind fun block => gives_pure ⟨block, step, rfl⟩

theorem orTrue_form (span : Span) (cond : Option Expr) :
    (orTrue span cond).Gives fun e => ∃ node, e = Grammar.orTrue node cond := by
  cases cond with
  | none => exact gives_bind fun node => gives_pure ⟨node, rfl⟩
  | some e => exact gives_pure ⟨default, rfl⟩

theorem withInit_form (span : Span) (loop : Stmt) (init : Option Stmt) :
    (withInit span loop init).Gives fun s => ∃ node, s = Grammar.withInit node loop init := by
  cases init with
  | none => exact gives_pure ⟨default, rfl⟩
  | some s => exact gives_bind fun node => gives_pure ⟨node, rfl⟩

/-- Whatever is noted on the way, the body of a `for` is the statement behind its clauses, and that
is no declaration. -/
theorem exists_of_forRest {n start : Nat} {c d : Cursor} {s : Stmt}
    (h : forRest (.ofDepth n) start c = .ok s d) :
    ∃ (l : ForLoop) (body : Stmt) (next last : Cursor),
      forHeader (.ofDepth n) c = .ok (l.init, l.cond, l.increment) next ∧
        (Levels.ofDepth n).statement next = .ok body last ∧ body.isDeclaration = false ∧
        s = l.tree body := by
  obtain ⟨_, c₁, h₁, h⟩ := exists_of_bind_eq_ok h
  obtain ⟨init, c₂, h₂, h⟩ := exists_of_bind_eq_ok h
  obtain ⟨cond, c₃, h₃, h⟩ := exists_of_bind_eq_ok h
  obtain ⟨increment, c₄, h₄, h⟩ := exists_of_bind_eq_ok h
  obtain ⟨body, c₅, h₅, h⟩ := exists_of_bind_eq_ok h
  obtain ⟨span, c₆, -, h⟩ := exists_of_bind_eq_ok h
  obtain ⟨repeated, c₇, h₇, h⟩ := exists_of_bind_eq_ok h
  obtain ⟨endless, c₈, h₈, h⟩ := exists_of_bind_eq_ok h
  obtain ⟨loop, c₉, -, h⟩ := exists_of_bind_eq_ok h
  obtain ⟨incremented, step, rfl⟩ := withIncrement_form span body increment h₇
  obtain ⟨unending, rfl⟩ := orTrue_form span cond h₈
  obtain ⟨whole, rfl⟩ := withInit_form span _ init h
  have hheader : forHeader (.ofDepth n) c = .ok (init, cond, increment) c₄ := by
    unfold forHeader
    simp only [bind_apply, h₁, h₂, h₃, h₄]
    rfl
  exact ⟨⟨init, cond, increment, incremented, step, unending, loop, whole⟩, body, c₄, c₅, hheader,
    h₅, ofDepth_statement_gives n h₅, rfl⟩

end Parser

/-! ### Places of `for` -/

/-- No token of these is a `for`. -/
def Forless (ts : List Token) : Prop := ∀ t ∈ ts, t.kind ≠ .keyword .for_

section
variable {t : Token} {ts us rest : List Token} {kind : TokenKind}

theorem forless_nil : Forless [] := List.forall_mem_nil _

theorem Forless.cons (ht : t.kind = kind) (hkind : kind ≠ .keyword .for_) (hts : Forless ts) :
    Forless (t :: ts) :=
  List.forall_mem_cons.mpr ⟨ht ▸ hkind, hts⟩

theorem Forless.append (hts : Forless ts) (hus : Forless us) : Forless (ts ++ us) :=
  List.forall_mem_append.mpr ⟨hts, hus⟩

theorem forless_singleton (ht : t.kind = kind) (hkind : kind ≠ .keyword .for_) : Forless [t] :=
  forless_nil.cons ht hkind

/-- A suffix of two lists begins in the second one, or else in the first one. -/
theorem suffix_append_cases {α : Type} {a : α} {xs ys zs : List α} (h : a :: zs <:+ xs ++ ys) :
    a :: zs <:+ ys ∨ ∃ zs', a :: zs' <:+ xs ∧ zs = zs' ++ ys := by
  obtain ⟨before, hbefore⟩ := h
  rcases List.append_eq_append_iff.mp hbefore with ⟨as, rfl, hbehind⟩ | ⟨bs, rfl, rfl⟩
  · cases as with
    | nil => exact .inl (by rw [hbehind]; exact List.suffix_rfl)
    | cons b as =>
        obtain ⟨rfl, rfl⟩ := List.cons.inj hbehind
        exact .inr ⟨as, ⟨before, rfl⟩, rfl⟩
  · exact .inl ⟨bs, rfl⟩

variable (ht : t.kind = .keyword .for_)
include ht

theorem Forless.not_suffix (hts : Forless ts) (h : t :: rest <:+ ts) : False :=
  hts t (h.subset List.mem_cons_self) ht

theorem Forless.suffix_right (hts : Forless ts) (h : t :: rest <:+ ts ++ us) : t :: rest <:+ us :=
  (suffix_append_cases h).resolve_right fun ⟨_, h, _⟩ => hts.not_suffix ht h

theorem Forless.suffix_left (hus : Forless us) (h : t :: rest <:+ ts ++ us) :
    ∃ rest', t :: rest' <:+ ts ∧ rest = rest' ++ us :=
  (suffix_append_cases h).resolve_left (hus.not_suffix ht)

end

namespace Grammar

theorem kind_ne_for (o : Operator) : o.kind ≠ .keyword .for_ := by
  rcases o with op | op <;> cases op <;> decide

mutual

theorem Expression.forless {ts : List Token} {e : Expr} : Expression ts e → Forless ts
  | .operand h => h.forless
  | .assign _ hname hequals hvalue =>
      (hvalue.forless.cons hequals (by decide)).cons hname (by decide)
  | .setProperty _ hobject hdot hname hequals hvalue =>
      hobject.forless.append
        (((hvalue.forless.cons hequals (by decide)).cons hname (by decide)).cons hdot (by decide))

theorem Operand.forless {level : Nat} {ts : List Token} {e : Expr} :
    Operand level ts e → Forless ts
  | .tighter h => h.forless
  | @Operand.operation o _ _ _ _ _ _ hleft ht hright =>
      hleft.forless.append (hright.forless.cons ht (kind_ne_for o))
  | @Operand.unary op _ _ _ _ ht h => h.forless.cons ht (by cases op <;> decide)
  | .call _ hcallee hopening hargs _ hclosing =>
      (hcallee.forless.append (hargs.forless.cons hopening (by decide))).append
        (forless_singleton hclosing (by decide))
  | .property _ hobject hdot hname =>
      hobject.forless.append ((forless_singleton hname (by decide)).cons hdot (by decide))
  | @Operand.literal _ value _ ht => by
      refine forless_singleton ht ?_
      cases value with
      | bool value => cases value <;> decide
      | number | string | nil => simp [Literal.kind]
  | .name _ ht => forless_singleton ht (by decide)
  | .group _ hopening hinner hclosing =>
      (hinner.forless.cons hopening (by decide)).append (forless_singleton hclosing (by decide))

theorem Arguments.forless {ts : List Token} {es : List Expr} : Arguments ts es → Forless ts
  | .none => forless_nil
  | .some hfirst hothers => hfirst.forless.append hothers.forless

theorem MoreArguments.forless {ts : List Token} {es : List Expr} : MoreArguments ts es → Forless ts
  | .none => forless_nil
  | .some hcomma hfirst hothers =>
      (hfirst.forless.cons hcomma (by decide)).append hothers.forless

end

section
variable {ts : List Token}

theorem Clause.forless {clause : Option Expr} : Clause ts clause → Forless ts
  | .none => forless_nil
  | .some h => h.forless

theorem Condition.forless {cond : Expr} : Condition ts cond → Forless ts
  | .parens hopening h hclosing =>
      (h.forless.cons hopening (by decide)).append (forless_singleton hclosing (by decide))

theorem VariableRest.forless {s : Stmt} : VariableRest ts s → Forless ts
  | .bare _ hname hsemicolon =>
      (forless_singleton hsemicolon (by decide)).cons hname (by decide)
  | .initialized _ hname hequals hvalue hsemicolon =>
      ((hvalue.forless.cons hequals (by decide)).cons hname (by decide)).append
        (forless_singleton hsemicolon (by decide))

theorem MoreParameters.forless {params : List Word} (h : MoreParameters ts params) :
    Forless ts := by
  induction h with
  | none => exact forless_nil
  | some hcomma hname _ ih => exact (ih.cons hname (by decide)).cons hcomma (by decide)

theorem Parameters.forless {params : List Word} : Parameters ts params → Forless ts
  | .none => forless_nil
  | .some hname hothers => hothers.forless.cons hname (by decide)

theorem ForInit.forless {init : Option Stmt} : ForInit ts init → Forless ts
  | .none hsemicolon => forless_singleton hsemicolon (by decide)
  | .variable hkeyword h => h.forless.cons hkeyword (by decide)
  | .expression _ h hsemicolon => h.forless.append (forless_singleton hsemicolon (by decide))

end

end Grammar

/-- The tokens begin with a `for` that has the given parts and body. -/
def ForLoop.Begins (l : ForLoop) (body : Stmt) (tokens : List Token) : Prop :=
  ∃ us rest, tokens = us ++ rest ∧ l.Written body us

/-- What is read from the `for` with which the tokens begin stands somewhere in the statement. -/
def Stmt.HoldsFor (tokens : List Token) (s : Stmt) : Prop :=
  ∃ (k : Shell) (l : ForLoop) (body : Stmt),
    l.Begins body tokens ∧ k.fill (some (l.tree body)) = some s

/-- The same for a list of statements. -/
def Stmt.AllHoldFor (tokens : List Token) (ss : List Stmt) : Prop :=
  ∃ (k : Context) (l : ForLoop) (body : Stmt),
    l.Begins body tokens ∧ k.fill (some (l.tree body)) = ss

section
variable {tokens : List Token}

theorem ForLoop.Begins.append {l : ForLoop} {body : Stmt} (h : l.Begins body tokens)
    (more : List Token) : l.Begins body (tokens ++ more) := by
  obtain ⟨us, rest, rfl, hwritten⟩ := h
  exact ⟨us, rest ++ more, List.append_assoc _ _ _, hwritten⟩

theorem Stmt.HoldsFor.append {s : Stmt} (h : s.HoldsFor tokens) (more : List Token) :
    s.HoldsFor (tokens ++ more) := by
  obtain ⟨k, l, body, hbegins, hfill⟩ := h
  exact ⟨k, l, body, hbegins.append more, hfill⟩

theorem Stmt.AllHoldFor.append {ss : List Stmt} (h : AllHoldFor tokens ss) (more : List Token) :
    AllHoldFor (tokens ++ more) ss := by
  obtain ⟨k, l, body, hbegins, hfill⟩ := h
  exact ⟨k, l, body, hbegins.append more, hfill⟩

/-- What a statement holds is held by a statement around it. -/
theorem Stmt.HoldsFor.inside {s t : Stmt} (h : s.HoldsFor tokens) (outer : Shell → Shell)
    (hfill : ∀ k z, k.fill z = some s → (outer k).fill z = some t) : t.HoldsFor tokens := by
  obtain ⟨k, l, body, hbegins, hs⟩ := h
  exact ⟨outer k, l, body, hbegins, hfill k _ hs⟩

theorem Stmt.HoldsFor.among {s : Stmt} (h : s.HoldsFor tokens) (before after : List Stmt) :
    AllHoldFor tokens (before ++ s :: after) := by
  obtain ⟨k, l, body, hbegins, hs⟩ := h
  refine ⟨⟨before, k, after⟩, l, body, hbegins, ?_⟩
  simp [Context.fill, hs]

end

/-- The `for` around a body in which a place is left open. -/
def ForLoop.shell (l : ForLoop) (k : Shell) : Shell :=
  let repeated : Shell :=
    match l.increment with
    | none => k
    | some e => .block l.incremented [] k [.expr l.step e]
  let loop : Shell := .loop l.loop (orTrue l.endless l.cond) repeated
  match l.init with
  | none => loop
  | some init => .block l.whole [init] loop []

theorem ForLoop.fill_shell (l : ForLoop) (k : Shell) (z : Option Stmt) {body : Stmt}
    (h : k.fill z = some body) : (l.shell k).fill z = some (l.tree body) := by
  obtain ⟨init, cond, increment, incremented, step, endless, loop, whole⟩ := l
  cases init <;> cases increment <;>
    simp [shell, tree, withInit, withIncrement, Shell.fill, Shell.branch, h]

namespace Grammar
variable {t : Token} (ht : t.kind = .keyword .for_)
include ht

mutual

/-- Every `for` among the tokens of a statement stands somewhere in it. -/
theorem Statement.holdsFor {dangling : Bool} {ts rest : List Token} {s : Stmt} :
    Statement dangling ts s → t :: rest <:+ ts → s.HoldsFor (t :: rest)
  | .expr _ hvalue hsemicolon, h =>
      ((hvalue.forless.append (forless_singleton hsemicolon (by decide))).not_suffix ht h).elim
  | .print _ hkeyword hvalue hsemicolon, h =>
      (((hvalue.forless.cons hkeyword (by decide)).append
        (forless_singleton hsemicolon (by decide))).not_suffix ht h).elim
  | .ret _ hkeyword hvalue hsemicolon, h =>
      (((hvalue.forless.cons hkeyword (by decide)).append
        (forless_singleton hsemicolon (by decide))).not_suffix ht h).elim
  | .block node hbody, h => by
      obtain ⟨k, l, body, hbegins, hfill⟩ := hbody.allHoldFor h
      refine ⟨.block node k.before k.shell k.after, l, body, hbegins, ?_⟩
      rw [Shell.fill, ← hfill]
      rfl
  | @Statement.ifThen _ _ _ _ cond _ node hkeyword hcond hbody, h => by
      have hin := (hcond.forless.cons hkeyword (by decide)).suffix_right ht h
      exact (hbody.holdsFor hin).inside (.ifThen node cond) fun k z hk => by
        rw [Shell.fill, hk, Shell.branch, Option.getD_some]
  | @Statement.ifThenElse _ _ _ _ _ _ cond body otherwise node hkeyword hcond hbody helse
      hotherwise, h => by
      rcases suffix_append_cases h with hin | ⟨rest, hin, rfl⟩
      · have hin := (forless_singleton helse (by decide)).suffix_right ht hin
        exact (hotherwise.holdsFor hin).inside (.orElse node cond body) fun k z hk => by
          rw [Shell.fill, hk, Shell.branch, Option.getD_some]
      · have hin := (hcond.forless.cons hkeyword (by decide)).suffix_right ht hin
        have hheld := (hbody.holdsFor hin).append
        exact (hheld _).inside (.thenElse node cond · otherwise) fun k z hk => by
          rw [Shell.fill, hk, Shell.branch, Option.getD_some]
  | @Statement.loop _ _ _ _ cond _ node hkeyword hcond hbody, h => by
      have hin := (hcond.forless.cons hkeyword (by decide)).suffix_right ht h
      exact (hbody.holdsFor hin).inside (.loop node cond) fun k z hk => by
        rw [Shell.fill, hk, Shell.branch, Option.getD_some]
  | @Statement.forLoop _ keyword opening semicolon closing ts us vs ws init cond increment body
      incremented step endless loop whole hkeyword hopening hinit hcond hsemicolon hincrement
      hclosing hbody, h => by
      let l : ForLoop := ⟨init, cond, increment, incremented, step, endless, loop, whole⟩
      rcases List.suffix_cons_iff.mp h with hwhole | hin
      · -- it is this `for` itself
        exact ⟨.gap, l, body, ⟨_, [], by rw [List.append_nil]; exact hwhole,
          .tokens hkeyword hopening hinit hcond hsemicolon hincrement hclosing hbody⟩, rfl⟩
      · have hclauses : Forless (opening :: ts ++ us ++ semicolon :: vs) :=
          ((hinit.forless.cons hopening (by decide)).append hcond.forless).append
            (hincrement.forless.cons hsemicolon (by decide))
        have hin := (forless_singleton hclosing (by decide)).suffix_right ht
          (hclauses.suffix_right ht hin)
        exact (hbody.holdsFor hin).inside l.shell fun k z hk => l.fill_shell k z hk

theorem Body.allHoldFor {ts rest : List Token} {ss : List Stmt} :
    Body ts ss → t :: rest <:+ ts → Stmt.AllHoldFor (t :: rest) ss
  | .braces hopening hbody hclosing, h => by
      obtain ⟨rest, hin, rfl⟩ := (forless_singleton hclosing (by decide)).suffix_left ht h
      have hin := (forless_singleton hopening (by decide)).suffix_right ht hin
      exact (hbody.allHoldFor hin).append _

theorem Declaration.holdsFor {ts rest : List Token} {s : Stmt} :
    Declaration ts s → t :: rest <:+ ts → s.HoldsFor (t :: rest)
  | .variable hkeyword hvariable, h =>
      ((hvariable.forless.cons hkeyword (by decide)).not_suffix ht h).elim
  | @Declaration.function _ _ ⟨name, params, body⟩ node hkeyword hdecl, h => by
      have hin := (forless_singleton hkeyword (by decide)).suffix_right ht h
      obtain ⟨k, l, repeated, hbegins, hfill⟩ := hdecl.allHoldFor hin
      exact ⟨.function node name params k.before k.shell k.after, l, repeated, hbegins,
        congrArg (fun ss => some (Stmt.function node ⟨name, params, ss⟩)) hfill⟩
  | @Declaration.classDef _ name _ _ _ _ node hkeyword hname hopening hmethods hclosing, h => by
      obtain ⟨rest, hin, rfl⟩ := (forless_singleton hclosing (by decide)).suffix_left ht h
      have hin := (((forless_singleton hopening (by decide)).cons hname (by decide)).cons hkeyword
        (by decide)).suffix_right ht hin
      obtain ⟨earlier, ⟨label, params, body⟩, later, rfl, k, l, repeated, hbegins, hfill⟩ :=
        hmethods.exists_holdFor hin
      exact ⟨.method node name.toWord earlier label params k.before k.shell k.after later, l,
        repeated, hbegins.append _, congrArg (fun ss => some (Stmt.classDef node name.toWord
          (earlier ++ ⟨label, params, ss⟩ :: later))) hfill⟩
  | .statement hs, h => hs.holdsFor h

theorem Declarations.allHoldFor {ts rest : List Token} {ss : List Stmt} :
    Declarations ts ss → t :: rest <:+ ts → Stmt.AllHoldFor (t :: rest) ss
  | .none, h => (forless_nil.not_suffix ht h).elim
  | @Declarations.some _ _ first others hfirst hothers, h => by
      rcases suffix_append_cases h with hin | ⟨rest, hin, rfl⟩
      · obtain ⟨k, l, body, hbegins, hfill⟩ := hothers.allHoldFor hin
        exact ⟨⟨first :: k.before, k.shell, k.after⟩, l, body, hbegins,
          congrArg (List.cons first) hfill⟩
      · exact ((hfirst.holdsFor hin).append _).among [] others

theorem Function.allHoldFor {ts rest : List Token} {decl : Callable} :
    Function ts decl → t :: rest <:+ ts → Stmt.AllHoldFor (t :: rest) decl.body
  | .callable hname hopening hparams _ hclosing hbody, h => by
      have hin := ((hparams.forless.cons hopening (by decide)).cons hname (by decide)).suffix_right
        ht h
      exact hbody.allHoldFor ((forless_singleton hclosing (by decide)).suffix_right ht hin)

theorem Methods.exists_holdFor {ts rest : List Token} {decls : List Callable} :
    Methods ts decls → t :: rest <:+ ts → ∃ earlier decl later,
      decls = earlier ++ decl :: later ∧ Stmt.AllHoldFor (t :: rest) decl.body
  | .none, h => (forless_nil.not_suffix ht h).elim
  | @Methods.some _ _ first others hfirst hothers, h => by
      rcases suffix_append_cases h with hin | ⟨rest, hin, rfl⟩
      · obtain ⟨earlier, decl, later, rfl, hdecl⟩ := hothers.exists_holdFor hin
        exact ⟨first :: earlier, decl, later, rfl, hdecl⟩
      · exact ⟨[], first, others, rfl, (hfirst.allHoldFor hin).append _⟩

end

end Grammar

/-- Every `for` in a text that is read without a fault has its place in the tree. -/
theorem Program.allHoldFor_ofTokens {tokens rest : List Token} {t : Token}
    (hclean : (ofTokens tokens).faults = []) (ht : t.kind = .keyword .for_)
    (h : t :: rest <:+ tokens.takeWhile fun t => t.kind != .endOfFile) :
    Stmt.AllHoldFor (t :: rest) (ofTokens tokens).statements := by
  rw [ofTokens_eq] at hclean ⊢
  obtain ⟨ts, hstatements, hupcoming, hend⟩ := Parser.sequenceWithin_derives
    (Parser.declaration_derives (Levels.ofDepth_derives maxNesting))
    (Cursor.closed_ofTokens tokens) (Nat.le_refl _) rfl hclean
  rcases hend with hend | hend
  · rw [List.isEmpty_iff.mp hend, List.append_nil] at hupcoming
    exact hstatements.allHoldFor ht (hupcoming ▸ h)
  · cases hend

end LamScope

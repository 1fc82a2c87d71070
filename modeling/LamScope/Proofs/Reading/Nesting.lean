import LamScope.Analysis
import LamScope.Proofs.Reading.Gives
import LamScope.Proofs.Scope.Height

/-!
# Heights of what is read

One level of nesting in a text adds at most three to the height of its tree: a `for` is read as a
block around a loop around a block, and an assignment to a property of a group stands on a run that
stands on the group. Main statement: the walk over what is read from any tokens is never stopped at
the default limit, with faults or without, as reading stops at `maxNesting` levels first.
-/
namespace LamScope

/-- The parts of the runs that a level gives are at most `n` high, and whole expressions, bodies and
statements at most one, two and three levels more. -/
structure Levels.Bounded (inner : Levels) (n : Nat) : Prop where
  operand (floor : Nat) : (inner.operand floor).Gives fun e => e.reach ≤ n
  value : inner.value.Gives fun e => e.height ≤ n + 1
  statement : inner.statement.Gives fun s => s.height ≤ n + 3
  body : inner.body.Gives fun body => Stmt.allHeight body ≤ n + 2

namespace Parser
variable {inner : Levels} {n : Nat}

theorem expression_bounded (hi : inner.Bounded n) :
    (expression inner).Gives fun e => e.height ≤ n + 2 := by
  refine (hi.operand 0).bind fun target htarget => gives_bind fun equals => ?_
  have hheight := Expr.height_le_of_reach_le htarget
  split
  · refine gives_bind fun _ => hi.value.bind fun value hvalue => ?_
    dsimp only
    split
    · exact gives_bind fun _ => gives_pure (Nat.succ_le_succ hvalue)
    · -- A property is as high as its object, so what bounds the target bounds the object.
      rename_i object name
      have hobject : object.height ≤ n + 1 := Expr.height_le_of_reach_le htarget
      have hparts := Nat.max_le.mpr ⟨hvalue, hobject⟩
      exact gives_bind fun _ => gives_pure (Nat.succ_le_succ hparts)
    · exact gives_bind fun _ => gives_pure (Nat.le_succ_of_le hheight)
  · exact gives_pure (Nat.le_succ_of_le hheight)

theorem literal_bounded (start : Nat) (value : Literal) :
    (literal start value).Gives fun e => e.reach ≤ n + 3 :=
  gives_bind fun _ => gives_bind fun _ => gives_pure (Nat.le_add_left 1 (n + 2))

theorem unary_bounded (hi : inner.Bounded n) (start : Nat) (op : UnaryOp) :
    (unary inner start op).Gives fun e => e.reach ≤ n + 3 := by
  refine gives_bind fun _ => (hi.operand _).bind fun operand hoperand => gives_bind fun _ => ?_
  have hheight := Expr.height_le_of_reach_le hoperand
  exact gives_pure (Nat.le_succ_of_le (Nat.succ_le_succ hheight))

theorem group_bounded (hi : inner.Bounded n) (start : Nat) :
    (group inner start).Gives fun e => e.reach ≤ n + 3 := by
  refine gives_bind fun _ => (expression_bounded hi).bind fun e he => gives_bind fun _ => ?_
  exact gives_bind fun _ => gives_pure (Nat.succ_le_succ he)

theorem primary_bounded (hi : inner.Bounded n) :
    (primary inner).Gives fun e => e.reach ≤ n + 3 := by
  refine gives_bind fun t => ?_
  dsimp only
  split
  · exact literal_bounded _ _
  · exact literal_bounded _ _
  · exact literal_bounded _ _
  · exact literal_bounded _ _
  · exact literal_bounded _ _
  · exact gives_bind fun _ => gives_bind fun _ => gives_pure (Nat.le_add_left 1 (n + 2))
  · exact group_bounded hi _
  · exact unary_bounded hi _ _
  · exact unary_bounded hi _ _
  · exact gives_fail _

theorem argument_bounded (hi : inner.Bounded n) (i : Nat) :
    (argument inner i).Gives fun e => e.height ≤ n + 2 := by
  unfold argument
  dsimp only
  split
  · exact gives_bind fun t => gives_bind fun _ => expression_bounded hi
  · exact expression_bounded hi

theorem arguments_bounded (hi : inner.Bounded n) :
    (arguments inner).Gives fun args => Expr.allHeight args ≤ n + 2 := by
  intro c args d h
  unfold arguments at h
  split at h
  · cases h
    exact Nat.zero_le _
  · exact Expr.allHeight_le_iff.mpr (commaList_gives (argument_bounded hi) h)

/-- Going on from an expression does not make the run higher than its parts. -/
theorem continuation?_bounded (hi : inner.Bounded n) {floor : Nat} {left : Expr}
    {kind : TokenKind} {more : Parser Expr} (hleft : left.reach ≤ n + 3)
    (h : continuation? inner floor left kind = some more) :
    more.Gives fun e => e.reach ≤ n + 3 := by
  unfold continuation? at h
  split at h
  · cases h
    refine gives_bind fun _ => (arguments_bounded hi).bind fun args hargs => ?_
    refine gives_bind fun _ => gives_bind fun _ => gives_pure ?_
    exact Nat.max_le.mpr ⟨hleft, Nat.le_succ_of_le hargs⟩
  · cases h
    exact gives_bind fun _ => gives_bind fun _ => gives_bind fun _ => gives_pure hleft
  · split at h
    · rename_i o _
      split at h <;> cases h
      refine gives_bind fun _ => (hi.operand _).bind fun right hright => ?_
      refine gives_bind fun node => gives_pure ?_
      have hheight := Nat.le_add_right_of_le (k := 2) (Expr.height_le_of_reach_le hright)
      cases o <;> exact Nat.max_le.mpr ⟨hleft, hheight⟩
    · cases h

theorem continuedWithin_bounded (hi : inner.Bounded n) (floor : Nat) (bound : List Token)
    {left : Expr} (hleft : left.reach ≤ n + 3) :
    (continuedWithin inner floor bound left).Gives fun e => e.reach ≤ n + 3 := by
  induction bound generalizing left with
  | nil =>
      rw [continuedWithin_nil]
      exact gives_pure hleft
  | cons t bound ih =>
      rw [continuedWithin_cons]
      refine gives_bind fun next => ?_
      split
      · exact gives_pure hleft
      · rename_i more h
        exact (continuation?_bounded hi hleft h).bind fun e he => ih he

theorem operand_bounded (hi : inner.Bounded n) (floor : Nat) :
    (operand inner floor).Gives fun e => e.reach ≤ n + 3 :=
  (primary_bounded hi).bind fun _ hfirst c _ _ h =>
    continuedWithin_bounded hi floor c.upcoming hfirst h

theorem optional_bounded (hi : inner.Bounded n) :
    (some <$> expression inner).Gives fun clause => Expr.clauseHeight clause ≤ n + 2 :=
  (expression_bounded hi).map fun _ he => he

theorem variableRest_bounded (hi : inner.Bounded n) (start : Nat) :
    (variableRest inner start).Gives fun s => s.height ≤ n + 3 := by
  refine gives_bind fun name => gives_bind fun hasInit => ?_
  have hend (init : Option Expr) (h : Expr.clauseHeight init ≤ n + 2) :
      Gives (do
        expect .semicolon
        return Stmt.var (← closeNode start) name init) fun s => s.height ≤ n + 3 :=
    gives_bind fun _ => gives_bind fun _ => gives_pure (by rw [Stmt.height]; omega)
  dsimp only
  split
  · exact (optional_bounded hi).bind hend
  · exact Gives.bind (gives_pure (Nat.zero_le _)) hend

theorem callable_bounded (hi : inner.Bounded n) :
    (callable inner).Gives fun decl => decl.bodyHeight ≤ n + 2 := by
  refine gives_bind fun name => gives_bind fun _ => gives_bind fun params => gives_bind fun _ => ?_
  refine hi.body.bind fun body hbody => ?_
  dsimp only
  split
  · exact gives_bind fun _ => gives_pure hbody
  · exact gives_pure hbody

theorem classRest_bounded (hi : inner.Bounded n) (start : Nat) :
    (classRest inner start).Gives fun s => s.height ≤ n + 3 := by
  refine gives_bind fun name => gives_bind fun _ => ?_
  refine (many_gives (callable_bounded hi)).bind fun methods hmethods => ?_
  have hbodies := Callable.allBodyHeight_le_iff.mpr hmethods
  exact gives_bind fun _ => gives_bind fun _ => gives_pure (Nat.succ_le_succ hbodies)

theorem declaration_bounded (hi : inner.Bounded n) :
    (declaration inner).Gives fun s => s.height ≤ n + 3 := by
  refine gives_bind fun t => ?_
  dsimp only
  split
  · exact gives_bind fun _ => variableRest_bounded hi _
  · refine gives_bind fun _ => (callable_bounded hi).bind fun decl hdecl => ?_
    exact gives_bind fun _ => gives_pure (Nat.succ_le_succ hdecl)
  · exact gives_bind fun _ => classRest_bounded hi _
  · exact hi.statement

theorem braces_bounded (hi : inner.Bounded n) :
    (braces inner).Gives fun body => Stmt.allHeight body ≤ n + 3 := by
  have hbody : Gives (statements .braces (declaration inner))
      fun body => Stmt.allHeight body ≤ n + 3 := by
    intro c body d h
    cases h
    exact Stmt.allHeight_le_iff.mpr (sequenceWithin_gives (declaration_bounded hi) _ c)
  rw [braces_eq]
  exact gives_bind fun _ => hbody.bind fun body h => gives_bind fun _ => gives_pure h

theorem condition_bounded (hi : inner.Bounded n) :
    (condition inner).Gives fun e => e.height ≤ n + 2 :=
  gives_bind fun _ => (expression_bounded hi).bind fun _ he => gives_bind fun _ => gives_pure he

theorem ifRest_bounded (hi : inner.Bounded n) (start : Nat) :
    (ifRest inner start).Gives fun s => s.height ≤ n + 6 := by
  refine (condition_bounded hi).bind fun cond hcond => hi.statement.bind fun body hbody => ?_
  refine gives_bind fun next => ?_
  split
  · refine gives_bind fun _ => hi.statement.bind fun otherwise hotherwise => ?_
    exact gives_bind fun _ => gives_pure (by rw [Stmt.height]; omega)
  · exact gives_bind fun _ => gives_pure (by rw [Stmt.height]; omega)

theorem returnRest_bounded (hi : inner.Bounded n) (keyword : Word) :
    (returnRest inner keyword).Gives fun s => s.height ≤ n + 6 := by
  refine gives_bind fun next => ?_
  have hend (value : Option Expr) (h : Expr.clauseHeight value ≤ n + 2) :
      Gives (do
        expect .semicolon
        return Stmt.ret (← closeNode keyword.span.start) keyword value)
        fun s => s.height ≤ n + 6 :=
    gives_bind fun _ => gives_bind fun _ => gives_pure (by rw [Stmt.height]; omega)
  dsimp only
  split
  · exact Gives.bind (gives_pure (Nat.zero_le _)) hend
  · exact (optional_bounded hi).bind hend

theorem forInit_bounded (hi : inner.Bounded n) :
    (forInit inner).Gives fun init => ∀ s ∈ init, s.height ≤ n + 3 := by
  refine gives_bind fun t => ?_
  dsimp only
  split
  · exact gives_bind fun _ => gives_pure fun s hs => by cases hs
  · refine gives_bind fun _ => (variableRest_bounded hi _).map fun s hs => ?_
    exact fun _ h => Option.mem_some.mp h ▸ hs
  · refine (expression_bounded hi).bind fun e he => gives_bind fun _ => gives_bind fun _ => ?_
    exact gives_pure fun _ h => Option.mem_some.mp h ▸ Nat.succ_le_succ he

theorem forClause_bounded (hi : inner.Bounded n) (closer : Symbol) :
    (forClause inner closer).Gives fun clause => Expr.clauseHeight clause ≤ n + 2 := by
  refine gives_bind fun t => ?_
  have hend (clause : Option Expr) (h : Expr.clauseHeight clause ≤ n + 2) :
      Gives (do
        expect closer
        return clause) fun clause => Expr.clauseHeight clause ≤ n + 2 :=
    gives_bind fun _ => gives_pure h
  dsimp only
  split
  · exact Gives.bind (gives_pure (Nat.zero_le _)) hend
  · exact (optional_bounded hi).bind hend

/-- The body of a loop and its increment. -/
theorem withIncrement_bounded {span : Span} {body : Stmt} {increment : Option Expr}
    (hbody : body.height ≤ n + 3) (hincrement : Expr.clauseHeight increment ≤ n + 2) :
    (withIncrement span body increment).Gives fun s => s.height ≤ n + 4 := by
  cases increment with
  | none => exact gives_pure (Nat.le_succ_of_le hbody)
  | some e =>
      refine gives_bind fun step => gives_bind fun block => gives_pure ?_
      have he : (Stmt.expr step e).height ≤ n + 3 := Nat.succ_le_succ hincrement
      simp only [Stmt.height, Stmt.allHeight] at he ⊢
      omega

theorem orTrue_bounded {span : Span} {cond : Option Expr} (h : Expr.clauseHeight cond ≤ n + 2) :
    (orTrue span cond).Gives fun e => e.height ≤ n + 2 := by
  cases cond with
  | none => exact gives_bind fun _ => gives_pure (Nat.le_add_left 1 (n + 1))
  | some e => exact gives_pure h

theorem withInit_bounded {span : Span} {loop : Stmt} {init : Option Stmt}
    (hloop : loop.height ≤ n + 5) (hinit : ∀ s ∈ init, s.height ≤ n + 3) :
    (withInit span loop init).Gives fun s => s.height ≤ n + 6 := by
  cases init with
  | none => exact gives_pure (Nat.le_succ_of_le hloop)
  | some s =>
      refine gives_bind fun _ => gives_pure ?_
      have hs := hinit s rfl
      simp only [Stmt.height, Stmt.allHeight]
      omega

/-- A `for` is three levels high: a block, the loop and the block of its body. -/
theorem forRest_bounded (hi : inner.Bounded n) (start : Nat) :
    (forRest inner start).Gives fun s => s.height ≤ n + 6 := by
  refine gives_bind fun _ => (forInit_bounded hi).bind fun init hinit => ?_
  refine (forClause_bounded hi _).bind fun cond hcond => ?_
  refine (forClause_bounded hi _).bind fun increment hincrement => ?_
  refine hi.statement.bind fun body hbody => gives_bind fun span => ?_
  refine (withIncrement_bounded hbody hincrement).bind fun repeated hrepeated => ?_
  refine (orTrue_bounded hcond).bind fun cond hcond => gives_bind fun node => ?_
  have hloop : (Stmt.loop node cond repeated).height ≤ n + 5 := by
    rw [Stmt.height]
    omega
  exact withInit_bounded hloop hinit

theorem statement_bounded (hi : inner.Bounded n) :
    (statement inner).Gives fun s => s.height ≤ n + 6 := by
  refine gives_bind fun t => ?_
  dsimp only
  split
  · refine (braces_bounded hi).bind fun body hbody => gives_bind fun _ => ?_
    exact gives_pure (by rw [Stmt.height]; omega)
  · refine gives_bind fun _ => (expression_bounded hi).bind fun value hvalue => ?_
    exact gives_bind fun _ => gives_bind fun _ => gives_pure (by rw [Stmt.height]; omega)
  · exact gives_bind fun _ => returnRest_bounded hi _
  · exact gives_bind fun _ => ifRest_bounded hi _
  · refine gives_bind fun _ => (condition_bounded hi).bind fun cond hcond => ?_
    refine hi.statement.bind fun body hbody => gives_bind fun _ => ?_
    exact gives_pure (by rw [Stmt.height]; omega)
  · exact gives_bind fun _ => forRest_bounded hi _
  · refine (expression_bounded hi).bind fun value hvalue => ?_
    exact gives_bind fun _ => gives_bind fun _ => gives_pure (by rw [Stmt.height]; omega)

end Parser

namespace Levels

theorem exhausted_bounded (n : Nat) : exhausted.Bounded n where
  operand _ := fun _ _ _ h => by cases h
  value := fun _ _ _ h => by cases h
  statement := fun _ _ _ h => by cases h
  body := fun _ _ _ h => by cases h

/-- One level of nesting more adds three levels to the walk. -/
theorem next_bounded {inner : Levels} {n : Nat} (hi : inner.Bounded n) :
    inner.next.Bounded (n + 3) where
  operand floor := Parser.operand_bounded hi floor
  value := fun _ _ _ h => Nat.le_add_right_of_le (k := 2) (Parser.expression_bounded hi h)
  statement := Parser.statement_bounded hi
  body := fun _ _ _ h => Nat.le_add_right_of_le (k := 2) (Parser.braces_bounded hi h)

theorem ofDepth_bounded (n : Nat) : (ofDepth n).Bounded (3 * n) := by
  induction n with
  | zero => exact exhausted_bounded 0
  | succ n ih => exact next_bounded ih

end Levels

namespace Program

/-- What is read is not much more than three times as high as a text may nest. -/
theorem height_ofTokens_le (tokens : List Token) :
    Stmt.allHeight (ofTokens tokens).statements ≤ 3 * maxNesting + 3 := by
  have hitem := Parser.declaration_bounded (Levels.ofDepth_bounded maxNesting)
  rw [ofTokens_eq]
  exact Stmt.allHeight_le_iff.mpr (Parser.sequenceWithin_gives hitem _ _)

theorem stopped_resolve_ofTokens (tokens : List Token) :
    (resolve defaultLimit (ofTokens tokens).statements).stopped = none := by
  have hheight : Stmt.allHeight (ofTokens tokens).statements ≤ defaultLimit :=
    Nat.le_trans (height_ofTokens_le tokens) (by decide)
  rw [resolve_eq]
  exact Walk.program_completes hheight .start

/-- The walk over what is read from tokens, with faults or without, is not stopped at the default
limit, and no analysis with that limit is aborted. -/
theorem resolve_ofTokens_completes :
    (∀ tokens : List Token, (resolve defaultLimit (ofTokens tokens).statements).stopped = none) ∧
      ∀ (gate : Gate) (source : String),
        (Analysis.ofSource ⟨gate, defaultLimit⟩ source).aborted = none := by
  constructor
  · exact stopped_resolve_ofTokens
  · intro gate source
    unfold Analysis.ofSource
    dsimp only
    split
    · exact stopped_resolve_ofTokens _
    · rfl

end Program

end LamScope

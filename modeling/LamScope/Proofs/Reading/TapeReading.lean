import LamScope.Proofs.Reading.Rounds

/-!
# Reading by position

The reader of every construct performs the parser of that construct, at every level of nesting. It
follows from what their parts do; only where there is a loop, its rounds are compared first.
-/
namespace LamScope

namespace Tape

/-- The readers of a level perform the parsers of a level, whose statements take tokens. -/
class Levels.Perform (outer : Levels) (inner : LamScope.Levels) : Prop where
  operand : ∀ floor, Performs (outer.operand floor) (inner.operand floor)
  value : Performs outer.value inner.value
  statement : Performs outer.statement inner.statement
  body : Performs outer.body inner.body
  consumes : inner.statement.Consumes

namespace Reader

instance itemRound_performs {α : Type} (item : Nat → Reader α) (item' : Nat → Parser α)
    [∀ i, Performs (item i) (item' i)] (done : List α) :
    Performs (itemRound item done) (Parser.itemStep item' done) := by
  unfold itemRound Parser.itemStep
  infer_instance

theorem items_performs {α : Type} (item : Nat → Reader α) (item' : Nat → Parser α)
    [∀ i, Performs (item i) (item' i)] [∀ i, Parser.Advances (item' i)] :
    Performs (items item) fun c =>
      if c.isAt .rightParen then .ok [] c else Parser.commaList item' c := by
  have hitems : Performs (loop (itemRound item) []) fun c =>
      Parser.itemsAfter item' [] c.upcoming c := performs_loop (Parser.itemStep_repeats item') []
  have hloop : Performs (loop (itemRound item) []) (Parser.commaList item') := ⟨fun h => by
    rw [← Parser.itemsAfter_nil h.closed]
    exact hitems.performs h⟩
  exact performs_isAt .rightParen (pure []) (fun _ => loop (itemRound item) []) (pure [])
    fun _ => Parser.commaList item'

variable (inner : Levels) (inner' : LamScope.Levels) [h : inner.Perform inner'] [inner'.Advance]

instance (floor : Nat) : Performs (inner.operand floor) (inner'.operand floor) := h.operand floor
instance : Performs inner.value inner'.value := h.value
instance : Performs inner.statement inner'.statement := h.statement
instance : Performs inner.body inner'.body := h.body

instance (start : Nat) (value : Literal) :
    Performs (literal start value) (Parser.literal start value) := by
  unfold literal Parser.literal
  infer_instance

instance : Performs (expression inner) (Parser.expression inner') := by
  unfold expression Parser.expression
  apply performs_bind_of
  intro target
  cases target <;> infer_instance

instance (start : Nat) (op : UnaryOp) :
    Performs (unary inner start op) (Parser.unary inner' start op) := by
  unfold unary Parser.unary
  infer_instance

instance (start : Nat) : Performs (group inner start) (Parser.group inner' start) := by
  unfold group Parser.group
  infer_instance

instance : Performs (primary inner) (Parser.primary inner') := by
  unfold primary Parser.primary
  apply performs_bind_of
  intro t
  dsimp only
  generalize t.kind = kind
  cases kind with
  | number | string | name | endOfFile => infer_instance
  | keyword k => cases k <;> infer_instance
  | symbol s => cases s <;> infer_instance

instance (i : Nat) : Performs (argument inner i) (Parser.argument inner' i) := by
  unfold argument Parser.argument
  infer_instance

instance (callee : Expr) : Performs (callOn inner callee) (Parser.callOn inner' callee) := by
  have harguments : Performs (items (argument inner)) (Parser.arguments inner') :=
    items_performs (argument inner) (Parser.argument inner')
  unfold callOn Parser.callOn
  infer_instance

instance (object : Expr) : Performs (propertyOf object) (Parser.propertyOf object) := by
  unfold propertyOf Parser.propertyOf
  infer_instance

instance (o : Operator) (left : Expr) :
    Performs (operation inner o left) (Parser.operation inner' o left) := by
  unfold operation Parser.operation
  infer_instance

/-- An expression goes on in the same way. -/
theorem continuation?_performs (floor : Nat) (left : Expr) (kind : TokenKind) :
    Option.Rel Performs (continuation? inner floor left kind)
      (Parser.continuation? inner' floor left kind) := by
  unfold continuation?
  split
  · exact .some inferInstance
  · exact .some inferInstance
  · rename_i hparen hdot
    have hoperator : Parser.continuation? inner' floor left kind =
        (Operator.ofKind? kind).bind fun o =>
          if floor < o.precedence then some (Parser.operation inner' o left) else none := by
      unfold Parser.continuation?
      split
      · exact (hparen rfl).elim
      · exact (hdot rfl).elim
      · cases Operator.ofKind? kind <;> rfl
    rw [hoperator]
    cases Operator.ofKind? kind with
    | none => exact .none
    | some o =>
        rw [Option.bind_some]
        dsimp only
        split
        · exact .some inferInstance
        · exact .none

instance operatorRound_performs (floor : Nat) (left : Expr) :
    Performs (operatorRound inner floor left) (Parser.operatorStep inner' floor left) := by
  unfold operatorRound Parser.operatorStep
  apply performs_bind_of
  intro next
  have hmore := continuation?_performs inner inner' floor left next.kind
  generalize continuation? inner floor left next.kind = more at hmore
  generalize Parser.continuation? inner' floor left next.kind = more' at hmore
  cases hmore with
  | none => infer_instance
  | some h => infer_instance

instance (floor : Nat) : Performs (operand inner floor) (Parser.operand inner' floor) := by
  have hcontinued (first : Expr) :
      Performs (loop (operatorRound inner floor) first) (Parser.continued inner' floor first) :=
    performs_loop (Parser.operatorStep_repeats inner' floor) first
  unfold operand Parser.operand
  infer_instance

instance skipRound_performs (x : Extent) (u : Unit) :
    Performs (skipRound x u) (Parser.skipStep x u) where
  performs {tokens t c} h := by
    unfold skipRound Parser.skipStep
    rw [peek_bind h]
    by_cases hk : c.current.kind = .endOfFile
    · have hend : c.atEnd := by rw [Cursor.atEnd, h.kind_current_iff.mp hk]; rfl
      rw [if_pos hk, if_pos hend]
      exact ⟨_, Part.mem_some _, .ok h⟩
    · have hend : ¬ c.atEnd := by
        rw [Cursor.atEnd, List.isEmpty_iff, ← h.kind_current_iff]
        exact hk
      rw [if_neg hk, if_neg hend, bind_eq_of_eq (previous_eq h)]
      split
      · exact ⟨_, Part.mem_some _, .ok h⟩
      · have hagain : Performs (do take; return .again () : Reader (Round Unit Unit))
            (do Parser.take; return .again () : Parser (Round Unit Unit)) := inferInstance
        exact hagain.performs h

instance (x : Extent) : Performs (resume x) (Parser.resumed x) := by
  have hskipped : Performs (loop (skipRound x) ()) (Parser.skipped x) :=
    performs_loop (Parser.skipStep_repeats x) ()
  have hequation : Parser.resumed x = (do
      let next ← Parser.peek
      if x.endsAt next.kind then return ()
      else
        Parser.take
        Parser.skipped x) := by
    funext c
    obtain ⟨previous, upcoming, finish, faults, nextId⟩ := c
    cases upcoming with
    | nil =>
        simp only [Parser.resumed, Cursor.resume, Parser.bind_apply, Parser.peek]
        split <;> rfl
    | cons u us =>
        simp only [Parser.resumed, Cursor.resume, Parser.bind_apply, Parser.peek, Cursor.current]
        by_cases hx : x.endsAt u.kind <;> simp [hx, Parser.pure_apply, Parser.bind_apply,
          Parser.take, Parser.skipped, Cursor.advance]
  rw [hequation]
  unfold resume
  infer_instance

instance attempt_performs {α : Type} (q : Reader α) (p : Parser α) [Performs q p] :
    Performs (attempt q) (Parser.attempt p) where
  performs {tokens t c} h := by
    obtain ⟨answer, hanswer, hshows⟩ := Performs.performs (q := q) (p := p) h
    unfold Parser.attempt
    generalize p c = reply at hshows
    cases hshows with
    | ok hnext => exact ⟨_, Part.mem_map _ hanswer, .ok hnext⟩
    | failed hnext => exact ⟨_, Part.mem_map _ hanswer, .ok hnext⟩

instance : Performs countFaults Parser.countFaults where
  performs {tokens t c} h := by
    unfold countFaults Parser.countFaults
    rw [← h.faults]
    exact ⟨_, Part.mem_some _, .ok h⟩

instance statementRound_performs (x : Extent) (item : Reader Stmt) (item' : Parser Stmt)
    [Performs item item'] (done : List Stmt) :
    Performs (statementRound x item done) (Parser.statementStep x item' done) := by
  unfold statementRound Parser.statementStep
  apply performs_atEnd
  apply performs_bind_of
  intro read
  cases read <;> infer_instance

theorem statements_performs (x : Extent) (item : Reader Stmt) {item' : Parser Stmt}
    [Performs item item'] [Parser.Advances item'] (hitem : item'.Consumes) :
    Performs (statements x item) (Parser.statements x item') :=
  performs_loop (Parser.statementStep_repeats x hitem) []

instance (start : Nat) :
    Performs (variableRest inner start) (Parser.variableRest inner' start) := by
  unfold variableRest Parser.variableRest
  infer_instance

instance : Performs (callable inner) (Parser.callable inner') := by
  have hparameters : Performs (items fun _ => expectName) Parser.parameters :=
    items_performs (fun _ => expectName) fun _ => Parser.expectName
  unfold callable Parser.callable
  infer_instance

instance methodRound_performs (done : List Callable) :
    Performs (methodRound inner done) (Parser.methodStep inner' done) := by
  unfold methodRound Parser.methodStep
  exact performs_atEnd inferInstance

instance (start : Nat) : Performs (classRest inner start) (Parser.classRest inner' start) := by
  have hmethods : Performs (loop (methodRound inner) [])
      (Parser.many (·.isAt .rightBrace) (Parser.callable inner')) := by
    have hafter : Performs (loop (methodRound inner) []) fun c =>
        Parser.methodsAfter inner' [] c.upcoming c :=
      performs_loop (Parser.methodStep_repeats inner') []
    simp only [Parser.methodsAfter_nil] at hafter
    exact hafter
  unfold classRest Parser.classRest
  infer_instance

instance : Performs (declaration inner) (Parser.declaration inner') := by
  unfold declaration Parser.declaration
  apply performs_bind_of
  intro t
  dsimp only
  generalize t.kind = kind
  cases kind with
  | number | string | name | symbol | endOfFile => infer_instance
  | keyword k => cases k <;> infer_instance

instance : Performs (braces inner) (Parser.braces inner') := by
  have hbody : Performs (statements .braces (declaration inner))
      (Parser.statements .braces (Parser.declaration inner')) :=
    statements_performs .braces (declaration inner) (Parser.consumes_declaration h.consumes)
  rw [Parser.braces_eq]
  unfold braces
  infer_instance

instance : Performs (condition inner) (Parser.condition inner') := by
  unfold condition Parser.condition
  infer_instance

instance (start : Nat) : Performs (ifRest inner start) (Parser.ifRest inner' start) := by
  unfold ifRest Parser.ifRest
  infer_instance

instance (keyword : Word) :
    Performs (returnRest inner keyword) (Parser.returnRest inner' keyword) := by
  unfold returnRest Parser.returnRest
  infer_instance

instance : Performs (forInit inner) (Parser.forInit inner') := by
  unfold forInit Parser.forInit
  apply performs_bind_of
  intro t
  dsimp only
  generalize t.kind = kind
  cases kind with
  | number | string | name | endOfFile => infer_instance
  | keyword k => cases k <;> infer_instance
  | symbol s => cases s <;> infer_instance

instance (closer : Symbol) :
    Performs (forClause inner closer) (Parser.forClause inner' closer) := by
  unfold forClause Parser.forClause
  infer_instance

instance (span : Span) (body : Stmt) (increment : Option Expr) :
    Performs (withIncrement span body increment) (Parser.withIncrement span body increment) := by
  cases increment <;> unfold withIncrement Parser.withIncrement <;> infer_instance

instance (span : Span) (cond : Option Expr) :
    Performs (orTrue span cond) (Parser.orTrue span cond) := by
  cases cond <;> unfold orTrue Parser.orTrue <;> infer_instance

instance (span : Span) (loop : Stmt) (init : Option Stmt) :
    Performs (withInit span loop init) (Parser.withInit span loop init) := by
  cases init <;> unfold withInit Parser.withInit <;> infer_instance

instance (start : Nat) : Performs (forRest inner start) (Parser.forRest inner' start) := by
  have hend (init : Option Stmt) (cond increment : Option Expr) (body : Stmt) :
      Performs (do
        let span ← spanFrom start
        let body ← withIncrement span body increment
        let cond ← orTrue span cond
        let loop := Stmt.loop (← nodeAt span) cond body
        withInit span loop init) (do
        let span ← fun c => Reply.ok (Span.mk start c.previous.span.stop) c
        let body ← Parser.withIncrement span body increment
        let cond ← Parser.orTrue span cond
        let loop := Stmt.loop (← Parser.nodeAt span) cond body
        Parser.withInit span loop init) :=
    @performs_bind _ _ _ _ _ _ (spanFrom_performs start) fun span => inferInstance
  unfold forRest Parser.forRest
  infer_instance

instance : Performs (statement inner) (Parser.statement inner') := by
  unfold statement Parser.statement
  apply performs_bind_of
  intro t
  dsimp only
  generalize t.kind = kind
  cases kind with
  | number | string | name | endOfFile => infer_instance
  | keyword k => cases k <;> infer_instance
  | symbol s => cases s <;> infer_instance

instance {α : Type} : Performs (tooDeep : Reader α) Parser.tooDeep where
  performs h := by
    unfold tooDeep Parser.tooDeep
    rw [peek_bind h]
    exact ⟨_, Part.mem_some _, .failed h⟩

end Reader

namespace Levels

instance exhausted_perform : exhausted.Perform LamScope.Levels.exhausted where
  operand _ := inferInstanceAs (Performs Reader.tooDeep Parser.tooDeep)
  value := inferInstanceAs (Performs Reader.tooDeep Parser.tooDeep)
  statement := inferInstanceAs (Performs Reader.tooDeep Parser.tooDeep)
  body := inferInstanceAs (Performs Reader.tooDeep Parser.tooDeep)
  consumes := by
    intro c s d _ h
    cases h

instance ofDepth_perform (n : Nat) : (ofDepth n).Perform (LamScope.Levels.ofDepth n) := by
  induction n with
  | zero => exact exhausted_perform
  | succ n ih =>
      constructor
      · exact fun floor => inferInstanceAs (Performs (Reader.operand (ofDepth n) floor)
          (Parser.operand (LamScope.Levels.ofDepth n) floor))
      · exact inferInstanceAs (Performs (Reader.expression (ofDepth n))
          (Parser.expression (LamScope.Levels.ofDepth n)))
      · exact inferInstanceAs (Performs (Reader.statement (ofDepth n))
          (Parser.statement (LamScope.Levels.ofDepth n)))
      · exact inferInstanceAs (Performs (Reader.braces (ofDepth n))
          (Parser.braces (LamScope.Levels.ofDepth n)))
      · exact Parser.consumes_statement (LamScope.Levels.ofDepth_goes n)

end Levels

end Tape

end LamScope

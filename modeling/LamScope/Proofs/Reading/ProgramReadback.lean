import LamScope.Proofs.Reading.ExpressionReadback

/-!
# Programs are read back

Canonical statements are read from their own tokens if they do not nest too deep. A statement
that ends in an `if` without `else` is read back only if no `else` follows it, which holds in a
sequence, as no statement starts with one. Main statement: a list of tokens that is written like
a list of canonical statements is read without a fault, and as these statements.
-/
namespace LamScope

open Grammar

/-- Kinds of tokens that a declaration or another statement may start with. -/
def Grammar.opensStatement (declaration : Bool) : TokenKind → Bool
  | .keyword .var_ | .keyword .fun_ | .keyword .class_ => declaration
  | .symbol .leftBrace | .keyword .print_ | .keyword .return_ => !declaration
  | .keyword .if_ | .keyword .while_ => !declaration
  | kind => !declaration && opensExpression kind

namespace Grammar

theorem opensStatement_of_opensExpression {kind : TokenKind} (h : opensExpression kind) :
    opensStatement false kind := by
  unfold opensStatement
  split
  · cases h
  · cases h
  · cases h
  · rfl
  · rfl
  · rfl
  · rfl
  · rfl
  · simpa using h

theorem ne_else_of_opensStatement {declaration : Bool} {kind : TokenKind}
    (h : opensStatement declaration kind) : kind ≠ .keyword .else_ := by
  rintro rfl
  cases declaration <;> cases h

theorem ne_rightBrace_of_opensStatement {declaration : Bool} {kind : TokenKind}
    (h : opensStatement declaration kind) : kind ≠ .symbol .rightBrace := by
  rintro rfl
  cases declaration <;> cases h

end Grammar

namespace Stmt

/-- The same tree but for node numbers and spans. -/
def Alike (s s' : Stmt) : Prop := s'.bare = s.bare

/-- What may follow the statement. -/
def Follows (s : Stmt) (kind : TokenKind) : Prop := s.dangles = true → kind ≠ .keyword .else_

/-- The statement is read back where any declaration may stand. -/
def DeclarationReads (s : Stmt) : Prop :=
  ∀ ⦃n : Nat⦄, s.nesting ≤ n →
    (Parser.declaration (.ofDepth n)).Reads s.marks s.Follows s.Alike

/-- The statement is read back where no declaration may stand. -/
def StatementReads (s : Stmt) : Prop :=
  ∀ ⦃n : Nat⦄, s.nesting ≤ n → (Levels.ofDepth n).statement.Reads s.marks s.Follows s.Alike

theorem exists_marks_eq_cons (s : Stmt) :
    ∃ m ms, s.marks = m :: ms ∧ opensStatement s.isDeclaration m.kind := by
  cases s with
  | expr _ value =>
      obtain ⟨m, ms, hm, ho⟩ := value.exists_marks_eq_cons
      refine ⟨m, ms ++ [.symbol .semicolon], ?_, opensStatement_of_opensExpression ho⟩
      rw [marks, hm, List.cons_append]
  | _ => exact ⟨_, _, rfl, rfl⟩

theorem ahead_allMarks (ss : List Stmt) {mid after : TokenKind → Prop}
    (h : ∀ declaration kind, opensStatement declaration kind → mid kind)
    (ha : ∀ kind, after kind → mid kind) : Ahead mid (allMarks ss) after := by
  cases ss with
  | nil => exact ha
  | cons s ss =>
      obtain ⟨m, ms, hm, ho⟩ := s.exists_marks_eq_cons
      rw [allMarks, hm]
      exact h _ _ ho

theorem allNesting_le_iff {ss : List Stmt} {n : Nat} :
    allNesting ss ≤ n ↔ ∀ s ∈ ss, s.nesting ≤ n := by
  induction ss with
  | nil => simp [allNesting]
  | cons s ss ih => rw [allNesting, Nat.max_le, ih, List.forall_mem_cons]

theorem nesting_pos {s : Stmt} (h : s.isDeclaration = false) : 0 < s.nesting := by
  cases s with
  | var | function | classDef => cases h
  | _ => exact Nat.succ_pos _

end Stmt

/-- The function or method is read back from its name on. -/
def Callable.CallableReads (decl : Callable) : Prop :=
  ∀ ⦃n : Nat⦄, Stmt.callableNesting decl ≤ n →
    (Parser.callable (.ofDepth n)).Reads (Stmt.callableMarks decl) (fun _ => True)
      (Stmt.callableBare · = Stmt.callableBare decl)

namespace Parser
variable {n : Nat} {node : Node}

theorem declaration_reads {s : Stmt} (h : s.StatementReads) (hd : s.isDeclaration = false) :
    s.DeclarationReads := by
  intro n hn
  obtain ⟨m, ms, hm, ho⟩ := s.exists_marks_eq_cons
  have hr := h hn
  rw [hm] at hr ⊢
  rw [hd] at ho
  unfold declaration
  refine reads_peek_bind (· = m.kind) rfl fun t ht => ?_
  rw [← ht] at ho
  dsimp only
  split
  · rename_i hk
    rw [hk] at ho
    cases ho
  · rename_i hk
    rw [hk] at ho
    cases ho
  · rename_i hk
    rw [hk] at ho
    cases ho
  · exact hr

/-- Where a sequence goes on or ends, no `else` stands. -/
theorem kindAt_ne_else {x : Extent} {ss : List Stmt} {c : Cursor} {ts rest : List Token}
    (hc : c.Closed) (hts : ts.map Token.mark = Stmt.allMarks ss)
    (hend : rest = [] ∨ x.endsAt (c.kindAt rest) = true) :
    c.kindAt (ts ++ rest) ≠ .keyword .else_ := by
  have hrest : c.kindAt rest ≠ .keyword .else_ := by
    intro he
    rcases hend with rfl | hend
    · have hfinish : c.kindAt [] = .endOfFile := hc
      rw [hfinish] at he
      cases he
    · simp [Extent.endsAt, he] at hend
  have ha : Ahead (· ≠ .keyword .else_) (Stmt.allMarks ss) (· = c.kindAt rest) :=
    Stmt.ahead_allMarks ss (fun _ _ ho => ne_else_of_opensStatement ho) fun _ hk => hk ▸ hrest
  exact ha.current (c := { c with upcoming := ts ++ rest }) rfl hts rfl

/-- A sequence does not end where a statement starts. -/
theorem not_ends_of_opensStatement {x : Extent} {c : Cursor} {t : Token} {ts : List Token}
    {declaration : Bool} (hu : c.upcoming = t :: ts) (ho : opensStatement declaration t.kind) :
    (c.atEnd || x.endsAt c.current.kind) = false := by
  have hne := ne_rightBrace_of_opensStatement ho
  rw [Cursor.current_eq hu]
  simpa [Cursor.atEnd, hu, Extent.endsAt] using fun _ => hne

theorem sequenceWithin_reads {x : Extent} {item : Parser Stmt} {ss : List Stmt}
    (h : ∀ s ∈ ss, item.Reads s.marks s.Follows s.Alike) {bound : List Token} {c : Cursor}
    {ts rest : List Token} (hc : c.Closed) (hu : c.upcoming = ts ++ rest)
    (hts : ts.map Token.mark = Stmt.allMarks ss)
    (hend : rest = [] ∨ x.endsAt (c.kindAt rest) = true) (hb : ts.length ≤ bound.length) :
    ∃ ss' d, sequenceWithin x item bound c = (ss', d) ∧ d.upcoming = rest ∧
      d.finish = c.finish ∧ d.faults = c.faults ∧ Stmt.allBare ss' = Stmt.allBare ss := by
  induction ss generalizing bound c ts with
  | nil =>
      obtain rfl := List.map_eq_nil_iff.mp hts
      refine ⟨[], c, ?_, hu, rfl, rfl, rfl⟩
      cases bound with
      | nil => rfl
      | cons t bound =>
          rw [sequenceWithin, if_pos]
          rw [Cursor.kind_current, hu, List.nil_append]
          rcases hend with rfl | hend
          · simp [Cursor.atEnd, hu]
          · simp [hend]
  | cons s ss ih =>
      obtain ⟨us, vs, rfl, hus, hvs⟩ := List.map_eq_append_iff.mp hts
      obtain ⟨m, ms, hm, ho⟩ := s.exists_marks_eq_cons
      rw [List.append_assoc] at hu
      have hfollow : s.Follows (c.kindAt (vs ++ rest)) := fun _ => kindAt_ne_else hc hvs hend
      obtain ⟨s', d, ht, hd, hs'⟩ := h s List.mem_cons_self c us (vs ++ rest) hc hu hus hfollow
      rw [hm] at hus
      obtain ⟨t, us, rfl, rfl, rfl⟩ := List.map_eq_cons_iff.mp hus
      cases bound with
      | nil => simp at hb
      | cons b bound =>
          rw [List.length_append, List.length_cons, List.length_cons] at hb
          have hk : d.kindAt rest = c.kindAt rest := by rw [Cursor.kindAt, ht.finish, Cursor.kindAt]
          have hb' : vs.length ≤ bound.length := by omega
          obtain ⟨ss', e, hrun, he, hfinish, hfaults, hss'⟩ := ih
            (fun s hs => h s (List.mem_cons_of_mem _ hs)) ht.closed_next hd hvs (hk ▸ hend) hb'
          refine ⟨s' :: ss', e, ?_, he, hfinish.trans ht.finish, hfaults.trans ht.faults, ?_⟩
          · rw [sequenceWithin, not_ends_of_opensStatement hu ho, ht.reply]
            simp [hrun]
          · rw [Stmt.allBare, Stmt.allBare, hs', hss']

theorem braces_reads {body : List Stmt} (h : ∀ s ∈ body, s.DeclarationReads)
    (hn : Stmt.allNesting body ≤ n) :
    (braces (.ofDepth n)).Reads
      (.symbol .leftBrace :: (Stmt.allMarks body ++ [.symbol .rightBrace])) (fun _ => True)
      (Stmt.allBare · = Stmt.allBare body) := by
  have hbody : (statements .braces (declaration (.ofDepth n))).Reads (Stmt.allMarks body)
      (· = .symbol .rightBrace) (Stmt.allBare · = Stmt.allBare body) := by
    intro c ts rest hc hu hts hafter
    have hend : Extent.braces.endsAt (c.kindAt rest) = true := by
      rw [hafter]
      rfl
    have hb : ts.length ≤ c.upcoming.length := by
      rw [hu, List.length_append]
      exact Nat.le_add_right _ _
    obtain ⟨ss, d, hrun, hd, hfinish, hfaults, hss⟩ := sequenceWithin_reads
      (fun s hs => h s hs (Stmt.allNesting_le_iff.mp hn s hs)) hc hu hts (.inr hend) hb
    have hreply : sequence .braces (declaration (.ofDepth n)) c = (ss, d) := hrun
    refine ⟨ss, d, ⟨hc, ?_, by rw [hu, hd], hfinish, hfaults⟩, hd, hss⟩
    rw [statements, hreply]
  rw [braces_eq]
  refine reads_expect_bind (hbody.bind rfl fun body' hb => ?_)
  exact reads_expect_bind (reads_pure hb)

theorem parameters_reads (names : List Word) :
    parameters.Reads (TokenMark.listed (fun w => [.name w]) names) (· = .symbol .rightParen)
      (· = names) := by
  have h : parameters.Reads (TokenMark.listed (fun w => [.name w]) names) (· = .symbol .rightParen)
      (·.map id = names.map id) := by
    have hname : ∀ j < names.length, ∀ w ∈ names,
        expectName.Reads [.name w] Separates (id · = id w) := fun _ _ w _ =>
      reads_expectName.weaken (fun _ _ => trivial) fun _ hw => hw
    refine listed_reads (fun _ => rfl) hname (fun w _ ns => ?_) (Nat.le_refl _)
    exact (nofun : TokenKind.name ≠ .symbol .rightParen)
  simpa only [List.map_id] using h

theorem callable_reads {name : Word} {params : List Word} {body : List Stmt}
    (hlen : params.length ≤ maxArguments) (h : ∀ s ∈ body, s.DeclarationReads) :
    Callable.CallableReads ⟨name, params, body⟩ := by
  intro n hn
  cases n with
  | zero => cases hn
  | succ n =>
      have hb := braces_reads h (Nat.le_of_succ_le_succ hn)
      rw [Stmt.callableMarks]
      simp only [List.cons_append, List.append_assoc]
      unfold callable
      refine reads_expectName_bind (reads_expect_bind ?_)
      refine (parameters_reads params).bind rfl fun params' hp => reads_expect_bind ?_
      refine Reads.bind_last hb (fun _ _ => trivial) fun body' hb' => ?_
      have hfew : ¬ maxArguments < Callable.arity ⟨name, params, body'⟩ := Nat.not_lt_of_le hlen
      rw [hp]
      simp only [if_neg hfew]
      refine reads_pure ?_
      rw [Stmt.callableBare, Stmt.callableBare, hb']

theorem manyWithin_reads {decls : List Callable} {bound : List Token}
    (h : ∀ c ∈ decls, c.CallableReads) (hn : Stmt.methodsNesting decls ≤ n)
    (hb : (Stmt.methodMarks decls).length ≤ bound.length) :
    (manyWithin (·.isAt .rightBrace) (callable (.ofDepth n)) bound).Reads
      (Stmt.methodMarks decls) (· = .symbol .rightBrace)
      (Stmt.methodsBare · = Stmt.methodsBare decls) := by
  induction decls generalizing bound with
  | nil =>
      cases bound with
      | nil => exact reads_pure rfl
      | cons t bound =>
          refine reads_of_eq (· = .symbol .rightBrace) (fun _ hk => hk) fun c _ hk =>
            ⟨pure [], ?_, reads_pure rfl⟩
          rw [manyWithin_cons, if_pos (by simp [Cursor.isAt, hk])]
          rfl
  | cons decl decls ih =>
      obtain ⟨name, params, body⟩ := decl
      rw [Stmt.methodsNesting] at hn
      rw [Stmt.methodMarks] at hb ⊢
      cases bound with
      | nil => simp [Stmt.callableMarks] at hb
      | cons t bound =>
          have hdecl := h _ List.mem_cons_self (Nat.le_trans (Nat.le_max_left ..) hn)
          have hb' : (Stmt.methodMarks decls).length ≤ bound.length := by
            rw [Stmt.callableMarks] at hb
            simp only [List.cons_append, List.length_cons, List.length_append] at hb
            omega
          have hdecls := ih (fun c hc => h c (List.mem_cons_of_mem _ hc))
            (Nat.le_trans (Nat.le_max_right ..) hn) hb'
          refine reads_of_eq (· = .name) rfl fun c hc hk => ⟨_, ?_, Reads.followed
            hdecl fun decl' hd => Reads.bind_last hdecls (fun _ hk => hk) fun decls' hds =>
              reads_pure (a := decl' :: decls') ?_⟩
          · have hu := c.upcoming_eq_cons hc (by simp [hk])
            rw [manyWithin_cons, if_neg (by simp [Cursor.isAt, Cursor.atEnd, hk, hu])]
          · rw [Stmt.methodsBare, Stmt.methodsBare, hd, hds]

theorem classDef_reads {name : Word} {decls : List Callable}
    (h : ∀ c ∈ decls, c.CallableReads) : (Stmt.classDef node name decls).DeclarationReads := by
  intro n hn
  have hmethods : (many (·.isAt .rightBrace) (callable (.ofDepth n))).Reads
      (Stmt.methodMarks decls) (· = .symbol .rightBrace)
      (Stmt.methodsBare · = Stmt.methodsBare decls) :=
    reads_of_bound fun _ hb => manyWithin_reads h hn hb
  rw [Stmt.marks]
  unfold declaration
  refine reads_peek_bind_cons fun t ht => ?_
  rw [Token.kind_of_mark ht]
  refine reads_take_bind ?_
  unfold classRest
  refine reads_expectName_bind (reads_expect_bind ?_)
  refine hmethods.bind rfl fun decls' hd => ?_
  refine reads_expect_bind (reads_closeNode_bind fun node' => reads_pure ?_)
  exact congrArg (Stmt.classDef default name) hd

theorem function_reads {decl : Callable} (h : decl.CallableReads) :
    (Stmt.function node decl).DeclarationReads := by
  intro n hn
  rw [Stmt.marks]
  unfold declaration
  refine reads_peek_bind_cons fun t ht => ?_
  rw [Token.kind_of_mark ht]
  refine reads_take_bind ?_
  refine Reads.bind_last (h hn) (fun _ _ => trivial) fun decl' hd => ?_
  exact reads_closeNode_bind fun node' => reads_pure (congrArg (Stmt.function default) hd)

/-- A clause that is there. -/
theorem clause_reads {e : Expr} (h : e.Canonical) (hn : e.nesting ≤ n) :
    (some <$> expression (.ofDepth n)).Reads e.marks Closes (·.map Expr.bare = some e.bare) :=
  (e.reads h).2 hn |>.map fun _ he => congrArg some he

theorem variableRest_reads {name : Word} {init : Option Expr} {start : Nat} {ms : List TokenMark}
    (h : Expr.ClauseCanonical init) (hn : Expr.clauseNesting init ≤ n)
    (hm : (Stmt.var node name init).marks = .keyword .var_ :: ms) :
    (variableRest (.ofDepth n) start).Reads ms (Stmt.var node name init).Follows
      (Stmt.var node name init).Alike := by
  unfold variableRest
  cases init with
  | none =>
      obtain ⟨-, rfl⟩ := List.cons.inj hm
      refine reads_expectName_bind ?_
      refine reads_decline_bind (nofun : TokenKind.symbol .semicolon ≠ .symbol .equal) ?_
      exact reads_expect_bind (reads_closeNode_bind fun node' => reads_pure rfl)
  | some e =>
      obtain ⟨-, rfl⟩ := List.cons.inj hm
      refine reads_expectName_bind (reads_accept_bind ?_)
      refine (clause_reads h hn).bind closes_semicolon fun init' hi => ?_
      refine reads_expect_bind (reads_closeNode_bind fun node' => reads_pure ?_)
      exact congrArg (Stmt.var default name) hi

theorem var_reads {name : Word} {init : Option Expr} (h : Expr.ClauseCanonical init) :
    (Stmt.var node name init).DeclarationReads := by
  intro n hn
  obtain ⟨ms, hm⟩ : ∃ ms, (Stmt.var node name init).marks = .keyword .var_ :: ms := by
    cases init <;> exact ⟨_, rfl⟩
  rw [hm]
  unfold declaration
  refine reads_peek_bind_cons fun t ht => ?_
  rw [Token.kind_of_mark ht]
  exact reads_take_bind (variableRest_reads h hn hm)

theorem statementReads_of_next {s : Stmt} (hd : s.isDeclaration = false)
    (h : ∀ n, s.nesting ≤ n + 1 → (statement (.ofDepth n)).Reads s.marks s.Follows s.Alike) :
    s.StatementReads := by
  intro n hn
  cases n with
  | zero => exact absurd (Stmt.nesting_pos hd) (Nat.not_lt_of_le hn)
  | succ n => exact h n hn

theorem block_reads {body : List Stmt} (h : ∀ s ∈ body, s.DeclarationReads) :
    (Stmt.block node body).StatementReads := by
  refine statementReads_of_next rfl fun n hn => ?_
  have hb := braces_reads h (Nat.le_of_succ_le_succ hn)
  rw [Stmt.marks, List.cons_append]
  unfold statement
  refine reads_peek_bind_cons fun t ht => ?_
  rw [Token.kind_of_mark ht]
  refine Reads.bind_last hb (fun _ _ => trivial) fun body' hb' => ?_
  exact reads_closeNode_bind fun node' => reads_pure (congrArg (Stmt.block default) hb')

theorem expr_reads {value : Expr} (h : value.Canonical) :
    (Stmt.expr node value).StatementReads := by
  refine statementReads_of_next rfl fun n hn => ?_
  have hv := (value.reads h).2 (Nat.le_of_succ_le_succ hn)
  have hr : ∀ start, (do
      let value ← expression (.ofDepth n)
      expect .semicolon
      return .expr (← closeNode start) value : Parser Stmt).Reads (Stmt.expr node value).marks
        (Stmt.expr node value).Follows (Stmt.expr node value).Alike := by
    intro start
    rw [Stmt.marks]
    refine hv.bind closes_semicolon fun value' hv' => ?_
    refine reads_expect_bind (reads_closeNode_bind fun node' => reads_pure ?_)
    exact congrArg (Stmt.expr default) hv'
  unfold statement
  refine reads_peek_bind (opensExpression ·) (value.ahead_marks _ fun _ ho => ho)
    fun t ht => ?_
  dsimp only
  split
  case h_7 => exact hr t.span.start
  all_goals
    rename_i hk
    rw [hk] at ht
    cases ht

theorem print_reads {value : Expr} (h : value.Canonical) :
    (Stmt.print node value).StatementReads := by
  refine statementReads_of_next rfl fun n hn => ?_
  have hv := (value.reads h).2 (Nat.le_of_succ_le_succ hn)
  rw [Stmt.marks, List.cons_append]
  unfold statement
  refine reads_peek_bind_cons fun t ht => ?_
  rw [Token.kind_of_mark ht]
  refine reads_take_bind (hv.bind closes_semicolon fun value' hv' => ?_)
  refine reads_expect_bind (reads_closeNode_bind fun node' => reads_pure ?_)
  exact congrArg (Stmt.print default) hv'

theorem condition_reads {cond : Expr} (h : cond.Canonical) (hn : cond.nesting ≤ n) :
    (condition (.ofDepth n)).Reads
      (.symbol .leftParen :: (cond.marks ++ [.symbol .rightParen])) (fun _ => True)
      cond.Alike := by
  unfold condition
  refine reads_expect_bind (((cond.reads h).2 hn).bind closes_rightParen fun cond' hc => ?_)
  exact reads_expect_bind (reads_pure hc)

theorem loop_reads {cond : Expr} {body : Stmt} (hc : cond.Canonical) (hb : body.StatementReads) :
    (Stmt.loop node cond body).StatementReads := by
  refine statementReads_of_next rfl fun n hn => ?_
  rw [Stmt.nesting] at hn
  have hcond := condition_reads hc (n := n) (by omega)
  have hbody := hb (n := n) (by omega)
  have hm : (Stmt.loop node cond body).marks = .keyword .while_ ::
      ((.symbol .leftParen :: (cond.marks ++ [.symbol .rightParen])) ++ body.marks) := by
    simp [Stmt.marks]
  rw [hm]
  unfold statement
  refine reads_peek_bind_cons fun t ht => ?_
  rw [Token.kind_of_mark ht]
  refine reads_take_bind (hcond.followed fun cond' hc' => ?_)
  refine Reads.bind_last hbody (fun _ hk => hk) fun body' hb' => ?_
  exact reads_closeNode_bind fun node' => reads_pure
    (congr (congrArg (Stmt.loop default) hc') hb' :)

theorem ret_reads {keyword : Word} {value : Option Expr} (h : Expr.ClauseCanonical value) :
    (Stmt.ret node keyword value).StatementReads := by
  refine statementReads_of_next rfl fun n hn => ?_
  have hv := Nat.le_of_succ_le_succ hn
  rw [Stmt.marks, List.cons_append]
  unfold statement
  refine reads_peek_bind_cons fun t ht => ?_
  have hk : t.kind = .keyword .return_ := Token.kind_of_mark ht
  rw [hk, Token.word_of_mark_returning ht]
  refine reads_take_bind ?_
  unfold returnRest
  cases value with
  | none =>
      refine reads_peek_bind (· = .symbol .semicolon) rfl fun t ht => ?_
      simp only [if_pos ht]
      exact reads_expect_bind (reads_closeNode_bind fun node' => reads_pure rfl)
  | some e =>
      refine reads_peek_bind (· ≠ .symbol .semicolon) (e.ahead_marks _ ?_) fun t ht => ?_
      · rintro _ hk rfl
        cases hk
      · simp only [if_neg ht]
        refine (clause_reads h hv).bind closes_semicolon fun value' hv' => ?_
        refine reads_expect_bind (reads_closeNode_bind fun node' => reads_pure ?_)
        exact congrArg (Stmt.ret default keyword) hv'

theorem ifThen_reads {cond : Expr} {body : Stmt} (hc : cond.Canonical)
    (hb : body.StatementReads) : (Stmt.ifThen node cond body).StatementReads := by
  refine statementReads_of_next rfl fun n hn => ?_
  rw [Stmt.nesting] at hn
  have hcond := condition_reads hc (n := n) (by omega)
  have hbody := hb (n := n) (by omega)
  have hm : (Stmt.ifThen node cond body).marks = .keyword .if_ ::
      ((.symbol .leftParen :: (cond.marks ++ [.symbol .rightParen])) ++ body.marks) := by
    simp [Stmt.marks]
  rw [hm]
  unfold statement
  refine reads_peek_bind_cons fun t ht => ?_
  rw [Token.kind_of_mark ht]
  refine reads_take_bind ?_
  unfold ifRest
  refine hcond.followed fun cond' hc' => ?_
  refine Reads.bind_last hbody (fun _ hk _ => hk rfl) fun body' hb' => ?_
  refine reads_peek_bind (· ≠ .keyword .else_) (fun _ hk => hk rfl) fun t ht => ?_
  rw [if_neg ht]
  exact reads_closeNode_bind fun node' => reads_pure
    (congr (congrArg (Stmt.ifThen default) hc') hb' :)

theorem ifThenElse_reads {cond : Expr} {body otherwise : Stmt} (hc : cond.Canonical)
    (hd : body.dangles = false) (hb : body.StatementReads) (ho : otherwise.StatementReads) :
    (Stmt.ifThenElse node cond body otherwise).StatementReads := by
  refine statementReads_of_next rfl fun n hn => ?_
  rw [Stmt.nesting] at hn
  have hcond := condition_reads hc (n := n) (by omega)
  have hbody := hb (n := n) (by omega)
  have hother := ho (n := n) (by omega)
  have hm : (Stmt.ifThenElse node cond body otherwise).marks = .keyword .if_ ::
      ((.symbol .leftParen :: (cond.marks ++ [.symbol .rightParen])) ++
        (body.marks ++ .keyword .else_ :: otherwise.marks)) := by simp [Stmt.marks]
  rw [hm]
  unfold statement
  refine reads_peek_bind_cons fun t ht => ?_
  rw [Token.kind_of_mark ht]
  refine reads_take_bind ?_
  unfold ifRest
  refine hcond.followed fun cond' hc' => ?_
  refine hbody.bind (fun hdangles => ?_) fun body' hb' => ?_
  · rw [hd] at hdangles
    cases hdangles
  refine reads_peek_bind (· = .keyword .else_) rfl fun t ht => ?_
  rw [if_pos ht]
  refine reads_take_bind (Reads.bind_last hother (fun _ hk => hk) fun otherwise' ho' => ?_)
  exact reads_closeNode_bind fun node' => reads_pure
    (congr (congr (congrArg (Stmt.ifThenElse default) hc') hb') ho' :)

end Parser

open LamScope.Parser

mutual

theorem Stmt.reads : ∀ s : Stmt, s.Canonical →
    s.DeclarationReads ∧ (s.isDeclaration = false → s.StatementReads)
  | .block _ body, h =>
      have hr := block_reads (allRead body h)
      ⟨declaration_reads hr rfl, fun _ => hr⟩
  | .var .., h => ⟨var_reads h, nofun⟩
  | .function _ decl, h => ⟨function_reads (callableReads decl h), nofun⟩
  | .expr .., h => ⟨declaration_reads (expr_reads h) rfl, fun _ => expr_reads h⟩
  | .print .., h => ⟨declaration_reads (print_reads h) rfl, fun _ => print_reads h⟩
  | .ifThen _ _ body, h =>
      have hr := ifThen_reads h.1 ((body.reads h.2.2).2 h.2.1)
      ⟨declaration_reads hr rfl, fun _ => hr⟩
  | .ifThenElse _ _ body otherwise, h =>
      have hr := ifThenElse_reads h.1 h.2.2.1 ((body.reads h.2.2.2.1).2 h.2.1)
        ((otherwise.reads h.2.2.2.2.2).2 h.2.2.2.2.1)
      ⟨declaration_reads hr rfl, fun _ => hr⟩
  | .ret .., h => ⟨declaration_reads (ret_reads h) rfl, fun _ => ret_reads h⟩
  | .loop _ _ body, h =>
      have hr := loop_reads h.1 ((body.reads h.2.2).2 h.2.1)
      ⟨declaration_reads hr rfl, fun _ => hr⟩
  | .classDef _ _ methods, h => ⟨classDef_reads (methodsRead methods h), nofun⟩

theorem Stmt.allRead : ∀ ss : List Stmt, AllCanonical ss → ∀ s ∈ ss, s.DeclarationReads
  | [], _ => nofun
  | s :: ss, h => List.forall_mem_cons.mpr ⟨(s.reads h.1).1, allRead ss h.2⟩

theorem Stmt.callableReads : ∀ decl : Callable, CallableCanonical decl → decl.CallableReads
  | ⟨_, _, body⟩, h => callable_reads h.1 (allRead body h.2)

theorem Stmt.methodsRead : ∀ decls : List Callable, MethodsCanonical decls →
    ∀ decl ∈ decls, decl.CallableReads
  | [], _ => nofun
  | decl :: decls, h => List.forall_mem_cons.mpr ⟨callableReads decl h.1, methodsRead decls h.2⟩

end

/-- Tokens that are written like canonical statements are read as these statements. -/
theorem Program.ofTokens_readback {tokens : List Token} {ss : List Stmt}
    (hc : Stmt.AllCanonical ss) (hn : Stmt.allNesting ss ≤ maxNesting)
    (hm : (tokens.takeWhile fun t => t.kind != .endOfFile).map Token.mark = Stmt.allMarks ss) :
    (ofTokens tokens).faults = [] ∧
      Stmt.allBare (ofTokens tokens).statements = Stmt.allBare ss := by
  have hu : (Cursor.ofTokens tokens).upcoming =
      (tokens.takeWhile fun t => t.kind != .endOfFile) ++ [] := by
    rw [List.append_nil]
    rfl
  have hb : (tokens.takeWhile fun t => t.kind != .endOfFile).length ≤
      (Cursor.ofTokens tokens).upcoming.length :=
    Nat.le_of_eq (by rw [hu, List.append_nil])
  obtain ⟨ss', d, hrun, -, -, hf, hss⟩ := sequenceWithin_reads (x := .file)
    (fun s hs => Stmt.allRead ss hc s hs (Stmt.allNesting_le_iff.mp hn s hs))
    (Cursor.closed_ofTokens tokens) hu hm (.inl rfl) hb
  have hreply : sequence .file (declaration (.ofDepth maxNesting)) (.ofTokens tokens) = (ss', d) :=
    hrun
  rw [ofTokens_eq, hreply]
  exact ⟨hf, hss⟩

/-- `if (x) { if (x) ((x)); } else x().x = x = x - x - -x;` with as many parentheses as the
deepest level allows. -/
theorem Program.ofTokens_readback_deepest :
    let x : Word := ⟨"x", 1, ⟨0, 1⟩⟩
    let read := Expr.read default x
    let deep := Nat.repeat (Expr.group default) 123 read
    let difference := Expr.binary default .sub (.binary default .sub read read)
      (.unary default .neg read)
    let ss : List Stmt := [.ifThenElse default read
      (.block default [.ifThen default read (.expr default deep)])
      (.expr default (.setProperty default (.call default read []) x
        (.assign default x difference)))]
    let tokens := (Stmt.allMarks ss).map TokenMark.token
    Stmt.allNesting ss = maxNesting ∧ (ofTokens tokens).faults = [] ∧
      Stmt.allBare (ofTokens tokens).statements = Stmt.allBare ss := by
  intro x read deep difference ss tokens
  have hdeep : deep.Canonical := trivial
  have hdifference : difference.Canonical :=
    ⟨by decide, by decide, ⟨by decide, by decide, trivial, trivial⟩, by decide, trivial⟩
  have hcall : (Expr.call default read []).Canonical := ⟨by decide, by decide, trivial, trivial⟩
  have hif : (Stmt.ifThen default read (.expr default deep)).Canonical := ⟨trivial, rfl, hdeep⟩
  have hc : Stmt.AllCanonical ss :=
    ⟨⟨trivial, rfl, rfl, ⟨hif, trivial⟩, rfl, by decide, hcall, hdifference⟩, trivial⟩
  have hn : Stmt.allNesting ss = maxNesting := by decide +kernel
  exact ⟨hn, ofTokens_readback hc (Nat.le_of_eq hn) (by decide +kernel)⟩

end LamScope

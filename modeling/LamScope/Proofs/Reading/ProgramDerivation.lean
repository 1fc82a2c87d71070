import LamScope.Proofs.Reading.ExpressionDerivation

/-!
# Readings of programs are derivations

What the parsers of statements and declarations take without a fault is derivable, level by level
of nesting, and so is every program that is read without a fault: its tokens before the end of
the file are a derivation, and its statements are the tree of that derivation. How a literal was
written the tree does not tell.
-/
namespace LamScope

open Grammar

namespace Grammar

theorem Body.ne_nil {ts : List Token} {body : List Stmt} (h : Body ts body) : ts ≠ [] := by
  cases h
  simp

theorem Statement.ne_nil {dangling : Bool} {ts : List Token} {s : Stmt}
    (h : Statement dangling ts s) : ts ≠ [] := by
  cases h
  case block hb => exact hb.ne_nil
  all_goals simp

theorem Declaration.ne_nil {ts : List Token} {s : Stmt} (h : Declaration ts s) : ts ≠ [] := by
  cases h
  case statement hs => exact hs.ne_nil
  all_goals simp

end Grammar

namespace Parser
variable {inner : Levels} [inner.Advance] {c d : Cursor} {ts : List Token} {s : Stmt}

/-- A sequence that notes no fault is made of declarations and stops where it should. -/
theorem sequenceWithin_derives {x : Extent} {item : Parser Stmt} [Advances item]
    (hi : ∀ {c d ts s}, item.Takes c ts s d → Declaration ts s) {bound : List Token}
    {body : List Stmt} (hc : c.Closed) (hb : c.upcoming.length ≤ bound.length)
    (h : sequenceWithin x item bound c = (body, d)) (hf : d.faults = c.faults) :
    ∃ ts, Declarations ts body ∧ c.upcoming = ts ++ d.upcoming ∧
      (d.atEnd = true ∨ x.endsAt d.current.kind = true) := by
  induction bound generalizing c body with
  | nil =>
      have hu : c.upcoming = [] := List.length_eq_zero_iff.mp (Nat.le_zero.mp hb)
      cases h
      exact ⟨[], .none, rfl, .inl (by simp [Cursor.atEnd, hu])⟩
  | cons t bound ih =>
      unfold sequenceWithin at h
      split at h
      · rename_i hend
        cases h
        exact ⟨[], .none, rfl, by simpa using hend⟩
      split at h
      · rename_i s c₁ h₁
        have hd := sequenceWithin_leads x item bound c₁
        cases hs : sequenceWithin x item bound c₁ with
        | mk others last =>
            rw [hs] at h hd
            cases h
            have hf₁ : c₁.faults = c.faults := by
              refine ((Advances.ok h₁).faults.eq_of_length_le ?_).symm
              rw [← hf]
              exact hd.faults.length_le
            obtain ⟨us, hus⟩ := takes_of_ok hc h₁ hf₁
            have hfirst := hi hus
            obtain ⟨vs, hothers, hu, hend⟩ := ih hus.closed_next
              (hus.length_upcoming_le hfirst.ne_nil hb) hs (hf.trans hf₁.symm)
            refine ⟨us ++ vs, .some hfirst hothers, ?_, hend⟩
            rw [hus.upcoming, hu, List.append_assoc]
      · rename_i fault c₁ h₁
        have hn := (Advances.failed h₁).faults.length_le
        have hd : (c₁.note fault).Leads d := by
          dsimp only at h
          split at h
          · cases h
            exact .refl _
          · have hd := sequenceWithin_leads x item bound ((c₁.note fault).resume x)
            rw [h] at hd
            exact ((c₁.note fault).leads_resume x).trans hd
        have hl := hd.faults.length_le
        simp only [Cursor.note, List.length_append, List.length_singleton, hf] at hl
        omega

theorem variableRest_derives (hi : inner.Derives) {start : Nat}
    (h : (variableRest inner start).Takes c ts s d) : VariableRest ts s := by
  unfold variableRest at h
  obtain ⟨name, us, hn, rfl, h₁⟩ := exists_of_takes_expectName_bind h
  rcases exists_of_takes_accept_bind h₁ with ⟨equals, us, he, rfl, h₂⟩ | h₂
  · rw [if_pos rfl] at h₂
    obtain ⟨us, vs, init, c₁, rfl, h₃, h₄⟩ := exists_of_takes_bind h₂
    obtain ⟨value, hv, rfl⟩ := exists_of_takes_map h₃
    obtain ⟨semicolon, vs, hs, rfl, h₅⟩ := exists_of_takes_expect_bind h₄
    rw [takes_closeNode_bind, takes_pure_iff] at h₅
    obtain ⟨-, rfl, rfl, -⟩ := h₅
    exact .initialized _ hn he (expression_derives hi hv) hs
  · rw [if_neg (by decide)] at h₂
    obtain ⟨us, vs, init, c₁, rfl, h₃, h₄⟩ := exists_of_takes_bind h₂
    obtain ⟨-, rfl, rfl, rfl⟩ := takes_pure_iff.mp h₃
    obtain ⟨semicolon, vs, hs, rfl, h₅⟩ := exists_of_takes_expect_bind h₄
    rw [takes_closeNode_bind, takes_pure_iff] at h₅
    obtain ⟨-, rfl, rfl, -⟩ := h₅
    exact .bare _ hn hs

theorem parameters_derives {params : List Word} (h : parameters.Takes c ts params d) :
    Parameters ts params := by
  have hp : ∀ c, parameters c =
      if c.isAt .rightParen then .ok [] c else commaList (fun _ => expectName) c := fun _ => rfl
  rcases exists_of_takes_listed hp h with
    ⟨rfl, rfl⟩ | ⟨us, vs, first, others, c₁, rfl, rfl, h₁, h₂⟩
  · exact .none
  · obtain ⟨name, hn, rfl, rfl, -⟩ := exists_of_takes_expectName h₁
    have hmore : MoreParameters vs others := by
      refine commaItemsWithin_induction (motive := fun _ ts names => MoreParameters ts names)
        (fun _ => .none) (fun ht h ih => ?_) h₂
      obtain ⟨name, hn, rfl, rfl, -⟩ := exists_of_takes_expectName h
      exact .some ht hn ih
    exact .some hn hmore

theorem callable_derives (hi : inner.Derives) {decl : Callable}
    (h : (callable inner).Takes c ts decl d) : Function ts decl := by
  unfold callable at h
  obtain ⟨name, us, hn, rfl, h₁⟩ := exists_of_takes_expectName_bind h
  obtain ⟨opening, us, ho, rfl, h₂⟩ := exists_of_takes_expect_bind h₁
  obtain ⟨us, vs, params, c₁, rfl, h₃, h₄⟩ := exists_of_takes_bind h₂
  obtain ⟨closing, vs, hc, rfl, h₅⟩ := exists_of_takes_expect_bind h₄
  obtain ⟨vs, ws, body, c₂, rfl, h₆, h₇⟩ := exists_of_takes_bind h₅
  dsimp only at h₇
  split at h₇
  · exact (not_takes_note_bind h₇).elim
  · rename_i hmany
    have hlen : params.length ≤ maxArguments := Nat.le_of_not_lt hmany
    obtain ⟨-, rfl, rfl, -⟩ := takes_pure_iff.mp h₇
    simpa using Function.callable hn ho (parameters_derives h₃) hlen hc (hi.body h₆)

theorem manyWithin_callables_derives (hi : inner.Derives) {stop : Cursor → Bool}
    {bound : List Token} {methods : List Callable}
    (h : (manyWithin stop (callable inner) bound).Takes c ts methods d) : Methods ts methods := by
  induction bound generalizing c d ts methods with
  | nil =>
      rw [manyWithin_nil] at h
      obtain ⟨-, rfl, rfl, -⟩ := takes_pure_iff.mp h
      exact .none
  | cons t bound ih =>
      by_cases hs : (stop c || c.atEnd) = true
      · have hr : manyWithin stop (callable inner) (t :: bound) c = (pure [] : Parser _) c := by
          rw [manyWithin_cons, if_pos hs, pure_apply]
        obtain ⟨-, rfl, rfl, -⟩ := takes_pure_iff.mp (h.congr hr)
        exact .none
      · have hr := (manyWithin_cons stop (callable inner) t bound c).trans (if_neg hs)
        obtain ⟨us, vs, first, c₁, rfl, h₁, h₂⟩ := exists_of_takes_bind (h.congr hr)
        obtain ⟨vs, ws, others, c₂, rfl, h₃, h₄⟩ := exists_of_takes_bind h₂
        obtain ⟨-, rfl, rfl, -⟩ := takes_pure_iff.mp h₄
        simpa using Methods.some (callable_derives hi h₁) (ih h₃)

theorem classRest_derives (hi : inner.Derives) {start : Nat} {keyword : Token}
    (hk : keyword.kind = .keyword .class_) (h : (classRest inner start).Takes c ts s d) :
    Declaration (keyword :: ts) s := by
  unfold classRest at h
  obtain ⟨name, us, hn, rfl, h₁⟩ := exists_of_takes_expectName_bind h
  obtain ⟨opening, us, ho, rfl, h₂⟩ := exists_of_takes_expect_bind h₁
  obtain ⟨us, vs, methods, c₁, rfl, h₃, h₄⟩ := exists_of_takes_bind h₂
  obtain ⟨closing, vs, hc, rfl, h₅⟩ := exists_of_takes_expect_bind h₄
  rw [takes_closeNode_bind, takes_pure_iff] at h₅
  obtain ⟨-, rfl, rfl, -⟩ := h₅
  exact .classDef _ hk hn ho (manyWithin_callables_derives hi (h₃.congr rfl)) hc

theorem declaration_derives (hi : inner.Derives) (h : (declaration inner).Takes c ts s d) :
    Declaration ts s := by
  unfold declaration at h
  rw [takes_peek_bind] at h
  dsimp only at h
  split at h
  · rename_i hk
    obtain ⟨us, rfl, h₁⟩ := exists_of_takes_take_bind h (by simp [hk])
    exact .variable hk (variableRest_derives hi h₁)
  · rename_i hk
    obtain ⟨us, rfl, h₁⟩ := exists_of_takes_take_bind h (by simp [hk])
    obtain ⟨us, vs, decl, c₁, rfl, h₂, h₃⟩ := exists_of_takes_bind h₁
    rw [takes_closeNode_bind, takes_pure_iff] at h₃
    obtain ⟨-, rfl, rfl, -⟩ := h₃
    simpa using Declaration.function _ hk (callable_derives hi h₂)
  · rename_i hk
    obtain ⟨us, rfl, h₁⟩ := exists_of_takes_take_bind h (by simp [hk])
    exact classRest_derives hi hk h₁
  · obtain ⟨dangling, hs, -⟩ := hi.statement h
    exact .statement hs

theorem braces_derives (hi : inner.Derives) {body : List Stmt}
    (h : (braces inner).Takes c ts body d) : Body ts body := by
  rw [braces_eq] at h
  obtain ⟨opening, us, ho, rfl, h₁⟩ := exists_of_takes_expect_bind h
  obtain ⟨us, vs, body, c₁, rfl, h₂, h₃⟩ := exists_of_takes_bind h₁
  obtain ⟨closing, vs, hc, rfl, h₄⟩ := exists_of_takes_expect_bind h₃
  obtain ⟨-, rfl, rfl, -⟩ := takes_pure_iff.mp h₄
  have hr := h₂.reply
  unfold statements at hr
  cases hr
  obtain ⟨ws, hd, hu, -⟩ := sequenceWithin_derives (declaration_derives hi) h₂.closed
    (Nat.le_refl _) rfl h₂.faults
  obtain rfl := List.append_cancel_right (h₂.upcoming.symm.trans hu)
  exact .braces ho hd hc

theorem condition_derives (hi : inner.Derives) {cond : Expr}
    (h : (condition inner).Takes c ts cond d) : Condition ts cond := by
  unfold condition at h
  obtain ⟨opening, us, ho, rfl, h₁⟩ := exists_of_takes_expect_bind h
  obtain ⟨us, vs, cond, c₁, rfl, h₂, h₃⟩ := exists_of_takes_bind h₁
  obtain ⟨closing, vs, hc, rfl, h₄⟩ := exists_of_takes_expect_bind h₃
  obtain ⟨-, rfl, rfl, -⟩ := takes_pure_iff.mp h₄
  exact .parens ho (expression_derives hi h₂) hc

theorem ifRest_derives (hi : inner.Derives) {start : Nat} {keyword : Token}
    (hk : keyword.kind = .keyword .if_) (h : (ifRest inner start).Takes c ts s d) :
    ∃ dangling, Statement dangling (keyword :: ts) s ∧
      (dangling = true → d.current.kind ≠ .keyword .else_) := by
  unfold ifRest at h
  obtain ⟨us, vs, cond, c₁, rfl, h₁, h₂⟩ := exists_of_takes_bind h
  have hcond := condition_derives hi h₁
  obtain ⟨vs, ws, body, c₂, rfl, h₃, h₄⟩ := exists_of_takes_bind h₂
  obtain ⟨dangling, hbody, hnext⟩ := hi.statement h₃
  rw [takes_peek_bind] at h₄
  split at h₄
  · rename_i he
    obtain ⟨ws, rfl, h₅⟩ := exists_of_takes_take_bind h₄ (by simp [he])
    obtain ⟨ws, xs, otherwise, c₃, rfl, h₆, h₇⟩ := exists_of_takes_bind h₅
    rw [takes_closeNode_bind, takes_pure_iff] at h₇
    obtain ⟨-, rfl, rfl, rfl⟩ := h₇
    obtain ⟨dangling', ho, hnext'⟩ := hi.statement h₆
    have hclosed : dangling = false := by
      cases dangling with
      | false => rfl
      | true => exact (hnext rfl he).elim
    subst hclosed
    exact ⟨dangling', by simpa using Statement.ifThenElse _ hk hcond hbody he ho, hnext'⟩
  · rename_i hne
    rw [takes_closeNode_bind, takes_pure_iff] at h₄
    obtain ⟨-, rfl, rfl, rfl⟩ := h₄
    exact ⟨true, by simpa using Statement.ifThen _ hk hcond hbody, fun _ => hne⟩

theorem returnRest_derives (hi : inner.Derives) {keyword : Token}
    (hk : keyword.kind = .keyword .return_) (h : (returnRest inner keyword.toWord).Takes c ts s d) :
    Statement false (keyword :: ts) s := by
  unfold returnRest at h
  rw [takes_peek_bind] at h
  split at h
  · obtain ⟨us, vs, value, c₁, rfl, h₁, h₂⟩ := exists_of_takes_bind h
    obtain ⟨-, rfl, rfl, rfl⟩ := takes_pure_iff.mp h₁
    obtain ⟨semicolon, vs, hs, rfl, h₃⟩ := exists_of_takes_expect_bind h₂
    rw [takes_closeNode_bind, takes_pure_iff] at h₃
    obtain ⟨-, rfl, rfl, -⟩ := h₃
    exact .ret _ hk .none hs
  · obtain ⟨us, vs, value, c₁, rfl, h₁, h₂⟩ := exists_of_takes_bind h
    obtain ⟨e, he, rfl⟩ := exists_of_takes_map h₁
    obtain ⟨semicolon, vs, hs, rfl, h₃⟩ := exists_of_takes_expect_bind h₂
    rw [takes_closeNode_bind, takes_pure_iff] at h₃
    obtain ⟨-, rfl, rfl, -⟩ := h₃
    exact .ret _ hk (.some (expression_derives hi he)) hs

theorem forInit_derives (hi : inner.Derives) {init : Option Stmt}
    (h : (forInit inner).Takes c ts init d) : ForInit ts init := by
  unfold forInit at h
  rw [takes_peek_bind] at h
  dsimp only at h
  split at h
  · rename_i hk
    obtain ⟨us, rfl, h₁⟩ := exists_of_takes_take_bind h (by simp [hk])
    obtain ⟨-, rfl, rfl, -⟩ := takes_pure_iff.mp h₁
    exact .none hk
  · rename_i hk
    obtain ⟨us, rfl, h₁⟩ := exists_of_takes_take_bind h (by simp [hk])
    obtain ⟨s, hs, rfl⟩ := exists_of_takes_map h₁
    exact .variable hk (variableRest_derives hi hs)
  · obtain ⟨us, vs, e, c₁, rfl, h₁, h₂⟩ := exists_of_takes_bind h
    obtain ⟨semicolon, vs, hs, rfl, h₃⟩ := exists_of_takes_expect_bind h₂
    rw [takes_closeNode_bind, takes_pure_iff] at h₃
    obtain ⟨-, rfl, rfl, -⟩ := h₃
    exact .expression _ (expression_derives hi h₁) hs

theorem forClause_derives (hi : inner.Derives) {closer : Symbol} {clause : Option Expr}
    (h : (forClause inner closer).Takes c ts clause d) :
    ∃ us, ∃ t : Token, Clause us clause ∧ t.kind = .symbol closer ∧ ts = us ++ [t] := by
  unfold forClause at h
  rw [takes_peek_bind] at h
  split at h
  · obtain ⟨us, vs, value, c₁, rfl, h₁, h₂⟩ := exists_of_takes_bind h
    obtain ⟨-, rfl, rfl, rfl⟩ := takes_pure_iff.mp h₁
    obtain ⟨t, vs, ht, rfl, h₃⟩ := exists_of_takes_expect_bind h₂
    obtain ⟨-, rfl, rfl, -⟩ := takes_pure_iff.mp h₃
    exact ⟨[], t, .none, ht, rfl⟩
  · obtain ⟨us, vs, value, c₁, rfl, h₁, h₂⟩ := exists_of_takes_bind h
    obtain ⟨e, he, rfl⟩ := exists_of_takes_map h₁
    obtain ⟨t, vs, ht, rfl, h₃⟩ := exists_of_takes_expect_bind h₂
    obtain ⟨-, rfl, rfl, -⟩ := takes_pure_iff.mp h₃
    exact ⟨us, t, .some (expression_derives hi he), ht, rfl⟩

omit [inner.Advance] in
theorem withIncrement_gives {span : Span} {body : Stmt} {increment : Option Expr}
    (h : (withIncrement span body increment).Takes c ts s d) :
    ts = [] ∧ d.current = c.current ∧
      ∃ block step, s = Grammar.withIncrement block step body increment := by
  cases increment with
  | none =>
      obtain ⟨-, rfl, rfl, rfl⟩ := takes_pure_iff.mp h
      exact ⟨rfl, rfl, default, default, rfl⟩
  | some e =>
      unfold withIncrement at h
      rw [takes_nodeAt_bind, takes_nodeAt_bind, takes_pure_iff] at h
      obtain ⟨-, rfl, rfl, rfl⟩ := h
      exact ⟨rfl, rfl, _, _, rfl⟩

omit [inner.Advance] in
theorem orTrue_gives {span : Span} {cond : Option Expr} {e : Expr}
    (h : (orTrue span cond).Takes c ts e d) :
    ts = [] ∧ d.current = c.current ∧ ∃ node, e = Grammar.orTrue node cond := by
  cases cond with
  | none =>
      unfold orTrue at h
      rw [takes_nodeAt_bind, takes_pure_iff] at h
      obtain ⟨-, rfl, rfl, rfl⟩ := h
      exact ⟨rfl, rfl, _, rfl⟩
  | some cond =>
      obtain ⟨-, rfl, rfl, rfl⟩ := takes_pure_iff.mp h
      exact ⟨rfl, rfl, default, rfl⟩

omit [inner.Advance] in
theorem withInit_gives {span : Span} {loop : Stmt} {init : Option Stmt}
    (h : (withInit span loop init).Takes c ts s d) :
    ts = [] ∧ d.current = c.current ∧ ∃ node, s = Grammar.withInit node loop init := by
  cases init with
  | none =>
      obtain ⟨-, rfl, rfl, rfl⟩ := takes_pure_iff.mp h
      exact ⟨rfl, rfl, default, rfl⟩
  | some init =>
      unfold withInit at h
      rw [takes_nodeAt_bind, takes_pure_iff] at h
      obtain ⟨-, rfl, rfl, rfl⟩ := h
      exact ⟨rfl, rfl, _, rfl⟩

theorem forRest_derives (hi : inner.Derives) {start : Nat} {keyword : Token}
    (hk : keyword.kind = .keyword .for_) (h : (forRest inner start).Takes c ts s d) :
    ∃ dangling, Statement dangling (keyword :: ts) s ∧
      (dangling = true → d.current.kind ≠ .keyword .else_) := by
  unfold forRest at h
  obtain ⟨opening, us, ho, rfl, h₁⟩ := exists_of_takes_expect_bind h
  obtain ⟨us, vs, init, c₁, rfl, h₂, h₃⟩ := exists_of_takes_bind h₁
  obtain ⟨vs, ws, cond, c₂, rfl, h₄, h₅⟩ := exists_of_takes_bind h₃
  obtain ⟨ws, xs, increment, c₃, rfl, h₆, h₇⟩ := exists_of_takes_bind h₅
  obtain ⟨xs, ys, body, c₄, rfl, h₈, h₉⟩ := exists_of_takes_bind h₇
  obtain ⟨vs, semicolon, hcond, hs, rfl⟩ := forClause_derives hi h₄
  obtain ⟨ws, closing, hincrement, hc, rfl⟩ := forClause_derives hi h₆
  obtain ⟨dangling, hbody, hnext⟩ := hi.statement h₈
  replace h₉ := (takes_look_bind (g := fun c => Span.mk start c.previous.span.stop)).mp h₉
  obtain ⟨ys, zs, body', c₅, rfl, h₁₀, h₁₁⟩ := exists_of_takes_bind h₉
  obtain ⟨rfl, hn₁, incremented, step, rfl⟩ := withIncrement_gives h₁₀
  obtain ⟨zs, us', cond', c₆, rfl, h₁₂, h₁₃⟩ := exists_of_takes_bind h₁₁
  obtain ⟨rfl, hn₂, endless, rfl⟩ := orTrue_gives h₁₂
  rw [takes_nodeAt_bind] at h₁₃
  obtain ⟨rfl, hn₃, whole, rfl⟩ := withInit_gives h₁₃
  have hn : d.current = c₄.current := hn₃.trans (hn₂.trans hn₁)
  rw [hn]
  refine ⟨dangling, ?_, hnext⟩
  simpa using Statement.forLoop incremented step endless _ whole hk ho
    (forInit_derives hi h₂) hcond hs hincrement hc hbody

theorem statement_derives (hi : inner.Derives) (h : (statement inner).Takes c ts s d) :
    ∃ dangling, Statement dangling ts s ∧
      (dangling = true → d.current.kind ≠ .keyword .else_) := by
  have closed : ∀ {s}, Statement false ts s → ∃ dangling, Statement dangling ts s ∧
      (dangling = true → d.current.kind ≠ .keyword .else_) := fun hs => ⟨false, hs, by simp⟩
  unfold statement at h
  rw [takes_peek_bind] at h
  dsimp only at h
  split at h
  · obtain ⟨us, vs, body, c₁, rfl, h₁, h₂⟩ := exists_of_takes_bind h
    rw [takes_closeNode_bind, takes_pure_iff] at h₂
    obtain ⟨-, rfl, rfl, -⟩ := h₂
    exact closed (.block _ (by simpa using braces_derives hi h₁))
  · rename_i hk
    obtain ⟨us, rfl, h₁⟩ := exists_of_takes_take_bind h (by simp [hk])
    obtain ⟨us, vs, value, c₁, rfl, h₂, h₃⟩ := exists_of_takes_bind h₁
    obtain ⟨semicolon, vs, hs, rfl, h₄⟩ := exists_of_takes_expect_bind h₃
    rw [takes_closeNode_bind, takes_pure_iff] at h₄
    obtain ⟨-, rfl, rfl, -⟩ := h₄
    exact closed (.print _ hk (expression_derives hi h₂) hs)
  · rename_i hk
    obtain ⟨us, rfl, h₁⟩ := exists_of_takes_take_bind h (by simp [hk])
    exact closed (returnRest_derives hi hk h₁)
  · rename_i hk
    obtain ⟨us, rfl, h₁⟩ := exists_of_takes_take_bind h (by simp [hk])
    exact ifRest_derives hi hk h₁
  · rename_i hk
    obtain ⟨us, rfl, h₁⟩ := exists_of_takes_take_bind h (by simp [hk])
    obtain ⟨us, vs, cond, c₁, rfl, h₂, h₃⟩ := exists_of_takes_bind h₁
    obtain ⟨vs, ws, body, c₂, rfl, h₄, h₅⟩ := exists_of_takes_bind h₃
    rw [takes_closeNode_bind, takes_pure_iff] at h₅
    obtain ⟨-, rfl, rfl, rfl⟩ := h₅
    obtain ⟨dangling, hbody, hnext⟩ := hi.statement h₄
    exact ⟨dangling, by simpa using Statement.loop _ hk (condition_derives hi h₂) hbody, hnext⟩
  · rename_i hk
    obtain ⟨us, rfl, h₁⟩ := exists_of_takes_take_bind h (by simp [hk])
    exact forRest_derives hi hk h₁
  · obtain ⟨us, vs, value, c₁, rfl, h₁, h₂⟩ := exists_of_takes_bind h
    obtain ⟨semicolon, vs, hs, rfl, h₃⟩ := exists_of_takes_expect_bind h₂
    rw [takes_closeNode_bind, takes_pure_iff] at h₃
    obtain ⟨-, rfl, rfl, -⟩ := h₃
    exact closed (.expr _ (expression_derives hi h₁) hs)

end Parser

namespace Levels

theorem exhausted_derives : exhausted.Derives where
  operand _ h := (Parser.not_takes_fail (f := .of .tooDeep _) (h.congr rfl)).elim
  value h := (Parser.not_takes_fail (f := .of .tooDeep _) (h.congr rfl)).elim
  statement h := (Parser.not_takes_fail (f := .of .tooDeep _) (h.congr rfl)).elim
  body h := (Parser.not_takes_fail (f := .of .tooDeep _) (h.congr rfl)).elim

theorem next_derives {inner : Levels} [inner.Advance] (hi : inner.Derives) :
    inner.next.Derives where
  operand hf h := Parser.operand_derives hi hf h
  value h := Parser.expression_derives hi h
  statement h := Parser.statement_derives hi h
  body h := Parser.braces_derives hi h

theorem ofDepth_derives (n : Nat) : (ofDepth n).Derives := by
  induction n with
  | zero => exact exhausted_derives
  | succ n ih => exact next_derives ih

end Levels

namespace Program

/-- What is read without a fault is a derivation of all its tokens, and what is given is the tree
of that derivation. -/
theorem declarations_of_faults_eq_nil (tokens : List Token) (h : (ofTokens tokens).faults = []) :
    Declarations (tokens.takeWhile fun t => t.kind != .endOfFile) (ofTokens tokens).statements := by
  rw [ofTokens_eq] at h ⊢
  obtain ⟨ts, hd, hu, hend⟩ := Parser.sequenceWithin_derives
    (Parser.declaration_derives (Levels.ofDepth_derives maxNesting))
    (Cursor.closed_ofTokens tokens) (Nat.le_refl _) rfl h
  rcases hend with hend | hend
  · rw [List.isEmpty_iff.mp hend, List.append_nil] at hu
    subst hu
    exact hd
  · cases hend

/-- A `for` around an `else` that belongs to the second of two `if`s, and an assignment to a
property of a call. -/
theorem declarations_of_for_and_else :
    let source := "for (var i = 0; i < n; i = i + 1) if (a) if (b) print -i * 2; else f(i).g = h;"
    let tokens := (Scan.ofSource source).tokens
    (ofTokens tokens).faults = [] ∧
      Declarations (tokens.takeWhile fun t => t.kind != .endOfFile)
        (ofTokens tokens).statements :=
  ⟨by decide +kernel, declarations_of_faults_eq_nil _ (by decide +kernel)⟩

/-- The tokens of a `print` of a number that is written in three characters. -/
def printed (value : Double) (lexeme : String) : List Token :=
  [⟨⟨"print", 1, ⟨0, 5⟩⟩, .keyword .print_⟩, ⟨⟨lexeme, 1, ⟨6, 9⟩⟩, .number value⟩,
    ⟨⟨";", 1, ⟨9, 10⟩⟩, .symbol .semicolon⟩, ⟨⟨"", 1, ⟨10, 10⟩⟩, .endOfFile⟩]

theorem ofTokens_printed (value : Double) (lexeme : String) :
    ofTokens (printed value lexeme)
      = ⟨[.print ⟨1, ⟨0, 10⟩⟩ (.literal ⟨0, ⟨6, 9⟩⟩ (.number value))], []⟩ := rfl

/-- A literal keeps its value and forgets how it was written, so that no way of writing trees back
gives the lexemes of all tokens: `1.0` and `001` have one tree, node numbers and spans included. -/
theorem lexemes_not_kept :
    let one : Double := ⟨0x3ff0000000000000⟩
    (Scan.ofSource "print 1.0;").tokens = printed one "1.0" ∧
      (Scan.ofSource "print 001;").tokens = printed one "001" ∧
      ¬ ∃ write : List Stmt → List String, ∀ tokens, (ofTokens tokens).faults = [] →
        write (ofTokens tokens).statements
          = (tokens.takeWhile fun t => t.kind != .endOfFile).map fun t => t.text := by
  refine ⟨by decide +kernel, by decide +kernel, fun ⟨write, hwrite⟩ => ?_⟩
  have decimal := hwrite (printed ⟨0x3ff0000000000000⟩ "1.0") rfl
  have padded := hwrite (printed ⟨0x3ff0000000000000⟩ "001") rfl
  rw [ofTokens_printed] at decimal padded
  exact absurd (decimal.symm.trans padded) (by decide)

end Program

end LamScope

import LamScope.Proofs.Reading.MirrorExpression
import LamScope.Proofs.Reading.RoughProgram

/-!
# Programs among shifted tokens

Statements are read alike among shifted tokens, with faults or without. A statement may end where
the first run has no token left; the only token that the second run could then take is an `else`.
Main statement: if what stands behind does not begin with one, the parsers of all levels do alike.
-/
namespace LamScope

/-- Does not begin with an `else`. -/
def Token.NoElse (ts : List Token) : Prop := ∀ t ∈ ts.head?, t.kind ≠ .keyword .else_

namespace Cursor
variable {g : Shift} {tail : Option (List Token)} {near : Prop} {c d : Cursor}

theorem skip_mirrors (x : Extent) (previous : Token) (ts : List Token)
    (hl : tail = none ∨ (skip x previous ts).2 ≠ []) :
    skip x (g.token previous) (ts.map g.token ++ tail.getD []) =
      (g.token (skip x previous ts).1, (skip x previous ts).2.map g.token ++ tail.getD []) := by
  induction ts generalizing previous with
  | nil =>
      have htail : tail = none := hl.resolve_right fun hne => hne rfl
      rw [htail]
      rfl
  | cons t ts ih =>
      simp only [List.map_cons, List.cons_append, skip] at hl ⊢
      by_cases hc : previous.kind = .symbol .semicolon ∨ x.endsAt t.kind = true ∨
          t.kind.startsStatement = true
      · rw [if_pos hc]
        exact if_pos hc
      · rw [if_neg hc] at hl ⊢
        exact (if_neg hc).trans (ih t hl)

theorem Mirrors.resume (h : c.Mirrors g tail near d) (x : Extent) (hl : (c.resume x).Live tail) :
    (c.resume x).Mirrors g tail near (d.resume x) := by
  have hc := hl.of_leads (c.leads_resume x)
  cases hu : c.upcoming with
  | nil =>
      have hd := h.upcoming_eq_nil hc hu
      have hsame : c.resume x = c := by simp [Cursor.resume, hu]
      have hsame' : d.resume x = d := by simp [Cursor.resume, hd]
      rwa [hsame, hsame']
  | cons t ts =>
      have hd : d.upcoming = g.token t :: (ts.map g.token ++ tail.getD []) := by
        rw [h.upcoming, hu]
        rfl
      cases hx : x.endsAt t.kind with
      | true =>
          have hsame : c.resume x = c := by simp [Cursor.resume, hu, hx]
          have hsame' : d.resume x = d := by simp [Cursor.resume, hd, hx]
          rwa [hsame, hsame']
      | false =>
          have hresumed : c.resume x =
              { c with previous := (skip x t ts).1, upcoming := (skip x t ts).2 } := by
            simp [Cursor.resume, hu, hx]
          have hresumed' : d.resume x =
              { d with
                previous := (skip x (g.token t) (ts.map g.token ++ tail.getD [])).1
                upcoming := (skip x (g.token t) (ts.map g.token ++ tail.getD [])).2 } := by
            simp [Cursor.resume, hd, hx]
          rw [hresumed] at hl ⊢
          rw [hresumed', skip_mirrors x t ts hl]
          exact { h with upcoming := rfl, previous := fun _ => rfl }

/-- Unless the sequence ends where a faulty statement began, tokens are dropped after it. -/
theorem length_resume_lt {x : Extent} (h : c.Leads d)
    (hgoes : (c.atEnd || x.endsAt c.current.kind) = false) :
    (d.resume x).upcoming.length < c.upcoming.length := by
  obtain ⟨hend, hx⟩ := Bool.or_eq_false_iff.mp hgoes
  have hne : c.upcoming ≠ [] := by simpa [atEnd] using hend
  have hle := h.upcoming.length_le
  unfold resume
  split
  · rename_i hu
    rw [hu]
    exact List.length_pos_iff.mpr hne
  · rename_i t ts hu
    split
    · rename_i ht
      refine Nat.lt_of_le_of_ne hle fun heq => ?_
      have hsame := h.upcoming.eq_of_length heq
      have hcurrent : c.current = t := current_eq (hsame.symm.trans hu)
      rw [hcurrent, ht] at hx
      cases hx
    · have hskip := (skip_suffix x t ts).length_le
      rw [hu, List.length_cons] at hle
      exact Nat.lt_of_lt_of_le (Nat.lt_succ_of_le hskip) hle

end Cursor

namespace Parser
variable {g : Shift} {tail : Option (List Token)} {ends near : Prop} {c d : Cursor}

section
variable {x : Extent} {item : Parser Stmt} {t : Token} {bound : List Token} {s : Stmt}
  {fault : SyntaxFault} {c' : Cursor}

theorem sequenceWithin_of_upcoming_eq_nil (x : Extent) (item : Parser Stmt) (bound : List Token)
    (hu : c.upcoming = []) : sequenceWithin x item bound c = ([], c) := by
  cases bound with
  | nil => rfl
  | cons t bound => simp [sequenceWithin, Cursor.atEnd, hu]

theorem sequenceWithin_of_ends (h : (c.atEnd || x.endsAt c.current.kind) = true) :
    sequenceWithin x item (t :: bound) c = ([], c) := by
  simp [sequenceWithin, h]

theorem sequenceWithin_of_ok (h : (c.atEnd || x.endsAt c.current.kind) = false)
    (hc : item c = .ok s c') :
    sequenceWithin x item (t :: bound) c =
      (s :: (sequenceWithin x item bound c').1, (sequenceWithin x item bound c').2) := by
  simp [sequenceWithin, h, hc]

theorem sequenceWithin_of_failed (h : (c.atEnd || x.endsAt c.current.kind) = false)
    (hc : item c = .failed fault c') :
    sequenceWithin x item (t :: bound) c =
      if maxSyntaxFaults ≤ (c'.note fault).faults.length then ([], c'.note fault)
      else sequenceWithin x item bound ((c'.note fault).resume x) := by
  simp [sequenceWithin, h, hc]

end

/-- Where the sequence stops, it has seen nothing of what stands behind. -/
theorem sequenceWithin_mirrors {x : Extent} {item : Parser Stmt} [Advances item]
    (hitem : ∀ {near : Prop} {c d : Cursor}, c.Mirrors g tail near d →
      item.Mirrors g tail False near g.stmt item c d)
    (hconsumes : item.Consumes) {bound bound' : List Token} (h : c.Mirrors g tail near d)
    (hroom : c.Room tail bound bound') (hl : (sequenceWithin x item bound c).2.Live tail) :
    (sequenceWithin x item bound' d).1 = g.stmts (sequenceWithin x item bound c).1 ∧
      (sequenceWithin x item bound c).2.Mirrors g tail near
        (sequenceWithin x item bound' d).2 := by
  induction bound generalizing bound' c d with
  | nil =>
      rw [sequenceWithin_of_upcoming_eq_nil x item bound' (h.exhausted hl hroom (.inl rfl)).2]
      exact ⟨rfl, h⟩
  | cons t bound ih =>
      have hlc : c.Live tail := hl.of_leads (sequenceWithin_leads x item _ c)
      cases bound' with
      | nil =>
          obtain ⟨hu, -⟩ := h.exhausted hlc hroom (.inr rfl)
          rw [sequenceWithin_of_upcoming_eq_nil x item _ hu]
          exact ⟨rfl, h⟩
      | cons t' bound' =>
          have hsame : (d.atEnd || x.endsAt d.current.kind) =
              (c.atEnd || x.endsAt c.current.kind) := by
            rw [h.atEnd hlc, h.current hlc, Shift.kind_token]
          cases hgoes : (c.atEnd || x.endsAt c.current.kind) with
          | true =>
              rw [sequenceWithin_of_ends hgoes, sequenceWithin_of_ends (hsame.trans hgoes)]
              exact ⟨rfl, h⟩
          | false =>
              have hmirrors := hitem h
              unfold Mirrors at hmirrors
              cases hc : item c with
              | ok s c' =>
                  rw [sequenceWithin_of_ok hgoes hc] at hl ⊢
                  rw [hc] at hmirrors
                  have hfewer := hconsumes h.closed hc
                  have hlive := hl.of_leads (sequenceWithin_leads x item bound c')
                  obtain ⟨d', hd, hd'⟩ := (hmirrors (.inl hlive)).exists_of_ok
                  obtain ⟨hss, hlast⟩ :=
                    @ih _ _ bound' (hd'.weaken fun _ => trivial) (hroom.rest hfewer) hl
                  rw [sequenceWithin_of_ok (hsame.trans hgoes) hd]
                  exact ⟨congrArg (g.stmt s :: ·) hss, hlast⟩
              | failed fault c' =>
                  rw [sequenceWithin_of_failed hgoes hc] at hl ⊢
                  rw [hc] at hmirrors
                  have hlive : (c'.note fault).Live tail := by
                    split at hl
                    · exact hl
                    · exact (hl.of_leads (sequenceWithin_leads x item bound _)).of_leads
                        ((c'.note fault).leads_resume x)
                  obtain ⟨d', hd, hd'⟩ := (hmirrors (.inl hlive)).exists_of_failed
                  have hnoted := hd'.note fault
                  have hlength : (d'.note (g.fault fault)).faults.length =
                      (c'.note fault).faults.length := by
                    rw [hnoted.faults, List.length_map]
                  rw [sequenceWithin_of_failed (hsame.trans hgoes) hd, hlength]
                  split
                  · exact ⟨rfl, hnoted⟩
                  · rename_i hfew
                    rw [if_neg hfew] at hl
                    have hfewer := Cursor.length_resume_lt
                      ((Advances.failed hc).trans (c'.leads_note fault)) hgoes
                    have hresumed := hnoted.resume x
                      (hl.of_leads (sequenceWithin_leads x item bound _))
                    exact ih hresumed (hroom.rest hfewer) hl

theorem consumes_inner_statement {inner : Levels} (hi : inner.Goes fun _ => True) :
    inner.statement.Consumes := by
  intro c s d hc h
  have hgoes := hi.statement hc.over
  unfold Goes at hgoes
  rw [h] at hgoes
  obtain ⟨ts, hd, hs⟩ := hgoes
  rw [hd.upcoming, List.length_append]
  exact Nat.lt_add_of_pos_left (List.length_pos_iff.mpr hs.ne_nil)

theorem consumes_statement {inner : Levels} (hi : inner.Goes fun _ => True) :
    (statement inner).Consumes := consumes_inner_statement (Levels.next_goes hi)

variable {g : Shift} {tail : Option (List Token)} {ends near : Prop} {inner : Levels}
  [inner.Advance] {c d : Cursor}

theorem variableRest_mirrors (hi : inner.Mirror g tail ends) (h : c.Mirrors g tail True d)
    {start start' : Nat} (hs : start' = start + g.offset) :
    (variableRest inner start).Mirrors g tail ends True g.stmt (variableRest inner start') c d := by
  refine mirrors_expectName_bind h fun name c' d' hd => ?_
  have hend (init : Option Expr) {c d : Cursor} (h : c.Mirrors g tail True d) :
      Mirrors g tail ends True g.stmt
        (do
          expect .semicolon
          return Stmt.var (← closeNode start) name init)
        (do
          expect .semicolon
          return Stmt.var (← closeNode start') (g.word name) (init.map g.expr)) c d :=
    mirrors_expect_bind h fun ha => mirrors_closeNode_bind ha hs fun _ _ _ h' =>
      mirrors_pure h' rfl
  have hconsumes (init : Option Expr) : Consumes (do
      expect .semicolon
      return Stmt.var (← closeNode start) name init) := (consumes_expect _).bind
  have hclause (hasInit : Bool) : Consumes (do
      let init ← if hasInit then some <$> expression inner else pure none
      expect .semicolon
      return Stmt.var (← closeNode start) name init) := by
    cases hasInit <;> exact Consumes.bind_right hconsumes
  refine Mirrors.of_live_of_consumes hd.closed (Consumes.bind_right hclause) fun hl => ?_
  refine mirrors_accept_bind hd hl (fun _ ha => ?_) ?_
  · exact (optional_mirrors hi ha).bind_consumes ha.closed hconsumes fun init _ _ _ h' =>
      hend init h'
  · exact hend none hd

theorem parameters_mirrors (h : c.Mirrors g tail True d) :
    parameters.Mirrors g tail False True (List.map g.word) parameters c d := by
  refine Mirrors.of_live fun hl => ?_
  have hat := h.isAt hl .rightParen
  intro hs
  unfold parameters at hs ⊢
  rw [hat]
  split
  · exact .ok h
  · rename_i hc
    rw [if_neg hc] at hs
    exact commaList_mirrors (fun _ _ _ h' => mirrors_expectName h') h hs

theorem callable_mirrors (hi : inner.Mirror g tail ends) (h : c.Mirrors g tail near d) :
    (callable inner).Mirrors g tail ends near g.callable (callable inner) c d := by
  refine mirrors_expectName_bind h fun name c' d' hd => mirrors_expect_bind hd fun ho => ?_
  refine (parameters_mirrors ho).bind_consumes ho.closed (fun _ => (consumes_expect _).bind)
    fun params _ _ _ hp => mirrors_expect_bind hp fun hc => ?_
  refine (hi.body hc).bind fun body _ _ _ hb => ?_
  have harity : Callable.arity ⟨g.word name, params.map g.word, g.stmts body⟩ =
      Callable.arity ⟨name, params, body⟩ := List.length_map g.word
  dsimp only
  rw [harity]
  split
  · exact mirrors_note_bind hb rfl fun hn => mirrors_pure hn rfl
  · exact mirrors_pure hb rfl

theorem consumes_callable : (callable inner).Consumes := consumes_expectName.bind

theorem manyWithin_of_upcoming_eq_nil {α : Type} (stop : Cursor → Bool) (item : Parser α)
    (bound : List Token) (hu : c.upcoming = []) : manyWithin stop item bound c = .ok [] c := by
  cases bound with
  | nil => rfl
  | cons t bound => simp [manyWithin, Cursor.atEnd, hu]

theorem manyWithin_mirrors (hi : inner.Mirror g tail ends) {bound bound' : List Token}
    (h : c.Mirrors g tail True d) (hroom : c.Room tail bound bound') :
    (manyWithin (·.isAt .rightBrace) (callable inner) bound).Mirrors g tail False True g.callables
      (manyWithin (·.isAt .rightBrace) (callable inner) bound') c d := by
  induction bound generalizing bound' c d with
  | nil =>
      refine Mirrors.of_live fun hl _ => ?_
      obtain ⟨hu, hv⟩ := h.exhausted hl hroom (.inl rfl)
      rw [manyWithin_of_upcoming_eq_nil _ _ [] hu, manyWithin_of_upcoming_eq_nil _ _ bound' hv]
      exact .ok h
  | cons t bound ih =>
      refine Mirrors.of_live fun hl => ?_
      cases bound' with
      | nil =>
          intro _
          obtain ⟨hu, -⟩ := h.exhausted hl hroom (.inr rfl)
          rw [manyWithin_of_upcoming_eq_nil _ _ (t :: bound) hu]
          exact .ok h
      | cons t' bound' =>
          intro hs
          rw [manyWithin_cons] at hs ⊢
          rw [manyWithin_cons, h.isAt hl, h.atEnd hl]
          split
          · exact .ok h
          · rename_i hgoes
            rw [if_neg hgoes] at hs
            refine ((callable_mirrors hi h).inner.bind fun first c' d' hok hd => ?_) hs
            have hfewer := consumes_callable h.closed hok
            have hothers := @ih _ _ bound' hd (hroom.rest hfewer)
            exact hothers.bind fun others c'' d'' _ hd' => mirrors_pure hd' rfl

theorem classRest_mirrors (hi : inner.Mirror g tail ends) (h : c.Mirrors g tail True d)
    {start start' : Nat} (hs : start' = start + g.offset) :
    (classRest inner start).Mirrors g tail ends True g.stmt (classRest inner start') c d := by
  refine mirrors_expectName_bind h fun name c' d' hd => mirrors_expect_bind hd fun ho => ?_
  have hmany : (many (·.isAt .rightBrace) (callable inner)).Mirrors g tail False True g.callables
      (many (·.isAt .rightBrace) (callable inner)) c'.advance d'.advance :=
    manyWithin_mirrors hi ho ho.room
  refine hmany.bind_consumes ho.closed (fun _ => (consumes_expect _).bind)
    fun methods _ _ _ hm => mirrors_expect_bind hm fun hc => ?_
  exact mirrors_closeNode_bind hc hs fun _ _ _ h' => mirrors_pure h' rfl

theorem consumes_declaration (hi : inner.statement.Consumes) : (declaration inner).Consumes := by
  refine Consumes.bind_right fun t => ?_
  dsimp only
  split
  · exact Consumes.bind_right fun _ => consumes_expectName.bind
  · exact Consumes.bind_right fun _ => consumes_callable.bind
  · exact Consumes.bind_right fun _ => consumes_expectName.bind
  · exact hi

theorem declaration_mirrors (hi : inner.Mirror g tail ends) (h : c.Mirrors g tail near d) :
    (declaration inner).Mirrors g tail ends near g.stmt (declaration inner) c d := by
  refine Mirrors.of_live_of_consumes h.closed (consumes_declaration hi.consumes) fun hl =>
    mirrors_peek_bind h hl ?_
  dsimp only [Shift.kind_token, Shift.span_token, Shift.start_span]
  split
  · rename_i hk
    exact mirrors_take_bind h (by simp [hk]) fun ha => variableRest_mirrors hi ha rfl
  · rename_i hk
    refine mirrors_take_bind h (by simp [hk]) fun ha => ?_
    refine (callable_mirrors hi ha).bind fun decl _ _ _ hd => ?_
    exact mirrors_closeNode_bind hd rfl fun _ _ _ h' => mirrors_pure h' rfl
  · rename_i hk
    exact mirrors_take_bind h (by simp [hk]) fun ha => classRest_mirrors hi ha rfl
  · exact hi.statement h

/-- Declarations follow each other between braces as they do in a file. -/
theorem statements_mirrors {x : Extent} {item : Parser Stmt} [Advances item]
    (hitem : ∀ {near : Prop} {c d : Cursor}, c.Mirrors g tail near d →
      item.Mirrors g tail False near g.stmt item c d)
    (hconsumes : item.Consumes) (h : c.Mirrors g tail True d) :
    (statements x item).Mirrors g tail False True g.stmts (statements x item) c d := by
  intro hs
  have hl : (statements x item c).next.Live tail := hs.resolve_right fun hfalse => hfalse.1.elim
  obtain ⟨hss, hlast⟩ := sequenceWithin_mirrors (x := x) hitem hconsumes h h.room hl
  unfold statements sequence
  rw [hss]
  exact .ok hlast

theorem braces_mirrors (hi : inner.Mirror g tail ends) (h : c.Mirrors g tail near d) :
    (braces inner).Mirrors g tail ends near g.stmts (braces inner) c d := by
  rw [braces_eq]
  refine mirrors_expect_bind h fun ho => ?_
  refine (statements_mirrors (fun h => (declaration_mirrors hi h).inner)
    (consumes_declaration hi.consumes) ho).bind_consumes ho.closed
    (fun _ => (consumes_expect _).bind) fun body _ _ _ hb => ?_
  exact mirrors_expect_bind hb fun hc => mirrors_pure hc rfl

theorem condition_mirrors (hi : inner.Mirror g tail ends) (h : c.Mirrors g tail near d) :
    (condition inner).Mirrors g tail False near g.expr (condition inner) c d := by
  refine mirrors_expect_bind h fun ho => (expression_mirrors hi ho).bind fun cond _ _ _ hd => ?_
  exact mirrors_expect_bind hd fun hc => mirrors_pure hc rfl

/-- At the end of the first run the second one may only see that there is no `else`. -/
theorem ifRest_mirrors (hi : inner.Mirror g tail ends) (htail : ends → Token.NoElse (tail.getD []))
    (h : c.Mirrors g tail True d) {start start' : Nat} (hs : start' = start + g.offset) :
    (ifRest inner start).Mirrors g tail ends True g.stmt (ifRest inner start') c d := by
  refine (condition_mirrors hi h).bind_consumes h.closed (fun _ => hi.consumes.bind)
    fun cond c₁ d₁ _ h₁ => ?_
  refine (hi.statement h₁).bind fun body c₂ d₂ _ h₂ => ?_
  have hthen : Mirrors g tail ends True g.stmt
      (do return Stmt.ifThen (← closeNode start) cond body)
      (do return Stmt.ifThen (← closeNode start') (g.expr cond) (g.stmt body)) c₂ d₂ :=
    mirrors_closeNode_bind h₂ hs fun _ _ _ h' => mirrors_pure h' rfl
  by_cases hl : c₂.Live tail
  · refine mirrors_peek_bind h₂ hl ?_
    rw [Shift.kind_token]
    split
    · rename_i hk
      refine mirrors_take_bind h₂ (by simp [hk]) fun ha => ?_
      refine (hi.statement ha).bind fun otherwise _ _ _ h₃ => ?_
      exact mirrors_closeNode_bind h₃ hs fun _ _ _ h' => mirrors_pure h' rfl
    · exact hthen
  · have hu := Classical.not_not.mp (not_or.mp hl).2
    have hk : c₂.current.kind ≠ .keyword .else_ := by
      simp [c₂.kind_current_of_upcoming_eq_nil h₂.closed hu]
    intro hsettled
    have hends : ends := (hsettled.resolve_left fun hlive =>
      hl (hlive.of_leads (Advances.leads c₂))).1
    have hk' : d₂.current.kind ≠ .keyword .else_ := by
      have hbehind : d₂.upcoming = tail.getD [] := by rw [h₂.upcoming, hu]; rfl
      cases hd : d₂.upcoming with
      | nil => simp [d₂.kind_current_of_upcoming_eq_nil h₂.closed_copy hd]
      | cons t ts =>
          rw [Cursor.current_eq hd]
          exact htail hends t (by rw [← hbehind, hd]; rfl)
    rw [bind_apply] at hsettled ⊢
    rw [bind_apply]
    simp only [peek, if_neg hk, if_neg hk'] at hsettled ⊢
    exact hthen hsettled

theorem returnRest_mirrors (hi : inner.Mirror g tail ends) (h : c.Mirrors g tail True d)
    (keyword : Word) :
    (returnRest inner keyword).Mirrors g tail ends True g.stmt (returnRest inner (g.word keyword))
      c d := by
  have hend (value : Option Expr) {c d : Cursor} (h : c.Mirrors g tail True d) :
      Mirrors g tail ends True g.stmt
        (do
          expect .semicolon
          return Stmt.ret (← closeNode keyword.span.start) keyword value)
        (do
          expect .semicolon
          return Stmt.ret (← closeNode (g.word keyword).span.start) (g.word keyword)
            (value.map g.expr)) c d :=
    mirrors_expect_bind h fun ha => mirrors_closeNode_bind ha rfl fun _ _ _ h' =>
      mirrors_pure h' rfl
  have hconsumes (value : Option Expr) : Consumes (do
      expect .semicolon
      return Stmt.ret (← closeNode keyword.span.start) keyword value) := (consumes_expect _).bind
  have hclause (t : Token) : Consumes (do
      let value ← if t.kind = .symbol .semicolon then pure none else some <$> expression inner
      expect .semicolon
      return Stmt.ret (← closeNode keyword.span.start) keyword value) := by
    split <;> exact Consumes.bind_right hconsumes
  refine Mirrors.of_live_of_consumes h.closed (Consumes.bind_right hclause) fun hl => ?_
  refine mirrors_peek_bind h hl ?_
  rw [Shift.kind_token]
  split
  · exact hend none h
  · exact (optional_mirrors hi h).bind_consumes h.closed hconsumes fun value _ _ _ h' =>
      hend value h'

/-- An expression with its semicolon, as a statement on its own or in a `for`. -/
theorem simple_mirrors (hi : inner.Mirror g tail ends) (h : c.Mirrors g tail near d)
    {start start' : Nat} (hs : start' = start + g.offset) {α β : Type} {φ : α → β}
    (wrap : Stmt → α) (wrap' : Stmt → β) (hw : ∀ s, wrap' (g.stmt s) = φ (wrap s)) :
    Mirrors g tail ends near φ
      (do
        let value ← expression inner
        expect .semicolon
        return wrap (.expr (← closeNode start) value))
      (do
        let value ← expression inner
        expect .semicolon
        return wrap' (.expr (← closeNode start') value)) c d := by
  refine (expression_mirrors hi h).bind_consumes h.closed (fun _ => (consumes_expect _).bind)
    fun value _ _ _ hd => mirrors_expect_bind hd fun ha => ?_
  exact mirrors_closeNode_bind ha hs fun n _ _ h' => mirrors_pure h' (hw (.expr n value))

theorem forInit_mirrors (hi : inner.Mirror g tail ends) (h : c.Mirrors g tail near d) :
    (forInit inner).Mirrors g tail False near (Option.map g.stmt) (forInit inner) c d := by
  refine Mirrors.of_live fun hl => mirrors_peek_bind h hl ?_
  dsimp only [Shift.kind_token, Shift.span_token, Shift.start_span]
  split
  · rename_i hk
    exact mirrors_take_bind h (by simp [hk]) fun ha => mirrors_pure ha rfl
  · rename_i hk
    exact mirrors_take_bind h (by simp [hk]) fun ha =>
      (variableRest_mirrors hi ha rfl).inner.map fun _ => rfl
  · exact (simple_mirrors hi h rfl some some fun _ => rfl).inner

theorem forClause_mirrors (hi : inner.Mirror g tail ends) (h : c.Mirrors g tail True d)
    (closer : Symbol) :
    (forClause inner closer).Mirrors g tail False True (Option.map g.expr)
      (forClause inner closer) c d := by
  have hend (clause : Option Expr) {c d : Cursor} (h : c.Mirrors g tail True d) :
      Mirrors g tail False True (Option.map g.expr)
        (do
          expect closer
          return clause)
        (do
          expect closer
          return clause.map g.expr) c d :=
    mirrors_expect_bind h fun ha => mirrors_pure ha rfl
  refine Mirrors.of_live fun hl => mirrors_peek_bind h hl ?_
  rw [Shift.kind_token]
  split
  · exact hend none h
  · exact (optional_mirrors hi h).bind fun clause _ _ _ h' => hend clause h'

theorem consumes_forClause (closer : Symbol) : (forClause inner closer).Consumes := by
  have hend (clause : Option Expr) : Consumes (do
      expect closer
      return clause) := (consumes_expect _).bind
  refine Consumes.bind_right fun t => ?_
  split <;> exact Consumes.bind_right hend

theorem withIncrement_mirrors (h : c.Mirrors g tail True d) (span : Span) (body : Stmt)
    (increment : Option Expr) :
    (withIncrement span body increment).Mirrors g tail ends True g.stmt
      (withIncrement (g.span span) (g.stmt body) (increment.map g.expr)) c d := by
  cases increment with
  | none => exact mirrors_pure h rfl
  | some e =>
      refine mirrors_nodeAt_bind h (g.span_expr e) fun n c' d' h' => ?_
      exact mirrors_nodeAt_bind h' rfl fun _ _ _ h'' => mirrors_pure h'' rfl

theorem orTrue_mirrors (h : c.Mirrors g tail True d) (span : Span) (cond : Option Expr) :
    (orTrue span cond).Mirrors g tail ends True g.expr
      (orTrue (g.span span) (cond.map g.expr)) c d := by
  cases cond with
  | none => exact mirrors_nodeAt_bind h rfl fun _ _ _ h' => mirrors_pure h' rfl
  | some e => exact mirrors_pure h rfl

theorem withInit_mirrors (h : c.Mirrors g tail True d) (span : Span) (loop : Stmt)
    (init : Option Stmt) :
    (withInit span loop init).Mirrors g tail ends True g.stmt
      (withInit (g.span span) (g.stmt loop) (init.map g.stmt)) c d := by
  cases init with
  | none => exact mirrors_pure h rfl
  | some s => exact mirrors_nodeAt_bind h rfl fun _ _ _ h' => mirrors_pure h' rfl

theorem forRest_mirrors (hi : inner.Mirror g tail ends) (h : c.Mirrors g tail True d)
    {start start' : Nat} (hs : start' = start + g.offset) :
    (forRest inner start).Mirrors g tail ends True g.stmt (forRest inner start') c d := by
  refine mirrors_expect_bind h fun ho => ?_
  refine (forInit_mirrors hi ho).bind_consumes ho.closed (fun _ => (consumes_forClause _).bind)
    fun init c₁ d₁ _ h₁ => ?_
  refine (forClause_mirrors hi h₁ .semicolon).bind_consumes h₁.closed
    (fun _ => (consumes_forClause _).bind) fun cond c₂ d₂ _ h₂ => ?_
  refine (forClause_mirrors hi h₂ .rightParen).bind_consumes h₂.closed
    (fun _ => hi.consumes.bind) fun increment c₃ d₃ _ h₃ => ?_
  refine (hi.statement h₃).bind fun body c₄ d₄ _ h₄ => ?_
  have hspan : Span.mk start' d₄.previous.span.stop = g.span ⟨start, c₄.previous.span.stop⟩ := by
    rw [h₄.previous trivial, hs]
    rfl
  have hend (span : Span) : Mirrors g tail ends True g.stmt
      (do
        let repeated ← withIncrement span body increment
        let endless ← orTrue span cond
        let loop := Stmt.loop (← nodeAt span) endless repeated
        withInit span loop init)
      (do
        let repeated ← withIncrement (g.span span) (g.stmt body) (increment.map g.expr)
        let endless ← orTrue (g.span span) (cond.map g.expr)
        let loop := Stmt.loop (← nodeAt (g.span span)) endless repeated
        withInit (g.span span) loop (init.map g.stmt)) c₄ d₄ := by
    refine (withIncrement_mirrors h₄ span body increment).bind fun repeated c₅ d₅ _ h₅ => ?_
    refine (orTrue_mirrors h₅ span cond).bind fun endless c₆ d₆ _ h₆ => ?_
    exact mirrors_nodeAt_bind h₆ rfl fun n _ _ h₇ =>
      withInit_mirrors h₇ span (.loop n endless repeated) init
  have hmirrors := hend ⟨start, c₄.previous.span.stop⟩
  rw [← hspan] at hmirrors
  exact hmirrors

theorem statement_mirrors (hi : inner.Mirror g tail ends)
    (htail : ends → Token.NoElse (tail.getD [])) (h : c.Mirrors g tail near d) (hl : c.Live tail) :
    (statement inner).Mirrors g tail ends near g.stmt (statement inner) c d := by
  refine mirrors_peek_bind h hl ?_
  dsimp only [Shift.kind_token, Shift.span_token, Shift.start_span, Shift.toWord_token]
  split
  · refine (braces_mirrors hi h).bind fun body _ _ _ hd => ?_
    exact mirrors_closeNode_bind hd rfl fun _ _ _ h' => mirrors_pure h' rfl
  · rename_i hk
    refine mirrors_take_bind h (by simp [hk]) fun ha => ?_
    refine (expression_mirrors hi ha).bind_consumes ha.closed (fun _ => (consumes_expect _).bind)
      fun value _ _ _ hd => mirrors_expect_bind hd fun hc => ?_
    exact mirrors_closeNode_bind hc rfl fun _ _ _ h' => mirrors_pure h' rfl
  · rename_i hk
    exact mirrors_take_bind h (by simp [hk]) fun ha => returnRest_mirrors hi ha c.current.toWord
  · rename_i hk
    exact mirrors_take_bind h (by simp [hk]) fun ha => ifRest_mirrors hi htail ha rfl
  · rename_i hk
    refine mirrors_take_bind h (by simp [hk]) fun ha => ?_
    refine (condition_mirrors hi ha).bind_consumes ha.closed (fun _ => hi.consumes.bind)
      fun cond _ _ _ h₁ => (hi.statement h₁).bind fun body _ _ _ h₂ => ?_
    exact mirrors_closeNode_bind h₂ rfl fun _ _ _ h' => mirrors_pure h' rfl
  · rename_i hk
    exact mirrors_take_bind h (by simp [hk]) fun ha => forRest_mirrors hi ha rfl
  · exact simple_mirrors hi h rfl id id fun _ => rfl

theorem mirrors_tooDeep {α β : Type} {φ : α → β} (h : c.Mirrors g tail near d) :
    (Parser.tooDeep : Parser α).Mirrors g tail ends near φ Parser.tooDeep c d := by
  intro hs
  have hl : c.Live tail := hs.resolve_right fun ⟨_, _, _, hok⟩ => nomatch hok
  unfold Parser.tooDeep
  rw [h.current hl]
  exact .failed h

end Parser

namespace Levels
variable {g : Shift} {tail : Option (List Token)} {ends : Prop}

theorem exhausted_mirror : exhausted.Mirror g tail ends where
  operand _ h := Parser.mirrors_tooDeep h
  value h := Parser.mirrors_tooDeep h
  statement h := Parser.mirrors_tooDeep h
  body h := Parser.mirrors_tooDeep h
  consumes := by
    intro c s d _ h
    cases h

theorem next_mirror {inner : Levels} [inner.Advance] (hi : inner.Mirror g tail ends)
    (hg : inner.Goes fun _ => True) (htail : ends → Token.NoElse (tail.getD [])) :
    inner.next.Mirror g tail ends where
  operand floor h := Parser.operand_mirrors hi floor h
  value h := Parser.expression_mirrors hi h
  statement h := Parser.Mirrors.of_live_of_consumes h.closed (Parser.consumes_statement hg)
    fun hl => Parser.statement_mirrors hi htail h hl
  body h := Parser.braces_mirrors hi h
  consumes := Parser.consumes_statement hg

theorem ofDepth_mirror (htail : ends → Token.NoElse (tail.getD [])) (n : Nat) :
    (ofDepth n).Mirror g tail ends := by
  induction n with
  | zero => exact exhausted_mirror
  | succ n ih => exact next_mirror ih (ofDepth_goes n) htail

end Levels

end LamScope

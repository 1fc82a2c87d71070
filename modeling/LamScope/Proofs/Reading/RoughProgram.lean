import LamScope.Proofs.Reading.RoughReading

/-!
# Rough derivations of programs

The statements of a program are derivable in the rough grammar, from the tokens before the end of
the file and from all the numbers that were drawn, and each of its faults is shown by a token. The
same holds of what is read from any cursor on.
-/
namespace LamScope

open Rough

namespace Parser
variable {P : Word → Prop} {inner : Levels} {c : Cursor}

/-- What a sequence may skip does not keep it from being derivable. -/
theorem sequenceWithin_goes {x : Extent} {item : Parser Stmt}
    (hitem : ∀ {c : Cursor}, c.Over P →
      item.Goes P c fun ts s d => Declaration ts c.nextId d.nextId s)
    (bound : List Token) (hc : c.Over P) :
    ∃ ts, c.Passes P ts (sequenceWithin x item bound c).2 ∧
      Sequence ts c.nextId (sequenceWithin x item bound c).2.nextId
        (sequenceWithin x item bound c).1 := by
  induction bound generalizing c with
  | nil => exact ⟨[], .refl c, .none⟩
  | cons _ bound ih =>
      have hfirst := hitem hc
      unfold Goes at hfirst
      unfold sequenceWithin
      split
      · exact ⟨[], .refl c, .none⟩
      split
      · rename_i s d h
        rw [h] at hfirst
        obtain ⟨ts, hd, hs⟩ := hfirst
        obtain ⟨us, he, hss⟩ := ih (hd.over hc)
        exact ⟨ts ++ us, hd.trans he, .some hs hss⟩
      · rename_i fault d h
        rw [h] at hfirst
        obtain ⟨hfault, ts, hd⟩ := hfirst
        have hnoted := hd.trans (Cursor.passes_note hfault)
        dsimp only
        split
        · exact ⟨ts ++ [] ++ [], by simpa using hnoted, .skip _ hnoted.nextId .none⟩
        · obtain ⟨us, hresumed, -⟩ := (d.note fault).passes_resume (P := P) x
          have hskipped := hnoted.trans hresumed
          obtain ⟨vs, he, hss⟩ := ih (hskipped.over hc)
          exact ⟨_, hskipped.trans he, .skip _ hskipped.nextId hss⟩

theorem variableRest_goes (hi : inner.Goes P) (hc : c.Over P) (keyword : Token) :
    (variableRest inner keyword.span.start).Goes P c
      fun ts s d => Variable (keyword :: ts) c.nextId d.nextId s := by
  refine goes_expectName_bind hc fun name hname => ?_
  have hcn := hname.over hc
  have hend {init : Option Expr} {c' : Cursor} {before : List Token} {equals ts : List Token}
      (hc' : c'.Over P) (hinit : Clause ts c.nextId c'.nextId init)
      (hbefore : before = equals ++ ts) :
      Goes P (do
        expect .semicolon
        return Stmt.var (← closeNode keyword.span.start) name.toWord init) c'
        fun us s d => Variable (keyword :: name :: (before ++ us)) c.nextId d.nextId s := by
    refine goes_expect_bind hc' fun semicolon hsemicolon => goes_closeNode_bind (goes_pure ?_)
    rw [hsemicolon.previous, Cursor.nextId_advance, hbefore]
    simpa using Variable.declared equals hinit
  refine goes_accept_bind hcn (fun equals hequals => ?_) ?_
  · rw [if_pos rfl]
    refine (optional_goes hi (hequals.over hcn)).bind fun ts init d hd hinit => ?_
    rw [Cursor.nextId_advance, Cursor.nextId_advance] at hinit
    exact hend (hd.over (hequals.over hcn)) hinit List.singleton_append.symm
  · rw [if_neg (by decide)]
    refine goes_step rfl (.refl _) (hend hcn ?_ (List.append_nil []).symm)
    rw [Cursor.nextId_advance]
    exact .none

theorem parameters_goes (hc : c.Over P) :
    parameters.Goes P c
      fun ts params d => params.Sublist (ts.map Token.toWord) ∧ d.nextId = c.nextId := by
  by_cases hs : c.isAt .rightParen
  · have hr : parameters c = .ok [] c := by simp [parameters, hs]
    unfold Goes
    rw [hr]
    exact ⟨[], .refl c, List.Sublist.slnil, rfl⟩
  · have hr : parameters c = commaList (fun _ => expectName) c := by simp [parameters, hs]
    have hname (c : Cursor) (hc : c.Over P) : expectName.Goes P c
        fun ts w d => ts.map Token.toWord = [w] ∧ d.nextId = c.nextId :=
      (goes_expectName hc).imp fun ts w d _ h => by
        obtain ⟨t, rfl, rfl, rfl⟩ := h
        exact ⟨rfl, Cursor.nextId_advance c⟩
    have hnames := commaList_goes (P := P)
      (I := fun ts m n w => ts.map Token.toWord = [w] ∧ n = m)
      (Q := fun ts m n names => names.Sublist (ts.map Token.toWord) ∧ n = m)
      (fun _ => hname) (fun _ => ⟨List.Sublist.slnil, rfl⟩)
      (fun {ts us m k n w names} commas hname hnames => by
        refine ⟨?_, hnames.2.trans hname.2⟩
        rw [List.map_append, List.map_append, hname.1, List.append_assoc]
        exact (hnames.1.cons_cons w).trans (List.sublist_append_right _ _))
      hc
    unfold Goes at hnames ⊢
    rw [hr]
    exact hnames

theorem callable_goes (hi : inner.Goes P) (hc : c.Over P) :
    (callable inner).Goes P c fun ts decl d => Function ts c.nextId d.nextId decl := by
  refine goes_expectName_bind hc fun name hname => ?_
  have hcn := hname.over hc
  refine goes_expect_bind hcn fun opening hopening => ?_
  have hco := hopening.over hcn
  refine (parameters_goes hco).bind fun ts params d hd hparams => ?_
  obtain ⟨hparams, hnumber⟩ := hparams
  rw [Cursor.nextId_advance, Cursor.nextId_advance] at hnumber
  refine goes_expect_bind (hd.over hco) fun closing hclosing => ?_
  refine (hi.body (hclosing.over (hd.over hco))).bind fun us body e he hbody => ?_
  obtain ⟨start, vs, stop, rfl, hbody⟩ := hbody
  rw [Cursor.nextId_advance, hnumber] at hbody
  have hdecl : Function (name :: opening :: ts ++ closing :: start :: vs ++ [stop]) c.nextId
      e.nextId ⟨name.toWord, params, body⟩ := .callable hparams hbody
  dsimp only
  split
  · refine goes_note_bind (hname.mem hc List.mem_cons_self) (goes_pure ?_)
    simpa [Cursor.note] using hdecl
  · exact goes_pure (by simpa using hdecl)

theorem manyWithin_goes (hi : inner.Goes P) {stop : Cursor → Bool} (bound : List Token)
    (hc : c.Over P) :
    (manyWithin stop (callable inner) bound).Goes P c
      fun ts methods d => Methods ts c.nextId d.nextId methods := by
  induction bound generalizing c with
  | nil =>
      rw [manyWithin_nil]
      exact goes_pure .none
  | cons t bound ih =>
      by_cases hs : (stop c || c.atEnd) = true
      · have hr : manyWithin stop (callable inner) (t :: bound) c = .ok [] c := by
          rw [manyWithin_cons, if_pos hs]
        unfold Goes
        rw [hr]
        exact ⟨[], .refl c, .none⟩
      · have hr := (manyWithin_cons stop (callable inner) t bound c).trans (if_neg hs)
        unfold Goes
        rw [hr]
        refine (callable_goes hi hc).bind fun ts first d hd hfirst => ?_
        refine (ih (hd.over hc)).bind fun us others e _ hothers => goes_pure ?_
        simpa using Methods.some hfirst hothers

theorem classRest_goes (hi : inner.Goes P) (hc : c.Over P) (keyword : Token) :
    (classRest inner keyword.span.start).Goes P c
      fun ts s d => Declaration (keyword :: ts) c.nextId d.nextId s := by
  refine goes_expectName_bind hc fun name hname => ?_
  have hcn := hname.over hc
  refine goes_expect_bind hcn fun opening hopening => ?_
  have hco := hopening.over hcn
  have hmany : (many (·.isAt .rightBrace) (callable inner)).Goes P c.advance.advance
      fun ts methods d => Methods ts c.advance.advance.nextId d.nextId methods :=
    manyWithin_goes hi _ hco
  refine hmany.bind fun ts methods d hd hmethods => ?_
  rw [Cursor.nextId_advance, Cursor.nextId_advance] at hmethods
  refine goes_expect_bind (hd.over hco) fun closing hclosing => goes_closeNode_bind (goes_pure ?_)
  rw [hclosing.previous, Cursor.nextId_advance]
  simpa using Declaration.classDef hmethods

theorem declaration_goes (hi : inner.Goes P) (hc : c.Over P) :
    (declaration inner).Goes P c fun ts s d => Declaration ts c.nextId d.nextId s := by
  refine goes_peek_bind ?_
  dsimp only
  split
  · rename_i hk
    have hkeyword := Cursor.passes_advance hc (by simp [hk])
    refine goes_take_bind hc (by simp [hk]) ?_
    refine (variableRest_goes hi (hkeyword.over hc) c.current).imp fun ts s d _ hs => ?_
    rw [Cursor.nextId_advance] at hs
    exact .variable hs
  · rename_i hk
    have hkeyword := Cursor.passes_advance hc (by simp [hk])
    refine goes_take_bind hc (by simp [hk]) ?_
    refine (callable_goes hi (hkeyword.over hc)).bind fun ts decl d hd hdecl => ?_
    refine goes_closeNode_bind (goes_pure ?_)
    rw [Cursor.nextId_advance] at hdecl
    rw [hd.previous, hkeyword.previous]
    simpa [through] using Declaration.function hdecl
  · rename_i hk
    have hkeyword := Cursor.passes_advance hc (by simp [hk])
    refine goes_take_bind hc (by simp [hk]) ?_
    refine (classRest_goes hi (hkeyword.over hc) c.current).imp fun ts s d _ hs => ?_
    rwa [Cursor.nextId_advance] at hs
  · exact (hi.statement hc).imp fun _ _ _ _ hs => .statement hs

theorem braces_goes (hi : inner.Goes P) (hc : c.Over P) :
    (braces inner).Goes P c fun ts body d =>
      ∃ start us stop, ts = start :: us ++ [stop] ∧ Sequence us c.nextId d.nextId body := by
  rw [braces_eq]
  refine goes_expect_bind hc fun start hstart => ?_
  have hcs := hstart.over hc
  obtain ⟨us, hd, hbody⟩ := sequenceWithin_goes (x := .braces)
    (fun hc => declaration_goes hi hc) c.advance.upcoming hcs
  refine goes_step (p := statements .braces (declaration inner)) rfl hd ?_
  refine goes_expect_bind (hd.over hcs) fun stop _ => goes_pure ⟨start, us, stop, by simp, ?_⟩
  rw [Cursor.nextId_advance] at hbody ⊢
  exact hbody

theorem condition_goes (hi : inner.Goes P) (hc : c.Over P) :
    (condition inner).Goes P c fun ts cond d =>
      ∃ opening us closing, ts = opening :: us ++ [closing] ∧
        Expression us c.nextId d.nextId cond := by
  refine goes_expect_bind hc fun opening hopening => ?_
  have hco := hopening.over hc
  refine (expression_goes hi hco).bind fun us cond d hd hcond => ?_
  refine goes_expect_bind (hd.over hco) fun closing _ =>
    goes_pure ⟨opening, us, closing, by simp, ?_⟩
  rw [Cursor.nextId_advance] at hcond ⊢
  exact hcond

theorem ifRest_goes (hi : inner.Goes P) (hc : c.Over P) (keyword : Token) :
    (ifRest inner keyword.span.start).Goes P c
      fun ts s d => Statement (keyword :: ts) c.nextId d.nextId s := by
  refine (condition_goes hi hc).bind fun ts cond d hd hcond => ?_
  obtain ⟨opening, us, closing, rfl, hcond⟩ := hcond
  refine (hi.statement (hd.over hc)).bind fun vs body e he hbody => goes_peek_bind ?_
  have hce := he.over (hd.over hc)
  split
  · rename_i hk
    have helse := Cursor.passes_advance hce (by simp [hk])
    refine goes_take_bind hce (by simp [hk]) ?_
    refine (hi.statement (helse.over hce)).bind fun ws otherwise g hg hotherwise => ?_
    refine goes_closeNode_bind (goes_pure ?_)
    rw [Cursor.nextId_advance] at hotherwise
    rw [hg.previous, getLastD_congr hotherwise.ne_nil _ keyword]
    have hs : Statement
        (keyword :: opening :: us ++ closing :: vs ++ e.current :: ws) c.nextId (g.nextId + 1)
        (.ifThenElse ⟨g.nextId, through keyword ws⟩ cond body otherwise) :=
      .ifThenElse hcond hbody hotherwise
    simpa [through] using hs
  · refine goes_closeNode_bind (goes_pure ?_)
    rw [he.previous, getLastD_congr hbody.ne_nil _ keyword]
    have hs : Statement (keyword :: opening :: us ++ closing :: vs) c.nextId (e.nextId + 1)
        (.ifThen ⟨e.nextId, through keyword vs⟩ cond body) := .ifThen hcond hbody
    simpa [through] using hs

theorem returnRest_goes (hi : inner.Goes P) (hc : c.Over P) (keyword : Token) :
    (returnRest inner keyword.toWord).Goes P c
      fun ts s d => Statement (keyword :: ts) c.nextId d.nextId s := by
  have hend {value : Option Expr} {c' : Cursor} {ts : List Token} (hc' : c'.Over P)
      (hvalue : Clause ts c.nextId c'.nextId value) :
      Goes P (do
        expect .semicolon
        return Stmt.ret (← closeNode keyword.toWord.span.start) keyword.toWord value) c'
        fun us s d => Statement (keyword :: (ts ++ us)) c.nextId d.nextId s := by
    refine goes_expect_bind hc' fun semicolon hsemicolon => goes_closeNode_bind (goes_pure ?_)
    rw [hsemicolon.previous, Cursor.nextId_advance]
    have hs : Statement (keyword :: ts ++ [semicolon]) c.nextId (c'.nextId + 1)
        (.ret ⟨c'.nextId, keyword.span.start, semicolon.span.stop⟩ keyword.toWord value) :=
      .ret hvalue
    simpa using hs
  refine goes_peek_bind ?_
  split
  · exact goes_step rfl (.refl c) (hend hc .none)
  · exact (optional_goes hi hc).bind fun ts value d hd hvalue => hend (hd.over hc) hvalue

/-- An expression with its semicolon, as a statement on its own or in a `for`. -/
theorem simple_goes (hi : inner.Goes P) (hc : c.Over P) {β : Type} (wrap : Stmt → β) :
    Goes P (do
      let value ← expression inner
      expect .semicolon
      return wrap (.expr (← closeNode c.current.span.start) value)) c
      fun ts b d => ∃ s, b = wrap s ∧ Simple ts c.nextId d.nextId s := by
  refine (expression_goes hi hc).bind fun ts value d hd hvalue => ?_
  refine goes_expect_bind (hd.over hc) fun semicolon hsemicolon =>
    goes_closeNode_bind (goes_pure ?_)
  rw [hsemicolon.previous, Cursor.nextId_advance]
  cases ts with
  | nil => exact (hvalue.ne_nil rfl).elim
  | cons t ts =>
      rw [hd.current_eq]
      have hs : Simple (t :: ts ++ [semicolon]) c.nextId (d.nextId + 1)
          (.expr ⟨d.nextId, t.span.start, semicolon.span.stop⟩ value) := .expr hvalue
      exact ⟨_, rfl, by simpa using hs⟩

theorem forInit_goes (hi : inner.Goes P) (hc : c.Over P) :
    (forInit inner).Goes P c fun ts init d => ForInit ts c.nextId d.nextId init := by
  refine goes_peek_bind ?_
  dsimp only
  split
  · rename_i hk
    refine goes_take_bind hc (by simp [hk]) (goes_pure ?_)
    rw [Cursor.nextId_advance]
    exact .none
  · rename_i hk
    have hkeyword := Cursor.passes_advance hc (by simp [hk])
    refine goes_take_bind hc (by simp [hk]) ?_
    refine (variableRest_goes hi (hkeyword.over hc) c.current).map fun ts s d _ hs => ?_
    rw [Cursor.nextId_advance] at hs
    exact .variable hs
  · refine (simple_goes hi hc some).imp fun ts init d _ hinit => ?_
    obtain ⟨s, rfl, hs⟩ := hinit
    exact .simple hs

theorem forClause_goes (hi : inner.Goes P) (hc : c.Over P) (closer : Symbol) :
    (forClause inner closer).Goes P c fun ts clause d =>
      ∃ us t, ts = us ++ [t] ∧ Clause us c.nextId d.nextId clause := by
  have hend {clause : Option Expr} {c' : Cursor} {us : List Token} (hc' : c'.Over P)
      (hclause : Clause us c.nextId c'.nextId clause) :
      Goes P (do
        expect closer
        return clause) c' fun vs clause d =>
          ∃ ws t, us ++ vs = ws ++ [t] ∧ Clause ws c.nextId d.nextId clause := by
    refine goes_expect_bind hc' fun t _ => goes_pure ⟨us, t, by simp, ?_⟩
    rw [Cursor.nextId_advance]
    exact hclause
  refine goes_peek_bind ?_
  split
  · exact goes_step rfl (.refl c) (hend hc .none)
  · exact (optional_goes hi hc).bind fun ts clause d hd hclause => hend (hd.over hc) hclause

theorem withIncrement_goes (span : Span) (body : Stmt) (increment : Option Expr) :
    (withIncrement span body increment).Goes P c fun ts s d =>
      ts = [] ∧ Increment span body c.nextId d.nextId increment s := by
  cases increment with
  | none => exact goes_pure ⟨rfl, .none⟩
  | some e => exact goes_nodeAt_bind (goes_nodeAt_bind (goes_pure ⟨rfl, .some⟩))

theorem orTrue_goes (span : Span) (cond : Option Expr) :
    (orTrue span cond).Goes P c fun ts e d => ts = [] ∧ Endless span c.nextId d.nextId cond e := by
  cases cond with
  | none => exact goes_nodeAt_bind (goes_pure ⟨rfl, .none⟩)
  | some cond => exact goes_pure ⟨rfl, .some⟩

theorem withInit_goes (span : Span) (loop : Stmt) (init : Option Stmt) :
    (withInit span loop init).Goes P c fun ts s d =>
      ts = [] ∧ Initial span loop c.nextId d.nextId init s := by
  cases init with
  | none => exact goes_pure ⟨rfl, .none⟩
  | some init => exact goes_nodeAt_bind (goes_pure ⟨rfl, .some⟩)

theorem forRest_goes (hi : inner.Goes P) (hc : c.Over P) (keyword : Token) :
    (forRest inner keyword.span.start).Goes P c
      fun ts s d => Statement (keyword :: ts) c.nextId d.nextId s := by
  refine goes_expect_bind hc fun opening hopening => ?_
  have hco := hopening.over hc
  refine (forInit_goes hi hco).bind fun ts init d₁ hd₁ hinit => ?_
  have hc₁ := hd₁.over hco
  refine (forClause_goes hi hc₁ .semicolon).bind fun us' cond d₂ hd₂ hcond => ?_
  obtain ⟨us, semicolon, rfl, hcond⟩ := hcond
  have hc₂ := hd₂.over hc₁
  refine (forClause_goes hi hc₂ .rightParen).bind fun vs' increment d₃ hd₃ hincrement => ?_
  obtain ⟨vs, closing, rfl, hincrement⟩ := hincrement
  have hc₃ := hd₃.over hc₂
  refine (hi.statement hc₃).bind fun ws body d₄ hd₄ hbody => ?_
  refine goes_step (p := fun c => .ok (Span.mk keyword.span.start c.previous.span.stop) c) rfl
    (.refl d₄) ?_
  have hspan : Span.mk keyword.span.start d₄.previous.span.stop = through keyword ws := by
    rw [hd₄.previous, getLastD_congr hbody.ne_nil _ keyword]
    rfl
  rw [hspan]
  refine (withIncrement_goes _ body increment).bind fun ts₅ repeated d₅ _ hrepeated => ?_
  obtain ⟨rfl, hrepeated⟩ := hrepeated
  refine (orTrue_goes _ cond).bind fun ts₆ endless d₆ _ hendless => ?_
  obtain ⟨rfl, hendless⟩ := hendless
  refine goes_nodeAt_bind ((withInit_goes _ _ init).imp fun ts₇ s d₇ _ hs => ?_)
  obtain ⟨rfl, hs⟩ := hs
  rw [Cursor.nextId_advance] at hinit
  have hall : Statement
      (keyword :: opening :: ts ++ us ++ semicolon :: vs ++ closing :: ws) c.nextId d₇.nextId s :=
    .forLoop hinit hcond hincrement hbody hrepeated hendless hs
  simpa using hall

theorem statement_goes (hi : inner.Goes P) (hc : c.Over P) :
    (statement inner).Goes P c fun ts s d => Statement ts c.nextId d.nextId s := by
  refine goes_peek_bind ?_
  dsimp only
  split
  · refine (braces_goes hi hc).bind fun ts body d hd hbody => goes_closeNode_bind (goes_pure ?_)
    obtain ⟨start, us, stop, rfl, hbody⟩ := hbody
    rw [hd.current_eq, hd.previous, List.getLastD_concat]
    have hs : Statement (start :: us ++ [stop]) c.nextId (d.nextId + 1)
        (.block ⟨d.nextId, start.span.start, stop.span.stop⟩ body) := .block hbody
    simpa using hs
  · rename_i hk
    have hkeyword := Cursor.passes_advance hc (by simp [hk])
    have hck := hkeyword.over hc
    refine goes_take_bind hc (by simp [hk]) ?_
    refine (expression_goes hi hck).bind fun ts value d hd hvalue => ?_
    refine goes_expect_bind (hd.over hck) fun semicolon hsemicolon =>
      goes_closeNode_bind (goes_pure ?_)
    rw [Cursor.nextId_advance] at hvalue ⊢
    rw [hsemicolon.previous]
    have hs : Statement (c.current :: ts ++ [semicolon]) c.nextId (d.nextId + 1)
        (.print ⟨d.nextId, c.current.span.start, semicolon.span.stop⟩ value) := .print hvalue
    simpa using hs
  · rename_i hk
    have hkeyword := Cursor.passes_advance hc (by simp [hk])
    refine goes_take_bind hc (by simp [hk]) ?_
    refine (returnRest_goes hi (hkeyword.over hc) c.current).imp fun ts s d _ hs => ?_
    rwa [Cursor.nextId_advance] at hs
  · rename_i hk
    have hkeyword := Cursor.passes_advance hc (by simp [hk])
    refine goes_take_bind hc (by simp [hk]) ?_
    refine (ifRest_goes hi (hkeyword.over hc) c.current).imp fun ts s d _ hs => ?_
    rwa [Cursor.nextId_advance] at hs
  · rename_i hk
    have hkeyword := Cursor.passes_advance hc (by simp [hk])
    have hck := hkeyword.over hc
    refine goes_take_bind hc (by simp [hk]) ?_
    refine (condition_goes hi hck).bind fun ts cond d hd hcond => ?_
    obtain ⟨opening, us, closing, rfl, hcond⟩ := hcond
    refine (hi.statement (hd.over hck)).bind fun vs body e he hbody => ?_
    refine goes_closeNode_bind (goes_pure ?_)
    rw [Cursor.nextId_advance] at hcond
    rw [he.previous, getLastD_congr hbody.ne_nil _ c.current]
    have hs : Statement (c.current :: opening :: us ++ closing :: vs) c.nextId (e.nextId + 1)
        (.loop ⟨e.nextId, through c.current vs⟩ cond body) := .loop hcond hbody
    simpa [through] using hs
  · rename_i hk
    have hkeyword := Cursor.passes_advance hc (by simp [hk])
    refine goes_take_bind hc (by simp [hk]) ?_
    refine (forRest_goes hi (hkeyword.over hc) c.current).imp fun ts s d _ hs => ?_
    rwa [Cursor.nextId_advance] at hs
  · refine (simple_goes hi hc id).imp fun ts s d _ hs => ?_
    obtain ⟨_, rfl, hs⟩ := hs
    exact .simple hs

end Parser

namespace Levels
variable {P : Word → Prop}

theorem exhausted_goes : exhausted.Goes P where
  operand _ hc := Parser.goes_tooDeep hc
  value hc := Parser.goes_tooDeep hc
  statement hc := Parser.goes_tooDeep hc
  body hc := Parser.goes_tooDeep hc

theorem next_goes {inner : Levels} (hi : inner.Goes P) : inner.next.Goes P where
  operand floor hc := Parser.operand_goes hi floor hc
  value hc := Parser.expression_goes hi hc
  statement hc := Parser.statement_goes hi hc
  body hc := Parser.braces_goes hi hc

theorem ofDepth_goes (n : Nat) : (ofDepth n).Goes P := by
  induction n with
  | zero => exact exhausted_goes
  | succ n ih => exact next_goes ih

end Levels

namespace Program
variable {P : Word → Prop}

/-- Where the reading of a program stops. -/
def lastCursor (c : Cursor) : Cursor :=
  (Parser.sequence .file (Parser.declaration .outermost) c).2

theorem ofCursor_goes {c : Cursor} (hc : c.Over P) :
    ∃ ts, c.Passes P ts (lastCursor c) ∧
      Sequence ts c.nextId (lastCursor c).nextId (ofCursor c).statements := by
  unfold lastCursor ofCursor
  rw [Parser.sequence_outermost]
  exact Parser.sequenceWithin_goes (fun hc => Parser.declaration_goes (Levels.ofDepth_goes _) hc)
    c.upcoming hc

end Program

end LamScope

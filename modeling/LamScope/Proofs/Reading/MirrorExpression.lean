import LamScope.Proofs.Reading.Mirror

/-!
# Expressions among shifted tokens

Expressions are read alike among shifted tokens. The repetitions need no care for their bounds: each
of their rounds takes a token, so a bound of as many elements as there are tokens is never reached.
-/
namespace LamScope

namespace Parser
variable {g : Shift} {tail : Option (List Token)} {near : Prop} {α β : Type} {c d : Cursor}

theorem commaItemsWithin_of_upcoming_eq_nil (item : Nat → Parser α) (bound : List Token) (i : Nat)
    (hc : c.Closed) (hu : c.upcoming = []) : commaItemsWithin item bound i c = .ok [] c := by
  cases bound with
  | nil => rfl
  | cons t bound =>
      have hcomma : c.isAt .comma = false := by
        simp [Cursor.isAt, c.kind_current_of_upcoming_eq_nil hc hu]
      simp [commaItemsWithin, hcomma]

theorem commaItemsWithin_mirrors {item : Nat → Parser α} {item' : Nat → Parser β} {φ : α → β}
    [∀ i, Advances (item i)]
    (hitem : ∀ (i : Nat) {c d : Cursor}, c.Mirrors g tail True d →
      (item i).Mirrors g tail False True φ (item' i) c d)
    {bound bound' : List Token} {i : Nat} (h : c.Mirrors g tail True d)
    (hroom : c.Room tail bound bound') :
    (commaItemsWithin item bound i).Mirrors g tail False True (List.map φ)
      (commaItemsWithin item' bound' i) c d := by
  induction bound generalizing bound' c d i with
  | nil =>
      refine Mirrors.of_live fun hl _ => ?_
      obtain ⟨hu, hv⟩ := h.exhausted hl hroom (.inl rfl)
      rw [commaItemsWithin_of_upcoming_eq_nil item [] i h.closed hu,
        commaItemsWithin_of_upcoming_eq_nil item' bound' i h.closed_copy hv]
      exact .ok h
  | cons t bound ih =>
      refine Mirrors.of_live fun hl => ?_
      cases bound' with
      | nil =>
          intro _
          obtain ⟨hu, -⟩ := h.exhausted hl hroom (.inr rfl)
          rw [commaItemsWithin_of_upcoming_eq_nil item (t :: bound) i h.closed hu]
          exact .ok h
      | cons t' bound' =>
          rw [commaItemsWithin_cons, commaItemsWithin_cons]
          refine mirrors_accept_bind h hl (fun hcomma ha => ?_) (mirrors_pure h rfl)
          rw [if_pos rfl, if_pos rfl]
          have hfewer := c.length_upcoming_advance h.closed (by simp [c.kind_of_isAt hcomma])
          refine (hitem i ha).bind fun a c' d' hok hd => ?_
          have hle := (Advances.ok hok).upcoming.length_le
          have hothers := @ih _ _ bound' (i + 1) hd (hroom.rest (by omega))
          exact hothers.bind fun as c'' d'' _ hd' => mirrors_pure hd' rfl

theorem commaList_mirrors {item : Nat → Parser α} {item' : Nat → Parser β} {φ : α → β}
    [∀ i, Advances (item i)]
    (hitem : ∀ (i : Nat) {c d : Cursor}, c.Mirrors g tail True d →
      (item i).Mirrors g tail False True φ (item' i) c d) (h : c.Mirrors g tail True d) :
    (commaList item).Mirrors g tail False True (List.map φ) (commaList item') c d := by
  have hadvances : Advances fun c => commaItemsWithin item c.upcoming 1 c :=
    ⟨fun c => Advances.leads (p := commaItemsWithin item c.upcoming 1) c⟩
  have := fun (first : α) => @advances_bind _ _ (fun c => commaItemsWithin item c.upcoming 1 c)
    (fun others => pure (first :: others)) hadvances _
  refine (hitem 0 h).bind fun first c' d' _ hd => ?_
  have hothers : Mirrors g tail False True (List.map φ)
      (fun c => commaItemsWithin item c.upcoming 1 c)
      (fun c => commaItemsWithin item' c.upcoming 1 c) c' d' :=
    commaItemsWithin_mirrors hitem hd hd.room
  exact hothers.bind fun others c'' d'' _ hd' => mirrors_pure hd' rfl

end Parser

/-- The parsers of a level do alike among shifted tokens. A statement may stop where no token is
left. -/
structure Levels.Mirror (g : Shift) (tail : Option (List Token)) (ends : Prop)
    (inner : Levels) : Prop where
  operand {near : Prop} {c d : Cursor} (floor : Nat) : c.Mirrors g tail near d →
    (inner.operand floor).Mirrors g tail False near g.expr (inner.operand floor) c d
  value {near : Prop} {c d : Cursor} : c.Mirrors g tail near d →
    inner.value.Mirrors g tail False near g.expr inner.value c d
  statement {near : Prop} {c d : Cursor} : c.Mirrors g tail near d →
    inner.statement.Mirrors g tail ends near g.stmt inner.statement c d
  body {near : Prop} {c d : Cursor} : c.Mirrors g tail near d →
    inner.body.Mirrors g tail ends near g.stmts inner.body c d
  consumes : inner.statement.Consumes

namespace Parser
variable {g : Shift} {tail : Option (List Token)} {ends near : Prop} {inner : Levels}
  [inner.Advance] {c d : Cursor}

theorem expression_mirrors (hi : inner.Mirror g tail ends) (h : c.Mirrors g tail near d) :
    (expression inner).Mirrors g tail False near g.expr (expression inner) c d := by
  refine @Mirrors.bind _ _ _ _ _ _ _ _ _ _ _ _ _ _ _ _
    (fun target => by cases target <;> infer_instance) (hi.operand 0 h) fun target c' d' _ hd => ?_
  refine @Mirrors.of_live _ _ _ _ _ _ _ _ _ _ (by cases target <;> infer_instance) fun hl =>
    mirrors_peek_bind hd hl ?_
  by_cases hk : c'.current.kind = .symbol .equal
  · have hk' : (g.token c'.current).kind = .symbol .equal := hk
    rw [if_pos hk, if_pos hk']
    refine mirrors_take_bind hd (by simp [hk]) fun ha => ?_
    refine @Mirrors.bind _ _ _ _ _ _ _ _ _ _ _ _ _ _ _ _
      (fun _ => by cases target <;> infer_instance) (hi.value ha) fun value c'' d'' _ hd' => ?_
    have hspan : (g.expr target).span.join (g.expr value).span =
        g.span (target.span.join value.span) := by
      rw [g.span_expr, g.span_expr, g.span_join]
    dsimp only
    rw [hspan]
    cases target with
    | read node name =>
        exact mirrors_nodeAt_bind hd' rfl fun n _ _ h' => mirrors_pure h' rfl
    | property node object name =>
        exact mirrors_nodeAt_bind hd' rfl fun n _ _ h' => mirrors_pure h' rfl
    | _ => exact mirrors_note_bind hd' rfl fun h' => mirrors_pure h' rfl
  · have hk' : ¬ (g.token c'.current).kind = .symbol .equal := hk
    rw [if_neg hk, if_neg hk']
    exact mirrors_pure hd rfl

theorem literal_mirrors (h : c.Mirrors g tail near d) (hk : c.current.kind ≠ .endOfFile)
    {start start' : Nat} (hs : start' = start + g.offset) (value : Literal) :
    (literal start value).Mirrors g tail ends near g.expr (literal start' value) c d :=
  mirrors_take_bind h hk fun ha => mirrors_closeNode_bind ha hs fun _ _ _ h' => mirrors_pure h' rfl

theorem group_mirrors (hi : inner.Mirror g tail ends) (h : c.Mirrors g tail near d)
    (hk : c.current.kind ≠ .endOfFile) {start start' : Nat} (hs : start' = start + g.offset) :
    (group inner start).Mirrors g tail False near g.expr (group inner start') c d := by
  refine mirrors_take_bind h hk fun ha => ?_
  refine (expression_mirrors hi ha).bind fun e c' d' _ hd => ?_
  refine mirrors_expect_bind hd fun he => ?_
  exact mirrors_closeNode_bind he hs fun _ _ _ h' => mirrors_pure h' rfl

omit [inner.Advance] in
theorem unary_mirrors (hi : inner.Mirror g tail ends) (h : c.Mirrors g tail near d)
    (hk : c.current.kind ≠ .endOfFile) {start start' : Nat} (hs : start' = start + g.offset)
    (op : UnaryOp) :
    (unary inner start op).Mirrors g tail False near g.expr (unary inner start' op) c d := by
  refine mirrors_take_bind h hk fun ha => ?_
  refine (hi.operand _ ha).bind fun operand c' d' _ hd => ?_
  exact mirrors_closeNode_bind hd hs fun _ _ _ h' => mirrors_pure h' rfl

theorem primary_mirrors (hi : inner.Mirror g tail ends) (h : c.Mirrors g tail near d) :
    (primary inner).Mirrors g tail False near g.expr (primary inner) c d := by
  refine Mirrors.of_live fun hl => mirrors_peek_bind h hl ?_
  dsimp only [Shift.kind_token, Shift.span_token, Shift.start_span, Shift.toWord_token]
  cases hk : c.current.kind with
  | number value => exact literal_mirrors h (by simp [hk]) rfl _
  | string contents => exact literal_mirrors h (by simp [hk]) rfl _
  | name =>
      refine mirrors_take_bind h (by simp [hk]) fun ha => ?_
      exact mirrors_closeNode_bind ha rfl fun _ _ _ h' => mirrors_pure h' rfl
  | keyword k =>
      cases k with
      | true_ => exact literal_mirrors h (by simp [hk]) rfl _
      | false_ => exact literal_mirrors h (by simp [hk]) rfl _
      | nil_ => exact literal_mirrors h (by simp [hk]) rfl _
      | _ => exact mirrors_fail h (by rw [SyntaxFault.expected, SyntaxFault.expected]; rfl)
  | symbol s =>
      cases s with
      | leftParen => exact group_mirrors hi h (by simp [hk]) rfl
      | minus => exact unary_mirrors hi h (by simp [hk]) rfl _
      | bang => exact unary_mirrors hi h (by simp [hk]) rfl _
      | _ => exact mirrors_fail h rfl
  | endOfFile => exact mirrors_fail h rfl

theorem argument_mirrors (hi : inner.Mirror g tail ends) (i : Nat) (h : c.Mirrors g tail near d) :
    (argument inner i).Mirrors g tail False near g.expr (argument inner i) c d := by
  unfold argument
  dsimp only
  split
  · refine Mirrors.of_live fun hl => mirrors_peek_bind h hl ?_
    exact mirrors_note_bind h rfl fun h' => expression_mirrors hi h'
  · exact expression_mirrors hi h

theorem arguments_mirrors (hi : inner.Mirror g tail ends) (h : c.Mirrors g tail True d) :
    (arguments inner).Mirrors g tail False True g.exprs (arguments inner) c d := by
  refine Mirrors.of_live fun hl => ?_
  have hat := h.isAt hl .rightParen
  rw [funext g.exprs_eq_map]
  intro hs
  unfold arguments at hs ⊢
  rw [hat]
  split
  · exact .ok h
  · rename_i hc
    rw [if_neg hc] at hs
    exact commaList_mirrors (fun i _ _ h' => argument_mirrors hi i h') h hs

theorem callOn_mirrors (hi : inner.Mirror g tail ends) (h : c.Mirrors g tail near d)
    (hk : c.current.kind ≠ .endOfFile) (callee : Expr) :
    (callOn inner callee).Mirrors g tail False near g.expr (callOn inner (g.expr callee)) c d := by
  refine mirrors_take_bind h hk fun ha => ?_
  refine (arguments_mirrors hi ha).bind fun args c' d' _ hd => ?_
  refine mirrors_expect_bind hd fun he => ?_
  refine mirrors_closeNode_bind he (by rw [g.span_expr]; rfl) fun _ _ _ h' => mirrors_pure h' rfl

theorem propertyOf_mirrors (h : c.Mirrors g tail near d) (hk : c.current.kind ≠ .endOfFile)
    (object : Expr) :
    (propertyOf object).Mirrors g tail ends near g.expr (propertyOf (g.expr object)) c d := by
  refine mirrors_take_bind h hk fun ha => mirrors_expectName_bind ha fun name c' d' hd => ?_
  exact mirrors_closeNode_bind hd (by rw [g.span_expr]; rfl) fun _ _ _ h' => mirrors_pure h' rfl

omit [inner.Advance] in
theorem operation_mirrors (hi : inner.Mirror g tail ends) (h : c.Mirrors g tail near d)
    (hk : c.current.kind ≠ .endOfFile) (o : Operator) (left : Expr) :
    (operation inner o left).Mirrors g tail False near g.expr (operation inner o (g.expr left))
      c d := by
  refine mirrors_take_bind h hk fun ha => ?_
  refine (hi.operand _ ha).bind fun right c' d' _ hd => ?_
  have hspan : (g.expr left).span.join (g.expr right).span =
      g.span (left.span.join right.span) := by
    rw [g.span_expr, g.span_expr, g.span_join]
  exact mirrors_nodeAt_bind hd hspan fun n _ _ h' => mirrors_pure h' (g.expr_apply o n _ _).symm

/-- How an expression goes on does not depend on the shift. -/
theorem continuation?_mirrors (hi : inner.Mirror g tail ends) (floor : Nat) (left : Expr)
    (kind : TokenKind) :
    Option.Rel (fun more more' : Parser Expr => kind ≠ .endOfFile ∧
        (∃ f : Unit → Parser Expr, more = take >>= f ∧ ∀ u, Advances (f u)) ∧
        ∀ {c d : Cursor}, c.current.kind = kind → c.Mirrors g tail True d →
          more.Mirrors g tail False True g.expr more' c d)
      (continuation? inner floor left kind) (continuation? inner floor (g.expr left) kind) := by
  unfold continuation?
  split
  · refine .some ⟨nofun, ⟨_, rfl, fun u => ?_⟩, fun hk h => callOn_mirrors hi h (by simp [hk]) left⟩
    infer_instance
  · refine .some
      ⟨nofun, ⟨_, rfl, fun u => ?_⟩, fun hk h => propertyOf_mirrors h (by simp [hk]) left⟩
    infer_instance
  · split
    · rename_i o ho
      have hne : kind ≠ .endOfFile := by
        rintro rfl
        cases ho
      split
      · refine .some ⟨hne, ⟨_, rfl, fun u => ?_⟩,
          fun hk h => operation_mirrors hi h (hk ▸ hne) o left⟩
        infer_instance
      · exact .none
    · exact .none

omit [inner.Advance] in
theorem continuedWithin_of_upcoming_eq_nil (inner : Levels) (floor : Nat) (bound : List Token)
    (left : Expr) (hc : c.Closed) (hu : c.upcoming = []) :
    continuedWithin inner floor bound left c = .ok left c := by
  cases bound with
  | nil => rfl
  | cons t bound =>
      have hk := c.kind_current_of_upcoming_eq_nil hc hu
      rw [continuedWithin, hk]
      rfl

theorem continuedWithin_mirrors (hi : inner.Mirror g tail ends) (floor : Nat)
    {bound bound' : List Token} {left : Expr} (h : c.Mirrors g tail True d)
    (hroom : c.Room tail bound bound') :
    (continuedWithin inner floor bound left).Mirrors g tail False True g.expr
      (continuedWithin inner floor bound' (g.expr left)) c d := by
  induction bound generalizing bound' c d left with
  | nil =>
      refine Mirrors.of_live fun hl _ => ?_
      obtain ⟨hu, hv⟩ := h.exhausted hl hroom (.inl rfl)
      rw [continuedWithin_of_upcoming_eq_nil inner floor [] left h.closed hu,
        continuedWithin_of_upcoming_eq_nil inner floor bound' _ h.closed_copy hv]
      exact .ok h
  | cons t bound ih =>
      refine Mirrors.of_live fun hl => ?_
      cases bound' with
      | nil =>
          intro _
          obtain ⟨hu, -⟩ := h.exhausted hl hroom (.inr rfl)
          rw [continuedWithin_of_upcoming_eq_nil inner floor (t :: bound) left h.closed hu]
          exact .ok h
      | cons t' bound' =>
          rw [continuedWithin_cons, continuedWithin_cons]
          refine mirrors_peek_bind h hl ?_
          rw [Shift.kind_token]
          have hrel := continuation?_mirrors hi floor left c.current.kind
          generalize continuation? inner floor left c.current.kind = more at hrel ⊢
          generalize continuation? inner floor (g.expr left) c.current.kind = more' at hrel ⊢
          cases hrel with
          | none => exact mirrors_pure h rfl
          | some hmore =>
              obtain ⟨hk, ⟨f, rfl, hf⟩, hmirrors⟩ := hmore
              refine (hmirrors rfl h).bind fun e c' d' hok hd => ?_
              have hfewer := c.length_upcoming_advance h.closed hk
              have hle := (Advances.ok (p := f ()) hok).upcoming.length_le
              exact ih hd (hroom.rest (by omega))

theorem operand_mirrors (hi : inner.Mirror g tail ends) (floor : Nat)
    (h : c.Mirrors g tail near d) :
    (operand inner floor).Mirrors g tail False near g.expr (operand inner floor) c d := by
  refine (primary_mirrors hi h).bind fun first c' d' _ hd => ?_
  exact continuedWithin_mirrors hi floor hd hd.room

theorem optional_mirrors (hi : inner.Mirror g tail ends) (h : c.Mirrors g tail near d) :
    (some <$> expression inner).Mirrors g tail False near (Option.map g.expr)
      (some <$> expression inner) c d :=
  (expression_mirrors hi h).map fun _ => rfl

end Parser

end LamScope

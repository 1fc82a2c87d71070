import LamScope.Proofs.Reading.Grammar
import LamScope.Proofs.Reading.Takes

/-!
# Readings of expressions are derivations

What an expression parser takes without a fault is derivable, and the tree of the derivation is
what the parser gives. The binding of operators rests on one invariant of the loop that continues
an expression: the next token never holds on to the expression more tightly than the expression's
own level.
-/
namespace LamScope

open Grammar

/-- What the parsers of a level take is derivable. -/
structure Levels.Derives (inner : Levels) : Prop where
  operand {floor : Nat} {c d : Cursor} {ts : List Token} {e : Expr} :
    floor ≤ Operator.tightest → (inner.operand floor).Takes c ts e d →
      Operand (floor + 1) ts e ∧ pull d.current.kind ≤ floor
  value {c d : Cursor} {ts : List Token} {e : Expr} : inner.value.Takes c ts e d → Expression ts e
  statement {c d : Cursor} {ts : List Token} {s : Stmt} : inner.statement.Takes c ts s d →
    ∃ dangling, Statement dangling ts s ∧ (dangling = true → d.current.kind ≠ .keyword .else_)
  body {c d : Cursor} {ts : List Token} {body : List Stmt} :
    inner.body.Takes c ts body d → Body ts body

namespace Grammar

theorem Operand.of_read {level : Nat} {ts : List Token} {e : Expr} {node : Node} {name : Word}
    (h : Operand level ts e) (he : e = .read node name) :
    ∃ t : Token, t.kind = .name ∧ t.toWord = name ∧ ts = [t] :=
  match h with
  | .tighter h => h.of_read he
  | .operation (o := o) _ _ _ _ => by cases o <;> cases he
  | .unary _ _ _ => by cases he
  | .call _ _ _ _ _ _ => by cases he
  | .property _ _ _ _ => by cases he
  | .literal _ _ => by cases he
  | .name _ ht => by
      cases he
      exact ⟨_, ht, rfl, rfl⟩
  | .group _ _ _ _ => by cases he

theorem Operand.of_property {level : Nat} {ts : List Token} {e object : Expr} {node : Node}
    {name : Word} (h : Operand level ts e) (he : e = .property node object name) :
    ∃ us, ∃ dot t : Token, Operand postfixLevel us object ∧ dot.kind = .symbol .dot ∧
      t.kind = .name ∧ t.toWord = name ∧ ts = us ++ [dot, t] :=
  match h with
  | .tighter h => h.of_property he
  | .operation (o := o) _ _ _ _ => by cases o <;> cases he
  | .unary _ _ _ => by cases he
  | .call _ _ _ _ _ _ => by cases he
  | .property _ ho hd ht => by
      cases he
      exact ⟨_, _, _, ho, hd, ht, rfl, rfl⟩
  | .literal _ _ => by cases he
  | .name _ _ => by cases he
  | .group _ _ _ _ => by cases he

end Grammar

namespace Parser
variable {inner : Levels} [inner.Advance] {c d : Cursor} {ts : List Token} {e : Expr}

theorem expression_derives (hi : inner.Derives) (h : (expression inner).Takes c ts e d) :
    Expression ts e := by
  unfold expression at h
  obtain ⟨us, vs, target, c₁, rfl, h₁, h₂⟩ :=
    @exists_of_takes_bind _ _ _ _ _ _ _ _ _ (fun target => by cases target <;> infer_instance) h
  obtain ⟨ht, -⟩ := hi.operand (Nat.zero_le _) h₁
  rw [takes_peek_bind] at h₂
  split at h₂
  · rename_i hk
    obtain ⟨ws, rfl, h₃⟩ := @exists_of_takes_take_bind _ _ _ _ _ _
      (fun _ => by cases target <;> infer_instance) h₂ (by simp [hk])
    obtain ⟨ws, xs, value, c₂, rfl, h₄, h₅⟩ :=
      @exists_of_takes_bind _ _ _ _ _ _ _ _ _ (fun _ => by cases target <;> infer_instance) h₃
    have hv := hi.value h₄
    dsimp only at h₅
    split at h₅
    · rename_i name
      rw [takes_nodeAt_bind, takes_pure_iff] at h₅
      obtain ⟨-, rfl, rfl, -⟩ := h₅
      obtain ⟨t, hn, rfl, rfl⟩ := ht.of_read rfl
      simpa using Expression.assign _ hn hk hv
    · rename_i object name
      rw [takes_nodeAt_bind, takes_pure_iff] at h₅
      obtain ⟨-, rfl, rfl, -⟩ := h₅
      obtain ⟨us, dot, t, ho, hd, hn, rfl, rfl⟩ := ht.of_property rfl
      simpa using Expression.setProperty _ ho hd hn hk hv
    · exact (not_takes_note_bind h₅).elim
  · rw [takes_pure_iff] at h₂
    obtain ⟨-, rfl, rfl, -⟩ := h₂
    simpa using Expression.operand ht

theorem literal_derives {start : Nat} {value : Literal}
    (h : (literal start value).Takes c ts e d) (hk : c.current.kind = value.kind) :
    Operand primaryLevel ts e := by
  unfold literal at h
  have hc : c.current.kind ≠ .endOfFile := by
    rw [hk]
    unfold Literal.kind
    split <;> simp
  obtain ⟨us, rfl, h₁⟩ := exists_of_takes_take_bind h hc
  rw [takes_closeNode_bind, takes_pure_iff] at h₁
  obtain ⟨-, rfl, rfl, -⟩ := h₁
  exact .literal _ hk

theorem group_derives (hi : inner.Derives) {start : Nat} (h : (group inner start).Takes c ts e d)
    (hk : c.current.kind = .symbol .leftParen) : Operand primaryLevel ts e := by
  unfold group at h
  obtain ⟨us, rfl, h₁⟩ := exists_of_takes_take_bind h (by simp [hk])
  obtain ⟨us, vs, e, c₁, rfl, h₂, h₃⟩ := exists_of_takes_bind h₁
  obtain ⟨t, vs, ht, rfl, h₄⟩ := exists_of_takes_expect_bind h₃
  rw [takes_closeNode_bind, takes_pure_iff] at h₄
  obtain ⟨-, rfl, rfl, -⟩ := h₄
  exact .group _ hk (expression_derives hi h₂) ht

theorem unary_derives (hi : inner.Derives) {start : Nat} {op : UnaryOp}
    (h : (unary inner start op).Takes c ts e d) (hk : c.current.kind = op.kind) :
    Operand unaryLevel ts e ∧ pull d.current.kind ≤ unaryLevel := by
  unfold unary at h
  have hc : c.current.kind ≠ .endOfFile := by
    rw [hk]
    cases op <;> simp [UnaryOp.kind]
  obtain ⟨us, rfl, h₁⟩ := exists_of_takes_take_bind h hc
  obtain ⟨us, vs, e, c₁, rfl, h₂, h₃⟩ := exists_of_takes_bind h₁
  rw [takes_closeNode_bind, takes_pure_iff] at h₃
  obtain ⟨-, rfl, rfl, rfl⟩ := h₃
  obtain ⟨he, hp⟩ := hi.operand (Nat.le_refl _) h₂
  exact ⟨by simpa using Operand.unary _ hk he, Nat.le_succ_of_le hp⟩

/-- A primary expression and the level it has. -/
theorem primary_derives (hi : inner.Derives) (h : (primary inner).Takes c ts e d) :
    ∃ level, Operator.tightest < level ∧ Operand level ts e ∧ pull d.current.kind ≤ level := by
  have tight : ∀ {ts e}, Operand primaryLevel ts e → ∃ level, Operator.tightest < level ∧
      Operand level ts e ∧ pull d.current.kind ≤ level := fun h =>
    ⟨primaryLevel, by decide, h, Nat.le_succ_of_le (pull_le _)⟩
  unfold primary at h
  rw [takes_peek_bind] at h
  dsimp only at h
  split at h
  · rename_i value hk
    exact tight (literal_derives h hk)
  · rename_i contents hk
    exact tight (literal_derives h hk)
  · rename_i hk
    exact tight (literal_derives h hk)
  · rename_i hk
    exact tight (literal_derives h hk)
  · rename_i hk
    exact tight (literal_derives h hk)
  · rename_i hk
    obtain ⟨us, rfl, h₁⟩ := exists_of_takes_take_bind h (by simp [hk])
    rw [takes_closeNode_bind, takes_pure_iff] at h₁
    obtain ⟨-, rfl, rfl, -⟩ := h₁
    exact tight (.name _ hk)
  · rename_i hk
    exact tight (group_derives hi h hk)
  · rename_i hk
    exact ⟨unaryLevel, by decide, unary_derives hi h hk⟩
  · rename_i hk
    exact ⟨unaryLevel, by decide, unary_derives hi h hk⟩
  · exact (not_takes_fail h).elim

theorem argument_derives (hi : inner.Derives) {i : Nat} (h : (argument inner i).Takes c ts e d) :
    Expression ts e ∧ i ≠ maxArguments := by
  unfold argument at h
  dsimp only at h
  split at h
  · rw [takes_peek_bind] at h
    exact (not_takes_note_bind h).elim
  · rename_i hne
    exact ⟨expression_derives hi h, hne⟩

theorem commaItemsWithin_derives (hi : inner.Derives) {bound : List Token} {i : Nat}
    {es : List Expr} (h : (commaItemsWithin (argument inner) bound i).Takes c ts es d)
    (hle : i ≤ maxArguments) : MoreArguments ts es ∧ i + es.length ≤ maxArguments := by
  refine commaItemsWithin_induction
    (motive := fun i ts es => i ≤ maxArguments → MoreArguments ts es ∧ i + es.length ≤ maxArguments)
    (fun i hle => ⟨.none, hle⟩) (fun ht h ih hle => ?_) h hle
  obtain ⟨he, hne⟩ := argument_derives hi h
  obtain ⟨hes, hl⟩ := ih (by omega)
  refine ⟨.some ht he hes, ?_⟩
  rw [List.length_cons]
  omega

theorem arguments_derives (hi : inner.Derives) {es : List Expr}
    (h : (arguments inner).Takes c ts es d) : Arguments ts es ∧ es.length ≤ maxArguments := by
  rcases exists_of_takes_listed (fun _ => rfl) h with
    ⟨rfl, rfl⟩ | ⟨us, vs, first, others, c₁, rfl, rfl, h₁, h₂⟩
  · exact ⟨.none, Nat.zero_le _⟩
  · obtain ⟨hf, -⟩ := argument_derives hi h₁
    obtain ⟨ho, hl⟩ := commaItemsWithin_derives hi h₂ (by decide)
    refine ⟨.some hf ho, ?_⟩
    rw [List.length_cons]
    omega

theorem callOn_derives (hi : inner.Derives) {us : List Token} {callee : Expr}
    (h : (callOn inner callee).Takes c ts e d) (hc : Operand postfixLevel us callee)
    (hk : c.current.kind = .symbol .leftParen) : Operand postfixLevel (us ++ ts) e := by
  unfold callOn at h
  obtain ⟨vs, rfl, h₁⟩ := exists_of_takes_take_bind h (by simp [hk])
  obtain ⟨vs, ws, args, c₁, rfl, h₂, h₃⟩ := exists_of_takes_bind h₁
  obtain ⟨t, ws, ht, rfl, h₄⟩ := exists_of_takes_expect_bind h₃
  rw [takes_closeNode_bind, takes_pure_iff] at h₄
  obtain ⟨-, rfl, rfl, -⟩ := h₄
  obtain ⟨ha, hl⟩ := arguments_derives hi h₂
  simpa using Operand.call _ hc hk ha hl ht

theorem propertyOf_derives {us : List Token} {object : Expr}
    (h : (propertyOf object).Takes c ts e d) (ho : Operand postfixLevel us object)
    (hk : c.current.kind = .symbol .dot) : Operand postfixLevel (us ++ ts) e := by
  unfold propertyOf at h
  obtain ⟨vs, rfl, h₁⟩ := exists_of_takes_take_bind h (by simp [hk])
  obtain ⟨t, vs, ht, rfl, h₂⟩ := exists_of_takes_expectName_bind h₁
  rw [takes_closeNode_bind, takes_pure_iff] at h₂
  obtain ⟨-, rfl, rfl, -⟩ := h₂
  exact .property _ ho hk ht

theorem operation_derives (hi : inner.Derives) {us : List Token} {o : Operator} {left : Expr}
    (h : (operation inner o left).Takes c ts e d) (hl : Operand o.precedence us left)
    (hk : c.current.kind = o.kind) :
    Operand o.precedence (us ++ ts) e ∧ pull d.current.kind ≤ o.precedence := by
  unfold operation at h
  have hc : c.current.kind ≠ .endOfFile := by
    rw [hk]
    rcases o with op | op <;> cases op <;> simp [Operator.kind]
  obtain ⟨vs, rfl, h₁⟩ := exists_of_takes_take_bind h hc
  obtain ⟨vs, ws, right, c₁, rfl, h₂, h₃⟩ := exists_of_takes_bind h₁
  rw [takes_nodeAt_bind, takes_pure_iff] at h₃
  obtain ⟨-, rfl, rfl, rfl⟩ := h₃
  obtain ⟨hr, hp⟩ := hi.operand o.precedence_le h₂
  exact ⟨by simpa using Operand.operation _ hl hk hr, hp⟩

omit [inner.Advance] in
/-- Nothing continues an expression that the next token does not hold on to. -/
theorem pull_le_of_continuation? {floor : Nat} {left : Expr} {kind : TokenKind}
    (h : continuation? inner floor left kind = none) : pull kind ≤ floor := by
  unfold continuation? at h
  split at h
  · cases h
  · cases h
  · split at h
    · rename_i o ho
      split at h
      · cases h
      · rw [pull_of_ofKind? ho]
        omega
    · rename_i hn
      unfold pull
      split
      · simp_all
      · simp_all
      · simp [hn]

/-- One round of the loop keeps its invariant: the expression grows and has a level again that
the next token does not exceed. -/
theorem continuation?_derives (hi : inner.Derives) {floor level : Nat} {us : List Token}
    {left : Expr} {more : Parser Expr} (hf : floor ≤ Operator.tightest)
    (hm : continuation? inner floor left c.current.kind = some more) (h : more.Takes c ts e d)
    (hl : Operand level us left) (hp : pull c.current.kind ≤ level) :
    ∃ level', floor < level' ∧ Operand level' (us ++ ts) e ∧ pull d.current.kind ≤ level' := by
  have hpost : floor < postfixLevel := by
    unfold postfixLevel
    omega
  unfold continuation? at hm
  split at hm
  · rename_i hk
    cases hm
    rw [hk] at hp
    exact ⟨postfixLevel, hpost, callOn_derives hi h (hl.mono hp) hk, pull_le _⟩
  · rename_i hk
    cases hm
    rw [hk] at hp
    exact ⟨postfixLevel, hpost, propertyOf_derives h (hl.mono hp) hk, pull_le _⟩
  · split at hm
    · rename_i o ho
      split at hm <;> cases hm
      rename_i hlt
      rw [pull_of_ofKind? ho] at hp
      have hk := Operator.kind_of_ofKind? ho
      exact ⟨o.precedence, hlt, operation_derives hi h (hl.mono hp) hk⟩
    · cases hm

theorem continuation?_takes_ne_nil {floor : Nat} {left : Expr} {more : Parser Expr}
    (hm : continuation? inner floor left c.current.kind = some more) (h : more.Takes c ts e d) :
    ts ≠ [] := by
  have hk : c.current.kind ≠ .endOfFile := by
    intro hk
    simp [hk, continuation?, Operator.ofKind?] at hm
  unfold continuation? at hm
  split at hm
  · cases hm
    unfold callOn at h
    obtain ⟨us, rfl, -⟩ := exists_of_takes_take_bind h hk
    exact List.cons_ne_nil _ _
  · cases hm
    unfold propertyOf at h
    obtain ⟨us, rfl, -⟩ := exists_of_takes_take_bind h hk
    exact List.cons_ne_nil _ _
  · split at hm
    · split at hm <;> cases hm
      unfold operation at h
      obtain ⟨us, rfl, -⟩ := exists_of_takes_take_bind h hk
      exact List.cons_ne_nil _ _
    · cases hm

theorem continuedWithin_derives (hi : inner.Derives) {floor level : Nat}
    (hf : floor ≤ Operator.tightest) {bound us : List Token} {left : Expr}
    (hb : c.upcoming.length ≤ bound.length) (hl : Operand level us left)
    (hlt : floor < level) (hp : pull c.current.kind ≤ level)
    (h : (continuedWithin inner floor bound left).Takes c ts e d) :
    Operand (floor + 1) (us ++ ts) e ∧ pull d.current.kind ≤ floor := by
  induction bound generalizing c ts us left level with
  | nil =>
      rw [continuedWithin_nil] at h
      obtain ⟨hc, rfl, rfl, rfl⟩ := takes_pure_iff.mp h
      have hu : d.upcoming = [] := List.length_eq_zero_iff.mp (Nat.le_zero.mp hb)
      have hk : d.current.kind = .endOfFile := by simpa [Cursor.current, hu, Cursor.Closed] using hc
      rw [hk, List.append_nil]
      exact ⟨hl.mono hlt, Nat.zero_le _⟩
  | cons t bound ih =>
      rw [continuedWithin_cons, takes_peek_bind] at h
      split at h
      · rename_i hn
        obtain ⟨-, rfl, rfl, rfl⟩ := takes_pure_iff.mp h
        rw [List.append_nil]
        exact ⟨hl.mono hlt, pull_le_of_continuation? hn⟩
      · rename_i more hm
        have := continuation?_keeps (R := Cursor.Leads) hm
        obtain ⟨vs, ws, e', c₁, rfl, h₁, h₂⟩ := exists_of_takes_bind h
        obtain ⟨level', hlt', he', hp'⟩ := continuation?_derives hi hf hm h₁ hl hp
        have hne := continuation?_takes_ne_nil hm h₁
        rw [← List.append_assoc]
        exact ih (h₁.length_upcoming_le hne hb) he' hlt' hp' h₂

theorem operand_derives (hi : inner.Derives) {floor : Nat} (hf : floor ≤ Operator.tightest)
    (h : (operand inner floor).Takes c ts e d) :
    Operand (floor + 1) ts e ∧ pull d.current.kind ≤ floor := by
  unfold operand at h
  obtain ⟨us, vs, first, c₁, rfl, h₁, h₂⟩ := exists_of_takes_bind h
  obtain ⟨level, hlt, hl, hp⟩ := primary_derives hi h₁
  exact continuedWithin_derives hi hf (Nat.le_refl _) hl (by omega) hp (h₂.congr rfl)

end Parser

end LamScope

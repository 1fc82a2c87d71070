import LamScope.Proofs.Reading.Reads
import LamScope.Syntax.Reading

/-!
# Expressions are read back

A canonical expression is read from its own tokens if it does not nest too deep and nothing after
it continues it. An operand is read from its left end: whatever it starts with is read first and
then continued, so that reading an operand amounts to continuing it by what follows.
-/
namespace LamScope

namespace Grammar

/-- Kinds of tokens that an expression may start with. -/
def opensExpression : TokenKind → Bool
  | .number _ | .string _ | .name => true
  | .keyword .true_ | .keyword .false_ | .keyword .nil_ => true
  | .symbol .leftParen | .symbol .minus | .symbol .bang => true
  | _ => false

/-- What may follow a whole expression. -/
def Closes (kind : TokenKind) : Prop := pull kind = 0 ∧ kind ≠ .symbol .equal

theorem closes_semicolon : Closes (.symbol .semicolon) := ⟨rfl, by decide⟩

theorem closes_rightParen : Closes (.symbol .rightParen) := ⟨rfl, by decide⟩

theorem closes_comma : Closes (.symbol .comma) := ⟨rfl, by decide⟩

theorem pull_le_tightest {kind : TokenKind} (h : pull kind ≤ unaryLevel) :
    pull kind ≤ Operator.tightest := by
  unfold pull at *
  split at h
  · simp [postfixLevel, unaryLevel] at h
  · simp [postfixLevel, unaryLevel] at h
  · cases Operator.ofKind? kind with
    | none => exact Nat.zero_le _
    | some o => exact o.precedence_le

end Grammar

open Grammar

namespace Expr

/-- The same tree but for node numbers and spans. -/
def Alike (e e' : Expr) : Prop := e'.bare = e.bare

theorem nesting_pos : ∀ e : Expr, 0 < e.nesting
  | literal .. | read .. => Nat.one_pos
  | assign .. | unary .. | group .. => Nat.succ_pos _
  | binary _ _ left _ | logical _ _ left _ =>
      Nat.lt_of_lt_of_le left.nesting_pos (Nat.le_max_left ..)
  | call _ callee _ => Nat.lt_of_lt_of_le callee.nesting_pos (Nat.le_max_left ..)
  | property _ object _ => object.nesting_pos
  | setProperty _ object _ _ => Nat.lt_of_lt_of_le object.nesting_pos (Nat.le_max_left ..)

theorem exists_marks_eq_cons : ∀ e : Expr, ∃ m ms, e.marks = m :: ms ∧ opensExpression m.kind
  | literal _ value => ⟨_, [], rfl, by
      cases value with
      | bool b => cases b <;> rfl
      | _ => rfl⟩
  | read .. | assign .. | group .. => ⟨_, _, rfl, rfl⟩
  | unary _ op _ => ⟨_, _, rfl, by cases op <;> rfl⟩
  | binary _ _ left _ | logical _ _ left _ | call _ left _ | property _ left _
  | setProperty _ left _ _ => by
      obtain ⟨m, ms, hm, ho⟩ := left.exists_marks_eq_cons
      refine ⟨m, ?_, ?_, ho⟩
      rotate_left
      · simp only [marks, hm, List.cons_append]
        rfl

theorem ahead_marks (e : Expr) {mid after : TokenKind → Prop} (ns : List TokenMark)
    (h : ∀ kind, opensExpression kind → mid kind) : Ahead mid (e.marks ++ ns) after := by
  obtain ⟨m, ms, hm, ho⟩ := e.exists_marks_eq_cons
  rw [hm]
  exact h _ ho

end Expr

namespace Parser
variable {inner : Levels} {floor : Nat} {left : Expr} {m : TokenMark} {ms ns : List TokenMark}
  {mid after : TokenKind → Prop} {good goal : Expr → Prop}

/-- The expression read so far, continued by the marks `ns`, ends as wanted. -/
def Continues (inner : Levels) (floor : Nat) (left : Expr) (ns : List TokenMark)
    (after : TokenKind → Prop) (goal : Expr → Prop) : Prop :=
  ∀ bound : List Token, ns.length ≤ bound.length →
    (continuedWithin inner floor bound left).Reads ns after goal

theorem continuation?_eq_none {kind : TokenKind} (hf : floor ≤ Operator.tightest)
    (h : pull kind ≤ floor) : continuation? inner floor left kind = none := by
  have hpost : ¬ postfixLevel ≤ floor := by
    unfold postfixLevel
    omega
  unfold continuation?
  split
  · exact (hpost h).elim
  · exact (hpost h).elim
  · split
    · rename_i o ho
      rw [pull_of_ofKind? ho] at h
      exact if_neg (Nat.not_lt_of_le h)
    · rfl

theorem continuation?_kind {o : Operator} (h : floor < o.precedence) :
    continuation? inner floor left o.kind = some (operation inner o left) := by
  rcases o with op | op <;> cases op <;> exact if_pos h

theorem continues_nil (hf : floor ≤ Operator.tightest)
    (ha : ∀ kind, after kind → pull kind ≤ floor) (hg : goal left) :
    Continues inner floor left [] after goal := by
  intro bound _
  cases bound with
  | nil => exact reads_pure hg
  | cons t bound =>
      rw [continuedWithin_cons]
      refine reads_peek_bind _ ha fun t ht => ?_
      rw [continuation?_eq_none hf ht]
      exact reads_pure hg

theorem continues_cons {more : Parser Expr}
    (hm : continuation? inner floor left m.kind = some more) (hp : more.Reads (m :: ms) mid good)
    (ha : Ahead mid ns after) (hk : ∀ e, good e → Continues inner floor e ns after goal) :
    Continues inner floor left (m :: ms ++ ns) after goal := by
  intro bound hb
  cases bound with
  | nil => simp at hb
  | cons t bound =>
      rw [continuedWithin_cons]
      refine reads_peek_bind (· = m.kind) rfl fun t ht => ?_
      rw [ht, hm]
      refine hp.bind ha fun e he => hk e he bound ?_
      rw [List.cons_append, List.length_cons, List.length_cons, List.length_append] at hb
      omega

theorem operand_reads (hp : (primary inner).Reads ms mid good) (ha : Ahead mid ns after)
    (hk : ∀ e, good e → Continues inner floor e ns after goal) :
    (operand inner floor).Reads (ms ++ ns) after goal := by
  unfold operand
  exact hp.bind ha fun e he => reads_of_bound (hk e he)

theorem literal_reads {start : Nat} {value : Literal} :
    (literal start value).Reads [m] after (Expr.literal default value).Alike :=
  reads_take_bind (reads_closeNode_bind fun _ => reads_pure rfl)

theorem primary_reads_literal {value : Literal} {node : Node} :
    (primary inner).Reads (Expr.literal node value).marks (fun _ => True)
      (Expr.literal node value).Alike := by
  unfold primary Expr.marks
  refine reads_peek_bind_cons fun t ht => ?_
  rw [Token.kind_of_mark ht]
  cases value with
  | bool b => cases b <;> exact literal_reads
  | _ => exact literal_reads

theorem primary_reads_name {name : Word} {node : Node} :
    (primary inner).Reads (Expr.read node name).marks (fun _ => True)
      (Expr.read node name).Alike := by
  unfold primary Expr.marks
  refine reads_peek_bind_cons fun t ht => ?_
  have hk : t.kind = .name := Token.kind_of_mark ht
  rw [hk, Token.word_of_mark_name ht]
  exact reads_take_bind (reads_closeNode_bind fun _ => reads_pure rfl)

end Parser

namespace Expr

theorem Alike.apply {o : Operator} {node node' : Node} {left left' right right' : Expr}
    (hl : left.Alike left') (hr : right.Alike right') :
    (o.apply node left right).Alike (o.apply node' left' right') := by
  have h : (o.apply default left'.bare right'.bare) = o.apply default left.bare right.bare :=
    (congr (congrArg (o.apply default) hl) hr :)
  cases o <;> exact h

theorem Alike.call {node node' : Node} {callee callee' : Expr} {args args' : List Expr}
    (hc : callee.Alike callee') (ha : allBare args' = allBare args) :
    (call node callee args).Alike (call node' callee' args') :=
  (congr (congrArg (Expr.call default) hc) ha :)

theorem Alike.setProperty {node node' : Node} {object object' value value' : Expr} {name : Word}
    (ho : object.Alike object') (hv : value.Alike value') :
    (setProperty node object name value).Alike (setProperty node' object' name value') :=
  (congr (congrArg (Expr.setProperty default · name) ho) hv :)

theorem Alike.of_read {node : Node} {name : Word} {e : Expr} (h : (read node name).Alike e) :
    ∃ node', e = read node' name := by
  cases e <;> cases h
  exact ⟨_, rfl⟩

theorem Alike.of_property {node : Node} {object e : Expr} {name : Word}
    (h : (property node object name).Alike e) :
    ∃ node' object', e = property node' object' name ∧ object.Alike object' := by
  cases e with
  | property node' object' name' =>
      obtain ⟨-, ho, rfl⟩ := property.inj h
      exact ⟨node', object', rfl, ho⟩
  | _ => cases h

/-- Whatever goes on from the expression as read ends as wanted if it is read first. -/
def OperandReads (e : Expr) : Prop :=
  ∀ ⦃n floor : Nat⦄ ⦃ns : List TokenMark⦄ ⦃after : TokenKind → Prop⦄ ⦃goal : Expr → Prop⦄,
    e.nesting ≤ n + 1 → floor < e.level → Ahead (pull · ≤ e.level) ns after →
    (∀ e', e.Alike e' → Parser.Continues (.ofDepth n) floor e' ns after goal) →
    (Parser.operand (.ofDepth n) floor).Reads (e.marks ++ ns) after goal

/-- The expression is read back where a whole expression is asked for. -/
def WholeReads (e : Expr) : Prop :=
  ∀ ⦃n : Nat⦄, e.nesting ≤ n → (Parser.expression (.ofDepth n)).Reads e.marks Closes e.Alike

end Expr

namespace Parser
variable {e : Expr} {n floor : Nat} {node : Node}

theorem level_operand_reads (h : e.OperandReads) (hn : e.nesting ≤ n)
    (hf : floor ≤ Operator.tightest) (hl : floor < e.level) :
    ((Levels.ofDepth n).operand floor).Reads e.marks (pull · ≤ floor) e.Alike := by
  cases n with
  | zero => exact absurd e.nesting_pos (Nat.not_lt_of_le hn)
  | succ n =>
      have ha : Ahead (pull · ≤ e.level) [] (pull · ≤ floor) := fun kind hk =>
        Nat.le_trans hk (Nat.le_of_lt hl)
      have hr := h hn hl ha fun e' he => continues_nil hf (fun _ hk => hk) he
      rwa [List.append_nil] at hr

theorem whole_reads (h : e.OperandReads) (hl : 0 < e.level) : e.WholeReads := by
  intro n hn
  unfold expression
  refine (level_operand_reads h hn (Nat.zero_le _) hl).bind_last
    (fun kind hk => Nat.le_of_eq hk.1) fun target ht => ?_
  refine reads_peek_bind (· ≠ .symbol .equal) (fun kind hk => hk.2) fun equals he => ?_
  rw [if_neg he]
  exact reads_pure ht

theorem literal_operand_reads {value : Literal} : (Expr.literal node value).OperandReads :=
  fun _ _ _ _ _ _ _ _ hk => operand_reads primary_reads_literal (ahead_true _ _) hk

theorem read_operand_reads {name : Word} : (Expr.read node name).OperandReads :=
  fun _ _ _ _ _ _ _ _ hk => operand_reads primary_reads_name (ahead_true _ _) hk

theorem group_operand_reads (h : e.WholeReads) : (Expr.group node e).OperandReads := by
  intro n floor ns after goal hn hl ha hk
  have hp : (primary (.ofDepth n)).Reads (Expr.group node e).marks (fun _ => True)
      (Expr.group node e).Alike := by
    unfold primary Expr.marks
    refine reads_peek_bind_cons fun t ht => ?_
    rw [Token.kind_of_mark ht]
    refine reads_take_bind ?_
    refine (h (Nat.le_of_succ_le_succ hn)).bind closes_rightParen fun e' he => ?_
    refine reads_expect_bind (reads_closeNode_bind fun _ => reads_pure ?_)
    exact congrArg (Expr.group default) he
  exact operand_reads hp (ahead_true _ _) hk

theorem unary_operand_reads {op : UnaryOp} (h : e.OperandReads) (hl : unaryLevel ≤ e.level) :
    (Expr.unary node op e).OperandReads := by
  intro n floor ns after goal hn _ ha hk
  have hu : ∀ start, (unary (.ofDepth n) start op).Reads (Expr.unary node op e).marks
      (pull · ≤ Operator.tightest) (Expr.unary node op e).Alike := by
    intro start
    refine reads_take_bind ?_
    refine (level_operand_reads h (Nat.le_of_succ_le_succ hn) (Nat.le_refl _) hl).bind_last
      (fun _ hk => hk) fun e' he => ?_
    exact reads_closeNode_bind fun _ => reads_pure (congrArg (Expr.unary default op) he)
  have hp : (primary (.ofDepth n)).Reads (Expr.unary node op e).marks
      (pull · ≤ Operator.tightest) (Expr.unary node op e).Alike := by
    refine reads_peek_bind_cons fun t ht => ?_
    rw [Token.kind_of_mark ht]
    cases op <;> exact hu t.span.start
  exact operand_reads hp (ha.imp fun _ => pull_le_tightest) hk

theorem operation_operand_reads {o : Operator} {left right : Expr} (hl : left.OperandReads)
    (hr : right.OperandReads) (hll : o.precedence ≤ left.level)
    (hrl : o.precedence < right.level) : (o.apply node left right).OperandReads := by
  intro n floor ns after goal hn hf ha hk
  have hm : (o.apply node left right).marks = left.marks ++ ⟨o.kind, none⟩ :: right.marks := by
    cases o <;> rfl
  have hlevel : (o.apply node left right).level = o.precedence := by cases o <;> rfl
  have hnest : (o.apply node left right).nesting = max left.nesting (right.nesting + 1) := by
    cases o <;> rfl
  rw [hlevel] at hf ha
  rw [hnest] at hn
  rw [hm, List.append_assoc]
  have hpull : pull o.kind ≤ left.level := by rwa [pull_kind]
  refine hl (by omega) (Nat.lt_of_lt_of_le hf hll) hpull fun left' hl' => ?_
  have hp : (operation (.ofDepth n) o left').Reads (⟨o.kind, none⟩ :: right.marks)
      (pull · ≤ o.precedence) (o.apply node left right).Alike := by
    refine reads_take_bind ?_
    refine (level_operand_reads hr (by omega) o.precedence_le hrl).bind_last (fun _ hk => hk)
      fun right' hr' => ?_
    exact reads_nodeAt_bind fun node' => reads_pure (hl'.apply hr')
  exact continues_cons (continuation?_kind hf) hp ha hk

theorem property_operand_reads {object : Expr} {name : Word} (h : object.OperandReads)
    (hl : postfixLevel ≤ object.level) : (Expr.property node object name).OperandReads := by
  intro n floor ns after goal hn hf ha hk
  rw [Expr.marks, List.append_assoc]
  refine h hn (Nat.lt_of_lt_of_le hf hl) hl fun object' ho => ?_
  have hp : (propertyOf object').Reads [.symbol .dot, .name name] (fun _ => True)
      (Expr.property node object name).Alike := by
    refine reads_take_bind (reads_expectName_bind ?_)
    refine reads_closeNode_bind fun node' => reads_pure ?_
    exact congrArg (Expr.property default · name) ho
  exact continues_cons rfl hp (ahead_true _ _) hk

theorem argument_reads {i : Nat} (h : e.WholeReads) (hn : e.nesting ≤ n) (hi : i ≠ maxArguments) :
    (argument (.ofDepth n) i).Reads e.marks Closes e.Alike := by
  unfold argument
  simp only [if_neg hi]
  exact h hn

theorem arguments_reads {es : List Expr} (h : ∀ e ∈ es, e.WholeReads)
    (hn : Expr.allNesting es ≤ n) (hlen : es.length ≤ maxArguments) :
    (arguments (.ofDepth n)).Reads (Expr.argumentMarks es) (· = .symbol .rightParen)
      (Expr.allBare · = Expr.allBare es) := by
  rw [Expr.argumentMarks_eq]
  simp only [Expr.allBare_eq]
  refine listed_reads (fun _ => rfl) (fun i hi e he => ?_) (fun e _ ns => ?_) hlen
  · have hen := Expr.allNesting_le_iff.mp hn e he
    refine (argument_reads (h e he) hen (Nat.ne_of_lt hi)).weaken ?_ fun _ he' => he'
    rintro _ (rfl | rfl)
    · exact closes_comma
    · exact closes_rightParen
  · refine e.ahead_marks ns ?_
    rintro _ hk rfl
    cases hk

theorem call_operand_reads {callee : Expr} {args : List Expr} (h : callee.OperandReads)
    (hl : postfixLevel ≤ callee.level) (hargs : ∀ e ∈ args, e.WholeReads)
    (hlen : args.length ≤ maxArguments) : (Expr.call node callee args).OperandReads := by
  intro n floor ns after goal hn hf ha hk
  rw [Expr.nesting] at hn
  rw [Expr.marks, List.append_assoc, List.append_assoc, List.cons_append]
  refine h (by omega) (Nat.lt_of_lt_of_le hf hl) hl fun callee' hc => ?_
  rw [← List.append_assoc, ← List.cons_append]
  have hp : (callOn (.ofDepth n) callee').Reads
      (.symbol .leftParen :: (Expr.argumentMarks args ++ [.symbol .rightParen]))
      (fun _ => True) (Expr.call node callee args).Alike := by
    refine reads_take_bind ?_
    refine (arguments_reads hargs (by omega) hlen).bind rfl fun args' ha' => ?_
    exact reads_expect_bind (reads_closeNode_bind fun node' => reads_pure (hc.call ha'))
  exact continues_cons rfl hp (ahead_true _ _) hk

theorem assign_whole_reads {name : Word} {value : Expr} (h : value.WholeReads) :
    (Expr.assign node name value).WholeReads := by
  intro n hn
  cases n with
  | zero => cases hn
  | succ n =>
      have hread : (Expr.read default name).OperandReads := read_operand_reads
      have htarget := level_operand_reads hread (Nat.succ_pos n) (Nat.zero_le _) (Nat.succ_pos _)
      have ha : Ahead (pull · ≤ 0) (.symbol .equal :: value.marks) Closes := Nat.le_refl 0
      unfold expression
      refine htarget.bind ha fun target ht => ?_
      obtain ⟨node', rfl⟩ := ht.of_read
      refine reads_peek_bind (· = .symbol .equal) rfl fun equals he => ?_
      rw [if_pos he]
      refine reads_take_bind ?_
      refine Reads.bind_last (h (Nat.le_of_succ_le_succ hn)) (fun _ hk => hk) fun value' hv => ?_
      exact reads_nodeAt_bind fun _ => reads_pure (congrArg (Expr.assign default name) hv)

theorem setProperty_whole_reads {object value : Expr} {name : Word} (ho : object.OperandReads)
    (hl : postfixLevel ≤ object.level) (h : value.WholeReads) :
    (Expr.setProperty node object name value).WholeReads := by
  intro n hn
  rw [Expr.nesting] at hn
  cases n with
  | zero => omega
  | succ n =>
      have hm : (Expr.setProperty node object name value).marks =
          (Expr.property node object name).marks ++ .symbol .equal :: value.marks := by
        rw [Expr.marks, Expr.marks, List.append_assoc]
        rfl
      have hproperty : (Expr.property node object name).OperandReads :=
        property_operand_reads ho hl
      have htarget := level_operand_reads hproperty (Nat.le_trans (Nat.le_max_left ..) hn)
        (Nat.zero_le _) (Nat.succ_pos _)
      rw [hm]
      unfold expression
      refine htarget.bind (Nat.le_refl 0) fun target ht => ?_
      obtain ⟨node', object', rfl, ho'⟩ := ht.of_property
      refine reads_peek_bind (· = .symbol .equal) rfl fun equals he => ?_
      rw [if_pos he]
      refine reads_take_bind ?_
      refine Reads.bind_last (h (by omega)) (fun _ hk => hk) fun value' hv => ?_
      exact reads_nodeAt_bind fun _ => reads_pure (ho'.setProperty hv)

end Parser

open LamScope.Parser

mutual

theorem Expr.reads : ∀ e : Expr, e.Canonical → e.OperandReads ∧ e.WholeReads
  | .literal .., _ =>
      ⟨literal_operand_reads, whole_reads literal_operand_reads (Nat.succ_pos _)⟩
  | .read .., _ => ⟨read_operand_reads, whole_reads read_operand_reads (Nat.succ_pos _)⟩
  | .assign _ _ value, h =>
      ⟨fun _ _ _ _ _ _ hl _ _ => absurd hl (Nat.not_lt_zero _),
        assign_whole_reads (value.reads h).2⟩
  | .binary _ op left right, h =>
      have hr : (Expr.binary _ op left right).OperandReads :=
        operation_operand_reads (o := .binary op) (left.reads h.2.2.1).1 (right.reads h.2.2.2).1
          h.1 h.2.1
      ⟨hr, whole_reads hr (Operator.binary op).precedence_pos⟩
  | .logical _ op left right, h =>
      have hr : (Expr.logical _ op left right).OperandReads :=
        operation_operand_reads (o := .logical op) (left.reads h.2.2.1).1 (right.reads h.2.2.2).1
          h.1 h.2.1
      ⟨hr, whole_reads hr (Operator.logical op).precedence_pos⟩
  | .unary _ _ operand, h =>
      have hr := unary_operand_reads (operand.reads h.2).1 h.1
      ⟨hr, whole_reads hr (Nat.succ_pos _)⟩
  | .group _ inner, h =>
      have hr := group_operand_reads (inner.reads h).2
      ⟨hr, whole_reads hr (Nat.succ_pos _)⟩
  | .call _ callee args, h =>
      have hr := call_operand_reads (callee.reads h.2.2.1).1 h.1 (allRead args h.2.2.2) h.2.1
      ⟨hr, whole_reads hr (Nat.succ_pos _)⟩
  | .property _ object _, h =>
      have hr := property_operand_reads (object.reads h.2).1 h.1
      ⟨hr, whole_reads hr (Nat.succ_pos _)⟩
  | .setProperty _ object _ value, h =>
      ⟨fun _ _ _ _ _ _ hl _ _ => absurd hl (Nat.not_lt_zero _),
        setProperty_whole_reads (object.reads h.2.1).1 h.1 (value.reads h.2.2).2⟩

theorem Expr.allRead : ∀ es : List Expr, AllCanonical es → ∀ e ∈ es, e.WholeReads
  | [], _ => nofun
  | e :: es, h => List.forall_mem_cons.mpr ⟨(e.reads h.1).2, allRead es h.2⟩

end

end LamScope

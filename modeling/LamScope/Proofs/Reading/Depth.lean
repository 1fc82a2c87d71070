import LamScope.Proofs.Reading.Motion

/-!
# The depth of nesting

A parser counts in its cursor how deep the construct is that it reads: it adds one where it enters a
level and takes one off where it leaves it, whether the construct was read or not. So at every depth
it does what the parser does to which the levels left at that depth are handed down, and it stops at
the depth at which it began. `CountsAt` is a class, so that how a parser counts follows from how its
parts count.
-/
namespace LamScope

/-- At depth `d` the first parser does what the second does at any depth, and stops at depth `d`. -/
class Parser.CountsAt (d : Nat) {α : Type} (p q : Parser α) : Prop where
  counts : ∀ c : Cursor, p (c.atDepth d) = (q c).atDepth d

namespace Parser
variable {α β : Type} {d : Nat}

/-- A parser that does not go by the depth does not change it either. -/
theorem CountsAt.eq {p q : Parser α} {c : Cursor} (h : CountsAt c.depth p q)
    (hself : CountsAt c.depth q q) : p c = q c :=
  (h.counts c).trans (hself.counts c).symm

theorem CountsAt.depth_next {p q : Parser α} {c : Cursor} (h : CountsAt c.depth p q) :
    (p c).next.depth = c.depth := by
  have hreply : p c = (q c).atDepth c.depth := h.counts c
  rw [hreply]
  cases q c <;> rfl

instance (a : α) : CountsAt d (pure a) (pure a) := ⟨fun _ => rfl⟩

theorem countsAt_bind {p q : Parser α} {f g : α → Parser β} (hp : CountsAt d p q)
    (hf : ∀ a, CountsAt d (f a) (g a)) : CountsAt d (p >>= f) (q >>= g) where
  counts c := by
    rw [bind_apply, bind_apply, hp.counts c]
    cases q c with
    | ok a next => exact (hf a).counts next
    | failed fault next => rfl

instance (p q : Parser α) (f g : α → Parser β) [hp : CountsAt d p q]
    [hf : ∀ a, CountsAt d (f a) (g a)] : CountsAt d (p >>= f) (q >>= g) := countsAt_bind hp hf

instance (p q : Parser α) (f : α → β) [CountsAt d p q] : CountsAt d (f <$> p) (f <$> q) :=
  inferInstanceAs (CountsAt d (p >>= fun a => pure (f a)) (q >>= fun a => pure (f a)))

instance (P : Prop) [Decidable P] (p p' q q' : Parser α) [CountsAt d p q] [CountsAt d p' q'] :
    CountsAt d (if P then p else p') (if P then q else q') := by
  split <;> infer_instance

instance (f : SyntaxFault) : CountsAt d (fail f : Parser α) (fail f) := ⟨fun _ => rfl⟩

instance (f : SyntaxFault) : CountsAt d (note f) (note f) := ⟨fun _ => rfl⟩

instance : CountsAt d peek peek := ⟨fun _ => rfl⟩

@[simp] theorem advance_atDepth (c : Cursor) : (c.atDepth d).advance = c.advance.atDepth d := by
  unfold Cursor.advance Cursor.atDepth
  dsimp only
  split <;> simp [*]

instance : CountsAt d take take := ⟨fun c => by rw [take, advance_atDepth]; rfl⟩

/-- What is decided by the next token and takes it, or fails there. -/
theorem countsAt_taking {P : Cursor → Prop} [DecidablePred P] (h : ∀ c, P (c.atDepth d) ↔ P c)
    (a : Cursor → α) (ha : ∀ c, a (c.atDepth d) = a c) {p q : Parser α} (hp : CountsAt d p q) :
    CountsAt d (fun c => if P c then .ok (a c) c.advance else p c)
      (fun c => if P c then .ok (a c) c.advance else q c) where
  counts c := by
    by_cases hc : P c
    · rw [if_pos ((h c).mpr hc), if_pos hc, ha, advance_atDepth]
      rfl
    · rw [if_neg fun h' => hc ((h c).mp h'), if_neg hc]
      exact hp.counts c

instance (s : Symbol) : CountsAt d (accept s) (accept s) :=
  countsAt_taking (fun _ => Iff.rfl) _ (fun _ => rfl) (p := pure false) (q := pure false)
    inferInstance

/-- Fails at the next token. -/
theorem countsAt_failing (f : Token → SyntaxFault) :
    CountsAt d (fun c => .failed (f c.current) c : Parser α) (fun c => .failed (f c.current) c) :=
  ⟨fun _ => rfl⟩

instance (s : Symbol) : CountsAt d (expect s) (expect s) :=
  countsAt_taking (fun _ => Iff.rfl) _ (fun _ => rfl) (countsAt_failing _)

instance : CountsAt d expectName expectName :=
  countsAt_taking (fun _ => Iff.rfl) _ (fun _ => rfl) (countsAt_failing _)

instance (start : Nat) : CountsAt d (closeNode start) (closeNode start) := ⟨fun _ => rfl⟩

instance (span : Span) : CountsAt d (nodeAt span) (nodeAt span) := ⟨fun _ => rfl⟩

theorem countsAt_manyWithin {stop : Cursor → Bool} (hstop : ∀ c, stop (c.atDepth d) = stop c)
    {item item' : Parser α} [CountsAt d item item'] (bound : List Token) :
    CountsAt d (manyWithin stop item bound) (manyWithin stop item' bound) := by
  induction bound with
  | nil => exact ⟨fun _ => rfl⟩
  | cons t bound ih =>
      constructor
      intro c
      rw [manyWithin_cons, manyWithin_cons, hstop]
      change (if stop c || c.atEnd then _ else _) = _
      split
      · rfl
      · have hitems : CountsAt d (do return (← item) :: (← manyWithin stop item bound))
            (do return (← item') :: (← manyWithin stop item' bound)) := inferInstance
        exact hitems.counts c

theorem countsAt_many {stop : Cursor → Bool} (hstop : ∀ c, stop (c.atDepth d) = stop c)
    {item item' : Parser α} [CountsAt d item item'] :
    CountsAt d (many stop item) (many stop item') :=
  ⟨fun c => (countsAt_manyWithin hstop c.upcoming).counts c⟩

instance (item item' : Nat → Parser α) [∀ i, CountsAt d (item i) (item' i)] (bound : List Token)
    (i : Nat) : CountsAt d (commaItemsWithin item bound i) (commaItemsWithin item' bound i) := by
  induction bound generalizing i with
  | nil => exact ⟨fun _ => rfl⟩
  | cons t bound ih =>
      rw [commaItemsWithin_cons, commaItemsWithin_cons]
      infer_instance

instance (item item' : Nat → Parser α) [∀ i, CountsAt d (item i) (item' i)] :
    CountsAt d (commaList item) (commaList item') := by
  have hothers : CountsAt d (fun c => commaItemsWithin item c.upcoming 1 c)
      (fun c => commaItemsWithin item' c.upcoming 1 c) :=
    ⟨fun c => CountsAt.counts (p := commaItemsWithin item c.upcoming 1)
      (q := commaItemsWithin item' c.upcoming 1) c⟩
  exact countsAt_bind inferInstance fun first => countsAt_bind hothers inferInstance

end Parser

/-- All parsers of the first levels count at depth `d` as those of the second. -/
class Levels.CountAt (d : Nat) (inner inner' : Levels) : Prop where
  operand : ∀ floor, Parser.CountsAt d (inner.operand floor) (inner'.operand floor)
  value : Parser.CountsAt d inner.value inner'.value
  statement : Parser.CountsAt d inner.statement inner'.statement
  body : Parser.CountsAt d inner.body inner'.body

namespace Parser
variable {d : Nat} (inner inner' : Levels) [h : inner.CountAt d inner']

instance (floor : Nat) : CountsAt d (inner.operand floor) (inner'.operand floor) := h.operand floor
instance : CountsAt d inner.value inner'.value := h.value
instance : CountsAt d inner.statement inner'.statement := h.statement
instance : CountsAt d inner.body inner'.body := h.body

omit h in
instance (start : Nat) (value : Literal) :
    CountsAt d (literal start value) (literal start value) := by
  unfold literal
  infer_instance

instance : CountsAt d (expression inner) (expression inner') := by
  unfold expression
  refine countsAt_bind inferInstance fun target => ?_
  cases target <;> infer_instance

instance (start : Nat) (op : UnaryOp) :
    CountsAt d (unary inner start op) (unary inner' start op) := by
  unfold unary
  infer_instance

instance (start : Nat) : CountsAt d (group inner start) (group inner' start) := by
  unfold group
  infer_instance

instance : CountsAt d (primary inner) (primary inner') := by
  unfold primary
  refine countsAt_bind inferInstance fun t => ?_
  dsimp only
  split <;> infer_instance

instance (i : Nat) : CountsAt d (argument inner i) (argument inner' i) := by
  unfold argument
  infer_instance

instance : CountsAt d (arguments inner) (arguments inner') where
  counts c := by
    unfold arguments
    change (if c.isAt .rightParen then _ else _) = _
    split
    · rfl
    · exact CountsAt.counts c

instance (callee : Expr) : CountsAt d (callOn inner callee) (callOn inner' callee) := by
  unfold callOn
  infer_instance

omit h in
instance (object : Expr) : CountsAt d (propertyOf object) (propertyOf object) := by
  unfold propertyOf
  infer_instance

instance (o : Operator) (left : Expr) :
    CountsAt d (operation inner o left) (operation inner' o left) := by
  unfold operation
  infer_instance

/-- An expression goes on in the same way. -/
theorem continuation?_countsAt (floor : Nat) (left : Expr) (kind : TokenKind) :
    Option.Rel (CountsAt d) (continuation? inner floor left kind)
      (continuation? inner' floor left kind) := by
  unfold continuation?
  split
  · exact .some inferInstance
  · exact .some inferInstance
  · split
    · split
      · exact .some inferInstance
      · exact .none
    · exact .none

instance (floor : Nat) (bound : List Token) (left : Expr) :
    CountsAt d (continuedWithin inner floor bound left)
      (continuedWithin inner' floor bound left) := by
  induction bound generalizing left with
  | nil => exact ⟨fun _ => rfl⟩
  | cons t bound ih =>
      rw [continuedWithin_cons, continuedWithin_cons]
      refine countsAt_bind inferInstance fun next => ?_
      have hmore := continuation?_countsAt (d := d) inner inner' floor left next.kind
      generalize continuation? inner floor left next.kind = more at hmore
      generalize continuation? inner' floor left next.kind = more' at hmore
      cases hmore with
      | none => infer_instance
      | some hmore => exact countsAt_bind hmore ih

instance (floor : Nat) (left : Expr) :
    CountsAt d (continued inner floor left) (continued inner' floor left) :=
  ⟨fun c => CountsAt.counts (p := continuedWithin inner floor c.upcoming left)
    (q := continuedWithin inner' floor c.upcoming left) c⟩

instance (floor : Nat) : CountsAt d (operand inner floor) (operand inner' floor) := by
  unfold operand
  infer_instance

omit h in
theorem resume_atDepth (x : Extent) (c : Cursor) :
    (c.atDepth d).resume x = (c.resume x).atDepth d := by
  unfold Cursor.resume Cursor.atDepth
  dsimp only
  split
  · simp [*]
  · split <;> simp [*]

omit h in
theorem sequenceWithin_countsAt (x : Extent) (item item' : Parser Stmt)
    [hitem : CountsAt d item item'] (bound : List Token) (c : Cursor) :
    sequenceWithin x item bound (c.atDepth d) =
      ((sequenceWithin x item' bound c).1, (sequenceWithin x item' bound c).2.atDepth d) := by
  induction bound generalizing c with
  | nil => rfl
  | cons t bound ih =>
      unfold sequenceWithin
      rw [hitem.counts c]
      change (if c.atEnd || x.endsAt c.current.kind then _ else _) = _
      split
      · rfl
      · cases item' c with
        | ok s next => simp [Reply.atDepth, ih]
        | failed fault next =>
            simp only [Reply.atDepth]
            change (if maxSyntaxFaults ≤ (next.note fault).faults.length then _ else
              sequenceWithin x item bound (((next.note fault).atDepth d).resume x)) = _
            split
            · rfl
            · rw [resume_atDepth, ih]

omit h in
instance (x : Extent) (item item' : Parser Stmt) [CountsAt d item item'] :
    CountsAt d (statements x item) (statements x item') where
  counts c := by
    have hsequence : sequence x item (c.atDepth d) = _ :=
      sequenceWithin_countsAt x item item' c.upcoming c
    unfold statements
    rw [hsequence]
    rfl

instance (start : Nat) : CountsAt d (variableRest inner start) (variableRest inner' start) := by
  unfold variableRest
  infer_instance

omit h in
instance : CountsAt d parameters parameters where
  counts c := by
    unfold parameters
    change (if c.isAt .rightParen then _ else _) = _
    split
    · rfl
    · exact CountsAt.counts c

instance : CountsAt d (callable inner) (callable inner') := by
  unfold callable
  infer_instance

instance (start : Nat) : CountsAt d (classRest inner start) (classRest inner' start) := by
  have hmethods : CountsAt d (many (·.isAt .rightBrace) (callable inner))
      (many (·.isAt .rightBrace) (callable inner')) := countsAt_many fun _ => rfl
  unfold classRest
  infer_instance

instance : CountsAt d (declaration inner) (declaration inner') := by
  unfold declaration
  refine countsAt_bind inferInstance fun t => ?_
  dsimp only
  split <;> infer_instance

instance : CountsAt d (braces inner) (braces inner') := by
  rw [braces_eq, braces_eq]
  infer_instance

instance : CountsAt d (condition inner) (condition inner') := by
  unfold condition
  infer_instance

instance (start : Nat) : CountsAt d (ifRest inner start) (ifRest inner' start) := by
  unfold ifRest
  infer_instance

instance (keyword : Word) : CountsAt d (returnRest inner keyword) (returnRest inner' keyword) := by
  unfold returnRest
  infer_instance

instance : CountsAt d (forInit inner) (forInit inner') := by
  unfold forInit
  refine countsAt_bind inferInstance fun t => ?_
  dsimp only
  split <;> infer_instance

instance (closer : Symbol) : CountsAt d (forClause inner closer) (forClause inner' closer) := by
  unfold forClause
  infer_instance

omit h in
instance (span : Span) (body : Stmt) (increment : Option Expr) :
    CountsAt d (withIncrement span body increment) (withIncrement span body increment) := by
  cases increment <;> unfold withIncrement <;> infer_instance

omit h in
instance (span : Span) (cond : Option Expr) : CountsAt d (orTrue span cond) (orTrue span cond) := by
  cases cond <;> unfold orTrue <;> infer_instance

omit h in
instance (span : Span) (loop : Stmt) (init : Option Stmt) :
    CountsAt d (withInit span loop init) (withInit span loop init) := by
  cases init <;> unfold withInit <;> infer_instance

instance (start : Nat) : CountsAt d (forRest inner start) (forRest inner' start) := by
  have hend (init : Option Stmt) (cond increment : Option Expr) (body : Stmt) :
      let rest : Parser Stmt := do
        let span ← fun c => Reply.ok (Span.mk start c.previous.span.stop) c
        let body ← withIncrement span body increment
        let cond ← orTrue span cond
        let loop := Stmt.loop (← nodeAt span) cond body
        withInit span loop init
      CountsAt d rest rest := countsAt_bind ⟨fun _ => rfl⟩ fun span => inferInstance
  unfold forRest
  infer_instance

instance : CountsAt d (statement inner) (statement inner') := by
  unfold statement
  refine countsAt_bind inferInstance fun t => ?_
  dsimp only
  split <;> infer_instance

omit h in
instance {α : Type} : CountsAt d (tooDeep : Parser α) tooDeep := ⟨fun _ => rfl⟩

/-- What a parser does one level deeper it does from here, and the level is left again. -/
theorem nested_countsAt_of_lt {α : Type} {p q : Parser α} (hd : d < maxNesting)
    (hp : CountsAt (d + 1) p q) : CountsAt d (nested p) q where
  counts c := by
    have hroom : ¬ maxNesting ≤ (c.atDepth d).depth := Nat.not_le.mpr hd
    have hinner : p ((c.atDepth d).atDepth (d + 1)) = (q c).atDepth (d + 1) := hp.counts c
    unfold nested
    rw [if_neg hroom]
    change (p ((c.atDepth d).atDepth (d + 1))).atDepth
      ((p ((c.atDepth d).atDepth (d + 1))).next.depth - 1) = _
    rw [hinner]
    cases q c <;> rfl

/-- Where no level is left nothing is read. -/
theorem nested_countsAt_of_le {α : Type} (p : Parser α) (hd : maxNesting ≤ d) :
    CountsAt d (nested p) tooDeep where
  counts c := by
    have hfull : maxNesting ≤ (c.atDepth d).depth := hd
    unfold nested
    rw [if_pos hfull]
    rfl

end Parser

namespace Levels
variable {d : Nat}

instance : exhausted.CountAt d exhausted where
  operand _ := inferInstanceAs (Parser.CountsAt d Parser.tooDeep Parser.tooDeep)
  value := inferInstanceAs (Parser.CountsAt d Parser.tooDeep Parser.tooDeep)
  statement := inferInstanceAs (Parser.CountsAt d Parser.tooDeep Parser.tooDeep)
  body := inferInstanceAs (Parser.CountsAt d Parser.tooDeep Parser.tooDeep)

instance next_countAt (inner inner' : Levels) [inner.CountAt d inner'] :
    inner.next.CountAt d inner'.next where
  operand floor :=
    inferInstanceAs (Parser.CountsAt d (Parser.operand inner floor) (Parser.operand inner' floor))
  value := inferInstanceAs (Parser.CountsAt d (Parser.expression inner) (Parser.expression inner'))
  statement :=
    inferInstanceAs (Parser.CountsAt d (Parser.statement inner) (Parser.statement inner'))
  body := inferInstanceAs (Parser.CountsAt d (Parser.braces inner) (Parser.braces inner'))

instance ofDepth_countAt_self (n : Nat) : (ofDepth n).CountAt d (ofDepth n) := by
  induction n with
  | zero => exact inferInstanceAs (exhausted.CountAt d exhausted)
  | succ n ih => exact next_countAt (ofDepth n) (ofDepth n)

theorem nested_countAt_of_lt {inner inner' : Levels} (hd : d < maxNesting)
    (h : inner.CountAt (d + 1) inner') : inner.nested.CountAt d inner'.next where
  operand floor := Parser.nested_countsAt_of_lt hd ((next_countAt inner inner').operand floor)
  value := Parser.nested_countsAt_of_lt hd (next_countAt inner inner').value
  statement := Parser.nested_countsAt_of_lt hd (next_countAt inner inner').statement
  body := Parser.nested_countsAt_of_lt hd (next_countAt inner inner').body

theorem nested_countAt_of_le (inner : Levels) (hd : maxNesting ≤ d) :
    inner.nested.CountAt d exhausted where
  operand _ := Parser.nested_countsAt_of_le _ hd
  value := Parser.nested_countsAt_of_le _ hd
  statement := Parser.nested_countsAt_of_le _ hd
  body := Parser.nested_countsAt_of_le _ hd

theorem counted_countAt {n : Nat} (h : maxNesting ≤ n + d) :
    (counted n).CountAt d (ofDepth (maxNesting - d)) := by
  induction n generalizing d with
  | zero =>
      have hnone : maxNesting - d = 0 := by omega
      rw [hnone]
      exact inferInstanceAs (exhausted.CountAt d exhausted)
  | succ n ih =>
      rcases Nat.lt_or_ge d maxNesting with hlt | hge
      · have hlevels : maxNesting - d = maxNesting - (d + 1) + 1 := by omega
        rw [hlevels]
        exact nested_countAt_of_lt hlt (ih (by omega))
      · have hnone : maxNesting - d = 0 := by omega
        rw [hnone]
        exact nested_countAt_of_le (counted n) hge

instance outermost_countAt : outermost.CountAt d (ofDepth (maxNesting - d)) :=
  counted_countAt (by omega)

end Levels

/-- The levels that are left at the depth of a cursor. -/
def Cursor.levels (c : Cursor) : Levels := .ofDepth (maxNesting - c.depth)

namespace Parser

theorem expression_outermost (c : Cursor) :
    expression .outermost c = expression c.levels c := by
  unfold Cursor.levels
  exact CountsAt.eq inferInstance inferInstance

theorem declaration_outermost (c : Cursor) :
    declaration .outermost c = declaration c.levels c := by
  unfold Cursor.levels
  exact CountsAt.eq inferInstance inferInstance

theorem statements_outermost (x : Extent) (c : Cursor) :
    statements x (declaration .outermost) c = statements x (declaration c.levels) c := by
  unfold Cursor.levels
  exact CountsAt.eq inferInstance inferInstance

theorem sequence_outermost (x : Extent) (c : Cursor) :
    sequence x (declaration .outermost) c = sequence x (declaration c.levels) c := by
  have h := statements_outermost x c
  unfold statements at h
  exact Prod.ext (Reply.ok.inj h).1 (Reply.ok.inj h).2

instance (c : Cursor) {R : Cursor → Cursor → Prop} [Cursor.Motion R] : c.levels.Keep R :=
  Levels.ofDepth_keep (maxNesting - c.depth)

instance keeps_expression_outermost {R : Cursor → Cursor → Prop} [Cursor.Motion R] :
    Keeps R (expression .outermost) where
  keeps c := by
    rw [expression_outermost]
    exact Keeps.keeps c

instance keeps_declaration_outermost {R : Cursor → Cursor → Prop} [Cursor.Motion R] :
    Keeps R (declaration .outermost) where
  keeps c := by
    rw [declaration_outermost]
    exact Keeps.keeps c

/-- An expression, read or not, leaves all levels that it entered. -/
theorem depth_outermostExpression (c : Cursor) :
    (outermostExpression c).next.depth = c.depth := by
  have h : CountsAt c.depth (expression .outermost)
      (expression (.ofDepth (maxNesting - c.depth))) := inferInstance
  exact h.depth_next

end Parser

/-- All levels are left at the beginning of a list of tokens. -/
theorem Program.ofTokens_eq (tokens : List Token) :
    ofTokens tokens =
      let (statements, last) :=
        Parser.sequence .file (Parser.declaration (.ofDepth maxNesting)) (.ofTokens tokens)
      { statements, faults := last.faults } := by
  unfold ofTokens ofCursor
  rw [Parser.sequence_outermost]
  rfl

end LamScope

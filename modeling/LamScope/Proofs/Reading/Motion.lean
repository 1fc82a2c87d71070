import LamScope.Syntax.Reading

/-!
# Parsers move forward

Whatever a parser replies, it did little to its cursor: it took tokens, drew numbers, noted faults,
and skipped tokens between the statements of a sequence. A relation that all this respects holds
between where a parser starts and where it stops. `Keeps` is a class, so that what a parser keeps
follows from what its parts keep. One such relation says that the cursor only moved forward: the
tokens still to come are the end of those that were, the end-of-file token is the same, and faults
noted before are still there.
-/
namespace LamScope

/-- The fault is noted while reading goes on; no parser fails with it. -/
def SyntaxFault.Cause.isRemark : Cause → Bool
  | invalidTarget | tooManyArguments | tooManyParameters => true
  | expected .. | tooDeep => false

/-- A relation between cursors that all steps of a parser respect, those of a sequence only if it
stands behind an opening brace. -/
class Cursor.Motion (R : Cursor → Cursor → Prop) : Prop where
  refl (c : Cursor) : R c c
  trans {c d e : Cursor} : R c d → R d e → R c e
  advance (c : Cursor) : R c c.advance
  draw (c : Cursor) : R c { c with nextId := c.nextId + 1 }
  remark (c : Cursor) {cause : SyntaxFault.Cause} (w : Word) :
    cause.isRemark → R c (c.note (.of cause w))
  sequence {item : Parser Stmt} {c : Cursor} : (∀ d, R d (item d).next) → c.isAt .leftBrace →
    R c (Parser.sequence .braces item c.advance).2

/-- What a parser may do to a cursor. -/
structure Cursor.Leads (c d : Cursor) : Prop where
  upcoming : d.upcoming <:+ c.upcoming
  finish : d.finish = c.finish
  faults : c.faults <+: d.faults

namespace Cursor

theorem Leads.refl (c : Cursor) : c.Leads c := ⟨List.suffix_rfl, rfl, List.prefix_rfl⟩

theorem Leads.trans {c d e : Cursor} (h : c.Leads d) (h' : d.Leads e) : c.Leads e :=
  ⟨h'.upcoming.trans h.upcoming, h'.finish.trans h.finish, h.faults.trans h'.faults⟩

theorem leads_advance (c : Cursor) : c.Leads c.advance := by
  unfold advance
  split
  · exact .refl c
  · rename_i t ts h
    exact ⟨h ▸ List.suffix_cons t ts, rfl, List.prefix_rfl⟩

theorem leads_note (c : Cursor) (f : SyntaxFault) : c.Leads (c.note f) :=
  ⟨List.suffix_rfl, rfl, List.prefix_append _ _⟩

theorem skip_suffix (x : Extent) (previous : Token) (ts : List Token) :
    (skip x previous ts).2 <:+ ts := by
  induction ts generalizing previous with
  | nil => exact List.suffix_rfl
  | cons t ts ih =>
      unfold skip
      split
      · exact List.suffix_rfl
      · exact (ih t).trans (List.suffix_cons t ts)

theorem leads_resume (x : Extent) (c : Cursor) : c.Leads (c.resume x) := by
  unfold resume
  split
  · exact .refl c
  · rename_i t ts h
    split
    · exact .refl c
    · exact ⟨h ▸ (skip_suffix x t ts).trans (List.suffix_cons t ts), rfl, List.prefix_rfl⟩

theorem leads_sequenceWithin {x : Extent} {item : Parser Stmt}
    (hitem : ∀ c : Cursor, c.Leads (item c).next) (bound : List Token) (c : Cursor) :
    c.Leads (Parser.sequenceWithin x item bound c).2 := by
  induction bound generalizing c with
  | nil => exact .refl c
  | cons _ bound ih =>
      have hc := hitem c
      unfold Parser.sequenceWithin
      split
      · exact .refl c
      split
      · rename_i h
        rw [h] at hc
        exact hc.trans (ih _)
      · rename_i fault d h
        rw [h] at hc
        have hd := hc.trans (d.leads_note fault)
        dsimp only
        split
        · exact hd
        · exact hd.trans ((leads_resume x _).trans (ih _))

instance : Motion Leads where
  refl := .refl
  trans := .trans
  advance := leads_advance
  draw _ := ⟨List.suffix_rfl, rfl, List.prefix_rfl⟩
  remark c _ _ _ := c.leads_note _
  sequence {_ c} hitem _ := c.leads_advance.trans (leads_sequenceWithin hitem _ c.advance)

end Cursor

/-- The relation holds between where the parser starts and where it stops. -/
class Parser.Keeps (R : Cursor → Cursor → Prop) {α : Type} (p : Parser α) : Prop where
  keeps : ∀ c : Cursor, R c (p c).next

abbrev Parser.Advances {α : Type} (p : Parser α) : Prop := Keeps Cursor.Leads p

namespace Parser
variable {α β : Type}

theorem Advances.leads {p : Parser α} [Advances p] (c : Cursor) : c.Leads (p c).next :=
  Keeps.keeps c

theorem Advances.ok {p : Parser α} [Advances p] {c d : Cursor} {a : α} (h : p c = .ok a d) :
    c.Leads d := by
  have hp := Advances.leads (p := p) c
  rwa [h] at hp

theorem Advances.failed {p : Parser α} [Advances p] {c d : Cursor} {f : SyntaxFault}
    (h : p c = .failed f d) : c.Leads d := by
  have hp := Advances.leads (p := p) c
  rwa [h] at hp

variable {R : Cursor → Cursor → Prop} [Cursor.Motion R]

instance (a : α) : Keeps R (pure a : Parser α) := ⟨fun c => Cursor.Motion.refl c⟩

instance keeps_bind (p : Parser α) (f : α → Parser β) [Keeps R p] [∀ a, Keeps R (f a)] :
    Keeps R (p >>= f) where
  keeps c := by
    have hp := Keeps.keeps (R := R) (p := p) c
    rw [bind_apply]
    cases h : p c with
    | ok a d =>
        rw [h] at hp
        exact Cursor.Motion.trans hp (Keeps.keeps d)
    | failed fault d => rwa [h] at hp

theorem advances_bind (p : Parser α) (f : α → Parser β) [Advances p] [∀ a, Advances (f a)] :
    Advances (p >>= f) := keeps_bind p f

instance (p : Parser α) (f : α → β) [Keeps R p] : Keeps R (f <$> p) :=
  inferInstanceAs (Keeps R (p >>= fun a => pure (f a)))

instance (P : Prop) [Decidable P] (p q : Parser α) [Keeps R p] [Keeps R q] :
    Keeps R (if P then p else q) := by
  split <;> infer_instance

instance (f : SyntaxFault) : Keeps R (fail f : Parser α) := ⟨fun c => Cursor.Motion.refl c⟩

instance (f : SyntaxFault) : Advances (note f) := ⟨fun c => c.leads_note f⟩

theorem keeps_remark {cause : SyntaxFault.Cause} (w : Word) (h : cause.isRemark) :
    Keeps R (note (.of cause w)) := ⟨fun c => Cursor.Motion.remark c w h⟩

instance (w : Word) : Keeps R (note (.of .invalidTarget w)) := keeps_remark w rfl

instance (w : Word) : Keeps R (note (.of .tooManyArguments w)) := keeps_remark w rfl

instance (w : Word) : Keeps R (note (.of .tooManyParameters w)) := keeps_remark w rfl

instance : Keeps R peek := ⟨fun c => Cursor.Motion.refl c⟩

instance : Keeps R take := ⟨fun c => Cursor.Motion.advance c⟩

instance (s : Symbol) : Keeps R (accept s) where
  keeps c := by
    unfold accept
    split
    · exact Cursor.Motion.advance c
    · exact Cursor.Motion.refl c

instance (s : Symbol) : Keeps R (expect s) where
  keeps c := by
    unfold expect
    split
    · exact Cursor.Motion.advance c
    · exact Cursor.Motion.refl c

instance : Keeps R expectName where
  keeps c := by
    unfold expectName
    split
    · exact Cursor.Motion.advance c
    · exact Cursor.Motion.refl c

instance : Keeps R freshId := ⟨fun c => Cursor.Motion.draw c⟩

instance (start : Nat) : Keeps R (closeNode start) := ⟨fun c => Cursor.Motion.draw c⟩

instance (span : Span) : Keeps R (nodeAt span) := by
  unfold nodeAt
  infer_instance

theorem manyWithin_nil (stop : Cursor → Bool) (item : Parser α) :
    manyWithin stop item [] = pure [] := rfl

theorem manyWithin_cons (stop : Cursor → Bool) (item : Parser α) (t : Token) (bound : List Token)
    (c : Cursor) :
    manyWithin stop item (t :: bound) c =
      if stop c || c.atEnd then .ok [] c
      else (do return (← item) :: (← manyWithin stop item bound) : Parser (List α)) c := by
  unfold manyWithin
  split
  · rfl
  · simp only [bind_apply]
    cases item c with
    | failed fault d => rfl
    | ok a d =>
        dsimp only
        cases manyWithin stop item bound d <;> rfl

instance (stop : Cursor → Bool) (item : Parser α) [Keeps R item] (bound : List Token) :
    Keeps R (manyWithin stop item bound) := by
  induction bound with
  | nil => exact ⟨fun c => Cursor.Motion.refl c⟩
  | cons t bound ih =>
      constructor
      intro c
      rw [manyWithin_cons]
      split
      · exact Cursor.Motion.refl c
      · exact Keeps.keeps c

instance (stop : Cursor → Bool) (item : Parser α) [Keeps R item] : Keeps R (many stop item) :=
  ⟨fun c => Keeps.keeps (p := manyWithin stop item c.upcoming) c⟩

theorem commaItemsWithin_nil (item : Nat → Parser α) (i : Nat) :
    commaItemsWithin item [] i = pure [] := rfl

theorem commaItemsWithin_cons (item : Nat → Parser α) (t : Token) (bound : List Token) (i : Nat) :
    commaItemsWithin item (t :: bound) i = do
      if ← accept .comma then
        return (← item i) :: (← commaItemsWithin item bound (i + 1))
      else return [] := by
  funext c
  rw [commaItemsWithin, bind_apply]
  unfold accept
  split
  · simp only [if_true, bind_apply]
    cases item i c.advance with
    | failed fault d => rfl
    | ok a d =>
        dsimp only
        cases commaItemsWithin item bound (i + 1) d <;> rfl
  · rfl

instance (item : Nat → Parser α) [∀ i, Keeps R (item i)] (bound : List Token) (i : Nat) :
    Keeps R (commaItemsWithin item bound i) := by
  induction bound generalizing i with
  | nil => exact ⟨fun c => Cursor.Motion.refl c⟩
  | cons t bound ih =>
      rw [commaItemsWithin_cons]
      infer_instance

instance (item : Nat → Parser α) [∀ i, Keeps R (item i)] : Keeps R (commaList item) := by
  have h : Keeps R fun c => commaItemsWithin item c.upcoming 1 c :=
    ⟨fun c => Keeps.keeps (p := commaItemsWithin item c.upcoming 1) c⟩
  exact @keeps_bind _ _ R _ _ _ _ fun first => @keeps_bind _ _ R _ _ _ h _

end Parser

/-- The relation holds for all parsers of a level. -/
class Levels.Keep (R : Cursor → Cursor → Prop) (inner : Levels) : Prop where
  operand : ∀ floor, Parser.Keeps R (inner.operand floor)
  value : Parser.Keeps R inner.value
  statement : Parser.Keeps R inner.statement
  body : Parser.Keeps R inner.body

abbrev Levels.Advance (inner : Levels) : Prop := inner.Keep Cursor.Leads

namespace Parser
variable {R : Cursor → Cursor → Prop} [Cursor.Motion R] (inner : Levels) [inner.Keep R]

instance (floor : Nat) : Keeps R (inner.operand floor) := Levels.Keep.operand floor
instance : Keeps R inner.value := Levels.Keep.value
instance : Keeps R inner.statement := Levels.Keep.statement
instance : Keeps R inner.body := Levels.Keep.body

instance (start : Nat) (value : Literal) : Keeps R (literal start value) := by
  unfold literal
  infer_instance

instance : Keeps R (expression inner) := by
  unfold expression
  refine @keeps_bind _ _ R _ _ _ _ fun target => ?_
  cases target <;> infer_instance

instance (start : Nat) (op : UnaryOp) : Keeps R (unary inner start op) := by
  unfold unary
  infer_instance

instance (start : Nat) : Keeps R (group inner start) := by
  unfold group
  infer_instance

instance : Keeps R (primary inner) := by
  unfold primary
  refine @keeps_bind _ _ R _ _ _ _ fun t => ?_
  dsimp only
  split <;> infer_instance

instance (i : Nat) : Keeps R (argument inner i) := by
  unfold argument
  infer_instance

instance : Keeps R (arguments inner) where
  keeps c := by
    unfold arguments
    split
    · exact Cursor.Motion.refl c
    · exact Keeps.keeps c

instance (callee : Expr) : Keeps R (callOn inner callee) := by
  unfold callOn
  infer_instance

instance (object : Expr) : Keeps R (propertyOf object) := by
  unfold propertyOf
  infer_instance

instance (o : Operator) (left : Expr) : Keeps R (operation inner o left) := by
  unfold operation
  infer_instance

theorem continuation?_keeps {inner : Levels} [inner.Keep R] {floor : Nat} {left : Expr}
    {kind : TokenKind} {more : Parser Expr} (h : continuation? inner floor left kind = some more) :
    Keeps R more := by
  unfold continuation? at h
  split at h
  · cases h
    infer_instance
  · cases h
    infer_instance
  · split at h
    · split at h <;> cases h
      infer_instance
    · cases h

theorem continuedWithin_nil (inner : Levels) (floor : Nat) (left : Expr) :
    continuedWithin inner floor [] left = pure left := rfl

theorem continuedWithin_cons (inner : Levels) (floor : Nat) (t : Token) (bound : List Token)
    (left : Expr) :
    continuedWithin inner floor (t :: bound) left = (do
      let next ← peek
      match continuation? inner floor left next.kind with
      | none => return left
      | some more => more >>= continuedWithin inner floor bound) := by
  funext c
  rw [continuedWithin, bind_apply]
  simp only [peek]
  cases continuation? inner floor left c.current.kind with
  | none => rfl
  | some more =>
      simp only [bind_apply]
      cases more c <;> rfl

instance (floor : Nat) (bound : List Token) (left : Expr) :
    Keeps R (continuedWithin inner floor bound left) := by
  induction bound generalizing left with
  | nil => exact ⟨fun c => Cursor.Motion.refl c⟩
  | cons t bound ih =>
      rw [continuedWithin_cons]
      refine @keeps_bind _ _ R _ _ _ _ fun next => ?_
      split
      · infer_instance
      · rename_i more h
        have := continuation?_keeps (R := R) h
        infer_instance

instance (floor : Nat) (left : Expr) : Keeps R (continued inner floor left) :=
  ⟨fun c => Keeps.keeps (p := continuedWithin inner floor c.upcoming left) c⟩

instance (floor : Nat) : Keeps R (operand inner floor) := by
  unfold operand
  infer_instance

omit [Cursor.Motion R] in
theorem sequenceWithin_leads (x : Extent) (item : Parser Stmt) [Advances item]
    (bound : List Token) (c : Cursor) : c.Leads (sequenceWithin x item bound c).2 :=
  Cursor.leads_sequenceWithin Advances.leads bound c

/-- What `variableRest` does after its initialiser. -/
instance variableRest_end_keeps (start : Nat) (name : Word) (init : Option Expr) :
    Keeps R (do
      expect .semicolon
      return Stmt.var (← closeNode start) name init) := inferInstance

instance (start : Nat) : Keeps R (variableRest inner start) := by
  unfold variableRest
  infer_instance

instance : Keeps R parameters where
  keeps c := by
    unfold parameters
    split
    · exact Cursor.Motion.refl c
    · exact Keeps.keeps c

instance : Keeps R (callable inner) := by
  unfold callable
  infer_instance

instance (start : Nat) : Keeps R (classRest inner start) := by
  unfold classRest
  infer_instance

instance : Keeps R (declaration inner) := by
  unfold declaration
  refine @keeps_bind _ _ R _ _ _ _ fun t => ?_
  dsimp only
  split <;> infer_instance

/-- A sequence of statements as a parser, which never fails. -/
def statements (x : Extent) (item : Parser Stmt) : Parser (List Stmt) := fun c =>
  .ok (sequence x item c).1 (sequence x item c).2

theorem braces_eq (inner : Levels) : braces inner = (do
    expect .leftBrace
    let body ← statements .braces (declaration inner)
    expect .rightBrace
    return body) := rfl

instance (x : Extent) (item : Parser Stmt) [Advances item] : Advances (statements x item) :=
  ⟨fun c => sequenceWithin_leads x item c.upcoming c⟩

instance : Keeps R (braces inner) where
  keeps c := by
    have hclosing (body : List Stmt) (d : Cursor) :
        R d ((do
          expect .rightBrace
          return body : Parser (List Stmt)) d).next := Keeps.keeps d
    rw [braces_eq, bind_apply]
    unfold expect
    split
    · rename_i h
      split at h
      · rename_i hbrace
        cases h
        have hitem (c : Cursor) : R c (declaration inner c).next := Keeps.keeps c
        exact Cursor.Motion.trans (Cursor.Motion.sequence hitem hbrace) (hclosing _ _)
      · cases h
    · rename_i h
      split at h
      · cases h
      · cases h
        exact Cursor.Motion.refl c

instance : Keeps R (condition inner) := by
  unfold condition
  infer_instance

instance (start : Nat) : Keeps R (ifRest inner start) := by
  unfold ifRest
  infer_instance

instance (keyword : Word) : Keeps R (returnRest inner keyword) := by
  unfold returnRest
  infer_instance

instance : Keeps R (forInit inner) := by
  unfold forInit
  refine @keeps_bind _ _ R _ _ _ _ fun t => ?_
  dsimp only
  split <;> infer_instance

instance (closer : Symbol) : Keeps R (forClause inner closer) := by
  unfold forClause
  infer_instance

instance (span : Span) (body : Stmt) (increment : Option Expr) :
    Keeps R (withIncrement span body increment) := by
  cases increment <;> unfold withIncrement <;> infer_instance

instance (span : Span) (cond : Option Expr) : Keeps R (orTrue span cond) := by
  cases cond <;> unfold orTrue <;> infer_instance

instance (span : Span) (loop : Stmt) (init : Option Stmt) :
    Keeps R (withInit span loop init) := by
  cases init <;> unfold withInit <;> infer_instance

/-- What `forRest` does after its body. -/
instance forRest_end_keeps (start : Nat) (init : Option Stmt) (cond increment : Option Expr)
    (body : Stmt) :
    Keeps R (do
      let span ← fun c => Reply.ok (Span.mk start c.previous.span.stop) c
      let body ← withIncrement span body increment
      let cond ← orTrue span cond
      let loop := Stmt.loop (← nodeAt span) cond body
      withInit span loop init) := by
  have h : Keeps R fun c => Reply.ok (Span.mk start c.previous.span.stop) c :=
    ⟨fun c => Cursor.Motion.refl c⟩
  exact @keeps_bind _ _ R _ _ _ h _

instance (start : Nat) : Keeps R (forRest inner start) := by
  unfold forRest
  infer_instance

instance : Keeps R (statement inner) := by
  unfold statement
  refine @keeps_bind _ _ R _ _ _ _ fun t => ?_
  dsimp only
  split <;> infer_instance

end Parser

namespace Levels

/-- One level more than `inner` allows. -/
def next (inner : Levels) : Levels where
  operand := Parser.operand inner
  value := Parser.expression inner
  statement := Parser.statement inner
  body := Parser.braces inner

/-- So many levels, handed down instead of counted. -/
def ofDepth : Nat → Levels
  | 0 => exhausted
  | n + 1 => (ofDepth n).next

variable {R : Cursor → Cursor → Prop} [Cursor.Motion R]

instance : exhausted.Keep R where
  operand _ := ⟨fun c => Cursor.Motion.refl c⟩
  value := ⟨fun c => Cursor.Motion.refl c⟩
  statement := ⟨fun c => Cursor.Motion.refl c⟩
  body := ⟨fun c => Cursor.Motion.refl c⟩

instance (inner : Levels) [inner.Keep R] : inner.next.Keep R where
  operand floor := inferInstanceAs (Parser.Keeps R (Parser.operand inner floor))
  value := inferInstanceAs (Parser.Keeps R (Parser.expression inner))
  statement := inferInstanceAs (Parser.Keeps R (Parser.statement inner))
  body := inferInstanceAs (Parser.Keeps R (Parser.braces inner))

instance ofDepth_keep (n : Nat) : (ofDepth n).Keep R := by
  induction n with
  | zero => exact inferInstanceAs (exhausted.Keep R)
  | succ n ih => exact inferInstanceAs ((ofDepth n).next.Keep R)

end Levels

end LamScope

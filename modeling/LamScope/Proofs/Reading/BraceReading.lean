import LamScope.Proofs.Reading.BraceDepth
import LamScope.Proofs.Reading.MirrorProgram

/-!
# Reading within braces

Parsers pass no closing brace but those that they opened, also where they fail. What a parser reads
without failing is in balance, except what sequences of statements dropped in it. `Braced` is a
class, so that it holds of a parser if it holds of its parts. Main statement: it holds of all
parsers at every level of nesting.
-/
namespace LamScope

namespace Parser
variable {α β : Type}

/-- From here the parser goes on within braces, and in balance unless it fails. -/
structure BracedAt (p : Parser α) (c : Cursor) : Prop where
  nests : c.Nests (p c).next
  passage : ∀ {a : α} {d : Cursor}, p c = .ok a d → ∃ dropped, c.Passage dropped d

class Braced (p : Parser α) : Prop where
  braced (c : Cursor) : p.BracedAt c

section
variable {p : Parser α} {f : α → Parser β} {c d : Cursor} {a : α}

/-- A step whose reply is known. -/
theorem bracedAt_ok (h : p c = .ok a d) (hnests : c.Nests d) (hpassage : c.Passage [] d) :
    p.BracedAt c where
  nests := by
    rw [h]
    exact hnests
  passage h' := by
    rw [h] at h'
    cases h'
    exact ⟨[], hpassage⟩

theorem bracedAt_failed (h : ∃ fault, p c = .failed fault d) (hnests : c.Nests d) :
    p.BracedAt c := by
  obtain ⟨fault, h⟩ := h
  constructor
  · rw [h]
    exact hnests
  · intro a e h'
    rw [h] at h'
    cases h'

theorem BracedAt.congr {q : Parser α} (h : p.BracedAt c) (hr : q c = p c) : q.BracedAt c where
  nests := by
    rw [hr]
    exact h.nests
  passage h' := h.passage (hr ▸ h')

theorem BracedAt.bind (hp : p.BracedAt c) (hf : ∀ a d, p c = .ok a d → (f a).BracedAt d) :
    (p >>= f).BracedAt c := by
  cases hc : p c with
  | failed fault d =>
      refine bracedAt_failed (d := d) ⟨fault, by rw [bind_apply, hc]⟩ ?_
      have hnests := hp.nests
      rwa [hc] at hnests
  | ok a d =>
      have hrest := hf a d hc
      have hr : (p >>= f) c = f a d := by rw [bind_apply, hc]
      constructor
      · have hnests := hp.nests
        rw [hc] at hnests
        rw [hr]
        exact hnests.trans hrest.nests
      · intro b e h
        rw [hr] at h
        obtain ⟨before, hbefore⟩ := hp.passage hc
        obtain ⟨after, hafter⟩ := hrest.passage h
        exact ⟨before ++ after, hbefore.trans hafter⟩

theorem bracedAt_peek_bind {f : Token → Parser β} (h : (f c.current).BracedAt c) :
    (peek >>= f).BracedAt c := by
  refine BracedAt.bind (bracedAt_ok rfl (.refl c) (.refl c)) fun t d ht => ?_
  cases ht
  exact h

theorem bracedAt_take_bind {f : Unit → Parser β} (hk : c.current.kind.rise = 0)
    [hf : Braced (f ())] : (take >>= f).BracedAt c :=
  BracedAt.bind (bracedAt_ok rfl (Cursor.nests_advance (Int.le_of_eq hk.symm)) (.advance hk))
    fun _ d _ => hf.braced d

instance (a : α) : Braced (pure a : Parser α) := ⟨fun c => bracedAt_ok rfl (.refl c) (.refl c)⟩

instance braced_bind (p : Parser α) (f : α → Parser β) [hp : Braced p] [hf : ∀ a, Braced (f a)] :
    Braced (p >>= f) := ⟨fun c => (hp.braced c).bind fun a d _ => (hf a).braced d⟩

instance (p : Parser α) (f : α → β) [Braced p] : Braced (f <$> p) :=
  inferInstanceAs (Braced (p >>= fun a => pure (f a)))

instance (P : Prop) [Decidable P] (p q : Parser α) [Braced p] [Braced q] :
    Braced (if P then p else q) := by
  split <;> infer_instance

instance (f : SyntaxFault) : Braced (fail f : Parser α) :=
  ⟨fun c => bracedAt_failed ⟨f, rfl⟩ (.refl c)⟩

theorem braced_remark {cause : SyntaxFault.Cause} (w : Word) (h : cause.isRemark) :
    Braced (note (.of cause w)) :=
  ⟨fun c => bracedAt_ok rfl (c.nests_note _) (.remark c w h)⟩

instance (w : Word) : Braced (note (.of .invalidTarget w)) := braced_remark w rfl

instance (w : Word) : Braced (note (.of .tooManyArguments w)) := braced_remark w rfl

instance (w : Word) : Braced (note (.of .tooManyParameters w)) := braced_remark w rfl

instance : Braced peek := ⟨fun c => bracedAt_ok rfl (.refl c) (.refl c)⟩

/-- A token that is no brace may be taken. -/
theorem bracedAt_advance (h : p c = .ok a c.advance) (hk : c.current.kind.rise = 0) :
    p.BracedAt c :=
  bracedAt_ok h (Cursor.nests_advance (Int.le_of_eq hk.symm)) (.advance hk)

theorem braced_expect {s : Symbol} (hs : (TokenKind.symbol s).rise = 0) : Braced (expect s) where
  braced c := by
    by_cases h : c.isAt s
    · exact bracedAt_advance (a := ()) (by simp [expect, h]) (by rw [c.kind_of_isAt h, hs])
    · exact bracedAt_failed (d := c) (by simp [expect, h]) (.refl c)

instance : Braced (expect .semicolon) := braced_expect rfl
instance : Braced (expect .leftParen) := braced_expect rfl
instance : Braced (expect .rightParen) := braced_expect rfl

theorem braced_accept {s : Symbol} (hs : (TokenKind.symbol s).rise = 0) : Braced (accept s) where
  braced c := by
    by_cases h : c.isAt s
    · exact bracedAt_advance (a := true) (by simp [accept, h]) (by rw [c.kind_of_isAt h, hs])
    · exact bracedAt_ok (a := false) (d := c) (by simp [accept, h]) (.refl c) (.refl c)

instance : Braced (accept .equal) := braced_accept rfl
instance : Braced (accept .comma) := braced_accept rfl

instance : Braced expectName where
  braced c := by
    by_cases h : c.current.kind = .name
    · exact bracedAt_advance (a := c.current.toWord) (by simp [expectName, h]) (by rw [h]; rfl)
    · exact bracedAt_failed (d := c) (by simp [expectName, h]) (.refl c)

instance : Braced freshId := ⟨fun c => bracedAt_ok rfl c.nests_draw (.draw c)⟩

instance (start : Nat) : Braced (closeNode start) :=
  ⟨fun c => bracedAt_ok rfl c.nests_draw (.draw c)⟩

instance (span : Span) : Braced (nodeAt span) := by
  unfold nodeAt
  infer_instance

instance (stop : Cursor → Bool) (item : Parser α) [Braced item] (bound : List Token) :
    Braced (manyWithin stop item bound) := by
  induction bound with
  | nil => exact inferInstanceAs (Braced (pure []))
  | cons t bound ih =>
      constructor
      intro c
      have hr := manyWithin_cons stop item t bound c
      split at hr
      · exact bracedAt_ok hr (.refl c) (.refl c)
      · exact (Braced.braced c).congr hr

instance (stop : Cursor → Bool) (item : Parser α) [Braced item] : Braced (many stop item) :=
  ⟨fun c => (Braced.braced (p := manyWithin stop item c.upcoming) c).congr rfl⟩

instance (item : Nat → Parser α) [∀ i, Braced (item i)] (bound : List Token) (i : Nat) :
    Braced (commaItemsWithin item bound i) := by
  induction bound generalizing i with
  | nil => exact inferInstanceAs (Braced (pure []))
  | cons t bound ih =>
      rw [commaItemsWithin_cons]
      infer_instance

instance (item : Nat → Parser α) [∀ i, Braced (item i)] : Braced (commaList item) := by
  have h : Braced fun c => commaItemsWithin item c.upcoming 1 c :=
    ⟨fun c => (Braced.braced (p := commaItemsWithin item c.upcoming 1) c).congr rfl⟩
  exact @braced_bind _ _ _ _ _ fun first => @braced_bind _ _ _ _ h _

/-- Behind an opening brace its closing one is asked for where `p` stops. -/
theorem between_apply (p : Parser α) (f : α → Parser β) (ho : c.isAt .leftBrace) :
    (do
      expect .leftBrace
      let a ← p
      expect .rightBrace
      f a : Parser β) c =
        match p c.advance with
        | .failed fault d => .failed fault d
        | .ok a d =>
            if d.isAt .rightBrace then f a d.advance
            else .failed (.expected (.symbol .rightBrace) d.current) d := by
  rw [bind_apply, expect, if_pos ho]
  dsimp only
  rw [bind_apply]
  cases p c.advance with
  | failed fault d => rfl
  | ok a d =>
      dsimp only
      rw [bind_apply, expect]
      by_cases he : d.isAt .rightBrace
      · rw [if_pos he, if_pos he]
      · rw [if_neg he, if_neg he]

/-- It is enough that `p` is in balance where it stops at a closing brace. -/
theorem bracedAt_between [hf : ∀ a, Braced (f a)] (hp : c.advance.Nests (p c.advance).next)
    (hpassage : ∀ a d, p c.advance = .ok a d → d.isAt .rightBrace →
      ∃ dropped, c.advance.Passage dropped d) :
    BracedAt (do
      expect .leftBrace
      let a ← p
      expect .rightBrace
      f a) c := by
  by_cases ho : c.isAt .leftBrace
  · have hadvanced : c.Nests c.advance :=
      Cursor.nests_advance (by rw [Cursor.rise_of_isAt_leftBrace ho]; decide)
    have hr := between_apply p f ho
    cases hc : p c.advance with
    | failed fault d =>
        rw [hc] at hp hr
        exact bracedAt_failed ⟨fault, hr⟩ (hadvanced.trans hp)
    | ok a d =>
        rw [hc] at hp hr
        dsimp only at hr
        split at hr
        · rename_i he
          obtain ⟨dropped, hd⟩ := hpassage a d hc he
          have hrest := (hf a).braced d.advance
          constructor
          · rw [hr]
            exact (Cursor.nests_braces ho hp he).trans hrest.nests
          · intro b e h
            obtain ⟨after, hafter⟩ := hrest.passage (hr ▸ h)
            exact ⟨dropped ++ after, (Cursor.Passage.braces ho hd he).trans hafter⟩
        · exact bracedAt_failed ⟨_, hr⟩ (hadvanced.trans hp)
  · exact bracedAt_failed (d := c) (by simp [bind_apply, expect, ho]) (.refl c)

end

end Parser

/-- All parsers of a level go on within braces, and in balance unless they fail. -/
class Levels.Braced (inner : Levels) : Prop where
  operand : ∀ floor, Parser.Braced (inner.operand floor)
  value : Parser.Braced inner.value
  statement : Parser.Braced inner.statement
  body : Parser.Braced inner.body

namespace Parser

section
variable (inner : Levels) [inner.Braced]

instance (floor : Nat) : Braced (inner.operand floor) := Levels.Braced.operand floor
instance : Braced inner.value := Levels.Braced.value
instance : Braced inner.statement := Levels.Braced.statement
instance : Braced inner.body := Levels.Braced.body

instance : Braced (expression inner) := by
  unfold expression
  refine @braced_bind _ _ _ _ _ fun target => ⟨fun c => bracedAt_peek_bind ?_⟩
  split
  · rename_i hk
    refine @bracedAt_take_bind _ _ _ (by rw [hk]; rfl) ?_
    cases target <;> infer_instance
  · exact Braced.braced c

instance : Braced (primary inner) := by
  constructor
  intro c
  refine bracedAt_peek_bind ?_
  dsimp only
  split <;> rename_i hk
  case h_10 => exact Braced.braced c
  all_goals exact bracedAt_take_bind (by rw [hk]; rfl)

instance (i : Nat) : Braced (argument inner i) := by
  unfold argument
  infer_instance

instance : Braced (arguments inner) where
  braced c := by
    by_cases h : c.isAt .rightParen
    · exact bracedAt_ok (a := []) (d := c) (by simp [arguments, h]) (.refl c) (.refl c)
    · exact (Braced.braced (p := commaList (argument inner)) c).congr (by simp [arguments, h])

theorem rise_of_operator {kind : TokenKind} {o : Operator} (h : Operator.ofKind? kind = some o) :
    kind.rise = 0 := by
  unfold TokenKind.rise
  split
  · cases h
  · cases h
  · rfl

theorem continuation?_braced {floor : Nat} {left : Expr} {c : Cursor} {more : Parser Expr}
    (h : continuation? inner floor left c.current.kind = some more) : more.BracedAt c := by
  unfold continuation? at h
  split at h
  · rename_i hk
    cases h
    exact bracedAt_take_bind (by rw [hk]; rfl)
  · rename_i hk
    cases h
    exact bracedAt_take_bind (by rw [hk]; rfl)
  · split at h
    · rename_i o ho
      split at h <;> cases h
      exact bracedAt_take_bind (rise_of_operator ho)
    · cases h

instance (floor : Nat) (bound : List Token) (left : Expr) :
    Braced (continuedWithin inner floor bound left) := by
  induction bound generalizing left with
  | nil => exact inferInstanceAs (Braced (pure left))
  | cons t bound ih =>
      constructor
      intro c
      rw [continuedWithin_cons]
      refine bracedAt_peek_bind ?_
      split
      · exact Braced.braced c
      · rename_i more h
        exact (continuation?_braced inner h).bind fun e d _ => (ih e).braced d

instance (floor : Nat) (left : Expr) : Braced (continued inner floor left) :=
  ⟨fun c => (Braced.braced (p := continuedWithin inner floor c.upcoming left) c).congr rfl⟩

instance (floor : Nat) : Braced (operand inner floor) := by
  unfold operand
  infer_instance

instance (start : Nat) : Braced (variableRest inner start) := by
  unfold variableRest
  infer_instance

instance : Braced parameters where
  braced c := by
    by_cases h : c.isAt .rightParen
    · exact bracedAt_ok (a := []) (d := c) (by simp [parameters, h]) (.refl c) (.refl c)
    · exact (Braced.braced (p := commaList fun _ => expectName) c).congr (by simp [parameters, h])

instance : Braced (callable inner) := by
  unfold callable
  infer_instance

/-- A class is closed by the brace that closes its methods. -/
instance (start : Nat) : Braced (classRest inner start) := by
  unfold classRest
  refine @braced_bind _ _ _ _ _ fun name => ⟨fun c => ?_⟩
  have hmethods := Braced.braced (p := many (·.isAt .rightBrace) (callable inner)) c.advance
  exact bracedAt_between hmethods.nests fun _ _ h _ => hmethods.passage h

instance : Braced (declaration inner) := by
  constructor
  intro c
  refine bracedAt_peek_bind ?_
  dsimp only
  split <;> rename_i hk
  case h_4 => exact Braced.braced c
  all_goals exact bracedAt_take_bind (by rw [hk]; rfl)

instance : Braced (condition inner) := by
  unfold condition
  infer_instance

instance (start : Nat) : Braced (ifRest inner start) := by
  unfold ifRest
  refine @braced_bind _ _ _ _ _ fun cond => @braced_bind _ _ _ _ _ fun body => ⟨fun c => ?_⟩
  refine bracedAt_peek_bind ?_
  split
  · rename_i hk
    exact bracedAt_take_bind (by rw [hk]; rfl)
  · exact Braced.braced c

instance (keyword : Word) : Braced (returnRest inner keyword) := by
  unfold returnRest
  infer_instance

instance : Braced (forInit inner) := by
  constructor
  intro c
  refine bracedAt_peek_bind ?_
  dsimp only
  split <;> rename_i hk
  case h_3 => exact Braced.braced c
  all_goals exact bracedAt_take_bind (by rw [hk]; rfl)

instance (closer : Symbol) [Braced (expect closer)] : Braced (forClause inner closer) := by
  unfold forClause
  infer_instance

instance (span : Span) (body : Stmt) (increment : Option Expr) :
    Braced (withIncrement span body increment) := by
  cases increment <;> unfold withIncrement <;> infer_instance

instance (span : Span) (cond : Option Expr) : Braced (orTrue span cond) := by
  cases cond <;> unfold orTrue <;> infer_instance

instance (span : Span) (loop : Stmt) (init : Option Stmt) : Braced (withInit span loop init) := by
  cases init <;> unfold withInit <;> infer_instance

instance (start : Nat) : Braced (forRest inner start) := by
  have hspan : Braced fun c => Reply.ok (Span.mk start c.previous.span.stop) c :=
    ⟨fun c => bracedAt_ok rfl (.refl c) (.refl c)⟩
  unfold forRest
  refine @braced_bind _ _ _ _ _ fun _ => @braced_bind _ _ _ _ _ fun init =>
    @braced_bind _ _ _ _ _ fun cond => @braced_bind _ _ _ _ _ fun increment =>
      @braced_bind _ _ _ _ _ fun body => @braced_bind _ _ _ _ hspan fun span => ?_
  infer_instance

instance [Braced (braces inner)] : Braced (statement inner) := by
  constructor
  intro c
  refine bracedAt_peek_bind ?_
  dsimp only
  split <;> rename_i hk
  case h_1 => exact Braced.braced c
  case h_7 => exact Braced.braced c
  all_goals exact bracedAt_take_bind (by rw [hk]; rfl)

end

section
variable {x : Extent} {item : Parser Stmt} {n : Nat}

theorem nests_sequenceWithin (hitem : ∀ c : Cursor, c.Nests (item c).next) (bound : List Token)
    (c : Cursor) : c.Nests (sequenceWithin .braces item bound c).2 := by
  induction bound generalizing c with
  | nil => exact .refl c
  | cons _ bound ih =>
      have hc := hitem c
      unfold sequenceWithin
      split
      · exact .refl c
      split
      · rename_i h
        rw [h] at hc
        exact hc.trans (ih _)
      · rename_i fault d h
        rw [h] at hc
        have hd := hc.trans (d.nests_note fault)
        dsimp only
        split
        · exact hd
        · exact hd.trans ((Cursor.nests_resume _).trans (ih _))

/-- Every failure drops a stretch. Where the last one ended the sequence there is nothing to drop
behind it. -/
theorem passage_sequenceWithin [Levels.Braced (.ofDepth n)] (bound : List Token) (c : Cursor)
    (h : (sequenceWithin .braces (declaration (.ofDepth n)) bound c).2.isAt .rightBrace) :
    ∃ dropped, c.Passage dropped
      (sequenceWithin .braces (declaration (.ofDepth n)) bound c).2 := by
  induction bound generalizing c with
  | nil => exact ⟨[], .refl c⟩
  | cons _ bound ih =>
      unfold sequenceWithin at h ⊢
      split at h
      · rename_i hends
        rw [if_pos hends]
        exact ⟨[], .refl c⟩
      · rename_i hgoes
        rw [if_neg hgoes]
        cases hc : declaration (.ofDepth n) c with
        | ok s d =>
            simp only [hc] at h
            obtain ⟨before, hbefore⟩ := (Braced.braced c).passage hc
            obtain ⟨after, hafter⟩ := ih d h
            exact ⟨before ++ after, hbefore.trans hafter⟩
        | failed fault d =>
            have hdropped := Cursor.Passage.dropped hc
            simp only [hc] at h ⊢
            split at h
            · rename_i hmany
              rw [if_pos hmany]
              rw [Cursor.resume_of_isAt h] at hdropped
              exact ⟨_, hdropped⟩
            · rename_i hfew
              rw [if_neg hfew]
              obtain ⟨after, hafter⟩ := ih _ h
              exact ⟨_, hdropped.trans hafter⟩

instance [Levels.Braced (.ofDepth n)] : Braced (braces (.ofDepth n)) := by
  constructor
  intro c
  rw [braces_eq]
  refine bracedAt_between ?_ fun body d h hd => ?_
  · exact nests_sequenceWithin (fun c => (Braced.braced c).nests) _ c.advance
  · cases h
    exact passage_sequenceWithin _ c.advance hd

/-- With few faults a sequence goes on to its end. -/
theorem ends_of_few_faults [Advances item] (hitem : item.Consumes) (bound : List Token)
    {c : Cursor} (hc : c.Closed) (hb : c.upcoming.length ≤ bound.length)
    (hfew : (sequenceWithin x item bound c).2.faults.length < maxSyntaxFaults) :
    ((sequenceWithin x item bound c).2.atEnd ||
      x.endsAt (sequenceWithin x item bound c).2.current.kind) = true := by
  induction bound generalizing c with
  | nil =>
      have hnone : c.upcoming = [] := List.length_eq_zero_iff.mp (Nat.le_zero.mp hb)
      simp [sequenceWithin, Cursor.atEnd, hnone]
  | cons t bound ih =>
      rw [List.length_cons] at hb
      cases hgoes : (c.atEnd || x.endsAt c.current.kind) with
      | true =>
          rw [sequenceWithin_of_ends hgoes]
          exact hgoes
      | false =>
          cases hd : item c with
          | ok s d =>
              have hfewer := hitem hc hd
              rw [sequenceWithin_of_ok hgoes hd] at hfew ⊢
              exact ih ((Advances.ok hd).closed hc) (by omega) hfew
          | failed fault d =>
              have hleads := (Advances.failed hd).trans (d.leads_note fault)
              rw [sequenceWithin_of_failed hgoes hd] at hfew ⊢
              split at hfew
              · exact (Nat.not_lt_of_le ‹_› hfew).elim
              · rename_i hlt
                have hfewer := Cursor.length_resume_lt hleads hgoes
                rw [if_neg hlt]
                exact ih ((hleads.trans (Cursor.leads_resume x _)).closed hc) (by omega) hfew

end

end Parser

namespace Levels

instance : exhausted.Braced where
  operand _ := ⟨fun c => Parser.bracedAt_failed ⟨_, rfl⟩ (.refl c)⟩
  value := ⟨fun c => Parser.bracedAt_failed ⟨_, rfl⟩ (.refl c)⟩
  statement := ⟨fun c => Parser.bracedAt_failed ⟨_, rfl⟩ (.refl c)⟩
  body := ⟨fun c => Parser.bracedAt_failed ⟨_, rfl⟩ (.refl c)⟩

instance ofDepth_braced (n : Nat) : (ofDepth n).Braced := by
  induction n with
  | zero => exact inferInstanceAs exhausted.Braced
  | succ n ih =>
      constructor
      · exact fun floor => inferInstanceAs (Parser.Braced (Parser.operand (ofDepth n) floor))
      · exact inferInstanceAs (Parser.Braced (Parser.expression (ofDepth n)))
      · exact inferInstanceAs (Parser.Braced (Parser.statement (ofDepth n)))
      · exact inferInstanceAs (Parser.Braced (Parser.braces (ofDepth n)))

end Levels

end LamScope

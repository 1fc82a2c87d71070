import LamScope.Proofs.Reading.TapeCursor

/-!
# Rounds of parsers

The parsers that repeat something are bounded by the tokens to come. Each of them satisfies the
equation of an unbounded loop: what one round does, from the state that the rounds before it have
left, and then the same again if the round asks for it. Every round that does has taken a token.
-/
namespace LamScope

namespace Parser
variable {α : Type} {c d : Cursor}

section
variable (item : Nat → Parser α) (done : List α)

/-- An item behind some others, and the comma behind it if there is one. -/
def itemStep : Parser (Tape.Round (List α) (List α)) := do
  let a ← item done.length
  let more ← accept .comma
  if more then return .again (done ++ [a]) else return .leave (done ++ [a])

/-- Some items and all that follow, at least one, with commas between them. -/
def itemsAfter (bound : List Token) : Parser (List α) := do
  let first ← item done.length
  let others ← commaItemsWithin item bound (done.length + 1)
  return done ++ first :: others

end

section
variable {item : Nat → Parser α} [∀ i, Advances (item i)]

/-- Bounds that have an element for every token to come make no difference. -/
theorem commaItemsWithin_bound {bound bound' : List Token} {i : Nat} (hc : c.Closed)
    (hb : c.upcoming.length ≤ bound.length) (hb' : c.upcoming.length ≤ bound'.length) :
    commaItemsWithin item bound i c = commaItemsWithin item bound' i c := by
  induction bound generalizing bound' i c with
  | nil =>
      have hu : c.upcoming = [] := List.length_eq_zero_iff.mp (Nat.le_zero.mp hb)
      rw [commaItemsWithin_of_upcoming_eq_nil item [] i hc hu,
        commaItemsWithin_of_upcoming_eq_nil item bound' i hc hu]
  | cons u bound ih =>
      cases bound' with
      | nil =>
          have hu : c.upcoming = [] := List.length_eq_zero_iff.mp (Nat.le_zero.mp hb')
          rw [commaItemsWithin_of_upcoming_eq_nil item [] i hc hu,
            commaItemsWithin_of_upcoming_eq_nil item (u :: bound) i hc hu]
      | cons u' bound' =>
          unfold commaItemsWithin
          split
          · rename_i hcomma
            have hfewer := c.length_upcoming_advance hc (by simp [c.kind_of_isAt hcomma])
            cases hitem : item i c.advance with
            | failed f d => rfl
            | ok a d =>
                have hleads := Advances.ok hitem
                have hle := hleads.upcoming.length_le
                rw [List.length_cons] at hb hb'
                have hothers : commaItemsWithin item bound (i + 1) d =
                    commaItemsWithin item bound' (i + 1) d :=
                  ih (hleads.closed (c.leads_advance.closed hc)) (by omega) (by omega)
                dsimp only
                rw [hothers]
          · rfl

theorem itemsAfter_nil (hc : c.Closed) : itemsAfter item [] c.upcoming c = commaList item c := by
  unfold itemsAfter commaList
  simp only [bind_apply, List.length_nil]
  cases hfirst : item 0 c with
  | failed f d => rfl
  | ok a d =>
      have hleads := Advances.ok hfirst
      have hothers : commaItemsWithin item c.upcoming (0 + 1) d =
          commaItemsWithin item d.upcoming 1 d :=
        commaItemsWithin_bound (hleads.closed hc) hleads.upcoming.length_le (Nat.le_refl _)
      dsimp only
      rw [hothers]
      rfl

end

theorem itemStep_repeats (item : Nat → Parser α) [∀ i, Advances (item i)] :
    Repeats (itemStep item) fun bound done => itemsAfter item done bound where
  nil {c} done hc hu := by
    unfold itemsAfter itemStep
    simp only [bind_apply]
    cases hfirst : item done.length c with
    | failed f d => rfl
    | ok a d =>
        have hleads := Advances.ok hfirst
        have hend : d.upcoming = [] := List.suffix_nil.mp (hu ▸ hleads.upcoming)
        have hk := d.kind_current_of_upcoming_eq_nil (hleads.closed hc) hend
        simp [commaItemsWithin, accept, Cursor.isAt, hk, goOn, pure_apply]
  cons u bound done := by
    funext c
    unfold itemsAfter itemStep
    rw [commaItemsWithin_cons]
    simp only [bind_apply]
    cases item done.length c with
    | failed f d => rfl
    | ok a d =>
        dsimp only
        cases accept .comma d with
        | failed f e => rfl
        | ok more e =>
            cases more with
            | false => rfl
            | true =>
                simp only [if_true, bind_apply, pure_apply, goOn, List.length_append,
                  List.length_singleton]
                cases item (done.length + 1) e with
                | failed f e' => rfl
                | ok b e' =>
                    dsimp only
                    cases commaItemsWithin item bound (done.length + 1 + 1) e' with
                    | failed f _ => rfl
                    | ok others _ => simp
  takes {done done' c d} hc h := by
    unfold itemStep at h
    simp only [bind_apply] at h
    cases hfirst : item done.length c with
    | failed f e => simp [hfirst] at h
    | ok a e =>
        have hleads := Advances.ok hfirst
        have hle := hleads.upcoming.length_le
        cases hcomma : e.isAt .comma with
        | false => simp [hfirst, accept, hcomma, pure_apply] at h
        | true =>
            have hfewer := e.length_upcoming_advance (hleads.closed hc)
              (by simp [e.kind_of_isAt hcomma])
            simp only [hfirst, accept, hcomma, if_true, pure_apply] at h
            cases h
            omega

section
variable (inner : Levels) (done : List Callable)

/-- A method behind some others, unless the class ends. -/
def methodStep : Parser (Tape.Round (List Callable) (List Callable)) := fun c =>
  if c.atEnd ∨ c.current.kind = .symbol .rightBrace then
    (pure (.leave done) : Parser (Tape.Round (List Callable) (List Callable))) c
  else
    (do
      let decl ← callable inner
      return .again (done ++ [decl]) : Parser (Tape.Round (List Callable) (List Callable))) c

/-- Some methods and all that follow. -/
def methodsAfter (bound : List Token) : Parser (List Callable) := do
  let others ← manyWithin (·.isAt .rightBrace) (callable inner) bound
  return done ++ others

theorem methodsAfter_nil (bound : List Token) :
    methodsAfter inner [] bound = manyWithin (·.isAt .rightBrace) (callable inner) bound := by
  funext c
  unfold methodsAfter
  rw [bind_apply]
  cases manyWithin (·.isAt .rightBrace) (callable inner) bound c <;> rfl

theorem methodStep_repeats [inner.Advance] :
    Repeats (methodStep inner) fun bound done => methodsAfter inner done bound where
  nil {c} done hc hu := by
    have hstep : methodStep inner done c = .ok (.leave done) c :=
      if_pos (.inl (by simp [Cursor.atEnd, hu]))
    rw [methodsAfter, manyWithin_nil, bind_apply (methodStep inner done), hstep]
    simp [bind_apply, goOn, pure_apply]
  cons u bound done := by
    funext c
    rw [methodsAfter, bind_apply (methodStep inner done), bind_apply, manyWithin_cons, methodStep]
    by_cases hends : c.atEnd ∨ c.current.kind = .symbol .rightBrace
    · have hstop : c.isAt .rightBrace || c.atEnd := by
        simpa [Cursor.isAt, or_comm] using hends
      rw [if_pos hstop, if_pos hends]
      simp [goOn, pure_apply]
    · have hstop : ¬ (c.isAt .rightBrace || c.atEnd) := by
        simpa [Cursor.isAt, and_comm] using hends
      rw [if_neg hstop, if_neg hends]
      simp only [bind_apply]
      cases callable inner c with
      | failed f d => rfl
      | ok decl d =>
          simp only [goOn, pure_apply, methodsAfter, bind_apply]
          cases manyWithin (·.isAt .rightBrace) (callable inner) bound d with
          | failed f e => rfl
          | ok others e => simp
  takes {done done' c d} hc h := by
    unfold methodStep at h
    split at h
    · cases h
    · rw [bind_apply] at h
      cases hdecl : callable inner c with
      | failed f e => simp [hdecl] at h
      | ok decl e =>
          simp only [hdecl, pure_apply] at h
          cases h
          exact consumes_callable hc hdecl

end

/-- What goes on with an expression, if the next token does. -/
def operatorStep (inner : Levels) (floor : Nat) (left : Expr) :
    Parser (Tape.Round Expr Expr) := do
  let next ← peek
  match continuation? inner floor left next.kind with
  | none => return .leave left
  | some more =>
      let e ← more
      return .again e

theorem length_upcoming_lt_of_take_bind {f : Unit → Parser α} [∀ u, Advances (f u)] {a : α}
    (hc : c.Closed) (hk : c.current.kind ≠ .endOfFile) (h : (take >>= f) c = .ok a d) :
    d.upcoming.length < c.upcoming.length := by
  have hle := (Advances.ok (p := f ()) h).upcoming.length_le
  have hfewer := c.length_upcoming_advance hc hk
  omega

section
variable {inner : Levels} {floor : Nat} {left : Expr}

theorem continuation?_endOfFile : continuation? inner floor left .endOfFile = none := rfl

/-- What continues an expression begins with a token of its own. -/
theorem length_upcoming_lt_of_continuation? [inner.Advance] {e : Expr} {more : Parser Expr}
    (hc : c.Closed) (hmore : continuation? inner floor left c.current.kind = some more)
    (h : more c = .ok e d) : d.upcoming.length < c.upcoming.length := by
  have hk : c.current.kind ≠ .endOfFile := by
    intro hk
    rw [hk, continuation?_endOfFile] at hmore
    cases hmore
  unfold continuation? at hmore
  split at hmore
  · cases hmore
    exact length_upcoming_lt_of_take_bind hc hk h
  · cases hmore
    exact length_upcoming_lt_of_take_bind hc hk h
  · split at hmore
    · split at hmore <;> cases hmore
      exact length_upcoming_lt_of_take_bind hc hk h
    · cases hmore

end

theorem operatorStep_repeats (inner : Levels) [inner.Advance] (floor : Nat) :
    Repeats (operatorStep inner floor) fun bound left =>
      continuedWithin inner floor bound left where
  nil {c} left hc hu := by
    have hk := c.kind_current_of_upcoming_eq_nil hc hu
    unfold operatorStep
    simp [bind_apply, peek, hk, continuation?_endOfFile, continuedWithin, goOn, pure_apply]
  cons u bound left := by
    funext c
    unfold operatorStep
    rw [continuedWithin_cons]
    simp only [bind_apply, peek]
    cases continuation? inner floor left c.current.kind with
    | none => rfl
    | some more =>
        simp only [bind_apply]
        cases more c <;> rfl
  takes {left left' c d} hc h := by
    unfold operatorStep at h
    simp only [bind_apply, peek] at h
    cases hmore : continuation? inner floor left c.current.kind with
    | none => simp [hmore, pure_apply] at h
    | some more =>
        simp only [hmore, bind_apply] at h
        cases he : more c with
        | failed f d => simp [he] at h
        | ok e d' =>
            simp only [he, pure_apply] at h
            cases h
            exact length_upcoming_lt_of_continuation? hc hmore he

section
variable (x : Extent)

/-- A token is dropped, unless a statement may begin here. -/
def skipStep (_ : Unit) : Parser (Tape.Round Unit Unit) := fun c =>
  if c.atEnd then .ok (.leave ()) c
  else if c.previous.kind = .symbol .semicolon ∨ x.endsAt c.current.kind ∨
      c.current.kind.startsStatement then .ok (.leave ()) c
  else .ok (.again ()) c.advance

def skipped : Parser Unit := fun c =>
  let (previous, upcoming) := Cursor.skip x c.previous c.upcoming
  .ok () { c with previous, upcoming }

def resumed : Parser Unit := fun c => .ok () (c.resume x)

theorem skipped_eq : skipped x = skipStep x () >>= goOn fun _ => skipped x := by
  funext c
  obtain ⟨previous, upcoming, finish, faults, nextId⟩ := c
  cases upcoming with
  | nil => rfl
  | cons u us =>
      simp only [bind_apply, skipStep, skipped, Cursor.skip, Cursor.atEnd, Cursor.current,
        Cursor.advance]
      by_cases hstop : previous.kind = .symbol .semicolon ∨ x.endsAt u.kind ∨
        u.kind.startsStatement <;> simp [hstop, goOn, pure_apply, skipped]

theorem skipStep_repeats : Repeats (skipStep x) fun _ _ => skipped x where
  nil {c} _ _ _ := congrFun (skipped_eq x) c
  cons _ _ _ := skipped_eq x
  takes {_ _ c d} hc h := by
    obtain ⟨previous, upcoming, finish, faults, nextId⟩ := c
    cases upcoming with
    | nil => cases h
    | cons u us =>
        unfold skipStep at h
        split at h
        · cases h
        · split at h
          · cases h
          · cases h
            exact Nat.lt_succ_self _

end

section
variable (x : Extent) (item : Parser Stmt) (done : List Stmt)

/-- The fault of a parser that fails is its value. -/
def attempt (p : Parser α) : Parser (Except SyntaxFault α) := fun c =>
  match p c with
  | .ok a next => .ok (.ok a) next
  | .failed fault next => .ok (.error fault) next

def countFaults : Parser Nat := fun c => .ok c.faults.length c

/-- A statement behind some others, faulty or not, unless the sequence ends. -/
def statementStep : Parser (Tape.Round (List Stmt) (List Stmt)) := fun c =>
  if c.atEnd ∨ x.endsAt c.current.kind then
    (pure (.leave done) : Parser (Tape.Round (List Stmt) (List Stmt))) c
  else
    (do
      match ← attempt item with
      | .ok s => return .again (done ++ [s])
      | .error fault =>
          note fault
          let count ← countFaults
          if maxSyntaxFaults ≤ count then return .leave done
          else
            resumed x
            return .again done : Parser (Tape.Round (List Stmt) (List Stmt))) c

/-- Some statements and all that follow. -/
def statementsAfter (bound : List Token) : Parser (List Stmt) := fun c =>
  .ok (done ++ (sequenceWithin x item bound c).1) (sequenceWithin x item bound c).2

end

theorem statementStep_repeats (x : Extent) {item : Parser Stmt} [Advances item]
    (hitem : item.Consumes) :
    Repeats (statementStep x item) fun bound done => statementsAfter x item done bound where
  nil {c} done hc hu := by
    have hstep : statementStep x item done c = .ok (.leave done) c :=
      if_pos (.inl (by simp [Cursor.atEnd, hu]))
    simp [statementsAfter, sequenceWithin, bind_apply, hstep, goOn, pure_apply]
  cons u bound done := by
    funext c
    rw [statementsAfter, bind_apply, statementStep]
    by_cases hends : c.atEnd ∨ x.endsAt c.current.kind
    · rw [if_pos hends, sequenceWithin_of_ends (by simpa using hends)]
      simp [goOn, pure_apply]
    · have hgoes : (c.atEnd || x.endsAt c.current.kind) = false := by simpa using hends
      rw [if_neg hends, bind_apply, attempt]
      cases hread : item c with
      | ok s d =>
          rw [sequenceWithin_of_ok hgoes hread]
          simp [goOn, pure_apply, statementsAfter]
      | failed fault d =>
          rw [sequenceWithin_of_failed hgoes hread]
          simp only [bind_apply, note, countFaults]
          split <;> simp [goOn, pure_apply, statementsAfter, bind_apply, resumed]
  takes {done done' c d} hc h := by
    unfold statementStep at h
    split at h
    · cases h
    · rename_i hends
      have hgoes : (c.atEnd || x.endsAt c.current.kind) = false := by simpa using hends
      simp only [bind_apply, attempt] at h
      cases hread : item c with
      | ok s e =>
          simp only [hread, pure_apply] at h
          cases h
          exact hitem hc hread
      | failed fault e =>
          simp only [hread, bind_apply, note, countFaults] at h
          split at h
          · cases h
          · cases h
            have hleads := (Advances.failed hread).trans (e.leads_note fault)
            exact Cursor.length_resume_lt hleads hgoes

end Parser

end LamScope

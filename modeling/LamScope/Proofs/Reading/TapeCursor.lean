import LamScope.Proofs.Reading.MirrorProgram
import LamScope.Proofs.Reading.Tape

/-!
# What a tape shows

From its position on, a tape shows a cursor: the tokens up to the first end of file, and that end
of file. A reader performs a parser if it has an answer wherever it starts from a tape that shows a
cursor, and the answer shows the reply of the parser. A loop performs whatever satisfies its
equation, as long as every round that asks for another takes a token.
-/
namespace LamScope

/-- The position is one of the tokens up to the first end of file, and these are still there. -/
structure Tape.Shows (tokens : List Token) (t : Tape) (c : Cursor) : Prop where
  same : t.tokens = tokens
  ends : tokens.findIdx? (·.kind == .endOfFile) = some (t.position + c.upcoming.length)
  upcoming : c.upcoming <+: tokens.drop t.position
  finish : tokens[t.position + c.upcoming.length]? = some c.finish
  previous : tokens[t.position - 1]? = some c.previous
  faults : t.faults = c.faults
  nextId : t.nextId = c.nextId

namespace Tape
variable {tokens : List Token} {t : Tape} {c : Cursor}

theorem Shows.closed (h : t.Shows tokens c) : c.Closed := by
  obtain ⟨hlt, hend, -⟩ := List.findIdx?_eq_some_iff_getElem.mp h.ends
  have hfinish : tokens[t.position + c.upcoming.length] = c.finish :=
    Option.some.inj ((List.getElem?_eq_getElem hlt).symm.trans h.finish)
  rw [hfinish] at hend
  simpa [Cursor.Closed] using hend

theorem Shows.current (h : t.Shows tokens c) : tokens[t.position]? = some c.current := by
  have hfinish := h.finish
  have hupcoming := h.upcoming
  unfold Cursor.current
  cases hu : c.upcoming with
  | nil => simpa [hu] using hfinish
  | cons u us =>
      rw [hu] at hupcoming
      obtain ⟨rest, hrest⟩ := hupcoming
      have hfirst : (tokens.drop t.position)[0]? = some u := by
        rw [← hrest]
        rfl
      simpa using hfirst

theorem Shows.kind_current_iff (h : t.Shows tokens c) :
    c.current.kind = .endOfFile ↔ c.upcoming = [] := by
  constructor
  · intro hk
    cases hu : c.upcoming with
    | nil => rfl
    | cons u us =>
        -- The position lies before the first end of file.
        obtain ⟨_, -, hbefore⟩ := List.findIdx?_eq_some_iff_getElem.mp h.ends
        have hlt : t.position < t.position + c.upcoming.length := by simp [hu]
        have hcurrent : tokens[t.position] = c.current :=
          Option.some.inj ((List.getElem?_eq_getElem _).symm.trans h.current)
        have hne := hbefore t.position hlt
        rw [hcurrent, hk] at hne
        exact absurd rfl hne
  · exact c.kind_current_of_upcoming_eq_nil h.closed

theorem Shows.advance (h : t.Shows tokens c) (hk : c.current.kind ≠ .endOfFile) :
    Shows tokens { t with position := t.position + 1 } c.advance := by
  have hu := c.upcoming_eq_cons h.closed hk
  have hlength := c.length_upcoming_advance h.closed hk
  have hsum : t.position + 1 + c.advance.upcoming.length = t.position + c.upcoming.length := by
    omega
  obtain ⟨rest, hrest⟩ := h.upcoming
  constructor
  · exact h.same
  · show _ = some (t.position + 1 + _)
    rw [hsum]
    exact h.ends
  · have hdrop := congrArg (List.drop 1) hrest
    rw [hu, List.cons_append, List.drop_succ_cons, List.drop_zero, List.drop_drop] at hdrop
    exact ⟨rest, hdrop⟩
  · show tokens[t.position + 1 + _]? = _
    rw [hsum, Cursor.finish_advance]
    exact h.finish
  · have hprevious : c.advance.previous = c.current := by
      unfold Cursor.advance Cursor.current
      rw [hu]
      rfl
    rw [hprevious]
    exact h.current
  · rw [Cursor.faults_advance]
    exact h.faults
  · have hid : c.advance.nextId = c.nextId := by
      unfold Cursor.advance
      split <;> rfl
    rw [hid]
    exact h.nextId

theorem Shows.note (h : t.Shows tokens c) (f : SyntaxFault) :
    Shows tokens { t with faults := t.faults ++ [f] } (c.note f) :=
  { h with faults := congrArg (· ++ [f]) h.faults }

theorem Shows.draw (h : t.Shows tokens c) :
    Shows tokens { t with nextId := t.nextId + 1 } { c with nextId := c.nextId + 1 } :=
  { h with nextId := congrArg (· + 1) h.nextId }

/-- The answer shows the reply. -/
inductive Answer.Shows (tokens : List Token) {α : Type} : Answer α → Reply α → Prop
  | ok {a : α} {t : Tape} {c : Cursor} : t.Shows tokens c → Shows tokens (.ok a t) (.ok a c)
  | failed {f : SyntaxFault} {t : Tape} {c : Cursor} :
      t.Shows tokens c → Shows tokens (.failed f t) (.failed f c)

/-- On tapes the reader does what the parser does on the cursors they show. -/
class Performs {α : Type} (q : Reader α) (p : Parser α) : Prop where
  performs : ∀ {tokens : List Token} {t : Tape} {c : Cursor}, t.Shows tokens c →
    ∃ answer ∈ q t, answer.Shows tokens (p c)

namespace Reader
variable {α β σ ρ : Type}

instance (a : α) : Performs (pure a) (pure a : Parser α) :=
  ⟨fun h => ⟨_, Part.mem_some _, .ok h⟩⟩

theorem performs_bind_of {q : Reader α} {p : Parser α} {f : α → Reader β} {g : α → Parser β}
    [Performs q p] (hrest : ∀ a, Performs (f a) (g a)) : Performs (q >>= f) (p >>= g) where
  performs {tokens t c} h := by
    obtain ⟨first, hfirst, hshows⟩ := Performs.performs (q := q) (p := p) h
    rw [Parser.bind_apply]
    generalize p c = reply at hshows
    cases hshows with
    | failed hnext => exact ⟨_, Part.mem_bind hfirst (Part.mem_some _), .failed hnext⟩
    | ok hnext =>
        rename_i a _ _
        obtain ⟨last, hlast, hshows⟩ := (hrest a).performs hnext
        exact ⟨last, Part.mem_bind hfirst hlast, hshows⟩

instance performs_bind (q : Reader α) (p : Parser α) (f : α → Reader β) (g : α → Parser β)
    [Performs q p] [hrest : ∀ a, Performs (f a) (g a)] : Performs (q >>= f) (p >>= g) :=
  performs_bind_of hrest

instance (q : Reader α) (p : Parser α) (f : α → β) [Performs q p] :
    Performs (f <$> q) (f <$> p) :=
  inferInstanceAs (Performs (q >>= fun a => pure (f a)) (p >>= fun a => pure (f a)))

instance (P : Prop) [Decidable P] (q q' : Reader α) (p p' : Parser α) [Performs q p]
    [Performs q' p'] : Performs (if P then q else q') (if P then p else p') := by
  split <;> infer_instance

instance (f : SyntaxFault) : Performs (fail f : Reader α) (Parser.fail f) :=
  ⟨fun h => ⟨_, Part.mem_some _, .failed h⟩⟩

instance (f : SyntaxFault) : Performs (note f) (Parser.note f) :=
  ⟨fun h => ⟨_, Part.mem_some _, .ok (h.note f)⟩⟩

instance : Performs freshId Parser.freshId where
  performs {tokens t c} h := by
    have hdraw := h.draw
    unfold Parser.freshId
    rw [← h.nextId] at hdraw ⊢
    exact ⟨.ok t.nextId _, Part.mem_some _, .ok hdraw⟩

theorem tokenAt_eq {index : Nat → Nat} {t : Tape} {token : Token}
    (h : t.tokens[index t.position]? = some token) : tokenAt index t = .some (.ok token t) := by
  unfold tokenAt
  rw [h]
  exact Part.map_some _ token

theorem peek_eq (h : t.Shows tokens c) : peek t = .some (.ok c.current t) := by
  apply tokenAt_eq
  rw [h.same]
  exact h.current

theorem previous_eq (h : t.Shows tokens c) : previous t = .some (.ok c.previous t) := by
  apply tokenAt_eq
  rw [h.same]
  exact h.previous

theorem bind_eq_of_eq {q : Reader α} {a : α} {next : Tape} (h : q t = .some (.ok a next))
    (f : α → Reader β) : (q >>= f) t = f a next := by
  show (q t).bind _ = _
  rw [h]
  exact Part.bind_some _ _

theorem peek_bind (h : t.Shows tokens c) (f : Token → Reader β) :
    (peek >>= f) t = f c.current t := bind_eq_of_eq (peek_eq h) f

instance : Performs peek Parser.peek where
  performs h := by
    rw [peek_eq h]
    exact ⟨_, Part.mem_some _, .ok h⟩

instance : Performs take Parser.take where
  performs {tokens t c} h := by
    unfold take Parser.take
    rw [peek_bind h]
    split
    · rename_i hk
      have hstays : c.advance = c := by
        unfold Cursor.advance
        rw [h.kind_current_iff.mp hk]
      rw [hstays]
      exact ⟨_, Part.mem_some _, .ok h⟩
    · rename_i hk
      exact ⟨_, Part.mem_some _, .ok (h.advance hk)⟩

/-- A choice by whether no token is left or the next one is of some kind. -/
theorem performs_atEnd {stop : Token → Prop} [DecidablePred stop] {q q' : Reader α}
    {p p' : Parser α} [Performs q p] (hrest : Performs q' p') :
    Performs (do
      let next ← peek
      if next.kind = .endOfFile ∨ stop next then q else q')
      fun c => if c.atEnd ∨ stop c.current then p c else p' c where
  performs {tokens t c} h := by
    have hend : c.current.kind = .endOfFile ∨ stop c.current ↔ c.atEnd ∨ stop c.current := by
      rw [h.kind_current_iff, Cursor.atEnd, List.isEmpty_iff]
    rw [peek_bind h]
    by_cases hstop : c.current.kind = .endOfFile ∨ stop c.current
    · rw [if_pos hstop, if_pos (hend.mp hstop)]
      exact Performs.performs h
    · rw [if_neg hstop, if_neg fun h' => hstop (hend.mpr h')]
      exact hrest.performs h

/-- A choice by whether a symbol is next. -/
theorem performs_isAt (s : Symbol) (q : Reader α) (q' : Token → Reader α) (p : Parser α)
    (p' : Token → Parser α) [Performs q p] [∀ u, Performs (q' u) (p' u)] :
    Performs (do
      let next ← peek
      if next.kind = .symbol s then q else q' next)
      fun c => if c.isAt s then p c else p' c.current c := by
  have hequation : (fun c => if c.isAt s then p c else p' c.current c) = (do
      let next ← Parser.peek
      if next.kind = .symbol s then p else p' next : Parser α) := by
    funext c
    rw [Parser.bind_apply, Parser.peek]
    by_cases hk : c.current.kind = .symbol s <;> simp [Cursor.isAt, hk]
  rw [hequation]
  infer_instance

instance (s : Symbol) : Performs (accept s) (Parser.accept s) :=
  performs_isAt s (do take; return true) (fun _ => pure false)
    (do Parser.take; return true : Parser Bool) fun _ => pure false

instance (s : Symbol) : Performs (expect s) (Parser.expect s) :=
  performs_isAt s take (fun u => fail (.expected (.symbol s) u)) Parser.take
    fun u => Parser.fail (.expected (.symbol s) u)

instance : Performs expectName Parser.expectName := by
  have hequation : Parser.expectName = (do
      let next ← Parser.peek
      if next.kind = .name then
        Parser.take
        return next.toWord
      else Parser.fail (.expected .name next)) := by
    funext c
    rw [Parser.bind_apply, Parser.peek, Parser.expectName]
    dsimp only
    split <;> rfl
  rw [hequation]
  unfold expectName
  infer_instance

theorem spanFrom_performs (start : Nat) :
    Performs (spanFrom start) fun c => .ok ⟨start, c.previous.span.stop⟩ c where
  performs {tokens t c} h := by
    unfold spanFrom
    rw [bind_eq_of_eq (previous_eq h)]
    exact ⟨_, Part.mem_some _, .ok h⟩

instance (start : Nat) : Performs (closeNode start) (Parser.closeNode start) := by
  have hequation : Parser.closeNode start = (do
      let id ← Parser.freshId
      let span ← fun c => Reply.ok ⟨start, c.previous.span.stop⟩ c
      return ⟨id, span⟩) := rfl
  have hspan := spanFrom_performs start
  rw [hequation]
  exact @performs_bind _ _ _ _ _ _ _ fun id => @performs_bind _ _ _ _ _ _ hspan fun span =>
    inferInstance

instance (span : Span) : Performs (nodeAt span) (Parser.nodeAt span) := by
  unfold nodeAt Parser.nodeAt
  infer_instance

end Reader

end Tape

namespace Parser
variable {σ ρ : Type}

/-- What a loop does after a round of its own. -/
def goOn (again : σ → Parser ρ) : Tape.Round σ ρ → Parser ρ
  | .again s => again s
  | .leave r => pure r

/-- The repetition does one round after the other for as long as they ask for another, within a
bound on their number. Each round that asks for another takes a token, so a bound that has an
element for every token to come cuts nothing off. -/
structure Repeats (step : σ → Parser (Tape.Round σ ρ)) (within : List Token → σ → Parser ρ) :
    Prop where
  nil {c : Cursor} (s : σ) : c.Closed → c.upcoming = [] →
    within [] s c = (step s >>= goOn (within [])) c
  cons (u : Token) (bound : List Token) (s : σ) :
    within (u :: bound) s = step s >>= goOn (within bound)
  takes {s s' : σ} {c d : Cursor} : c.Closed → step s c = .ok (.again s') d →
    d.upcoming.length < c.upcoming.length

theorem Repeats.unfolds {step : σ → Parser (Tape.Round σ ρ)} {within : List Token → σ → Parser ρ}
    (h : Repeats step within) {bound : List Token} {c : Cursor} (s : σ) (hc : c.Closed)
    (hb : c.upcoming.length ≤ bound.length) :
    within bound s c = (step s >>= goOn (within bound.tail)) c := by
  cases bound with
  | nil => exact h.nil s hc (List.length_eq_zero_iff.mp (Nat.le_zero.mp hb))
  | cons u bound =>
      rw [h.cons]
      rfl

end Parser

namespace Tape.Reader
variable {σ ρ : Type} {tokens : List Token}

section
variable {round : σ → Reader (Round σ ρ)} {s : σ} {t next : Tape}

theorem mem_loop_of_leave {r : ρ} (h : .ok (.leave r) next ∈ round s t) :
    .ok r next ∈ loop round s t :=
  PFun.fix_stop (Part.mem_map standing h)

theorem mem_loop_of_failed {f : SyntaxFault} (h : .failed f next ∈ round s t) :
    .failed f next ∈ loop round s t :=
  PFun.fix_stop (Part.mem_map standing h)

theorem loop_of_again {s' : σ} (h : .ok (.again s') next ∈ round s t) :
    loop round s t = loop round s' next :=
  PFun.fix_fwd_eq (Part.mem_map standing h)

end

section
variable {round : σ → Reader (Round σ ρ)} {step : σ → Parser (Round σ ρ)}
  {within : List Token → σ → Parser ρ} [hround : ∀ s, Performs (round s) (step s)]
  {bound : List Token} {t : Tape} {c : Cursor}
include hround

/-- A loop whose other rounds perform the repetition does so with its first round as well. -/
theorem loop_performs_of_again (hrepeats : Parser.Repeats step within) {s : σ}
    (h : t.Shows tokens c) (hb : c.upcoming.length ≤ bound.length)
    (hagain : ∀ {s' next d}, step s c = .ok (.again s') d → next.Shows tokens d →
      ∃ answer ∈ loop round s' next, answer.Shows tokens (within bound.tail s' d)) :
    ∃ answer ∈ loop round s t, answer.Shows tokens (within bound s c) := by
  obtain ⟨answer, hanswer, hshows⟩ := (hround s).performs h
  rw [hrepeats.unfolds s h.closed hb, Parser.bind_apply]
  cases hstep : step s c with
  | failed f d =>
      rw [hstep] at hshows
      cases hshows with
      | failed hnext => exact ⟨_, mem_loop_of_failed hanswer, .failed hnext⟩
  | ok asked d =>
      rw [hstep] at hshows
      cases hshows with
      | ok hnext =>
          cases asked with
          | leave r => exact ⟨_, mem_loop_of_leave hanswer, .ok hnext⟩
          | again s' =>
              rw [loop_of_again hanswer]
              exact hagain hstep hnext

/-- The induction is on the bound, which no round overtakes. -/
theorem loop_performs (hrepeats : Parser.Repeats step within) (s : σ) (h : t.Shows tokens c)
    (hb : c.upcoming.length ≤ bound.length) :
    ∃ answer ∈ loop round s t, answer.Shows tokens (within bound s c) := by
  induction bound generalizing s t c with
  | nil =>
      apply loop_performs_of_again hrepeats h hb
      intro s' next d hstep _
      have hfewer := hrepeats.takes h.closed hstep
      exact absurd hfewer (by simp [List.length_eq_zero_iff.mp (Nat.le_zero.mp hb)])
  | cons u bound ih =>
      apply loop_performs_of_again hrepeats h hb
      intro s' next d hstep hnext
      have hfewer := hrepeats.takes h.closed hstep
      rw [List.length_cons] at hb
      exact ih s' hnext (by omega)

theorem performs_loop (hrepeats : Parser.Repeats step within) (s : σ) :
    Performs (loop round s) fun c => within c.upcoming s c :=
  ⟨fun h => loop_performs hrepeats s h (Nat.le_refl _)⟩

end

end Tape.Reader

end LamScope

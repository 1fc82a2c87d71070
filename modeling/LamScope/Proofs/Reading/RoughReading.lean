import LamScope.Proofs.Reading.RoughGrammar
import LamScope.Proofs.Reading.Takes

/-!
# Readings are rough derivations

Whatever a parser does, it takes some tokens in a row, draws node numbers upwards, and notes faults
that some token shows. What it gives is derivable in the rough grammar from just these tokens and
numbers. Main statement: so are the statements of every program, read with faults or without.
-/
namespace LamScope

open Rough

namespace Rough

theorem getLastD_append {α : Type} (xs ys : List α) (a : α) :
    (xs ++ ys).getLastD a = ys.getLastD (xs.getLastD a) := by
  induction xs generalizing a with
  | nil => rfl
  | cons x xs ih => rw [List.cons_append, List.getLastD_cons, List.getLastD_cons, ih]

/-- The last of some elements does not depend on what stands before them. -/
theorem getLastD_congr {α : Type} {xs : List α} (h : xs ≠ []) (a b : α) :
    xs.getLastD a = xs.getLastD b := by
  cases xs with
  | nil => exact (h rfl).elim
  | cons x xs => rw [List.getLastD_cons, List.getLastD_cons]

mutual

theorem Operand.ne_nil {ts : List Token} {m n : Nat} {e : Expr} : Operand ts m n e → ts ≠ []
  | .literal _ | .name | .group _ | .unary _ _ => List.cons_ne_nil _ _
  | .operation _ _ _ | .property _ => by simp
  | .call _ _ => by simp

theorem Expression.ne_nil {ts : List Token} {m n : Nat} {e : Expr} :
    Expression ts m n e → ts ≠ []
  | .operand h => h.ne_nil
  | .assign _ _ | .setProperty _ _ | .rejected _ _ => by simp

end

theorem Statement.ne_nil {ts : List Token} {m n : Nat} {s : Stmt} (h : Statement ts m n s) :
    ts ≠ [] := by
  cases h
  case simple hs =>
    cases hs
    simp
  all_goals simp

end Rough

/-- The place of the fault is that of a word. -/
def SyntaxFault.ShownBy (P : Word → Prop) (f : SyntaxFault) : Prop :=
  ∃ w, P w ∧ f.line = w.line ∧ f.span = w.span

theorem SyntaxFault.of_shownBy {P : Word → Prop} (cause : Cause) {w : Word} (h : P w) :
    (of cause w).ShownBy P := ⟨w, h, rfl, rfl⟩

/-- The tokens to come are all of a kind. -/
structure Cursor.Over (P : Word → Prop) (c : Cursor) : Prop where
  closed : c.Closed
  finish : P c.finish.toWord
  upcoming : ∀ t ∈ c.upcoming, P t.toWord

theorem Cursor.Closed.over {c : Cursor} (hc : c.Closed) : c.Over fun _ => True :=
  ⟨hc, trivial, fun _ _ => trivial⟩

/-- The tokens are taken on the way from one cursor to the other. -/
structure Cursor.Passes (P : Word → Prop) (c : Cursor) (ts : List Token) (d : Cursor) : Prop where
  upcoming : c.upcoming = ts ++ d.upcoming
  finish : d.finish = c.finish
  previous : d.previous = ts.getLastD c.previous
  nextId : c.nextId ≤ d.nextId
  faults : ∀ f ∈ d.faults, f ∈ c.faults ∨ f.ShownBy P

namespace Cursor
variable {P : Word → Prop} {c d e : Cursor} {ts us : List Token}

@[simp] theorem nextId_advance (c : Cursor) : c.advance.nextId = c.nextId := by
  unfold advance
  split <;> rfl

theorem Passes.refl (c : Cursor) : c.Passes P [] c :=
  ⟨rfl, rfl, rfl, Nat.le_refl _, fun _ => .inl⟩

theorem Passes.trans (h : c.Passes P ts d) (h' : d.Passes P us e) : c.Passes P (ts ++ us) e where
  upcoming := by rw [h.upcoming, h'.upcoming, List.append_assoc]
  finish := h'.finish.trans h.finish
  previous := by rw [h'.previous, h.previous, getLastD_append]
  nextId := Nat.le_trans h.nextId h'.nextId
  faults f hf := (h'.faults f hf).elim (h.faults f) .inr

theorem Passes.over (h : c.Passes P ts d) (hc : c.Over P) : d.Over P where
  closed := hc.closed.of_finish_eq h.finish
  finish := h.finish ▸ hc.finish
  upcoming t ht := hc.upcoming t (h.upcoming ▸ List.mem_append_right ts ht)

theorem Passes.mem (h : c.Passes P ts d) (hc : c.Over P) {t : Token} (ht : t ∈ ts) :
    P t.toWord :=
  hc.upcoming t (h.upcoming ▸ List.mem_append_left d.upcoming ht)

theorem Passes.current_eq {t : Token} (h : c.Passes P (t :: ts) d) : c.current = t :=
  Cursor.current_eq h.upcoming

theorem Over.current (hc : c.Over P) : P c.current.toWord := by
  cases hu : c.upcoming with
  | nil => simpa [Cursor.current, hu] using hc.finish
  | cons t ts =>
      rw [current_eq hu]
      exact hc.upcoming t (hu ▸ List.mem_cons_self)

theorem passes_cons {t : Token} (h : c.upcoming = t :: ts) : c.Passes P [t] c.advance where
  upcoming := by simpa [upcoming_advance h] using h
  finish := c.finish_advance
  previous := by simp [advance, h]
  nextId := by simp
  faults f hf := .inl (by simpa using hf)

theorem passes_advance (hc : c.Over P) (h : c.current.kind ≠ .endOfFile) :
    c.Passes P [c.current] c.advance :=
  passes_cons (c.upcoming_eq_cons hc.closed h)

theorem passes_note {f : SyntaxFault} (h : f.ShownBy P) : c.Passes P [] (c.note f) where
  upcoming := rfl
  finish := rfl
  previous := rfl
  nextId := Nat.le_refl _
  faults g hg := by
    rcases List.mem_append.mp hg with hg | hg
    · exact .inl hg
    · rw [List.mem_singleton.mp hg]
      exact .inr h

theorem passes_draw : c.Passes P [] { c with nextId := c.nextId + 1 } :=
  ⟨rfl, rfl, rfl, Nat.le_succ _, fun _ => .inl⟩

theorem skip_eq (x : Extent) (previous : Token) (ts : List Token) :
    ∃ us, ts = us ++ (skip x previous ts).2 ∧ (skip x previous ts).1 = us.getLastD previous := by
  induction ts generalizing previous with
  | nil => exact ⟨[], rfl, rfl⟩
  | cons t ts ih =>
      unfold skip
      split
      · exact ⟨[], rfl, rfl⟩
      · obtain ⟨us, hus, hlast⟩ := ih t
        exact ⟨t :: us, by rw [List.cons_append, ← hus], by rw [hlast, List.getLastD_cons]⟩

/-- Resuming takes the tokens that it drops. -/
theorem passes_resume (x : Extent) (c : Cursor) :
    ∃ ts, c.Passes P ts (c.resume x) ∧ (c.resume x).nextId = c.nextId := by
  unfold resume
  split
  · exact ⟨[], .refl c, rfl⟩
  · rename_i t ts h
    split
    · exact ⟨[], .refl c, rfl⟩
    · obtain ⟨us, hus, hlast⟩ := skip_eq x t ts
      refine ⟨t :: us, ⟨?_, rfl, ?_, Nat.le_refl _, fun _ => .inl⟩, rfl⟩
      · rw [h, List.cons_append, ← hus]
      · rw [List.getLastD_cons]
        exact hlast

end Cursor

namespace Parser
variable {α β : Type} {P : Word → Prop}

/-- From the cursor `c` the parser takes some tokens in a row. If it gives anything, `R` holds of
the tokens taken, of what is given and of where it stops; or else a word shows the fault. -/
def Goes (P : Word → Prop) (p : Parser α) (c : Cursor)
    (R : List Token → α → Cursor → Prop) : Prop :=
  match p c with
  | .ok a d => ∃ ts, c.Passes P ts d ∧ R ts a d
  | .failed f d => f.ShownBy P ∧ ∃ ts, c.Passes P ts d

variable {p : Parser α} {f : α → Parser β} {c d : Cursor}
  {R : List Token → α → Cursor → Prop} {S : List Token → β → Cursor → Prop}

theorem Goes.bind (hp : p.Goes P c R)
    (hf : ∀ ts a d, c.Passes P ts d → R ts a d → (f a).Goes P d fun us => S (ts ++ us)) :
    (p >>= f).Goes P c S := by
  unfold Goes at hp ⊢
  rw [bind_apply]
  cases hc : p c with
  | failed fault d =>
      rw [hc] at hp
      exact hp
  | ok a d =>
      rw [hc] at hp
      obtain ⟨ts, hd, ha⟩ := hp
      have hrest := hf ts a d hd ha
      unfold Goes at hrest
      dsimp only
      cases hr : f a d with
      | failed fault e =>
          rw [hr] at hrest
          obtain ⟨hfault, us, he⟩ := hrest
          exact ⟨hfault, ts ++ us, hd.trans he⟩
      | ok b e =>
          rw [hr] at hrest
          obtain ⟨us, he, hb⟩ := hrest
          exact ⟨ts ++ us, hd.trans he, hb⟩

theorem Goes.imp {R' : List Token → α → Cursor → Prop} (hp : p.Goes P c R)
    (h : ∀ ts a d, c.Passes P ts d → R ts a d → R' ts a d) : p.Goes P c R' := by
  unfold Goes at hp ⊢
  cases hc : p c with
  | failed fault d =>
      rw [hc] at hp
      exact hp
  | ok a d =>
      rw [hc] at hp
      obtain ⟨ts, hd, ha⟩ := hp
      exact ⟨ts, hd, h ts a d hd ha⟩

theorem Goes.map {g : α → β} (hp : p.Goes P c R)
    (h : ∀ ts a d, c.Passes P ts d → R ts a d → S ts (g a) d) : (g <$> p).Goes P c S :=
  Goes.bind (f := fun a => pure (g a)) hp fun ts a d hd ha =>
    ⟨[], .refl d, by simpa using h ts a d hd ha⟩

/-- A step whose reply is known. -/
theorem goes_step {a : α} {ts : List Token} (h : p c = .ok a d) (hd : c.Passes P ts d)
    (hf : (f a).Goes P d fun us => S (ts ++ us)) : (p >>= f).Goes P c S := by
  refine Goes.bind (R := fun us b e => us = ts ∧ b = a ∧ e = d) ?_ ?_
  · unfold Goes
    rw [h]
    exact ⟨ts, hd, rfl, rfl, rfl⟩
  · rintro us b e - ⟨rfl, rfl, rfl⟩
    exact hf

theorem goes_pure {a : α} (h : R [] a c) : (pure a : Parser α).Goes P c R := ⟨[], .refl c, h⟩

theorem goes_fail {fault : SyntaxFault} (h : fault.ShownBy P) :
    (fail fault : Parser α).Goes P c R := ⟨h, [], .refl c⟩

theorem goes_tooDeep (hc : c.Over P) : (Parser.tooDeep : Parser α).Goes P c R :=
  ⟨SyntaxFault.of_shownBy _ hc.current, [], .refl c⟩

theorem goes_peek_bind {f : Token → Parser β} (h : (f c.current).Goes P c S) :
    (peek >>= f).Goes P c S := goes_step rfl (.refl c) h

theorem goes_note_bind {f : Unit → Parser β} {cause : SyntaxFault.Cause} {w : Word} (hw : P w)
    (h : (f ()).Goes P (c.note (.of cause w)) S) : (note (.of cause w) >>= f).Goes P c S :=
  goes_step rfl (Cursor.passes_note (SyntaxFault.of_shownBy cause hw)) h

theorem goes_take_bind {f : Unit → Parser β} (hc : c.Over P) (hk : c.current.kind ≠ .endOfFile)
    (h : (f ()).Goes P c.advance fun us => S (c.current :: us)) : (take >>= f).Goes P c S :=
  goes_step rfl (Cursor.passes_advance hc hk) h

theorem goes_expect_bind {s : Symbol} {f : Unit → Parser β} (hc : c.Over P)
    (h : ∀ t, c.Passes P [t] c.advance → (f ()).Goes P c.advance fun us => S (t :: us)) :
    (expect s >>= f).Goes P c S := by
  by_cases hs : c.isAt s
  · have hd := Cursor.passes_advance hc (by simp [c.kind_of_isAt hs])
    exact goes_step (by simp [expect, hs]) hd (h c.current hd)
  · have hfails : (expect s >>= f) c = .failed (.expected (.symbol s) c.current) c := by
      simp [bind_apply, expect, hs]
    unfold Goes
    rw [hfails]
    exact ⟨SyntaxFault.of_shownBy _ hc.current, [], .refl c⟩

theorem goes_expectName (hc : c.Over P) :
    expectName.Goes P c fun ts w d => ∃ t, ts = [t] ∧ w = t.toWord ∧ d = c.advance := by
  unfold Goes expectName
  by_cases hk : c.current.kind = .name
  · rw [if_pos hk]
    exact ⟨[c.current], Cursor.passes_advance hc (by simp [hk]), c.current, rfl, rfl, rfl⟩
  · rw [if_neg hk]
    exact ⟨SyntaxFault.of_shownBy _ hc.current, [], .refl c⟩

theorem goes_expectName_bind {f : Word → Parser β} (hc : c.Over P)
    (h : ∀ t, c.Passes P [t] c.advance →
      (f t.toWord).Goes P c.advance fun us => S (t :: us)) :
    (expectName >>= f).Goes P c S := by
  refine (goes_expectName hc).bind ?_
  rintro ts w d hd ⟨t, rfl, rfl, rfl⟩
  exact h t hd

theorem goes_accept_bind {s : Symbol} {f : Bool → Parser β} (hc : c.Over P)
    (htrue : ∀ t, c.Passes P [t] c.advance → (f true).Goes P c.advance fun us => S (t :: us))
    (hfalse : (f false).Goes P c S) : (accept s >>= f).Goes P c S := by
  by_cases hs : c.isAt s
  · have hd := Cursor.passes_advance hc (by simp [c.kind_of_isAt hs])
    exact goes_step (by simp [accept, hs]) hd (htrue c.current hd)
  · exact goes_step (by simp [accept, hs]) (.refl c) hfalse

theorem goes_closeNode_bind {f : Node → Parser β} {start : Nat}
    (h : (f ⟨c.nextId, start, c.previous.span.stop⟩).Goes P { c with nextId := c.nextId + 1 } S) :
    (closeNode start >>= f).Goes P c S := goes_step rfl Cursor.passes_draw h

theorem goes_nodeAt_bind {f : Node → Parser β} {span : Span}
    (h : (f ⟨c.nextId, span⟩).Goes P { c with nextId := c.nextId + 1 } S) :
    (nodeAt span >>= f).Goes P c S := goes_step rfl Cursor.passes_draw h

/-- Items after commas, of which `Q` is true as far as `I` is true of each. -/
theorem commaItemsWithin_goes {item : Nat → Parser α} {I : List Token → Nat → Nat → α → Prop}
    {Q : List Token → Nat → Nat → List α → Prop}
    (hitem : ∀ i c, c.Over P → (item i).Goes P c fun ts a d => I ts c.nextId d.nextId a)
    (none : ∀ m, Q [] m m [])
    (some : ∀ {ts us m k n a as} (commas : List Token), I ts m k a → Q us k n as →
      Q (commas ++ ts ++ us) m n (a :: as))
    (bound : List Token) (i : Nat) (hc : c.Over P) :
    (commaItemsWithin item bound i).Goes P c fun ts as d => Q ts c.nextId d.nextId as := by
  induction bound generalizing i c with
  | nil =>
      rw [commaItemsWithin_nil]
      exact goes_pure (none _)
  | cons _ bound ih =>
      rw [commaItemsWithin_cons]
      refine goes_accept_bind hc (fun comma hcomma => ?_) (goes_pure (none _))
      refine (hitem i c.advance (hcomma.over hc)).bind fun ts a d hd ha => ?_
      refine (ih (i + 1) (hd.over (hcomma.over hc))).bind fun us as e _ has => goes_pure ?_
      rw [Cursor.nextId_advance] at ha
      simpa using some [comma] ha has

theorem commaList_goes {item : Nat → Parser α} {I : List Token → Nat → Nat → α → Prop}
    {Q : List Token → Nat → Nat → List α → Prop}
    (hitem : ∀ i c, c.Over P → (item i).Goes P c fun ts a d => I ts c.nextId d.nextId a)
    (none : ∀ m, Q [] m m [])
    (some : ∀ {ts us m k n a as} (commas : List Token), I ts m k a → Q us k n as →
      Q (commas ++ ts ++ us) m n (a :: as)) (hc : c.Over P) :
    (commaList item).Goes P c fun ts as d => Q ts c.nextId d.nextId as := by
  refine (hitem 0 c hc).bind fun ts a d hd ha => ?_
  have hothers : Goes P (fun c => commaItemsWithin item c.upcoming 1 c) d
      fun us as e => Q us d.nextId e.nextId as :=
    commaItemsWithin_goes hitem none some d.upcoming 1 (hd.over hc)
  refine hothers.bind fun us as e _ has => goes_pure ?_
  simpa using some [] ha has

end Parser

/-- What the parsers of a level give is derivable. -/
structure Levels.Goes (P : Word → Prop) (inner : Levels) : Prop where
  operand {c : Cursor} (floor : Nat) : c.Over P →
    (inner.operand floor).Goes P c fun ts e d => Operand ts c.nextId d.nextId e
  value {c : Cursor} : c.Over P →
    inner.value.Goes P c fun ts e d => Expression ts c.nextId d.nextId e
  statement {c : Cursor} : c.Over P →
    inner.statement.Goes P c fun ts s d => Statement ts c.nextId d.nextId s
  body {c : Cursor} : c.Over P → inner.body.Goes P c fun ts body d =>
    ∃ start us stop, ts = start :: us ++ [stop] ∧ Sequence us c.nextId d.nextId body

namespace Parser
variable {P : Word → Prop} {inner : Levels} {c : Cursor}

theorem expression_goes (hi : inner.Goes P) (hc : c.Over P) :
    (expression inner).Goes P c fun ts e d => Expression ts c.nextId d.nextId e := by
  refine (hi.operand 0 hc).bind fun ts target d hd htarget => goes_peek_bind ?_
  have hdc := hd.over hc
  split
  · rename_i hk
    have hequals := Cursor.passes_advance hdc (by simp [hk])
    refine goes_take_bind hdc (by simp [hk]) ?_
    refine (hi.value (hequals.over hdc)).bind fun us value e he hvalue => ?_
    rw [Cursor.nextId_advance] at hvalue
    dsimp only
    split
    · refine goes_nodeAt_bind (goes_pure ?_)
      simpa [Expr.span, Expr.node] using Expression.assign htarget hvalue
    · refine goes_nodeAt_bind (goes_pure ?_)
      simpa [Expr.span, Expr.node] using Expression.setProperty htarget hvalue
    · refine goes_note_bind hdc.current (goes_pure ?_)
      simpa [Cursor.note] using Expression.rejected htarget hvalue
  · exact goes_pure (by simpa using Expression.operand htarget)

theorem literal_goes (hc : c.Over P) (hk : c.current.kind ≠ .endOfFile) (value : Literal) :
    (literal c.current.span.start value).Goes P c
      fun ts e d => Operand ts c.nextId d.nextId e := by
  have hd := Cursor.passes_advance hc hk
  refine goes_take_bind hc hk (goes_closeNode_bind (goes_pure ?_))
  rw [hd.previous, Cursor.nextId_advance]
  exact .literal value

theorem group_goes (hi : inner.Goes P) (hc : c.Over P) (hk : c.current.kind ≠ .endOfFile) :
    (group inner c.current.span.start).Goes P c
      fun ts e d => Operand ts c.nextId d.nextId e := by
  have hopening := Cursor.passes_advance hc hk
  refine goes_take_bind hc hk ?_
  refine (expression_goes hi (hopening.over hc)).bind fun ts e d hd he => ?_
  refine goes_expect_bind (hd.over (hopening.over hc)) fun closing hclosing => ?_
  refine goes_closeNode_bind (goes_pure ?_)
  rw [Cursor.nextId_advance] at he ⊢
  rw [hclosing.previous]
  simpa using Operand.group he

theorem unary_goes (hi : inner.Goes P) (hc : c.Over P) (hk : c.current.kind ≠ .endOfFile)
    (op : UnaryOp) :
    (unary inner c.current.span.start op).Goes P c
      fun ts e d => Operand ts c.nextId d.nextId e := by
  have hsign := Cursor.passes_advance hc hk
  refine goes_take_bind hc hk ?_
  refine (hi.operand _ (hsign.over hc)).bind fun ts operand d hd hoperand => ?_
  refine goes_closeNode_bind (goes_pure ?_)
  rw [Cursor.nextId_advance] at hoperand
  rw [hd.previous, hsign.previous]
  simpa [through] using Operand.unary op hoperand

theorem primary_goes (hi : inner.Goes P) (hc : c.Over P) :
    (primary inner).Goes P c fun ts e d => Operand ts c.nextId d.nextId e := by
  refine goes_peek_bind ?_
  dsimp only
  split
  · rename_i hk
    exact literal_goes hc (by simp [hk]) _
  · rename_i hk
    exact literal_goes hc (by simp [hk]) _
  · rename_i hk
    exact literal_goes hc (by simp [hk]) _
  · rename_i hk
    exact literal_goes hc (by simp [hk]) _
  · rename_i hk
    exact literal_goes hc (by simp [hk]) _
  · rename_i hk
    have hname := Cursor.passes_advance hc (by simp [hk])
    refine goes_take_bind hc (by simp [hk]) (goes_closeNode_bind (goes_pure ?_))
    rw [hname.previous, Cursor.nextId_advance]
    exact .name
  · rename_i hk
    exact group_goes hi hc (by simp [hk])
  · rename_i hk
    exact unary_goes hi hc (by simp [hk]) _
  · rename_i hk
    exact unary_goes hi hc (by simp [hk]) _
  · exact goes_fail (SyntaxFault.of_shownBy _ hc.current)

theorem argument_goes (hi : inner.Goes P) (i : Nat) (hc : c.Over P) :
    (argument inner i).Goes P c fun ts e d => Expression ts c.nextId d.nextId e := by
  unfold argument
  dsimp only
  split
  · have hnote := Cursor.passes_note (c := c) (SyntaxFault.of_shownBy .tooManyArguments hc.current)
    exact goes_peek_bind (goes_note_bind hc.current (expression_goes hi (hnote.over hc)))
  · exact expression_goes hi hc

theorem arguments_goes (hi : inner.Goes P) (hc : c.Over P) :
    (arguments inner).Goes P c fun ts args d => Arguments ts c.nextId d.nextId args := by
  by_cases hs : c.isAt .rightParen
  · have hr : arguments inner c = .ok [] c := by simp [arguments, hs]
    unfold Goes
    rw [hr]
    exact ⟨[], .refl c, .none⟩
  · have hr : arguments inner c = commaList (argument inner) c := by simp [arguments, hs]
    unfold Goes
    rw [hr]
    exact commaList_goes (fun i c hc => argument_goes hi i hc) (fun _ => .none)
      (fun commas hfirst hothers => .some commas hfirst hothers) hc

/-- Going on from an expression that was read before. -/
theorem continuation?_goes (hi : inner.Goes P) (hc : c.Over P) {floor m : Nat} {ts : List Token}
    {left : Expr} {more : Parser Expr} (hleft : Operand ts m c.nextId left)
    (h : continuation? inner floor left c.current.kind = some more) :
    more.Goes P c fun us e d => Operand (ts ++ us) m d.nextId e := by
  unfold continuation? at h
  split at h
  · rename_i hk
    cases h
    have hopening := Cursor.passes_advance hc (by simp [hk])
    refine goes_take_bind hc (by simp [hk]) ?_
    refine (arguments_goes hi (hopening.over hc)).bind fun us args d hd hargs => ?_
    refine goes_expect_bind (hd.over (hopening.over hc)) fun closing hclosing => ?_
    refine goes_closeNode_bind (goes_pure ?_)
    rw [Cursor.nextId_advance] at hargs ⊢
    rw [hclosing.previous]
    simpa using Operand.call hleft hargs
  · rename_i hk
    cases h
    have hdot := Cursor.passes_advance hc (by simp [hk])
    refine goes_take_bind hc (by simp [hk]) ?_
    refine goes_expectName_bind (hdot.over hc) fun name hname => goes_closeNode_bind (goes_pure ?_)
    rw [hname.previous, Cursor.nextId_advance, Cursor.nextId_advance]
    simpa using Operand.property hleft
  · split at h
    · rename_i o ho
      split at h <;> cases h
      have hk : c.current.kind ≠ .endOfFile := by
        intro hk
        simp [hk, Operator.ofKind?] at ho
      have hsign := Cursor.passes_advance hc hk
      refine goes_take_bind hc hk ?_
      refine (hi.operand _ (hsign.over hc)).bind fun us right d hd hright => ?_
      refine goes_nodeAt_bind (goes_pure ?_)
      rw [Cursor.nextId_advance] at hright
      simpa using Operand.operation o hleft hright
    · cases h

theorem continuedWithin_goes (hi : inner.Goes P) (floor : Nat) (bound : List Token) {m : Nat}
    {ts : List Token} {left : Expr} (hc : c.Over P) (hleft : Operand ts m c.nextId left) :
    (continuedWithin inner floor bound left).Goes P c
      fun us e d => Operand (ts ++ us) m d.nextId e := by
  induction bound generalizing c ts left with
  | nil =>
      rw [continuedWithin_nil]
      exact goes_pure (by simpa using hleft)
  | cons _ bound ih =>
      rw [continuedWithin_cons]
      refine goes_peek_bind ?_
      split
      · exact goes_pure (by simpa using hleft)
      · rename_i more h
        refine (continuation?_goes hi hc hleft h).bind fun us e d hd he => ?_
        exact (ih (hd.over hc) he).imp fun vs e' d' _ he' => by simpa using he'

theorem operand_goes (hi : inner.Goes P) (floor : Nat) (hc : c.Over P) :
    (operand inner floor).Goes P c fun ts e d => Operand ts c.nextId d.nextId e :=
  (primary_goes hi hc).bind fun _ _ d hd hfirst =>
    continuedWithin_goes hi floor d.upcoming (hd.over hc) hfirst

theorem optional_goes (hi : inner.Goes P) (hc : c.Over P) :
    (some <$> expression inner).Goes P c fun ts clause d => Clause ts c.nextId d.nextId clause :=
  (expression_goes hi hc).map fun _ _ _ _ he => .some he

end Parser

end LamScope

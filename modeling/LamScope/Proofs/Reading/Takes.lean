import LamScope.Proofs.Reading.Depth

/-!
# Faultless steps of a parser

`p.Takes c ts a d` says that the parser `p` takes the tokens `ts` from the cursor `c`, gives `a`
and stops at `d` without a fault. A sequence of parsers does so if its parts do, and, as parsers
only move forward, only then.
-/
namespace LamScope

/-- What stands after the last token is an end of file. -/
def Cursor.Closed (c : Cursor) : Prop := c.finish.kind = .endOfFile

theorem Cursor.Closed.of_finish_eq {c d : Cursor} (hc : c.Closed) (h : d.finish = c.finish) :
    d.Closed := by
  unfold Cursor.Closed
  rw [h]
  exact hc

theorem Cursor.Leads.closed {c d : Cursor} (h : c.Leads d) (hc : c.Closed) : d.Closed :=
  hc.of_finish_eq h.finish

structure Parser.Takes {α : Type} (p : Parser α) (c : Cursor) (ts : List Token) (a : α)
    (d : Cursor) : Prop where
  closed : c.Closed
  reply : p c = .ok a d
  upcoming : c.upcoming = ts ++ d.upcoming
  finish : d.finish = c.finish
  faults : d.faults = c.faults

namespace Cursor

theorem closed_ofTokens (tokens : List Token) : (ofTokens tokens).Closed := by
  unfold Closed ofTokens
  dsimp only
  split
  · rename_i h
    simpa using List.find?_some h
  · rfl
  · rfl

theorem ofTokens_concat {ts : List Token} {t : Token} (hts : ∀ u ∈ ts, u.kind ≠ .endOfFile)
    (ht : t.kind = .endOfFile) :
    ofTokens (ts ++ [t]) = ⟨(ts ++ [t]).head?.getD t, ts, t, [], 0, 0⟩ := by
  have hfind : (ts ++ [t]).find? (fun u => u.kind == .endOfFile) = some t := by
    rw [List.find?_append, List.find?_eq_none.mpr fun u hu => by simpa using hts u hu]
    simp [ht]
  have hbefore : (ts ++ [t]).takeWhile (fun u => !(u.kind == .endOfFile)) = ts := by
    rw [List.takeWhile_append_of_pos fun u hu => by simpa using hts u hu]
    simp [ht]
  unfold ofTokens
  simp only [hfind, hbefore]

theorem upcoming_eq_cons {c : Cursor} (hc : c.Closed) (h : c.current.kind ≠ .endOfFile) :
    c.upcoming = c.current :: c.advance.upcoming := by
  cases hu : c.upcoming with
  | nil =>
      have he : c.current.kind = .endOfFile := by simpa [current, hu, Closed] using hc
      exact (h he).elim
  | cons t ts => simp [current, advance, hu]

theorem current_eq {c : Cursor} {t : Token} {ts : List Token} (h : c.upcoming = t :: ts) :
    c.current = t := by simp [current, h]

theorem upcoming_advance {c : Cursor} {t : Token} {ts : List Token} (h : c.upcoming = t :: ts) :
    c.advance.upcoming = ts := by simp [advance, h]

@[simp] theorem finish_advance (c : Cursor) : c.advance.finish = c.finish := c.leads_advance.finish

@[simp] theorem faults_advance (c : Cursor) : c.advance.faults = c.faults := by
  unfold advance
  split <;> rfl

theorem kind_of_isAt {c : Cursor} {s : Symbol} (h : c.isAt s = true) :
    c.current.kind = .symbol s := by simpa [isAt] using h

/-- The tokens taken on the way to a later cursor. -/
def taken (c d : Cursor) : List Token :=
  c.upcoming.take (c.upcoming.length - d.upcoming.length)

theorem taken_eq {c d : Cursor} {ts : List Token} (h : c.upcoming = ts ++ d.upcoming) :
    c.taken d = ts := by
  have hlength : c.upcoming.length - d.upcoming.length = ts.length := by
    rw [h, List.length_append]
    omega
  rw [taken, hlength, h, List.take_left]

theorem taken_append {c d : Cursor} (h : d.upcoming <:+ c.upcoming) :
    c.taken d ++ d.upcoming = c.upcoming := by
  obtain ⟨ts, hts⟩ := h
  rw [taken_eq hts.symm, hts]

end Cursor

namespace Parser
variable {α β : Type} {c d e : Cursor} {ts us : List Token} {a : α} {b : β}

theorem Takes.closed_next {p : Parser α} (h : p.Takes c ts a d) : d.Closed :=
  h.closed.of_finish_eq h.finish

/-- A step that takes a token leaves fewer to come. -/
theorem Takes.length_upcoming_le {p : Parser α} {t : Token} {bound : List Token}
    (h : p.Takes c ts a d) (hne : ts ≠ []) (hb : c.upcoming.length ≤ (t :: bound).length) :
    d.upcoming.length ≤ bound.length := by
  have hu := congrArg List.length h.upcoming
  have hts := List.length_pos_iff.mpr hne
  rw [List.length_append] at hu
  rw [List.length_cons] at hb
  omega

theorem takes_of_ok {p : Parser α} [Advances p] (hc : c.Closed) (h : p c = .ok a d)
    (hf : d.faults = c.faults) : ∃ ts, p.Takes c ts a d := by
  have hl := Advances.ok h
  obtain ⟨ts, hts⟩ := hl.upcoming
  exact ⟨ts, hc, h, hts.symm, hl.finish, hf⟩

theorem Takes.bind {p : Parser α} {f : α → Parser β} (h : p.Takes c ts a d)
    (h' : (f a).Takes d us b e) : (p >>= f).Takes c (ts ++ us) b e where
  closed := h.closed
  reply := by rw [bind_apply, h.reply, ← h'.reply]
  upcoming := by rw [h.upcoming, h'.upcoming, List.append_assoc]
  finish := h'.finish.trans h.finish
  faults := h'.faults.trans h.faults

theorem exists_of_takes_bind {p : Parser α} {f : α → Parser β} [Advances p]
    [∀ a, Advances (f a)] (h : (p >>= f).Takes c ts b e) :
    ∃ us vs a d, ts = us ++ vs ∧ p.Takes c us a d ∧ (f a).Takes d vs b e := by
  have hr := h.reply
  rw [bind_apply] at hr
  cases hp : p c with
  | failed fault d => simp [hp] at hr
  | ok a d =>
      rw [hp] at hr
      have hd := Advances.ok hp
      have he := Advances.ok hr
      have hf : d.faults = c.faults := by
        refine (hd.faults.eq_of_length_le ?_).symm
        rw [← h.faults]
        exact he.faults.length_le
      obtain ⟨us, hus⟩ := takes_of_ok h.closed hp hf
      obtain ⟨vs, hvs⟩ := takes_of_ok hus.closed_next hr (h.faults.trans hf.symm)
      refine ⟨us, vs, a, d, ?_, hus, hvs⟩
      have hu := h.upcoming
      rw [hus.upcoming, hvs.upcoming, ← List.append_assoc] at hu
      exact (List.append_cancel_right hu).symm

theorem takes_pure_iff {a' : α} : (pure a : Parser α).Takes c ts a' d ↔
    c.Closed ∧ ts = [] ∧ a' = a ∧ d = c := by
  constructor
  · intro h
    have hr := h.reply
    rw [pure_apply] at hr
    cases hr
    exact ⟨h.closed, by simpa using h.upcoming, rfl, rfl⟩
  · rintro ⟨hc, rfl, rfl, rfl⟩
    exact ⟨hc, rfl, rfl, rfl, rfl⟩

/-- What a step does not change may be changed before it. -/
theorem takes_congr {p q : Parser α} {c' : Cursor} (hr : p c = q c')
    (hu : c'.upcoming = c.upcoming) (hn : c'.finish = c.finish) (hf : c'.faults = c.faults) :
    p.Takes c ts a d ↔ q.Takes c' ts a d := by
  constructor
  · intro h
    exact ⟨by rw [Cursor.Closed, hn]; exact h.closed, hr ▸ h.reply, hu ▸ h.upcoming,
      hn ▸ h.finish, hf ▸ h.faults⟩
  · intro h
    exact ⟨by rw [Cursor.Closed, ← hn]; exact h.closed, hr ▸ h.reply, hu ▸ h.upcoming,
      hn ▸ h.finish, hf ▸ h.faults⟩

theorem Takes.congr {p q : Parser α} (h : p.Takes c ts a d) (hr : p c = q c) :
    q.Takes c ts a d := (takes_congr hr rfl rfl rfl).mp h

theorem takes_peek_bind {f : Token → Parser β} :
    (peek >>= f).Takes c ts b e ↔ (f c.current).Takes c ts b e :=
  takes_congr rfl rfl rfl rfl

theorem takes_closeNode_bind {f : Node → Parser β} {start : Nat} :
    (closeNode start >>= f).Takes c ts b e ↔
      (f ⟨c.nextId, ⟨start, c.previous.span.stop⟩⟩).Takes { c with nextId := c.nextId + 1 }
        ts b e :=
  takes_congr rfl rfl rfl rfl

theorem takes_nodeAt_bind {f : Node → Parser β} {span : Span} :
    (nodeAt span >>= f).Takes c ts b e ↔
      (f ⟨c.nextId, span⟩).Takes { c with nextId := c.nextId + 1 } ts b e :=
  takes_congr rfl rfl rfl rfl

/-- Looking at the cursor is no step. -/
theorem takes_look_bind {g : Cursor → α} {f : α → Parser β} :
    ((fun c => .ok (g c) c : Parser α) >>= f).Takes c ts b e ↔ (f (g c)).Takes c ts b e :=
  takes_congr rfl rfl rfl rfl

theorem not_takes_fail {f : SyntaxFault} : ¬ (fail f : Parser α).Takes c ts a d := by
  intro h
  cases h.reply

theorem not_takes_note_bind {f : SyntaxFault} {p : Unit → Parser β} [∀ u, Advances (p u)] :
    ¬ (note f >>= p).Takes c ts b e := by
  intro h
  obtain ⟨_, _, _, d, -, hd, -⟩ := exists_of_takes_bind h
  have hr := hd.reply
  cases hr
  have hf := congrArg List.length hd.faults
  simp [Cursor.note] at hf

theorem Takes.unique {p : Parser α} {a' : α} {d' : Cursor} (h : p.Takes c ts a d)
    (h' : p.Takes c us a' d') : ts = us ∧ a = a' ∧ d = d' := by
  have hr := h.reply.symm.trans h'.reply
  cases hr
  exact ⟨List.append_cancel_right (h.upcoming.symm.trans h'.upcoming), rfl, rfl⟩

/-- A sequence whose first step is known goes on with the second. -/
theorem Takes.of_bind {p : Parser α} {f : α → Parser β} [Advances p] [∀ a, Advances (f a)]
    (h : p.Takes c us a d) (h' : (p >>= f).Takes c ts b e) :
    ∃ vs, ts = us ++ vs ∧ (f a).Takes d vs b e := by
  obtain ⟨us', vs, a', d', rfl, hp, hf⟩ := exists_of_takes_bind h'
  obtain ⟨rfl, rfl, rfl⟩ := h.unique hp
  exact ⟨vs, rfl, hf⟩

theorem takes_advance {p : Parser α} (hc : c.Closed) (hk : c.current.kind ≠ .endOfFile)
    (hp : p c = .ok a c.advance) : p.Takes c [c.current] a c.advance :=
  ⟨hc, hp, c.upcoming_eq_cons hc hk, c.finish_advance, c.faults_advance⟩

theorem exists_of_takes_map {p : Parser α} {f : α → β} [Advances p]
    (h : (f <$> p).Takes c ts b d) : ∃ a, p.Takes c ts a d ∧ b = f a := by
  obtain ⟨us, vs, a, c₁, rfl, h₁, h₂⟩ :=
    exists_of_takes_bind (p := p) (f := fun a => pure (f a)) h
  obtain ⟨-, rfl, rfl, rfl⟩ := takes_pure_iff.mp h₂
  exact ⟨a, by simpa using h₁, rfl⟩

theorem exists_of_takes_take_bind {f : Unit → Parser β} [∀ u, Advances (f u)]
    (h : (take >>= f).Takes c ts b e) (hk : c.current.kind ≠ .endOfFile) :
    ∃ us, ts = c.current :: us ∧ (f ()).Takes c.advance us b e :=
  (takes_advance (p := take) h.closed hk rfl).of_bind h

theorem exists_of_takes_expect_bind {s : Symbol} {f : Unit → Parser β} [∀ u, Advances (f u)]
    (h : (expect s >>= f).Takes c ts b e) :
    ∃ t us, t.kind = .symbol s ∧ ts = t :: us ∧ (f ()).Takes c.advance us b e := by
  by_cases hs : c.isAt s
  · have hk := c.kind_of_isAt hs
    have hp : (expect s).Takes c [c.current] () c.advance :=
      takes_advance h.closed (by simp [hk]) (by simp [expect, hs])
    obtain ⟨us, hus, hf⟩ := hp.of_bind h
    exact ⟨_, us, hk, hus, hf⟩
  · have hr := h.reply
    simp [bind_apply, expect, hs] at hr

theorem exists_of_takes_expectName {w : Word} (h : expectName.Takes c ts w d) :
    ∃ t : Token, t.kind = .name ∧ w = t.toWord ∧ ts = [t] ∧ d = c.advance := by
  by_cases hk : c.current.kind = .name
  · have hp : expectName.Takes c [c.current] c.current.toWord c.advance :=
      takes_advance h.closed (by simp [hk]) (by simp [expectName, hk])
    obtain ⟨rfl, rfl, rfl⟩ := h.unique hp
    exact ⟨_, hk, rfl, rfl, rfl⟩
  · have hr := h.reply
    simp [expectName, hk] at hr

theorem exists_of_takes_expectName_bind {f : Word → Parser β} [∀ w, Advances (f w)]
    (h : (expectName >>= f).Takes c ts b e) :
    ∃ t us, t.kind = .name ∧ ts = t :: us ∧ (f t.toWord).Takes c.advance us b e := by
  obtain ⟨us, vs, w, d, rfl, h₁, h₂⟩ := exists_of_takes_bind h
  obtain ⟨t, hk, rfl, rfl, rfl⟩ := exists_of_takes_expectName h₁
  exact ⟨t, vs, hk, rfl, h₂⟩

theorem exists_of_takes_accept_bind {s : Symbol} {f : Bool → Parser β} [∀ u, Advances (f u)]
    (h : (accept s >>= f).Takes c ts b e) :
    (∃ t us, t.kind = .symbol s ∧ ts = t :: us ∧ (f true).Takes c.advance us b e) ∨
      (f false).Takes c ts b e := by
  by_cases hs : c.isAt s
  · have hk := c.kind_of_isAt hs
    have hp : (accept s).Takes c [c.current] true c.advance :=
      takes_advance h.closed (by simp [hk]) (by simp [accept, hs])
    obtain ⟨us, hus, hf⟩ := hp.of_bind h
    exact .inl ⟨_, us, hk, hus, hf⟩
  · have hp : (accept s).Takes c [] false c := ⟨h.closed, by simp [accept, hs], rfl, rfl, rfl⟩
    obtain ⟨us, rfl, hf⟩ := hp.of_bind h
    exact .inr hf

/-- What holds of no items, and of a comma and an item before others, holds of all items with
commas. -/
theorem commaItemsWithin_induction {item : Nat → Parser α} [∀ i, Advances (item i)]
    {motive : Nat → List Token → List α → Prop} (none : ∀ i, motive i [] [])
    (some : ∀ {i c ts us d t a as}, t.kind = .symbol .comma → (item i).Takes c ts a d →
      motive (i + 1) us as → motive i (t :: ts ++ us) (a :: as))
    {bound : List Token} {i : Nat} {as : List α}
    (h : (commaItemsWithin item bound i).Takes c ts as d) : motive i ts as := by
  induction bound generalizing i c d ts as with
  | nil =>
      rw [commaItemsWithin_nil] at h
      obtain ⟨-, rfl, rfl, -⟩ := takes_pure_iff.mp h
      exact none i
  | cons t bound ih =>
      rw [commaItemsWithin_cons] at h
      rcases exists_of_takes_accept_bind h with ⟨t, us, ht, rfl, h₁⟩ | h₁
      · obtain ⟨us, vs, a, c₁, rfl, h₂, h₃⟩ := exists_of_takes_bind h₁
        obtain ⟨vs, ws, as, c₂, rfl, h₄, h₅⟩ := exists_of_takes_bind h₃
        obtain ⟨-, rfl, rfl, -⟩ := takes_pure_iff.mp h₅
        simpa using some ht h₂ (ih h₄)
      · obtain ⟨-, rfl, rfl, -⟩ := takes_pure_iff.mp h₁
        exact none i

theorem exists_of_takes_commaList {item : Nat → Parser α} [∀ i, Advances (item i)] {as : List α}
    (h : (commaList item).Takes c ts as d) :
    ∃ us vs first others c₁, ts = us ++ vs ∧ as = first :: others ∧
      (item 0).Takes c us first c₁ ∧
      (commaItemsWithin item c₁.upcoming 1).Takes c₁ vs others d := by
  have hm : Advances fun c => commaItemsWithin item c.upcoming 1 c :=
    ⟨fun c => Advances.leads (p := commaItemsWithin item c.upcoming 1) c⟩
  unfold commaList at h
  obtain ⟨us, vs, first, c₁, rfl, h₁, h₂⟩ := @exists_of_takes_bind _ _ _ _ _ _ _ _ _
    (fun first => @advances_bind _ _ _ _ hm _) h
  obtain ⟨vs, ws, others, c₂, rfl, h₃, h₄⟩ := @exists_of_takes_bind _ _ _ _ _ _ _ _ hm _ h₂
  obtain ⟨-, rfl, rfl, rfl⟩ := takes_pure_iff.mp h₄
  exact ⟨us, vs, first, others, c₁, by simp, rfl, h₁, h₃.congr rfl⟩

/-- Items in parentheses, or none. -/
theorem exists_of_takes_listed {p : Parser (List α)} {item : Nat → Parser α}
    [∀ i, Advances (item i)] {as : List α}
    (hp : ∀ c, p c = if c.isAt .rightParen then .ok [] c else commaList item c)
    (h : p.Takes c ts as d) :
    (ts = [] ∧ as = []) ∨ ∃ us vs first others c₁, ts = us ++ vs ∧ as = first :: others ∧
      (item 0).Takes c us first c₁ ∧
      (commaItemsWithin item c₁.upcoming 1).Takes c₁ vs others d := by
  by_cases hs : c.isAt .rightParen
  · have hr : p c = (pure [] : Parser (List α)) c := by simp [hp, hs, pure_apply]
    obtain ⟨-, hts, has, -⟩ := takes_pure_iff.mp (h.congr hr)
    exact .inl ⟨hts, has⟩
  · have hr : p c = commaList item c := by simp [hp, hs]
    exact .inr (exists_of_takes_commaList (h.congr hr))

end Parser

end LamScope

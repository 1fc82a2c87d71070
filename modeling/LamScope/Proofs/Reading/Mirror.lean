import LamScope.Proofs.Reading.Shift
import LamScope.Proofs.Reading.Takes

/-!
# Parsers among shifted tokens

A parser that runs among the shifted tokens of another run, with any other tokens behind them, does
what the other run does, shifted, as long as it does not see what stands behind. It sees that if it
looks for a token where the first run has none left. `p.Mirrors q c d` says that the parser `q` from
`d` does what `p` does from `c`; a sequence of parsers does so if its parts do.
-/
namespace LamScope

/-- The second cursor stands before the shifted tokens of the first one and then those of `tail`, if
something stands behind; else it ends as the first one does. Where the two have taken tokens, the
last of them agree; `near` says that they have. -/
structure Cursor.Mirrors (g : Shift) (tail : Option (List Token)) (near : Prop)
    (c d : Cursor) : Prop where
  closed : c.Closed
  closed_copy : d.Closed
  upcoming : d.upcoming = c.upcoming.map g.token ++ tail.getD []
  finish : tail = none → d.finish = g.token c.finish
  faults : d.faults = c.faults.map g.fault
  nextId : d.nextId = c.nextId + g.id
  previous : near → d.previous = g.token c.previous

/-- The bounds of a loop in the two runs suffice for the tokens to come. -/
structure Cursor.Room (tail : Option (List Token)) (bound bound' : List Token)
    (c : Cursor) : Prop where
  first : c.upcoming.length ≤ bound.length
  second : c.upcoming.length + (tail.getD []).length ≤ bound'.length

/-- What stands behind is not seen from here. -/
def Cursor.Live (tail : Option (List Token)) (c : Cursor) : Prop := tail = none ∨ c.upcoming ≠ []

namespace Cursor
variable {g : Shift} {tail : Option (List Token)} {near near' : Prop} {c d e : Cursor}

theorem Mirrors.weaken (h : c.Mirrors g tail near d) (hn : near' → near) :
    c.Mirrors g tail near' d :=
  { h with previous := fun h' => h.previous (hn h') }

theorem Mirrors.current (h : c.Mirrors g tail near d) (hl : c.Live tail) :
    d.current = g.token c.current := by
  unfold Cursor.current
  rw [h.upcoming]
  cases hu : c.upcoming with
  | nil =>
      have htail : tail = none := hl.resolve_right (fun hne => hne hu)
      simpa [htail] using h.finish htail
  | cons t ts => rfl

theorem Mirrors.isAt (h : c.Mirrors g tail near d) (hl : c.Live tail) (s : Symbol) :
    d.isAt s = c.isAt s := by
  unfold Cursor.isAt
  rw [h.current hl, Shift.kind_token]

theorem Mirrors.atEnd (h : c.Mirrors g tail near d) (hl : c.Live tail) : d.atEnd = c.atEnd := by
  unfold Cursor.atEnd
  rw [h.upcoming]
  cases hu : c.upcoming with
  | nil =>
      have htail : tail = none := hl.resolve_right (fun hne => hne hu)
      simp [htail]
  | cons t ts => rfl

/-- Where the first run has no token left, and sees all there is, neither has the second. -/
theorem Mirrors.upcoming_eq_nil (h : c.Mirrors g tail near d) (hl : c.Live tail)
    (hu : c.upcoming = []) : d.upcoming = [] := by
  have htail : tail = none := hl.resolve_right fun hne => hne hu
  rw [h.upcoming, hu, htail]
  rfl

theorem Mirrors.length_upcoming (h : c.Mirrors g tail near d) :
    d.upcoming.length = c.upcoming.length + (tail.getD []).length := by
  rw [h.upcoming, List.length_append, List.length_map]

theorem Mirrors.room (h : c.Mirrors g tail near d) : c.Room tail c.upcoming d.upcoming :=
  ⟨Nat.le_refl _, Nat.le_of_eq h.length_upcoming.symm⟩

theorem Room.rest {t t' : Token} {bound bound' : List Token}
    (h : c.Room tail (t :: bound) (t' :: bound'))
    (hfewer : e.upcoming.length < c.upcoming.length) : e.Room tail bound bound' := by
  have hfirst := h.first
  have hsecond := h.second
  rw [List.length_cons] at hfirst hsecond
  exact ⟨by omega, by omega⟩

theorem Room.tail_le {bound bound' : List Token} (h : c.Room tail bound bound') :
    (tail.getD []).length ≤ bound'.length :=
  Nat.le_trans (Nat.le_add_left _ _) h.second

/-- Where one of the bounds is used up, no token is left in either run. -/
theorem Mirrors.exhausted {bound bound' : List Token} (h : c.Mirrors g tail near d)
    (hl : c.Live tail) (hroom : c.Room tail bound bound') (hused : bound = [] ∨ bound' = []) :
    c.upcoming = [] ∧ d.upcoming = [] := by
  have hu : c.upcoming = [] := by
    have hfirst := hroom.first
    have hsecond := hroom.second
    rw [← List.length_eq_zero_iff]
    rcases hused with rfl | rfl <;> simp only [List.length_nil] at hfirst hsecond <;> omega
  exact ⟨hu, h.upcoming_eq_nil hl hu⟩

theorem kind_current_of_upcoming_eq_nil (c : Cursor) (hc : c.Closed) (hu : c.upcoming = []) :
    c.current.kind = .endOfFile := by
  have hcurrent : c.current = c.finish := by simp [Cursor.current, hu]
  rw [hcurrent]
  exact hc

theorem length_upcoming_advance (c : Cursor) (hc : c.Closed) (hk : c.current.kind ≠ .endOfFile) :
    c.upcoming.length = c.advance.upcoming.length + 1 :=
  congrArg List.length (c.upcoming_eq_cons hc hk)

theorem Mirrors.advance (h : c.Mirrors g tail near d) (hu : c.upcoming ≠ []) :
    c.advance.Mirrors g tail True d.advance := by
  cases hc : c.upcoming with
  | nil => exact (hu hc).elim
  | cons t ts =>
      have hd : d.upcoming = g.token t :: (ts.map g.token ++ tail.getD []) := by
        rw [h.upcoming, hc]
        rfl
      refine ⟨?_, ?_, ?_, fun htail => ?_, ?_, ?_, fun _ => ?_⟩
      · simpa [Closed] using h.closed
      · simpa [Closed] using h.closed_copy
      · rw [upcoming_advance hd, upcoming_advance hc]
      · rw [finish_advance, finish_advance, h.finish htail]
      · rw [faults_advance, faults_advance, h.faults]
      · simpa [Cursor.advance, hc, hd] using h.nextId
      · simp [Cursor.advance, hc, hd]

theorem Mirrors.note (h : c.Mirrors g tail near d) (f : SyntaxFault) :
    (c.note f).Mirrors g tail near (d.note (g.fault f)) :=
  { h with
    faults := by
      rw [Cursor.note, Cursor.note, h.faults, List.map_append]
      rfl }

theorem Mirrors.draw (h : c.Mirrors g tail near d) :
    Mirrors g tail near { c with nextId := c.nextId + 1 } { d with nextId := d.nextId + 1 } :=
  { h with
    nextId := by
      show d.nextId + 1 = c.nextId + 1 + g.id
      rw [h.nextId, Nat.add_right_comm] }

theorem Live.of_leads (h : c.Leads d) (hl : d.Live tail) : c.Live tail := by
  refine hl.imp_right fun hd hc => hd ?_
  have hu := h.upcoming
  rw [hc] at hu
  exact List.suffix_nil.mp hu

end Cursor

/-- The second reply is the shifted first one. -/
inductive Reply.Mirrors (g : Shift) (tail : Option (List Token)) (near : Prop) {α β : Type}
    (φ : α → β) : Reply α → Reply β → Prop
  | ok {a : α} {c d : Cursor} :
      c.Mirrors g tail True d → Mirrors g tail near φ (.ok a c) (.ok (φ a) d)
  | failed {f : SyntaxFault} {c d : Cursor} :
      c.Mirrors g tail near d → Mirrors g tail near φ (.failed f c) (.failed (g.fault f) d)

/-- Nothing behind was seen: a token is left, or else the parser succeeded and `ends` allows that it
stops where no token is left. -/
def Reply.Settled (tail : Option (List Token)) (ends : Prop) {α : Type} (r : Reply α) : Prop :=
  r.next.Live tail ∨ ends ∧ ∃ a d, r = .ok a d

/-- Among shifted tokens the second parser does what the first one does, if it is settled. -/
def Parser.Mirrors (g : Shift) (tail : Option (List Token)) (ends near : Prop) {α β : Type}
    (φ : α → β) (p : Parser α) (q : Parser β) (c d : Cursor) : Prop :=
  (p c).Settled tail ends → (p c).Mirrors g tail near φ (q d)

/-- Whenever the parser succeeds, it has taken a token. -/
def Parser.Consumes {α : Type} (p : Parser α) : Prop :=
  ∀ ⦃c : Cursor⦄ ⦃a : α⦄ ⦃d : Cursor⦄, c.Closed → p c = .ok a d →
    d.upcoming.length < c.upcoming.length

section
variable {g : Shift} {tail : Option (List Token)} {ends near : Prop} {α β γ δ : Type} {c d : Cursor}

theorem Reply.Mirrors.exists_of_ok {φ : α → β} {a : α} {r : Reply β}
    (h : (Reply.ok a c).Mirrors g tail near φ r) :
    ∃ d, r = .ok (φ a) d ∧ c.Mirrors g tail True d := by
  cases h with
  | ok hd => exact ⟨_, rfl, hd⟩

theorem Reply.Mirrors.exists_of_failed {φ : α → β} {f : SyntaxFault} {r : Reply β}
    (h : (Reply.failed f c).Mirrors g tail near φ r) :
    ∃ d, r = .failed (g.fault f) d ∧ c.Mirrors g tail near d := by
  cases h with
  | failed hd => exact ⟨_, rfl, hd⟩

theorem Reply.Mirrors.weaken {φ : α → β} {r : Reply α} {r' : Reply β}
    (h : r.Mirrors g tail True φ r') : r.Mirrors g tail near φ r' := by
  cases h with
  | ok h => exact .ok h
  | failed h => exact .failed (h.weaken fun _ => trivial)

end

namespace Parser
variable {g : Shift} {tail : Option (List Token)} {ends near : Prop} {α β γ δ : Type} {c d : Cursor}

theorem Consumes.ne_nil {p : Parser α} (hp : p.Consumes) (hc : c.Closed) {a : α}
    (h : p c = .ok a d) : c.upcoming ≠ [] :=
  List.ne_nil_of_length_pos (Nat.zero_lt_of_lt (hp hc h))

theorem Consumes.bind {p : Parser α} {f : α → Parser β} (hp : p.Consumes)
    [∀ a, Advances (f a)] : (p >>= f).Consumes := by
  intro c b e hc h
  rw [bind_apply] at h
  cases hd : p c with
  | failed fault d => simp [hd] at h
  | ok a d =>
      rw [hd] at h
      exact Nat.lt_of_le_of_lt (Advances.ok h).upcoming.length_le (hp hc hd)

theorem Consumes.bind_right {p : Parser α} {f : α → Parser β} [Advances p]
    (hf : ∀ a, (f a).Consumes) : (p >>= f).Consumes := by
  intro c b e hc h
  rw [bind_apply] at h
  cases hd : p c with
  | failed fault d => simp [hd] at h
  | ok a d =>
      rw [hd] at h
      have hleads := Advances.ok hd
      have hdc : d.Closed := hleads.closed hc
      exact Nat.lt_of_lt_of_le (hf a hdc h) hleads.upcoming.length_le

theorem consumes_expect (s : Symbol) : (expect s).Consumes := by
  intro c a d hc h
  unfold expect at h
  split at h
  · rename_i hs
    cases h
    rw [c.length_upcoming_advance hc (by simp [c.kind_of_isAt hs])]
    exact Nat.lt_succ_self _
  · cases h

theorem consumes_expectName : expectName.Consumes := by
  intro c a d hc h
  unfold expectName at h
  split at h
  · rename_i hk
    cases h
    rw [c.length_upcoming_advance hc (by simp [hk])]
    exact Nat.lt_succ_self _
  · cases h

/-- What is settled at its end was not at the end before. -/
theorem live_of_settled {p : Parser α} [Advances p] (hs : (p c).Settled tail ends)
    (hc : ends → ∀ a e, p c = .ok a e → c.upcoming ≠ []) : c.Live tail := by
  rcases hs with hl | ⟨hends, a, e, he⟩
  · exact hl.of_leads (Advances.leads c)
  · exact .inr (hc hends a e he)

section
variable {p : Parser α} {q : Parser β} {f : α → Parser γ} {f' : β → Parser δ} {φ : α → β}
  {ψ : γ → δ}

/-- If the second part is settled, so is the first one, whatever that means for it. -/
theorem Mirrors.bind_of_settled {ends' : Prop} (hp : p.Mirrors g tail ends' near φ q c d)
    (hs : ∀ e fault, p c = .failed fault e → ((p >>= f) c).Settled tail ends →
      (p c).Settled tail ends')
    (hs' : ∀ e a, p c = .ok a e → (f a e).Settled tail ends → (p c).Settled tail ends')
    (hf : ∀ a c' d', p c = .ok a c' → c'.Mirrors g tail True d' →
      (f a).Mirrors g tail ends True ψ (f' (φ a)) c' d') :
    (p >>= f).Mirrors g tail ends near ψ (q >>= f') c d := by
  intro hsettled
  rw [bind_apply, bind_apply]
  cases h : p c with
  | failed fault c' =>
      have hd := hp (hs c' fault h hsettled)
      rw [h] at hd
      obtain ⟨d', hq, hd'⟩ := hd.exists_of_failed
      rw [hq]
      exact .failed hd'
  | ok a c' =>
      have hrest : (f a c').Settled tail ends := by
        rwa [bind_apply, h] at hsettled
      have hd := hp (hs' c' a h hrest)
      rw [h] at hd
      obtain ⟨d', hq, hd'⟩ := hd.exists_of_ok
      rw [hq]
      exact (hf a c' d' h hd' hrest).weaken

theorem settled_of_failed {ends' : Prop} {fault : SyntaxFault} {e : Cursor}
    (h : p c = .failed fault e) (hs : ((p >>= f) c).Settled tail ends) :
    (p c).Settled tail ends' := by
  rw [bind_apply, h] at hs
  rw [h]
  rcases hs with hl | ⟨-, a, d, hok⟩
  · exact .inl hl
  · cases hok

theorem Mirrors.bind [∀ a, Advances (f a)] (hp : p.Mirrors g tail ends near φ q c d)
    (hf : ∀ a c' d', p c = .ok a c' → c'.Mirrors g tail True d' →
      (f a).Mirrors g tail ends True ψ (f' (φ a)) c' d') :
    (p >>= f).Mirrors g tail ends near ψ (q >>= f') c d := by
  refine hp.bind_of_settled (fun e fault h hs => settled_of_failed h hs) (fun e a h hs => ?_) hf
  rw [h]
  rcases hs with hl | ⟨hends, -⟩
  · exact .inl (hl.of_leads (Advances.leads e))
  · exact .inr ⟨hends, a, e, rfl⟩

/-- The first part is never at the end if the second one takes a token. -/
theorem Mirrors.bind_consumes [Advances p] [∀ a, Advances (f a)] (hc : c.Closed)
    (hconsumes : ∀ a, (f a).Consumes) (hp : p.Mirrors g tail False near φ q c d)
    (hf : ∀ a c' d', p c = .ok a c' → c'.Mirrors g tail True d' →
      (f a).Mirrors g tail ends True ψ (f' (φ a)) c' d') :
    (p >>= f).Mirrors g tail ends near ψ (q >>= f') c d := by
  refine hp.bind_of_settled (fun e fault h hs => settled_of_failed h hs) (fun e a h hs => ?_) hf
  rw [h]
  have he : e.Closed := (Advances.ok h).closed hc
  exact .inl (live_of_settled hs fun _ _ _ hok => (hconsumes a).ne_nil he hok)

theorem Mirrors.map {χ : α → γ} {χ' : β → δ} (hp : p.Mirrors g tail ends near φ q c d)
    (h : ∀ a, χ' (φ a) = ψ (χ a)) :
    (χ <$> p).Mirrors g tail ends near ψ (χ' <$> q) c d := by
  show (p >>= fun a => pure (χ a)).Mirrors g tail ends near ψ (q >>= fun b => pure (χ' b)) c d
  refine hp.bind fun a c' d' _ hd _ => ?_
  rw [pure_apply, pure_apply, h]
  exact .ok hd

/-- Where no token is left, only what is behind may be seen. -/
theorem Mirrors.of_live [Advances p] (h : c.Live tail → p.Mirrors g tail False near φ q c d) :
    p.Mirrors g tail False near φ q c d :=
  fun hs => h (live_of_settled hs (nomatch ·)) hs

theorem Mirrors.of_live_of_consumes [Advances p] (hc : c.Closed) (hp : p.Consumes)
    (h : c.Live tail → p.Mirrors g tail ends near φ q c d) :
    p.Mirrors g tail ends near φ q c d :=
  fun hs => h (live_of_settled hs fun _ _ _ hok => hp.ne_nil hc hok) hs

theorem Mirrors.inner (h : p.Mirrors g tail ends near φ q c d) :
    p.Mirrors g tail False near φ q c d :=
  fun hs => h (hs.imp_right fun hfalse => hfalse.1.elim)

end

section
variable {φ : α → β} {f : Token → Parser α} {f' : Token → Parser β}

theorem mirrors_pure {a : α} {b : β} (h : c.Mirrors g tail True d) (hb : b = φ a) :
    (pure a : Parser α).Mirrors g tail ends near φ (pure b) c d :=
  fun _ => hb ▸ .ok h

theorem mirrors_fail {fault fault' : SyntaxFault} (h : c.Mirrors g tail near d)
    (hf : fault' = g.fault fault) :
    (fail fault : Parser α).Mirrors g tail ends near φ (fail fault') c d :=
  fun _ => hf ▸ .failed h

theorem mirrors_peek_bind (h : c.Mirrors g tail near d) (hl : c.Live tail)
    (hf : (f c.current).Mirrors g tail ends near φ (f' (g.token c.current)) c d) :
    (peek >>= f).Mirrors g tail ends near φ (peek >>= f') c d := by
  intro hs
  have hd := hf hs
  rw [← h.current hl] at hd
  exact hd

end

section
variable {φ : α → β} {f : Unit → Parser α} {f' : Unit → Parser β}

theorem mirrors_take_bind (h : c.Mirrors g tail near d) (hk : c.current.kind ≠ .endOfFile)
    (hf : c.advance.Mirrors g tail True d.advance →
      (f ()).Mirrors g tail ends True φ (f' ()) c.advance d.advance) :
    (take >>= f).Mirrors g tail ends near φ (take >>= f') c d := by
  have hu := c.upcoming_eq_cons h.closed hk
  exact fun hs => (hf (h.advance (by simp [hu])) hs).weaken

theorem mirrors_note_bind {cause : SyntaxFault.Cause} {w w' : Word}
    (h : c.Mirrors g tail near d) (hw : w' = g.word w)
    (hf : Cursor.Mirrors g tail near (c.note (.of cause w)) (d.note (.of cause w')) →
      (f ()).Mirrors g tail ends near φ (f' ()) (c.note (.of cause w)) (d.note (.of cause w'))) :
    (note (.of cause w) >>= f).Mirrors g tail ends near φ (note (.of cause w') >>= f') c d := by
  subst hw
  exact hf (h.note _)

theorem mirrors_expect_bind {s : Symbol} (h : c.Mirrors g tail near d)
    (hf : c.advance.Mirrors g tail True d.advance →
      (f ()).Mirrors g tail ends True φ (f' ()) c.advance d.advance) :
    (expect s >>= f).Mirrors g tail ends near φ (expect s >>= f') c d := by
  intro hs
  by_cases hc : c.isAt s
  · have hu := c.upcoming_eq_cons h.closed (by simp [c.kind_of_isAt hc])
    have hne : c.upcoming ≠ [] := by simp [hu]
    have hd : d.isAt s = true := by rwa [h.isAt (.inr hne)]
    have hok : (expect s >>= f) c = f () c.advance := by simp [bind_apply, expect, hc]
    have hok' : (expect s >>= f') d = f' () d.advance := by simp [bind_apply, expect, hd]
    rw [hok] at hs ⊢
    rw [hok']
    exact (hf (h.advance hne) hs).weaken
  · have hfails : (expect s >>= f) c = .failed (.expected (.symbol s) c.current) c := by
      simp [bind_apply, expect, hc]
    rw [hfails] at hs ⊢
    have hl : c.Live tail := by
      refine hs.resolve_right ?_
      rintro ⟨-, a, e, hok⟩
      cases hok
    have hd : ¬ d.isAt s = true := by rwa [h.isAt hl]
    have hfails' : (expect s >>= f') d = .failed (.expected (.symbol s) d.current) d := by
      simp [bind_apply, expect, hd]
    rw [hfails', h.current hl]
    exact .failed h

end

theorem mirrors_expectName (h : c.Mirrors g tail near d) :
    expectName.Mirrors g tail ends near g.word expectName c d := by
  intro hs
  unfold expectName at hs ⊢
  by_cases hk : c.current.kind = .name
  · have hu := c.upcoming_eq_cons h.closed (by simp [hk])
    have hne : c.upcoming ≠ [] := by simp [hu]
    rw [if_pos hk, h.current (.inr hne), Shift.kind_token, if_pos hk]
    exact .ok (h.advance hne)
  · rw [if_neg hk] at hs ⊢
    have hl : c.Live tail := hs.resolve_right fun ⟨_, _, _, hok⟩ => nomatch hok
    rw [h.current hl, Shift.kind_token, if_neg hk]
    exact .failed h

theorem mirrors_expectName_bind {φ : α → β} {f : Word → Parser α} {f' : Word → Parser β}
    [∀ w, Advances (f w)] (h : c.Mirrors g tail near d)
    (hf : ∀ w c' d', c'.Mirrors g tail True d' →
      (f w).Mirrors g tail ends True φ (f' (g.word w)) c' d') :
    (expectName >>= f).Mirrors g tail ends near φ (expectName >>= f') c d :=
  (mirrors_expectName h).bind fun w c' d' _ hd => hf w c' d' hd

theorem mirrors_accept_bind {s : Symbol} {φ : α → β} {f : Bool → Parser α} {f' : Bool → Parser β}
    (h : c.Mirrors g tail near d) (hl : c.Live tail)
    (htrue : c.isAt s → c.advance.Mirrors g tail True d.advance →
      (f true).Mirrors g tail ends True φ (f' true) c.advance d.advance)
    (hfalse : (f false).Mirrors g tail ends near φ (f' false) c d) :
    (accept s >>= f).Mirrors g tail ends near φ (accept s >>= f') c d := by
  intro hs
  by_cases hc : c.isAt s
  · have hu := c.upcoming_eq_cons h.closed (by simp [c.kind_of_isAt hc])
    have hd : d.isAt s = true := by rwa [h.isAt hl]
    have hok : (accept s >>= f) c = f true c.advance := by simp [bind_apply, accept, hc]
    have hok' : (accept s >>= f') d = f' true d.advance := by simp [bind_apply, accept, hd]
    rw [hok] at hs ⊢
    rw [hok']
    exact (htrue hc (h.advance (by simp [hu])) hs).weaken
  · have hd : ¬ d.isAt s = true := by rwa [h.isAt hl]
    have hok : (accept s >>= f) c = f false c := by simp [bind_apply, accept, hc]
    have hok' : (accept s >>= f') d = f' false d := by simp [bind_apply, accept, hd]
    rw [hok] at hs ⊢
    rw [hok']
    exact hfalse hs

section
variable {φ : α → β} {f : Node → Parser α} {f' : Node → Parser β}

theorem mirrors_nodeAt_bind {span span' : Span} (h : c.Mirrors g tail near d)
    (hspan : span' = g.span span)
    (hf : ∀ n c' d', c'.Mirrors g tail near d' →
      (f n).Mirrors g tail ends near φ (f' (g.node n)) c' d') :
    (nodeAt span >>= f).Mirrors g tail ends near φ (nodeAt span' >>= f') c d := by
  intro hs
  have hd := hf ⟨c.nextId, span⟩ _ _ h.draw hs
  have hnode : g.node ⟨c.nextId, span⟩ = ⟨d.nextId, span'⟩ := by rw [hspan, h.nextId]; rfl
  rw [hnode] at hd
  exact hd

theorem mirrors_closeNode_bind {start start' : Nat} (h : c.Mirrors g tail True d)
    (hstart : start' = start + g.offset)
    (hf : ∀ n c' d', c'.Mirrors g tail True d' →
      (f n).Mirrors g tail ends True φ (f' (g.node n)) c' d') :
    (closeNode start >>= f).Mirrors g tail ends True φ (closeNode start' >>= f') c d := by
  have hspan : Span.mk start' d.previous.span.stop =
      g.span ⟨start, c.previous.span.stop⟩ := by
    rw [h.previous trivial, hstart]
    rfl
  exact mirrors_nodeAt_bind h hspan hf

end

end Parser

end LamScope

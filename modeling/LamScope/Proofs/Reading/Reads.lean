import LamScope.Proofs.Reading.Spelling
import LamScope.Proofs.Reading.Takes

/-!
# Parsers that read what is written

`p.Reads ms after good` says that wherever tokens with the marks `ms` come next and a token that
`after` admits follows them, the parser `p` takes just those tokens without a fault and gives a
good value. A sequence of parsers reads the marks of its parts one after the other.
-/
namespace LamScope

namespace Token

@[simp] theorem kind_mark (t : Token) : t.mark.kind = t.kind := rfl

theorem kind_of_mark {t : Token} {m : TokenMark} (h : t.mark = m) : t.kind = m.kind :=
  congrArg TokenMark.kind h

theorem word_of_mark_name {t : Token} {w : Word} (h : t.mark = .name w) : t.toWord = w := by
  have hk : t.kind = .name := kind_of_mark h
  have hw := congrArg TokenMark.word h
  simpa [mark, hk, TokenMark.name] using hw

theorem word_of_mark_returning {t : Token} {w : Word} (h : t.mark = .returning w) :
    t.toWord = w := by
  have hk : t.kind = .keyword .return_ := kind_of_mark h
  have hw := congrArg TokenMark.word h
  simpa [mark, hk, TokenMark.returning] using hw

end Token

/-- The kind of the token that stands before `rest`, or of the end of the file. -/
def Cursor.kindAt (c : Cursor) (rest : List Token) : TokenKind := (rest.head?.getD c.finish).kind

theorem Cursor.kind_current (c : Cursor) : c.current.kind = c.kindAt c.upcoming := rfl

/-- What is admitted before the marks `ms` if `after` is admitted behind them. -/
def Ahead (mid : TokenKind → Prop) (ms : List TokenMark) (after : TokenKind → Prop) : Prop :=
  match ms with
  | [] => ∀ kind, after kind → mid kind
  | m :: _ => mid m.kind

theorem Ahead.current {mid after : TokenKind → Prop} {ms : List TokenMark} {c : Cursor}
    {ts rest : List Token} (ha : Ahead mid ms after) (hu : c.upcoming = ts ++ rest)
    (hts : ts.map Token.mark = ms) (hafter : after (c.kindAt rest)) : mid c.current.kind := by
  subst hts
  rw [Cursor.kind_current, hu]
  cases ts with
  | nil => exact ha _ hafter
  | cons t ts => exact ha

theorem Ahead.imp {mid mid' after : TokenKind → Prop} {ms : List TokenMark}
    (ha : Ahead mid ms after) (h : ∀ kind, mid kind → mid' kind) : Ahead mid' ms after := by
  cases ms with
  | nil => exact fun kind hk => h kind (ha kind hk)
  | cons m ms => exact h _ ha

theorem ahead_true (ms : List TokenMark) (after : TokenKind → Prop) :
    Ahead (fun _ => True) ms after := by
  cases ms with
  | nil => exact fun _ _ => trivial
  | cons m ms => exact trivial

namespace Parser
variable {α β : Type}

def Reads (p : Parser α) (ms : List TokenMark) (after : TokenKind → Prop) (good : α → Prop) :
    Prop :=
  ∀ (c : Cursor) (ts rest : List Token), c.Closed → c.upcoming = ts ++ rest →
    ts.map Token.mark = ms → after (c.kindAt rest) →
    ∃ a d, p.Takes c ts a d ∧ d.upcoming = rest ∧ good a

variable {p : Parser α} {f : α → Parser β} {ms ns : List TokenMark} {m : TokenMark}
  {mid after : TokenKind → Prop} {good : α → Prop} {goal : β → Prop}

theorem Reads.bind (hp : p.Reads ms mid good) (ha : Ahead mid ns after)
    (hf : ∀ a, good a → (f a).Reads ns after goal) : (p >>= f).Reads (ms ++ ns) after goal := by
  intro c ts rest hc hu hts hafter
  obtain ⟨us, vs, rfl, rfl, rfl⟩ := List.map_eq_append_iff.mp hts
  rw [List.append_assoc] at hu
  have hmid : mid (c.kindAt (vs ++ rest)) :=
    ha.current (c := { c with upcoming := vs ++ rest }) rfl rfl hafter
  obtain ⟨a, d, ht, hd, hgood⟩ := hp c us (vs ++ rest) hc hu rfl hmid
  have hk : d.kindAt rest = c.kindAt rest := by rw [Cursor.kindAt, ht.finish, Cursor.kindAt]
  obtain ⟨b, e, ht', he, hgoal⟩ := hf a hgood d vs rest ht.closed_next hd rfl (hk ▸ hafter)
  exact ⟨b, e, ht.bind ht', he, hgoal⟩

theorem Reads.weaken (hp : p.Reads ms mid good) (ha : ∀ kind, after kind → mid kind)
    {good' : α → Prop} (hg : ∀ a, good a → good' a) : p.Reads ms after good' := by
  intro c ts rest hc hu hts hafter
  obtain ⟨a, d, ht, hd, hgood⟩ := hp c ts rest hc hu hts (ha _ hafter)
  exact ⟨a, d, ht, hd, hg a hgood⟩

theorem reads_pure {a : α} (h : good a) : (pure a : Parser α).Reads [] after good := by
  intro c ts rest hc hu hts hafter
  obtain rfl := List.map_eq_nil_iff.mp hts
  exact ⟨a, c, takes_pure_iff.mpr ⟨hc, rfl, rfl, rfl⟩, hu, h⟩

/-- The parser may be chosen by the token that comes next. -/
theorem reads_of_eq (mid : TokenKind → Prop) (ha : Ahead mid ms after)
    (h : ∀ c : Cursor, c.Closed → mid c.current.kind →
      ∃ q : Parser α, p c = q c ∧ q.Reads ms after good) :
    p.Reads ms after good := by
  intro c ts rest hc hu hts hafter
  obtain ⟨q, hq, hr⟩ := h c hc (ha.current hu hts hafter)
  obtain ⟨a, d, ht, hd, hgood⟩ := hr c ts rest hc hu hts hafter
  exact ⟨a, d, ht.congr hq.symm, hd, hgood⟩

/-- A repetition bounded by the tokens to come. -/
theorem reads_of_bound {within : List Token → Parser α}
    (h : ∀ bound : List Token, ms.length ≤ bound.length → (within bound).Reads ms after good) :
    Reads (fun c => within c.upcoming c) ms after good := by
  intro c ts rest hc hu hts hafter
  have hb : ms.length ≤ c.upcoming.length := by
    rw [hu, ← hts, List.length_map, List.length_append]
    exact Nat.le_add_right _ _
  obtain ⟨a, d, ht, hd, hgood⟩ := h c.upcoming hb c ts rest hc hu hts hafter
  exact ⟨a, d, ht.congr rfl, hd, hgood⟩

/-- A step that nothing after it can change. -/
theorem Reads.followed (hp : p.Reads ms (fun _ => True) good)
    (hf : ∀ a, good a → (f a).Reads ns after goal) : (p >>= f).Reads (ms ++ ns) after goal :=
  hp.bind (ahead_true ns after) hf

theorem Reads.bind_last (hp : p.Reads ms mid good) (ha : ∀ kind, after kind → mid kind)
    (hf : ∀ a, good a → (f a).Reads [] after goal) : (p >>= f).Reads ms after goal := by
  rw [← List.append_nil ms]
  exact hp.bind ha hf

theorem Reads.map {g : α → β} (hp : p.Reads ms after good) (hg : ∀ a, good a → goal (g a)) :
    (g <$> p).Reads ms after goal :=
  hp.bind_last (f := fun a => pure (g a)) (fun _ ha => ha) fun a ha => reads_pure (hg a ha)

theorem reads_peek_bind (mid : TokenKind → Prop) {f : Token → Parser β} (ha : Ahead mid ms after)
    (hf : ∀ t : Token, mid t.kind → (f t).Reads ms after goal) :
    (peek >>= f).Reads ms after goal :=
  reads_of_eq mid ha fun c _ hk => ⟨f c.current, rfl, hf c.current hk⟩

theorem reads_peek_bind_cons {f : Token → Parser β}
    (hf : ∀ t : Token, t.mark = m → (f t).Reads (m :: ms) after goal) :
    (peek >>= f).Reads (m :: ms) after goal := by
  intro c ts rest hc hu hts hafter
  cases ts with
  | nil => cases hts
  | cons t ts =>
      have ht : c.current.mark = m := by
        rw [Cursor.current_eq hu]
        exact (List.cons.inj hts).1
      obtain ⟨b, d, hb, hd, hgoal⟩ := hf c.current ht c (t :: ts) rest hc hu hts hafter
      exact ⟨b, d, takes_peek_bind.mpr hb, hd, hgoal⟩

/-- A parser of one token. -/
theorem reads_advance {a : α} (h : ∀ c : Cursor, c.current.mark = m → p c = .ok a c.advance) :
    p.Reads [m] (fun _ => True) (· = a) := by
  intro c ts rest hc hu hts _
  obtain ⟨t, rfl, ht⟩ := List.map_eq_singleton_iff.mp hts
  have hcur := Cursor.current_eq hu
  have hadv : c.advance.upcoming = rest := Cursor.upcoming_advance hu
  refine ⟨a, c.advance, ⟨hc, h c ?_, ?_, c.finish_advance, c.faults_advance⟩, hadv, rfl⟩
  · rw [hcur, ht]
  · rw [hu, hadv]

theorem reads_take_bind {f : Unit → Parser β} (hf : (f ()).Reads ms after goal) :
    (take >>= f).Reads (m :: ms) after goal :=
  (reads_advance fun _ _ => rfl).followed fun _ _ => hf

theorem reads_expect_bind {s : Symbol} {f : Unit → Parser β} (hf : (f ()).Reads ms after goal) :
    (expect s >>= f).Reads (.symbol s :: ms) after goal := by
  refine Reads.followed (reads_advance (a := ()) fun c hc => ?_) fun _ _ => hf
  have hk : c.current.kind = .symbol s := Token.kind_of_mark hc
  simp [expect, Cursor.isAt, hk]

theorem reads_expectName {w : Word} : expectName.Reads [.name w] (fun _ => True) (· = w) := by
  refine reads_advance fun c hc => ?_
  have hk : c.current.kind = .name := Token.kind_of_mark hc
  rw [expectName, if_pos hk, Token.word_of_mark_name hc]

theorem reads_expectName_bind {w : Word} {f : Word → Parser β}
    (hf : (f w).Reads ms after goal) : (expectName >>= f).Reads (.name w :: ms) after goal := by
  refine reads_expectName.followed ?_
  rintro _ rfl
  exact hf

theorem reads_accept_bind {s : Symbol} {f : Bool → Parser β} (hf : (f true).Reads ms after goal) :
    (accept s >>= f).Reads (.symbol s :: ms) after goal := by
  refine Reads.followed (reads_advance (a := true) fun c hc => ?_) ?_
  · have hk : c.current.kind = .symbol s := Token.kind_of_mark hc
    simp [accept, Cursor.isAt, hk]
  · rintro _ rfl
    exact hf

theorem reads_decline_bind {s : Symbol} {f : Bool → Parser β} (ha : Ahead (· ≠ .symbol s) ms after)
    (hf : (f false).Reads ms after goal) : (accept s >>= f).Reads ms after goal := by
  refine reads_of_eq _ ha fun c _ hk => ⟨f false, ?_, hf⟩
  have hs : c.isAt s = false := by simpa [Cursor.isAt] using hk
  rw [bind_apply, accept, hs]
  rfl

theorem reads_closeNode_bind {f : Node → Parser β} {start : Nat}
    (hf : ∀ node, (f node).Reads ms after goal) : (closeNode start >>= f).Reads ms after goal := by
  intro c ts rest hc hu hts hafter
  obtain ⟨b, d, hb, hd, hgoal⟩ := hf ⟨c.nextId, ⟨start, c.previous.span.stop⟩⟩
    { c with nextId := c.nextId + 1 } ts rest hc hu hts hafter
  exact ⟨b, d, takes_closeNode_bind.mpr hb, hd, hgoal⟩

theorem reads_nodeAt_bind {f : Node → Parser β} {span : Span}
    (hf : ∀ node, (f node).Reads ms after goal) : (nodeAt span >>= f).Reads ms after goal := by
  intro c ts rest hc hu hts hafter
  obtain ⟨b, d, hb, hd, hgoal⟩ := hf ⟨c.nextId, span⟩
    { c with nextId := c.nextId + 1 } ts rest hc hu hts hafter
  exact ⟨b, d, takes_nodeAt_bind.mpr hb, hd, hgoal⟩

/-- What may follow an item of a list in parentheses. -/
def Separates (kind : TokenKind) : Prop := kind = .symbol .comma ∨ kind = .symbol .rightParen

theorem commaItemsWithin_reads {γ : Type} {item : Nat → Parser α} {write : α → List TokenMark}
    {view : α → γ} {xs : List α} {bound : List Token} {i limit : Nat}
    (h : ∀ j < limit, ∀ x ∈ xs, (item j).Reads (write x) Separates (view · = view x))
    (hi : i + xs.length ≤ limit)
    (hb : (xs.flatMap fun x => TokenMark.symbol .comma :: write x).length ≤ bound.length) :
    (commaItemsWithin item bound i).Reads (xs.flatMap fun x => TokenMark.symbol .comma :: write x)
      (· = .symbol .rightParen) (·.map view = xs.map view) := by
  induction xs generalizing bound i with
  | nil =>
      cases bound with
      | nil => exact reads_pure rfl
      | cons t bound =>
          rw [commaItemsWithin_cons]
          refine reads_decline_bind (fun kind hk => ?_) (reads_pure rfl)
          rw [hk]
          decide
  | cons x xs ih =>
      rw [List.length_cons] at hi
      rw [List.flatMap_cons, List.cons_append] at hb ⊢
      cases bound with
      | nil => simp at hb
      | cons t bound =>
          rw [List.length_cons, List.length_cons, List.length_append] at hb
          rw [commaItemsWithin_cons]
          have hx := h i (by omega) x List.mem_cons_self
          have hxs := @ih bound (i + 1)
            (fun j hj y hy => h j hj y (List.mem_cons_of_mem _ hy)) (by omega) (by omega)
          refine reads_accept_bind (hx.bind ?_ fun a ha => ?_)
          · cases xs with
            | nil => exact fun kind hk => .inr hk
            | cons y ys => exact .inl rfl
          · refine hxs.bind_last (fun _ hk => hk) fun as has => reads_pure ?_
            rw [List.map_cons, List.map_cons, ha, has]

theorem commaList_reads {γ : Type} {item : Nat → Parser α} {write : α → List TokenMark}
    {view : α → γ} {x : α} {xs : List α} {limit : Nat}
    (h : ∀ j < limit, ∀ y ∈ x :: xs, (item j).Reads (write y) Separates (view · = view y))
    (hlen : (x :: xs).length ≤ limit) :
    (commaList item).Reads (TokenMark.listed write (x :: xs)) (· = .symbol .rightParen)
      (·.map view = (x :: xs).map view) := by
  rw [List.length_cons] at hlen
  have hxs : Reads (fun c => commaItemsWithin item c.upcoming 1 c)
      (xs.flatMap fun x => TokenMark.symbol .comma :: write x) (· = .symbol .rightParen)
      (·.map view = xs.map view) :=
    reads_of_bound fun bound hb => commaItemsWithin_reads
      (fun j hj y hy => h j hj y (List.mem_cons_of_mem _ hy)) (by omega) hb
  unfold commaList
  refine (h 0 (by omega) x List.mem_cons_self).bind ?_ fun a ha => ?_
  · cases xs with
    | nil => exact fun kind hk => .inr hk
    | cons y ys => exact .inl rfl
  · refine hxs.bind_last (fun _ hk => hk) fun as has => reads_pure ?_
    rw [List.map_cons, List.map_cons, ha, has]

/-- Items in parentheses, or none. -/
theorem listed_reads {γ : Type} {p : Parser (List α)} {item : Nat → Parser α}
    {write : α → List TokenMark} {view : α → γ} {xs : List α} {limit : Nat}
    (hp : ∀ c, p c = if c.isAt .rightParen then .ok [] c else commaList item c)
    (h : ∀ j < limit, ∀ x ∈ xs, (item j).Reads (write x) Separates (view · = view x))
    (hopen : ∀ x ∈ xs, ∀ ns, Ahead (· ≠ .symbol .rightParen) (write x ++ ns)
      (· = .symbol .rightParen))
    (hlen : xs.length ≤ limit) :
    p.Reads (TokenMark.listed write xs) (· = .symbol .rightParen) (·.map view = xs.map view) := by
  cases xs with
  | nil =>
      refine reads_of_eq (· = .symbol .rightParen) (fun _ hk => hk) fun c _ hk =>
        ⟨pure [], ?_, reads_pure rfl⟩
      simp [hp, Cursor.isAt, hk, pure_apply]
  | cons x xs =>
      refine reads_of_eq _ (hopen x List.mem_cons_self _) fun c _ hk =>
        ⟨commaList item, ?_, commaList_reads h hlen⟩
      simp [hp, Cursor.isAt, hk]

end Parser

end LamScope

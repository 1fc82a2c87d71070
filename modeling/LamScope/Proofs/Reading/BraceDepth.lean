import LamScope.Proofs.Reading.Takes

/-!
# Depth in braces

How deep in braces one stands after some tokens. A cursor goes on within braces if every closing
brace that it passes was opened on the way. It goes on in balance if each brace that it passes was
closed as well, except in stretches that were dropped because a declaration failed. Main statements:
where it stands after such a way is as deep as what was dropped, and a matching brace cannot be
passed from within.
-/
namespace LamScope

/-- What a token adds to the depth. -/
def TokenKind.rise : TokenKind → Int
  | .symbol .leftBrace => 1
  | .symbol .rightBrace => -1
  | _ => 0

theorem Extent.rise_nonneg {kind : TokenKind} (h : Extent.braces.endsAt kind = false) :
    0 ≤ kind.rise := by
  unfold TokenKind.rise
  split
  · decide
  · cases h
  · decide

namespace Token

/-- The braces that are opened less those that are closed. -/
def depth : List Token → Int
  | [] => 0
  | t :: ts => t.kind.rise + depth ts

/-- No brace is closed before it is opened. -/
def Guarded (ts : List Token) : Prop := ∀ us, us <+: ts → 0 ≤ depth us

/-- All braces are closed that are opened, and no others. -/
structure Balanced (ts : List Token) : Prop where
  guarded : Guarded ts
  depth_eq : depth ts = 0

variable {t u : Token} {ts us vs ws : List Token}

@[simp] theorem depth_nil : depth [] = 0 := rfl

@[simp] theorem depth_cons (t : Token) (ts : List Token) :
    depth (t :: ts) = t.kind.rise + depth ts := rfl

@[simp] theorem depth_append (ts us : List Token) : depth (ts ++ us) = depth ts + depth us := by
  induction ts with
  | nil => simp
  | cons t ts ih =>
      rw [List.cons_append, depth_cons, depth_cons, ih]
      omega

theorem guarded_iff : Guarded ts ↔ ∀ n < ts.length + 1, 0 ≤ depth (ts.take n) := by
  constructor
  · exact fun h n _ => h _ (List.take_prefix n ts)
  · intro h us hus
    rw [List.prefix_iff_eq_take.mp hus]
    exact h us.length (Nat.lt_succ_of_le hus.length_le)

instance (ts : List Token) : Decidable (Guarded ts) := decidable_of_iff' _ guarded_iff

instance (ts : List Token) : Decidable (Balanced ts) :=
  decidable_of_iff (Guarded ts ∧ depth ts = 0) ⟨fun h => ⟨h.1, h.2⟩, fun h => ⟨h.1, h.2⟩⟩

theorem Guarded.depth_nonneg (h : Guarded ts) : 0 ≤ depth ts := h ts List.prefix_rfl

theorem guarded_nil : Guarded [] := by
  intro us hus
  rw [List.prefix_nil.mp hus]
  exact Int.le_refl 0

theorem Guarded.append (hts : Guarded ts) (hus : Guarded us) : Guarded (ts ++ us) := by
  intro vs hvs
  rcases List.prefix_or_prefix_of_prefix hvs (List.prefix_append ts us) with h | ⟨ws, rfl⟩
  · exact hts vs h
  · have hwhole := hts.depth_nonneg
    have hrest := hus ws ((List.prefix_append_right_inj ts).mp hvs)
    rw [depth_append]
    omega

theorem guarded_singleton (h : 0 ≤ t.kind.rise) : Guarded [t] := by
  intro us hus
  rcases List.prefix_cons_iff.mp hus with rfl | ⟨vs, rfl, hvs⟩
  · exact Int.le_refl 0
  · rw [List.prefix_nil.mp hvs]
    simpa using h

/-- Tokens in braces. -/
theorem Guarded.braces (h : Guarded ts) (ht : t.kind.rise = 1) (hu : u.kind.rise = -1) :
    Guarded (t :: ts ++ [u]) := by
  intro us hus
  have hopened : Guarded (t :: ts) := (guarded_singleton (by omega)).append h
  rcases List.prefix_concat_iff.mp hus with rfl | hus
  · have hnonneg := h.depth_nonneg
    simp only [List.cons_append, depth_cons, depth_append, depth_nil]
    omega
  · exact hopened us hus

theorem guarded_flatten {tss : List (List Token)} (h : ∀ ts ∈ tss, Guarded ts) :
    Guarded tss.flatten := by
  induction tss with
  | nil => exact guarded_nil
  | cons ts tss ih =>
      obtain ⟨hts, hrest⟩ := List.forall_mem_cons.mp h
      exact hts.append (ih hrest)

/-- A brace that matches one before the tokens is not passed by going on within braces. -/
theorem Balanced.prefix_of_guarded (hts : Balanced ts) (hu : u.kind.rise = -1) (hus : Guarded us)
    (h : us ++ vs = ts ++ u :: ws) : us <+: ts := by
  have hstop : ts ++ [u] <+: us ++ vs := ⟨ws, by simp [h]⟩
  have hbefore : ¬ts ++ [u] <+: us := by
    intro hle
    have hnonneg := hus _ hle
    have hzero := hts.depth_eq
    simp only [depth_append, depth_cons, depth_nil] at hnonneg
    omega
  rcases List.prefix_or_prefix_of_prefix (List.prefix_append us vs) hstop with hle | hle
  · exact (List.prefix_concat_iff.mp hle).resolve_left fun heq => hbefore (heq ▸ List.prefix_rfl)
  · exact (hbefore hle).elim

/-- A closing brace that stands after tokens of depth zero is the one that matches. -/
theorem Guarded.eq_of_before (hts : Guarded ts) (hle : us <+: ts) (hzero : depth us = 0)
    (ht : t.kind.rise = -1) (h : us ++ t :: vs = ts ++ u :: ws) : us = ts := by
  obtain ⟨rest, rfl⟩ := hle
  cases rest with
  | nil => exact (List.append_nil us).symm
  | cons v rest =>
      have hsame : t = v := by
        rw [List.append_assoc] at h
        exact (List.cons.inj (List.append_cancel_left h)).1
      have hnonneg := hts (us ++ [v]) ⟨rest, by simp⟩
      rw [← hsame] at hnonneg
      simp only [depth_append, depth_cons, depth_nil] at hnonneg
      omega

/-- Stretches in a row end on the level where they began only if each of them does. -/
theorem depth_flatten_eq_zero_iff {tss : List (List Token)} (h : ∀ ts ∈ tss, Guarded ts) :
    depth tss.flatten = 0 ↔ ∀ ts ∈ tss, Balanced ts := by
  induction tss with
  | nil => simp
  | cons ts tss ih =>
      obtain ⟨hts, hrest⟩ := List.forall_mem_cons.mp h
      have hfirst := hts.depth_nonneg
      have hothers := (guarded_flatten hrest).depth_nonneg
      rw [List.flatten_cons, depth_append, List.forall_mem_cons, ← ih hrest]
      constructor
      · intro hsum
        exact ⟨⟨hts, by omega⟩, by omega⟩
      · rintro ⟨hbalanced, hzero⟩
        rw [hbalanced.depth_eq, hzero]
        rfl

end Token

namespace Cursor

/-- Going on within braces. -/
structure Nests (c d : Cursor) : Prop where
  finish : d.finish = c.finish
  guarded : c.Closed → ∃ ts, c.upcoming = ts ++ d.upcoming ∧ Token.Guarded ts

/-- Going on in balance, apart from stretches that were dropped after a failure. -/
inductive Passage : Cursor → List (List Token) → Cursor → Prop
  | refl (c : Cursor) : Passage c [] c
  | trans {c d e : Cursor} {before after : List (List Token)} :
      Passage c before d → Passage d after e → Passage c (before ++ after) e
  | advance {c : Cursor} : c.current.kind.rise = 0 → Passage c [] c.advance
  | draw (c : Cursor) : Passage c [] { c with nextId := c.nextId + 1 }
  | remark (c : Cursor) {cause : SyntaxFault.Cause} (w : Word) :
      cause.isRemark → Passage c [] (c.note (.of cause w))
  | braces {c d : Cursor} {dropped : List (List Token)} :
      c.isAt .leftBrace → Passage c.advance dropped d → d.isAt .rightBrace →
      Passage c dropped d.advance
  | dropped {c d : Cursor} {n : Nat} {fault : SyntaxFault} :
      Parser.declaration (.ofDepth n) c = .failed fault d →
      Passage c [c.taken ((d.note fault).resume .braces)] ((d.note fault).resume .braces)

variable {c d e : Cursor} {t : Token} {ts us : List Token} {dropped : List (List Token)}

theorem rise_of_isAt_leftBrace (h : c.isAt .leftBrace) : c.current.kind.rise = 1 := by
  rw [c.kind_of_isAt h]
  rfl

theorem rise_of_isAt_rightBrace (h : c.isAt .rightBrace) : c.current.kind.rise = -1 := by
  rw [c.kind_of_isAt h]
  rfl

/-- A brace is a token, not the end of all. -/
theorem upcoming_eq_cons_of_rise (hc : c.Closed) (h : c.current.kind.rise ≠ 0) :
    c.upcoming = c.current :: c.advance.upcoming := by
  refine c.upcoming_eq_cons hc fun hend => h ?_
  rw [hend]
  rfl

/-- Braces with what is between them. -/
theorem upcoming_eq_of_braces (hc : c.Closed) (hd : d.Closed) (hopening : c.isAt .leftBrace)
    (hclosing : d.isAt .rightBrace) (h : c.advance.upcoming = ts ++ d.upcoming) :
    c.upcoming = (c.current :: ts ++ [d.current]) ++ d.advance.upcoming := by
  have hfirst := rise_of_isAt_leftBrace hopening
  have hlast := rise_of_isAt_rightBrace hclosing
  rw [upcoming_eq_cons_of_rise hc (by omega), h, upcoming_eq_cons_of_rise hd (by omega)]
  simp

theorem Nests.refl (c : Cursor) : c.Nests c := ⟨rfl, fun _ => ⟨[], rfl, Token.guarded_nil⟩⟩

theorem Nests.closed (h : c.Nests d) (hc : c.Closed) : d.Closed := hc.of_finish_eq h.finish

theorem Nests.trans (h : c.Nests d) (h' : d.Nests e) : c.Nests e where
  finish := h'.finish.trans h.finish
  guarded hc := by
    obtain ⟨ts, hts, hg⟩ := h.guarded hc
    obtain ⟨us, hus, hg'⟩ := h'.guarded (h.closed hc)
    exact ⟨ts ++ us, by rw [hts, hus, List.append_assoc], hg.append hg'⟩

theorem nests_advance (h : 0 ≤ c.current.kind.rise) : c.Nests c.advance where
  finish := c.finish_advance
  guarded _ := by
    cases hu : c.upcoming with
    | nil => exact ⟨[], by simp [advance, hu], Token.guarded_nil⟩
    | cons t ts =>
        rw [current_eq hu] at h
        exact ⟨[t], by rw [upcoming_advance hu]; rfl, Token.guarded_singleton h⟩

theorem nests_note (c : Cursor) (f : SyntaxFault) : c.Nests (c.note f) :=
  ⟨rfl, fun _ => ⟨[], rfl, Token.guarded_nil⟩⟩

theorem nests_draw (c : Cursor) : c.Nests { c with nextId := c.nextId + 1 } :=
  ⟨rfl, fun _ => ⟨[], rfl, Token.guarded_nil⟩⟩

/-- Braces around what is gone through within braces. -/
theorem nests_braces (hopening : c.isAt .leftBrace) (h : c.advance.Nests d)
    (hclosing : d.isAt .rightBrace) : c.Nests d.advance where
  finish := d.finish_advance.trans (h.finish.trans c.finish_advance)
  guarded hc := by
    have hadvanced := c.leads_advance.closed hc
    obtain ⟨ts, hts, hg⟩ := h.guarded hadvanced
    exact ⟨_, upcoming_eq_of_braces hc (h.closed hadvanced) hopening hclosing hts,
      hg.braces (rise_of_isAt_leftBrace hopening) (rise_of_isAt_rightBrace hclosing)⟩

theorem guarded_skip (previous : Token) (ts : List Token) :
    ∃ us, ts = us ++ (skip .braces previous ts).2 ∧ Token.Guarded us := by
  induction ts generalizing previous with
  | nil => exact ⟨[], rfl, Token.guarded_nil⟩
  | cons t ts ih =>
      unfold skip
      split
      · exact ⟨[], rfl, Token.guarded_nil⟩
      · rename_i hgoes
        obtain ⟨us, hus, hg⟩ := ih t
        have ht := Extent.rise_nonneg (Bool.eq_false_iff.mpr fun h => hgoes (.inr (.inl h)))
        exact ⟨t :: us, by rw [List.cons_append, ← hus], (Token.guarded_singleton ht).append hg⟩

theorem resume_of_isAt (h : c.isAt .rightBrace) : c.resume .braces = c := by
  have hk := c.kind_of_isAt h
  unfold resume
  split
  · rfl
  · rename_i t ts hu
    rw [current_eq hu] at hk
    exact if_pos (by rw [hk]; rfl)

/-- Tokens are dropped up to a closing brace at most. -/
theorem nests_resume (c : Cursor) : c.Nests (c.resume .braces) := by
  unfold resume
  split
  · exact .refl c
  · rename_i t ts hu
    split
    · exact .refl c
    · rename_i hgoes
      obtain ⟨us, hus, hg⟩ := guarded_skip t ts
      refine ⟨rfl, fun _ => ⟨t :: us, by rw [hu, List.cons_append, ← hus], ?_⟩⟩
      exact (Token.guarded_singleton (Extent.rise_nonneg (by simpa using hgoes))).append hg

theorem Passage.leads (h : c.Passage dropped d) : c.Leads d := by
  induction h with
  | refl c => exact .refl c
  | trans _ _ ih ih' => exact ih.trans ih'
  | advance _ => exact leads_advance _
  | draw c => exact ⟨List.suffix_rfl, rfl, List.prefix_rfl⟩
  | remark c w _ => exact c.leads_note _
  | braces _ _ _ ih => exact (leads_advance _).trans (ih.trans (leads_advance _))
  | dropped h => exact (Parser.Advances.failed h).trans ((leads_note _ _).trans (leads_resume _ _))

/-- Only what was dropped changes the depth. -/
theorem Passage.depth (h : c.Passage dropped d) (hc : c.Closed) :
    ∃ ts, c.upcoming = ts ++ d.upcoming ∧ Token.depth ts = Token.depth dropped.flatten := by
  induction h with
  | refl c => exact ⟨[], rfl, rfl⟩
  | trans h h' ih ih' =>
      obtain ⟨ts, hts, hdepth⟩ := ih hc
      obtain ⟨us, hus, hdepth'⟩ := ih' (h.leads.closed hc)
      refine ⟨ts ++ us, by rw [hts, hus, List.append_assoc], ?_⟩
      rw [List.flatten_append, Token.depth_append, Token.depth_append, hdepth, hdepth']
  | @advance c h =>
      cases hu : c.upcoming with
      | nil => exact ⟨[], by simp [Cursor.advance, hu], rfl⟩
      | cons t ts =>
          rw [current_eq hu] at h
          exact ⟨[t], by rw [upcoming_advance hu]; rfl, by simpa using h⟩
  | draw c => exact ⟨[], rfl, rfl⟩
  | remark c w _ => exact ⟨[], rfl, rfl⟩
  | @braces c d _ hopening h hclosing ih =>
      have hadvanced := c.leads_advance.closed hc
      have hfirst := rise_of_isAt_leftBrace hopening
      have hlast := rise_of_isAt_rightBrace hclosing
      obtain ⟨ts, hts, hdepth⟩ := ih hadvanced
      refine ⟨_, upcoming_eq_of_braces hc (h.leads.closed hadvanced) hopening hclosing hts, ?_⟩
      simp only [List.cons_append, Token.depth_cons, Token.depth_append, Token.depth_nil]
      omega
  | @dropped c d n fault h =>
      have hleads := (Parser.Advances.failed h).trans
        ((leads_note d fault).trans (leads_resume .braces _))
      exact ⟨_, (taken_append hleads.upcoming).symm, by simp⟩

/-- Every stretch that was dropped left a fault. -/
theorem Passage.length_faults (h : c.Passage dropped d) :
    c.faults.length + dropped.length ≤ d.faults.length := by
  induction h with
  | refl c => exact Nat.le_refl _
  | trans _ _ ih ih' =>
      rw [List.length_append]
      omega
  | advance _ => simp
  | draw c => exact Nat.le_refl _
  | remark c w _ => simp [note]
  | braces _ _ _ ih => simpa using ih
  | @dropped c d n fault h =>
      have hread := (Parser.Advances.failed h).faults.length_le
      have hresumed := (leads_resume .braces (d.note fault)).faults.length_le
      rw [note, List.length_append] at hresumed
      exact Nat.le_trans (Nat.succ_le_succ hread) hresumed

end Cursor

end LamScope

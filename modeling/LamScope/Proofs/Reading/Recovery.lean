import LamScope.Proofs.Reading.BraceReading

/-!
# Recovery in blocks

After a fault the statements of a block go on at the next place where one may begin. The braces of
what is dropped on the way are not counted. Main statement: no block runs past the brace that
matches its own, and one with few faults ends there exactly if all stretches dropped in it are
balanced. Otherwise it ends too early, at a brace that should have closed one of what was dropped.
-/
namespace LamScope

namespace Cursor

/-- A block stands next: between matching braces the tokens `ts`, and `rest` behind them. -/
structure AtBlock (c : Cursor) (opening : Token) (ts : List Token) (closing : Token)
    (rest : List Token) : Prop where
  closed : c.Closed
  upcoming : c.upcoming = opening :: ts ++ closing :: rest
  opening : opening.kind = .symbol .leftBrace
  closing : closing.kind = .symbol .rightBrace
  balanced : Token.Balanced ts

variable {c d e : Cursor} {opening closing : Token} {ts us rest : List Token}
  {dropped : List (List Token)}

/-- What is dropped goes on within braces. -/
theorem Passage.guarded (h : c.Passage dropped d) (hc : c.Closed) :
    ∀ ts ∈ dropped, Token.Guarded ts := by
  induction h with
  | refl c => exact nofun
  | trans h _ ih ih' => exact List.forall_mem_append.mpr ⟨ih hc, ih' (h.leads.closed hc)⟩
  | advance _ => exact nofun
  | draw c => exact nofun
  | remark c w _ => exact nofun
  | braces _ _ _ ih => exact ih ((leads_advance _).closed hc)
  | @dropped c d n fault h =>
      have hread : c.Nests (Parser.declaration (.ofDepth n) c).next :=
        (Parser.Braced.braced c).nests
      rw [h] at hread
      have hall := hread.trans ((d.nests_note fault).trans (nests_resume _))
      obtain ⟨ts, hts, hg⟩ := hall.guarded hc
      rw [taken_eq hts]
      exact List.forall_mem_singleton.mpr hg

namespace AtBlock
variable (h : c.AtBlock opening ts closing rest)
include h

theorem upcoming_advance : c.advance.upcoming = ts ++ closing :: rest :=
  Cursor.upcoming_advance h.upcoming

theorem isAt : c.isAt .leftBrace := by
  rw [Cursor.isAt, Cursor.current_eq h.upcoming, h.opening]
  rfl

theorem closed_advance : c.advance.Closed := c.leads_advance.closed h.closed

/-- Within braces one comes no further than to the closing one. -/
theorem exists_before (hd : c.advance.Nests d) :
    ∃ us, us <+: ts ∧ us ++ d.upcoming = ts ++ closing :: rest := by
  obtain ⟨us, hus, hg⟩ := hd.guarded h.closed_advance
  rw [h.upcoming_advance] at hus
  have hclosing : closing.kind.rise = -1 := by
    rw [h.closing]
    rfl
  exact ⟨us, h.balanced.prefix_of_guarded hclosing hg hus.symm, hus.symm⟩

/-- A block that is closed on the level of its opening brace is closed by the matching one. -/
theorem advance_eq_iff (hd : c.advance.Nests d) (hat : d.isAt .rightBrace) (hus : us <+: ts)
    (hupcoming : us ++ d.upcoming = ts ++ closing :: rest) :
    d.advance = ⟨closing, rest, c.finish, d.advance.faults, d.advance.nextId, d.advance.depth⟩ ↔
      Token.depth us = 0 := by
  have hrise := rise_of_isAt_rightBrace hat
  have hu := upcoming_eq_cons_of_rise (hd.closed h.closed_advance) (by omega)
  constructor
  · intro hexact
    have hrest : d.advance.upcoming = rest := congrArg Cursor.upcoming hexact
    rw [hu, hrest, List.append_cons us, List.append_cons ts] at hupcoming
    have hsame : us = ts := (List.append_inj' (List.append_cancel_right hupcoming) rfl).1
    rw [hsame]
    exact h.balanced.depth_eq
  · intro hdepth
    have hsame : us = ts := by
      rw [hu] at hupcoming
      exact h.balanced.guarded.eq_of_before hus hdepth hrise hupcoming
    rw [hsame] at hupcoming
    have hnext := List.append_cancel_left hupcoming
    have hfinish : d.finish = c.finish := hd.finish.trans c.finish_advance
    simp [Cursor.advance, hnext, hfinish]

end AtBlock

end Cursor

namespace Parser
variable {c : Cursor} {opening closing : Token} {ts rest : List Token}

/-- Where the statements of a block end. -/
def afterBody (n : Nat) (c : Cursor) : Cursor :=
  (sequence .braces (declaration (.ofDepth n)) c.advance).2

theorem nests_afterBody (n : Nat) (c : Cursor) : c.advance.Nests (afterBody n c) :=
  nests_sequenceWithin (fun c => (Braced.braced c).nests) _ c.advance

theorem braces_of_isAt (ho : c.isAt .leftBrace) (n : Nat) :
    braces (.ofDepth n) c =
      if (afterBody n c).isAt .rightBrace then
        .ok (sequence .braces (declaration (.ofDepth n)) c.advance).1 (afterBody n c).advance
      else
        .failed (.expected (.symbol .rightBrace) (afterBody n c).current) (afterBody n c) := by
  rw [braces_eq, between_apply _ _ ho]
  rfl

/-- A block goes no further than to its closing brace. -/
theorem taken_braces_le (n : Nat) (h : c.AtBlock opening ts closing rest) :
    c.taken (braces (.ofDepth n) c).next <+: opening :: ts ++ [closing] := by
  obtain ⟨us, ⟨vs, rfl⟩, hupcoming⟩ := h.exists_before (nests_afterBody n c)
  have hbehind : (afterBody n c).upcoming = vs ++ closing :: rest := by
    rw [List.append_assoc] at hupcoming
    exact List.append_cancel_left hupcoming
  rw [braces_of_isAt h.isAt]
  split
  · obtain ⟨v, ws, hv, hnext⟩ : ∃ v ws, [v] <+: vs ++ [closing] ∧
        (afterBody n c).upcoming = v :: ws := by
      cases vs with
      | nil => exact ⟨closing, rest, List.prefix_rfl, hbehind⟩
      | cons v vs => exact ⟨v, vs ++ closing :: rest, ⟨vs ++ [closing], rfl⟩, hbehind⟩
    have htaken : c.upcoming = opening :: us ++ [v] ++ (afterBody n c).advance.upcoming := by
      rw [h.upcoming, Cursor.upcoming_advance hnext]
      simpa [hnext] using hupcoming.symm
    rw [Reply.next, Cursor.taken_eq htaken]
    simpa using hv
  · have htaken : c.upcoming = opening :: us ++ (afterBody n c).upcoming := by
      rw [h.upcoming, List.cons_append, List.cons_append, hupcoming]
    rw [Reply.next, Cursor.taken_eq htaken]
    exact ⟨vs ++ [closing], by simp⟩

/-- A block is read to a closing brace unless it breaks off at too many faults. -/
theorem isAt_afterBody (n : Nat) (h : c.AtBlock opening ts closing rest)
    (hfew : (braces (.ofDepth n) c).next.faults.length < maxSyntaxFaults) :
    (afterBody n c).isAt .rightBrace := by
  have hfaults : (afterBody n c).faults.length < maxSyntaxFaults := by
    rw [braces_of_isAt h.isAt] at hfew
    split at hfew
    · rwa [Reply.next, Cursor.faults_advance] at hfew
    · exact hfew
  have hends := ends_of_few_faults (x := .braces)
    (consumes_declaration (consumes_inner_statement (Levels.ofDepth_goes n))) c.advance.upcoming
    h.closed_advance (Nat.le_refl _) hfaults
  rcases Bool.or_eq_true_iff.mp hends with hend | hclosing
  · obtain ⟨us, hus, hupcoming⟩ := h.exists_before (nests_afterBody n c)
    have hnone : (afterBody n c).upcoming = [] := List.isEmpty_iff.mp hend
    have hle := hus.length_le
    have hlength := congrArg List.length hupcoming
    rw [hnone] at hlength
    simp only [List.length_append, List.length_nil, List.length_cons] at hlength
    omega
  · exact hclosing

/-- It ends at the matching brace just if the tokens in it up to its end are of depth zero. -/
theorem braces_eq_of_few (n : Nat) (h : c.AtBlock opening ts closing rest)
    (hfew : (braces (.ofDepth n) c).next.faults.length < maxSyntaxFaults) :
    ∃ body us, braces (.ofDepth n) c = .ok body (afterBody n c).advance ∧
      us <+: ts ∧ c.advance.upcoming = us ++ (afterBody n c).upcoming ∧
      ((afterBody n c).advance = ⟨closing, rest, c.finish, (afterBody n c).advance.faults,
        (afterBody n c).advance.nextId, (afterBody n c).advance.depth⟩ ↔ Token.depth us = 0) := by
  have hat := isAt_afterBody n h hfew
  have hreply := braces_of_isAt h.isAt n
  rw [if_pos hat] at hreply
  obtain ⟨us, hus, hupcoming⟩ := h.exists_before (nests_afterBody n c)
  exact ⟨_, us, hreply, hus, h.upcoming_advance.trans hupcoming.symm,
    h.advance_eq_iff (nests_afterBody n c) hat hus hupcoming⟩

theorem depth_braces (n : Nat) (c : Cursor) : (braces (.ofDepth n) c).next.depth = c.depth := by
  have h : CountsAt c.depth (braces (.ofDepth n)) (braces (.ofDepth n)) := inferInstance
  exact h.depth_next

/-- No block runs past its closing brace. One with few faults is read to a closing brace, every
stretch dropped in it left a fault, and it ends at the brace that matches its own just if all these
stretches are balanced. Then only faults and numbers are left of what was read in it. -/
theorem braces_of_atBlock (n : Nat) (h : c.AtBlock opening ts closing rest) :
    let d := (braces (.ofDepth n) c).next
    c.taken d <+: opening :: ts ++ [closing] ∧
      (d.faults.length < maxSyntaxFaults →
        ∃ body e, braces (.ofDepth n) c = .ok body d ∧ e.isAt .rightBrace ∧ d = e.advance ∧
          (∃ dropped, c.advance.Passage dropped e) ∧
          ∀ dropped, c.advance.Passage dropped e →
            c.faults.length + dropped.length ≤ d.faults.length ∧
            (d = ⟨closing, rest, c.finish, d.faults, d.nextId, c.depth⟩ ↔
              ∀ us ∈ dropped, Token.Balanced us)) := by
  intro d
  have hdepth : d.depth = c.depth := depth_braces n c
  refine ⟨taken_braces_le n h, fun hfew => ?_⟩
  have hat := isAt_afterBody n h hfew
  obtain ⟨body, us, hreply, -, hupcoming, hexact⟩ := braces_eq_of_few n h hfew
  have hd : d = (afterBody n c).advance := congrArg Reply.next hreply
  refine ⟨body, afterBody n c, hd ▸ hreply, hat, hd, passage_sequenceWithin _ c.advance hat, ?_⟩
  intro dropped hpassage
  constructor
  · rw [hd]
    simpa using hpassage.length_faults
  · obtain ⟨vs, hvs, hbraces⟩ := hpassage.depth h.closed_advance
    have hsame : us = vs := List.append_cancel_right (hupcoming.symm.trans hvs)
    rw [← hdepth, hd, hexact, hsame, hbraces]
    exact Token.depth_flatten_eq_zero_iff (hpassage.guarded h.closed_advance)

/-- A block inside is balanced, and its `if` is dropped as a whole for want of a statement. -/
theorem braces_of_atBlock_else :
    let c := Cursor.ofTokens (Scan.ofSource "{if (a) {b;} else; print c;} d;").tokens
    let d := (braces (.ofDepth 127) c).next
    d.faults.length = 1 ∧ d.upcoming.length = 2 ∧
      ∃ body dropped e, braces (.ofDepth 127) c = .ok body d ∧ c.advance.Passage dropped e ∧
        d = e.advance ∧ dropped.length ≤ 1 ∧ ∀ us ∈ dropped, Token.Balanced us := by
  intro c d
  have hblock : c.AtBlock c.current (c.advance.upcoming.take 13) (c.upcoming.getD 14 c.finish)
      (c.upcoming.drop 15) :=
    { closed := Cursor.closed_ofTokens _
      upcoming := by decide +kernel
      opening := by decide +kernel
      closing := by decide +kernel
      balanced := by decide +kernel }
  have hone : d.faults.length = 1 := by decide +kernel
  have hplace : d.previous = c.upcoming.getD 14 c.finish ∧ d.upcoming = c.upcoming.drop 15 ∧
      d.finish = c.finish := by decide +kernel
  obtain ⟨hprevious, hupcoming, hfinish⟩ := hplace
  obtain ⟨-, hends⟩ := braces_of_atBlock 127 hblock
  obtain ⟨body, e, hreply, -, hd, ⟨dropped, hpassage⟩, hall⟩ := hends (by decide +kernel)
  obtain ⟨hfaults, hexact⟩ := hall dropped hpassage
  refine ⟨hone, by decide +kernel, body, dropped, e, hreply, hpassage, hd, ?_, ?_⟩
  · exact Nat.le_trans (Nat.le_add_left _ _) (hone ▸ hfaults)
  · refine hexact.mp ?_
    rw [← hprevious, ← hupcoming, ← hfinish, ← depth_braces 127 c]

/-- An `if` without parentheses is dropped together with the brace behind it, and the block around
it ends where that one should have been closed. -/
theorem block_ends_early :
    (Program.ofSource "{if x{print 1;}print 2;}").statements.map Stmt.span = [⟨0, 15⟩, ⟨15, 23⟩] ∧
      (Program.ofSource "{if x{print 1;}print 2;}").faults.length = 2 ∧
      ¬ ∀ (n : Nat) (c : Cursor) (opening : Token) (ts : List Token) (closing : Token)
        (rest : List Token), c.AtBlock opening ts closing rest →
          let d := (braces (.ofDepth n) c).next
          d.faults.length < maxSyntaxFaults →
            d = ⟨closing, rest, c.finish, d.faults, d.nextId, c.depth⟩ := by
  refine ⟨by decide +kernel, by decide +kernel, fun h => ?_⟩
  let c := Cursor.ofTokens (Scan.ofSource "{if x{print 1;}print 2;}").tokens
  have hblock : c.AtBlock c.current (c.advance.upcoming.take 10) (c.upcoming.getD 11 c.finish)
      [] :=
    { closed := Cursor.closed_ofTokens _
      upcoming := by decide +kernel
      opening := by decide +kernel
      closing := by decide +kernel
      balanced := by decide +kernel }
  have hnone := congrArg (·.upcoming.length) (h 127 c _ _ _ _ hblock (by decide +kernel))
  exact absurd hnone (by decide +kernel)

end Parser

end LamScope

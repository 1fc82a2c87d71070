import LamScope.Proofs.Reading.MirrorProgram

/-!
# Programs behind programs

Behind the tokens of a faultless program the tokens of another one are read as they are alone, with
their places and node numbers moved, unless they begin with an `else`. No faultless program begins
with one.
-/
namespace LamScope

namespace Parser
variable {g : Shift} {ts : List Token} {near : Prop} {c d : Cursor}

/-- A fault that ends a statement stays. -/
theorem faults_sequenceWithin_of_failed {x : Extent} {item : Parser Stmt} [Advances item]
    {t : Token} {bound : List Token} {fault : SyntaxFault} {c' : Cursor}
    (h : (c.atEnd || x.endsAt c.current.kind) = false) (hc : item c = .failed fault c') :
    (sequenceWithin x item (t :: bound) c).2.faults ≠ [] := by
  have hnoted : (c'.note fault).faults <+: (sequenceWithin x item (t :: bound) c).2.faults := by
    rw [sequenceWithin_of_failed h hc]
    split
    · exact List.prefix_rfl
    · exact ((c'.note fault).leads_resume x).faults.trans
        (sequenceWithin_leads x item bound _).faults
  intro hnone
  simp [hnone, Cursor.note] at hnoted

/-- Without a fault a sequence in a file ends where no token is left; if something stands behind,
it goes on there. -/
theorem sequenceWithin_append {item : Parser Stmt} [Advances item]
    (hitem : ∀ {near : Prop} {c d : Cursor}, c.Mirrors g (some ts) near d →
      item.Mirrors g (some ts) True near g.stmt item c d)
    {bound bound' : List Token} (h : c.Mirrors g (some ts) near d)
    (hconsumes : item.Consumes) (hroom : c.Room (some ts) bound bound')
    (hclean : (sequenceWithin .file item bound c).2.faults = []) :
    ∃ e rest, (sequenceWithin .file item bound c).2.Mirrors g (some ts) near e ∧
      e.upcoming = ts ∧ e.finish = d.finish ∧ ts.length ≤ rest.length ∧
      sequenceWithin .file item bound' d =
        (g.stmts (sequenceWithin .file item bound c).1 ++ (sequenceWithin .file item rest e).1,
          (sequenceWithin .file item rest e).2) := by
  induction bound generalizing bound' c d with
  | nil =>
      have hu : c.upcoming = [] := List.length_eq_zero_iff.mp (Nat.le_zero.mp hroom.first)
      exact ⟨d, bound', h, by rw [h.upcoming, hu]; rfl, rfl, hroom.tail_le, rfl⟩
  | cons t bound ih =>
      cases hend : c.atEnd with
      | true =>
          have hu : c.upcoming = [] := List.isEmpty_iff.mp hend
          have hstops : (c.atEnd || Extent.file.endsAt c.current.kind) = true := by simp [hend]
          rw [sequenceWithin_of_ends hstops]
          exact ⟨d, bound', h, by rw [h.upcoming, hu]; rfl, rfl, hroom.tail_le, rfl⟩
      | false =>
          have hne : c.upcoming ≠ [] := by simpa [Cursor.atEnd] using hend
          have hgoes : (c.atEnd || Extent.file.endsAt c.current.kind) = false := by
            rw [hend]
            rfl
          have hgoes' : (d.atEnd || Extent.file.endsAt d.current.kind) = false := by
            rw [h.atEnd (.inr hne), hend]
            rfl
          cases hc : item c with
          | failed fault c' =>
              exact (faults_sequenceWithin_of_failed hgoes hc hclean).elim
          | ok s c' =>
              have hmirrors := hitem h
              unfold Mirrors at hmirrors
              rw [hc] at hmirrors
              obtain ⟨d', hd, hd'⟩ := (hmirrors (.inr ⟨trivial, s, c', rfl⟩)).exists_of_ok
              have hfewer := hconsumes h.closed hc
              rw [sequenceWithin_of_ok hgoes hc] at hclean ⊢
              obtain ⟨t', bound', rfl⟩ := List.exists_cons_of_length_pos
                (Nat.lt_of_lt_of_le (Nat.add_pos_left (List.length_pos_iff.mpr hne) _) hroom.second)
              obtain ⟨e, rest, he, hu, hfinish, hrest, hsame⟩ :=
                @ih _ _ bound' (hd'.weaken fun _ => trivial) (hroom.rest hfewer) hclean
              refine ⟨e, rest, he, hu, hfinish.trans (Advances.ok hd).finish, hrest, ?_⟩
              rw [sequenceWithin_of_ok hgoes' hd, hsame]
              rfl

/-- Nothing begins with an `else`, however many levels are left. -/
theorem declaration_of_else (h : c.current.kind = .keyword .else_) (n : Nat) :
    ∃ fault, declaration (.ofDepth n) c = .failed fault c := by
  have hprimary (inner : Levels) :
      primary inner c = .failed (.expected .expression c.current) c := by
    rw [primary, bind_apply]
    simp only [peek, h]
    rfl
  have hoperand (inner : Levels) (floor : Nat) :
      operand inner floor c = .failed (.expected .expression c.current) c := by
    rw [operand, bind_apply, hprimary]
  have hfirst (n : Nat) : ∃ fault, (Levels.ofDepth n).operand 0 c = .failed fault c := by
    cases n with
    | zero => exact ⟨_, rfl⟩
    | succ n => exact ⟨_, hoperand (.ofDepth n) 0⟩
  have hstatement (n : Nat) : ∃ fault, statement (.ofDepth n) c = .failed fault c := by
    obtain ⟨fault, hfault⟩ := hfirst n
    refine ⟨fault, ?_⟩
    rw [statement, bind_apply]
    simp only [peek, h]
    rw [bind_apply, expression, bind_apply, hfault]
  rw [declaration, bind_apply]
  simp only [peek, h]
  cases n with
  | zero => exact ⟨_, rfl⟩
  | succ n => exact hstatement n

theorem consumes_declaration_ofDepth (n : Nat) : (declaration (.ofDepth n)).Consumes :=
  consumes_declaration (consumes_inner_statement (Levels.ofDepth_goes n))

end Parser

namespace Program
variable {ts us : List Token} {t u : Token}

/-- A faultless program does not begin with an `else`. -/
theorem noElse_of_faults_eq_nil {c : Cursor} (h : (ofCursor c).faults = []) :
    Token.NoElse c.upcoming := by
  intro v hv helse
  cases hu : c.upcoming with
  | nil => simp [hu] at hv
  | cons w rest =>
      rw [hu] at hv
      obtain rfl := Option.mem_some.mp hv
      have hcurrent := Cursor.current_eq hu
      have hgoes : (c.atEnd || Extent.file.endsAt c.current.kind) = false := by
        simp [Cursor.atEnd, hu, Extent.endsAt]
      obtain ⟨fault, hfails⟩ :=
        Parser.declaration_of_else (by rw [hcurrent, helse]) (maxNesting - c.depth)
      rw [ofCursor, Parser.sequence_outermost, Parser.sequence, hu] at h
      exact Parser.faults_sequenceWithin_of_failed hgoes hfails h

/-- From a cursor before the same tokens, moved, the same program is read, moved. -/
theorem ofCursor_mirrors {g : Shift} {near : Prop} {b e : Cursor} (h : b.Mirrors g none near e)
    (hdepth : e.depth = b.depth) :
    (ofCursor e).statements = g.stmts (ofCursor b).statements ∧
      (lastCursor b).Mirrors g none near (lastCursor e) := by
  have hlevels : e.levels = b.levels := congrArg (Levels.ofDepth <| maxNesting - ·) hdepth
  unfold ofCursor lastCursor
  rw [Parser.sequence_outermost, Parser.sequence_outermost, hlevels]
  exact Parser.sequenceWithin_mirrors (x := .file)
    (fun h => Parser.declaration_mirrors (Levels.ofDepth_mirror nofun _) h)
    (Parser.consumes_declaration_ofDepth _) h h.room (.inl rfl)

/-- Where a faultless program ends, another one is read as it is alone, moved. -/
theorem ofCursor_append {a b d : Cursor} (g : Shift)
    (h : a.Mirrors .zero (some (b.upcoming.map g.token)) False d) (hb : b.Closed)
    (hfinish : d.finish = g.token b.finish) (hfaults : b.faults = [])
    (hdepth : d.depth = a.depth) (hdepth' : b.depth = a.depth)
    (hid : (lastCursor a).nextId = b.nextId + g.id) (hclean : (ofCursor a).faults = [])
    (hstart : Token.NoElse b.upcoming) :
    (ofCursor d).statements = (ofCursor a).statements ++ g.stmts (ofCursor b).statements ∧
      (lastCursor b).Mirrors g none False (lastCursor d) := by
  have hlevels : d.levels = a.levels := congrArg (Levels.ofDepth <| maxNesting - ·) hdepth
  have hlevels' : b.levels = a.levels := congrArg (Levels.ofDepth <| maxNesting - ·) hdepth'
  obtain ⟨n, hn⟩ : ∃ n, a.levels = .ofDepth n := ⟨_, rfl⟩
  unfold ofCursor lastCursor at *
  rw [Parser.sequence_outermost, hn] at hid hclean
  rw [Parser.sequence_outermost, Parser.sequence_outermost, Parser.sequence_outermost, hlevels,
    hlevels', hn]
  have hconsumes := Parser.consumes_declaration_ofDepth n
  have hnoElse : Token.NoElse ((some (b.upcoming.map g.token)).getD []) := by
    intro v hv
    rw [Option.getD_some, List.head?_map] at hv
    obtain ⟨w, hw, rfl⟩ := Option.map_eq_some_iff.mp hv
    exact hstart w hw
  obtain ⟨e, rest, he, hup, hend, hrest, hsame⟩ := Parser.sequenceWithin_append
    (fun h => Parser.declaration_mirrors (Levels.ofDepth_mirror (fun _ => hnoElse) n) h) h
    hconsumes h.room hclean
  have hsecond : b.Mirrors g none False e :=
    { closed := hb
      closed_copy := he.closed_copy
      upcoming := by rw [hup, Option.getD_none, List.append_nil]
      finish := fun _ => hend.trans hfinish
      faults := by
        rw [he.faults, hfaults]
        exact congrArg (List.map Shift.zero.fault) hclean
      nextId := he.nextId.trans hid
      previous := nofun }
  obtain ⟨hss, hlast⟩ := Parser.sequenceWithin_mirrors (x := .file)
    (fun h => Parser.declaration_mirrors (Levels.ofDepth_mirror nofun n) h) hconsumes hsecond
    ⟨Nat.le_refl _, by simpa using hrest⟩ (.inl rfl)
  rw [Shift.stmts_zero] at hsame
  unfold Parser.sequence
  rw [hsame, hss]
  exact ⟨rfl, hlast⟩

theorem ofTokens_append (g : Shift) (hts : ∀ v ∈ ts, v.kind ≠ .endOfFile)
    (hus : ∀ v ∈ us, v.kind ≠ .endOfFile) (ht : t.kind = .endOfFile) (hu : u.kind = .endOfFile)
    (hid : g.id = (lastCursor (.ofTokens (ts ++ [t]))).nextId)
    (hclean : (ofTokens (ts ++ [t])).faults = []) (hstart : Token.NoElse us) :
    (ofTokens (ts ++ us.map g.token ++ [g.token u])).statements =
        (ofTokens (ts ++ [t])).statements ++ g.stmts (ofTokens (us ++ [u])).statements ∧
      (ofTokens (ts ++ us.map g.token ++ [g.token u])).faults =
        (ofTokens (us ++ [u])).faults.map g.fault := by
  have hmoved : ∀ v ∈ ts ++ us.map g.token, v.kind ≠ .endOfFile := by
    intro v hv
    rcases List.mem_append.mp hv with hv | hv
    · exact hts v hv
    · obtain ⟨w, hw, rfl⟩ := List.mem_map.mp hv
      exact hus w hw
  have hfirst := Cursor.ofTokens_concat hts ht
  have hsecond := Cursor.ofTokens_concat hus hu
  have hboth := Cursor.ofTokens_concat hmoved (t := g.token u) hu
  refine (ofCursor_append g ?_ (Cursor.closed_ofTokens _) ?_ ?_ ?_ ?_ ?_ hclean ?_).imp_right
    Cursor.Mirrors.faults
  · rw [hfirst, hsecond, hboth]
    refine ⟨ht, hu, ?_, nofun, rfl, rfl, nofun⟩
    simp [funext Shift.token_zero]
  · rw [hsecond, hboth]
  · rw [hsecond]
  · rfl
  · rfl
  · rw [hid, hsecond, Nat.zero_add]
  · rwa [hsecond]

end Program

end LamScope

import LamScope.Proofs.Reading.Appended
import LamScope.Proofs.Reading.Numbers
import Mathlib.Data.List.TakeWhile

/-!
# Reading on

A parser that stopped somewhere goes on from there as a new one would that is given only the tokens
to come; all it keeps from before is the number of the next node and the faults that were noted. It
has left all levels of nesting that it had entered.
Main statements: behind a faultless beginning the rest of the tokens, with faults or without, is
read as it is alone; and so is what is left behind an expression, whether the expression was read
or reading it failed.
-/
namespace LamScope

/-- Places stay and numbers are moved. -/
def Shift.ids (k : Nat) : Shift := ⟨0, 0, k⟩

namespace Shift

theorem zero_eq_ids : zero = ids 0 := rfl

@[simp] theorem map_token_ids (k : Nat) (ts : List Token) : ts.map (ids k).token = ts :=
  List.map_id ts

@[simp] theorem map_fault_ids (k : Nat) (fs : List SyntaxFault) : fs.map (ids k).fault = fs :=
  List.map_id fs

end Shift

namespace Cursor
variable {xs ys : List Token}

theorem upcoming_ofTokens (hxs : ∀ t ∈ xs, t.kind ≠ .endOfFile) : (ofTokens xs).upcoming = xs := by
  have hall : ∀ t ∈ xs, !(t.kind == .endOfFile) := by simpa using hxs
  exact List.takeWhile_eq_self_iff.mpr hall

/-- Where tokens stand in front, the rest is closed as it is alone, unless there is none. -/
theorem ofTokens_append (hxs : ∀ t ∈ xs, t.kind ≠ .endOfFile) (hys : ys ≠ []) :
    (ofTokens (xs ++ ys)).upcoming = xs ++ (ofTokens ys).upcoming ∧
      (ofTokens (xs ++ ys)).finish = (ofTokens ys).finish := by
  constructor
  · exact List.takeWhile_append_of_pos fun t ht => by simpa using hxs t ht
  · have hnone : xs.find? (fun t => t.kind == .endOfFile) = none :=
      List.find?_eq_none.mpr fun t ht => by simpa using hxs t ht
    have hlast : (xs ++ ys).getLast? = ys.getLast? := by
      rw [List.getLast?_append, List.getLast?_eq_some_getLast hys, Option.some_or]
    unfold ofTokens
    simp only [List.find?_append, hnone, Option.none_or, hlast]

end Cursor

theorem Token.noElse_nil : NoElse [] := by simp [NoElse]

instance : Parser.Advances Parser.outermostExpression := Parser.keeps_expression_outermost

namespace Program
variable {xs ys : List Token}

/-- Without a fault reading stops only where no token is left. -/
theorem upcoming_lastCursor {c : Cursor} (hc : c.Closed) (hclean : (ofCursor c).faults = []) :
    (lastCursor c).upcoming = [] := by
  obtain ⟨n, hn⟩ : ∃ n, c.levels = .ofDepth n := ⟨_, rfl⟩
  unfold lastCursor
  unfold ofCursor at hclean
  rw [Parser.sequence_outermost, hn] at hclean ⊢
  have hitself : c.Mirrors .zero (some []) False c :=
    { closed := hc
      closed_copy := hc
      upcoming := by simp [Shift.zero_eq_ids]
      finish := nofun
      faults := by simp [Shift.zero_eq_ids]
      nextId := rfl
      previous := nofun }
  have hnoElse : Token.NoElse ((some ([] : List Token)).getD []) := Token.noElse_nil
  have hlevels : (Levels.ofDepth n).Mirror .zero (some []) True :=
    Levels.ofDepth_mirror (fun _ => hnoElse) n
  obtain ⟨e, -, he, hup, -⟩ := Parser.sequenceWithin_append
    (fun h => Parser.declaration_mirrors hlevels h) hitself (Parser.consumes_declaration_ofDepth n)
    hitself.room hclean
  have hnone := he.upcoming
  rw [hup, Option.getD_some, List.append_nil] at hnone
  exact List.map_eq_nil_iff.mp hnone.symm

/-- Behind tokens that are read without a fault any others are read as they are alone, unless they
begin with an `else`: with the same faults, up to the same place, and with all numbers moved by
those drawn before. -/
theorem ofTokens_append_of_faults_eq_nil (hxs : ∀ t ∈ xs, t.kind ≠ .endOfFile)
    (hclean : (ofTokens xs).faults = []) (hys : Token.NoElse ys) :
    let k := (lastCursor (.ofTokens xs)).nextId
    let last := lastCursor (.ofTokens (xs ++ ys))
    let lastAlone := lastCursor (.ofTokens ys)
    (ofTokens (xs ++ ys)).statements =
        (ofTokens xs).statements ++ (Shift.ids k).stmts (ofTokens ys).statements ∧
      (ofTokens (xs ++ ys)).faults = (ofTokens ys).faults ∧
      last.upcoming = lastAlone.upcoming ∧ last.nextId = lastAlone.nextId + k := by
  intro k last lastAlone
  have hall := Cursor.upcoming_ofTokens hxs
  by_cases hempty : ys = []
  · subst hempty
    have hend := upcoming_lastCursor (Cursor.closed_ofTokens xs) hclean
    simp only [last, List.append_nil]
    exact ⟨(List.append_nil _).symm, hclean, hend, (Nat.zero_add k).symm⟩
  · obtain ⟨hup, hfinish⟩ := Cursor.ofTokens_append hxs hempty
    have hbehind : (Cursor.ofTokens xs).Mirrors .zero
        (some ((Cursor.ofTokens ys).upcoming.map (Shift.ids k).token)) False
        (.ofTokens (xs ++ ys)) :=
      { closed := Cursor.closed_ofTokens xs
        closed_copy := Cursor.closed_ofTokens _
        upcoming := by simp [hup, hall, Shift.zero_eq_ids]
        finish := nofun
        faults := rfl
        nextId := rfl
        previous := nofun }
    have hstart : Token.NoElse (Cursor.ofTokens ys).upcoming := by
      intro t ht
      refine hys t ?_
      cases ys with
      | nil => exact (hempty rfl).elim
      | cons y ys =>
          cases hy : (!(y.kind == .endOfFile))
          · simp [Cursor.ofTokens, List.takeWhile, hy] at ht
          · simpa [Cursor.ofTokens, List.takeWhile, hy] using ht
    obtain ⟨hstatements, hlast⟩ := ofCursor_append (Shift.ids k) hbehind
      (Cursor.closed_ofTokens ys) hfinish rfl rfl rfl (Nat.zero_add k).symm hclean hstart
    refine ⟨hstatements, ?_, ?_, hlast.nextId⟩
    · exact hlast.faults.trans (Shift.map_fault_ids k _)
    · simpa using hlast.upcoming

/-- An `if` that may go on with an `else`, and behind it what is never opened or never closed. -/
theorem ofTokens_append_of_faults_eq_nil_openIf :
    let xs := Cursor.upcoming (.ofTokens (Scan.ofSource "if (a) { b = 1; }").tokens)
    let ys := (Scan.ofSource "\x7d (else; print 2; fun f(").tokens
    (ofTokens xs).faults = [] ∧ (ofTokens ys).faults.length = 2 ∧
      (ofTokens (xs ++ ys)).statements =
        (ofTokens xs).statements ++ (Shift.ids 7).stmts (ofTokens ys).statements ∧
      (ofTokens (xs ++ ys)).faults = (ofTokens ys).faults := by
  intro xs ys
  have hclean : (ofTokens xs).faults = [] := by decide +kernel
  have hid : (lastCursor (.ofTokens xs)).nextId = 7 := by decide +kernel
  obtain ⟨hstatements, hfaults, -⟩ := @ofTokens_append_of_faults_eq_nil xs ys
    (by decide +kernel) hclean (by unfold Token.NoElse; decide +kernel)
  rw [hid] at hstatements
  exact ⟨hclean, by decide +kernel, hstatements, hfaults⟩

/-- What is read from a later cursor outside all levels, on which no fault is noted, is read of the
tokens to come. -/
theorem ofCursor_of_leads {tokens : List Token} {d : Cursor}
    (h : (Cursor.ofTokens tokens).Leads d) (hdepth : d.depth = 0) (hclean : d.faults = []) :
    let rest := tokens.drop ((Cursor.ofTokens tokens).taken d).length
    (ofCursor d).statements = (Shift.ids d.nextId).stmts (ofTokens rest).statements ∧
      (ofCursor d).faults = (ofTokens rest).faults := by
  intro rest
  have htaken := Cursor.taken_append h.upcoming
  have htakes : (Cursor.ofTokens tokens).taken d <+: tokens :=
    (List.take_prefix _ _).trans (List.takeWhile_prefix _)
  have htokens : (Cursor.ofTokens tokens).taken d ++ rest = tokens :=
    List.prefix_iff_eq_append.mp htakes
  have hkinds : ∀ t ∈ (Cursor.ofTokens tokens).taken d, t.kind ≠ .endOfFile := by
    intro t ht
    simpa using List.mem_takeWhile_imp (List.mem_of_mem_take ht)
  by_cases hempty : rest = []
  · have hnone : d.upcoming = [] := by
      have hle : ((Cursor.ofTokens tokens).taken d ++ d.upcoming).length ≤ tokens.length := by
        rw [htaken]
        exact (List.takeWhile_prefix _).length_le
      rw [hempty, List.append_nil] at htokens
      rw [List.length_append, htokens] at hle
      exact List.length_eq_zero_iff.mp (by omega)
    have hread : Parser.sequence .file (Parser.declaration .outermost) d = ([], d) :=
      Parser.sequenceWithin_of_upcoming_eq_nil _ _ _ hnone
    unfold ofCursor
    rw [hread, hempty]
    exact ⟨rfl, hclean⟩
  · obtain ⟨hup, hfinish⟩ := Cursor.ofTokens_append hkinds hempty
    rw [htokens] at hup hfinish
    have hsame : (Cursor.ofTokens rest).Mirrors (Shift.ids d.nextId) none False d :=
      { closed := Cursor.closed_ofTokens rest
        closed_copy := h.closed (Cursor.closed_ofTokens tokens)
        upcoming := by
          rw [← htaken] at hup
          simpa using List.append_cancel_left hup
        finish := fun _ => h.finish.trans hfinish
        faults := hclean
        nextId := (Nat.zero_add _).symm
        previous := nofun }
    obtain ⟨hstatements, hlast⟩ := ofCursor_mirrors hsame hdepth
    exact ⟨hstatements, hlast.faults.trans (Shift.map_fault_ids _ _)⟩

/-- A program may be read after an expression, or after reading one has failed somewhere inside: all
levels that were entered are left again. The program is what a new parser reads of the tokens not
taken, with its numbers moved, unless the expression had faults that did not end it. Such faults
come before those of the program. -/
theorem ofCursor_afterExpression (tokens : List Token) :
    let c := Cursor.ofTokens tokens
    let d := (Parser.outermostExpression c).next
    let rest := tokens.drop (c.taken d).length
    d.depth = 0 ∧ c.taken d ++ d.upcoming = c.upcoming ∧ d.faults <+: (ofCursor d).faults ∧
      (d.faults = [] →
        (ofCursor d).statements = (Shift.ids d.nextId).stmts (ofTokens rest).statements ∧
          (ofCursor d).faults = (ofTokens rest).faults) := by
  intro c d rest
  have hleads : c.Leads d := Parser.Advances.leads c
  have hdepth : d.depth = 0 := Parser.depth_outermostExpression c
  exact ⟨hdepth, Cursor.taken_append hleads.upcoming,
    (Parser.sequenceWithin_leads .file _ d.upcoming d).faults, ofCursor_of_leads hleads hdepth⟩

/-- An operand is missing its parenthesis two levels deep, and a statement is read behind it. -/
theorem ofCursor_afterExpression_unclosed :
    let tokens := (Scan.ofSource "f(1, -(2; print 3;").tokens
    let d := (Parser.outermostExpression (.ofTokens tokens)).next
    (Parser.outermostExpression (.ofTokens tokens)).value?.isNone ∧ d.faults = [] ∧
      d.depth = 0 ∧ (ofCursor d).statements.length = 1 ∧
      (ofCursor d).statements = (Shift.ids 3).stmts (ofTokens (tokens.drop 7)).statements ∧
      (ofCursor d).faults = (ofTokens (tokens.drop 7)).faults := by
  intro tokens d
  have hclean : d.faults = [] := by decide +kernel
  have hid : d.nextId = 3 := by decide +kernel
  have hposition : ((Cursor.ofTokens tokens).taken d).length = 7 := by decide +kernel
  obtain ⟨hdepth, -, -, hread⟩ := ofCursor_afterExpression tokens
  have hprogram := hread hclean
  rw [hposition, hid] at hprogram
  exact ⟨by decide +kernel, hclean, hdepth, by decide +kernel, hprogram⟩

end Program

end LamScope

import LamScope.Proofs.Analysis.Permission
import LamScope.Proofs.Reading.Appended
import LamScope.Proofs.Reading.Nesting
import LamScope.Proofs.Scope.Distances
import LamScope.Proofs.Scope.Moved
import LamScope.Proofs.Token.Appended

/-!
# Analyses of texts behind texts

Main statement: two faultless texts with a newline between them are analysed as each of them is
alone, the second one moved, and may run if both may.
-/
namespace LamScope

open Course

namespace Locals

/-- A table holds its records in the order of their numbers. -/
theorem entries_ofRecords {records entries : List (Nat × Nat)} (hperm : entries.Perm records)
    (hincreasing : entries.Pairwise fun a b => a.1 < b.1) :
    (ofRecords records).entries = entries := by
  have hdistinct : (records.map Prod.fst).Nodup := by
    refine (hperm.map Prod.fst).nodup_iff.mp (List.pairwise_map.mpr ?_)
    exact hincreasing.imp fun h => Nat.ne_of_lt h
  refine List.Perm.eq_of_pairwise ?_ (ofRecords records).increasing hincreasing
    ((ofRecords_perm hdistinct).trans hperm.symm)
  intro a b _ _ hab hba
  exact (Nat.lt_asymm hab hba).elim

end Locals

namespace Gate

theorem permits_add (gate : Gate) (e e' w w' : Nat) :
    gate.permits (e + e') (w + w') = (gate.permits e w && gate.permits e' w') := by
  rw [Bool.eq_iff_iff]
  cases gate with
  | always => simp [permits]
  | errors => simp [permits]
  | any =>
      simp [permits]
      omega

end Gate

namespace Analysis

/-- How a text is moved that stands behind a first one and a newline. -/
def shiftBehind (first : String) : Shift :=
  Scan.shiftBehind first (Program.lastCursor (.ofTokens (Scan.ofSource first).tokens)).nextId

/-- The third analysis finds what the first one does and then what the second one does, moved. -/
structure Joins (g : Shift) (a b both : Analysis) : Prop where
  program : both.program = a.program ++ g.stmts b.program
  scanFaults : both.scanFaults = []
  syntaxFaults : both.syntaxFaults = []
  records : both.records = a.records ++ b.records.map g.record
  locals : both.locals.entries = a.locals.entries ++ b.locals.entries.map g.record
  findings : both.findings = a.findings ++ b.findings.map g.finding
  aborted : both.aborted = none
  mayExecute : both.mayExecute = (a.mayExecute && b.mayExecute)

theorem isWarning_finding (g : Shift) (f : Finding) : (g.finding f).isWarning = f.isWarning := by
  obtain ⟨cause, _, _⟩ := f
  cases cause <;> rfl

theorem warnings_append (g : Shift) (fs fs' : List Finding) :
    warnings (fs ++ fs'.map g.finding) = warnings fs + warnings fs' := by
  unfold warnings
  rw [List.countP_append, List.countP_map]
  exact congrArg (_ + List.countP · fs') (funext (isWarning_finding g))

theorem errors_append (g : Shift) (fs fs' : List Finding) :
    errors (fs ++ fs'.map g.finding) = errors fs + errors fs' := by
  unfold errors
  rw [List.countP_append, List.countP_map]
  exact congrArg (_ + List.countP · fs')
    (funext fun f => congrArg not (isWarning_finding g f))

variable {gate : Gate} {source first second : String}

theorem traceable_ofSource (source : String) :
    Traceable (Program.ofSource source).statements
      (resolve defaultLimit (Program.ofSource source).statements).records :=
  traceable_resolve
    (Program.ofCursor_numbered (Cursor.closed_ofTokens _)).toWellNumbered defaultLimit

/-- The numbers recorded for a program were drawn for it. -/
theorem lt_of_mem_entries {r : Nat × Nat}
    (h : r ∈ (Locals.ofRecords
      (resolve defaultLimit (Program.ofSource source).statements).records).entries) :
    r.1 < (shiftBehind source).id := by
  have hnumbered := Program.ofCursor_numbered (Cursor.closed_ofTokens (Scan.ofSource source).tokens)
  obtain ⟨o, ho, hrecord, -⟩ := (traceable_ofSource source).named r h
  have href := (references_perm _).mem_iff.mp (List.mem_map_of_mem ho)
  have hid := (Stmt.allReferences_hold _).subset (List.mem_map_of_mem href)
  rw [← Occurrence.id_of_record?_eq_some hrecord]
  exact (hnumbered.range o.id hid).2

section
variable (hfirst : (Scan.ofSource first).faults = [])
  (hfirst' : (Program.ofSource first).faults = [])
  (hsecond : (Scan.ofSource second).faults = [])
  (hsecond' : (Program.ofSource second).faults = [])
  (hsize : Text.byteLength (first ++ "\n" ++ second).toList < UInt32.size)
include hfirst hfirst' hsecond hsecond' hsize

theorem program_append :
    (Program.ofSource (first ++ "\n" ++ second)).statements =
        (Program.ofSource first).statements ++
          (shiftBehind first).stmts (Program.ofSource second).statements ∧
      (Program.ofSource (first ++ "\n" ++ second)).faults = [] := by
  have htokens := Scan.ofSource_eq (Scan.filterMap_fault?_of_faults_eq_nil hfirst)
  have htokens' := Scan.ofSource_eq (Scan.filterMap_fault?_of_faults_eq_nil hsecond)
  have hnoElse : Token.NoElse (Scan.allTokens second) := by
    have h := Program.noElse_of_faults_eq_nil hsecond'
    rwa [htokens', Cursor.ofTokens_concat (fun _ => Scan.kind_of_mem_allTokens) rfl] at h
  have hid : (shiftBehind first).id = (Program.lastCursor
      (.ofTokens (Scan.allTokens first ++ [Scan.endToken first.toList]))).nextId := by
    rw [shiftBehind, htokens]
    rfl
  have hboth := Scan.ofSource_append_newline hsize hfirst hsecond (shiftBehind first).id
  unfold Program.ofSource at hfirst' hsecond' ⊢
  rw [htokens] at hfirst'
  rw [htokens'] at hsecond'
  have hread := Program.ofTokens_append (t := Scan.endToken first.toList)
    (u := Scan.endToken second.toList) (shiftBehind first)
    (fun _ => Scan.kind_of_mem_allTokens) (fun _ => Scan.kind_of_mem_allTokens) rfl rfl hid
    hfirst' hnoElse
  rw [hsecond'] at hread
  rw [hboth, htokens, htokens']
  exact hread

theorem ofSource_append (gate : Gate) :
    Joins (shiftBehind first) (ofSource ⟨gate, defaultLimit⟩ first)
      (ofSource ⟨gate, defaultLimit⟩ second)
      (ofSource ⟨gate, defaultLimit⟩ (first ++ "\n" ++ second)) := by
  obtain ⟨hstatements, hfaults⟩ := program_append hfirst hfirst' hsecond hsecond' hsize
  have hscan : (Scan.ofSource (first ++ "\n" ++ second)).faults = [] := by
    rw [Scan.ofSource_append_newline hsize hfirst hsecond 0]
  have hcompletes (source : String) :
      (resolve defaultLimit (Program.ofSource source).statements).stopped = none :=
    Program.stopped_resolve_ofTokens (Scan.ofSource source).tokens
  have hstopped := hcompletes (first ++ "\n" ++ second)
  rw [hstatements] at hstopped
  have hfindings := findings_resolve_append (shiftBehind first) (hcompletes first)
    (hcompletes second) hstopped
  have hrecords := records_resolve_append (shiftBehind first) (hcompletes first)
    (hcompletes second) hstopped
  rw [ofSource_of_clean hfirst hfirst', ofSource_of_clean hsecond hsecond',
    ofSource_of_clean hscan hfaults, hstatements]
  refine ⟨hstatements, hscan, hfaults, hrecords, ?_, hfindings, hstopped, ?_⟩
  · unfold locals ofVisit
    dsimp only
    rw [hrecords]
    refine Locals.entries_ofRecords ?_ (List.pairwise_append.mpr ⟨Locals.increasing _, ?_, ?_⟩)
    · exact (traceable_ofSource first).kept.append ((traceable_ofSource second).kept.map _)
    · exact List.pairwise_map.mpr ((Locals.increasing _).imp fun h => Nat.add_lt_add_right h _)
    · intro r hr r' hr'
      obtain ⟨s, -, rfl⟩ := List.mem_map.mp hr'
      exact Nat.lt_of_lt_of_le (lt_of_mem_entries hr) (Nat.le_add_left _ _)
  · unfold ofVisit
    dsimp only
    rw [hstopped, hcompletes, hcompletes, hfindings, errors_append, warnings_append,
      Gate.permits_add]
    rfl

end

/-- An `if` that could go on with an `else`, and a comment at the end of the first text. -/
theorem ofSource_append_openIf :
    let first := "{ var a; if (a) a = 1; } if (true) { var b; } // ü"
    let second := "{ var c = c; print c; fun f(x) { return x + c; } f(c); }"
    (Scan.ofSource first).faults = [] ∧ (Program.ofSource first).faults = [] ∧
      (Scan.ofSource second).faults = [] ∧ (Program.ofSource second).faults = [] ∧
      Text.byteLength (first ++ "\n" ++ second).toList < UInt32.size ∧
      ∀ gate, Joins (shiftBehind first) (ofSource ⟨gate, defaultLimit⟩ first)
        (ofSource ⟨gate, defaultLimit⟩ second)
        (ofSource ⟨gate, defaultLimit⟩ (first ++ "\n" ++ second)) := by
  refine ⟨by decide +kernel, by decide +kernel, by decide +kernel, by decide +kernel,
    by decide +kernel, ?_⟩
  exact ofSource_append (by decide +kernel) (by decide +kernel) (by decide +kernel)
    (by decide +kernel) (by decide +kernel)

end Analysis

end LamScope

import Mathlib.Data.List.Infix

/-!
# Runs of characters

A run of characters of one class is as long as it can be if what stands behind it begins with
another character, or if nothing does.
-/
namespace LamScope.Text
variable {f : Char → Bool} {run rest cs : List Char}

/-- Nothing more of a class stands in front. -/
def Stops (f : Char → Bool) (cs : List Char) : Prop := ∀ c, cs.head? = some c → f c = false

theorem stops_nil : Stops f [] := nofun

theorem stops_cons {c : Char} (h : f c = false) (cs : List Char) : Stops f (c :: cs) := by
  intro d hd
  rwa [← Option.some.inj hd]

theorem forall_bne {d : Char} (h : d ∉ run) : ∀ c ∈ run, (c != d) = true := fun c hc => by
  simpa using fun hd : c = d => h (hd ▸ hc)

theorem takeWhile_run (hrun : ∀ c ∈ run, f c = true) (hrest : Stops f rest) :
    (run ++ rest).takeWhile f = run := by
  have hnone : rest.takeWhile f = [] := by
    cases rest with
    | nil => rfl
    | cons c rest => exact List.takeWhile_cons_of_neg (by simp [hrest c rfl])
  rw [List.takeWhile_append_of_pos hrun, hnone, List.append_nil]

theorem dropWhile_run (hrun : ∀ c ∈ run, f c = true) (hrest : Stops f rest) :
    (run ++ rest).dropWhile f = rest := by
  rw [List.dropWhile_append_of_pos hrun]
  cases rest with
  | nil => rfl
  | cons c rest => exact List.dropWhile_cons_of_neg (by simp [hrest c rfl])

theorem stops_dropWhile (f : Char → Bool) (cs : List Char) : Stops f (cs.dropWhile f) := by
  intro c hc
  have hnot := List.head?_dropWhile_not f cs
  rw [hc] at hnot
  simpa using hnot

/-- A run at the start of a text is part of the longest one. -/
theorem isPrefix_takeWhile (hrun : ∀ c ∈ run, f c = true) (h : run <+: cs) :
    run <+: cs.takeWhile f := by
  obtain ⟨rest, rfl⟩ := h
  rw [List.takeWhile_append_of_pos hrun]
  exact List.prefix_append _ _

end LamScope.Text

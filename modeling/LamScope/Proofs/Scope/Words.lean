import LamScope.Proofs.Scope.Findings
import Mathlib.Data.List.Perm.Subperm

/-!
# Words of findings

What is reported in the course of a program is reported of its words. Main statement: also where a
walk stops, every finding stands at a word of the program, and what it refers to is another one.
-/
namespace LamScope

/-- The places that a finding shows, its own first. -/
def Finding.spans (f : Finding) : List Span :=
  f.span :: match f.cause with
    | .duplicate _ previous => [previous]
    | .selfReference _ outer => outer.toList
    | .unused _ | .strayReturn => []

/-- The finding stands at one of the words and refers to others of them. -/
def Finding.Among (ws : List Word) (f : Finding) : Prop :=
  ∃ w vs, (w :: vs).Subperm ws ∧ f.line = w.line ∧ f.spans = (w :: vs).map Word.span

theorem Finding.Among.mono {ws vs : List Word} {f : Finding} (h : f.Among ws)
    (hs : ws.Subperm vs) : f.Among vs := by
  obtain ⟨w, others, hwords, hplace⟩ := h
  exact ⟨w, others, hwords.trans hs, hplace⟩

namespace Log

theorem words_append (log log' : Log) : words (log ++ log') = log.words ++ log'.words :=
  List.filterMap_append

theorem mem_words_of_last?_eq_some {log : Log} {x : String} {w : Word}
    (h : log.last? x = some w) : w ∈ log.words :=
  List.mem_reverse.mp (List.mem_of_find?_eq_some h)

end Log

theorem flatMap_words_extend (around : List Log) (log : Log) :
    ((extend around log).flatMap Log.words).Subperm (log.words ++ around.flatMap Log.words) := by
  cases around with
  | nil => exact List.nil_subperm
  | cons innermost outer =>
      rw [extend, List.flatMap_cons, List.flatMap_cons, Log.words_append, ← List.append_assoc]
      exact (List.perm_append_comm.append_right _).subperm

namespace Course

/-- The word that something may be reported of at a step. -/
def Step.word? : Step → Option Word
  | declare w | read _ w | ret w => some w
  | define _ | assign .. => none

mutual

def Item.words : Item → List Word
  | step s => s.word?.toList
  | frame _ body => allWords body

def Item.allWords : List Item → List Word
  | [] => []
  | i :: is => i.words ++ allWords is

end

/-- The word of a step, and the words declared in the scopes around it. -/
def Moment.words : Moment → List Word
  | doing s around _ => s.word?.toList ++ around.flatMap Log.words
  | leaving log => log.words

namespace Item

theorem allWords_cons (i : Item) (is : List Item) : allWords (i :: is) = i.words ++ allWords is :=
  rfl

theorem allWords_append (xs ys : List Item) : allWords (xs ++ ys) = allWords xs ++ allWords ys := by
  induction xs with
  | nil => rfl
  | cons i xs ih => rw [List.cons_append, allWords, allWords, ih, List.append_assoc]

theorem words_update? (i : Item) : (Log.words i.update?.toList).Subperm i.words := by
  cases i with
  | frame => exact List.nil_subperm
  | step s =>
      cases s with
      | declare w => exact .refl _
      | define | read | assign | ret => exact List.nil_subperm

theorem words_log (items : List Item) : (log items).words.Subperm (allWords items) := by
  induction items with
  | nil => exact .refl _
  | cons i is ih =>
      rw [← List.singleton_append, log_append, log_singleton, Log.words_append]
      exact i.words_update?.append ih

mutual

/-- At every moment there are words of the program, each as often as there at most. -/
theorem words_moments : ∀ (around : List Log) (enclosure : Enclosure) (i : Item),
    ∀ m ∈ i.moments around enclosure,
      m.words.Subperm (i.words ++ around.flatMap Log.words)
  | around, enclosure, step s, m, hm => by
      obtain rfl := List.mem_singleton.mp hm
      exact .refl _
  | around, enclosure, frame callable body, m, hm => by
      rcases List.mem_append.mp hm with hm | hm
      · exact words_allMoments ([] :: around) (callable.getD enclosure) body m hm
      · obtain rfl := List.mem_singleton.mp hm
        exact (words_log body).trans (List.sublist_append_left _ _).subperm

theorem words_allMoments : ∀ (around : List Log) (enclosure : Enclosure) (items : List Item),
    ∀ m ∈ allMoments around enclosure items,
      m.words.Subperm (allWords items ++ around.flatMap Log.words)
  | around, enclosure, i :: is, m, hm => by
      rw [allWords, List.append_assoc]
      rcases List.mem_append.mp hm with hm | hm
      · refine (words_moments around enclosure i m hm).trans ?_
        exact (List.Subperm.refl _).append (List.sublist_append_right _ _).subperm
      · have hextend := (flatMap_words_extend around i.update?.toList).trans
          (i.words_update?.append (.refl _))
        refine (words_allMoments _ enclosure is m hm).trans
          (((List.Subperm.refl _).append hextend).trans ?_)
        rw [← List.append_assoc, ← List.append_assoc]
        exact (List.perm_append_comm.append_right _).subperm

end

end Item

variable {around : List Log} {w : Word} {f : Finding}

theorem among_of_mem_duplicates (h : f ∈ duplicates around w) :
    f.Among (w :: around.flatMap Log.words) := by
  unfold duplicates at h
  rw [Option.mem_toList, Option.map_eq_some_iff] at h
  obtain ⟨previous, hprevious, rfl⟩ := h
  obtain ⟨log, hlog, hlast⟩ := Option.bind_eq_some_iff.mp hprevious
  refine ⟨w, [previous], (List.subperm_cons w).mpr (List.singleton_subperm_iff.mpr ?_), rfl, rfl⟩
  exact List.mem_flatMap.mpr
    ⟨log, List.mem_of_mem_head? hlog, Log.mem_words_of_last?_eq_some hlast⟩

theorem among_of_mem_selfReferences (h : f ∈ selfReferences around w) :
    f.Among (w :: around.flatMap Log.words) := by
  unfold selfReferences at h
  split at h
  · obtain rfl := List.mem_singleton.mp h
    cases houter : around.tail.findSome? (·.last? w.text) with
    | none => exact ⟨w, [], (List.subperm_cons w).mpr List.nil_subperm, rfl, rfl⟩
    | some outer =>
        obtain ⟨log, hlog, hlast⟩ := List.exists_of_findSome?_eq_some houter
        refine ⟨w, [outer], (List.subperm_cons w).mpr (List.singleton_subperm_iff.mpr ?_), rfl, rfl⟩
        exact List.mem_flatMap.mpr
          ⟨log, List.mem_of_mem_tail hlog, Log.mem_words_of_last?_eq_some hlast⟩
  · cases h

theorem among_of_mem_strayReturns {enclosure : Enclosure} (h : f ∈ strayReturns enclosure w) :
    f.Among [w] := by
  unfold strayReturns at h
  split at h
  · cases h
  · obtain rfl := List.mem_singleton.mp h
    exact ⟨w, [], .refl _, rfl, rfl⟩

theorem Moment.among_of_mem_findings {m : Moment} (h : f ∈ m.findings) : f.Among m.words := by
  cases m with
  | leaving log =>
      obtain ⟨w, hw, rfl⟩ := List.mem_map.mp h
      have hlast := log.last?_eq_some_of_mem_unused hw
      exact ⟨w, [], List.singleton_subperm_iff.mpr (Log.mem_words_of_last?_eq_some hlast), rfl, rfl⟩
  | doing s around enclosure =>
      cases s with
      | declare w => exact among_of_mem_duplicates h
      | define w => cases h
      | read id w => exact among_of_mem_selfReferences h
      | assign id w => cases h
      | ret keyword =>
          exact (among_of_mem_strayReturns h).mono (List.sublist_append_left [keyword] _).subperm

end Course

open Course

/-- Every finding stands at a word of the program and refers to others. -/
theorem among_of_mem_findings {limit : Nat} {statements : List Stmt} {f : Finding}
    (h : f ∈ (resolve limit statements).findings) :
    f.Among (Item.allWords (Stmt.allItems statements)) := by
  obtain ⟨m, hm, hf⟩ := List.mem_flatMap.mp ((isPrefix_findings limit statements).subset h)
  have hwords := Item.words_allMoments [] .topLevel _ m hm
  rw [List.flatMap_nil, List.append_nil] at hwords
  exact (Moment.among_of_mem_findings hf).mono hwords

end LamScope

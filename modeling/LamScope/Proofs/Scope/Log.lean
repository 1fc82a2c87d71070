import LamScope.Scope.Stack
import Mathlib.Data.List.Basic
import Mathlib.Data.List.Induction

/-!
# Logs of a scope

A log lists what happened directly in one scope. The frame of the scope can be read off it: a name
is known by its last declaration, and it is defined and used by what came after that declaration;
its position is that of its first declaration.
-/
namespace LamScope

/-- A change of the innermost frame. -/
inductive Update where
  | declared (w : Word)
  | defined (x : String)
  | used (x : String)
deriving DecidableEq, Repr

namespace Update

def apply : Update → Frame → Frame
  | declared w => Frame.put w.text (.declaredAt w)
  | defined x => Frame.adjust x fun b => { b with defined := true }
  | used x => Frame.adjust x fun b => { b with used := true }

def word? : Update → Option Word
  | declared w => some w
  | _ => none

def declares (x : String) (u : Update) : Bool := u.word?.any (·.text == x)

end Update

/-- The last of some words that spells a name. -/
def Word.last? (x : String) (words : List Word) : Option Word :=
  words.reverse.find? (·.text == x)

/-- What happened directly in a scope, the first change first. -/
abbrev Log := List Update

namespace Log
variable (log : Log) (u : Update) (x : String)

def words : List Word := log.filterMap Update.word?

def declares : Bool := log.any (·.declares x)

/-- The last declaration of a name. -/
def last? : Option Word := Word.last? x log.words

/-- What came after the last declaration of a name, the last change first. -/
def sinceLast : List Update := log.reverse.takeWhile fun u => !u.declares x

def definedSince : Bool := (log.sinceLast x).contains (.defined x)

def usedSince : Bool := (log.sinceLast x).contains (.used x)

/-- The names declared, in the order of their first declarations. -/
def names : List String := (log.words.map (·.text)).eraseDups

/-- What the log says of a name. -/
def binding? : Option Binding :=
  (log.last? x).map fun w => ⟨log.definedSince x, log.usedSince x, w.line, w.span⟩

/-- The last declarations of the names that were not used after them. -/
def unused : List Word :=
  log.names.filterMap fun x => if log.usedSince x then none else log.last? x

/-- The frame of the scope. -/
def frame : Frame := log.foldl (fun f u => u.apply f) []

theorem words_concat : words (log ++ [u]) = log.words ++ u.word?.toList := by
  cases h : u.word? <;> simp [words, List.filterMap_append, h]

theorem last?_concat :
    last? (log ++ [u]) x = if u.declares x then u.word? else log.last? x := by
  unfold last? Word.last? Update.declares
  rw [words_concat]
  cases u.word? with
  | none => simp
  | some w => cases h : w.text == x <;> simp [h]

theorem declares_append (log' : Log) :
    declares (log ++ log') x = (log.declares x || log'.declares x) := by
  simp [declares]

theorem declares_singleton : declares [u] x = u.declares x := by
  simp [declares]

theorem sinceLast_concat :
    sinceLast (log ++ [u]) x = if u.declares x then [] else u :: log.sinceLast x := by
  unfold sinceLast
  cases h : u.declares x <;> simp [h]

theorem frame_concat : frame (log ++ [u]) = u.apply log.frame := by
  simp [frame]

theorem text_of_last?_eq_some {w : Word} (h : log.last? x = some w) : w.text = x := by
  simpa using List.find?_some h

theorem last?_isSome : (log.last? x).isSome = log.declares x := by
  induction log using List.reverseRecOn with
  | nil => rfl
  | append_singleton log u ih =>
      rw [last?_concat]
      cases h : u.declares x with
      | true =>
          have hw : u.word?.isSome := by
            cases hu : u.word? <;> simp [Update.declares, hu] at h ⊢
          simp [declares, h, hw]
      | false => simpa [declares, h] using ih

theorem binding?_declared (w : Word) :
    binding? (log ++ [.declared w]) x =
      if x = w.text then some (.declaredAt w) else log.binding? x := by
  unfold binding? definedSince usedSince
  rw [last?_concat, sinceLast_concat]
  by_cases h : x = w.text
  · simp [Update.declares, Update.word?, h, Binding.declaredAt]
  · have h' : ¬ w.text = x := fun he => h he.symm
    simp [Update.declares, Update.word?, h, h']

theorem binding?_defined (y : String) :
    binding? (log ++ [.defined y]) x =
      if x = y then (log.binding? x).map fun b => { b with defined := true }
      else log.binding? x := by
  unfold binding? definedSince usedSince
  rw [last?_concat, sinceLast_concat]
  by_cases h : x = y <;> simp [Update.declares, Update.word?, h, Function.comp_def]

theorem binding?_used (y : String) :
    binding? (log ++ [.used y]) x =
      if x = y then (log.binding? x).map fun b => { b with used := true }
      else log.binding? x := by
  unfold binding? definedSince usedSince
  rw [last?_concat, sinceLast_concat]
  by_cases h : x = y <;> simp [Update.declares, Update.word?, h, Function.comp_def]

/-- A name is bound in the frame as the log says. -/
theorem find?_frame : log.frame.find? x = log.binding? x := by
  induction log using List.reverseRecOn with
  | nil => rfl
  | append_singleton log u ih =>
      rw [frame_concat]
      cases u with
      | declared w => rw [Update.apply, Frame.find?_put, ih, binding?_declared]
      | defined y => rw [Update.apply, Frame.find?_adjust, ih, binding?_defined]
      | used y => rw [Update.apply, Frame.find?_adjust, ih, binding?_used]

end Log

namespace Frame

theorem map_fst_adjust (x : String) (change : Binding → Binding) (f : Frame) :
    (adjust x change f).map Prod.fst = f.map Prod.fst := by
  induction f with
  | nil => rfl
  | cons e rest ih =>
      obtain ⟨y, b⟩ := e
      by_cases h : y = x <;> simp [adjust, h, ih]

theorem map_fst_put (x : String) (b : Binding) (f : Frame) :
    (put x b f).map Prod.fst =
      if x ∈ f.map Prod.fst then f.map Prod.fst else f.map Prod.fst ++ [x] := by
  induction f with
  | nil => rfl
  | cons e rest ih =>
      obtain ⟨y, old⟩ := e
      by_cases h : y = x
      · simp [put, h]
      · have h' : ¬ x = y := fun he => h he.symm
        rw [put, if_neg h, List.map_cons, ih]
        by_cases hm : x ∈ rest.map Prod.fst <;> simp [h', hm]

/-- Where no name occurs twice, the unused names are found one by one. -/
theorem unused_eq (f : Frame) (h : (f.map Prod.fst).Nodup) :
    f.unused = (f.map Prod.fst).filterMap fun x =>
      (f.find? x).bind fun b => if b.used then none else some ⟨x, b.line, b.span⟩ := by
  induction f with
  | nil => rfl
  | cons e rest ih =>
      obtain ⟨y, b⟩ := e
      rw [List.map_cons, List.nodup_cons] at h
      have hfind : ∀ x ∈ rest.map Prod.fst, find? x ((y, b) :: rest) = find? x rest := by
        intro x hx
        have hne : ¬ y = x := by
          rintro rfl
          exact h.1 hx
        rw [find?, if_neg hne]
      have hrest := ih h.2
      rw [← List.filterMap_congr fun x hx => congrArg (Option.bind · _) (hfind x hx)] at hrest
      unfold unused at hrest ⊢
      rw [List.filterMap_cons, hrest, List.map_cons, List.filterMap_cons]
      cases hb : b.used <;> simp [find?, hb]

end Frame

namespace Log
variable (log : Log) (u : Update) (x : String)

theorem names_declared (w : Word) :
    names (log ++ [.declared w]) =
      if w.text ∈ log.names then log.names else log.names ++ [w.text] := by
  have hwords : (words (log ++ [.declared w])).map (·.text) =
      log.words.map (·.text) ++ [w.text] := by simp [words_concat, Update.word?]
  unfold names
  rw [hwords, List.eraseDups_append]
  by_cases h : w.text ∈ log.words.map (·.text)
  · rw [if_pos (List.mem_eraseDups.mpr h), List.cons_removeAll]
    simp [h]
  · rw [if_neg fun hm => h (List.mem_eraseDups.mp hm), List.cons_removeAll]
    simp [h, List.eraseDups_cons]

theorem names_concat_of_word?_eq_none (h : u.word? = none) : names (log ++ [u]) = log.names := by
  simp [names, words_concat, h]

/-- The frame holds the names in the order of their first declarations. -/
theorem map_fst_frame : log.frame.map Prod.fst = log.names := by
  induction log using List.reverseRecOn with
  | nil => rfl
  | append_singleton log u ih =>
      rw [frame_concat]
      cases u with
      | declared w => rw [Update.apply, Frame.map_fst_put, ih, names_declared]
      | defined y =>
          rw [Update.apply, Frame.map_fst_adjust, ih, names_concat_of_word?_eq_none _ _ rfl]
      | used y =>
          rw [Update.apply, Frame.map_fst_adjust, ih, names_concat_of_word?_eq_none _ _ rfl]

theorem nodup_names : log.names.Nodup := by
  induction log using List.reverseRecOn with
  | nil => exact List.nodup_nil
  | append_singleton log u ih =>
      cases u with
      | declared w =>
          rw [names_declared]
          split
          · exact ih
          · rename_i h
            rw [List.nodup_append]
            refine ⟨ih, List.pairwise_singleton _ _, fun y hy z hz he => ?_⟩
            rw [List.mem_singleton] at hz
            exact h (hz ▸ he ▸ hy)
      | defined y => rwa [names_concat_of_word?_eq_none _ _ rfl]
      | used y => rwa [names_concat_of_word?_eq_none _ _ rfl]

theorem mem_names : x ∈ log.names ↔ log.declares x = true := by
  unfold names declares Update.declares words
  rw [List.mem_eraseDups, List.mem_map, List.any_eq_true]
  constructor
  · rintro ⟨w, hw, rfl⟩
    obtain ⟨u, hu, hword⟩ := List.mem_filterMap.mp hw
    exact ⟨u, hu, by simp [hword]⟩
  · rintro ⟨u, hu, hdeclares⟩
    cases hword : u.word? with
    | none => simp [hword] at hdeclares
    | some w =>
        have hw : w.text = x := by simpa [hword] using hdeclares
        exact ⟨w, List.mem_filterMap.mpr ⟨u, hu, hword⟩, hw⟩

theorem last?_eq_some_of_mem_unused {w : Word} (h : w ∈ log.unused) :
    log.last? w.text = some w := by
  obtain ⟨x, -, hx⟩ := List.mem_filterMap.mp h
  cases hused : log.usedSince x with
  | true => simp [hused] at hx
  | false =>
      have hlast : log.last? x = some w := by simpa [hused] using hx
      rwa [log.text_of_last?_eq_some x hlast]

/-- The unused names come in the order of their first declarations. -/
theorem map_text_unused :
    log.unused.map (·.text) = log.names.filter fun x => !log.usedSince x := by
  unfold unused
  rw [List.map_filterMap, ← List.filterMap_eq_filter]
  refine List.filterMap_congr fun x hx => ?_
  have hdeclares := log.mem_names x |>.mp hx
  rw [← last?_isSome] at hdeclares
  obtain ⟨w, hw⟩ := Option.isSome_iff_exists.mp hdeclares
  have htext := log.text_of_last?_eq_some x hw
  cases h : log.usedSince x <;> simp [h, hw, htext, Option.guard]

/-- What the frame gives as unused. -/
theorem unused_frame : log.frame.unused = log.unused := by
  rw [Frame.unused_eq log.frame (log.map_fst_frame ▸ log.nodup_names), map_fst_frame, unused]
  refine List.filterMap_congr fun x _ => ?_
  rw [find?_frame, binding?]
  cases h : log.last? x with
  | none => simp
  | some w =>
      have hw := log.text_of_last?_eq_some x h
      cases log.usedSince x with
      | true => rfl
      | false =>
          subst hw
          rfl

end Log

end LamScope

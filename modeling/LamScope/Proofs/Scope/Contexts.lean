import LamScope.Proofs.Scope.Levels
import LamScope.Proofs.Scope.Trace

/-!
# What stands around a statement

A program with one place left open is a context; a statement may be put into the place, or the
place may be closed. A walk over the whole takes in the statement at one point: what it emits before
that point does not depend on the statement, and what it emits afterwards depends only on what the
statement does directly in the scope in which it stands.
-/
namespace LamScope

open Course

namespace Course

/-- What items in the given scopes emit. -/
def Item.events (around : List Log) (enclosure : Enclosure) (items : List Item) : List Event :=
  (allMoments around enclosure items).flatMap Moment.events

theorem Item.events_append (around : List Log) (enclosure : Enclosure) (xs ys : List Item) :
    events around enclosure (xs ++ ys) =
      events around enclosure xs ++ events (extend around (log xs)) enclosure ys := by
  rw [events, allMoments_append, List.flatMap_append]
  rfl

theorem Item.events_frame (around : List Log) (enclosure : Enclosure)
    (callable : Option Enclosure) (body : List Item) :
    events around enclosure [.frame callable body] =
      events ([] :: around) (callable.getD enclosure) body ++
        (log body).unused.map fun w => .report (unusedFinding w) := by
  simp [events, allMoments, moments, Moment.events, Moment.findings, Moment.occurrence?]

/-- Items among which one place is left open. -/
inductive Setting where
  | gap
  | among (before : List Item) (inner : Setting) (after : List Item)
  | framed (callable : Option Enclosure) (inner : Setting)

namespace Setting

def fill : Setting → List Item → List Item
  | gap, items => items
  | among before inner after, items => before ++ inner.fill items ++ after
  | framed callable inner, items => [.frame callable (inner.fill items)]

/-- The scopes around the place, if the whole stands in the given ones. -/
def scopes : Setting → List Log → List Log
  | gap, around => around
  | among before inner _, around => inner.scopes (extend around (Item.log before))
  | framed _ inner, around => inner.scopes ([] :: around)

def enclosure : Setting → Enclosure → Enclosure
  | gap, kind => kind
  | among _ inner _, kind => inner.enclosure kind
  | framed callable inner, kind => inner.enclosure (callable.getD kind)

/-- What is done directly in the scope of the whole, if this is done directly at the place. -/
def log : Setting → Log → Log
  | gap, done => done
  | among before inner after, done => Item.log before ++ inner.log done ++ Item.log after
  | framed .., _ => []

/-- What is emitted before the place is reached. -/
def before : Setting → List Log → Enclosure → List Event
  | gap, _, _ => []
  | among before inner _, around, kind =>
      Item.events around kind before ++ inner.before (extend around (Item.log before)) kind
  | framed callable inner, around, kind => inner.before ([] :: around) (callable.getD kind)

/-- What is emitted after the place, if this was done directly at it. -/
def after : Setting → List Log → Enclosure → Log → List Event
  | gap, _, _, _ => []
  | among before inner after, around, kind, done =>
      inner.after (extend around (Item.log before)) kind done ++
        Item.events (extend around (Item.log before ++ inner.log done)) kind after
  | framed callable inner, around, kind, done =>
      inner.after ([] :: around) (callable.getD kind) done ++
        (inner.log done).unused.map fun w => .report (unusedFinding w)

theorem log_fill (k : Setting) (items : List Item) :
    Item.log (k.fill items) = k.log (Item.log items) := by
  induction k with
  | gap => rfl
  | among before inner after ih =>
      rw [fill, Item.log_append, Item.log_append, ih]
      rfl
  | framed callable inner ih => rfl

theorem events_fill (k : Setting) (around : List Log) (kind : Enclosure) (items : List Item) :
    Item.events around kind (k.fill items) =
      k.before around kind ++ Item.events (k.scopes around) (k.enclosure kind) items ++
        k.after around kind (Item.log items) := by
  induction k generalizing around kind with
  | gap => simp [fill, before, scopes, enclosure, after]
  | among xs inner ys ih =>
      rw [fill, Item.events_append, Item.events_append, ih, Item.log_append, log_fill]
      simp only [before, scopes, enclosure, after, List.append_assoc]
  | framed callable inner ih =>
      rw [fill, Item.events_frame, ih, log_fill]
      simp only [before, scopes, enclosure, after, List.append_assoc]

end Setting

end Course

theorem Stmt.allItems_singleton (s : Stmt) : allItems [s] = s.items := by
  rw [allItems, allItems, List.append_nil]

theorem Stmt.allHeight_append (xs ys : List Stmt) :
    allHeight (xs ++ ys) = max (allHeight xs) (allHeight ys) := by
  induction xs with
  | nil => exact (Nat.zero_max _).symm
  | cons s xs ih => rw [List.cons_append, allHeight, allHeight, ih, Nat.max_assoc]

theorem Callable.allBodyHeight_append (xs ys : List Callable) :
    allBodyHeight (xs ++ ys) = max (allBodyHeight xs) (allBodyHeight ys) := by
  induction xs with
  | nil => exact (Nat.zero_max _).symm
  | cons c xs ih => rw [List.cons_append, allBodyHeight, allBodyHeight, ih, Nat.max_assoc]

/-- A statement in which one place is left open. The place is that of a statement among others, or
that of a branch or of the body of a loop. -/
inductive Shell where
  | gap
  | block (node : Node) (before : List Stmt) (inner : Shell) (after : List Stmt)
  | function (node : Node) (name : Word) (params : List Word) (before : List Stmt) (inner : Shell)
      (after : List Stmt)
  | method (node : Node) (name : Word) (earlier : List Callable) (label : Word)
      (params : List Word) (before : List Stmt) (inner : Shell) (after : List Stmt)
      (later : List Callable)
  | ifThen (node : Node) (cond : Expr) (inner : Shell)
  | thenElse (node : Node) (cond : Expr) (inner : Shell) (otherwise : Stmt)
  | orElse (node : Node) (cond : Expr) (body : Stmt) (inner : Shell)
  | loop (node : Node) (cond : Expr) (inner : Shell)

namespace Shell

/-- An empty block takes the place of what is missing in a branch. -/
def branch (s : Option Stmt) : Stmt := s.getD (.block default [])

/-- Puts a statement into the open place, or closes the place if there is none. -/
def fill : Shell → Option Stmt → Option Stmt
  | gap, s => s
  | block node before inner after, s =>
      some (.block node (before ++ (inner.fill s).toList ++ after))
  | function node name params before inner after, s =>
      some (.function node ⟨name, params, before ++ (inner.fill s).toList ++ after⟩)
  | method node name earlier label params before inner after later, s =>
      some (.classDef node name
        (earlier ++ ⟨label, params, before ++ (inner.fill s).toList ++ after⟩ :: later))
  | ifThen node cond inner, s => some (.ifThen node cond (branch (inner.fill s)))
  | thenElse node cond inner otherwise, s =>
      some (.ifThenElse node cond (branch (inner.fill s)) otherwise)
  | orElse node cond body inner, s =>
      some (.ifThenElse node cond body (branch (inner.fill s)))
  | loop node cond inner, s => some (.loop node cond (branch (inner.fill s)))

/-- Declares a name and defines it at once. -/
def naming (w : Word) : List Item := [.step (.declare w), .step (.define w)]

def setting : Shell → Setting
  | gap => .gap
  | block _ before inner after =>
      .framed none (.among (Stmt.allItems before) inner.setting (Stmt.allItems after))
  | function _ name params before inner after =>
      .among (naming name)
        (.framed (some .function)
          (.among (Word.parameterItems params ++ Stmt.allItems before) inner.setting
            (Stmt.allItems after))) []
  | method _ name earlier _ params before inner after later =>
      .among (naming name ++ Stmt.methodItems earlier)
        (.framed (some .method)
          (.among (Word.parameterItems params ++ Stmt.allItems before) inner.setting
            (Stmt.allItems after))) (Stmt.methodItems later)
  | ifThen _ cond inner | loop _ cond inner => .among cond.items inner.setting []
  | thenElse _ cond inner otherwise => .among cond.items inner.setting otherwise.items
  | orElse _ cond body inner => .among (cond.items ++ body.items) inner.setting []

/-- What stands at the open place: the statement put into it, or an empty block if a branch is
missing. -/
def Holds (s : Option Stmt) (items : List Item) : Prop :=
  items = Stmt.allItems s.toList ∨ s = none ∧ items = [.frame none []]

theorem eq_gap_of_fill_eq_none {k : Shell} {s : Option Stmt} (h : k.fill s = none) :
    k = gap ∧ s = none := by
  cases k with
  | gap => exact ⟨rfl, h⟩
  | block | function | method | ifThen | thenElse | orElse | loop => cases h

theorem exists_items_branch {k : Shell} {s : Option Stmt} {items : List Item}
    (hs : Holds s items) (h : Stmt.allItems (k.fill s).toList = k.setting.fill items) :
    ∃ items, Holds s items ∧ (branch (k.fill s)).items = k.setting.fill items := by
  cases hfill : k.fill s with
  | some t =>
      rw [hfill, Option.toList_some, Stmt.allItems_singleton] at h
      exact ⟨items, hs, h⟩
  | none =>
      obtain ⟨rfl, rfl⟩ := eq_gap_of_fill_eq_none hfill
      exact ⟨_, .inr ⟨rfl, rfl⟩, rfl⟩

theorem allItems_among {xs ys : List Stmt} {t : Option Stmt} {k : Setting} {items : List Item}
    (h : Stmt.allItems t.toList = k.fill items) :
    Stmt.allItems (xs ++ t.toList ++ ys) =
      (Setting.among (Stmt.allItems xs) k (Stmt.allItems ys)).fill items := by
  rw [Stmt.allItems_eq, List.flatMap_append, List.flatMap_append, ← Stmt.allItems_eq,
    ← Stmt.allItems_eq, ← Stmt.allItems_eq, h]
  rfl

/-- A filled shell does what its setting does around what stands at the open place. -/
theorem exists_items_fill (k : Shell) (s : Option Stmt) :
    ∃ items, Holds s items ∧ Stmt.allItems (k.fill s).toList = k.setting.fill items := by
  induction k with
  | gap => exact ⟨_, .inl rfl, rfl⟩
  | block node xs inner ys ih =>
      obtain ⟨items, hs, h⟩ := ih
      refine ⟨items, hs, ?_⟩
      rw [fill, Option.toList_some, Stmt.allItems_singleton, Stmt.items, allItems_among h]
      rfl
  | function node name params xs inner ys ih =>
      obtain ⟨items, hs, h⟩ := ih
      refine ⟨items, hs, ?_⟩
      rw [fill, Option.toList_some, Stmt.allItems_singleton, Stmt.items, Stmt.callableItem,
        allItems_among h]
      simp [setting, Setting.fill, naming]
  | method node name earlier label params xs inner ys later ih =>
      obtain ⟨items, hs, h⟩ := ih
      refine ⟨items, hs, ?_⟩
      rw [fill, Option.toList_some, Stmt.allItems_singleton, Stmt.items, Stmt.methodItems_eq,
        List.flatMap_append, List.flatMap_cons, ← Stmt.methodItems_eq, ← Stmt.methodItems_eq,
        Stmt.callableItem, allItems_among h]
      simp [setting, Setting.fill, naming]
  | ifThen node cond inner ih | loop node cond inner ih =>
      obtain ⟨items, hs, h⟩ := ih
      obtain ⟨items, hs, h⟩ := exists_items_branch hs h
      refine ⟨items, hs, ?_⟩
      rw [fill, Option.toList_some, Stmt.allItems_singleton, Stmt.items, h]
      simp [setting, Setting.fill]
  | thenElse node cond inner otherwise ih =>
      obtain ⟨items, hs, h⟩ := ih
      obtain ⟨items, hs, h⟩ := exists_items_branch hs h
      refine ⟨items, hs, ?_⟩
      rw [fill, Option.toList_some, Stmt.allItems_singleton, Stmt.items, h]
      rfl
  | orElse node cond body inner ih =>
      obtain ⟨items, hs, h⟩ := ih
      obtain ⟨items, hs, h⟩ := exists_items_branch hs h
      refine ⟨items, hs, ?_⟩
      rw [fill, Option.toList_some, Stmt.allItems_singleton, Stmt.items, h]
      simp [setting, Setting.fill]

/-- What takes the place of a missing branch is no higher than any statement. -/
theorem height_branch_le {s t : Option Stmt} (h : Stmt.allHeight s.toList ≤ Stmt.allHeight t.toList)
    (ht : t.isSome) : (branch s).height ≤ (branch t).height := by
  obtain ⟨b, rfl⟩ := Option.isSome_iff_exists.mp ht
  cases s with
  | none => exact b.height_pos
  | some a => simpa [Stmt.allHeight, branch] using h

/-- Closing the place makes nothing higher. -/
theorem allHeight_closed_le (k : Shell) (s : Stmt) :
    Stmt.allHeight (k.fill none).toList ≤ Stmt.allHeight (k.fill (some s)).toList := by
  have hsome (k : Shell) : (k.fill (some s)).isSome := by cases k <;> rfl
  induction k with
  | gap => exact Nat.zero_le _
  | block node xs inner ys ih =>
      simp only [fill, Option.toList_some, Stmt.allHeight, Stmt.height, Stmt.allHeight_append]
      omega
  | function node name params xs inner ys ih =>
      simp only [fill, Option.toList_some, Stmt.allHeight, Stmt.height, Callable.bodyHeight,
        Stmt.allHeight_append]
      omega
  | method node name earlier label params xs inner ys later ih =>
      simp only [fill, Option.toList_some, Stmt.allHeight, Stmt.height,
        Callable.allBodyHeight_append, Callable.allBodyHeight, Callable.bodyHeight,
        Stmt.allHeight_append]
      omega
  | ifThen node cond inner ih | loop node cond inner ih | thenElse node cond inner _ ih
  | orElse node cond _ inner ih =>
      have hle := height_branch_le ih (hsome inner)
      simp only [fill, Option.toList_some, Stmt.allHeight, Stmt.height]
      omega

end Shell

/-- A program in which the place of one statement is left open. -/
structure Context where
  before : List Stmt
  shell : Shell
  after : List Stmt

namespace Context
variable {k : Context} {limit : Nat} {s : Stmt}

/-- Puts a statement into the open place, or closes the place if there is none. -/
def fill (k : Context) (s : Option Stmt) : List Stmt :=
  k.before ++ (k.shell.fill s).toList ++ k.after

def setting (k : Context) : Setting :=
  .among (Stmt.allItems k.before) k.shell.setting (Stmt.allItems k.after)

/-- The scopes around the open place. -/
def scopes (k : Context) : List Log := k.setting.scopes []

def enclosure (k : Context) : Enclosure := k.setting.enclosure .topLevel

/-- What a walk emits before it reaches the open place. -/
def eventsBefore (k : Context) : List Event := k.setting.before [] .topLevel

/-- What a walk emits after the open place, if this was done directly at it. -/
def eventsAfter (k : Context) (done : Log) : List Event := k.setting.after [] .topLevel done

theorem trace_of_allItems {statements : List Stmt} {items : List Item}
    (h : Stmt.allItems statements = k.setting.fill items)
    (hcompleted : (resolve limit statements).stopped = none) :
    (resolve limit statements).trace =
      k.eventsBefore ++ Item.events k.scopes k.enclosure items ++
        k.eventsAfter (Item.log items) := by
  rw [trace_resolve hcompleted, Stmt.course, h]
  exact Setting.events_fill _ _ _ _

/-- What is emitted before and after a statement does not depend on the statement, but for what it
does directly in its scope. -/
theorem trace_fill (h : (resolve limit (k.fill (some s))).stopped = none) :
    (resolve limit (k.fill (some s))).trace =
      k.eventsBefore ++ Item.events k.scopes k.enclosure s.items ++
        k.eventsAfter (Item.log s.items) := by
  obtain ⟨items, hs, hitems⟩ := k.shell.exists_items_fill (some s)
  rcases hs with rfl | ⟨hnone, -⟩
  · rw [Option.toList_some, Stmt.allItems_singleton] at hitems
    exact trace_of_allItems (Shell.allItems_among hitems) h
  · cases hnone

/-- A walk completes just if nothing is higher than its limit. -/
theorem stopped_eq_none_iff {statements : List Stmt} :
    (resolve limit statements).stopped = none ↔ Stmt.allHeight statements ≤ limit := by
  have hstopped := (Walk.program_passes limit statements .start).stopped
  have hiff := Stmt.allStop?_eq_none_iff statements 1 (Nat.le_add_left 1 limit)
  rw [resolve_eq, hstopped]
  refine hiff.trans ?_
  omega

/-- If the statement is left out, a walk completes too, and emits nothing else around it. -/
theorem trace_closed (h : (resolve limit (k.fill (some s))).stopped = none) :
    (resolve limit (k.fill none)).stopped = none ∧
      (resolve limit (k.fill none)).trace = k.eventsBefore ++ k.eventsAfter [] := by
  have hcompleted : (resolve limit (k.fill none)).stopped = none := by
    rw [stopped_eq_none_iff] at h ⊢
    have hle := k.shell.allHeight_closed_le s
    simp only [fill, Stmt.allHeight_append] at h ⊢
    omega
  refine ⟨hcompleted, ?_⟩
  obtain ⟨items, hs, hitems⟩ := k.shell.exists_items_fill none
  have htrace : (resolve limit (k.fill none)).trace = _ :=
    trace_of_allItems (Shell.allItems_among hitems) hcompleted
  -- neither nothing nor an empty block emits or does anything
  have hquiet : Item.events k.scopes k.enclosure items = [] ∧ Item.log items = [] := by
    rcases hs with rfl | ⟨-, rfl⟩ <;> exact ⟨rfl, rfl⟩
  rw [htrace, hquiet.1, hquiet.2, List.append_nil]

end Context

end LamScope

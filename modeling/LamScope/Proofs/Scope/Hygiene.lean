import LamScope.Proofs.Reading.ForLoops
import LamScope.Proofs.Scope.Declarations
import LamScope.Proofs.Scope.Distances
import LamScope.Proofs.Scope.Words

/-!
# Scopes of a `for`

The variable of a `for` has a scope of its own, and the body with the increment another one in it,
in which the body declares nothing, for it is no declaration. Main statement: what is recorded of
the increment is the same for all bodies, the variable is found in the condition, the increment and
a block at the distances 0, 1 and 2, and what follows does not depend on the loop.
-/
namespace LamScope

open Course Grammar

/-- How many scopes lie between the innermost one and the nearest that declares the name. -/
def distanceIn (around : List Log) (x : String) : Option Nat := around.findIdx? (·.declares x)

theorem Log.unused_eq_nil {log : Log} (h : log.words = []) : log.unused = [] := by
  simp [unused, names, h]

theorem Log.declares_eq_any (log : Log) (x : String) :
    log.declares x = log.words.any (·.text == x) := by
  unfold Log.declares Log.words
  rw [List.any_filterMap]
  rfl

/-- What declares other names only does not change how far out a name is declared. -/
theorem distanceIn_extend {around : List Log} {log : Log} {x : String}
    (h : ∀ w ∈ log.words, w.text ≠ x) :
    distanceIn (extend around log) x = distanceIn around x := by
  refine findIdx?_extend around log x ?_
  rw [log.declares_eq_any, List.any_eq_false]
  simpa using h

theorem distanceIn_nil_cons (around : List Log) (x : String) :
    distanceIn ([] :: around) x = (distanceIn around x).map (· + 1) := by
  unfold distanceIn
  rw [List.findIdx?_cons]
  rfl

theorem distanceIn_of_declares {log : Log} {x : String} (h : log.declares x = true)
    (around : List Log) : distanceIn (log :: around) x = some 0 := by
  unfold distanceIn
  rw [List.findIdx?_cons, h]
  rfl

namespace Course

theorem Step.words_update? {st : Step} (h : ∃ id w, st = .read id w ∨ st = .assign id w) :
    Log.words st.update?.toList = [] := by
  obtain ⟨id, w, rfl | rfl⟩ := h <;> rfl

theorem Item.events_step (around : List Log) (kind : Enclosure) (st : Step) (items : List Item) :
    events around kind (.step st :: items) =
      (Moment.doing st around kind).events ++
        events (extend around st.update?.toList) kind items := by
  simp [events, allMoments, moments, Item.update?]

/-- Where no declaration is open, a variable that is read or assigned is recorded and not
reported. -/
theorem Moment.events_of_reference {around : List Log} (h : Awaiting around none)
    {kind : Enclosure} {st : Step} (hst : ∃ id w, st = .read id w ∨ st = .assign id w) :
    (Moment.doing st around kind).events =
      (st.reference?.bind fun r => (distanceIn around r.2.text).map (.record r.1)).toList := by
  obtain ⟨id, w, rfl | rfl⟩ := hst
  · have hquiet : selfReferences around w = [] := by
      rw [selfReferences_eq h]
      simp [Site.finding?]
    simp only [Moment.events, Moment.findings, hquiet, Moment.occurrence?, Option.bind_some,
      Occurrence.record?, Occurrence.distance?, Step.reference?, distanceIn]
    cases around.findIdx? (·.declares w.text) <;> rfl
  · simp only [Moment.events, Moment.findings, Moment.occurrence?, Option.bind_some,
      Occurrence.record?, Occurrence.distance?, Step.reference?, distanceIn]
    cases around.findIdx? (·.declares w.text) <;> rfl

/-- A variable that is read or assigned is recorded, reported or not. -/
theorem Moment.record_mem_events {around : List Log} {st : Step} {r : Nat × Word} {n : Nat}
    (hst : st.reference? = some r) (h : distanceIn around r.2.text = some n) (kind : Enclosure) :
    .record r.1 n ∈ (Moment.doing st around kind).events := by
  refine List.mem_append_right _ ?_
  unfold distanceIn at h
  cases st with
  | read id w | assign id w =>
      cases hst
      simp [Moment.occurrence?, Occurrence.record?, Occurrence.distance?, h]
  | declare | define | ret => cases hst

end Course

/-- The records of the variables of an expression in the order of the walk, if names are declared
so far out. -/
def Expr.recorded (distance : String → Option Nat) (e : Expr) : List Event :=
  (e.steps.filterMap Step.reference?).filterMap fun r => (distance r.2.text).map (.record r.1)

theorem Expr.words_log (e : Expr) : (Item.log e.items).words = [] := (e.visits none).words

/-- Where no declaration is open, an expression is walked without a finding. -/
theorem Expr.events_items (e : Expr) {around : List Log} (h : Awaiting around none)
    (kind : Enclosure) : Item.events around kind e.items = e.recorded (distanceIn around) := by
  have hsteps : ∀ st ∈ e.steps, ∃ id w, st = .read id w ∨ st = .assign id w :=
    fun _ => e.eq_read_or_assign
  unfold items recorded
  -- no step declares anything, so that each sees the names as far out as the one before it
  generalize e.steps = steps at hsteps
  induction steps generalizing around with
  | nil => rfl
  | cons st steps ih =>
      obtain ⟨hst, hsteps⟩ := List.forall_mem_cons.mp hsteps
      have hwords := Step.words_update? hst
      have hawaits : Awaiting (extend around st.update?.toList) none := by
        obtain ⟨id, w, rfl | rfl⟩ := hst
        · exact (Item.visits_read id w none).awaiting h
        · exact (Item.visits_assign id w none).awaiting h
      have hdistance : distanceIn (extend around st.update?.toList) = distanceIn around :=
        funext fun x => distanceIn_extend (by simp [hwords])
      rw [List.map_cons, Item.events_step, ih hawaits hsteps, hdistance,
        Moment.events_of_reference h hst, List.filterMap_cons]
      obtain ⟨id, w, rfl | rfl⟩ := hst <;>
        cases hd : distanceIn around w.text <;> simp [Step.reference?, hd]

/-- Open declarations do not matter for what is recorded. -/
theorem Expr.record_mem_events (e : Expr) {around : List Log} {x : String} {n : Nat}
    (h : distanceIn around x = some n) (kind : Enclosure) :
    ∀ r ∈ e.references, r.2.text = x → .record r.1 n ∈ Item.events around kind e.items := by
  intro r hr hx
  have hsteps : ∀ st ∈ e.steps, ∃ id w, st = .read id w ∨ st = .assign id w :=
    fun _ => e.eq_read_or_assign
  rw [← e.steps_references.mem_iff] at hr
  unfold items
  generalize e.steps = steps at hsteps hr
  induction steps generalizing around with
  | nil => cases hr
  | cons st steps ih =>
      obtain ⟨hst, hothers⟩ := List.forall_mem_cons.mp hsteps
      have hwords := Step.words_update? hst
      have hrest : distanceIn (extend around st.update?.toList) x = some n := by
        rw [distanceIn_extend (by simp [hwords]), h]
      obtain ⟨q, hq⟩ : ∃ q, st.reference? = some q := by
        obtain ⟨id, w, rfl | rfl⟩ := hst <;> exact ⟨_, rfl⟩
      rw [List.map_cons, Item.events_step]
      rw [List.filterMap_cons_some hq] at hr
      rcases List.mem_cons.mp hr with rfl | hr
      · exact List.mem_append_left _ (Moment.record_mem_events hq (hx ▸ h) kind)
      · exact List.mem_append_right _ (ih hrest hothers hr)

theorem Expr.record_mem_recorded (e : Expr) {distance : String → Option Nat} {x : String}
    {n : Nat} (h : distance x = some n) :
    ∀ r ∈ e.references, r.2.text = x → .record r.1 n ∈ e.recorded distance := by
  intro r hr hx
  refine List.mem_filterMap.mpr ⟨r, e.steps_references.mem_iff.mpr hr, ?_⟩
  rw [hx, h]
  rfl

/-- The variables that a statement reads and assigns in the scope in which it stands. -/
def Stmt.direct : Stmt → List (Nat × Word)
  | block .. | function .. | classDef .. => []
  | var _ _ value | ret _ _ value => Expr.optionReferences value
  | expr _ value | print _ value => value.references
  | ifThen _ cond body | loop _ cond body => cond.references ++ body.direct
  | ifThenElse _ cond body otherwise => cond.references ++ body.direct ++ otherwise.direct

section
variable {x : String} {n : Nat}

theorem Expr.record_mem_clauseEvents (clause : Option Expr) {around : List Log}
    (h : distanceIn around x = some n) (kind : Enclosure) :
    ∀ r ∈ optionReferences clause, r.2.text = x →
      .record r.1 n ∈ Item.events around kind (clauseItems clause) := by
  cases clause with
  | none => exact fun r hr => absurd hr List.not_mem_nil
  | some e => exact e.record_mem_events h kind

/-- In a scope that does not declare the name itself its nearest declaration stays where it was. -/
theorem Stmt.record_mem_events : ∀ (s : Stmt) {around : List Log} (kind : Enclosure),
    distanceIn around x = some n → (∀ w ∈ s.declared, w.text ≠ x) →
      ∀ r ∈ s.direct, r.2.text = x → .record r.1 n ∈ Item.events around kind s.items
  | .block .., _, _, _, _, _, hr, _ | .function .., _, _, _, _, _, hr, _
  | .classDef .., _, _, _, _, _, hr, _ => absurd hr List.not_mem_nil
  | .expr _ value, _, kind, h, _, r, hr, hx | .print _ value, _, kind, h, _, r, hr, hx =>
      value.record_mem_events h kind r hr hx
  | .ret _ keyword value, around, kind, h, _, r, hr, hx => by
      have hrest : distanceIn (extend around []) x = some n :=
        (distanceIn_extend (List.forall_mem_nil _)).trans h
      rw [items, Item.events_step]
      exact List.mem_append_right _ (Expr.record_mem_clauseEvents value hrest kind r hr hx)
  | .var _ name init, around, kind, h, hother, r, hr, hx => by
      have hname : ∀ w ∈ Log.words [.declared name], w.text ≠ x := hother
      have hrest : distanceIn (extend around [.declared name]) x = some n :=
        (distanceIn_extend hname).trans h
      rw [items, List.cons_append, Item.events_step, Item.events_append]
      exact List.mem_append_right _ (List.mem_append_left _
        (Expr.record_mem_clauseEvents init hrest kind r hr hx))
  | .ifThen _ cond body, around, kind, h, hother, r, hr, hx
  | .loop _ cond body, around, kind, h, hother, r, hr, hx => by
      have hrest : distanceIn (extend around (Item.log cond.items)) x = some n :=
        (distanceIn_extend (by simp [cond.words_log])).trans h
      rw [items, Item.events_append]
      rcases List.mem_append.mp hr with hr | hr
      · exact List.mem_append_left _ (cond.record_mem_events h kind r hr hx)
      · exact List.mem_append_right _ (body.record_mem_events kind hrest hother r hr hx)
  | .ifThenElse _ cond body otherwise, around, kind, h, hother, r, hr, hx => by
      obtain ⟨hbody, hotherwise⟩ := List.forall_mem_append.mp hother
      have hrest : distanceIn (extend around (Item.log cond.items)) x = some n :=
        (distanceIn_extend (by simp [cond.words_log])).trans h
      have hwords : (Item.log (cond.items ++ body.items)).words = body.declared := by
        rw [Item.log_append, Log.words_append, cond.words_log, body.visits.words, List.nil_append]
      have hlast : distanceIn (extend around (Item.log (cond.items ++ body.items))) x = some n :=
        (distanceIn_extend (hwords ▸ hbody)).trans h
      rw [items, Item.events_append, Item.events_append]
      rcases List.mem_append.mp hr with hr | hr
      · rcases List.mem_append.mp hr with hr | hr
        · exact List.mem_append_left _ (List.mem_append_left _
            (cond.record_mem_events h kind r hr hx))
        · exact List.mem_append_left _ (List.mem_append_right _
            (body.record_mem_events kind hrest hbody r hr hx))
      · exact List.mem_append_right _ (otherwise.record_mem_events kind hlast hotherwise r hr hx)

/-- The same for statements in a row. -/
theorem Stmt.record_mem_allEvents (ss : List Stmt) {around : List Log} (kind : Enclosure)
    (h : distanceIn around x = some n) (hother : ∀ w ∈ ss.flatMap Stmt.declared, w.text ≠ x) :
    ∀ r ∈ ss.flatMap Stmt.direct, r.2.text = x →
      .record r.1 n ∈ Item.events around kind (allItems ss) := by
  induction ss generalizing around with
  | nil => exact fun r hr => absurd hr List.not_mem_nil
  | cons s ss ih =>
      intro r hr hx
      rw [List.flatMap_cons] at hother hr
      obtain ⟨hfirst, hothers⟩ := List.forall_mem_append.mp hother
      rw [allItems, Item.events_append]
      rcases List.mem_append.mp hr with hr | hr
      · exact List.mem_append_left _ (s.record_mem_events kind h hfirst r hr hx)
      · refine List.mem_append_right _ (ih ?_ hothers r hr hx)
        rw [distanceIn_extend (by rw [s.visits.words]; exact hfirst), h]

end

/-- What is no declaration declares nothing in the scope in which it stands. -/
theorem Grammar.Statement.declared_eq_nil : ∀ {dangling : Bool} {ts : List Token} {s : Stmt},
    Statement dangling ts s → s.declared = []
  | _, _, _, .expr .. | _, _, _, .print .. | _, _, _, .ret .. | _, _, _, .block .. => rfl
  | _, _, _, .ifThen _ _ _ hbody | _, _, _, .loop _ _ _ hbody => hbody.declared_eq_nil
  | _, _, _, .ifThenElse _ _ _ hbody _ hotherwise => by
      rw [Stmt.declared, hbody.declared_eq_nil, hotherwise.declared_eq_nil]
      rfl
  | _, _, _, @Statement.forLoop _ _ _ _ _ _ _ _ _ init _ increment _ _ _ _ _ _ _ _ _ _ _ _ _
      hbody => by
      cases init with
      | some init => rfl
      | none =>
          cases increment with
          | some e => rfl
          | none => exact hbody.declared_eq_nil

/-- All clauses of the `for` are there, and the first one declares a variable. -/
structure ForLoop.Full (l : ForLoop) (x : Word) (start cond step : Expr) : Prop where
  init : ∃ declared, l.init = some (.var declared x (some start))
  cond : l.cond = some cond
  increment : l.increment = some step

/-- A variable with its initialiser. -/
def Word.variableItems (x : Word) (start : Expr) : List Item :=
  .step (.declare x) :: (start.items ++ [.step (.define x)])

theorem ForLoop.Full.items_tree {l : ForLoop} {x : Word} {start cond step : Expr}
    (h : l.Full x start cond step) (body : Stmt) :
    (l.tree body).items =
      [.frame none (x.variableItems start ++ cond.items ++
        [.frame none (body.items ++ step.items)])] := by
  obtain ⟨⟨declared, hinit⟩, hcond, hincrement⟩ := h
  simp [tree, hinit, hcond, hincrement, withInit, orTrue, withIncrement, Stmt.items,
    Stmt.allItems, Expr.clauseItems, Word.variableItems]

/-- The variable is declared and defined before the condition. -/
theorem Word.variable_visits (x : Word) (start : Expr) :
    Item.Visits (x.variableItems start) none none
      (fun scopes => Stmt.sites scopes (.var default x (some start))) [x] := by
  simpa [Stmt.items, Expr.clauseItems, variableItems, Stmt.declared] using
    (Stmt.var default x (some start)).visits

/-- What a walk emits around a `for` with all clauses and in it, and how far out names are declared,
seen from the condition. -/
structure LoopEvents where
  before : List Event
  opening : List Event
  distance : String → Option Nat
  inside : Stmt → List Event
  closing : List Event
  after : List Event

namespace LoopEvents

/-- The increment stands one scope further in than the condition. -/
def further (v : LoopEvents) (y : String) : Option Nat := (v.distance y).map (· + 1)

def trace (v : LoopEvents) (cond step : Expr) (body : Stmt) : List Event :=
  v.before ++
    (v.opening ++ cond.recorded v.distance ++ (v.inside body ++ step.recorded v.further) ++
      v.closing) ++
    v.after

end LoopEvents

namespace Context
variable (k : Context) (x : Word) (start cond : Expr)

/-- The scopes around the condition of a `for` in the open place. -/
def condScopes : List Log := Item.log (x.variableItems start) :: k.scopes

/-- The scopes around the block of body and increment. -/
def loopScopes : List Log := extend (k.condScopes x start) (Item.log cond.items)

/-- The events of a `for` in the open place. -/
def loopEvents : LoopEvents where
  before := k.eventsBefore
  opening := Item.events ([] :: k.scopes) k.enclosure (x.variableItems start)
  distance := distanceIn (k.condScopes x start)
  inside body := Item.events ([] :: k.loopScopes x start cond) k.enclosure body.items
  closing := (Item.log (x.variableItems start ++ cond.items)).unused.map fun w =>
    .report (unusedFinding w)
  after := k.eventsAfter []

theorem distance_loopEvents : (k.loopEvents x start cond).distance x.text = some 0 := by
  refine distanceIn_of_declares ?_ _
  rw [Log.declares_eq_any, (x.variable_visits start).words]
  simp

/-- Where nothing is declared in the block of body and increment, names are one scope further out
than in the condition. -/
theorem distanceIn_repeated {log : Log} (h : log.words = []) :
    distanceIn (log :: k.loopScopes x start cond) = (k.loopEvents x start cond).further := by
  funext y
  have hblock : distanceIn (extend ([] :: k.loopScopes x start cond) log) y = _ :=
    distanceIn_extend (by simp [h])
  have hloop : distanceIn (k.loopScopes x start cond) y = distanceIn (k.condScopes x start) y :=
    distanceIn_extend (by simp [cond.words_log])
  calc distanceIn (log :: k.loopScopes x start cond) y
      = distanceIn ([] :: k.loopScopes x start cond) y := hblock
    _ = (distanceIn (k.loopScopes x start cond) y).map (· + 1) := distanceIn_nil_cons _ y
    _ = (distanceIn (k.condScopes x start) y).map (· + 1) := by rw [hloop]

theorem events_cond :
    Item.events (k.condScopes x start) k.enclosure cond.items =
      cond.recorded (k.loopEvents x start cond).distance :=
  cond.events_items ((x.variable_visits start).awaiting (awaiting_nil_log k.scopes)) k.enclosure

variable {start cond} {step : Expr} {body : Stmt}

/-- The body declares nothing, so that the increment sees only what is declared around the body. -/
theorem events_repeated (hbody : body.declared = []) :
    Item.events (k.loopScopes x start cond) k.enclosure [.frame none (body.items ++ step.items)] =
      (k.loopEvents x start cond).inside body ++
        step.recorded (k.loopEvents x start cond).further := by
  have hwords : (Item.log body.items).words = [] := body.visits.words.trans hbody
  have hopen : Awaiting (Item.log body.items :: k.loopScopes x start cond) none :=
    body.visits.awaiting (awaiting_nil_log _)
  have hstep := step.events_items hopen k.enclosure
  rw [distanceIn_repeated k x start cond hwords] at hstep
  -- where nothing is declared nothing is reported as unused when the scope ends
  have hquiet : (Item.log (body.items ++ step.items)).unused = [] := by
    refine Log.unused_eq_nil ?_
    rw [Item.log_append, Log.words_append, hwords, step.words_log]
    rfl
  rw [Item.events_frame, Item.events_append, hquiet, ← hstep]
  exact List.append_nil _

variable {x} {l : ForLoop}

theorem events_tree (hl : l.Full x start cond step) (hbody : body.declared = []) :
    Item.events k.scopes k.enclosure (l.tree body).items =
      (k.loopEvents x start cond).opening ++
        cond.recorded (k.loopEvents x start cond).distance ++
        ((k.loopEvents x start cond).inside body ++
          step.recorded (k.loopEvents x start cond).further) ++
        (k.loopEvents x start cond).closing := by
  have hlog : Item.log (x.variableItems start ++ cond.items ++
      [.frame none (body.items ++ step.items)]) =
        Item.log (x.variableItems start ++ cond.items) := by
    rw [Item.log_append]
    exact List.append_nil _
  rw [hl.items_tree, Item.events_frame, Item.events_append, Item.events_append, hlog,
    Item.log_append, extend_append, ← events_cond, ← events_repeated k x hbody,
    ← Item.log_append]
  rfl

variable {k} {limit : Nat}

theorem trace_loop (hl : l.Full x start cond step) (hbody : body.declared = [])
    (h : (resolve limit (k.fill (some (l.tree body)))).stopped = none) :
    (resolve limit (k.fill (some (l.tree body)))).trace =
      (k.loopEvents x start cond).trace cond step body := by
  rw [trace_fill h, events_tree k hl hbody, hl.items_tree]
  rfl

/-- In a block that does not declare it itself the variable is found two scopes out. -/
theorem record_mem_inside (node : Node) {ss : List Stmt}
    (h : ∀ w ∈ ss.flatMap Stmt.declared, w.text ≠ x.text) :
    ∀ r ∈ ss.flatMap Stmt.direct, r.2.text = x.text →
      .record r.1 2 ∈ (k.loopEvents x start cond).inside (.block node ss) := by
  have htwo : distanceIn ([] :: [] :: k.loopScopes x start cond) x.text = some 2 := by
    have hfurther : (k.loopEvents x start cond).further x.text = some 1 := by
      rw [LoopEvents.further, distance_loopEvents]
      rfl
    rw [distanceIn_nil_cons, distanceIn_repeated k x start cond rfl, hfurther]
    rfl
  intro r hr hx
  have hmem := Stmt.record_mem_allEvents ss k.enclosure htwo h r hr hx
  change _ ∈ Item.events _ _ (Stmt.block node ss).items
  rw [Stmt.items, Item.events_frame]
  exact List.mem_append_left _ hmem

end Context

/-- What the scopes of a `for` do for its clauses and for what stands around it. -/
structure LoopEvents.Hygienic (v : LoopEvents) (k : Context) (l : ForLoop) (x : Word)
    (cond step : Expr) : Prop where
  nearest : v.distance x.text = some 0
  /-- What is recorded of the increment is the same for all bodies. -/
  walk : ∀ {limit : Nat} {dangling : Bool} {ts : List Token} {body : Stmt},
    Statement dangling ts body →
    (resolve limit (k.fill (some (l.tree body)))).stopped = none →
    (resolve limit (k.fill (some (l.tree body)))).trace = v.trace cond step body
  block : ∀ (node : Node) {ss : List Stmt},
    (∀ w ∈ ss.flatMap Stmt.declared, w.text ≠ x.text) →
    ∀ r ∈ ss.flatMap Stmt.direct, r.2.text = x.text →
      .record r.1 2 ∈ v.inside (.block node ss)
  /-- Without the loop the rest is walked as with it. -/
  left : ∀ {limit : Nat} {body : Stmt},
    (resolve limit (k.fill (some (l.tree body)))).stopped = none →
    (resolve limit (k.fill none)).stopped = none ∧
      (resolve limit (k.fill none)).trace = v.before ++ v.after

/-- The variable of a `for` is recorded at these distances, and nothing else is recorded of the
nodes that name it. -/
structure LoopRecords (records : List (Nat × Nat)) (x : Word) (cond step : Expr) (body : Stmt) :
    Prop where
  distinct : (records.map Prod.fst).Nodup
  cond : ∀ r ∈ cond.references, r.2.text = x.text → (r.1, 0) ∈ records
  step : ∀ r ∈ step.references, r.2.text = x.text → (r.1, 1) ∈ records
  block : ∀ {node : Node} {ss : List Stmt}, body = .block node ss →
    (∀ w ∈ ss.flatMap Stmt.declared, w.text ≠ x.text) →
    ∀ r ∈ ss.flatMap Stmt.direct, r.2.text = x.text → (r.1, 2) ∈ records

/-- The tokens begin with a `for` that stands in the open place of the context. -/
structure ForLoop.Placed (l : ForLoop) (body : Stmt) (k : Context) (tokens : List Token)
    (statements : List Stmt) : Prop where
  begins : l.Begins body tokens
  allowed : ∃ dangling ts, Statement dangling ts body
  plain : body.isDeclaration = false
  place : k.fill (some (l.tree body)) = statements

section
variable {k : Context} {l : ForLoop} {x : Word} {start cond step : Expr} {body : Stmt}

theorem Grammar.Statement.isDeclaration_eq_false {dangling : Bool} {ts : List Token} {s : Stmt}
    (h : Statement dangling ts s) : s.isDeclaration = false := by
  have hdeclared := h.declared_eq_nil
  cases s with
  | var | function | classDef => cases hdeclared
  | block | expr | print | ifThen | ifThenElse | ret | loop => rfl

theorem ForLoop.Begins.allowed {tokens : List Token} (h : l.Begins body tokens) :
    ∃ dangling ts, Statement dangling ts body := by
  obtain ⟨us, rest, -, ⟨-, -, -, -, -, -, -, hbody⟩⟩ := h
  exact ⟨_, _, hbody⟩

theorem ForLoop.Full.hygienic (hl : l.Full x start cond step) (k : Context) :
    (k.loopEvents x start cond).Hygienic k l x cond step where
  nearest := k.distance_loopEvents x start cond
  walk hbody h := Context.trace_loop hl hbody.declared_eq_nil h
  block node _ h := Context.record_mem_inside node h
  left h := Context.trace_closed h

theorem mem_records {limit : Nat} {statements : List Stmt} {id n : Nat}
    (h : .record id n ∈ (resolve limit statements).trace) :
    (id, n) ∈ (resolve limit statements).records :=
  List.mem_filterMap.mpr ⟨_, h, rfl⟩

theorem ForLoop.Full.loopRecords (hl : l.Full x start cond step) {limit : Nat}
    (hbody : body.declared = [])
    (hnumbers : NodeTree.WellNumbered (Stmt.allTrees (k.fill (some (l.tree body)))))
    (h : (resolve limit (k.fill (some (l.tree body)))).stopped = none) :
    LoopRecords (resolve limit (k.fill (some (l.tree body)))).records x cond step body := by
  have htrace := Context.trace_loop hl hbody h
  have hzero := k.distance_loopEvents x start cond
  have hone : (k.loopEvents x start cond).further x.text = some 1 := by
    rw [LoopEvents.further, hzero]
    rfl
  constructor
  · exact (traceable_resolve hnumbers limit).distinct
  · intro r hr hx
    have hmem := cond.record_mem_recorded hzero r hr hx
    exact mem_records (by simp [htrace, LoopEvents.trace, hmem])
  · intro r hr hx
    have hmem := step.record_mem_recorded hone r hr hx
    exact mem_records (by simp [htrace, LoopEvents.trace, hmem])
  · rintro node ss rfl hother r hr hx
    have hmem : Event.record r.1 2 ∈ (k.loopEvents x start cond).inside (.block node ss) :=
      Context.record_mem_inside node hother r hr hx
    exact mem_records (by simp [htrace, LoopEvents.trace, hmem])

end

namespace Program

/-- Declarations stand in braces and at top level only, also where tokens are faulty. Each `for` of
a faultless text has its place in the tree. What is recorded of its increment does not depend on its
body, its variable is found in the condition, the increment and a block at the distances 0, 1 and 2,
and the rest of the tree is walked as if the loop were not there. -/
theorem hygienic_ofTokens (tokens : List Token) :
    Stmt.AllTidy (ofTokens tokens).statements ∧
    (∀ {n start : Nat} {c d : Cursor} {s : Stmt}, Parser.forRest (.ofDepth n) start c = .ok s d →
      ∃ (l : ForLoop) (body : Stmt) (next last : Cursor),
        Parser.forHeader (.ofDepth n) c = .ok (l.init, l.cond, l.increment) next ∧
          (Levels.ofDepth n).statement next = .ok body last ∧ body.isDeclaration = false ∧
          s = l.tree body) ∧
    ((ofTokens tokens).faults = [] → ∀ {t : Token} {rest : List Token},
      t.kind = .keyword .for_ → t :: rest <:+ tokens.takeWhile (fun t => t.kind != .endOfFile) →
        ∃ k l body, ForLoop.Placed l body k (t :: rest) (ofTokens tokens).statements) ∧
    ∀ {k : Context} {l : ForLoop} {body : Stmt} {x : Word} {start cond step : Expr},
      k.fill (some (l.tree body)) = (ofTokens tokens).statements →
      (∃ dangling ts, Statement dangling ts body) → l.Full x start cond step →
        (k.loopEvents x start cond).Hygienic k l x cond step ∧
          ∀ {limit : Nat}, (resolve limit (ofTokens tokens).statements).stopped = none →
            LoopRecords (resolve limit (ofTokens tokens).statements).records x cond step body := by
  refine ⟨allTidy_ofTokens tokens, Parser.exists_of_forRest, ?_, ?_⟩
  · intro hclean t rest ht hsuffix
    obtain ⟨k, l, body, hbegins, hplace⟩ := allHoldFor_ofTokens hclean ht hsuffix
    obtain ⟨dangling, ts, hbody⟩ := hbegins.allowed
    exact ⟨k, l, body, hbegins, ⟨dangling, ts, hbody⟩, hbody.isDeclaration_eq_false, hplace⟩
  · intro k l body x start cond step hplace hbody hl
    obtain ⟨dangling, ts, hbody⟩ := hbody
    refine ⟨hl.hygienic k, fun {limit} hcompleted => ?_⟩
    have hnumbers : NodeTree.WellNumbered (Stmt.allTrees (ofTokens tokens).statements) :=
      (ofCursor_numbered (Cursor.closed_ofTokens tokens)).toWellNumbered
    rw [← hplace] at hnumbers hcompleted ⊢
    exact hl.loopRecords hbody.declared_eq_nil hnumbers hcompleted

/-- The block assigns a global that is read before it and behind the loop. -/
theorem hygienic_ofTokens_block :
    let tokens := (Scan.ofSource "for (var a = b; a; a = a) { b = a; } print b;").tokens
    ∃ (k : Context) (l : ForLoop) (node : Node) (ss : List Stmt) (x : Word)
      (start cond step : Expr),
      k.fill (some (l.tree (.block node ss))) = (ofTokens tokens).statements ∧
      (∃ dangling ts, Statement dangling ts (.block node ss)) ∧ l.Full x start cond step ∧
      (resolve defaultLimit (ofTokens tokens).statements).stopped = none ∧
      (k.loopEvents x start cond).Hygienic k l x cond step ∧
      LoopRecords (resolve defaultLimit (ofTokens tokens).statements).records x cond step
        (.block node ss) := by
  let word (x : String) (offset : Nat) : Token := ⟨⟨x, 1, ⟨offset, offset + 1⟩⟩, .name⟩
  let sign (s : Symbol) (offset : Nat) : Token := ⟨⟨s.text, 1, ⟨offset, offset + 1⟩⟩, .symbol s⟩
  let keyword (k : Keyword) (offset stop : Nat) : Token := ⟨⟨k.text, 1, ⟨offset, stop⟩⟩, .keyword k⟩
  have htokens : (Scan.ofSource "for (var a = b; a; a = a) { b = a; } print b;").tokens =
      [keyword .for_ 0 3, sign .leftParen 4, keyword .var_ 5 8, word "a" 9, sign .equal 11,
        word "b" 13, sign .semicolon 14, word "a" 16, sign .semicolon 17, word "a" 19,
        sign .equal 21, word "a" 23, sign .rightParen 24, sign .leftBrace 26, word "b" 28,
        sign .equal 30, word "a" 32, sign .semicolon 33, sign .rightBrace 35,
        keyword .print_ 37 42, word "b" 43, sign .semicolon 44,
        ⟨⟨"", 1, ⟨45, 45⟩⟩, .endOfFile⟩] := by
    decide +kernel
  have htree : (ofTokens (Scan.ofSource
      "for (var a = b; a; a = a) { b = a; } print b;").tokens).statements =
      [.block ⟨14, ⟨0, 36⟩⟩
        [.var ⟨1, ⟨5, 15⟩⟩ ⟨"a", 1, ⟨9, 10⟩⟩ (some (.read ⟨0, ⟨13, 14⟩⟩ ⟨"b", 1, ⟨13, 14⟩⟩)),
          .loop ⟨13, ⟨0, 36⟩⟩ (.read ⟨2, ⟨16, 17⟩⟩ ⟨"a", 1, ⟨16, 17⟩⟩)
            (.block ⟨12, ⟨0, 36⟩⟩
              [.block ⟨10, ⟨26, 36⟩⟩
                [.expr ⟨9, ⟨28, 34⟩⟩ (.assign ⟨8, ⟨28, 33⟩⟩ ⟨"b", 1, ⟨28, 29⟩⟩
                  (.read ⟨7, ⟨32, 33⟩⟩ ⟨"a", 1, ⟨32, 33⟩⟩))],
                .expr ⟨11, ⟨19, 24⟩⟩ (.assign ⟨5, ⟨19, 24⟩⟩ ⟨"a", 1, ⟨19, 20⟩⟩
                  (.read ⟨4, ⟨23, 24⟩⟩ ⟨"a", 1, ⟨23, 24⟩⟩))])],
        .print ⟨16, ⟨37, 45⟩⟩ (.read ⟨15, ⟨43, 44⟩⟩ ⟨"b", 1, ⟨43, 44⟩⟩)] := by
    rw [htokens]
    rfl
  have hplace : Context.fill ⟨[], .gap, [_]⟩
      (some (ForLoop.tree ⟨some (.var _ _ (some _)), some _, some _, _, _, default, _, _⟩
        (.block _ _))) = _ := htree.symm
  -- the block is written as the tokens of its words and signs
  have hbody : ∃ dangling ts, Statement dangling ts (.block ⟨10, ⟨26, 36⟩⟩
      [.expr ⟨9, ⟨28, 34⟩⟩ (.assign ⟨8, ⟨28, 33⟩⟩ ⟨"b", 1, ⟨28, 29⟩⟩
        (.read ⟨7, ⟨32, 33⟩⟩ ⟨"a", 1, ⟨32, 33⟩⟩))]) := by
    have hvalue : Expression [word "a" 32] (.read ⟨7, ⟨32, 33⟩⟩ ⟨"a", 1, ⟨32, 33⟩⟩) :=
      .operand ((Operand.name _ rfl).mono (by decide))
    have hassign : Expression [word "b" 28, sign .equal 30, word "a" 32]
        (.assign ⟨8, ⟨28, 33⟩⟩ ⟨"b", 1, ⟨28, 29⟩⟩ (.read ⟨7, ⟨32, 33⟩⟩ ⟨"a", 1, ⟨32, 33⟩⟩)) :=
      .assign _ rfl rfl hvalue
    have hexpr := @Statement.expr _ (sign .semicolon 33) _ ⟨9, ⟨28, 34⟩⟩ hassign rfl
    have hbraces := @Body.braces (sign .leftBrace 26) (sign .rightBrace 35) _ _ rfl
      (.some (.statement hexpr) .none) rfl
    exact ⟨false, _, .block _ hbraces⟩
  have hcompleted : (resolve defaultLimit (ofTokens (Scan.ofSource
      "for (var a = b; a; a = a) { b = a; } print b;").tokens).statements).stopped = none := by
    decide +kernel
  obtain ⟨hhygienic, hrecords⟩ :=
    (hygienic_ofTokens _).2.2.2 hplace hbody ⟨⟨_, rfl⟩, rfl, rfl⟩
  exact ⟨_, _, _, _, _, _, _, _, hplace, hbody, ⟨⟨_, rfl⟩, rfl, rfl⟩, hcompleted, hhygienic,
    hrecords hcompleted⟩

end Program

end LamScope

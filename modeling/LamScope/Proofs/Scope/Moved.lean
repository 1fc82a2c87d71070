import LamScope.Proofs.Reading.Shift
import LamScope.Proofs.Scope.Findings
import LamScope.Proofs.Scope.Records

/-!
# Courses of moved programs

The course of a moved program is the moved course of the program: what happens depends on the texts
of names and on nothing else, and places and node numbers are only handed on.
-/
namespace LamScope

open Course

namespace Shift
variable (g : Shift)

def update : Update → Update
  | .declared w => .declared (g.word w)
  | .defined x => .defined x
  | .used x => .used x

def log (l : Log) : Log := l.map g.update

def step : Step → Step
  | .declare w => .declare (g.word w)
  | .define w => .define (g.word w)
  | .read id w => .read (id + g.id) (g.word w)
  | .assign id w => .assign (id + g.id) (g.word w)
  | .ret keyword => .ret (g.word keyword)

mutual

def courseItem : Course.Item → Course.Item
  | .step s => .step (g.step s)
  | .frame callable body => .frame callable (courseItems body)

def courseItems : List Course.Item → List Course.Item
  | [] => []
  | i :: is => courseItem i :: courseItems is

end

def moment : Moment → Moment
  | .doing s around enclosure => .doing (g.step s) (around.map g.log) enclosure
  | .leaving l => .leaving (g.log l)

def findingCause : Finding.Cause → Finding.Cause
  | .duplicate name previous => .duplicate name (g.span previous)
  | .selfReference name outer => .selfReference name (outer.map g.span)
  | .unused name => .unused name
  | .strayReturn => .strayReturn

def finding (f : Finding) : Finding := ⟨g.findingCause f.cause, f.line + g.line, g.span f.span⟩

def occurrence (o : Occurrence) : Occurrence := ⟨o.id + g.id, g.word o.name, o.around.map g.log⟩

/-- A recorded distance. -/
def record (r : Nat × Nat) : Nat × Nat := (r.1 + g.id, r.2)

theorem courseItems_append (xs ys : List Course.Item) :
    g.courseItems (xs ++ ys) = g.courseItems xs ++ g.courseItems ys := by
  induction xs with
  | nil => rfl
  | cons i is ih => rw [List.cons_append, courseItems, ih, courseItems, List.cons_append]

theorem courseItems_steps (ss : List Step) :
    g.courseItems (ss.map .step) = (ss.map g.step).map .step := by
  induction ss with
  | nil => rfl
  | cons s ss ih => rw [List.map_cons, courseItems, ih, courseItem]; rfl

mutual

theorem steps_expr : ∀ e : Expr, (g.expr e).steps = e.steps.map g.step
  | .literal .. => rfl
  | .read .. => rfl
  | .assign _ _ value => by
      rw [expr, Expr.steps, Expr.steps, steps_expr value, List.map_append]
      rfl
  | .binary _ _ left right | .logical _ _ left right => by
      rw [expr, Expr.steps, Expr.steps, steps_expr left, steps_expr right, List.map_append]
  | .unary _ _ e | .group _ e | .property _ e _ => by
      rw [expr, Expr.steps, Expr.steps, steps_expr e]
  | .call _ callee args => by
      rw [expr, Expr.steps, Expr.steps, steps_expr callee, allSteps_exprs args, List.map_append]
  | .setProperty _ object _ value => by
      rw [expr, Expr.steps, Expr.steps, steps_expr object, steps_expr value, List.map_append]

theorem allSteps_exprs : ∀ es : List Expr,
    Expr.allSteps (g.exprs es) = (Expr.allSteps es).map g.step
  | [] => rfl
  | e :: es => by
      rw [exprs, Expr.allSteps, Expr.allSteps, steps_expr e, allSteps_exprs es, List.map_append]

end

theorem items_expr (e : Expr) : (g.expr e).items = g.courseItems e.items := by
  rw [Expr.items, Expr.items, steps_expr, courseItems_steps]

theorem clauseItems_map (clause : Option Expr) :
    Expr.clauseItems (clause.map g.expr) = g.courseItems (Expr.clauseItems clause) := by
  cases clause with
  | none => rfl
  | some e => exact g.items_expr e

theorem parameterItems_map (names : List Word) :
    Word.parameterItems (names.map g.word) = g.courseItems (Word.parameterItems names) := by
  induction names with
  | nil => rfl
  | cons w names ih =>
      have hcons (w : Word) (ws : List Word) : Word.parameterItems (w :: ws) =
          .step (.declare w) :: .step (.define w) :: Word.parameterItems ws := rfl
      rw [List.map_cons, hcons, hcons, ih]
      rfl

theorem name_callable (decl : Callable) : (g.callable decl).name = g.word decl.name := by
  cases decl
  rfl

mutual

theorem items_stmt : ∀ s : Stmt, (g.stmt s).items = g.courseItems s.items
  | .block _ body => by
      rw [stmt, Stmt.items, Stmt.items, allItems_stmts body]
      rfl
  | .var _ name init => by
      rw [stmt, Stmt.items, Stmt.items, clauseItems_map, courseItems_append]
      rfl
  | .function _ decl => by
      rw [stmt, Stmt.items, Stmt.items, callableItem_callable .function decl,
        name_callable]
      rfl
  | .expr _ value | .print _ value => by
      rw [stmt, Stmt.items, Stmt.items, items_expr]
  | .ifThen _ cond body | .loop _ cond body => by
      rw [stmt, Stmt.items, Stmt.items, items_expr, items_stmt body, courseItems_append]
  | .ifThenElse _ cond body otherwise => by
      rw [stmt, Stmt.items, Stmt.items, items_expr, items_stmt body, items_stmt otherwise,
        courseItems_append, courseItems_append]
  | .ret _ keyword value => by
      rw [stmt, Stmt.items, Stmt.items, clauseItems_map]
      rfl
  | .classDef _ name methods => by
      rw [stmt, Stmt.items, Stmt.items, methodItems_callables methods]
      rfl

theorem allItems_stmts : ∀ ss : List Stmt,
    Stmt.allItems (g.stmts ss) = g.courseItems (Stmt.allItems ss)
  | [] => rfl
  | s :: ss => by
      rw [stmts, Stmt.allItems, Stmt.allItems, items_stmt s, allItems_stmts ss, courseItems_append]

theorem callableItem_callable : ∀ (kind : Enclosure) (decl : Callable),
    Stmt.callableItem kind (g.callable decl) = g.courseItem (Stmt.callableItem kind decl)
  | _, ⟨_, params, body⟩ => by
      rw [callable, Stmt.callableItem, Stmt.callableItem, parameterItems_map, allItems_stmts body,
        courseItem, courseItems_append]

theorem methodItems_callables : ∀ decls : List Callable,
    Stmt.methodItems (g.callables decls) = g.courseItems (Stmt.methodItems decls)
  | [] => rfl
  | decl :: decls => by
      rw [callables, Stmt.methodItems, Stmt.methodItems, callableItem_callable .method decl,
        methodItems_callables decls, courseItems]

end

theorem update?_step (s : Step) : (g.step s).update? = s.update?.map g.update := by
  cases s <;> rfl

theorem update?_courseItem (i : Course.Item) :
    (g.courseItem i).update? = i.update?.map g.update := by
  cases i with
  | step s => exact g.update?_step s
  | frame callable body => rfl

theorem log_courseItems (items : List Course.Item) :
    Course.Item.log (g.courseItems items) = g.log (Course.Item.log items) := by
  induction items with
  | nil => rfl
  | cons i is ih =>
      rw [← List.singleton_append, courseItems_append, Course.Item.log_append,
        Course.Item.log_append, ih, log, log, List.map_append]
      congr 1
      rw [courseItems, courseItems, Course.Item.log_singleton, Course.Item.log_singleton,
        update?_courseItem]
      cases i.update? <;> rfl

theorem extend_map (around : List Log) (l : Log) :
    extend (around.map g.log) (g.log l) = (extend around l).map g.log := by
  cases around with
  | nil => rfl
  | cons innermost outer => simp [extend, log]

mutual

theorem moments_courseItem : ∀ (around : List Log) (enclosure : Enclosure) (i : Course.Item),
    (g.courseItem i).moments (around.map g.log) enclosure =
      (i.moments around enclosure).map g.moment
  | _, _, .step _ => rfl
  | around, enclosure, .frame callable body => by
      rw [courseItem, Course.Item.moments, Course.Item.moments, List.map_append,
        ← allMoments_courseItems ([] :: around) (callable.getD enclosure) body, log_courseItems]
      rfl

theorem allMoments_courseItems : ∀ (around : List Log) (enclosure : Enclosure)
    (items : List Course.Item),
    Course.Item.allMoments (around.map g.log) enclosure (g.courseItems items) =
      (Course.Item.allMoments around enclosure items).map g.moment
  | _, _, [] => rfl
  | around, enclosure, i :: is => by
      have hlog : (g.courseItem i).update?.toList = g.log i.update?.toList := by
        rw [update?_courseItem]
        cases i.update? <;> rfl
      rw [courseItems, Course.Item.allMoments, Course.Item.allMoments, List.map_append,
        moments_courseItem around enclosure i, hlog, extend_map,
        allMoments_courseItems (extend around i.update?.toList) enclosure is]

end

theorem course_stmts (statements : List Stmt) :
    Stmt.course (g.stmts statements) = (Stmt.course statements).map g.moment := by
  rw [Stmt.course, allItems_stmts]
  exact g.allMoments_courseItems [] .topLevel (Stmt.allItems statements)

section
variable (l : Log) (x : String)

theorem word?_update (u : Update) : (g.update u).word? = u.word?.map g.word := by
  cases u <;> rfl

theorem declares_update (u : Update) : (g.update u).declares x = u.declares x := by
  cases u <;> rfl

theorem words_log : (g.log l).words = l.words.map g.word := by
  unfold log Log.words
  rw [List.filterMap_map, List.map_filterMap]
  exact congrArg (List.filterMap · l) (funext g.word?_update)

theorem declares_log : (g.log l).declares x = l.declares x := by
  unfold log Log.declares
  rw [List.any_map]
  exact congrArg l.any (funext (g.declares_update x))

theorem last?_log : (g.log l).last? x = (l.last? x).map g.word := by
  unfold Log.last? Word.last?
  rw [words_log, ← List.map_reverse, List.find?_map]
  rfl

theorem sinceLast_log : (g.log l).sinceLast x = g.log (l.sinceLast x) := by
  unfold Log.sinceLast log
  rw [← List.map_reverse, List.takeWhile_map]
  exact congrArg (List.map g.update) (congrArg (List.takeWhile · l.reverse)
    (funext fun u => congrArg not (g.declares_update x u)))

theorem contains_log {u : Update} (hu : ∀ v, g.update v = u ↔ v = u) :
    List.contains (g.log l) u = List.contains l u := by
  rw [Bool.eq_iff_iff, List.contains_iff_mem, List.contains_iff_mem, log, List.mem_map]
  exact ⟨fun ⟨v, hv, hvu⟩ => (hu v).mp hvu ▸ hv, fun h => ⟨u, h, (hu u).mpr rfl⟩⟩

theorem definedSince_log : (g.log l).definedSince x = l.definedSince x := by
  unfold Log.definedSince
  rw [sinceLast_log]
  exact g.contains_log _ fun v => by cases v <;> simp [update]

theorem usedSince_log : (g.log l).usedSince x = l.usedSince x := by
  unfold Log.usedSince
  rw [sinceLast_log]
  exact g.contains_log _ fun v => by cases v <;> simp [update]

theorem unused_log : (g.log l).unused = l.unused.map g.word := by
  unfold Log.unused Log.names
  rw [words_log, List.map_map, List.map_filterMap]
  have hsame : (fun x => if (g.log l).usedSince x then none else (g.log l).last? x) =
      fun x => Option.map g.word (if l.usedSince x then none else l.last? x) := by
    funext x
    rw [usedSince_log, last?_log]
    split <;> rfl
  rw [hsame]
  rfl

end

section
variable (around : List Log) (w : Word)

theorem duplicates_map :
    duplicates (around.map g.log) (g.word w) = (duplicates around w).map g.finding := by
  have hlast : (around.map g.log).head?.bind (·.last? w.text) =
      (around.head?.bind (·.last? w.text)).map g.word := by
    cases around with
    | nil => rfl
    | cons innermost outer => exact g.last?_log innermost w.text
  unfold duplicates
  rw [show (g.word w).text = w.text from rfl, hlast]
  cases around.head?.bind (·.last? w.text) <;> rfl

theorem findSome?_map (logs : List Log) (x : String) :
    (logs.map g.log).findSome? (·.last? x) = (logs.findSome? (·.last? x)).map g.word := by
  induction logs with
  | nil => rfl
  | cons l logs ih =>
      rw [List.map_cons, List.findSome?_cons, List.findSome?_cons, last?_log, ih]
      cases l.last? x <;> rfl

theorem selfReferences_map :
    selfReferences (around.map g.log) (g.word w) = (selfReferences around w).map g.finding := by
  have hopen : ((around.map g.log).head?.any fun l => l.declares w.text && !l.definedSince w.text) =
      around.head?.any fun l => l.declares w.text && !l.definedSince w.text := by
    cases around with
    | nil => rfl
    | cons innermost outer => simp [declares_log, definedSince_log]
  unfold selfReferences
  rw [show (g.word w).text = w.text from rfl, hopen, ← List.map_tail, findSome?_map]
  split
  · cases around.tail.findSome? (·.last? w.text) <;> rfl
  · rfl

theorem findIdx?_map (x : String) :
    (around.map g.log).findIdx? (·.declares x) = around.findIdx? (·.declares x) := by
  induction around with
  | nil => rfl
  | cons l around ih =>
      rw [List.map_cons, List.findIdx?_cons, List.findIdx?_cons, declares_log, ih]

end

theorem findings_moment (m : Moment) : (g.moment m).findings = m.findings.map g.finding := by
  cases m with
  | leaving l =>
      rw [moment, Moment.findings, Moment.findings, unused_log, List.map_map, List.map_map]
      rfl
  | doing s around enclosure =>
      cases s with
      | define | assign => rfl
      | declare w => exact g.duplicates_map around w
      | read id w => exact g.selfReferences_map around w
      | ret keyword =>
          show strayReturns enclosure (g.word keyword) =
            (strayReturns enclosure keyword).map g.finding
          unfold strayReturns
          split <;> rfl

theorem occurrence?_moment (m : Moment) :
    (g.moment m).occurrence? = m.occurrence?.map g.occurrence := by
  cases m with
  | leaving l => rfl
  | doing s around enclosure => cases s <;> rfl

theorem record?_occurrence (o : Occurrence) :
    (g.occurrence o).record? = o.record?.map g.record := by
  unfold Occurrence.record? Occurrence.distance?
  rw [occurrence, show (g.word o.name).text = o.name.text from rfl, findIdx?_map, Option.map_map]
  rfl

theorem occurrences_stmts (statements : List Stmt) :
    Stmt.occurrences (g.stmts statements) = (Stmt.occurrences statements).map g.occurrence := by
  unfold Stmt.occurrences
  rw [course_stmts, List.filterMap_map, List.map_filterMap]
  exact congrArg (List.filterMap · _) (funext g.occurrence?_moment)

end Shift

/-- Nothing is carried from one statement of a program to the next. -/
theorem course_append (first second : List Stmt) :
    Stmt.course (first ++ second) = Stmt.course first ++ Stmt.course second := by
  unfold Stmt.course
  rw [Stmt.allItems_eq, List.flatMap_append, ← Stmt.allItems_eq, ← Stmt.allItems_eq,
    Course.Item.allMoments_append]
  rfl

/-- A moved program behind another one is resolved as it is alone, moved. -/
theorem findings_resolve_append {limit : Nat} {first second : List Stmt} (g : Shift)
    (hfirst : (resolve limit first).stopped = none)
    (hsecond : (resolve limit second).stopped = none)
    (hboth : (resolve limit (first ++ g.stmts second)).stopped = none) :
    (resolve limit (first ++ g.stmts second)).findings =
      (resolve limit first).findings ++ (resolve limit second).findings.map g.finding := by
  rw [findings_resolve hboth, findings_resolve hfirst, findings_resolve hsecond, course_append,
    g.course_stmts, List.flatMap_append, List.flatMap_map, List.map_flatMap]
  exact congrArg _ (congrArg (List.flatMap · _) (funext g.findings_moment))

theorem records_resolve_append {limit : Nat} {first second : List Stmt} (g : Shift)
    (hfirst : (resolve limit first).stopped = none)
    (hsecond : (resolve limit second).stopped = none)
    (hboth : (resolve limit (first ++ g.stmts second)).stopped = none) :
    (resolve limit (first ++ g.stmts second)).records =
      (resolve limit first).records ++ (resolve limit second).records.map g.record := by
  have happend : Stmt.occurrences (first ++ g.stmts second) =
      Stmt.occurrences first ++ (Stmt.occurrences second).map g.occurrence := by
    rw [← g.occurrences_stmts]
    unfold Stmt.occurrences
    rw [course_append, List.filterMap_append]
  rw [records_of_completed hboth, records_of_completed hfirst, records_of_completed hsecond,
    happend, List.filterMap_append, List.filterMap_map, List.map_filterMap]
  exact congrArg _ (congrArg (List.filterMap · _) (funext g.record?_occurrence))

end LamScope

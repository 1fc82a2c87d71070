import LamScope.Proofs.Scope.LogStack
import LamScope.Scope.Walk
import LamScope.Syntax.Reference

/-!
# The course of a program

What a program does with names, in the order in which it does it, is read off its tree alone:
steps, and frames with what is done in them. A moment of the course is a step among the logs of
the scopes around it, or the end of a frame. What is recorded and reported at a moment depends
on these logs only.
-/
namespace LamScope.Course

inductive Step where
  | declare (w : Word)
  /-- The declaration is over. -/
  | define (w : Word)
  | read (id : Nat) (w : Word)
  | assign (id : Nat) (w : Word)
  | ret (keyword : Word)
deriving DecidableEq, Repr

inductive Item where
  | step (s : Step)
  /-- A block, or a function or method from its parameters on. -/
  | frame (callable : Option Enclosure) (body : List Item)

inductive Moment where
  /-- A step, with what was done before it directly in each scope around it, the innermost first. -/
  | doing (s : Step) (around : List Log) (enclosure : Enclosure)
  /-- The end of a frame, with all that was done directly in it. -/
  | leaving (log : Log)

/-- What a step does to the innermost scope. -/
def Step.update? : Step → Option Update
  | declare w => some (.declared w)
  | define w => some (.defined w.text)
  | read _ w => some (.used w.text)
  | assign .. | ret _ => none

def Item.update? : Item → Option Update
  | step s => s.update?
  | frame .. => none

/-- What is done directly in a scope. -/
def Item.log (items : List Item) : Log := items.filterMap Item.update?

mutual

/-- The moments of a part of a program that stands in the given scopes. -/
def Item.moments : List Log → Enclosure → Item → List Moment
  | around, enclosure, step s => [.doing s around enclosure]
  | around, enclosure, frame callable body =>
      allMoments ([] :: around) (callable.getD enclosure) body ++ [.leaving (Item.log body)]

def Item.allMoments : List Log → Enclosure → List Item → List Moment
  | _, _, [] => []
  | around, enclosure, i :: is =>
      i.moments around enclosure ++
        allMoments (extend around i.update?.toList) enclosure is

end

end LamScope.Course

namespace LamScope

open Course

mutual

/-- The value of an assignment comes before its target. -/
def Expr.steps : Expr → List Step
  | literal .. => []
  | read node name => [.read node.id name]
  | assign node name value => value.steps ++ [.assign node.id name]
  | binary _ _ left right | logical _ _ left right => left.steps ++ right.steps
  | unary _ _ operand => operand.steps
  | group _ inner => inner.steps
  | call _ callee args => callee.steps ++ allSteps args
  | property _ object _ => object.steps
  | setProperty _ object _ value => value.steps ++ object.steps

def Expr.allSteps : List Expr → List Step
  | [] => []
  | e :: es => e.steps ++ allSteps es

end

def Expr.items (e : Expr) : List Item := e.steps.map .step

def Expr.clauseItems : Option Expr → List Item
  | none => []
  | some e => e.items

def Word.parameterItems (names : List Word) : List Item :=
  names.flatMap fun w => [.step (.declare w), .step (.define w)]

mutual

/-- A function is defined before its body, a variable after its initialiser. -/
def Stmt.items : Stmt → List Item
  | block _ body => [.frame none (allItems body)]
  | var _ name init => .step (.declare name) :: Expr.clauseItems init ++ [.step (.define name)]
  | function _ decl =>
      [.step (.declare decl.name), .step (.define decl.name), callableItem .function decl]
  | expr _ value | print _ value => value.items
  | ifThen _ cond body | loop _ cond body => cond.items ++ body.items
  | ifThenElse _ cond body otherwise => cond.items ++ body.items ++ otherwise.items
  | ret _ keyword value => .step (.ret keyword) :: Expr.clauseItems value
  | classDef _ name methods =>
      .step (.declare name) :: .step (.define name) :: methodItems methods

def Stmt.allItems : List Stmt → List Item
  | [] => []
  | s :: ss => s.items ++ allItems ss

def Stmt.callableItem : Enclosure → Callable → Item
  | kind, ⟨_, params, body⟩ => .frame (some kind) (Word.parameterItems params ++ allItems body)

def Stmt.methodItems : List Callable → List Item
  | [] => []
  | c :: cs => callableItem .method c :: methodItems cs

end

/-- The course of a program from its start. -/
def Stmt.course (statements : List Stmt) : List Moment :=
  Item.allMoments [] .topLevel (allItems statements)

namespace Course

/-- A name read or assigned, with what was done before it in each scope around it. -/
structure Occurrence where
  id : Nat
  name : Word
  around : List Log

namespace Occurrence

def reference (o : Occurrence) : Nat × Word := (o.id, o.name)

/-- How many scopes lie between the innermost one and the nearest that declares the name. -/
def distance? (o : Occurrence) : Option Nat := o.around.findIdx? (·.declares o.name.text)

def record? (o : Occurrence) : Option (Nat × Nat) := o.distance?.map (o.id, ·)

end Occurrence

/-- A declaration is reported if its scope declares the name already. -/
def duplicates (around : List Log) (w : Word) : List Finding :=
  ((around.head?.bind (·.last? w.text)).map fun previous =>
    .of (.duplicate w.text previous.span) w).toList

/-- A read is reported if the last declaration of the name in its scope is not over. -/
def selfReferences (around : List Log) (w : Word) : List Finding :=
  if around.head?.any fun log => log.declares w.text && !log.definedSince w.text then
    [.of (.selfReference w.text ((around.tail.findSome? (·.last? w.text)).map (·.span))) w]
  else []

/-- A `return` outside all functions and methods is reported. -/
def strayReturns (enclosure : Enclosure) (keyword : Word) : List Finding :=
  if enclosure.allowsReturn then [] else [.of .strayReturn keyword]

def unusedFinding (w : Word) : Finding := .of (.unused w.text) w

namespace Moment

def occurrence? : Moment → Option Occurrence
  | doing (.read id w) around _ | doing (.assign id w) around _ => some ⟨id, w, around⟩
  | _ => none

def findings : Moment → List Finding
  | doing (.declare w) around _ => duplicates around w
  | doing (.read _ w) around _ => selfReferences around w
  | doing (.ret keyword) _ enclosure => strayReturns enclosure keyword
  | doing (.define _) _ _ | doing (.assign ..) _ _ => []
  | leaving log => log.unused.map unusedFinding

/-- What is reported comes before what is recorded. -/
def events (m : Moment) : List Event :=
  m.findings.map .report ++
    (m.occurrence?.bind Occurrence.record?).toList.map fun (id, distance) => .record id distance

end Moment

theorem Item.log_append (xs ys : List Item) :
    Item.log (xs ++ ys) = Item.log xs ++ Item.log ys := List.filterMap_append

theorem Item.log_singleton (i : Item) : Item.log [i] = i.update?.toList := by
  cases h : i.update? <;> simp [Item.log, h]

theorem Item.allMoments_append (around : List Log) (enclosure : Enclosure) (xs ys : List Item) :
    Item.allMoments around enclosure (xs ++ ys) =
      Item.allMoments around enclosure xs ++
        Item.allMoments (extend around (Item.log xs)) enclosure ys := by
  induction xs generalizing around with
  | nil => simp [Item.allMoments, Item.log]
  | cons i xs ih =>
      have hlog : Item.log (i :: xs) = i.update?.toList ++ Item.log xs := by
        rw [← Item.log_singleton, ← Item.log_append, List.singleton_append]
      rw [List.cons_append, Item.allMoments, ih, Item.allMoments, hlog, extend_append,
        List.append_assoc]

end Course

end LamScope

import LamScope.Proofs.Scope.Course

/-!
# Sites of declarations and reads

Which words the scopes around a place have declared so far, and in whose initialiser the place lies,
is read off the tree alone. From that follows what is to be said of a declaration or a read, without
regard to how a walk keeps track of the declarations that are not over.
-/
namespace LamScope

/-- The words declared so far directly in each scope around a place, the innermost scope first. -/
abbrev Scopes := List (List Word)

/-- Declares words in the innermost scope, if there is one. -/
def Scopes.declare (scopes : Scopes) (words : List Word) : Scopes :=
  match scopes with
  | [] => []
  | innermost :: outer => (innermost ++ words) :: outer

inductive Site where
  | declaration (w : Word) (scopes : Scopes)
  /-- A variable that is read, and the variable in whose initialiser that is, if in any. -/
  | read (w : Word) (scopes : Scopes) (initialised : Option Word)

/-- A declaration is reported if its scope has declared the name before, with the last declaration
that did. A read is reported if it lies in the initialiser of the local variable that it names, with
the last declaration of the name in the nearest of the outer scopes that has one. -/
def Site.finding? : Site → Option Finding
  | declaration w scopes =>
      (scopes.head?.bind (Word.last? w.text)).map fun previous =>
        .of (.duplicate w.text previous.span) w
  | read w scopes initialised =>
      if !scopes.isEmpty && initialised.any (·.text == w.text) then
        some (.of (.selfReference w.text
          ((scopes.tail.findSome? (Word.last? w.text)).map (·.span))) w)
      else none

def Course.Step.readWord? : Step → Option Word
  | read _ w => some w
  | _ => none

/-- The variables that an expression reads, in the order of the walk. -/
def Expr.sites (scopes : Scopes) (initialised : Option Word) (e : Expr) : List Site :=
  (e.steps.filterMap Course.Step.readWord?).map (.read · scopes initialised)

def Expr.clauseSites (scopes : Scopes) (initialised : Option Word) : Option Expr → List Site
  | none => []
  | some e => e.sites scopes initialised

def Word.parameterSites : Scopes → List Word → List Site
  | _, [] => []
  | scopes, w :: ws => .declaration w scopes :: parameterSites (scopes.declare [w]) ws

/-- The words that a statement declares in the scope it stands in. -/
def Stmt.declared : Stmt → List Word
  | var _ name _ | classDef _ name _ => [name]
  | function _ decl => [decl.name]
  | ifThen _ _ body | loop _ _ body => body.declared
  | ifThenElse _ _ body otherwise => body.declared ++ otherwise.declared
  | block .. | expr .. | print .. | ret .. => []

mutual

/-- The declarations and reads of a statement in the given scopes, in the order of the walk. Blocks,
functions and methods have scopes of their own; parameters and body share one. -/
def Stmt.sites : Scopes → Stmt → List Site
  | scopes, block _ body => allSites ([] :: scopes) body
  | scopes, var _ name init =>
      .declaration name scopes :: Expr.clauseSites (scopes.declare [name]) (some name) init
  | scopes, function _ decl =>
      .declaration decl.name scopes :: callableSites (scopes.declare [decl.name]) decl
  | scopes, expr _ value | scopes, print _ value => value.sites scopes none
  | scopes, ifThen _ cond body | scopes, loop _ cond body =>
      cond.sites scopes none ++ body.sites scopes
  | scopes, ifThenElse _ cond body otherwise =>
      cond.sites scopes none ++ body.sites scopes ++ otherwise.sites (scopes.declare body.declared)
  | scopes, ret _ _ value => Expr.clauseSites scopes none value
  | scopes, classDef _ name methods =>
      .declaration name scopes :: methodSites (scopes.declare [name]) methods

def Stmt.allSites : Scopes → List Stmt → List Site
  | _, [] => []
  | scopes, s :: ss => s.sites scopes ++ allSites (scopes.declare s.declared) ss

def Stmt.callableSites : Scopes → Callable → List Site
  | scopes, ⟨_, params, body⟩ =>
      Word.parameterSites ([] :: scopes) params ++ allSites (params :: scopes) body

def Stmt.methodSites : Scopes → List Callable → List Site
  | _, [] => []
  | scopes, decl :: decls => callableSites scopes decl ++ methodSites scopes decls

end

@[simp] theorem Scopes.declare_nil (scopes : Scopes) : scopes.declare [] = scopes := by
  cases scopes <;> simp [declare]

/-- What a log declares is declared in its scope. -/
theorem map_words_extend (around : List Log) (log : Log) :
    (extend around log).map Log.words = Scopes.declare (around.map Log.words) log.words := by
  cases around <;> simp [extend, Scopes.declare, Log.words, List.filterMap_append]

end LamScope

import LamScope.Proofs.Scope.Findings
import LamScope.Proofs.Scope.Sites
import LamScope.Syntax.Reading

/-!
# Duplicates and reads in their own initialisers

At most one declaration of the innermost scope is not over: that of the variable whose initialiser
is being walked. Main statement: a completed walk reports just the declarations that repeat one of
their scope, and just the reads of a local variable in its own initialiser.
-/
namespace LamScope

/-- Duplicates and reads in the own initialiser. -/
def Finding.concernsDeclaration (f : Finding) : Bool :=
  match f.cause with
  | .duplicate .. | .selfReference .. => true
  | .unused _ | .strayReturn => false

namespace Log
variable (log : Log) (x : String)

/-- The last declaration of the name is not over. -/
def awaits : Bool := log.declares x && !log.definedSince x

theorem awaits_declared (w : Word) :
    awaits (log ++ [.declared w]) x = (w.text == x || log.awaits x) := by
  unfold awaits definedSince
  rw [declares_append, declares_singleton, sinceLast_concat]
  cases h : w.text == x <;> simp [Update.declares, Update.word?, h]

theorem awaits_defined (y : String) :
    awaits (log ++ [.defined y]) x = (log.awaits x && !(y == x)) := by
  unfold awaits definedSince
  rw [declares_append, declares_singleton, sinceLast_concat]
  cases h : y == x <;> grind [Update.declares, Update.word?]

theorem awaits_used (y : String) : awaits (log ++ [.used y]) x = log.awaits x := by
  unfold awaits definedSince
  rw [declares_append, declares_singleton, sinceLast_concat]
  simp [Update.declares, Update.word?]

end Log

/-- In the innermost scope, if there is one, only the given declaration is not over. -/
def Awaiting (around : List Log) (pending : Option Word) : Prop :=
  ∀ log ∈ around.head?, ∀ x, log.awaits x = pending.any (·.text == x)

theorem awaiting_nil_log (around : List Log) : Awaiting ([] :: around) none := by
  intro log hlog x
  obtain rfl := Option.some.inj hlog
  rfl

/-- What a change does to the innermost log shows in the stack. -/
theorem Awaiting.extend {around : List Log} {before after : Option Word} {u : Update}
    (h : Awaiting around before)
    (hu : ∀ log : Log, (∀ x, log.awaits x = before.any (·.text == x)) →
      ∀ x, Log.awaits (log ++ [u]) x = after.any (·.text == x)) :
    Awaiting (extend around [u]) after := by
  intro log hlog
  cases around with
  | nil => cases hlog
  | cons innermost outer =>
      obtain rfl := Option.some.inj hlog
      exact hu innermost (h innermost rfl)

namespace Course

theorem duplicates_eq (around : List Log) (w : Word) :
    duplicates around w = (Site.declaration w (around.map Log.words)).finding?.toList := by
  cases around <;> rfl

/-- The reads reported are those of the declaration that is not over. -/
theorem selfReferences_eq {around : List Log} {pending : Option Word}
    (h : Awaiting around pending) (w : Word) :
    selfReferences around w =
      (Site.read w (around.map Log.words) pending).finding?.toList := by
  unfold selfReferences Site.finding?
  cases around with
  | nil => rfl
  | cons innermost outer =>
      have hawaits := h innermost rfl w.text
      unfold Log.awaits at hawaits
      have houter : (outer.map Log.words).findSome? (Word.last? w.text) =
          outer.findSome? (·.last? w.text) := by
        rw [List.findSome?_map]
        rfl
      simp only [List.head?_cons, Option.any_some, hawaits, List.map_cons, List.isEmpty_cons,
        Bool.not_false, Bool.true_and, List.tail_cons, houter]
      split <;> rfl

theorem filter_duplicates (around : List Log) (w : Word) :
    (duplicates around w).filter (·.concernsDeclaration) = duplicates around w := by
  refine List.filter_eq_self.mpr fun f hf => ?_
  obtain ⟨previous, -, rfl⟩ := Option.map_eq_some_iff.mp (Option.mem_toList.mp hf)
  rfl

theorem filter_selfReferences (around : List Log) (w : Word) :
    (selfReferences around w).filter (·.concernsDeclaration) = selfReferences around w := by
  unfold selfReferences
  split <;> rfl

theorem filter_strayReturns (enclosure : Enclosure) (keyword : Word) :
    (strayReturns enclosure keyword).filter (·.concernsDeclaration) = [] := by
  unfold strayReturns
  split <;> rfl

theorem filter_map_unusedFinding (ws : List Word) :
    (ws.map unusedFinding).filter (·.concernsDeclaration) = [] := by
  refine List.filter_eq_nil_iff.mpr fun f hf => ?_
  obtain ⟨w, -, rfl⟩ := List.mem_map.mp hf
  exact Bool.false_ne_true

/-- Where the declaration `before` is not over, the items report what is said of the sites; after
them the scope has declared the given words more, and the declaration `after` is not over. -/
structure Item.Visits (items : List Item) (before after : Option Word) (sites : Scopes → List Site)
    (declared : List Word) : Prop where
  words : (Item.log items).words = declared
  awaiting {around : List Log} : Awaiting around before → Awaiting (extend around (log items)) after
  findings {around : List Log} (enclosure : Enclosure) : Awaiting around before →
    ((allMoments around enclosure items).flatMap Moment.findings).filter (·.concernsDeclaration) =
      (sites (around.map Log.words)).filterMap Site.finding?

namespace Item
variable {xs ys : List Item} {pending before between after : Option Word}
  {sites sites' : Scopes → List Site} {declared declared' : List Word}

theorem visits_nil (pending : Option Word) : Visits [] pending pending (fun _ => []) [] where
  words := rfl
  awaiting {around} h := by
    rw [log, List.filterMap_nil, extend_nil_log]
    exact h
  findings _ _ := rfl

theorem Visits.append (hx : Visits xs before between sites declared)
    (hy : Visits ys between after sites' declared') :
    Visits (xs ++ ys) before after
      (fun scopes => sites scopes ++ sites' (scopes.declare declared)) (declared ++ declared') where
  words := by
    rw [log_append, Log.words, List.filterMap_append]
    exact congrArg₂ (· ++ ·) hx.words hy.words
  awaiting h := by
    rw [log_append, extend_append]
    exact hy.awaiting (hx.awaiting h)
  findings {around} enclosure h := by
    have hrest := hy.findings enclosure (hx.awaiting h)
    rw [map_words_extend, hx.words] at hrest
    rw [allMoments_append, List.flatMap_append, List.filter_append, hx.findings enclosure h, hrest,
      List.filterMap_append]

theorem flatMap_findings_step (around : List Log) (enclosure : Enclosure) (st : Step) :
    (allMoments around enclosure [.step st]).flatMap Moment.findings =
      (Moment.doing st around enclosure).findings := by
  simp [allMoments, moments]

theorem visits_declare (w : Word) :
    Visits [.step (.declare w)] none (some w) (fun scopes => [.declaration w scopes]) [w] where
  words := rfl
  awaiting h := h.extend fun log hlog x => by
    rw [Log.awaits_declared, hlog x]
    simp
  findings {around} enclosure _ := by
    rw [flatMap_findings_step, Moment.findings, filter_duplicates, duplicates_eq,
      List.filterMap_eq_flatMap_toList, List.flatMap_singleton]

theorem visits_define (w : Word) : Visits [.step (.define w)] (some w) none (fun _ => []) [] where
  words := rfl
  awaiting h := h.extend fun log hlog x => by
    rw [Log.awaits_defined, hlog x]
    simp
  findings enclosure _ := by
    rw [flatMap_findings_step]
    rfl

theorem visits_read (id : Nat) (w : Word) (pending : Option Word) :
    Visits [.step (.read id w)] pending pending (fun scopes => [.read w scopes pending]) [] where
  words := rfl
  awaiting h := h.extend fun log hlog x => by rw [Log.awaits_used, hlog x]
  findings {around} enclosure h := by
    rw [flatMap_findings_step, Moment.findings, filter_selfReferences, selfReferences_eq h,
      List.filterMap_eq_flatMap_toList, List.flatMap_singleton]

theorem visits_assign (id : Nat) (w : Word) (pending : Option Word) :
    Visits [.step (.assign id w)] pending pending (fun _ => []) [] where
  words := rfl
  awaiting {around} h := (extend_nil_log around).symm ▸ h
  findings enclosure _ := by
    rw [flatMap_findings_step]
    rfl

theorem visits_ret (keyword : Word) (pending : Option Word) :
    Visits [.step (.ret keyword)] pending pending (fun _ => []) [] where
  words := rfl
  awaiting {around} h := (extend_nil_log around).symm ▸ h
  findings enclosure _ := by
    rw [flatMap_findings_step, Moment.findings, filter_strayReturns]
    rfl

/-- Reads and assignments leave open what was open before them. -/
theorem visits_steps (pending : Option Word) {steps : List Step}
    (h : ∀ st ∈ steps, ∃ id w, st = .read id w ∨ st = .assign id w) :
    Visits (steps.map .step) pending pending
      (fun scopes => (steps.filterMap Step.readWord?).map (.read · scopes pending)) [] := by
  induction steps with
  | nil => exact visits_nil pending
  | cons st steps ih =>
      have hrest := ih fun st hst => h st (List.mem_cons_of_mem _ hst)
      obtain ⟨id, w, rfl | rfl⟩ := h st List.mem_cons_self
      · simpa [Step.readWord?, List.filterMap_cons] using
          (visits_read id w pending).append hrest
      · simpa [Step.readWord?, List.filterMap_cons] using
          (visits_assign id w pending).append hrest

/-- Nothing is left open at the start of a frame, and nothing that is done in it touches the scope
around it. -/
theorem Visits.frame (h : Visits xs none after sites declared) (callable : Option Enclosure) :
    Visits [.frame callable xs] pending pending (fun scopes => sites ([] :: scopes)) [] where
  words := rfl
  awaiting {around} hawaiting := (extend_nil_log around).symm ▸ hawaiting
  findings {around} enclosure _ := by
    have hbody := h.findings (callable.getD enclosure) (awaiting_nil_log around)
    simp only [allMoments, moments, List.append_nil, List.flatMap_append, List.filter_append,
      List.flatMap_singleton, Moment.findings, filter_map_unusedFinding, hbody]
    rfl

end Item

end Course

open Course

mutual

/-- An expression only reads and assigns. -/
theorem Expr.eq_read_or_assign : ∀ (e : Expr) {st : Step}, st ∈ e.steps →
    ∃ id w, st = .read id w ∨ st = .assign id w
  | .literal .., _, h => by cases h
  | .read node name, _, h => ⟨node.id, name, .inl (List.mem_singleton.mp h)⟩
  | .assign node name value, _, h => by
      rcases List.mem_append.mp h with h | h
      · exact value.eq_read_or_assign h
      · exact ⟨node.id, name, .inr (List.mem_singleton.mp h)⟩
  | .binary _ _ left right, _, h | .logical _ _ left right, _, h =>
      (List.mem_append.mp h).elim left.eq_read_or_assign right.eq_read_or_assign
  | .unary _ _ operand, _, h => operand.eq_read_or_assign h
  | .group _ inner, _, h => inner.eq_read_or_assign h
  | .call _ callee args, _, h =>
      (List.mem_append.mp h).elim callee.eq_read_or_assign (eq_read_or_assign_of_mem_all args)
  | .property _ object _, _, h => object.eq_read_or_assign h
  | .setProperty _ object _ value, _, h =>
      (List.mem_append.mp h).elim value.eq_read_or_assign object.eq_read_or_assign

theorem Expr.eq_read_or_assign_of_mem_all : ∀ (es : List Expr) {st : Step}, st ∈ allSteps es →
    ∃ id w, st = .read id w ∨ st = .assign id w
  | [], _, h => by cases h
  | e :: es, _, h =>
      (List.mem_append.mp h).elim e.eq_read_or_assign (eq_read_or_assign_of_mem_all es)

end

/-- All reads of an expression lie in the same initialiser, if in any. -/
theorem Expr.visits (e : Expr) (pending : Option Word) :
    Item.Visits e.items pending pending (fun scopes => e.sites scopes pending) [] :=
  Item.visits_steps pending fun _ => e.eq_read_or_assign

theorem Expr.clause_visits (clause : Option Expr) (pending : Option Word) :
    Item.Visits (clauseItems clause) pending pending
      (fun scopes => clauseSites scopes pending clause) [] := by
  cases clause with
  | none => exact Item.visits_nil pending
  | some e => exact e.visits pending

/-- A name that is defined as soon as it is declared. -/
theorem Word.visits (w : Word) :
    Item.Visits [.step (.declare w), .step (.define w)] none none
      (fun scopes => [.declaration w scopes]) [w] := by
  simpa using (Item.visits_declare w).append (Item.visits_define w)

theorem Word.parameter_visits (ws : List Word) :
    Item.Visits (parameterItems ws) none none (fun scopes => parameterSites scopes ws) ws := by
  induction ws with
  | nil => exact Item.visits_nil none
  | cons w ws ih => exact w.visits.append ih

mutual

theorem Stmt.visits : ∀ s : Stmt,
    Item.Visits s.items none none (fun scopes => s.sites scopes) s.declared
  | .block _ body => by
      obtain ⟨declared, h⟩ := all_visits body
      exact h.frame none
  | .var _ name init => by
      -- The one place where a declaration stays open: while its initialiser is walked.
      have h := ((Item.visits_declare name).append (Expr.clause_visits init (some name))).append
        (Item.visits_define name)
      simpa [items, sites, declared] using h
  | .function _ decl => decl.name.visits.append (callable_visits .function decl)
  | .expr _ value | .print _ value => value.visits none
  | .ifThen _ cond body | .loop _ cond body => by
      simpa [items, sites, declared] using (cond.visits none).append body.visits
  | .ifThenElse _ cond body otherwise => by
      simpa [items, sites, declared] using
        ((cond.visits none).append body.visits).append otherwise.visits
  | .ret _ keyword value => by
      simpa [items, sites, declared] using
        (Item.visits_ret keyword none).append (Expr.clause_visits value none)
  | .classDef _ name methods => name.visits.append (method_visits methods)

theorem Stmt.all_visits : ∀ ss : List Stmt, ∃ declared,
    Item.Visits (allItems ss) none none (fun scopes => allSites scopes ss) declared
  | [] => ⟨[], Item.visits_nil none⟩
  | s :: ss => by
      obtain ⟨declared, h⟩ := all_visits ss
      exact ⟨_, s.visits.append h⟩

theorem Stmt.callable_visits : ∀ (kind : Enclosure) (decl : Callable),
    Item.Visits [callableItem kind decl] none none (fun scopes => callableSites scopes decl) []
  | kind, ⟨_, params, body⟩ => by
      obtain ⟨declared, h⟩ := all_visits body
      exact ((Word.parameter_visits params).append h).frame (some kind)

theorem Stmt.method_visits : ∀ decls : List Callable,
    Item.Visits (methodItems decls) none none (fun scopes => methodSites scopes decls) []
  | [] => Item.visits_nil none
  | decl :: decls => by
      simpa [methodItems, methodSites] using
        (callable_visits .method decl).append (method_visits decls)

end

/-- A completed walk reports, in order, the declarations that repeat one of their scope and the
reads of a local variable in its own initialiser, and nothing else of the kind. -/
theorem declarations_resolve {limit : Nat} {statements : List Stmt}
    (h : (resolve limit statements).stopped = none) :
    (resolve limit statements).findings.filter (·.concernsDeclaration) =
      (Stmt.allSites [] statements).filterMap Site.finding? := by
  obtain ⟨declared, hvisits⟩ := Stmt.all_visits statements
  rw [findings_resolve h]
  exact hvisits.findings .topLevel fun log hlog => by cases hlog

/-- A local variable that is shadowed in its own initialiser, a repeated parameter that the body
declares again, a class named like a function, and a global. -/
theorem declarations_resolve_shadowed :
    let source := "{ var a; { var a = a; fun a(b, b) { var b = b; } class a { } } } var c = c;"
    let statements := (Program.ofSource source).statements
    (resolve defaultLimit statements).stopped = none ∧
      (resolve defaultLimit statements).findings.filter (·.concernsDeclaration) =
        (Stmt.allSites [] statements).filterMap Site.finding? :=
  ⟨by decide +kernel, declarations_resolve (by decide +kernel)⟩

end LamScope

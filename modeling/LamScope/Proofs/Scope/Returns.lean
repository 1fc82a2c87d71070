import LamScope.Proofs.Scope.Declarations

/-!
# Returns outside all callables

The enclosure of a place is that of the nearest function or method around it, whatever stands
before it. Main statement: a completed walk reports just the returns that stand in no function and
no method, in order, each before what it reports of the returned value.
-/
namespace LamScope

/-- A `return` outside all functions and methods, with what was done before it directly in each
scope around it. -/
structure StrayReturn where
  keyword : Word
  value : Option Expr
  around : List Log

def Finding.isStrayReturn (f : Finding) : Bool := f.cause == .strayReturn

theorem Finding.filter_isStrayReturn_eq_nil {fs : List Finding}
    (h : ∀ f ∈ fs, f.isStrayReturn = false) : fs.filter (·.isStrayReturn) = [] := by
  apply List.filter_eq_nil_iff.mpr
  intro f hf
  rw [h f hf]
  exact Bool.false_ne_true

namespace Course

/-- What is reported while the items are gone through. -/
def Item.findings (around : List Log) (enclosure : Enclosure) (items : List Item) : List Finding :=
  (allMoments around enclosure items).flatMap Moment.findings

end Course

open Course

namespace StrayReturn

/-- The report at the keyword, and then those of the value. -/
def findings (r : StrayReturn) : List Finding :=
  .of .strayReturn r.keyword :: Item.findings r.around .topLevel (Expr.clauseItems r.value)

/-- The findings of the returns stand in the list one after the other, each return with those of its
value, and nothing between them says that a return is stray. -/
inductive Reported : List StrayReturn → List Finding → Prop
  | none {fs : List Finding} (h : ∀ f ∈ fs, f.isStrayReturn = false) : Reported [] fs
  | next {r : StrayReturn} {rs : List StrayReturn} {before after : List Finding}
      (hbefore : ∀ f ∈ before, f.isStrayReturn = false) (hafter : Reported rs after) :
      Reported (r :: rs) (before ++ (r.findings ++ after))

theorem Reported.prepend {rs : List StrayReturn} {before fs : List Finding}
    (hbefore : ∀ f ∈ before, f.isStrayReturn = false) (h : Reported rs fs) :
    Reported rs (before ++ fs) := by
  cases h with
  | none hfs =>
      apply Reported.none
      intro f hf
      exact (List.mem_append.mp hf).elim (hbefore f) (hfs f)
  | next hgap hafter =>
      rw [← List.append_assoc]
      apply Reported.next _ hafter
      intro f hf
      exact (List.mem_append.mp hf).elim (hbefore f) (hgap f)

theorem Reported.append {rs rs' : List StrayReturn} {fs fs' : List Finding}
    (h : Reported rs fs) (h' : Reported rs' fs') : Reported (rs ++ rs') (fs ++ fs') := by
  induction h with
  | none hfs => exact h'.prepend hfs
  | next hbefore _ ih =>
      rw [List.append_assoc, List.append_assoc]
      exact .next hbefore ih

end StrayReturn

mutual

/-- The returns of a statement that are in no function or method of it; the statement itself stands
in the given scopes. -/
def Stmt.strayReturns : List Log → Stmt → List StrayReturn
  | around, block _ body => allStrayReturns ([] :: around) body
  | around, ifThen _ cond body | around, loop _ cond body =>
      body.strayReturns (extend around (Item.log cond.items))
  | around, ifThenElse _ cond body otherwise =>
      body.strayReturns (extend around (Item.log cond.items)) ++
        otherwise.strayReturns (extend around (Item.log (cond.items ++ body.items)))
  | around, ret _ keyword value => [⟨keyword, value, around⟩]
  | _, var .. | _, function .. | _, expr .. | _, print .. | _, classDef .. => []

def Stmt.allStrayReturns : List Log → List Stmt → List StrayReturn
  | _, [] => []
  | around, s :: ss =>
      s.strayReturns around ++ allStrayReturns (extend around (Item.log s.items)) ss

end

namespace Course

theorem isStrayReturn_duplicates (around : List Log) (w : Word) :
    ∀ f ∈ duplicates around w, f.isStrayReturn = false := by
  intro f hf
  obtain ⟨previous, -, rfl⟩ := Option.map_eq_some_iff.mp (Option.mem_toList.mp hf)
  rfl

theorem isStrayReturn_selfReferences (around : List Log) (w : Word) :
    ∀ f ∈ selfReferences around w, f.isStrayReturn = false := by
  unfold selfReferences
  split <;> simp [Finding.isStrayReturn, Finding.of]

theorem isStrayReturn_unused (ws : List Word) :
    ∀ f ∈ ws.map unusedFinding, f.isStrayReturn = false := by
  intro f hf
  obtain ⟨w, -, rfl⟩ := List.mem_map.mp hf
  rfl

/-- Wherever the items stand, the returns are reported if no callable is around them, and none is
reported otherwise. -/
def Item.ReportsReturns (items : List Item) (returns : List Log → List StrayReturn) : Prop :=
  ∀ (around : List Log) (enclosure : Enclosure), StrayReturn.Reported
    (if enclosure.allowsReturn then [] else returns around) (Item.findings around enclosure items)

namespace Item
variable {xs ys : List Item} {returns returns' : List Log → List StrayReturn}

theorem findings_append (around : List Log) (enclosure : Enclosure) (xs ys : List Item) :
    findings around enclosure (xs ++ ys) =
      findings around enclosure xs ++ findings (extend around (log xs)) enclosure ys := by
  unfold findings
  rw [allMoments_append, List.flatMap_append]

theorem findings_frame (around : List Log) (enclosure : Enclosure) (callable : Option Enclosure)
    (body : List Item) :
    findings around enclosure [.frame callable body] =
      findings ([] :: around) (callable.getD enclosure) body ++
        (log body).unused.map unusedFinding := by
  simp [findings, allMoments, moments, Moment.findings]

theorem reportsReturns_of_quiet
    (h : ∀ around enclosure, ∀ f ∈ findings around enclosure xs, f.isStrayReturn = false) :
    ReportsReturns xs fun _ => [] := by
  intro around enclosure
  rw [ite_self]
  exact .none (h around enclosure)

theorem reportsReturns_nil : ReportsReturns [] fun _ => [] :=
  reportsReturns_of_quiet fun _ _ _ hf => by cases hf

theorem ReportsReturns.append (hx : ReportsReturns xs returns) (hy : ReportsReturns ys returns') :
    ReportsReturns (xs ++ ys) fun around =>
      returns around ++ returns' (extend around (log xs)) := by
  intro around enclosure
  have h := (hx around enclosure).append (hy (extend around (log xs)) enclosure)
  rw [findings_append]
  cases henclosure : enclosure.allowsReturn with
  | true => simpa [henclosure] using h
  | false => simpa [henclosure] using h

theorem reportsReturns_step {st : Step} (h : ∀ keyword, st ≠ .ret keyword) :
    ReportsReturns [.step st] fun _ => [] := by
  apply reportsReturns_of_quiet
  intro around enclosure
  rw [findings, flatMap_findings_step]
  cases st with
  | declare w => exact isStrayReturn_duplicates around w
  | read id w => exact isStrayReturn_selfReferences around w
  | define | assign => exact fun f hf => by cases hf
  | ret keyword => exact absurd rfl (h keyword)

theorem reportsReturns_declare (w : Word) : ReportsReturns [.step (.declare w)] fun _ => [] :=
  reportsReturns_step fun _ h => by cases h

theorem reportsReturns_define (w : Word) : ReportsReturns [.step (.define w)] fun _ => [] :=
  reportsReturns_step fun _ h => by cases h

theorem reportsReturns_steps {steps : List Step} (h : ∀ st ∈ steps, ∀ keyword, st ≠ .ret keyword) :
    ReportsReturns (steps.map .step) fun _ => [] := by
  induction steps with
  | nil => exact reportsReturns_nil
  | cons st steps ih =>
      have hfirst := reportsReturns_step (h st List.mem_cons_self)
      exact hfirst.append (ih fun st hst => h st (List.mem_cons_of_mem _ hst))

/-- A block reports the returns of its body. -/
theorem ReportsReturns.block (h : ReportsReturns xs returns) :
    ReportsReturns [.frame none xs] fun around => returns ([] :: around) := by
  intro around enclosure
  rw [findings_frame]
  have hbody := (h ([] :: around) enclosure).append (.none (isStrayReturn_unused (log xs).unused))
  rwa [List.append_nil] at hbody

/-- A function or method reports none, and the enclosure around it is no matter. -/
theorem ReportsReturns.callable (h : ReportsReturns xs returns) {kind : Enclosure}
    (hkind : kind.allowsReturn) : ReportsReturns [.frame (some kind) xs] fun _ => [] := by
  intro around enclosure
  have hbody := h ([] :: around) kind
  rw [if_pos hkind] at hbody
  rw [findings_frame, ite_self]
  exact hbody.append (.none (isStrayReturn_unused (log xs).unused))

end Item

end Course

open Course

theorem Expr.reportsReturns (e : Expr) : Item.ReportsReturns e.items fun _ => [] := by
  apply Item.reportsReturns_steps
  intro st hst keyword hret
  obtain ⟨id, w, h | h⟩ := e.eq_read_or_assign hst
  · cases h.symm.trans hret
  · cases h.symm.trans hret

theorem Expr.clause_reportsReturns (clause : Option Expr) :
    Item.ReportsReturns (clauseItems clause) fun _ => [] := by
  cases clause with
  | none => exact Item.reportsReturns_nil
  | some e => exact e.reportsReturns

theorem Word.reportsReturns (w : Word) :
    Item.ReportsReturns [.step (.declare w), .step (.define w)] fun _ => [] :=
  (Item.reportsReturns_declare w).append (Item.reportsReturns_define w)

theorem Word.parameter_reportsReturns (ws : List Word) :
    Item.ReportsReturns (parameterItems ws) fun _ => [] := by
  induction ws with
  | nil => exact Item.reportsReturns_nil
  | cons w ws ih => exact w.reportsReturns.append ih

/-- The value of a `return` is walked after the keyword was reported. -/
theorem Course.Item.reportsReturns_ret (keyword : Word) (value : Option Expr) :
    ReportsReturns (.step (.ret keyword) :: Expr.clauseItems value) fun around =>
      [⟨keyword, value, around⟩] := by
  intro around enclosure
  have hvalue := Expr.clause_reportsReturns value around enclosure
  have hfindings : findings around enclosure (.step (.ret keyword) :: Expr.clauseItems value) =
      strayReturns enclosure keyword ++ findings around enclosure (Expr.clauseItems value) := by
    have happend := findings_append around enclosure [.step (.ret keyword)]
      (Expr.clauseItems value)
    rw [log_singleton] at happend
    simp only [update?, Step.update?, Option.toList_none, extend_nil_log] at happend
    rw [List.singleton_append] at happend
    rw [happend, findings, flatMap_findings_step]
    rfl
  rw [hfindings]
  cases enclosure with
  | topLevel =>
      have hnothing : ∀ f ∈ ([] : List Finding), f.isStrayReturn = false := fun _ hf => by cases hf
      have h : StrayReturn.Reported [⟨keyword, value, around⟩]
          ([] ++ (StrayReturn.findings ⟨keyword, value, around⟩ ++ [])) :=
        .next hnothing (.none hnothing)
      rwa [List.append_nil] at h
  | function | method => exact hvalue

mutual

theorem Stmt.reportsReturns : ∀ s : Stmt, Item.ReportsReturns s.items fun around =>
    s.strayReturns around
  | .block _ body => (all_reportsReturns body).block
  | .var _ name init =>
      ((Item.reportsReturns_declare name).append (Expr.clause_reportsReturns init)).append
        (Item.reportsReturns_define name)
  | .function _ decl => decl.name.reportsReturns.append (callable_reportsReturns decl rfl)
  | .expr _ value | .print _ value => value.reportsReturns
  | .ifThen _ cond body | .loop _ cond body => cond.reportsReturns.append body.reportsReturns
  | .ifThenElse _ cond body otherwise =>
      (cond.reportsReturns.append body.reportsReturns).append otherwise.reportsReturns
  | .ret _ keyword value => Item.reportsReturns_ret keyword value
  | .classDef _ name methods => name.reportsReturns.append (method_reportsReturns methods)

theorem Stmt.all_reportsReturns : ∀ ss : List Stmt, Item.ReportsReturns (allItems ss) fun around =>
    allStrayReturns around ss
  | [] => Item.reportsReturns_nil
  | s :: ss => s.reportsReturns.append (all_reportsReturns ss)

theorem Stmt.callable_reportsReturns : ∀ {kind : Enclosure} (decl : Callable), kind.allowsReturn →
    Item.ReportsReturns [callableItem kind decl] fun _ => []
  | _, ⟨_, params, body⟩, hkind =>
      ((Word.parameter_reportsReturns params).append (all_reportsReturns body)).callable hkind

theorem Stmt.method_reportsReturns : ∀ decls : List Callable,
    Item.ReportsReturns (methodItems decls) fun _ => []
  | [] => Item.reportsReturns_nil
  | decl :: decls => (callable_reportsReturns decl rfl).append (method_reportsReturns decls)

end

namespace StrayReturn

theorem filter_findings (r : StrayReturn) :
    r.findings.filter (·.isStrayReturn) = [.of .strayReturn r.keyword] := by
  have hvalue := Expr.clause_reportsReturns r.value r.around .topLevel
  have hquiet : ∀ f ∈ Item.findings r.around .topLevel (Expr.clauseItems r.value),
      f.isStrayReturn = false := by
    cases hvalue with
    | none h => exact h
  unfold findings
  rw [List.filter_cons_of_pos rfl, Finding.filter_isStrayReturn_eq_nil hquiet]

theorem Reported.filter {rs : List StrayReturn} {fs : List Finding} (h : Reported rs fs) :
    fs.filter (·.isStrayReturn) = rs.map fun r => .of .strayReturn r.keyword := by
  induction h with
  | none hfs => exact Finding.filter_isStrayReturn_eq_nil hfs
  | next hbefore _ ih =>
      rw [List.filter_append, List.filter_append, Finding.filter_isStrayReturn_eq_nil hbefore,
        filter_findings, ih]
      rfl

end StrayReturn

/-- The stray returns that a completed walk reports are those that stand in no function or method,
each once and in order, and each comes right before what is reported of its value. -/
theorem strayReturns_resolve {limit : Nat} {statements : List Stmt}
    (h : (resolve limit statements).stopped = none) :
    (resolve limit statements).findings.filter (·.isStrayReturn) =
        (Stmt.allStrayReturns [] statements).map (fun r => .of .strayReturn r.keyword) ∧
      StrayReturn.Reported (Stmt.allStrayReturns [] statements)
        (resolve limit statements).findings := by
  have hreported : StrayReturn.Reported (Stmt.allStrayReturns [] statements)
      (resolve limit statements).findings := by
    rw [findings_resolve h]
    exact Stmt.all_reportsReturns statements [] .topLevel
  exact ⟨hreported.filter, hreported⟩

/-- Returns in a method, in a function inside it, in a sibling method, in both branches of a
condition after the class, in a loop, in a block of a function, and after all of them. -/
theorem strayReturns_resolve_around :
    let source := "{ class c { m() { fun f() { return; } return f; } n() { return 1; } }
      if (c) return c(); else { while (nil) return; } }
      fun g() { { return; } }
      return g;"
    let statements := (Program.ofSource source).statements
    (resolve defaultLimit statements).stopped = none ∧
      (resolve defaultLimit statements).findings.filter (·.isStrayReturn) =
        (Stmt.allStrayReturns [] statements).map (fun r => .of .strayReturn r.keyword) ∧
      StrayReturn.Reported (Stmt.allStrayReturns [] statements)
        (resolve defaultLimit statements).findings :=
  ⟨by decide +kernel, strayReturns_resolve (by decide +kernel)⟩

end LamScope

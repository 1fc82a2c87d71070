import LamScope.Proofs.Scope.Depth

/-!
# Walks in turn

Every walk, stopped or not, leaves as many frames open as it found, the enclosure as it was and the
depth at which it began, and apart from the line that a stop names it does the same from
surroundings that differ in the line only. Main statement: programs that one resolver walks in turn
are each walked as if alone.
-/
namespace LamScope

namespace ScopeStack

@[simp] theorem depth_onInnermost (s : ScopeStack) (change : Frame → Frame) :
    (s.onInnermost change).depth = s.depth := by
  unfold onInnermost depth
  split
  · rfl
  · rename_i h
    simp [h]

@[simp] theorem depth_enter (s : ScopeStack) : s.enter.depth = s.depth + 1 := rfl

@[simp] theorem depth_leave (s : ScopeStack) : s.leave.2.depth = s.depth - 1 := by
  unfold leave depth
  split
  · rename_i h
    simp [h]
  · rename_i h
    simp [h]

theorem eq_empty_of_depth_eq_zero {s : ScopeStack} (h : s.depth = 0) : s = empty := by
  have hframes : s.frames = [] := List.length_eq_zero_iff.mp h
  obtain ⟨frames⟩ := s
  subst hframes
  rfl

end ScopeStack

/-- Alike but for the line and the depth. -/
structure Surroundings.Alike (s t : Surroundings) : Prop where
  scopes : s.scopes = t.scopes
  enclosure : s.enclosure = t.enclosure

/-- What stopped a walk, without the line. -/
def TooDeep.place (t : TooDeep) : Span × Nat := (t.span, t.limit)

/-- Alike but for lines and depths. -/
structure Visit.Alike (v w : Visit) : Prop where
  trace : v.trace = w.trace
  place : v.stopped.map TooDeep.place = w.stopped.map TooDeep.place
  state : v.state.Alike w.state

/-- What a visit emitted, and whether and where it stopped. -/
def Visit.outcome (v : Visit) : List Event × Option (Span × Nat) :=
  (v.trace, v.stopped.map TooDeep.place)

theorem Visit.Alike.outcome {v w : Visit} (h : v.Alike w) : v.outcome = w.outcome :=
  Prod.ext h.trace h.place

namespace Walk

/-- Leaves no frame open and closes none that was open before; the enclosure is what it was. -/
def Restores (a : Walk) : Prop :=
  ∀ s, (a s).state.scopes.depth = s.scopes.depth ∧ (a s).state.enclosure = s.enclosure

/-- From surroundings that are alike both walks do alike. -/
def Agrees (a b : Walk) : Prop := ∀ s t : Surroundings, s.Alike t → (a s).Alike (b t)

variable {a a' b b' : Walk}

theorem change_restores {f : Surroundings → Surroundings}
    (hdepth : ∀ s, (f s).scopes.depth = s.scopes.depth)
    (henclosure : ∀ s, (f s).enclosure = s.enclosure) : (change f).Restores :=
  fun s => ⟨hdepth s, henclosure s⟩

theorem emit_restores (events : Surroundings → List Event) : (emit events).Restores :=
  fun _ => ⟨rfl, rfl⟩

theorem append_restores (ha : a.Restores) (hb : b.Restores) : (a ++ b).Restores := by
  intro s
  cases h : (a s).stopped with
  | some t =>
      rw [append_of_stopped h]
      exact ha s
  | none =>
      rw [append_of_completed h]
      have hafter := hb (a s).state
      exact ⟨hafter.1.trans (ha s).1, hafter.2.trans (ha s).2⟩

theorem inFrame_restores (h : a.Restores) : (inFrame a).Restores := by
  intro s
  have hbody := h { s with scopes := s.scopes.enter }
  constructor
  · show (a { s with scopes := s.scopes.enter }).state.scopes.leave.2.depth = s.scopes.depth
    rw [ScopeStack.depth_leave, hbody.1, ScopeStack.depth_enter, Nat.add_sub_cancel]
  · exact hbody.2

theorem inCallable_restores (kind : Enclosure) (h : a.Restores) : (inCallable kind a).Restores :=
  fun s => ⟨(h { s with enclosure := kind }).1, rfl⟩

theorem atLine_restores (n : Nat) : (atLine n).Restores :=
  change_restores (fun _ => rfl) fun _ => rfl

theorem declare_restores (w : Word) : (declare w).Restores := by
  have hput := change_restores (f := fun s => { s with scopes := (s.scopes.declare w).2 })
    (fun s => ScopeStack.depth_onInnermost s.scopes _) fun _ => rfl
  exact append_restores (append_restores (atLine_restores w.line) (emit_restores _)) hput

theorem define_restores (w : Word) : (define w).Restores :=
  change_restores (fun s => ScopeStack.depth_onInnermost s.scopes _) fun _ => rfl

theorem readName_restores (id : Nat) (w : Word) : (readName id w).Restores := by
  have hmark := change_restores (f := fun s => { s with scopes := (s.scopes.markUsed w.text).2 })
    (fun s => ScopeStack.depth_onInnermost s.scopes _) fun _ => rfl
  have hline := atLine_restores w.line
  exact append_restores (append_restores (append_restores hline (emit_restores _)) hmark)
    (emit_restores _)

theorem restores_congruence : Congruence fun (a _ : Walk) => a.Restores where
  skip _ := ⟨rfl, rfl⟩
  append ha hb := append_restores ha hb
  atLine n := atLine_restores n
  declare w := declare_restores w
  define w := define_restores w
  readName id w := readName_restores id w
  recordName _ _ := emit_restores _
  checkReturn keyword := append_restores (atLine_restores keyword.line) (emit_restores _)
  inFrame h := inFrame_restores h
  inCallable kind _ _ h := inCallable_restores kind h

/-- A walk over a program, stopped or not, restores the surroundings but for what was declared in
the innermost frame. -/
theorem program_restores (limit : Nat) (statements : List Stmt) :
    (program limit statements).Restores :=
  program_related_self restores_congruence (fun _ _ => ⟨rfl, rfl⟩) statements

theorem change_agrees {f : Surroundings → Surroundings}
    (h : ∀ s t : Surroundings, s.Alike t → (f s).Alike (f t)) : (change f).Agrees (change f) :=
  fun s t hst => ⟨rfl, rfl, h s t hst⟩

theorem emit_agrees {events : Surroundings → List Event}
    (h : ∀ s t : Surroundings, s.Alike t → events s = events t) :
    (emit events).Agrees (emit events) :=
  fun s t hst => ⟨h s t hst, rfl, hst⟩

theorem append_agrees (ha : a.Agrees a') (hb : b.Agrees b') : (a ++ b).Agrees (a' ++ b') := by
  intro s t hst
  have hfirst := ha s t hst
  have hplace := hfirst.place
  cases h : (a s).stopped with
  | some deep =>
      -- Both stop at the same place, though perhaps in different lines.
      rw [h] at hplace
      obtain ⟨deep', h', -⟩ := Option.map_eq_some_iff.mp hplace.symm
      rw [append_of_stopped h, append_of_stopped h']
      exact hfirst
  | none =>
      rw [h] at hplace
      have h' : (a' t).stopped = none := Option.map_eq_none_iff.mp hplace.symm
      have hrest := hb _ _ hfirst.state
      rw [append_of_completed h, append_of_completed h']
      constructor
      · rw [hfirst.trace, hrest.trace]
      · exact hrest.place
      · exact hrest.state

theorem inFrame_agrees (h : a.Agrees a') : (inFrame a).Agrees (inFrame a') := by
  intro s t hst
  have hbody := h { s with scopes := s.scopes.enter } { t with scopes := t.scopes.enter }
    ⟨congrArg ScopeStack.enter hst.scopes, hst.enclosure⟩
  have hplace := hbody.place
  have hscopes := hbody.state.scopes
  constructor
  · unfold inFrame
    dsimp only
    rw [hbody.trace, hscopes]
    cases h₁ : (a { s with scopes := s.scopes.enter }).stopped <;>
      cases h₂ : (a' { t with scopes := t.scopes.enter }).stopped <;> simp [h₁, h₂] at hplace ⊢
  · exact hplace
  · exact ⟨congrArg (fun scopes => scopes.leave.2) hscopes, hbody.state.enclosure⟩

theorem inCallable_agrees (kind : Enclosure) (h : a.Agrees a') :
    (inCallable kind a).Agrees (inCallable kind a') := by
  intro s t hst
  have hbody := h { s with enclosure := kind } { t with enclosure := kind } ⟨hst.scopes, rfl⟩
  exact ⟨hbody.trace, hbody.place, ⟨hbody.state.scopes, hst.enclosure⟩⟩

theorem atLine_agrees (n : Nat) : (atLine n).Agrees (atLine n) :=
  change_agrees fun _ _ hst => ⟨hst.scopes, hst.enclosure⟩

/-- Changing the scopes goes by the scopes only. -/
theorem changeScopes_agrees (f : ScopeStack → ScopeStack) :
    (change fun s => { s with scopes := f s.scopes }).Agrees
      (change fun s => { s with scopes := f s.scopes }) :=
  change_agrees fun _ _ hst => ⟨congrArg f hst.scopes, hst.enclosure⟩

theorem declare_agrees (w : Word) : (declare w).Agrees (declare w) := by
  have hput := changeScopes_agrees fun scopes => (scopes.declare w).2
  refine append_agrees (append_agrees (atLine_agrees w.line) (emit_agrees ?_)) hput
  intro s t hst
  rw [hst.scopes]

theorem checkDefined_agrees (w : Word) : (checkDefined w).Agrees (checkDefined w) :=
  emit_agrees fun s t hst => by rw [hst.scopes]

theorem recordName_agrees (id : Nat) (w : Word) : (recordName id w).Agrees (recordName id w) :=
  emit_agrees fun s t hst => by rw [hst.scopes]

theorem readName_agrees (id : Nat) (w : Word) : (readName id w).Agrees (readName id w) := by
  have hmark := changeScopes_agrees fun scopes => (scopes.markUsed w.text).2
  have hcheck := append_agrees (atLine_agrees w.line) (checkDefined_agrees w)
  exact append_agrees (append_agrees hcheck hmark) (recordName_agrees id w)

theorem checkReturn_agrees (keyword : Word) : (checkReturn keyword).Agrees (checkReturn keyword) :=
  append_agrees (atLine_agrees keyword.line) (emit_agrees fun s t hst => by rw [hst.enclosure])

/-- What stops, stops at the same place. -/
theorem stop_agrees (limit : Nat) (span : Span) : (stop limit span).Agrees (stop limit span) :=
  fun _ _ hst => ⟨rfl, rfl, hst⟩

theorem agrees_congruence : Congruence Agrees where
  skip _ _ hst := ⟨rfl, rfl, hst⟩
  append ha hb := append_agrees ha hb
  atLine n := atLine_agrees n
  declare w := declare_agrees w
  define w := changeScopes_agrees fun scopes => scopes.define w.text
  readName id w := readName_agrees id w
  recordName id w := recordName_agrees id w
  checkReturn keyword := checkReturn_agrees keyword
  inFrame h := inFrame_agrees h
  inCallable kind _ _ h := inCallable_agrees kind h

/-- The line of the surroundings makes no difference but to the line that a stop names. -/
theorem program_agrees (limit : Nat) (statements : List Stmt) :
    (program limit statements).Agrees (program limit statements) :=
  program_related_self agrees_congruence (stop_agrees limit) statements

end Walk

/-- As at the start, but for the line. -/
structure Surroundings.Fresh (s : Surroundings) : Prop where
  alike : s.Alike .start
  depth : s.depth = 0

theorem Surroundings.fresh_start : start.Fresh := ⟨⟨rfl, rfl⟩, rfl⟩

namespace Surroundings.Fresh
variable {s : Surroundings} (hs : s.Fresh) (limit : Nat)
include hs

/-- A walk from fresh surroundings, stopped or not, leaves fresh surroundings. -/
theorem program (statements : List Stmt) : (Resolver.program limit statements s).state.Fresh := by
  constructor
  · obtain ⟨hdepth, henclosure⟩ := Walk.program_restores limit statements s
    rw [hs.alike.scopes] at hdepth
    rw [hs.alike.enclosure] at henclosure
    rw [Resolver.program_eq_of_depth_eq_zero hs.depth]
    exact ⟨ScopeStack.eq_empty_of_depth_eq_zero hdepth, henclosure⟩
  · exact (Resolver.depth_program limit statements s).trans hs.depth

theorem outcome_program (statements : List Stmt) :
    (Resolver.program limit statements s).outcome = (resolve limit statements).outcome := by
  rw [Resolver.program_eq_of_depth_eq_zero hs.depth, resolve_eq]
  exact (Walk.program_agrees limit statements s .start hs.alike).outcome

theorem map_outcome_resolveInTurn (programs : List (List Stmt)) :
    (resolveInTurn limit s programs).map Visit.outcome =
      programs.map fun statements => (resolve limit statements).outcome := by
  induction programs generalizing s with
  | nil => rfl
  | cons statements others ih =>
      rw [resolveInTurn, List.map_cons, List.map_cons, ih (hs.program limit statements),
        hs.outcome_program limit statements]

variable {limit} in
theorem of_mem_resolveInTurn {programs : List (List Stmt)} {visit : Visit}
    (h : visit ∈ resolveInTurn limit s programs) : visit.state.Fresh := by
  induction programs generalizing s with
  | nil => cases h
  | cons statements others ih =>
      rw [resolveInTurn, List.mem_cons] at h
      rcases h with rfl | h
      · exact hs.program limit statements
      · exact ih (hs.program limit statements) h

end Surroundings.Fresh

/-- Programs that are walked in turn, whichever of them are stopped, are each walked as if alone,
and every walk ends outside all frames and callables and at depth zero. Only the line that a stop
names may come from the programs before. -/
theorem resolveInTurn_alone (limit : Nat) (programs : List (List Stmt)) :
    (resolveInTurn limit .start programs).map Visit.outcome =
        programs.map (fun statements => (resolve limit statements).outcome) ∧
      ∀ visit ∈ resolveInTurn limit .start programs,
        visit.state.scopes.depth = 0 ∧ visit.state.enclosure = .topLevel ∧
          visit.state.depth = 0 := by
  constructor
  · exact Surroundings.fresh_start.map_outcome_resolveInTurn limit programs
  · intro visit hvisit
    have hstate := Surroundings.fresh_start.of_mem_resolveInTurn hvisit
    rw [hstate.alike.scopes, hstate.alike.enclosure]
    exact ⟨rfl, rfl, hstate.depth⟩

end LamScope

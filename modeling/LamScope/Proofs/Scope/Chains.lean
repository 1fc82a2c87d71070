import LamScope.Proofs.Scope.Height
import LamScope.Proofs.Scope.Limits

/-!
# Runs of operators, calls and properties

A run is walked from its head: its links are gone through inwards until none is left, and what each
of them adds is walked on the way back out. The plain walk knows no runs and no limit: it goes
through the parts of every expression from left to right. Main statement: a walk over an expression
that is not stopped does what the plain walk does.
-/
namespace LamScope

namespace Expr

/-- The left operand, callee or object that a link continues. -/
def inner? : Expr → Option Expr
  | binary _ _ left _ | logical _ _ left _ => some left
  | call _ callee _ => some callee
  | property _ object _ => some object
  | _ => none

/-- What a link adds to a run: a right operand, or arguments. -/
def added : Expr → List Expr
  | binary _ _ _ right | logical _ _ _ right => [right]
  | call _ _ args => args
  | _ => []

/-- Where the run that an expression ends begins. -/
def head : Expr → Expr
  | binary _ _ left _ | logical _ _ left _ => left.head
  | call _ callee _ => callee.head
  | property _ object _ => object.head
  | e => e

/-- The links of the run that an expression ends, the outermost first. -/
def links : Expr → List Expr
  | binary node op left right => binary node op left right :: left.links
  | logical node op left right => logical node op left right :: left.links
  | call node callee args => call node callee args :: callee.links
  | property node object name => property node object name :: object.links
  | _ => []

/-- What holds of the head of a run and passes on to each link from the one inside it. -/
theorem run_induction {motive : Expr → Prop} (hhead : ∀ e, e.inner? = none → motive e)
    (hlink : ∀ e inner, e.inner? = some inner → motive inner → motive e) : ∀ e, motive e
  | binary _ _ left _ | logical _ _ left _ =>
      hlink _ left rfl (run_induction hhead hlink left)
  | call _ callee _ => hlink _ callee rfl (run_induction hhead hlink callee)
  | property _ object _ => hlink _ object rfl (run_induction hhead hlink object)
  | literal .. | read .. | assign .. | unary .. | group .. | setProperty .. => hhead _ rfl

variable {e inner : Expr}

theorem head_of_inner? (h : e.inner? = some inner) : e.head = inner.head := by
  cases e <;> cases h <;> rfl

theorem links_of_inner? (h : e.inner? = some inner) : e.links = e :: inner.links := by
  cases e <;> cases h <;> rfl

theorem head_of_inner?_eq_none (h : e.inner? = none) : e.head = e := by
  cases e <;> cases h <;> rfl

theorem links_of_inner?_eq_none (h : e.inner? = none) : e.links = [] := by
  cases e <;> cases h <;> rfl

end Expr

namespace Walk
variable {a b : Walk}

theorem append_assoc (a b c : Walk) : a ++ b ++ c = a ++ (b ++ c) := by
  funext s
  cases ha : (a s).stopped with
  | some t =>
      have hab : ((a ++ b) s).stopped = some t := by rw [append_of_stopped ha, ha]
      rw [append_of_stopped hab, append_of_stopped ha, append_of_stopped ha]
  | none =>
      have hab := append_of_completed ha b
      rw [append_of_completed ha (b ++ c)]
      cases hb : (b (a s).state).stopped with
      | some t =>
          have hstopped : ((a ++ b) s).stopped = some t := by rw [hab]; exact hb
          rw [append_of_stopped hstopped, append_of_stopped hb, hab]
      | none =>
          have hcompleted : ((a ++ b) s).stopped = none := by rw [hab]; exact hb
          rw [append_of_completed hcompleted, append_of_completed hb, hab, List.append_assoc]

theorem append_skip (a : Walk) : a ++ skip = a := by
  funext s
  cases h : (a s).stopped with
  | some t => exact append_of_stopped h skip
  | none =>
      rw [append_of_completed h]
      simp [skip, ← h]

theorem each_singleton {α : Type} (f : α → Walk) (a : α) : each f [a] = f a := append_skip (f a)

theorem skip_append (a : Walk) : skip ++ a = a := rfl

theorem each_append {α : Type} (f : α → Walk) (as bs : List α) :
    each f (as ++ bs) = each f as ++ each f bs := by
  induction as with
  | nil => rfl
  | cons a as ih => rw [List.cons_append, each, ih, each, append_assoc]

/-- Walks the head of a run, and then what its links add, from the innermost link outwards. -/
def replay (enter : Expr → Walk) (e : Expr) : Walk :=
  enter e.head ++ each (fun link => each enter link.added) e.links.reverse

theorem replay_of_inner? (enter : Expr → Walk) {e inner : Expr} (h : e.inner? = some inner) :
    replay enter e = replay enter inner ++ each enter e.added := by
  unfold replay
  rw [Expr.head_of_inner? h, Expr.links_of_inner? h, List.reverse_cons, each_append,
    each_singleton, append_assoc]

theorem replay_of_inner?_eq_none (enter : Expr → Walk) {e : Expr} (h : e.inner? = none) :
    replay enter e = enter e := by
  unfold replay
  rw [Expr.head_of_inner?_eq_none h, Expr.links_of_inner?_eq_none h]
  exact append_skip (enter e)

theorem chain_of_inner? (enter : Expr → Walk) {e inner : Expr} (h : e.inner? = some inner)
    (after : Walk) : chain enter e after = chain enter inner (each enter e.added ++ after) := by
  cases e <;> cases h <;> simp [chain, Expr.added, each_singleton, each, skip_append]

theorem chain_of_inner?_eq_none (enter : Expr → Walk) {e : Expr} (h : e.inner? = none)
    (after : Walk) : chain enter e after = enter e ++ after := by
  cases e <;> cases h <;> rfl

/-- To walk a run towards its head, keeping what is left to do, is to replay its links. -/
theorem chain_eq_replay (enter : Expr → Walk) (e : Expr) (after : Walk) :
    chain enter e after = replay enter e ++ after := by
  induction e using Expr.run_induction generalizing after with
  | hhead e h => rw [chain_of_inner?_eq_none enter h, replay_of_inner?_eq_none enter h]
  | hlink e inner h ih => rw [chain_of_inner? enter h, ih, replay_of_inner? enter h, append_assoc]

/-- The inside of a run is its parts from left to right. -/
theorem insideExpr_eq_replay (enter : Expr → Walk) {e inner : Expr} (h : e.inner? = some inner) :
    insideExpr enter e = replay enter e := by
  have hinside : insideExpr enter e = chain enter inner (each enter e.added) := by
    cases e <;> cases h <;> simp [insideExpr, Expr.added, each_singleton, each]
  rw [hinside, chain_eq_replay, replay_of_inner? enter h]

mutual

/-- Walks the parts of an expression from left to right, the value of an assignment before its
target. -/
def plain : Expr → Walk
  | .literal .. => skip
  | .read node name => readName node.id name
  | .assign node name value => plain value ++ atLine name.line ++ recordName node.id name
  | .binary _ _ left right | .logical _ _ left right => plain left ++ plain right
  | .unary _ _ operand => plain operand
  | .group _ inner => plain inner
  | .call _ callee args => plain callee ++ allPlain args
  | .property _ object _ => plain object
  | .setProperty _ object _ value => plain value ++ plain object

def allPlain : List Expr → Walk
  | [] => skip
  | e :: es => plain e ++ allPlain es

end

theorem allPlain_eq_each (es : List Expr) : allPlain es = each plain es := by
  induction es with
  | nil => rfl
  | cons e es ih => rw [allPlain, ih, each]

theorem plain_of_inner? {e inner : Expr} (h : e.inner? = some inner) :
    plain e = plain inner ++ each plain e.added := by
  cases e <;> cases h <;> simp [plain, Expr.added, each_singleton, allPlain_eq_each, each,
    append_skip]

/-- The plain walk replays the links of a run, too. -/
theorem plain_eq_replay (e : Expr) : plain e = replay plain e := by
  induction e using Expr.run_induction with
  | hhead e h => exact (replay_of_inner?_eq_none plain h).symm
  | hlink e inner h ih => rw [plain_of_inner? h, ih, ← replay_of_inner? plain h]

section
variable {enter : Expr → Walk} (henter : ∀ e, (enter e).Cuts (plain e))
include henter

theorem replay_cuts (e : Expr) : (replay enter e).Cuts (replay plain e) := by
  have hlinks := each_related cuts_congruence
    (fun link : Expr => each_related cuts_congruence henter link.added) e.links.reverse
  exact append_cuts (henter e.head) hlinks

theorem insideExpr_cuts (e : Expr) : (insideExpr enter e).Cuts (plain e) := by
  cases h : e.inner? with
  | some inner =>
      rw [insideExpr_eq_replay enter h, plain_eq_replay]
      exact replay_cuts henter e
  | none =>
      cases e with
      | literal | read => exact fun s => .refl _
      | assign node name value =>
          have hvalue := append_cuts (henter value) (cuts_congruence.atLine name.line)
          exact append_cuts hvalue (cuts_congruence.recordName node.id name)
      | unary _ _ operand => exact henter operand
      | group _ inner => exact henter inner
      | setProperty _ object _ value => exact append_cuts (henter value) (henter object)
      | binary | logical | call | property => cases h

end

/-- With however many levels, the walk does what the plain walk does, until it is stopped. -/
theorem expr_cuts (limit levels : Nat) (e : Expr) : (expr limit levels e).Cuts (plain e) := by
  induction levels generalizing e with
  | zero => exact stop_cuts limit e.span (plain e)
  | succ levels ih => exact insideExpr_cuts ih e

/-- The plain walk goes by no depth. -/
theorem plain_countsAt (d : Nat) (e : Expr) : (plain e).CountsAt d (plain e) := by
  have hplain : plain e = expr 0 e.height e := by
    funext s
    exact (expr_cuts 0 e.height e s).completed (expr_completes 0 (Nat.le_refl _) s)
  rw [hplain]
  exact expr_countsAt_self 0 e.height e

/-- One level deeper the same is done, until the walk is stopped. -/
theorem descend_cuts (limit : Nat) (span : Span) (ha : a.Cuts b) (hb : ∀ d, b.CountsAt d b) :
    (descend limit span a).Cuts b := by
  intro s
  rcases Nat.lt_or_ge s.depth limit with hlt | hge
  · have hinner := ha (s.atDepth (s.depth + 1))
    have hcounts : b s = (b (s.atDepth (s.depth + 1))).atDepth s.depth := by
      rw [hb (s.depth + 1) s]
      exact hb s.depth s
    rw [descend_of_lt hlt]
    constructor
    · rw [hcounts]
      exact hinner.trace
    · intro hcompleted
      have hdepth := (hb (s.depth + 1)).depth_eq (s := s.atDepth (s.depth + 1)) rfl
      rw [hcounts, ← hinner.completed hcompleted, hdepth]
      rfl
  · rw [descend, if_pos hge]
    exact stop_cuts limit span b s

end Walk

/-- With however many steps, a resolver does what the plain walk does, until it is stopped. -/
theorem Resolver.expr_cuts (limit steps : Nat) (e : Expr) :
    (expr limit steps e).Cuts (Walk.plain e) := by
  induction steps generalizing e with
  | zero => exact Walk.stop_cuts limit e.span (Walk.plain e)
  | succ steps ih =>
      exact Walk.descend_cuts limit e.span (Walk.insideExpr_cuts ih e)
        fun d => Walk.plain_countsAt d e

/-- A resolver's walk over an expression that is not stopped does what the plain walk does; so does
the replay of its run one level deeper, if it ends one. -/
theorem expr_eq_plain {limit steps : Nat} {e : Expr} {s : Surroundings}
    (h : (Resolver.expr limit (steps + 1) e s).stopped = none) :
    let inside := s.atDepth (s.depth + 1)
    Resolver.expr limit (steps + 1) e s = Walk.plain e s ∧
      (e.inner?.isSome →
        Walk.replay (Resolver.expr limit steps) e inside = Walk.plain e inside) := by
  intro inside
  constructor
  · exact ((Resolver.expr_cuts limit (steps + 1) e s).completed h).symm
  · intro hlink
    obtain ⟨inner, hinner⟩ := Option.isSome_iff_exists.mp hlink
    have hcompleted : (Walk.insideExpr (Resolver.expr limit steps) e inside).stopped = none :=
      Walk.stopped_of_descend h
    rw [← Walk.insideExpr_eq_replay (Resolver.expr limit steps) hinner]
    exact ((Walk.insideExpr_cuts (Resolver.expr_cuts limit steps) e inside).completed
      hcompleted).symm

/-- A property of a sum is called with arguments; runs stand in the sum's right operand and in the
arguments. The variable is read in its own initialiser. -/
theorem expr_eq_plain_mixed :
    let n : Node := ⟨0, ⟨0, 9⟩⟩
    let w : Word := ⟨"x", 1, ⟨0, 1⟩⟩
    let x : Expr := .read n w
    let right : Expr := .group n (.logical n .or x (.call n x [.binary n .mul x x]))
    let e : Expr := .call n (.property n (.binary n .add x right) w) [x, .call n x [x]]
    let s : Surroundings := ⟨⟨[[("x", .declaredAt w)]]⟩, .topLevel, 1, 2⟩
    let inside := s.atDepth 3
    (Resolver.expr 8 9 e s).stopped = none ∧ Resolver.expr 8 9 e s = Walk.plain e s ∧
      (e.inner?.isSome → Walk.replay (Resolver.expr 8 8) e inside = Walk.plain e inside) :=
  ⟨by decide +kernel, expr_eq_plain (by decide +kernel)⟩

end LamScope

import LamScope.Proofs.Reading.RoughProgram
import LamScope.Proofs.Scope.Words

/-!
# Names of a program

Every word that a program declares, reads or returns with was a token. Main statement: the words of
a program, each as often as it occurs, are those of different tokens.
-/
namespace LamScope

open Course

namespace Rough

/-- The words are those of different tokens. -/
def Names (ts : List Token) (ws : List Word) : Prop := ws.Subperm (ts.map Token.toWord)

section
variable {t : Token} {ts us : List Token} {ws vs : List Word}

theorem names_nil (ts : List Token) : Names ts [] := List.nil_subperm

theorem Names.append (h : Names ts ws) (h' : Names us vs) : Names (ts ++ us) (ws ++ vs) := by
  unfold Names
  rw [List.map_append]
  exact List.Subperm.append h h'

theorem Names.left (h : Names ts ws) : Names (ts ++ us) ws := by
  have hall := h.append (names_nil us)
  rwa [List.append_nil] at hall

theorem Names.right (h : Names us ws) : Names (ts ++ us) ws := (names_nil ts).append h

theorem Names.behind (h : Names ts ws) : Names (t :: ts) ws := (names_nil [t]).append h

theorem Names.cons (h : Names ts ws) : Names (t :: ts) (t.toWord :: ws) :=
  (List.subperm_cons t.toWord).mpr h

theorem Names.of_subperm (h : Names ts ws) (hs : vs.Subperm ws) : Names ts vs := hs.trans h

end

theorem steps_apply (o : Operator) (node : Node) (left right : Expr) :
    (o.apply node left right).steps = left.steps ++ right.steps := by
  cases o <;> rfl

theorem allWords_items_append (ss rs : List Step) :
    Item.allWords ((ss ++ rs).map .step) =
      Item.allWords (ss.map .step) ++ Item.allWords (rs.map .step) := by
  rw [List.map_append, Item.allWords_append]

mutual

theorem Expression.names {ts : List Token} {m n : Nat} {e : Expr} :
    Expression ts m n e → Names ts (Item.allWords e.items)
  | .operand h => h.names
  | .assign _ hvalue => by
      rw [Expr.items, Expr.steps, allWords_items_append]
      change Names _ (_ ++ [])
      rw [List.append_nil]
      exact hvalue.names.behind.right
  | .setProperty htarget hvalue => by
      rw [Expr.items, Expr.steps, allWords_items_append]
      exact (htarget.names.append hvalue.names.behind).of_subperm List.perm_append_comm.subperm
  | .rejected htarget _ => htarget.names.left

theorem Operand.names {ts : List Token} {m n : Nat} {e : Expr} :
    Operand ts m n e → Names ts (Item.allWords e.items)
  | .literal _ => names_nil _
  | .name => (names_nil []).cons
  | .group h => h.names.behind.left
  | .unary _ h => h.names.behind
  | .operation o hleft hright => by
      rw [Expr.items, steps_apply, allWords_items_append]
      exact hleft.names.append hright.names.behind
  | .call hcallee hargs => by
      rw [Expr.items, Expr.steps, allWords_items_append]
      exact (hcallee.names.append hargs.names.behind).left
  | .property h => h.names.left

theorem Arguments.names {ts : List Token} {m n : Nat} {es : List Expr} :
    Arguments ts m n es → Names ts (Item.allWords ((Expr.allSteps es).map .step))
  | .none => names_nil _
  | .some _ hfirst hothers => by
      rw [Expr.allSteps, allWords_items_append]
      exact hfirst.names.right.append hothers.names

end

section
variable {ts : List Token} {m n : Nat}

theorem Clause.names {clause : Option Expr} (h : Clause ts m n clause) :
    Names ts (Item.allWords (Expr.clauseItems clause)) := by
  cases h with
  | none => exact names_nil _
  | some he => exact he.names

theorem Variable.names {s : Stmt} (h : Variable ts m n s) : Names ts (Item.allWords s.items) := by
  cases h with
  | @declared keyword name semicolon us _ _ init equals hinit =>
      rw [Stmt.items, Item.allWords_append, Item.allWords_cons]
      change Names _ (name.toWord :: _ ++ [])
      rw [List.append_nil]
      exact (@Names.right equals us _ hinit.names).cons.behind.left

theorem Simple.names {s : Stmt} (h : Simple ts m n s) : Names ts (Item.allWords s.items) := by
  cases h with
  | expr hvalue => exact hvalue.names.left

/-- The items of what runs before a loop. -/
def initItems (init : Option Stmt) : List Item := init.elim [] Stmt.items

theorem ForInit.names {init : Option Stmt} :
    ForInit ts m n init → Names ts (Item.allWords (initItems init))
  | .none => names_nil _
  | .variable hs => hs.names
  | .simple hs => hs.names

theorem Increment.allWords {span : Span} {body repeated : Stmt} {increment : Option Expr}
    (h : Increment span body m n increment repeated) :
    Item.allWords repeated.items =
      Item.allWords body.items ++ Item.allWords (Expr.clauseItems increment) := by
  cases h with
  | none => exact (List.append_nil _).symm
  | @some e =>
      rw [Stmt.items, Item.allWords_cons, Item.words, Stmt.allItems, Stmt.allItems, Stmt.allItems,
        List.append_nil, Item.allWords_append]
      exact List.append_nil _

theorem Endless.items {span : Span} {cond : Option Expr} {endless : Expr}
    (h : Endless span m n cond endless) : endless.items = Expr.clauseItems cond := by
  cases h with
  | none => rfl
  | some => rfl

theorem Initial.allWords {span : Span} {loop s : Stmt} {init : Option Stmt}
    (h : Initial span loop m n init s) :
    Item.allWords s.items = Item.allWords (initItems init) ++ Item.allWords loop.items := by
  cases h with
  | none => rfl
  | some =>
      rw [Stmt.items, Item.allWords_cons, Item.words, Stmt.allItems, Stmt.allItems, Stmt.allItems,
        List.append_nil, Item.allWords_append]
      exact List.append_nil _

end

theorem allWords_parameterItems (names : List Word) :
    Item.allWords (Word.parameterItems names) = names := by
  induction names with
  | nil => rfl
  | cons w names ih => exact congrArg (List.cons w) ih

mutual

theorem Statement.names {ts : List Token} {m n : Nat} {s : Stmt} :
    Statement ts m n s → Names ts (Item.allWords s.items)
  | .simple h => h.names
  | .print h => h.names.behind.left
  | .ret h => h.names.cons.left
  | .block h => by
      rw [Stmt.items, Item.allWords_cons, Item.words]
      change Names _ (_ ++ [])
      rw [List.append_nil]
      exact h.names.behind.left
  | .ifThen hcond hbody | .loop hcond hbody => by
      rw [Stmt.items, Item.allWords_append]
      exact hcond.names.behind.behind.append hbody.names.behind
  | .ifThenElse hcond hbody hotherwise => by
      rw [Stmt.items, Item.allWords_append, Item.allWords_append]
      exact (hcond.names.behind.behind.append hbody.names.behind).append hotherwise.names.behind
  | .forLoop hinit hcond hincrement hbody hrepeated hendless hs => by
      -- The increment stands before the body, but comes after it.
      rw [hs.allWords, Stmt.items, Item.allWords_append, hendless.items, hrepeated.allWords]
      refine Names.of_subperm (((hinit.names.behind.behind.append hcond.names).append
        hincrement.names.behind).append hbody.names.behind) ?_
      rw [List.append_assoc, List.append_assoc]
      exact ((List.perm_append_comm.append_left _).append_left _).subperm

theorem Declaration.names {ts : List Token} {m n : Nat} {s : Stmt} :
    Declaration ts m n s → Names ts (Item.allWords s.items)
  | .variable h => h.names
  | .function h => (h.names .function).behind
  | .classDef h => h.names.behind.cons.behind.left
  | .statement h => h.names

theorem Sequence.names {ts : List Token} {m n : Nat} {ss : List Stmt} :
    Sequence ts m n ss → Names ts (Item.allWords (Stmt.allItems ss))
  | .none => names_nil _
  | .skip _ _ hothers => hothers.names.right
  | .some hfirst hothers => by
      rw [Stmt.allItems, Item.allWords_append]
      exact hfirst.names.append hothers.names

theorem Function.names {ts : List Token} {m n : Nat} {decl : Callable} (kind : Enclosure) :
    Function ts m n decl → Names ts (decl.name :: Item.allWords [Stmt.callableItem kind decl])
  | .callable hparams hbody => by
      have hparams : Names _ _ := hparams.subperm
      rw [Stmt.callableItem, Item.allWords_cons, Item.words, Item.allWords_append,
        allWords_parameterItems]
      change Names _ (_ :: (_ ++ []))
      rw [List.append_nil]
      exact (hparams.behind.append hbody.names.behind.behind).left.cons

theorem Methods.names {ts : List Token} {m n : Nat} {decls : List Callable} :
    Methods ts m n decls → Names ts (Item.allWords (Stmt.methodItems decls))
  | .none => names_nil _
  | .some hfirst hothers => by
      rw [Stmt.methodItems, ← List.singleton_append, Item.allWords_append]
      exact ((hfirst.names .method).of_subperm List.Subperm.cons_self).append hothers.names

end

end Rough

/-- The words of a program are those of different tokens. -/
theorem Program.names_ofCursor {c : Cursor} (hc : c.Closed) :
    Rough.Names c.upcoming (Item.allWords (Stmt.allItems (ofCursor c).statements)) := by
  obtain ⟨ts, hpasses, hstatements⟩ := ofCursor_goes hc.over
  rw [hpasses.upcoming]
  exact hstatements.names.left

end LamScope

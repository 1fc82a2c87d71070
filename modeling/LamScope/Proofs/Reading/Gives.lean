import LamScope.Proofs.Reading.Depth

/-!
# What parsers give

`p.Gives P` says that whatever the parser `p` gives has the property `P`, wherever it starts and
whatever it notes on the way. A parser that fails gives nothing.
-/
namespace LamScope.Parser
variable {α β : Type}

def Gives (p : Parser α) (P : α → Prop) : Prop := ∀ ⦃c a d⦄, p c = .ok a d → P a

variable {p : Parser α} {f : α → Parser β} {P : α → Prop} {Q : β → Prop}

theorem gives_pure {a : α} (h : P a) : (pure a : Parser α).Gives P := by
  intro c b d hb
  cases hb
  exact h

theorem gives_fail (fault : SyntaxFault) : (fail fault : Parser α).Gives P := by
  intro c a d h
  cases h

theorem Gives.bind (hp : p.Gives P) (hf : ∀ a, P a → (f a).Gives Q) : (p >>= f).Gives Q := by
  intro c b d h
  rw [bind_apply] at h
  cases hc : p c with
  | ok a next =>
      rw [hc] at h
      exact hf a (hp hc) h
  | failed fault next =>
      rw [hc] at h
      cases h

/-- What a step gives may not matter. -/
theorem gives_bind (hf : ∀ a, (f a).Gives Q) : (p >>= f).Gives Q :=
  Gives.bind (P := fun _ => True) (fun _ _ _ _ => trivial) fun a _ => hf a

theorem Gives.map {g : α → β} (hp : p.Gives P) (hg : ∀ a, P a → Q (g a)) : (g <$> p).Gives Q :=
  Gives.bind (f := fun a => pure (g a)) hp fun a ha => gives_pure (hg a ha)

theorem manyWithin_gives {stop : Cursor → Bool} (hp : p.Gives P) (bound : List Token) :
    (manyWithin stop p bound).Gives fun as => ∀ a ∈ as, P a := by
  induction bound with
  | nil =>
      rw [manyWithin_nil]
      exact gives_pure (List.forall_mem_nil P)
  | cons t bound ih =>
      intro c as d h
      rw [manyWithin_cons] at h
      split at h
      · cases h
        exact List.forall_mem_nil P
      · refine Gives.bind (Q := fun as => ∀ a ∈ as, P a) hp (fun a ha => ?_) h
        exact ih.bind fun as has => gives_pure (List.forall_mem_cons.mpr ⟨ha, has⟩)

theorem many_gives {stop : Cursor → Bool} (hp : p.Gives P) :
    (many stop p).Gives fun as => ∀ a ∈ as, P a :=
  fun c _ _ h => manyWithin_gives hp c.upcoming h

theorem commaItemsWithin_gives {item : Nat → Parser α} (hi : ∀ i, (item i).Gives P)
    (bound : List Token) (i : Nat) :
    (commaItemsWithin item bound i).Gives fun as => ∀ a ∈ as, P a := by
  induction bound generalizing i with
  | nil =>
      rw [commaItemsWithin_nil]
      exact gives_pure (List.forall_mem_nil P)
  | cons t bound ih =>
      rw [commaItemsWithin_cons]
      refine gives_bind fun more => ?_
      split
      · refine (hi i).bind fun a ha => (ih (i + 1)).bind fun as has => ?_
        exact gives_pure (List.forall_mem_cons.mpr ⟨ha, has⟩)
      · exact gives_pure (List.forall_mem_nil P)

theorem commaList_gives {item : Nat → Parser α} (hi : ∀ i, (item i).Gives P) :
    (commaList item).Gives fun as => ∀ a ∈ as, P a := by
  refine (hi 0).bind fun first hfirst => ?_
  have hothers : Gives (fun c => commaItemsWithin item c.upcoming 1 c) fun as => ∀ a ∈ as, P a :=
    fun c _ _ h => commaItemsWithin_gives hi c.upcoming 1 h
  exact hothers.bind fun others h => gives_pure (List.forall_mem_cons.mpr ⟨hfirst, h⟩)

/-- Every statement of a sequence is one that was given, whatever was skipped between them. -/
theorem sequenceWithin_gives {x : Extent} {item : Parser Stmt} {P : Stmt → Prop}
    (hi : item.Gives P) (bound : List Token) (c : Cursor) :
    ∀ s ∈ (sequenceWithin x item bound c).1, P s := by
  induction bound generalizing c with
  | nil => exact List.forall_mem_nil P
  | cons t bound ih =>
      unfold sequenceWithin
      split
      · exact List.forall_mem_nil P
      split
      · rename_i s next h
        exact List.forall_mem_cons.mpr ⟨hi h, ih next⟩
      · rename_i fault next h
        dsimp only
        split
        · exact List.forall_mem_nil P
        · exact ih _

end LamScope.Parser

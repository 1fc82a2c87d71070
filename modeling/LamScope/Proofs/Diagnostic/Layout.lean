import LamScope.Proofs.Diagnostic.Rows

/-!
# Rows under source lines

The rows that belong to a source line follow it directly. Main statement: under the source line of
an excerpt stand just the rows of that excerpt, and such rows stand nowhere else.
-/
namespace LamScope

namespace Row

/-- These are all the rows between a source line and the next row that belongs to none. -/
def Beneath (rows : List Row) (line : Nat) (text : List Char) (under : List Row) : Prop :=
  ∃ above below, rows = above ++ .source line text :: (under ++ below) ∧
    (∀ r ∈ under, r.isUnder = true) ∧ ∀ r, below.head? = some r → r.isUnder = false

theorem Beneath.append {rows under : List Row} {line : Nat} {text : List Char}
    (h : Beneath rows line text under) (above : List Row) {below : List Row}
    (hbelow : ∀ r, below.head? = some r → r.isUnder = false) :
    Beneath (above ++ rows ++ below) line text under := by
  obtain ⟨above', below', rfl, hunder, hbelow'⟩ := h
  refine ⟨above ++ above', below' ++ below, by simp, hunder, fun r hr => ?_⟩
  cases below' with
  | nil => exact hbelow r hr
  | cons r' below' => exact hbelow' r hr

end Row

namespace Excerpt
variable {e : Excerpt} {es : List Excerpt}

theorem beneath_shownAll (h : e ∈ es) : Row.Beneath (shownAll es) e.line e.text e.beneath := by
  have hunder : ∀ r ∈ e.beneath, r.isUnder = true := fun r => isUnder_of_mem_beneath
  induction es with
  | nil => cases h
  | cons f es ih =>
      cases es with
      | nil =>
          obtain rfl := List.mem_singleton.mp h
          exact ⟨[], [], by simp [shownAll, shown], hunder, nofun⟩
      | cons g es =>
          rw [shownAll]
          rcases List.mem_cons.mp h with rfl | h
          · refine ⟨[], _, by rw [shown, List.append_assoc]; rfl, hunder, fun r hr => ?_⟩
            split at hr
            · obtain rfl : Row.gap = r := Option.some.inj hr
              rfl
            · have hhead : (shownAll (g :: es)).head? = some (.source g.line g.text) := by
                cases es <;> rfl
              rw [List.nil_append, hhead] at hr
              obtain rfl := Option.some.inj hr
              rfl
          · have hnone : ∀ r, ([] : List Row).head? = some r → r.isUnder = false := nofun
            have hbeneath := (ih h).append (f.shown ++ if f.line + 1 < g.line then [.gap] else [])
              hnone
            rwa [List.append_nil] at hbeneath

theorem mem_shownAll {r : Row} (h : r ∈ shownAll es) : r = .gap ∨ ∃ e ∈ es, r ∈ e.shown := by
  induction es with
  | nil => cases h
  | cons f es ih =>
      cases es with
      | nil => exact .inr ⟨f, List.mem_cons_self, h⟩
      | cons g es =>
          rw [shownAll] at h
          rcases List.mem_append.mp h with h | h
          · rcases List.mem_append.mp h with h | h
            · exact .inr ⟨f, List.mem_cons_self, h⟩
            · split at h
              · exact .inl (List.mem_singleton.mp h)
              · cases h
          · obtain rfl | ⟨e, he, hr⟩ := ih h
            · exact .inl rfl
            · exact .inr ⟨e, List.mem_cons_of_mem f he, hr⟩

end Excerpt

namespace Diagnostic
variable {m : LineMap} {file : String} {d : Diagnostic}

theorem beneath_rows {e : Excerpt} (h : e ∈ Excerpt.ofLabels m d.labels) :
    Row.Beneath (d.rows m file) e.line e.text e.beneath := by
  have hne := List.ne_nil_of_mem h
  obtain ⟨primary, hprimary⟩ := exists_primarySpan? hne
  have hbelow : ∀ r, (d.lastMargin ++ d.remarkRows).head? = some r → r.isUnder = false := by
    intro r hr
    refine Row.isUnder_of_isOuter ?_
    rcases List.mem_append.mp (List.mem_of_mem_head? hr) with hr | hr
    · exact d.isOuter_of_mem_lastMargin hr
    · exact d.isOuter_of_mem_remarkRows hr
  have hbeneath := (Excerpt.beneath_shownAll h).append
    [.title d.severity d.code d.message, .place file (m.position primary.start), .empty] hbelow
  rw [rows, middleRows_of_ne_nil file hprimary hne, placeRows]
  simpa using hbeneath

/-- The rows of a diagnostic with one label. -/
theorem rows_of_singleton {l : Label} {e : Excerpt} (hlabels : d.labels = [l])
    (h : Excerpt.ofLabels m [l] = [e]) :
    d.rows m file = .title d.severity d.code d.message ::
      .place file (m.position l.span.start) :: .empty ::
      (e.shown ++ (d.lastMargin ++ d.remarkRows)) := by
  have hprimary : d.primarySpan? = some l.span := by
    unfold primarySpan?
    rw [hlabels, List.find?_cons]
    cases l.role == .primary <;> rfl
  have hne : Excerpt.ofLabels m d.labels ≠ [] := by
    rw [hlabels, h]
    exact List.cons_ne_nil e []
  rw [rows, middleRows_of_ne_nil file hprimary hne, placeRows, hlabels, h, Excerpt.shownAll]
  simp

/-- Rows under source lines stand nowhere else. -/
theorem exists_of_isUnder {r : Row} (h : r ∈ d.rows m file) (hunder : r.isUnder = true) :
    ∃ e ∈ Excerpt.ofLabels m d.labels, r ∈ e.beneath := by
  have hpick := filterMap_rows (f := Option.guard Row.isUnder) m file d fun r hr => by
    rw [Option.guard_eq_none_iff]
    exact Row.isUnder_of_isOuter hr
  have hplace : ((d.place? m).bind fun p => Option.guard Row.isUnder (.place file p)) = none := by
    cases d.place? m <;> rfl
  have hmem : r ∈ (d.rows m file).filterMap (Option.guard Row.isUnder) :=
    List.mem_filterMap.mpr ⟨r, h, Option.guard_eq_some_iff.mpr ⟨rfl, hunder⟩⟩
  rw [hpick, hplace] at hmem
  obtain ⟨r', hr', hguard⟩ := List.mem_filterMap.mp hmem
  obtain ⟨rfl, -⟩ := Option.guard_eq_some_iff.mp hguard
  obtain rfl | ⟨e, he, hmem⟩ := Excerpt.mem_shownAll hr'
  · cases hunder
  · rcases List.mem_cons.mp hmem with rfl | hmem
    · cases hunder
    · exact ⟨e, he, hmem⟩

end Diagnostic

end LamScope

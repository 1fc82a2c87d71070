/-!
# Tables of distances

A table from node numbers to distances, in increasing order of the numbers. A number recorded
again keeps its last distance only.
-/
namespace LamScope

structure Locals where
  entries : List (Nat × Nat)
  increasing : entries.Pairwise fun a b => a.1 < b.1

namespace Locals

def empty : Locals := ⟨[], .nil⟩

/-- Puts an entry where its number belongs. -/
def insert (id distance : Nat) : List (Nat × Nat) → List (Nat × Nat)
  | [] => [(id, distance)]
  | e :: rest =>
      if id < e.1 then (id, distance) :: e :: rest
      else if id = e.1 then (id, distance) :: rest
      else e :: insert id distance rest

theorem fst_of_mem_insert {id distance : Nat} {entries : List (Nat × Nat)} {e : Nat × Nat}
    (h : e ∈ insert id distance entries) : e.1 = id ∨ e ∈ entries := by
  induction entries with
  | nil => simp_all [insert]
  | cons a rest ih =>
    unfold insert at h
    split at h
    · rcases List.mem_cons.1 h with rfl | h
      · exact .inl rfl
      · exact .inr h
    split at h
    · rcases List.mem_cons.1 h with rfl | h
      · exact .inl rfl
      · exact .inr (List.mem_cons_of_mem _ h)
    · rcases List.mem_cons.1 h with rfl | h
      · exact .inr List.mem_cons_self
      · exact (ih h).imp_right (List.mem_cons_of_mem _)

theorem increasing_insert (id distance : Nat) {entries : List (Nat × Nat)}
    (h : entries.Pairwise fun a b => a.1 < b.1) :
    (insert id distance entries).Pairwise fun a b => a.1 < b.1 := by
  induction h with
  | nil => simp [insert]
  | @cons e rest below above ih =>
    unfold insert
    split
    · rename_i lt
      refine .cons (fun b hb => ?_) (.cons below above)
      rcases List.mem_cons.1 hb with rfl | hb
      · exact lt
      · exact Nat.lt_trans lt (below b hb)
    split
    · rename_i eq
      exact .cons (fun b hb => eq ▸ below b hb) above
    · refine .cons (fun b hb => ?_) ih
      rcases fst_of_mem_insert hb with same | hb
      · show e.1 < b.1
        omega
      · exact below b hb

def record (t : Locals) (id distance : Nat) : Locals :=
  ⟨insert id distance t.entries, increasing_insert id distance t.increasing⟩

def ofRecords (records : List (Nat × Nat)) : Locals :=
  records.foldl (fun t r => t.record r.1 r.2) empty

def get? (t : Locals) (id : Nat) : Option Nat :=
  (t.entries.find? fun e => e.1 == id).map Prod.snd

def size (t : Locals) : Nat := t.entries.length

def isEmpty (t : Locals) : Bool := t.entries.isEmpty

end Locals

end LamScope

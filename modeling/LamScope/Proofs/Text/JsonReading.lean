import LamScope.Proofs.Text.JsonDocument
import LamScope.Proofs.Text.Runs

/-!
# Reading JSON documents

A reader goes through a document from the left and gives the value it finds together with what
stands behind it. Main statement: it reads every document of a value as that value, so no text is a
document of two values.
-/
namespace LamScope.JsonValue

open Text

def skipSpace (cs : List Char) : List Char := cs.dropWhile isSpace

/-- The second of two code units. -/
def lowUnit? (high : Nat) : List Char → Option (Char × List Char)
  | '\\' :: 'u' :: a :: b :: c :: d :: rest => do
      let low ← codeUnit? a b c d
      if isLowUnit low then some (ofUnits high low, rest) else none
  | _ => none

/-- One character inside a string. -/
def char? : List Char → Option (Char × List Char)
  | '\\' :: 'u' :: a :: b :: c :: d :: rest => do
      let n ← codeUnit? a b c d
      if isHighUnit n then lowUnit? n rest
      else if isLowUnit n then none
      else some (Char.ofNat n, rest)
  | '\\' :: e :: rest => (shortEscape? e).map fun c => (c, rest)
  | c :: rest => if c.toNat < 0x20 then none else some (c, rest)
  | [] => none

/-- At most `n` characters up to a quote. -/
def chars? : Nat → List Char → Option (List Char × List Char)
  | 0, _ => none
  | _ + 1, '"' :: rest => some ([], rest)
  | n + 1, cs => do
      let (c, cs) ← char? cs
      let (s, rest) ← chars? n cs
      return (c :: s, rest)

def string? (n : Nat) : List Char → Option (String × List Char)
  | '"' :: cs => (chars? n cs).map fun (s, rest) => (String.ofList s, rest)
  | _ => none

def number? (cs : List Char) : Option (JsonValue × List Char) :=
  let ds := cs.takeWhile Char.isDigit
  if ds.isEmpty then none
  else some (.nat (Nat.ofDigitChars 10 ds 0), cs.dropWhile Char.isDigit)

mutual

/-- A value of at most `n` characters. -/
def value? : Nat → List Char → Option (JsonValue × List Char)
  | 0, _ => none
  | n + 1, cs =>
      match cs with
      | 't' :: 'r' :: 'u' :: 'e' :: rest => some (.bool true, rest)
      | 'f' :: 'a' :: 'l' :: 's' :: 'e' :: rest => some (.bool false, rest)
      | '"' :: _ => (string? n cs).map fun (s, rest) => (.string s, rest)
      | '[' :: cs =>
          match skipSpace cs with
          | ']' :: rest => some (.array [], rest)
          | _ => (items? n cs).map fun (vs, rest) => (.array vs, rest)
      | '{' :: cs =>
          match skipSpace cs with
          | '}' :: rest => some (.object [], rest)
          | _ => (fields? n cs).map fun (fs, rest) => (.object fs, rest)
      | cs => number? cs

/-- The items of an array and its end. -/
def items? : Nat → List Char → Option (List JsonValue × List Char)
  | 0, _ => none
  | n + 1, cs => do
      let (v, rest) ← value? n (skipSpace cs)
      match skipSpace rest with
      | ',' :: rest => do
          let (vs, rest) ← items? n rest
          return (v :: vs, rest)
      | ']' :: rest => return ([v], rest)
      | _ => none

/-- The fields of an object and its end. -/
def fields? : Nat → List Char → Option (List (String × JsonValue) × List Char)
  | 0, _ => none
  | n + 1, cs => do
      let (k, rest) ← string? n (skipSpace cs)
      match skipSpace rest with
      | ':' :: rest => do
          let (v, rest) ← value? n (skipSpace rest)
          match skipSpace rest with
          | ',' :: rest => do
              let (fs, rest) ← fields? n rest
              return ((k, v) :: fs, rest)
          | '}' :: rest => return ([(k, v)], rest)
          | _ => none
      | _ => none

end

/-- The value of a whole document. -/
def read? (cs : List Char) : Option JsonValue := do
  let (v, rest) ← value? cs.length (skipSpace cs)
  if (skipSpace rest).isEmpty then some v else none

/-- A reader that may take more than some number of characters may take one. -/
theorem exists_fuel {m n : Nat} (h : m < n) : ∃ k, n = k + 1 :=
  Nat.exists_eq_add_one.mpr (Nat.zero_lt_of_lt h)

theorem isDigit_of_isSpace {c : Char} (h : isSpace c = true) : c.isDigit = false := by
  simp only [isSpace, Bool.or_eq_true, beq_iff_eq] at h
  rcases h with ((rfl | rfl) | rfl) | rfl <;> rfl

theorem stops_isDigit {ws : List Char} {c : Char} (h : Space ws) (hc : c.isDigit = false)
    (rest : List Char) : Stops Char.isDigit (ws ++ c :: rest) := by
  cases ws with
  | nil => exact stops_cons hc rest
  | cons d ws => exact stops_cons (isDigit_of_isSpace (h d List.mem_cons_self)) _

theorem skipSpace_cons {ws : List Char} {c : Char} (h : Space ws) (hc : isSpace c = false)
    (rest : List Char) : skipSpace (ws ++ c :: rest) = c :: rest :=
  dropWhile_run h (stops_cons hc rest)

theorem number?_of_numeral {ds rest : List Char} {n : Nat} (h : Numeral ds n)
    (hrest : Stops Char.isDigit rest) : number? (ds ++ rest) = some (.nat n, rest) := by
  unfold number?
  dsimp only
  rw [takeWhile_run h.digits hrest, dropWhile_run h.digits hrest, h.value,
    if_neg (by simpa using h.nonempty)]

theorem char?_of_stringChar {ds : List Char} {c : Char} (h : StringChar ds c) (rest : List Char) :
    char? (ds ++ rest) = some (c, rest) := by
  cases h with
  | plain hplain hquote hbackslash =>
      rw [List.singleton_append, char?]
      · rw [if_neg (Nat.not_lt.mpr hplain)]
      · exact fun _ _ _ _ _ h _ => hbackslash h
      · exact fun _ _ h _ => hbackslash h
  | @short e c he =>
      have hu : e ≠ 'u' := by
        rintro rfl
        cases he
      rw [List.cons_append, List.cons_append, List.nil_append, char?]
      · rw [he]
        rfl
      · exact fun _ _ _ _ _ h _ => hu h
  | unit hn hhigh hlow => simp [char?, hn, hhigh, hlow]
  | units hhigh hhigh' hlow hlow' => simp [char?, lowUnit?, hhigh, hhigh', hlow, hlow']

theorem quote_ne_of_stringChar {ds : List Char} {c : Char} (h : StringChar ds c) :
    ∃ d ds', ds = d :: ds' ∧ d ≠ '"' := by
  cases h with
  | plain _ hquote _ => exact ⟨_, _, rfl, hquote⟩
  | short | unit | units => exact ⟨_, _, rfl, by decide⟩

theorem chars?_of_stringText {cs s : List Char} (h : StringText cs s) {n : Nat}
    (hn : cs.length < n) (rest : List Char) : chars? n (cs ++ '"' :: rest) = some (s, rest) := by
  induction h generalizing n with
  | nil =>
      obtain ⟨n, rfl⟩ := exists_fuel hn
      rfl
  | @cons ds cs s c hc hs ih =>
      obtain ⟨n, rfl⟩ := exists_fuel hn
      obtain ⟨d, ds, rfl, hd⟩ := quote_ne_of_stringChar hc
      have hchar := char?_of_stringChar hc (cs ++ '"' :: rest)
      rw [List.append_assoc]
      rw [List.cons_append] at hchar ⊢
      rw [chars?]
      · rw [hchar]
        simp only [List.length_append, List.length_cons] at hn
        simp [ih (n := n) (by omega)]
      · intro rest' heq
        exact hd (List.cons.inj heq).1

theorem string?_of_stringText {cs : List Char} {s : String} (h : StringText cs s.toList) {n : Nat}
    (hn : cs.length < n) (rest : List Char) :
    string? n ('"' :: (cs ++ '"' :: rest)) = some (s, rest) := by
  rw [string?, chars?_of_stringText h hn, Option.map_some]
  simp

theorem value?_of_isDigit {c : Char} (h : c.isDigit = true) (n : Nat) (cs : List Char) :
    value? (n + 1) (c :: cs) = number? (c :: cs) := by
  rw [value?]
  all_goals
    intro _ heq
    cases heq
    cases h

theorem key_string? {ks : List Char} {k : String} (h : Key ks k) {n : Nat} (hn : ks.length ≤ n)
    (rest : List Char) : ∃ more,
      string? n (skipSpace (ks ++ ':' :: rest)) = some (k, more) ∧
        skipSpace more = ':' :: rest := by
  cases h with
  | @intro ws cs ws' _ hws hk hws' =>
      simp only [List.length_append, List.length_cons] at hn
      have hskip : skipSpace (ws ++ '"' :: cs ++ '"' :: ws' ++ ':' :: rest) =
          '"' :: (cs ++ '"' :: (ws' ++ ':' :: rest)) := by
        rw [List.append_assoc, List.append_assoc]
        exact skipSpace_cons hws rfl _
      refine ⟨ws' ++ ':' :: rest, ?_, skipSpace_cons hws' rfl rest⟩
      rw [hskip]
      exact string?_of_stringText hk (by omega) _

/-- What a value may begin with. -/
theorem exists_cons_of_written {cs : List Char} {v : JsonValue} (h : Written cs v) :
    ∃ c ds, cs = c :: ds ∧ isSpace c = false ∧ c ≠ ']' := by
  cases h with
  | @nat _ n hds =>
      obtain ⟨d, ds, rfl⟩ := List.exists_cons_of_ne_nil hds.nonempty
      have hd := hds.digits d List.mem_cons_self
      refine ⟨d, ds, rfl, ?_, ?_⟩
      · rw [Bool.eq_false_iff]
        intro hspace
        rw [isDigit_of_isSpace hspace] at hd
        cases hd
      · rintro rfl
        cases hd
  | bool b => cases b <;> exact ⟨_, _, rfl, rfl, by decide⟩
  | string | emptyArray | array | emptyObject | object => exact ⟨_, _, rfl, rfl, by decide⟩

theorem exists_of_document {cs : List Char} {v : JsonValue} (h : Document cs v) :
    ∃ ws c ds, cs = ws ++ c :: ds ∧ Space ws ∧ isSpace c = false ∧ c ≠ ']' := by
  cases h with
  | @intro ws _ ws' _ hws hv hws' =>
      obtain ⟨c, ds, rfl, hc⟩ := exists_cons_of_written hv
      exact ⟨ws, c, ds ++ ws', by simp, hws, hc⟩

theorem exists_of_items {cs : List Char} {vs : List JsonValue} (h : Items cs vs) :
    ∃ ws c ds, cs = ws ++ c :: ds ∧ Space ws ∧ isSpace c = false ∧ c ≠ ']' := by
  cases h with
  | last h => exact exists_of_document h
  | @more _ ds _ _ h hs =>
      obtain ⟨ws, c, cs, rfl, hc⟩ := exists_of_document h
      exact ⟨ws, c, cs ++ ',' :: ds, by simp, hc⟩

theorem exists_of_fields {cs : List Char} {fs : List (String × JsonValue)} (h : Fields cs fs) :
    ∃ ws ds, cs = ws ++ '"' :: ds ∧ Space ws := by
  cases h with
  | last hkey hv =>
      cases hkey with
      | intro hws => exact ⟨_, _, by simp only [List.append_assoc, List.cons_append]; rfl, hws⟩
  | more hkey hv hs =>
      cases hkey with
      | intro hws => exact ⟨_, _, by simp only [List.append_assoc, List.cons_append]; rfl, hws⟩

mutual

theorem value?_of_written {cs : List Char} {v : JsonValue} :
    Written cs v → ∀ {n : Nat}, cs.length ≤ n → ∀ {rest : List Char}, Stops Char.isDigit rest →
      value? n (cs ++ rest) = some (v, rest)
  | .nat hds, n, hn, rest, hrest => by
      obtain ⟨d, ds, rfl⟩ := List.exists_cons_of_ne_nil hds.nonempty
      obtain ⟨m, rfl⟩ := exists_fuel hn
      have hnumber := number?_of_numeral hds hrest
      rw [List.cons_append] at hnumber ⊢
      rw [value?_of_isDigit (hds.digits d List.mem_cons_self), hnumber]
  | .bool b, n, hn, rest, hrest => by
      obtain ⟨m, rfl⟩ : ∃ m, n = m + 1 := by
        cases b <;> exact Nat.exists_eq_add_one.mpr (Nat.lt_of_lt_of_le (by decide) hn)
      cases b <;> rfl
  | .string hs, n, hn, rest, hrest => by
      simp only [List.cons_append, List.length_cons, List.length_append] at hn
      obtain ⟨m, rfl⟩ := exists_fuel hn
      have hstring := string?_of_stringText hs (n := m) (by omega) rest
      rw [List.cons_append, List.cons_append, List.append_assoc, List.singleton_append, value?,
        hstring]
      rfl
  | .emptyArray hws, n, hn, rest, hrest => by
      obtain ⟨m, rfl⟩ := exists_fuel hn
      have hskip := skipSpace_cons hws (c := ']') rfl rest
      rw [List.cons_append, List.cons_append, List.append_assoc, List.singleton_append, value?,
        hskip]
      rfl
  | @Written.array cs _ hs, n, hn, rest, hrest => by
      simp only [List.cons_append, List.length_cons, List.length_append] at hn
      obtain ⟨m, rfl⟩ := exists_fuel hn
      have hitems := items?_of_items hs (n := m) (by omega) rest
      obtain ⟨ws, c, ds, heq, hws, hspace, hne⟩ := exists_of_items hs
      have hskip : skipSpace (cs ++ ']' :: rest) = c :: (ds ++ ']' :: rest) := by
        rw [heq, List.append_assoc]
        exact skipSpace_cons hws hspace _
      rw [List.cons_append, List.cons_append, List.append_assoc, List.singleton_append, value?,
        hskip, hitems]
      split
      · rename_i hc
        exact absurd (List.cons.inj hc).1 hne
      · rfl
  | .emptyObject hws, n, hn, rest, hrest => by
      obtain ⟨m, rfl⟩ := exists_fuel hn
      have hskip := skipSpace_cons hws (c := '}') rfl rest
      rw [List.cons_append, List.cons_append, List.append_assoc, List.singleton_append, value?,
        hskip]
      rfl
  | @Written.object cs _ hs, n, hn, rest, hrest => by
      simp only [List.cons_append, List.length_cons, List.length_append] at hn
      obtain ⟨m, rfl⟩ := exists_fuel hn
      have hfields := fields?_of_fields hs (n := m) (by omega) rest
      obtain ⟨ws, ds, heq, hws⟩ := exists_of_fields hs
      have hskip : skipSpace (cs ++ '}' :: rest) = '"' :: (ds ++ '}' :: rest) := by
        rw [heq, List.append_assoc]
        exact skipSpace_cons hws rfl _
      rw [List.cons_append, List.cons_append, List.append_assoc, List.singleton_append, value?,
        hskip, hfields]
      rfl

theorem document_value? {cs : List Char} {v : JsonValue} :
    Document cs v → ∀ {n : Nat}, cs.length ≤ n → ∀ {c : Char}, c.isDigit = false →
      isSpace c = false → ∀ rest, ∃ more,
        value? n (skipSpace (cs ++ c :: rest)) = some (v, more) ∧ skipSpace more = c :: rest
  | @Document.intro ws cs ws' _ hws hv hws', n, hn, c, hdigit, hspace, rest => by
      simp only [List.length_append] at hn
      obtain ⟨d, ds, heq, hd, -⟩ := exists_cons_of_written hv
      have hskip : skipSpace (ws ++ cs ++ ws' ++ c :: rest) = cs ++ (ws' ++ c :: rest) := by
        rw [heq, List.append_assoc, List.append_assoc]
        exact skipSpace_cons hws hd _
      refine ⟨ws' ++ c :: rest, ?_, skipSpace_cons hws' hspace rest⟩
      rw [hskip]
      exact value?_of_written hv (by omega) (stops_isDigit hws' hdigit rest)

theorem items?_of_items {cs : List Char} {vs : List JsonValue} :
    Items cs vs → ∀ {n : Nat}, cs.length < n → ∀ rest,
      items? n (cs ++ ']' :: rest) = some (vs, rest)
  | .last h, n, hn, rest => by
      obtain ⟨m, rfl⟩ := exists_fuel hn
      obtain ⟨more, hvalue, hmore⟩ := document_value? h (n := m) (by omega) (c := ']') rfl rfl rest
      rw [items?, hvalue]
      simp [hmore]
  | @Items.more _ ds _ _ h hs, n, hn, rest => by
      obtain ⟨m, rfl⟩ := exists_fuel hn
      simp only [List.length_append, List.length_cons] at hn
      obtain ⟨more, hvalue, hmore⟩ := document_value? h (n := m) (by omega) (c := ',') rfl rfl
        (ds ++ ']' :: rest)
      have hothers := items?_of_items hs (n := m) (by omega) rest
      rw [List.append_assoc, List.cons_append, items?, hvalue]
      simp [hmore, hothers]

theorem fields?_of_fields {cs : List Char} {fs : List (String × JsonValue)} :
    Fields cs fs → ∀ {n : Nat}, cs.length < n → ∀ rest,
      fields? n (cs ++ '}' :: rest) = some (fs, rest)
  | @Fields.last _ cs _ _ hk h, n, hn, rest => by
      obtain ⟨m, rfl⟩ := exists_fuel hn
      simp only [List.length_append, List.length_cons] at hn
      obtain ⟨behind, hkey, hbehind⟩ := key_string? hk (n := m) (by omega) (cs ++ '}' :: rest)
      obtain ⟨more, hvalue, hmore⟩ := document_value? h (n := m) (by omega) (c := '}') rfl rfl rest
      rw [List.append_assoc, List.cons_append, fields?, hkey]
      simp [hbehind, hvalue, hmore]
  | @Fields.more _ cs ds _ _ _ hk h hs, n, hn, rest => by
      obtain ⟨m, rfl⟩ := exists_fuel hn
      simp only [List.length_append, List.length_cons] at hn
      obtain ⟨behind, hkey, hbehind⟩ := key_string? hk (n := m) (by omega)
        (cs ++ ',' :: (ds ++ '}' :: rest))
      obtain ⟨more, hvalue, hmore⟩ := document_value? h (n := m) (by omega) (c := ',') rfl rfl
        (ds ++ '}' :: rest)
      have hothers := fields?_of_fields hs (n := m) (by omega) rest
      rw [List.append_assoc, List.cons_append, List.append_assoc, List.cons_append, fields?, hkey]
      simp [hbehind, hvalue, hmore, hothers]

end

/-- A document is read as the value it is a document of. -/
theorem read?_of_document {cs : List Char} {v : JsonValue} (h : Document cs v) :
    read? cs = some v := by
  cases h with
  | @intro ws cs ws' _ hws hv hws' =>
      obtain ⟨c, ds, heq, hc, -⟩ := exists_cons_of_written hv
      have hskip : skipSpace (ws ++ cs ++ ws') = cs ++ ws' := by
        rw [heq, List.append_assoc]
        exact skipSpace_cons hws hc _
      have hend : skipSpace (ws' ++ []) = [] := dropWhile_run hws' stops_nil
      rw [List.append_nil] at hend
      have hstops : Stops Char.isDigit ws' := by
        intro d hd
        exact isDigit_of_isSpace (hws' d (List.mem_of_head? hd))
      unfold read?
      rw [hskip, value?_of_written hv (by simp; omega) hstops]
      simp [hend]

end LamScope.JsonValue

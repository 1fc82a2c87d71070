import LamScope.Text.JsonValue

/-!
# The grammar of JSON documents

A document is written with white space between its parts as one likes, and the characters of a
string stand for themselves or are escaped, in one of several ways. Of numbers the grammar has the
natural ones. Main statement: the layout of a value is a document of that value.
-/
namespace LamScope.JsonValue

/-- The characters that may stand between the parts of a document. -/
def isSpace (c : Char) : Bool := c == ' ' || c == '\t' || c == '\n' || c == '\r'

def Space (cs : List Char) : Prop := ∀ c ∈ cs, isSpace c = true

/-- Digits without a needless zero in front. -/
structure Numeral (ds : List Char) (n : Nat) : Prop where
  nonempty : ds ≠ []
  digits : ∀ d ∈ ds, d.isDigit = true
  noLeadingZero : ds.head? = some '0' → ds = ['0']
  value : Nat.ofDigitChars 10 ds 0 = n

def hexDigit? (c : Char) : Option Nat :=
  if c.isDigit then some (c.toNat - '0'.toNat)
  else if 'a' ≤ c ∧ c ≤ 'f' then some (c.toNat - 'a'.toNat + 10)
  else if 'A' ≤ c ∧ c ≤ 'F' then some (c.toNat - 'A'.toNat + 10)
  else none

/-- The number that four hexadecimal digits denote. -/
def codeUnit? (a b c d : Char) : Option Nat := do
  let a ← hexDigit? a
  let b ← hexDigit? b
  let c ← hexDigit? c
  let d ← hexDigit? d
  return ((a * 16 + b) * 16 + c) * 16 + d

/-- The first and the second of two code units that denote one character. -/
def isHighUnit (n : Nat) : Bool := 0xd800 ≤ n && n < 0xdc00

def isLowUnit (n : Nat) : Bool := 0xdc00 ≤ n && n < 0xe000

def ofUnits (high low : Nat) : Char :=
  Char.ofNat (0x10000 + (high - 0xd800) * 0x400 + (low - 0xdc00))

/-- The character that a backslash and one more character stand for. -/
def shortEscape? : Char → Option Char
  | '"' => some '"'
  | '\\' => some '\\'
  | '/' => some '/'
  | 'b' => some '\x08'
  | 'f' => some '\x0c'
  | 'n' => some '\n'
  | 'r' => some '\r'
  | 't' => some '\t'
  | _ => none

/-- What a character inside a string may be written as. -/
inductive StringChar : List Char → Char → Prop
  | plain {c : Char} : 0x20 ≤ c.toNat → c ≠ '"' → c ≠ '\\' → StringChar [c] c
  | short {e c : Char} : shortEscape? e = some c → StringChar ['\\', e] c
  | unit {a b c d : Char} {n : Nat} : codeUnit? a b c d = some n → isHighUnit n = false →
      isLowUnit n = false → StringChar ['\\', 'u', a, b, c, d] (Char.ofNat n)
  | units {a b c d a' b' c' d' : Char} {high low : Nat} : codeUnit? a b c d = some high →
      isHighUnit high = true → codeUnit? a' b' c' d' = some low → isLowUnit low = true →
      StringChar ['\\', 'u', a, b, c, d, '\\', 'u', a', b', c', d'] (ofUnits high low)

/-- What stands between the quotes of a string. -/
inductive StringText : List Char → List Char → Prop
  | nil : StringText [] []
  | cons {ds cs s : List Char} {c : Char} :
      StringChar ds c → StringText cs s → StringText (ds ++ cs) (c :: s)

/-- A quoted string with white space around it. -/
inductive Key : List Char → String → Prop
  | intro {ws cs ws' : List Char} {s : String} : Space ws → StringText cs s.toList → Space ws' →
      Key (ws ++ '"' :: cs ++ '"' :: ws') s

mutual

inductive Written : List Char → JsonValue → Prop
  | nat {ds : List Char} {n : Nat} : Numeral ds n → Written ds (.nat n)
  | bool (b : Bool) : Written (if b then "true".toList else "false".toList) (.bool b)
  | string {cs : List Char} {s : String} :
      StringText cs s.toList → Written ('"' :: cs ++ ['"']) (.string s)
  | emptyArray {ws : List Char} : Space ws → Written ('[' :: ws ++ [']']) (.array [])
  | array {cs : List Char} {vs : List JsonValue} :
      Items cs vs → Written ('[' :: cs ++ [']']) (.array vs)
  | emptyObject {ws : List Char} : Space ws → Written ('{' :: ws ++ ['}']) (.object [])
  | object {cs : List Char} {fs : List (String × JsonValue)} :
      Fields cs fs → Written ('{' :: cs ++ ['}']) (.object fs)

/-- A value with white space around it. -/
inductive Document : List Char → JsonValue → Prop
  | intro {ws cs ws' : List Char} {v : JsonValue} :
      Space ws → Written cs v → Space ws' → Document (ws ++ cs ++ ws') v

/-- Values with commas between them. -/
inductive Items : List Char → List JsonValue → Prop
  | last {cs : List Char} {v : JsonValue} : Document cs v → Items cs [v]
  | more {cs ds : List Char} {v : JsonValue} {vs : List JsonValue} :
      Document cs v → Items ds vs → Items (cs ++ ',' :: ds) (v :: vs)

/-- Keys with values, and commas between them. -/
inductive Fields : List Char → List (String × JsonValue) → Prop
  | last {ks cs : List Char} {k : String} {v : JsonValue} :
      Key ks k → Document cs v → Fields (ks ++ ':' :: cs) [(k, v)]
  | more {ks cs ds : List Char} {k : String} {v : JsonValue} {fs : List (String × JsonValue)} :
      Key ks k → Document cs v → Fields ds fs →
      Fields (ks ++ ':' :: cs ++ ',' :: ds) ((k, v) :: fs)

end

theorem space_nil : Space [] := List.forall_mem_nil _

theorem space_blank : Space [' '] := List.forall_mem_singleton.mpr (by rfl)

theorem space_indent (level : Nat) : Space (indent level) := by
  intro c hc
  rcases List.mem_cons.mp hc with rfl | hc
  · rfl
  · rw [List.eq_of_mem_replicate hc]
    rfl

theorem head?_toDigits {n : Nat} (hn : n ≠ 0) : (Nat.toDigits 10 n).head? ≠ some '0' := by
  induction n using Nat.strongRecOn with
  | ind n ih =>
      by_cases hsmall : n < 10
      · have hdigit : ∀ d < 10, d ≠ 0 → Nat.digitChar d ≠ '0' := by decide
        rw [Nat.toDigits_of_lt_base hsmall, List.head?_cons]
        exact fun h => hdigit n hsmall hn (Option.some.inj h)
      · have hfront := ih (n / 10) (by omega) (by omega)
        rw [Nat.toDigits_of_base_le (by decide) (Nat.le_of_not_lt hsmall)]
        obtain ⟨d, ds, hds⟩ := List.exists_cons_of_ne_nil (Nat.toDigits_ne_nil (n := n / 10))
        rw [hds] at hfront ⊢
        exact hfront

theorem numeral_toDigits (n : Nat) : Numeral (Nat.toDigits 10 n) n where
  nonempty := Nat.toDigits_ne_nil
  digits _ := Nat.isDigit_of_mem_toDigits (by decide) (by decide)
  noLeadingZero h := by
    by_cases hn : n = 0
    · subst hn
      rfl
    · exact absurd h (head?_toDigits hn)
  value := Nat.ofDigitChars_ten_toDigits

theorem hexDigit?_digitChar {n : Nat} (h : n < 16) : hexDigit? (Nat.digitChar n) = some n := by
  revert n
  decide

/-- Whatever the character is, it can be read back from what it is escaped to. -/
theorem stringChar_escape (c : Char) : StringChar (escape c) c := by
  unfold escape
  iterate 7
    split
    · subst c
      exact .short rfl
  split
  · rename_i hcontrol
    have hunit : codeUnit? '0' '0' (Nat.digitChar (c.toNat / 16)) (Nat.digitChar (c.toNat % 16)) =
        some c.toNat := by
      have hhigh := hexDigit?_digitChar (n := c.toNat / 16) (by omega)
      have hlow := hexDigit?_digitChar (n := c.toNat % 16) (by omega)
      have hzero : hexDigit? '0' = some 0 := rfl
      simp only [codeUnit?, hzero, hhigh, hlow, Option.bind_eq_bind, Option.bind_some]
      exact congrArg some (by omega)
    have hwritten :=
      StringChar.unit hunit (by simp [isHighUnit]; omega) (by simp [isLowUnit]; omega)
    rwa [Char.ofNat_toNat] at hwritten
  · rename_i hquote hbackslash _ _ _ _ _ hplain
    exact .plain (Nat.le_of_not_lt hplain) hquote hbackslash

theorem stringText_escape (cs : List Char) : StringText (cs.flatMap escape) cs := by
  induction cs with
  | nil => exact .nil
  | cons c cs ih => exact .cons (stringChar_escape c) ih

theorem key_quote {ws : List Char} (h : Space ws) (k : String) : Key (ws ++ quote k) k := by
  have hkey := Key.intro h (stringText_escape k.toList) space_nil
  rwa [List.append_assoc] at hkey

theorem layoutField_eq (level : Nat) (k : String) (v : JsonValue) :
    layoutField level (k, v) = quote k ++ ':' :: ([' '] ++ layout level v) := by
  rw [layoutField]
  rfl

mutual

theorem written_layout (level : Nat) : (v : JsonValue) → Written (layout level v) v
  | .nat n => by
      rw [layout]
      exact .nat (numeral_toDigits n)
  | .bool b => by
      rw [layout]
      exact .bool b
  | .string s => by
      rw [layout, quote]
      exact .string (stringText_escape s.toList)
  | .array [] => by
      rw [layout]
      exact .emptyArray space_nil
  | .array (v :: vs) => by
      have hitems := items_layout (level + 1) (written_layout (level + 1) v) (space_indent level) vs
      rw [layout]
      simpa using Written.array hitems
  | .object [] => by
      rw [layout]
      exact .emptyObject space_nil
  | .object ((k, v) :: fs) => by
      have hfields := fields_layout (level + 1) k (written_layout (level + 1) v)
        (space_indent level) fs
      rw [layout, layoutField_eq]
      simpa using Written.object hfields

/-- The items behind a first one. -/
theorem items_layout (level : Nat) {cs ws : List Char} {v : JsonValue} (hv : Written cs v)
    (hws : Space ws) :
    (vs : List JsonValue) → Items (indent level ++ cs ++ layoutItems level vs ++ ws) (v :: vs)
  | [] => by
      rw [layoutItems, List.append_nil]
      exact .last (.intro (space_indent level) hv hws)
  | w :: vs => by
      have hothers := items_layout level (written_layout level w) hws vs
      have hitems := Items.more (.intro (space_indent level) hv space_nil) hothers
      rw [layoutItems]
      simpa using hitems

/-- The fields behind a first one. -/
theorem fields_layout (level : Nat) (k : String) {cs ws : List Char} {v : JsonValue}
    (hv : Written cs v) (hws : Space ws) :
    (fs : List (String × JsonValue)) →
      Fields (indent level ++ (quote k ++ ':' :: ([' '] ++ cs)) ++ layoutFields level fs ++ ws)
        ((k, v) :: fs)
  | [] => by
      have hfields := Fields.last (key_quote (space_indent level) k)
        (.intro space_blank hv hws)
      rw [layoutFields, List.append_nil]
      simpa using hfields
  | (l, w) :: fs => by
      have hothers := fields_layout level l (written_layout level w) hws fs
      have hfields := Fields.more (key_quote (space_indent level) k)
        (.intro space_blank hv space_nil) hothers
      rw [layoutFields, layoutField_eq]
      simpa using hfields

end

/-- The layout of a value is a document of that value, also with white space behind it. -/
theorem document_text (v : JsonValue) {ws : List Char} (h : Space ws) :
    Document (v.text.toList ++ ws) v := by
  rw [text, String.toList_ofList]
  exact .intro space_nil (written_layout 0 v) h

end LamScope.JsonValue

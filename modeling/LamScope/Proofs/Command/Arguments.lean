import LamScope.Command.Options
import LamScope.Proofs.Text.Runs

/-!
# Arguments of the command line

An argument list is made of operands and settings. What it is made of does not depend on the options
read before, and reading it carries out its settings one after the other. Main statement: a setting
put in between other arguments changes nothing but its own option, and only if no later one sets
that, and an argument that sets nothing becomes an operand as it is.
-/
namespace LamScope.Command

/-- What an option is set to. -/
inductive Setting where
  | form (form : Form)
  | gate (gate : Gate)
  | limit (limit : Nat)
deriving DecidableEq, Repr

def Setting.flag : Setting → Flag
  | form _ => .format
  | gate _ => .gate
  | limit _ => .maxDepth

/-- What a value stands for. -/
def Flag.setting (flag : Flag) (value : String) : Except OptionError Setting :=
  match flag with
  | .format =>
      if value = "human" then .ok (.form .human)
      else if value = "json" then .ok (.form .json)
      else .error (.unknownForm value)
  | .gate => (Gate.ofName? value).elim (.error (.unknownGate value)) fun g => .ok (.gate g)
  | .maxDepth => (Options.depth? value).elim (.error (.badDepth value)) fun n => .ok (.limit n)

theorem Flag.flag_of_setting {flag : Flag} {value : String} {s : Setting}
    (h : flag.setting value = .ok s) : s.flag = flag := by
  unfold setting at h
  cases flag with
  | format =>
      dsimp only at h
      split at h
      · cases h
        rfl
      · split at h <;> cases h
        rfl
  | gate =>
      dsimp only at h
      cases hgate : Gate.ofName? value <;> rw [hgate] at h <;> cases h
      rfl
  | maxDepth =>
      dsimp only at h
      cases hlimit : Options.depth? value <;> rw [hlimit] at h <;> cases h
      rfl

namespace Options

/-- What is set. -/
def setting (o : Options) : Flag → Setting
  | .format => .form o.form
  | .gate => .gate o.policy.gate
  | .maxDepth => .limit o.policy.limit

def put (o : Options) : Setting → Options
  | .form form => { o with form }
  | .gate gate => { o with policy := { o.policy with gate } }
  | .limit limit => { o with policy := { o.policy with limit } }

theorem eq_of_setting {o p : Options} (h : o.operands = p.operands)
    (hsetting : ∀ flag, o.setting flag = p.setting flag) : o = p := by
  obtain ⟨operands, form, gate, limit⟩ := o
  obtain ⟨operands', form', gate', limit'⟩ := p
  have hform := Setting.form.inj (hsetting .format)
  have hgate := Setting.gate.inj (hsetting .gate)
  have hlimit := Setting.limit.inj (hsetting .maxDepth)
  dsimp only at h hform hgate hlimit
  rw [h, hform, hgate, hlimit]

@[simp] theorem operands_put (o : Options) (s : Setting) : (o.put s).operands = o.operands := by
  cases s <;> rfl

theorem setting_put (o : Options) (s : Setting) (flag : Flag) :
    (o.put s).setting flag = if s.flag = flag then s else o.setting flag := by
  cases s <;> cases flag <;> rfl

theorem set_eq (o : Options) (flag : Flag) (value : String) :
    o.set flag value = (flag.setting value).map o.put := by
  unfold set Flag.setting
  cases flag with
  | format =>
      dsimp only
      split
      · rfl
      · rfl
      · rename_i hhuman hjson
        rw [if_neg hhuman, if_neg hjson]
        rfl
  | gate =>
      dsimp only
      cases Gate.ofName? value <;> rfl
  | maxDepth =>
      dsimp only
      cases depth? value <;> rfl

end Options

/-! ### What an argument list is made of -/

inductive Item where
  | operand (arg : String)
  | setting (s : Setting)
deriving DecidableEq, Repr

/-- The argument sets nothing, neither alone nor with the next one. -/
def IsOperand (arg : String) : Prop :=
  ∀ flag : Flag, arg ≠ flag.text ∧ ∀ value, arg ≠ flag.text ++ "=" ++ value

/-- The value of an option stands behind an equals sign or in the next argument. -/
inductive Reads : List String → List Item → Prop
  | nil : Reads [] []
  | operand {arg : String} {args : List String} {is : List Item} (h : IsOperand arg) :
      Reads args is → Reads (arg :: args) (.operand arg :: is)
  | joined {flag : Flag} {value : String} {s : Setting} {args : List String} {is : List Item}
      (h : flag.setting value = .ok s) : Reads args is →
      Reads ((flag.text ++ "=" ++ value) :: args) (.setting s :: is)
  | apart {flag : Flag} {value : String} {s : Setting} {args : List String} {is : List Item}
      (h : flag.setting value = .ok s) : Reads args is →
      Reads (flag.text :: value :: args) (.setting s :: is)

namespace Options

theorem ofText?_text (flag : Flag) : Flag.ofText? flag.text = some flag := by
  cases flag <;> rfl

theorem equals_not_mem_text (flag : Flag) : '=' ∉ flag.text.toList := by
  cases flag <;> decide

theorem flag?_text (flag : Flag) : flag? flag.text = some (flag, none) := by
  cases flag <;> rfl

theorem flag?_joined (flag : Flag) (value : String) :
    flag? (flag.text ++ "=" ++ value) = some (flag, some value) := by
  have hname := Text.forall_bne (equals_not_mem_text flag)
  have hvalue : Text.Stops (· != '=') ('=' :: value.toList) := Text.stops_cons (by rfl) _
  have hargument : (flag.text ++ "=" ++ value).toList =
      flag.text.toList ++ '=' :: value.toList := by
    simp
  unfold flag? splitValue
  dsimp only
  rw [hargument, Text.dropWhile_run hname hvalue, Text.takeWhile_run hname hvalue]
  simp [ofText?_text]

/-- An argument that names an option is its text, or its text with a value. -/
theorem eq_of_flag?_eq_some {arg : String} {flag : Flag} {value : Option String}
    (h : flag? arg = some (flag, value)) :
    arg = value.elim flag.text fun value => flag.text ++ "=" ++ value := by
  unfold flag? at h
  dsimp only at h
  obtain ⟨found, hfound, hpair⟩ := Option.map_eq_some_iff.mp h
  cases hpair
  have htext : flag.text = (splitValue arg).1 := by
    simpa using List.find?_some hfound
  rw [htext]
  unfold splitValue
  dsimp only
  have hsplit := List.takeWhile_append_dropWhile (p := (· != '=')) (l := arg.toList)
  split
  · rfl
  · rename_i c value hdrop
    have hstop := Text.stops_dropWhile (· != '=') arg.toList c (by rw [hdrop]; rfl)
    have hc : c = '=' := by simpa using hstop
    rw [hdrop, hc] at hsplit
    apply String.toList_inj.mp
    simpa using hsplit.symm

theorem flag?_eq_none_iff {arg : String} : flag? arg = none ↔ IsOperand arg := by
  constructor
  · intro h flag
    constructor
    · rintro rfl
      rw [flag?_text] at h
      cases h
    · rintro value rfl
      rw [flag?_joined] at h
      cases h
  · intro h
    cases hflag : flag? arg with
    | none => rfl
    | some found =>
        obtain ⟨flag, value⟩ := found
        have harg := eq_of_flag?_eq_some hflag
        cases value with
        | none => exact absurd harg (h flag).1
        | some value => exact absurd harg ((h flag).2 value)

end Options

/-- Takes an argument list apart, unless the value of an option is missing or not accepted. -/
def items : List String → Except OptionError (List Item)
  | [] => .ok []
  | arg :: rest =>
      match Options.flag? arg with
      | none => (items rest).map (.operand arg :: ·)
      | some (flag, some value) =>
          match flag.setting value with
          | .ok s => (items rest).map (.setting s :: ·)
          | .error e => .error e
      | some (flag, none) =>
          match rest with
          | [] => .error (.missingValue flag)
          | value :: rest =>
              match flag.setting value with
              | .ok s => (items rest).map (.setting s :: ·)
              | .error e => .error e

section
variable {α β γ ε : Type} {x : Except ε α} {f : α → β} {b : β} {e : ε}

theorem exists_of_map_eq_ok (h : x.map f = .ok b) : ∃ a, x = .ok a ∧ f a = b := by
  cases x with
  | error e => cases h
  | ok a => exact ⟨a, rfl, Except.ok.inj h⟩

theorem map_eq_error_iff : x.map f = .error e ↔ x = .error e := by
  cases x with
  | error e' => simp [Except.map]
  | ok a => simp [Except.map]

theorem map_map (x : Except ε α) (f : α → β) (g : β → γ) :
    (x.map f).map g = x.map fun a => g (f a) := by
  cases x <;> rfl

end

section
variable {arg value : String} {flag : Flag} {s : Setting} {args xs ys : List String}
  {is : List Item}

theorem items_operand (h : IsOperand arg) (args : List String) :
    items (arg :: args) = (items args).map (.operand arg :: ·) := by
  rw [items.eq_2, Options.flag?_eq_none_iff.mpr h]

theorem items_joined (h : flag.setting value = .ok s) (args : List String) :
    items ((flag.text ++ "=" ++ value) :: args) = (items args).map (.setting s :: ·) := by
  rw [items.eq_2, Options.flag?_joined]
  dsimp only
  rw [h]

theorem items_apart (h : flag.setting value = .ok s) (args : List String) :
    items (flag.text :: value :: args) = (items args).map (.setting s :: ·) := by
  rw [items.eq_2, Options.flag?_text]
  dsimp only
  rw [h]

theorem items_eq_ok_iff : items args = .ok is ↔ Reads args is := by
  constructor
  · intro h
    fun_induction items args generalizing is with
    | case1 =>
        cases h
        exact .nil
    | case2 arg rest hflag ih =>
        obtain ⟨js, hjs, rfl⟩ := exists_of_map_eq_ok h
        exact .operand (Options.flag?_eq_none_iff.mp hflag) (ih hjs)
    | case3 arg rest flag value hflag s hs ih =>
        obtain ⟨js, hjs, rfl⟩ := exists_of_map_eq_ok h
        have harg : arg = flag.text ++ "=" ++ value := Options.eq_of_flag?_eq_some hflag
        rw [harg]
        exact .joined hs (ih hjs)
    | case4 => cases h
    | case5 => cases h
    | case6 arg flag hflag value rest s hs ih =>
        obtain ⟨js, hjs, rfl⟩ := exists_of_map_eq_ok h
        have harg : arg = flag.text := Options.eq_of_flag?_eq_some hflag
        rw [harg]
        exact .apart hs (ih hjs)
    | case7 => cases h
  · intro h
    induction h with
    | nil => rfl
    | operand h _ ih => rw [items_operand h, ih]; rfl
    | joined h _ ih => rw [items_joined h, ih]; rfl
    | apart h _ ih => rw [items_apart h, ih]; rfl

/-- A list that is taken apart completely may stand before any other. -/
theorem items_append (h : Reads xs is) (ys : List String) :
    items (xs ++ ys) = (items ys).map (is ++ ·) := by
  induction h with
  | nil =>
      rw [List.nil_append]
      cases items ys <;> rfl
  | operand h _ ih =>
      rw [List.cons_append, items_operand h, ih]
      exact map_map _ _ _
  | joined h _ ih =>
      rw [List.cons_append, items_joined h, ih]
      exact map_map _ _ _
  | apart h _ ih =>
      rw [List.cons_append, List.cons_append, items_apart h, ih]
      exact map_map _ _ _

end

/-! ### Carrying out items -/

namespace Item

def apply (o : Options) : Item → Options
  | operand arg => { o with operands := o.operands ++ [arg] }
  | setting s => o.put s

def operand? : Item → Option String
  | operand arg => some arg
  | setting _ => none

def setting? (flag : Flag) : Item → Option Setting
  | operand _ => none
  | setting s => if s.flag = flag then some s else none

/-- What the last of the items that set an option sets it to. -/
def last? (flag : Flag) : List Item → Option Setting
  | [] => none
  | i :: is => (last? flag is).or (i.setting? flag)

end Item

namespace Options

variable {flag : Flag} {s : Setting} {is js : List Item}

/-- Reading takes the arguments apart and carries out what they are made of. -/
theorem readFrom_eq (o : Options) (args : List String) :
    o.readFrom args = (items args).map (List.foldl Item.apply o) := by
  fun_induction readFrom o args with
  | case1 => rfl
  | case2 o arg rest hflag ih =>
      rw [items.eq_2, hflag, ih]
      dsimp only
      rw [map_map]
      rfl
  | case3 o arg rest flag value hflag next hset ih =>
      rw [set_eq] at hset
      obtain ⟨s, hs, rfl⟩ := exists_of_map_eq_ok hset
      rw [items.eq_2, hflag, ih]
      dsimp only
      rw [hs]
      dsimp only
      rw [map_map]
      rfl
  | case4 o arg rest flag value hflag e hset =>
      rw [set_eq] at hset
      rw [items.eq_2, hflag]
      dsimp only
      rw [map_eq_error_iff.mp hset]
      rfl
  | case5 o arg flag hflag =>
      rw [items.eq_2, hflag]
      rfl
  | case6 o arg flag hflag value rest next hset ih =>
      rw [set_eq] at hset
      obtain ⟨s, hs, rfl⟩ := exists_of_map_eq_ok hset
      rw [items.eq_2, hflag, ih]
      dsimp only
      rw [hs]
      dsimp only
      rw [map_map]
      rfl
  | case7 o arg flag hflag value rest e hset =>
      rw [set_eq] at hset
      rw [items.eq_2, hflag]
      dsimp only
      rw [map_eq_error_iff.mp hset]
      rfl

theorem operands_foldl (o : Options) (is : List Item) :
    (is.foldl Item.apply o).operands = o.operands ++ is.filterMap Item.operand? := by
  induction is generalizing o with
  | nil => simp
  | cons i is ih =>
      rw [List.foldl_cons, ih]
      cases i with
      | operand arg => simp [Item.apply, Item.operand?]
      | setting s =>
          rw [Item.apply, operands_put]
          rfl

/-- The last setting of an option wins, and the option stays as it was if there is none. -/
theorem setting_foldl (o : Options) (is : List Item) (flag : Flag) :
    (is.foldl Item.apply o).setting flag = (Item.last? flag is).getD (o.setting flag) := by
  induction is generalizing o with
  | nil => rfl
  | cons i is ih =>
      rw [List.foldl_cons, ih, Item.last?]
      cases Item.last? flag is with
      | some s => rfl
      | none =>
          cases i with
          | operand arg => rfl
          | setting s =>
              rw [Item.apply, setting_put, Item.setting?]
              split <;> rfl

theorem last?_append (flag : Flag) (is js : List Item) :
    Item.last? flag (is ++ js) = (Item.last? flag js).or (Item.last? flag is) := by
  induction is with
  | nil => simp [Item.last?]
  | cons i is ih => rw [List.cons_append, Item.last?, ih, Item.last?, Option.or_assoc]

/-- A setting changes no other option, nor one that is set again behind it. -/
theorem setting_foldl_inserted (o : Options) (is : List Item)
    (h : s.flag ≠ flag ∨ (Item.last? flag js).isSome) :
    ((is ++ [Item.setting s] ++ js).foldl Item.apply o).setting flag =
      ((is ++ js).foldl Item.apply o).setting flag := by
  rw [setting_foldl, setting_foldl, last?_append, last?_append, last?_append]
  rcases h with h | h
  · have hnone : Item.last? flag [.setting s] = none := if_neg h
    rw [hnone, Option.none_or]
  · obtain ⟨t, ht⟩ := Option.isSome_iff_exists.mp h
    rw [ht]
    rfl

theorem setting_foldl_last (o : Options) (is : List Item) (h : Item.last? s.flag js = none) :
    ((is ++ [Item.setting s] ++ js).foldl Item.apply o).setting s.flag = s := by
  have hsome : Item.last? s.flag [.setting s] = some s := if_pos rfl
  rw [setting_foldl, last?_append, last?_append, h, hsome]
  rfl

theorem isSome_last? :
    (Item.last? flag is).isSome ↔ ∃ s, .setting s ∈ is ∧ s.flag = flag := by
  induction is with
  | nil => simp [Item.last?]
  | cons i is ih =>
      rw [Item.last?, Option.isSome_or, Bool.or_eq_true, ih]
      cases i with
      | operand arg => simp [Item.setting?]
      | setting s =>
          rw [Item.setting?]
          constructor
          · rintro (⟨t, ht, hflag⟩ | h)
            · exact ⟨t, List.mem_cons_of_mem _ ht, hflag⟩
            · by_cases hflag : s.flag = flag
              · exact ⟨s, List.mem_cons_self, hflag⟩
              · rw [if_neg hflag] at h
                cases h
          · rintro ⟨t, ht, hflag⟩
            rcases List.mem_cons.mp ht with heq | ht
            · cases heq
              right
              rw [if_pos hflag]
              rfl
            · exact .inl ⟨t, ht, hflag⟩

end Options

/-- The argument list sets the option. -/
def Sets (flag : Flag) (args : List String) : Prop :=
  ∃ is, Reads args is ∧ ∃ s, .setting s ∈ is ∧ s.flag = flag

section
variable {env : Environment} {o base : Options} {flag : Flag} {value arg : String} {s : Setting}
  {xs ys : List String} {is js : List Item}

theorem sets_iff (h : Reads ys js) : Sets flag ys ↔ (Item.last? flag js).isSome := by
  rw [Options.isSome_last?]
  constructor
  · rintro ⟨ks, hks, hset⟩
    have heq : ks = js := by
      have hitems := items_eq_ok_iff.mpr hks
      rw [items_eq_ok_iff.mpr h] at hitems
      exact (Except.ok.inj hitems).symm
    rwa [heq] at hset
  · intro hset
    exact ⟨js, h, hset⟩

theorem exists_of_read (h : Options.read env xs = .ok o) :
    ∃ base is, Options.ofEnvironment env = .ok base ∧ Reads xs is ∧
      o = is.foldl Item.apply base := by
  unfold Options.read at h
  split at h
  · rename_i base hbase
    rw [Options.readFrom_eq] at h
    obtain ⟨is, his, rfl⟩ := exists_of_map_eq_ok h
    exact ⟨base, is, hbase, items_eq_ok_iff.mp his, rfl⟩
  · cases h

/-- What is made of a list that goes on behind a part already taken apart. -/
theorem read_of_items {args : List String} (hbase : Options.ofEnvironment env = .ok base)
    (h : items args = (items ys).map (is ++ ·)) :
    Options.read env args = (items ys).map fun js => (is ++ js).foldl Item.apply base := by
  unfold Options.read
  rw [hbase]
  dsimp only
  rw [Options.readFrom_eq, h]
  exact map_map _ _ _

end

/-- What an option that is set between other arguments does to what is read of them. -/
structure SettingInserted (env : Environment) (xs ys : List String) (flag : Flag) (value : String)
    (s : Setting) : Prop where
  joined : Options.read env (xs ++ flag.text :: value :: ys) =
    Options.read env (xs ++ (flag.text ++ "=" ++ value) :: ys)
  fails : ∀ e, Options.read env (xs ++ flag.text :: value :: ys) = .error e ↔
    Options.read env (xs ++ ys) = .error e
  reads : ∀ o, Options.read env (xs ++ ys) = .ok o →
    ∃ p, Options.read env (xs ++ flag.text :: value :: ys) = .ok p ∧
      p.operands = o.operands ∧ (∀ other, other ≠ flag → p.setting other = o.setting other) ∧
      (Sets flag ys → p.setting flag = o.setting flag) ∧ (¬ Sets flag ys → p.setting flag = s)

/-- What another argument does to what is read of those around it. -/
structure OperandInserted (env : Environment) (xs ys : List String) (arg : String) : Prop where
  fails : ∀ e, Options.read env (xs ++ arg :: ys) = .error e ↔
    Options.read env (xs ++ ys) = .error e
  reads : ∀ o p, Options.read env xs = .ok o → Options.read env (xs ++ ys) = .ok p →
    ∃ more, p.operands = o.operands ++ more ∧
      Options.read env (xs ++ arg :: ys) = .ok { p with operands := o.operands ++ arg :: more }

section
variable {env : Environment} {o base : Options} {flag : Flag} {value arg : String} {s : Setting}
  {xs ys args : List String} {is : List Item}

theorem read_inserted {i : Item} (hbase : Options.ofEnvironment env = .ok base) (hxs : Reads xs is)
    (hi : items args = (items ys).map (i :: ·)) :
    Options.read env (xs ++ args) =
      (items ys).map fun js => (is ++ [i] ++ js).foldl Item.apply base := by
  apply read_of_items hbase
  rw [items_append hxs, hi, map_map]
  simp only [List.append_assoc, List.singleton_append]

theorem settingInserted (hbase : Options.ofEnvironment env = .ok base) (hxs : Reads xs is)
    (hs : flag.setting value = .ok s) (ys : List String) :
    SettingInserted env xs ys flag value s := by
  obtain rfl := Flag.flag_of_setting hs
  have hwithout := read_of_items hbase (items_append hxs ys)
  have hwith := read_inserted hbase hxs (items_apart hs ys)
  constructor
  · rw [hwith, read_inserted hbase hxs (items_joined hs ys)]
  · intro e
    rw [hwith, hwithout, map_eq_error_iff, map_eq_error_iff]
  · intro o ho
    rw [hwithout] at ho
    obtain ⟨js, hjs, rfl⟩ := exists_of_map_eq_ok ho
    rw [sets_iff (items_eq_ok_iff.mp hjs)]
    refine ⟨_, by rw [hwith, hjs]; rfl, ?_, ?_, ?_, ?_⟩
    · have hnone : [Item.setting s].filterMap Item.operand? = [] := rfl
      simp only [Options.operands_foldl, List.filterMap_append, hnone, List.append_nil]
    · intro other hother
      exact Options.setting_foldl_inserted base is (.inl hother.symm)
    · intro hset
      exact Options.setting_foldl_inserted base is (.inr hset)
    · intro hset
      exact Options.setting_foldl_last base is (Option.not_isSome_iff_eq_none.mp hset)

theorem operandInserted (hbase : Options.ofEnvironment env = .ok base) (hxs : Reads xs is)
    (harg : IsOperand arg) (ys : List String) : OperandInserted env xs ys arg := by
  have hwithout := read_of_items hbase (items_append hxs ys)
  have hwith := read_inserted hbase hxs (items_operand harg ys)
  constructor
  · intro e
    rw [hwith, hwithout, map_eq_error_iff, map_eq_error_iff]
  · intro o p ho hp
    have hfront := read_of_items hbase (items_append hxs [])
    rw [List.append_nil, ho] at hfront
    have hfront : o = is.foldl Item.apply base := by simpa [items, Except.map] using hfront
    rw [hwithout] at hp
    obtain ⟨js, hjs, rfl⟩ := exists_of_map_eq_ok hp
    refine ⟨js.filterMap Item.operand?, ?_, ?_⟩
    · rw [hfront, List.foldl_append, Options.operands_foldl]
    · rw [hwith, hjs]
      apply congrArg Except.ok
      apply Options.eq_of_setting
      · simp only [hfront, Options.operands_foldl, List.filterMap_append, List.append_assoc]
        rfl
      · intro flag
        show _ = Options.setting ((is ++ js).foldl Item.apply base) flag
        have hnone : Item.last? flag [Item.operand arg] = none := rfl
        simp only [Options.setting_foldl, Options.last?_append, hnone, Option.none_or]

end

/-- An option may be set anywhere between other arguments, in two ways. It gets the last of its
values, whatever the environment says, and all other arguments keep their meaning. Those that set
nothing are operands as they are, even if they start with dashes. -/
theorem read_insert {env : Environment} {xs : List String} {o : Options}
    (h : Options.read env xs = .ok o) (ys : List String) :
    (∀ flag value s, Flag.setting flag value = .ok s → SettingInserted env xs ys flag value s) ∧
      ∀ arg, IsOperand arg → OperandInserted env xs ys arg := by
  obtain ⟨base, is, hbase, hxs, -⟩ := exists_of_read h
  constructor
  · intro flag value s hs
    exact settingInserted hbase hxs hs ys
  · intro arg harg
    exact operandInserted hbase hxs harg ys

/-- The environment asks for one gate, an argument for another one and a later argument for a third,
and one argument is almost an option. -/
theorem read_insert_overridden :
    let env : Environment := ⟨fun name => if name = "LAM_GATE" then some "ANY" else none⟩
    let xs := ["--format=json", "check"]
    let ys := ["a.lam", "--gate", "errors"]
    Options.read env xs = .ok ⟨["check"], .json, ⟨.any, defaultLimit⟩⟩ ∧
      Flag.setting .gate " Always " = .ok (.gate .always) ∧
      SettingInserted env xs ys .gate " Always " (.gate .always) ∧
      IsOperand "--gates=any" ∧ OperandInserted env xs ys "--gates=any" := by
  intro env xs ys
  have hread : Options.read env xs = .ok ⟨["check"], .json, ⟨.any, defaultLimit⟩⟩ := by
    decide +kernel
  have hsetting : Flag.setting .gate " Always " = .ok (.gate .always) := by decide +kernel
  have hoperand : IsOperand "--gates=any" := Options.flag?_eq_none_iff.mp (by decide +kernel)
  obtain ⟨hinserted, hoperands⟩ := read_insert hread ys
  exact ⟨hread, hsetting, hinserted _ _ _ hsetting, hoperand, hoperands _ hoperand⟩

end LamScope.Command

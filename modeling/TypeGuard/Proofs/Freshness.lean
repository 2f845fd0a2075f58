import Std.Data.String.ToNat
import TypeGuard.Model.Names
import TypeGuard.Proofs.Results

/-!
# What a fresh name is

A name is chosen from one ladder, and it is the first rung that is free.  So a fresh
local differs from every local taken before, and a fresh function name from
every local and every type.  Every rung is an identifier, whatever text was proposed.
No name is chosen only if no rung is free.
-/

namespace TypeGuard.Names

/-! ## Taken names -/

@[simp] theorem mem_insert {taken : NameSet} {name other : String} :
    other ∈ taken.insert name ↔ other = name ∨ other ∈ taken := by
  rw [Std.TreeSet.mem_insert, Std.compare_eq_iff_eq, eq_comm]

@[simp] theorem mem_locals_reserveLocal {names : Names} {name other : String} :
    other ∈ (names.reserveLocal name).locals ↔ other = name ∨ other ∈ names.locals :=
  mem_insert

@[simp] theorem mem_types_reserveType {names : Names} {name other : String} :
    other ∈ (names.reserveType name).types ↔ other = name ∨ other ∈ names.types :=
  mem_insert

@[simp] theorem locals_reserveType (names : Names) (name : String) :
    (names.reserveType name).locals = names.locals := rfl

@[simp] theorem types_reserveLocal (names : Names) (name : String) :
    (names.reserveLocal name).types = names.types := rfl

@[simp] theorem attributes_reserveLocal (names : Names) (name : String) :
    (names.reserveLocal name).attributes = names.attributes := rfl

@[simp] theorem attributes_reserveType (names : Names) (name : String) :
    (names.reserveType name).attributes = names.attributes := rfl

theorem notMem_of_contains {taken : NameSet} {name : String}
    (h : (!taken.contains name) = true) : name ∉ taken := by
  rw [Bool.not_eq_true'] at h
  rw [Std.TreeSet.mem_iff_contains, h]
  exact Bool.false_ne_true

/-! ## The whole ladder -/

/-- Every name that is tried for `proposed`, in order. -/
def ladder (path : Path) (proposed : String) : List String :=
  namedRungs path proposed ++
    (List.range' 2 attempts).map (numbered (longestRung path proposed))

theorem findSome?_eq_find?_map (free : String → Bool) (name : Nat → String)
    (numbers : List Nat) :
    numbers.findSome? (fun n => if free (name n) then some (name n) else none) =
      (numbers.map name).find? free := by
  rw [List.find?_eq_findSome?_guard, List.findSome?_map]
  rfl

theorem firstFree?_eq_find? (free : String → Bool) (path : Path) (proposed : String) :
    firstFree? free path proposed = (ladder path proposed).find? free := by
  rw [ladder, List.find?_append, ← findSome?_eq_find?_map, firstFree?]
  cases (namedRungs path proposed).find? free with
  | none => simp
  | some name => simp

theorem longestRung_eq_getLast {path : Path} {proposed : String}
    (h : namedRungs path proposed ≠ []) :
    longestRung path proposed = (namedRungs path proposed).getLast h := by
  rw [longestRung, List.getLastD_eq_getLast?, List.getLast?_eq_some_getLast h, Option.getD_some]

theorem longestRung_mem (path : Path) (proposed : String) :
    longestRung path proposed ∈ namedRungs path proposed := by
  have hne : namedRungs path proposed ≠ [] := by
    unfold namedRungs
    cases path.reverse <;> simp [rungs]
  rw [longestRung_eq_getLast hne]
  exact List.getLast_mem hne

/-! ## Chosen names -/

theorem choose_eq_ok_iff {free : String → Bool} {path : Path} {proposed name : String} :
    choose free path proposed = .ok name ↔ (ladder path proposed).find? free = some name := by
  rw [← firstFree?_eq_find?, choose]
  cases firstFree? free path proposed with
  | none => simp
  | some found => simp

theorem choose_eq_error_iff {free : String → Bool} {path : Path} {proposed : String}
    {problem : Problem} :
    choose free path proposed = .error problem ↔
      problem = .namesExhausted proposed attempts ∧
        ∀ name ∈ ladder path proposed, free name = false := by
  have hnone : firstFree? free path proposed = none ↔
      ∀ name ∈ ladder path proposed, free name = false := by
    rw [firstFree?_eq_find?, List.find?_eq_none]
    simp only [Bool.not_eq_true]
  rw [← hnone, choose]
  cases firstFree? free path proposed with
  | none => simp [eq_comm]
  | some name => simp

theorem free_of_choose {free : String → Bool} {path : Path} {proposed name : String}
    (h : choose free path proposed = .ok name) : free name = true :=
  List.find?_some (choose_eq_ok_iff.mp h)

/-! ## Identifiers -/

theorem isValid_of_mem_rungs {base : String} (hbase : Identifier.isValid base = true)
    (segments : List String) : ∀ name ∈ rungs base segments, Identifier.isValid name = true := by
  induction segments generalizing base with
  | nil => simpa [rungs] using hbase
  | cons segment rest ih =>
      have hunderscore : "_".toList.all Identifier.isPart = true := by decide
      have hsegment := Identifier.isValid_append (Identifier.isValid_ofText segment) hunderscore
      have hlonger := Identifier.isValid_append hsegment (Identifier.all_isPart_of_isValid hbase)
      exact List.forall_mem_cons.mpr ⟨hbase, ih hlonger⟩

theorem isValid_of_mem_namedRungs {path : Path} {proposed : String} :
    ∀ name ∈ namedRungs path proposed, Identifier.isValid name = true :=
  isValid_of_mem_rungs (Identifier.isValid_ofText proposed) path.reverse

theorem isValid_numbered {name : String} (h : Identifier.isValid name = true) (n : Nat) :
    Identifier.isValid (numbered name n) = true := by
  refine Identifier.isValid_append h (List.all_eq_true.mpr fun c hc => ?_)
  rw [Nat.toString_eq_repr, Nat.toList_repr] at hc
  have hdigit := Nat.isDigit_of_mem_toDigits (by decide) (by decide) hc
  simp [Identifier.isPart, Char.isAlphanum, hdigit]

theorem isValid_of_mem_ladder {path : Path} {proposed : String} :
    ∀ name ∈ ladder path proposed, Identifier.isValid name = true := by
  refine List.forall_mem_append.mpr ⟨isValid_of_mem_namedRungs, fun name hname => ?_⟩
  obtain ⟨n, -, rfl⟩ := List.mem_map.mp hname
  exact isValid_numbered (isValid_of_mem_namedRungs _ (longestRung_mem path proposed)) n

theorem isValid_of_choose {free : String → Bool} {path : Path} {proposed name : String}
    (h : choose free path proposed = .ok name) : Identifier.isValid name = true :=
  isValid_of_mem_ladder name (List.mem_of_find?_eq_some (choose_eq_ok_iff.mp h))

theorem isValid_of_fresh {free : String → Bool} {path : Path} {proposed name : String}
    {taken : String → Names} {later : Names}
    (h : (do let name ← choose free path proposed; return (name, taken name)) =
      (.ok (name, later) : Except Problem (String × Names))) : Identifier.isValid name = true := by
  obtain ⟨chosen, hchoose, h⟩ := bind_eq_ok.mp h
  cases h
  exact isValid_of_choose hchoose

/-! ## Fresh names -/

theorem bind_choose_eq_error_iff {free : String → Bool} {path : Path} {proposed : String}
    {taken : String → Names} {problem : Problem} :
    (do let name ← choose free path proposed; return (name, taken name)) =
        (.error problem : Except Problem (String × Names)) ↔
      problem = .namesExhausted proposed attempts ∧
        ∀ name ∈ ladder path proposed, free name = false := by
  rw [← choose_eq_error_iff, bind_eq_error]
  simp [pure, Except.pure]

theorem freshLocal_ok {names later : Names} {path : Path} {proposed name : String}
    (h : names.freshLocal path proposed = .ok (name, later)) :
    name ∉ names.locals ∧ later = names.reserveLocal name := by
  obtain ⟨chosen, hchoose, h⟩ := bind_eq_ok.mp h
  cases h
  exact ⟨notMem_of_contains (free_of_choose hchoose), rfl⟩

theorem freshType_ok {names later : Names} {path : Path} {proposed name : String}
    (h : names.freshType path proposed = .ok (name, later)) :
    name ∉ names.types ∧ later = names.reserveType name := by
  obtain ⟨chosen, hchoose, h⟩ := bind_eq_ok.mp h
  cases h
  exact ⟨notMem_of_contains (free_of_choose hchoose), rfl⟩

theorem freshFunction_ok {names later : Names} {path : Path} {proposed name : String}
    (h : names.freshFunction path proposed = .ok (name, later)) :
    name ∉ names.types ∧ name ∉ names.locals ∧
      later = (names.reserveType name).reserveLocal name := by
  obtain ⟨chosen, hchoose, h⟩ := bind_eq_ok.mp h
  cases h
  have hfree := free_of_choose hchoose
  rw [Bool.and_eq_true] at hfree
  exact ⟨notMem_of_contains hfree.1, notMem_of_contains hfree.2, rfl⟩

/-! ## Binding an attribute -/

def noting (names : Names) (path : Path) (name : String) : Names :=
  { names with attributes := (path, name) :: names.attributes }

theorem bindAttribute_of_mem {names : Names} {path : Path} {name : String}
    (hmem : (path, name) ∈ names.attributes) :
    names.bindAttribute path name = (.error (.repeatedAttribute path name), names) :=
  if_pos hmem

theorem bindAttribute_of_new {names : Names} {path : Path} {name : String}
    (hnew : (path, name) ∉ names.attributes) :
    (∃ chosen, chosen ∉ names.locals ∧ Identifier.isValid chosen = true ∧
      names.bindAttribute path name =
        (.ok chosen, (names.noting path name).reserveLocal chosen)) ∨
    names.bindAttribute path name =
      (.error (.namesExhausted name attempts), names.noting path name) := by
  cases hfresh : (names.noting path name).freshLocal path name with
  | ok result =>
      obtain ⟨hfree, hlater⟩ := freshLocal_ok hfresh
      refine .inl ⟨result.1, hfree, isValid_of_fresh hfresh, ?_⟩
      rw [← hlater]
      simp only [noting] at hfresh
      simp only [bindAttribute, if_neg hnew, hfresh]
  | error problem =>
      obtain ⟨rfl, -⟩ := bind_choose_eq_error_iff.mp hfresh
      simp only [noting] at hfresh
      exact .inr (by simp only [bindAttribute, if_neg hnew, hfresh, noting])

theorem bindAttribute_ok {names later : Names} {path : Path} {name chosen : String}
    (h : names.bindAttribute path name = (.ok chosen, later)) :
    (path, name) ∉ names.attributes ∧ chosen ∉ names.locals ∧
      Identifier.isValid chosen = true ∧ later = { names.reserveLocal chosen with
        attributes := (path, name) :: names.attributes } := by
  by_cases hmem : (path, name) ∈ names.attributes
  · rw [bindAttribute_of_mem hmem] at h
    cases h
  · rcases bindAttribute_of_new hmem with ⟨other, hfree, hvalid, hbind⟩ | hbind
    · rw [hbind] at h
      cases h
      exact ⟨hmem, hfree, hvalid, rfl⟩
    · rw [hbind] at h
      cases h

end TypeGuard.Names

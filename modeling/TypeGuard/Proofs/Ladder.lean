import Mathlib.Data.List.Nodup
import Mathlib.Data.List.Perm.Subperm
import TypeGuard.Proofs.Freshness

/-!
# When names run out

The rungs of a ladder are all different: each named rung is longer than the one before it,
and the numbered ones, longer still, differ in their numbers.  So a ladder that is taken
from top to bottom takes up as many names as it has rungs, and a fresh name is refused only
where that many names are taken.

With exactly these names taken it is refused.
-/

namespace TypeGuard.Names

/-! ## No rung is there twice -/

theorem length_le_of_mem_rungs {base : String} {segments : List String} :
    ∀ name ∈ rungs base segments, base.length ≤ name.length := by
  induction segments generalizing base with
  | nil => simp [rungs]
  | cons segment rest ih =>
      refine List.forall_mem_cons.mpr ⟨Nat.le_refl _, fun name hname => ?_⟩
      have hlonger := ih name hname
      rw [String.length_append] at hlonger
      exact Nat.le_trans (Nat.le_add_left _ _) hlonger

theorem pairwise_rungs (base : String) (segments : List String) :
    (rungs base segments).Pairwise fun shorter longer => shorter.length < longer.length := by
  induction segments generalizing base with
  | nil => exact List.pairwise_singleton _ base
  | cons segment rest ih =>
      refine List.pairwise_cons.mpr ⟨fun name hname => ?_, ih _⟩
      have hlonger := length_le_of_mem_rungs name hname
      rw [String.length_append, String.length_append] at hlonger
      have hunderscore : "_".length = 1 := rfl
      omega

theorem length_le_longestRung {path : Path} {proposed name : String}
    (h : name ∈ namedRungs path proposed) :
    name.length ≤ (longestRung path proposed).length := by
  have hne := List.ne_nil_of_mem h
  have hsplit := List.dropLast_append_getLast hne
  have hpairwise : (namedRungs path proposed).Pairwise _ := pairwise_rungs _ path.reverse
  rw [← longestRung_eq_getLast] at hsplit
  rw [← hsplit] at h hpairwise
  rcases List.mem_append.mp h with h | h
  · exact Nat.le_of_lt ((List.pairwise_append.mp hpairwise).2.2 name h _ List.mem_cons_self)
  · exact Nat.le_of_eq (congrArg String.length (List.mem_singleton.mp h))

theorem numbered_injective (name : String) : (numbered name).Injective := by
  intro first second h
  exact Nat.repr_injective ((String.append_right_inj name).mp h)

theorem length_lt_numbered (name : String) (n : Nat) : name.length < (numbered name n).length := by
  have hdigits : 0 < (toString n).length := Nat.length_repr_pos
  rw [numbered, String.length_append]
  omega

theorem ladder_nodup (path : Path) (proposed : String) : (ladder path proposed).Nodup := by
  refine List.nodup_append.mpr ⟨?named, ?numbered, ?apart⟩
  case named =>
      refine (pairwise_rungs _ path.reverse).imp fun hlt => ?_
      rintro rfl
      exact Nat.lt_irrefl _ hlt
  case numbered => exact List.Nodup.map (numbered_injective _) (List.nodup_range' 1)
  case apart =>
      rintro name hname _ hnumbered rfl
      obtain ⟨n, -, rfl⟩ := List.mem_map.mp hnumbered
      exact absurd (length_le_longestRung hname) (Nat.not_le.mpr (length_lt_numbered _ n))

@[simp] theorem length_rungs (base : String) (segments : List String) :
    (rungs base segments).length = segments.length + 1 := by
  induction segments generalizing base with
  | nil => rfl
  | cons segment rest ih => simp [rungs, ih]

@[simp] theorem length_ladder (path : Path) (proposed : String) :
    (ladder path proposed).length = 10001 + path.length := by
  rw [ladder, List.length_append, List.length_map, List.length_range', namedRungs, length_rungs,
    List.length_reverse, attempts]
  omega

/-! ## Counting taken names -/

theorem length_le_size {listed : List String} {taken : NameSet} (hnodup : listed.Nodup)
    (h : ∀ name ∈ listed, name ∈ taken) : listed.length ≤ taken.size := by
  rw [← Std.TreeSet.length_toList]
  exact hnodup.length_le_of_subset fun name hname => Std.TreeSet.mem_toList.mpr (h name hname)

theorem nodup_toList (taken : NameSet) : taken.toList.Nodup :=
  Std.TreeSet.distinct_toList.imp fun hne heq => hne (Std.compare_eq_iff_eq.mpr heq)

theorem size_eq_length {listed : List String} {taken : NameSet} (hnodup : listed.Nodup)
    (h : ∀ name, name ∈ taken ↔ name ∈ listed) : taken.size = listed.length := by
  refine Nat.le_antisymm ?_ (length_le_size hnodup fun name => (h name).mpr)
  rw [← Std.TreeSet.length_toList]
  exact (nodup_toList taken).length_le_of_subset fun name hname =>
    (h name).mp (Std.TreeSet.mem_toList.mp hname)

/-! ## Fresh names for a purpose -/

inductive Purpose where
  | localName
  | typeName
  | functionName

def fresh (names : Names) : Purpose → Path → String → Except Problem (String × Names)
  | .localName => names.freshLocal
  | .typeName => names.freshType
  | .functionName => names.freshFunction

/-- The names that a fresh one must differ from. -/
def consulted (names : Names) : Purpose → NameSet
  | .localName => names.locals
  | .typeName => names.types
  | .functionName => names.types ∪ names.locals

@[simp] theorem not_contains_eq_false_iff {taken : NameSet} {name : String} :
    (!taken.contains name) = false ↔ name ∈ taken := by
  rw [Bool.not_eq_false', Std.TreeSet.mem_iff_contains]

section

variable {path : Path} {proposed : String} {problem : Problem}

theorem bind_choose_eq_error_iff_taken {free : String → Bool} {taken : NameSet}
    {later : String → Names} (hfree : ∀ name, free name = false ↔ name ∈ taken) :
    (do let name ← choose free path proposed; return (name, later name)) =
        (.error problem : Except Problem (String × Names)) ↔
      problem = .namesExhausted proposed attempts ∧
        ∀ name ∈ ladder path proposed, name ∈ taken := by
  simp only [bind_choose_eq_error_iff, hfree]

theorem fresh_eq_error_iff {names : Names} {purpose : Purpose} :
    names.fresh purpose path proposed = .error problem ↔
      problem = .namesExhausted proposed attempts ∧
        ∀ name ∈ ladder path proposed, name ∈ names.consulted purpose := by
  cases purpose with
  | localName => exact bind_choose_eq_error_iff_taken fun _ => not_contains_eq_false_iff
  | typeName => exact bind_choose_eq_error_iff_taken fun _ => not_contains_eq_false_iff
  | functionName =>
      refine bind_choose_eq_error_iff_taken fun name => ?_
      rw [consulted, Std.TreeSet.mem_union_iff, Bool.and_eq_false_iff, not_contains_eq_false_iff,
        not_contains_eq_false_iff]

end

def full (path : Path) (proposed : String) : Names where
  locals := .ofList (ladder path proposed)
  types := .ofList (ladder path proposed)
  attributes := []

@[simp] theorem mem_consulted_full {path : Path} {proposed name : String} (purpose : Purpose) :
    name ∈ (full path proposed).consulted purpose ↔ name ∈ ladder path proposed := by
  have hmem : name ∈ Std.TreeSet.ofList (ladder path proposed) ↔ name ∈ ladder path proposed := by
    simp
  cases purpose with
  | localName => exact hmem
  | typeName => exact hmem
  | functionName => exact Std.TreeSet.mem_union_iff.trans ((or_self_iff).trans hmem)

@[simp] theorem size_consulted_full (path : Path) (proposed : String) (purpose : Purpose) :
    ((full path proposed).consulted purpose).size = 10001 + path.length := by
  rw [size_eq_length (ladder_nodup path proposed) fun _ => mem_consulted_full purpose,
    length_ladder]

theorem fresh_full (path : Path) (proposed : String) (purpose : Purpose) :
    (full path proposed).fresh purpose path proposed =
      .error (.namesExhausted proposed attempts) :=
  fresh_eq_error_iff.mpr ⟨rfl, fun _ => (mem_consulted_full purpose).mpr⟩

/-- A fresh name is refused only if as many names are taken as are tried, among those that
it must differ from; with exactly so many taken it may be refused, so the number is the
greatest for which this holds. -/
theorem fresh_fails_only_if_exhausted (names : Names) (purpose : Purpose) (path : Path)
    (proposed : String) :
    (∀ problem, names.fresh purpose path proposed = .error problem →
      problem = .namesExhausted proposed attempts ∧
        10001 + path.length ≤ (names.consulted purpose).size) ∧
    ((names.consulted purpose).size < 10001 + path.length →
      ∃ name later, names.fresh purpose path proposed = .ok (name, later)) ∧
    ∃ others : Names, (others.consulted purpose).size = 10001 + path.length ∧
      others.fresh purpose path proposed = .error (.namesExhausted proposed attempts) := by
  have hrefused : ∀ problem, names.fresh purpose path proposed = .error problem →
      problem = .namesExhausted proposed attempts ∧
        10001 + path.length ≤ (names.consulted purpose).size := by
    intro problem h
    obtain ⟨hproblem, htaken⟩ := fresh_eq_error_iff.mp h
    exact ⟨hproblem, length_ladder path proposed ▸ length_le_size (ladder_nodup _ _) htaken⟩
  refine ⟨hrefused, fun hsize => ?_, full path proposed, size_consulted_full _ _ purpose,
    fresh_full _ _ purpose⟩
  cases h : names.fresh purpose path proposed with
  | error problem => exact absurd (hrefused problem h).2 (Nat.not_le.mpr hsize)
  | ok result => exact ⟨result.1, result.2, rfl⟩

/-- A local is refused at the top of its ladder, with no name to spare; below a path there is
one rung more, so it is given there. -/
theorem fresh_fails_only_if_exhausted_fullLadder :
    (full [] "name").fresh .localName [] "name" = .error (.namesExhausted "name" attempts) ∧
      10001 ≤ ((full [] "name").consulted .localName).size ∧
      ∃ name later, (full [] "name").fresh .localName ["user"] "name" = .ok (name, later) := by
  have hfull := fresh_full [] "name" .localName
  refine ⟨hfull, ((fresh_fails_only_if_exhausted _ _ _ _).1 _ hfull).2, ?_⟩
  refine (fresh_fails_only_if_exhausted _ _ _ _).2.1 ?_
  rw [size_consulted_full]
  decide

end TypeGuard.Names

/-!
Named fields in the order in which their names first appeared.

A field list is a plain list of pairs.  Writing a name that is already present
replaces its value and keeps its place, so lists built by `insert` alone never
repeat a name.
-/

namespace TypeGuard

abbrev Fields (α : Type) := List (String × α)

namespace Fields

variable {α β : Type}

def names (fields : Fields α) : List String := fields.map (·.1)

def find? (name : String) : Fields α → Option α
  | [] => none
  | (key, value) :: rest => if key = name then some value else find? name rest

def contains (name : String) (fields : Fields α) : Bool := (find? name fields).isSome

/-- Find a name among `all`, but look first at the front of `ahead`, which is
where it stands when `all` is gone through in order and `ahead` is what is left. -/
def findNear? (name : String) (ahead all : Fields α) : Option α :=
  match ahead with
  | [] => find? name all
  | (key, value) :: _ => if key = name then some value else find? name all

/-- Replace the value under `name` in place, or append a new field. -/
def insert (name : String) (value : α) : Fields α → Fields α
  | [] => [(name, value)]
  | (key, old) :: rest =>
      if key = name then (key, value) :: rest
      else (key, old) :: insert name value rest

def extend (fields later : Fields α) : Fields α :=
  later.foldl (fun acc field => insert field.1 field.2 acc) fields

def ofList (entries : List (String × α)) : Fields α := extend [] entries

@[simp] theorem names_nil : names ([] : Fields α) = [] :=
  rfl

@[simp] theorem names_cons (field : String × α) (rest : Fields α) :
    names (field :: rest) = field.1 :: names rest :=
  rfl

@[simp] theorem names_append (fields others : Fields α) :
    names (fields ++ others) = names fields ++ names others :=
  List.map_append

@[simp] theorem length_names (fields : Fields α) : (names fields).length = fields.length :=
  List.length_map _

@[simp] theorem find?_nil (name : String) : find? name ([] : Fields α) = none :=
  rfl

@[simp] theorem find?_cons_self (name : String) (value : α) (rest : Fields α) :
    find? name ((name, value) :: rest) = some value :=
  if_pos rfl

@[simp] theorem find?_cons_of_ne {key name : String} (h : key ≠ name) (value : α)
    (rest : Fields α) : find? name ((key, value) :: rest) = find? name rest :=
  if_neg h

@[simp] theorem insert_nil (name : String) (value : α) : insert name value [] = [(name, value)] :=
  rfl

@[simp] theorem insert_cons_self (name : String) (value old : α) (rest : Fields α) :
    insert name value ((name, old) :: rest) = (name, value) :: rest :=
  if_pos rfl

@[simp] theorem insert_cons_of_ne {key name : String} (h : key ≠ name) (value old : α)
    (rest : Fields α) :
    insert name value ((key, old) :: rest) = (key, old) :: insert name value rest :=
  if_neg h

@[simp] theorem find?_insert_self (name : String) (value : α) (fields : Fields α) :
    find? name (insert name value fields) = some value := by
  induction fields with
  | nil => simp
  | cons field rest ih =>
      obtain ⟨key, old⟩ := field
      by_cases h : key = name <;> simp [h, ih]

@[simp] theorem find?_insert_of_ne {name other : String} (h : other ≠ name) (value : α)
    (fields : Fields α) : find? other (insert name value fields) = find? other fields := by
  induction fields with
  | nil => simp [Ne.symm h]
  | cons field rest ih =>
      obtain ⟨key, old⟩ := field
      by_cases hk : key = name
      · subst hk
        simp [Ne.symm h]
      · rw [insert_cons_of_ne hk]
        by_cases hother : key = other <;> simp [hother, ih]

theorem find?_of_suffix {name : String} {value : α} {rest all : Fields α}
    (h : (names all).Nodup) (hs : (name, value) :: rest <:+ all) :
    find? name all = some value := by
  obtain ⟨front, rfl⟩ := hs
  induction front with
  | nil => simp
  | cons field front ih =>
      obtain ⟨key, old⟩ := field
      rw [List.cons_append, names_cons, List.nodup_cons] at h
      have hne : key ≠ name := by
        rintro rfl
        exact h.1 (by simp)
      rw [List.cons_append, find?_cons_of_ne hne]
      exact ih h.2

theorem findNear?_of_suffix {ahead all : Fields α} (h : (names all).Nodup)
    (hs : ahead <:+ all) (name : String) : findNear? name ahead all = find? name all := by
  match ahead with
  | [] => rfl
  | (key, value) :: _ =>
      by_cases hk : key = name
      · subst hk
        simp [findNear?, find?_of_suffix h hs]
      · simp [findNear?, hk]

@[simp] theorem mem_names_insert {name other : String} {value : α} {fields : Fields α} :
    other ∈ names (insert name value fields) ↔ other = name ∨ other ∈ names fields := by
  induction fields with
  | nil => simp
  | cons field rest ih =>
      obtain ⟨key, old⟩ := field
      by_cases hk : key = name
      · subst hk
        simp
      · rw [insert_cons_of_ne hk, names_cons, names_cons, List.mem_cons, List.mem_cons, ih]
        exact or_left_comm

theorem mem_insert {name : String} {value : α} {fields : Fields α} {field : String × α}
    (h : field ∈ insert name value fields) : field = (name, value) ∨ field ∈ fields := by
  induction fields with
  | nil => exact .inl (List.mem_singleton.mp h)
  | cons first rest ih =>
      obtain ⟨key, old⟩ := first
      rw [insert] at h
      split at h
      next hkey =>
          rcases List.mem_cons.mp h with rfl | hrest
          · exact .inl (by rw [hkey])
          · exact .inr (List.mem_cons_of_mem _ hrest)
      next =>
          rcases List.mem_cons.mp h with rfl | hrest
          · exact .inr List.mem_cons_self
          · exact (ih hrest).imp_right (List.mem_cons_of_mem _)

theorem names_nodup_insert {fields : Fields α} (h : (names fields).Nodup)
    (name : String) (value : α) : (names (insert name value fields)).Nodup := by
  induction fields with
  | nil => simp
  | cons field rest ih =>
      obtain ⟨key, old⟩ := field
      have hrest : (names rest).Nodup := (List.nodup_cons.mp h).2
      by_cases hk : key = name
      · subst hk
        simpa using h
      · rw [insert_cons_of_ne hk]
        refine List.nodup_cons.mpr ⟨fun hmem => ?_, ih hrest⟩
        rcases mem_names_insert.mp hmem with heq | hin
        · exact hk heq
        · exact (List.nodup_cons.mp h).1 hin

theorem names_nodup_extend {fields : Fields α} (h : (names fields).Nodup)
    (later : Fields α) : (names (extend fields later)).Nodup := by
  induction later generalizing fields with
  | nil => exact h
  | cons field rest ih => exact ih (names_nodup_insert h field.1 field.2)

theorem mem_extend {fields later : Fields α} {field : String × α}
    (h : field ∈ extend fields later) : field ∈ fields ∨ field ∈ later := by
  induction later generalizing fields with
  | nil => exact .inl h
  | cons first rest ih =>
      rcases ih h with hinsert | hrest
      · rcases mem_insert hinsert with rfl | hold
        · exact .inr List.mem_cons_self
        · exact .inl hold
      · exact .inr (List.mem_cons_of_mem _ hrest)

theorem mem_ofList {entries : List (String × α)} {field : String × α}
    (h : field ∈ ofList entries) : field ∈ entries :=
  (mem_extend h).resolve_left List.not_mem_nil

@[simp] theorem names_nodup_ofList (entries : List (String × α)) :
    (names (ofList entries)).Nodup :=
  names_nodup_extend (show (names ([] : Fields α)).Nodup from List.nodup_nil) entries

/-! ## Looking names up -/

theorem mem_of_find? {name : String} {value : α} {fields : Fields α}
    (h : find? name fields = some value) : (name, value) ∈ fields := by
  induction fields with
  | nil => cases h
  | cons field rest ih =>
      obtain ⟨key, old⟩ := field
      rw [find?] at h
      split at h
      next hkey =>
          cases h
          rw [hkey]
          exact List.mem_cons_self
      next => exact List.mem_cons_of_mem _ (ih h)

theorem find?_of_mem {name : String} {value : α} {fields : Fields α}
    (hnodup : (names fields).Nodup) (h : (name, value) ∈ fields) :
    find? name fields = some value := by
  obtain ⟨front, rest, rfl⟩ := List.append_of_mem h
  exact find?_of_suffix hnodup (List.suffix_append front _)

@[simp] theorem find?_append (name : String) (fields others : Fields α) :
    find? name (fields ++ others) = (find? name fields).or (find? name others) := by
  induction fields with
  | nil => rfl
  | cons field rest ih =>
      obtain ⟨key, value⟩ := field
      by_cases hkey : key = name <;> simp [hkey, ih]

theorem names_perm {fields others : Fields α} (hperm : fields.Perm others) :
    (names fields).Perm (names others) :=
  hperm.map _

theorem find?_perm {fields others : Fields α} (hperm : fields.Perm others)
    (hnodup : (names fields).Nodup) (name : String) : find? name fields = find? name others := by
  have hothers := (names_perm hperm).nodup_iff.mp hnodup
  refine Option.ext fun value => ⟨fun h => ?_, fun h => ?_⟩
  · exact find?_of_mem hothers (hperm.mem_iff.mp (mem_of_find? h))
  · exact find?_of_mem hnodup (hperm.mem_iff.mpr (mem_of_find? h))

theorem mem_names {name : String} {fields : Fields α} :
    name ∈ names fields ↔ ∃ value, find? name fields = some value := by
  induction fields with
  | nil => simp
  | cons field rest ih =>
      obtain ⟨key, old⟩ := field
      by_cases hkey : key = name
      · simp [hkey]
      · simp [hkey, Ne.symm hkey, ih]

@[simp] theorem find?_eq_none {name : String} {fields : Fields α} :
    find? name fields = none ↔ name ∉ names fields := by
  rw [mem_names, ← Option.isSome_iff_exists, Option.not_isSome_iff_eq_none]

@[simp] theorem contains_iff {name : String} {fields : Fields α} :
    contains name fields = true ↔ name ∈ names fields := by
  rw [contains, Option.isSome_iff_exists, mem_names]

theorem names_insert (name : String) (value : α) (fields : Fields α) :
    names (insert name value fields) =
      if name ∈ names fields then names fields else names fields ++ [name] := by
  induction fields with
  | nil => simp
  | cons field rest ih =>
      obtain ⟨key, old⟩ := field
      by_cases hkey : key = name
      · simp [hkey]
      · by_cases hmem : name ∈ names rest <;> simp [hkey, Ne.symm hkey, hmem, ih]

@[simp] theorem insert_of_notMem {name : String} {fields : Fields α} (h : name ∉ names fields)
    (value : α) : insert name value fields = fields ++ [(name, value)] := by
  induction fields with
  | nil => rfl
  | cons field rest ih =>
      obtain ⟨key, old⟩ := field
      rw [names_cons, List.mem_cons, not_or] at h
      simp [Ne.symm h.1, ih h.2]

theorem extend_eq_append {fields later : Fields α} (h : (names (fields ++ later)).Nodup) :
    extend fields later = fields ++ later := by
  induction later generalizing fields with
  | nil => simp [extend]
  | cons field rest ih =>
      obtain ⟨name, value⟩ := field
      have hfresh : name ∉ names fields := by
        simp only [names_append, names_cons, List.nodup_append] at h
        exact fun hmem => h.2.2 name hmem name List.mem_cons_self rfl
      have happend : fields ++ (name, value) :: rest = (fields ++ [(name, value)]) ++ rest := by
        rw [List.append_assoc, List.singleton_append]
      rw [happend] at h ⊢
      rw [← ih h, extend, List.foldl_cons, insert_of_notMem hfresh]
      rfl

/-! ## Writing after writing -/

theorem names_nodup_singleton (name : String) (value : α) : (names [(name, value)]).Nodup :=
  List.pairwise_singleton _ name

@[simp] theorem insert_insert_self (name : String) (old value : α) (fields : Fields α) :
    insert name value (insert name old fields) = insert name value fields := by
  induction fields with
  | nil => simp
  | cons field rest ih =>
      obtain ⟨key, kept⟩ := field
      by_cases hkey : key = name <;> simp [hkey, ih]

/-- A name that is present keeps its place, so it does not matter when it is written. -/
theorem insert_comm {name other : String} {fields : Fields α} (hmem : name ∈ names fields)
    (hne : other ≠ name) (value added : α) :
    insert name value (insert other added fields) =
      insert other added (insert name value fields) := by
  induction fields with
  | nil => cases hmem
  | cons field rest ih =>
      obtain ⟨key, old⟩ := field
      by_cases hkey : key = name
      · subst hkey
        simp [Ne.symm hne]
      · have hrest : name ∈ names rest := (List.mem_cons.mp hmem).resolve_left (Ne.symm hkey)
        by_cases hother : key = other
        · subst hother
          simp [hne]
        · simp [hkey, hother, ih hrest]

theorem insert_extend {name : String} {fields later : Fields α} (hmem : name ∈ names fields)
    (hfresh : name ∉ names later) (value : α) :
    insert name value (extend fields later) = extend (insert name value fields) later := by
  induction later generalizing fields with
  | nil => rfl
  | cons field rest ih =>
      obtain ⟨other, added⟩ := field
      rw [names_cons, List.mem_cons, not_or] at hfresh
      have hstays : name ∈ names (insert other added fields) := mem_names_insert.mpr (.inr hmem)
      calc insert name value (extend (insert other added fields) rest)
          = extend (insert name value (insert other added fields)) rest := ih hstays hfresh.2
        _ = extend (insert other added (insert name value fields)) rest := by
            rw [insert_comm hmem (Ne.symm hfresh.1)]

theorem extend_insert {later : Fields α} (hnodup : (names later).Nodup) (name : String)
    (value : α) (fields : Fields α) :
    extend fields (insert name value later) = insert name value (extend fields later) := by
  induction later generalizing fields with
  | nil => rfl
  | cons field rest ih =>
      obtain ⟨key, old⟩ := field
      obtain ⟨hfresh, hrest⟩ := List.nodup_cons.mp hnodup
      by_cases hkey : key = name
      · subst hkey
        have hmem : key ∈ names (insert key old fields) := mem_names_insert.mpr (.inl rfl)
        calc extend fields (insert key value ((key, old) :: rest))
            = extend (insert key value fields) rest := by rw [insert_cons_self]; rfl
          _ = extend (insert key value (insert key old fields)) rest := by
              rw [insert_insert_self]
          _ = insert key value (extend fields ((key, old) :: rest)) :=
              (insert_extend hmem hfresh value).symm
      · rw [insert_cons_of_ne hkey]
        exact ih hrest (insert key old fields)

theorem extend_extend {later : Fields α} (hnodup : (names later).Nodup)
    (fields last : Fields α) :
    extend fields (extend later last) = extend (extend fields later) last := by
  induction last generalizing later with
  | nil => rfl
  | cons field rest ih =>
      obtain ⟨name, value⟩ := field
      calc extend fields (extend (insert name value later) rest)
          = extend (extend fields (insert name value later)) rest :=
            ih (names_nodup_insert hnodup name value)
        _ = extend (insert name value (extend fields later)) rest := by
            rw [extend_insert hnodup]

/-! ## Changing values -/

def mapValues (f : α → β) (fields : Fields α) : Fields β :=
  fields.map fun field => (field.1, f field.2)

variable (f : α → β) (name : String) (fields : Fields α)

@[simp] theorem mapValues_nil : mapValues f ([] : Fields α) = [] :=
  rfl

@[simp] theorem mapValues_cons (field : String × α) :
    mapValues f (field :: fields) = (field.1, f field.2) :: mapValues f fields :=
  rfl

@[simp] theorem names_mapValues : names (mapValues f fields) = names fields := by
  simp [mapValues, names]

@[simp] theorem length_mapValues : (mapValues f fields).length = fields.length :=
  List.length_map _

@[simp] theorem find?_mapValues : find? name (mapValues f fields) = (find? name fields).map f := by
  induction fields with
  | nil => rfl
  | cons field rest ih =>
      obtain ⟨key, old⟩ := field
      by_cases hkey : key = name <;> simp [hkey, ih]

@[simp] theorem mapValues_insert (value : α) :
    mapValues f (insert name value fields) = insert name (f value) (mapValues f fields) := by
  induction fields with
  | nil => rfl
  | cons field rest ih =>
      obtain ⟨key, old⟩ := field
      by_cases hkey : key = name <;> simp [hkey, ih]

theorem contains_congr {fields : Fields α} {others : Fields β} (h : names fields = names others)
    (name : String) : contains name fields = contains name others := by
  rw [Bool.eq_iff_iff, contains_iff, contains_iff, h]

end Fields

end TypeGuard

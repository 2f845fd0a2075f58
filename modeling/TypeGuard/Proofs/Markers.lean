import TypeGuard.Proofs.Rendering
import TypeGuard.Proofs.Sameness

/-!
# What the JSON of a sample tells

Neither `undefined` nor the sentinel has a JSON form of its own.  Each is rendered as a marker,
an object of one member, and an object of the sample that looks like a marker is rendered like
it.  This is all that is lost: two samples are rendered alike exactly if they are the same
once the markers are spelled out, and a sample without an object that looks like a marker can
be read back.
-/

namespace TypeGuard

namespace Fields

theorem like_mapValues_iff {α β : Type} (f : α → β) (related : α → α → Prop)
    (like : β → β → Prop) {xs ys : Fields α}
    (h : ∀ x ∈ xs, ∀ y ∈ ys, (like (f x.2) (f y.2) ↔ related x.2 y.2)) :
    ((mapValues f xs).length = (mapValues f ys).length ∧
      ∀ x ∈ mapValues f xs, ∃ y, find? x.1 (mapValues f ys) = some y ∧ like x.2 y) ↔
    (xs.length = ys.length ∧ ∀ x ∈ xs, ∃ y, find? x.1 ys = some y ∧ related x.2 y) := by
  rw [length_mapValues, length_mapValues, mapValues, List.forall_mem_map]
  refine and_congr_right fun _ => forall₂_congr fun x hx => ?_
  rw [find?_mapValues]
  cases hy : find? x.1 ys with
  | none => simp
  | some y => simpa using h x hx _ (mem_of_find? hy)

end Fields

namespace Json

/-! ## Equal values -/

def Number.same : Number → Number → Bool
  | .integer i, .integer j => i == j
  | .double x, .double y => x.numericEq y
  | _, _ => false

mutual

def same : Json → Json → Bool
  | .null, .null => true
  | .bool a, .bool b => a == b
  | .number m, .number n => m.same n
  | .string s, .string t => s == t
  | .array xs, .array ys => sameItems xs ys
  | .object xs, .object ys => xs.length == ys.length && sameMembers xs ys
  | _, _ => false

def sameItems : List Json → List Json → Bool
  | [], [] => true
  | x :: xs, y :: ys => same x y && sameItems xs ys
  | _, _ => false

def sameMembers : List (String × Json) → List (String × Json) → Bool
  | [], _ => true
  | (name, x) :: rest, all =>
      (match Fields.find? name all with
        | some y => same x y
        | none => false) && sameMembers rest all

end

@[simp] theorem same_array_iff {xs ys : List Json} :
    (array xs).same (.array ys) = true ↔ List.Forall₂ (fun x y => x.same y = true) xs ys := by
  rw [same]
  induction xs generalizing ys with
  | nil => cases ys <;> simp [sameItems]
  | cons x xs ih => cases ys <;> simp [sameItems, ih]

@[simp] theorem same_object_iff {xs ys : Fields Json} :
    (object xs).same (.object ys) = true ↔ xs.length = ys.length ∧
      ∀ x ∈ xs, ∃ y, Fields.find? x.1 ys = some y ∧ x.2.same y = true := by
  have hmembers : sameMembers xs ys = true ↔
      ∀ x ∈ xs, ∃ y, Fields.find? x.1 ys = some y ∧ x.2.same y = true := by
    induction xs with
    | nil => simp [sameMembers]
    | cons x xs ih =>
        rw [sameMembers, Bool.and_eq_true, ih, List.forall_mem_cons]
        cases Fields.find? x.1 ys <;> simp
  rw [same, Bool.and_eq_true, beq_iff_eq, hmembers]

end Json

namespace Sample

/-! ## Samples without markers -/

def Everywhere (described : Sample → Prop) (sample : Sample) : Prop :=
  ∀ place part, sample.at? place = some part → described part

def IsFinite : Sample → Prop
  | .number x => x.value?.isSome
  | _ => True

def lookalike (name : String) : Fields Sample := [(name, .boolean true)]

def IsUnmarked : Sample → Prop
  | .object fields => fields ≠ lookalike "$undefined" ∧ fields ≠ lookalike "$invalid"
  | _ => True

section

variable {described : Sample → Prop}

theorem Everywhere.here {sample : Sample} (h : Everywhere described sample) : described sample :=
  h [] sample rfl

theorem everywhere_leaf {sample : Sample} (h : described sample)
    (hleaf : ∀ index place, sample.at? (index :: place) = none) : Everywhere described sample := by
  intro place part hpart
  cases place with
  | nil =>
      cases hpart
      exact h
  | cons index place =>
      rw [hleaf] at hpart
      cases hpart

@[simp] theorem everywhere_array_iff {items : List Sample} :
    Everywhere described (.array items) ↔
      described (.array items) ∧ ∀ item ∈ items, Everywhere described item := by
  constructor
  · refine fun h => ⟨h.here, fun item hitem place part hpart => ?_⟩
    obtain ⟨index, hindex⟩ := List.mem_iff_getElem?.mp hitem
    exact h (index :: place) part (by rw [at?, hindex]; exact hpart)
  · rintro ⟨hhere, hitems⟩ (_ | ⟨index, place⟩) part hpart
    · cases hpart
      exact hhere
    · obtain ⟨item, hindex, hpart⟩ := Option.bind_eq_some_iff.mp hpart
      exact hitems item (List.mem_of_getElem? hindex) place part hpart

@[simp] theorem everywhere_object_iff {fields : Fields Sample} :
    Everywhere described (.object fields) ↔
      described (.object fields) ∧ ∀ field ∈ fields, Everywhere described field.2 := by
  constructor
  · refine fun h => ⟨h.here, fun field hfield place part hpart => ?_⟩
    obtain ⟨index, hindex⟩ := List.mem_iff_getElem?.mp hfield
    exact h (index :: place) part (by rw [at?, hindex]; exact hpart)
  · rintro ⟨hhere, hfields⟩ (_ | ⟨index, place⟩) part hpart
    · cases hpart
      exact hhere
    · obtain ⟨field, hindex, hpart⟩ := Option.bind_eq_some_iff.mp hpart
      exact hfields field (List.mem_of_getElem? hindex) place part hpart

theorem Everywhere.item {items : List Sample} (h : Everywhere described (.array items))
    {item : Sample} (hitem : item ∈ items) : Everywhere described item :=
  (everywhere_array_iff.mp h).2 item hitem

theorem Everywhere.field {fields : Fields Sample} (h : Everywhere described (.object fields))
    {field : String × Sample} (hfield : field ∈ fields) : Everywhere described field.2 :=
  (everywhere_object_iff.mp h).2 field hfield

end

/-! ## Markers spelled out -/

mutual

/-- The sample with an object in the place of every marker. -/
def spellOut : Sample → Sample
  | .undefined => .object (lookalike "$undefined")
  | .sentinel => .object (lookalike "$invalid")
  | .array items => .array (spellItems items)
  | .object fields => .object (spellFields fields)
  | sample => sample

def spellItems : List Sample → List Sample
  | [] => []
  | item :: rest => spellOut item :: spellItems rest

def spellFields : List (String × Sample) → List (String × Sample)
  | [] => []
  | (name, value) :: rest => (name, spellOut value) :: spellFields rest

end

@[simp] theorem spellItems_eq_map (items : List Sample) :
    spellItems items = items.map spellOut := by
  induction items with
  | nil => rfl
  | cons item rest ih => simp [spellItems, ih]

@[simp] theorem spellFields_eq_mapValues (fields : Fields Sample) :
    spellFields fields = Fields.mapValues spellOut fields := by
  induction fields with
  | nil => rfl
  | cons field rest ih => simp [spellFields, ih]

mutual

theorem toJson_spellOut : ∀ sample : Sample, sample.spellOut.toJson = sample.toJson
  | .undefined | .sentinel | .null | .boolean _ | .number _ | .string _ => rfl
  | .array items => by rw [spellOut, toJson, toJson, itemsJson_spellItems]
  | .object fields => by rw [spellOut, toJson, toJson, fieldsJson_spellFields]

theorem itemsJson_spellItems : ∀ items, itemsJson (spellItems items) = itemsJson items
  | [] => rfl
  | item :: rest => by
      rw [spellItems, itemsJson, itemsJson, toJson_spellOut, itemsJson_spellItems]

theorem fieldsJson_spellFields : ∀ fields, fieldsJson (spellFields fields) = fieldsJson fields
  | [] => rfl
  | (name, value) :: rest => by
      rw [spellFields, fieldsJson, fieldsJson, toJson_spellOut, fieldsJson_spellFields]

end

inductive Plain : Sample → Prop
  | null : Plain .null
  | boolean {value : Bool} : Plain (.boolean value)
  | number {x : Binary64} : x.value?.isSome → Plain (.number x)
  | string {text : String} : Plain (.string text)
  | array {items : List Sample} : (∀ item ∈ items, Plain item) → Plain (.array items)
  | object {fields : List (String × Sample)} :
      (Fields.names fields).Nodup → (∀ field ∈ fields, Plain field.2) → Plain (.object fields)

theorem plain_spellOut {sample : Sample} (h : sample.Distinct)
    (hfinite : sample.Everywhere IsFinite) : sample.spellOut.Plain := by
  induction h with
  | null => exact .null
  | boolean => exact .boolean
  | number => exact .number hfinite.here
  | string => exact .string
  | undefined | sentinel =>
      exact .object (List.nodup_singleton _) (List.forall_mem_singleton.mpr .boolean)
  | array _ ih =>
      rw [spellOut, spellItems_eq_map]
      exact .array (List.forall_mem_map.mpr fun item hitem => ih item hitem (hfinite.item hitem))
  | object hnodup _ ih =>
      rw [spellOut, spellFields_eq_mapValues]
      refine .object (by rwa [Fields.names_mapValues]) (List.forall_mem_map.mpr ?_)
      exact fun field hfield => ih field hfield (hfinite.field hfield)

/-! ## Renderings of plain samples -/

/-- The double nearest to what a number is rendered as is that number: so it is even where the
rendering is not exact. -/
theorem exists_numberJson {x : Binary64} (hx : x.value?.isSome) :
    ∃ n, numberJson x = .number n ∧ n.toDouble.sameValue x = true := by
  obtain ⟨value, hvalue⟩ := Option.isSome_iff_exists.mp hx
  rcases integer_or_other value with ⟨i, rfl, hlow, hhigh⟩ | hother
  · refine ⟨_, numberJson_of_integer hvalue hlow hhigh, ?_⟩
    -- `2^63` is clamped to `2^63 - 1`, and the double nearest to that is `2^63` again.
    have hround : Binary64.ofInt (min i (2 ^ 63 - 1)) = Binary64.ofInt i := by
      rcases hhigh.lt_or_eq with hlt | rfl
      · rw [min_eq_left (by omega)]
      · decide +kernel
    rw [Json.Number.toDouble, hround]
    exact Binary64.ofInt_sameValue hvalue
  · exact ⟨_, numberJson_of_other hvalue hother, Binary64.sameValue_refl x⟩

theorem sameValue_of_same {m n : Json.Number} (h : m.same n = true) :
    m.toDouble.sameValue n.toDouble = true := by
  cases m with
  | integer i =>
      cases n with
      | integer j =>
          obtain rfl : i = j := by simpa [Json.Number.same] using h
          exact Binary64.sameValue_refl _
      | double y => cases h
  | double x =>
      cases n with
      | integer j => cases h
      | double y =>
          rw [Json.Number.same] at h
          simp [Json.Number.toDouble, Binary64.sameValue, h]

theorem same_numberJson_iff {x y : Binary64} (hx : x.value?.isSome) (hy : y.value?.isSome) :
    (numberJson x).same (numberJson y) = true ↔ x.sameValue y = true := by
  constructor
  · intro h
    obtain ⟨m, hm, hxm⟩ := exists_numberJson hx
    obtain ⟨n, hn, hyn⟩ := exists_numberJson hy
    rw [hm, hn, Json.same] at h
    rw [Binary64.sameValue_comm] at hxm
    exact Binary64.sameValue_trans hxm (Binary64.sameValue_trans (sameValue_of_same h) hyn)
  · intro h
    obtain ⟨value, hvalue⟩ := Option.isSome_iff_exists.mp hx
    have hother := hvalue
    rw [Binary64.value?_congr h] at hother
    rcases integer_or_other value with ⟨i, rfl, hlow, hhigh⟩ | hout
    · rw [numberJson_of_integer hvalue hlow hhigh, numberJson_of_integer hother hlow hhigh]
      simp [Json.same, Json.Number.same]
    · rw [numberJson_of_other hvalue hout, numberJson_of_other hother hout, Json.same,
        Json.Number.same]
      cases x <;> simp_all [Binary64.sameValue, Binary64.isNaN, Binary64.value?]

theorem same_toJson_array_iff {xs ys : List Sample}
    (h : ∀ x ∈ xs, ∀ y ∈ ys, (x.toJson.same y.toJson = true ↔ x.same y = true)) :
    (array xs).toJson.same (array ys).toJson = true ↔ (array xs).same (.array ys) = true := by
  simpa [same_array_iff, toJson, Json.same_array_iff] using forall₂_iff_of_mem h

theorem same_toJson_object_iff {xs ys : Fields Sample} (hys : (Fields.names ys).Nodup)
    (h : ∀ x ∈ xs, ∀ y ∈ ys, (x.2.toJson.same y.2.toJson = true ↔ x.2.same y.2 = true)) :
    (object xs).toJson.same (object ys).toJson = true ↔
      (object xs).same (.object ys) = true := by
  rw [toJson, toJson, fieldsJson_eq_mapValues, fieldsJson_eq_mapValues, Json.same_object_iff,
    same_object_iff hys]
  exact Fields.like_mapValues_iff toJson (fun x y => x.same y = true)
    (fun x y => x.same y = true) h

theorem Plain.same_toJson_iff {a b : Sample} (ha : a.Plain) (hb : b.Plain) :
    a.toJson.same b.toJson = true ↔ a.same b = true := by
  -- Samples of different forms have JSON of different forms.
  induction ha generalizing b with
  | @number x hx =>
      cases hb with
      | number hy => simpa only [toJson, same] using same_numberJson_iff hx hy
      | _ =>
          obtain ⟨n, hn, -⟩ := exists_numberJson hx
          simp [toJson, hn, Json.same, same]
  | array _ ih =>
      cases hb with
      | array hys => exact same_toJson_array_iff fun x hx y hy => ih x hx (hys y hy)
      | number hy =>
          obtain ⟨n, hn, -⟩ := exists_numberJson hy
          simp [toJson, hn, Json.same, same]
      | _ => simp [toJson, Json.same, same]
  | object _ _ ih =>
      cases hb with
      | object hnodup hys => exact same_toJson_object_iff hnodup fun x hx y hy => ih x hx (hys y hy)
      | number hy =>
          obtain ⟨n, hn, -⟩ := exists_numberJson hy
          simp [toJson, hn, Json.same, same]
      | _ => simp [toJson, Json.same, same]
  | _ =>
      cases hb with
      | number hy =>
          obtain ⟨n, hn, -⟩ := exists_numberJson hy
          simp [toJson, hn, Json.same, same]
      | _ => simp [toJson, Json.same, same]

/-! ## Samples that no object makes ambiguous -/

theorem Plain.distinct {sample : Sample} (h : sample.Plain) : sample.Distinct := by
  induction h with
  | null => exact .null
  | boolean => exact .boolean
  | number => exact .number
  | string => exact .string
  | array _ ih => exact .array ih
  | object hnodup _ ih => exact .object hnodup ih

theorem same_lookalike {name : String} {fields : Fields Sample}
    (hnodup : (Fields.names fields).Nodup)
    (h : (object (lookalike name)).same (.object (spellFields fields)) = true) :
    fields = lookalike name := by
  rw [spellFields_eq_mapValues, same_object_iff (by rwa [Fields.names_mapValues])] at h
  obtain ⟨hlength, hfields⟩ := h
  obtain ⟨y, hy, hsame⟩ := hfields _ (List.mem_singleton_self _)
  obtain ⟨⟨key, value⟩, rfl⟩ := List.length_eq_one_iff.mp
    (show fields.length = 1 by simpa [lookalike, Fields.mapValues] using hlength.symm)
  rw [Fields.find?_mapValues, Fields.find?] at hy
  split at hy
  next hkey =>
      cases hy
      cases value <;> simp_all [spellOut, same, lookalike]
  next => cases hy

section

variable {a b : Sample}

theorem same_spellOut_iff (ha : a.Distinct) (hb : b.Distinct) (hfa : a.Everywhere IsFinite)
    (hfb : b.Everywhere IsFinite) (hma : a.Everywhere IsUnmarked)
    (hmb : b.Everywhere IsUnmarked) :
    a.spellOut.same b.spellOut = true ↔ a.same b = true := by
  -- A marker is spelled out like an object only if that object looks like a marker.
  induction ha generalizing b with
  | undefined =>
      cases hb with
      | undefined => decide +kernel
      | sentinel => decide +kernel
      | object hnodup _ =>
          exact iff_of_false (fun h => hmb.here.1 (same_lookalike hnodup h)) (by simp [same])
      | _ => simp [spellOut, same]
  | sentinel =>
      cases hb with
      | undefined => decide +kernel
      | sentinel => decide +kernel
      | object hnodup _ =>
          exact iff_of_false (fun h => hmb.here.2 (same_lookalike hnodup h)) (by simp [same])
      | _ => simp [spellOut, same]
  | array _ ih =>
      cases hb with
      | array hys =>
          rw [spellOut, spellOut, spellItems_eq_map, spellItems_eq_map, same_array_iff,
            same_array_iff, List.forall₂_map_left_iff, List.forall₂_map_right_iff]
          exact forall₂_iff_of_mem fun x hx y hy => ih x hx (hys y hy) (hfa.item hx)
            (hfb.item hy) (hma.item hx) (hmb.item hy)
      | _ => simp [spellOut, same]
  | object hnodup hxs ih =>
      have hplain := (plain_spellOut (.object hnodup hxs) hfa).distinct
      cases hb with
      | undefined =>
          refine iff_of_false (fun h => hma.here.1 (same_lookalike hnodup ?_)) (by simp [same])
          exact same_symm hplain (plain_spellOut .undefined hfb).distinct h
      | sentinel =>
          refine iff_of_false (fun h => hma.here.2 (same_lookalike hnodup ?_)) (by simp [same])
          exact same_symm hplain (plain_spellOut .sentinel hfb).distinct h
      | object hothers hys =>
          rw [spellOut, spellOut, spellFields_eq_mapValues, spellFields_eq_mapValues,
            same_object_iff (by rwa [Fields.names_mapValues]), same_object_iff hothers]
          exact Fields.like_mapValues_iff spellOut (fun x y => x.same y = true)
            (fun x y => x.same y = true) fun x hx y hy => ih x hx (hys y hy) (hfa.field hx)
              (hfb.field hy) (hma.field hx) (hmb.field hy)
      | _ => simp [spellOut, same]
  | _ => cases hb <;> simp [spellOut, same]

end

/-! ## Reading samples back -/

def isMarker (name : String) : List (String × Json) → Bool
  | [(key, .bool true)] => key == name
  | _ => false

mutual

/-- The sample of a JSON value, where markers stand for what they mark. -/
def ofJson : Json → Sample
  | .null => .null
  | .bool b => .boolean b
  | .number n => .number n.toDouble
  | .string s => .string s
  | .array items => .array (ofItems items)
  | .object members =>
      if isMarker "$undefined" members then .undefined
      else if isMarker "$invalid" members then .sentinel
      else .object (ofMembers members)

def ofItems : List Json → List Sample
  | [] => []
  | item :: rest => ofJson item :: ofItems rest

def ofMembers : List (String × Json) → List (String × Sample)
  | [] => []
  | (name, value) :: rest => (name, ofJson value) :: ofMembers rest

end

@[simp] theorem ofItems_eq_map (items : List Json) : ofItems items = items.map ofJson := by
  induction items with
  | nil => rfl
  | cons item rest ih => simp [ofItems, ih]

@[simp] theorem ofMembers_eq_mapValues (members : Fields Json) :
    ofMembers members = Fields.mapValues ofJson members := by
  induction members with
  | nil => rfl
  | cons member rest ih => simp [ofMembers, ih]

theorem eq_of_isMarker {name : String} {members : Fields Json}
    (h : isMarker name members = true) : members = [(name, .bool true)] := by
  unfold isMarker at h
  split at h
  · rw [eq_of_beq h]
  · cases h

theorem eq_boolean_of_toJson {b : Bool} {value : Sample} (h : value.toJson = .bool b) :
    value = .boolean b := by
  cases value with
  | boolean => simpa [toJson] using h
  | number x =>
      have hx : numberJson x ≠ .bool b := by
        rw [numberJson]
        grind [Json.int, Json.double]
      exact absurd h hx
  | _ => simp [toJson, marker] at h

theorem eq_lookalike_of_isMarker {name : String} {fields : Fields Sample}
    (h : isMarker name (fieldsJson fields) = true) : fields = lookalike name := by
  have hfields := eq_of_isMarker h
  rw [fieldsJson_eq_mapValues, Fields.mapValues, List.map_eq_singleton_iff] at hfields
  obtain ⟨field, rfl, hfield⟩ := hfields
  obtain ⟨hname, hvalue⟩ := Prod.mk.inj hfield
  rw [lookalike, ← hname, ← eq_boolean_of_toJson hvalue]

theorem same_ofJson_toJson {sample : Sample} (h : sample.Distinct)
    (hfinite : sample.Everywhere IsFinite) (hunmarked : sample.Everywhere IsUnmarked) :
    (ofJson sample.toJson).same sample = true := by
  induction h with
  | undefined | sentinel => decide +kernel
  | null | boolean | string => simp [toJson, ofJson, same]
  | number =>
      obtain ⟨n, hn, hsame⟩ := exists_numberJson hfinite.here
      rw [toJson, hn, ofJson, same, hsame]
  | array _ ih =>
      rw [toJson, itemsJson_eq_map, ofJson, ofItems_eq_map, List.map_map, same_array_iff,
        List.forall₂_map_left_iff, List.forall₂_same]
      exact fun item hitem => ih item hitem (hfinite.item hitem) (hunmarked.item hitem)
  | object hnodup _ ih =>
      rw [toJson, ofJson, if_neg fun h => hunmarked.here.1 (eq_lookalike_of_isMarker h),
        if_neg fun h => hunmarked.here.2 (eq_lookalike_of_isMarker h), same_object_iff hnodup,
        ofMembers_eq_mapValues, fieldsJson_eq_mapValues]
      refine ⟨by simp [Fields.mapValues], ?_⟩
      rw [Fields.mapValues, Fields.mapValues, List.map_map, List.forall_mem_map]
      intro field hfield
      exact ⟨field.2, Fields.find?_of_mem hnodup hfield,
        ih field hfield (hfinite.field hfield) (hunmarked.field hfield)⟩

/-! ## What samples have the same JSON -/

/-- Two samples have the same JSON exactly if they are the same once the markers are spelled out.
If in neither an object looks like a marker, they are the same then, and each can be read back. -/
theorem toJson_same_iff {a b : Sample} (ha : a.Distinct) (hb : b.Distinct)
    (hfa : a.Everywhere IsFinite) (hfb : b.Everywhere IsFinite) :
    (a.toJson.same b.toJson = true ↔ a.spellOut.same b.spellOut = true) ∧
      (a.Everywhere IsUnmarked → b.Everywhere IsUnmarked →
        (a.toJson.same b.toJson = true ↔ a.same b = true)) ∧
      (a.Everywhere IsUnmarked → (ofJson a.toJson).same a = true) := by
  have hspelled : a.toJson.same b.toJson = true ↔ a.spellOut.same b.spellOut = true := by
    rw [← toJson_spellOut a, ← toJson_spellOut b]
    exact (plain_spellOut ha hfa).same_toJson_iff (plain_spellOut hb hfb)
  exact ⟨hspelled, fun hma hmb => hspelled.trans (same_spellOut_iff ha hb hfa hfb hma hmb),
    same_ofJson_toJson ha hfa⟩

def named : Sample :=
  .object [("$undefined", .undefined), ("$invalid", .array [.sentinel, .number half])]

def misnamed : Sample :=
  .array [.undefined, .object (lookalike "$undefined")]

theorem toJson_same_iff_named :
    named.toJson.same named.toJson = true ∧ (ofJson named.toJson).same named = true ∧
      named.toJson.same misnamed.toJson = false ∧
      misnamed.toJson.same (array [.undefined, .undefined]).toJson = true := by
  have hnamed : named.Distinct :=
    .object (by decide) (List.forall_mem_cons.mpr ⟨.undefined, List.forall_mem_singleton.mpr
      (.array (List.forall_mem_cons.mpr ⟨.sentinel, List.forall_mem_singleton.mpr .number⟩))⟩)
  have hmisnamed : misnamed.Distinct :=
    .array (List.forall_mem_cons.mpr ⟨.undefined, List.forall_mem_singleton.mpr
      (.object (by decide) (List.forall_mem_singleton.mpr .boolean))⟩)
  have hpair : (array [.undefined, .undefined]).Distinct :=
    .array (List.forall_mem_cons.mpr ⟨.undefined, List.forall_mem_singleton.mpr .undefined⟩)
  have hparts : ∀ described : Sample → Prop, described named → described .undefined →
      described (.array [.sentinel, .number half]) → described .sentinel →
      described (.number half) → named.Everywhere described := by
    intro described hhere hundefined harray hsentinel hhalf
    refine everywhere_object_iff.mpr ⟨hhere, List.forall_mem_cons.mpr
      ⟨everywhere_leaf hundefined fun _ _ => rfl, List.forall_mem_singleton.mpr ?_⟩⟩
    exact everywhere_array_iff.mpr ⟨harray, List.forall_mem_cons.mpr
      ⟨everywhere_leaf hsentinel fun _ _ => rfl, List.forall_mem_singleton.mpr
        (everywhere_leaf hhalf fun _ _ => rfl)⟩⟩
  have hfinite : named.Everywhere IsFinite :=
    hparts IsFinite trivial trivial trivial trivial (show half.value?.isSome = true from rfl)
  have hunmarked : named.Everywhere IsUnmarked :=
    hparts IsUnmarked (by simp [named, IsUnmarked, lookalike]) trivial trivial trivial trivial
  have hmisfinite : misnamed.Everywhere IsFinite :=
    everywhere_array_iff.mpr ⟨trivial, List.forall_mem_cons.mpr
      ⟨everywhere_leaf trivial fun _ _ => rfl, List.forall_mem_singleton.mpr
        (everywhere_object_iff.mpr ⟨trivial, List.forall_mem_singleton.mpr
          (everywhere_leaf trivial fun _ _ => rfl)⟩)⟩⟩
  have hpairfinite : (array [.undefined, .undefined]).Everywhere IsFinite :=
    everywhere_array_iff.mpr ⟨trivial, List.forall_mem_cons.mpr
      ⟨everywhere_leaf trivial fun _ _ => rfl, List.forall_mem_singleton.mpr
        (everywhere_leaf trivial fun _ _ => rfl)⟩⟩
  obtain ⟨-, hsame, hread⟩ := toJson_same_iff hnamed hnamed hfinite hfinite
  have hdiffer := (toJson_same_iff hnamed hmisnamed hfinite hmisfinite).1
  have hcollide := (toJson_same_iff hmisnamed hpair hmisfinite hpairfinite).1
  exact ⟨(hsame hunmarked hunmarked).mpr (same_refl hnamed), hread hunmarked,
    Bool.eq_false_iff.mpr fun h => absurd (hdiffer.mp h) (by decide +kernel),
    hcollide.mpr (by decide +kernel)⟩

theorem toJson_not_injective :
    ¬ ∀ a b : Sample, a.Distinct → b.Distinct → a.Everywhere IsFinite → b.Everywhere IsFinite →
      a.toJson.same b.toJson = true → a.same b = true := by
  intro h
  have hobject : (object (lookalike "$undefined")).Everywhere IsFinite :=
    everywhere_object_iff.mpr ⟨trivial, List.forall_mem_singleton.mpr
      (everywhere_leaf trivial fun _ _ => rfl)⟩
  exact absurd (h .undefined (.object (lookalike "$undefined")) .undefined
    (.object (by decide) (List.forall_mem_singleton.mpr .boolean))
    (everywhere_leaf trivial fun _ _ => rfl) hobject (by decide +kernel)) (by decide +kernel)

end Sample

end TypeGuard

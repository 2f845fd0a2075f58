import TypeGuard.Proofs.Drawing

/-!
# The list of invalid samples

A single fault of a sampler puts the sentinel at one position of a sample that is
canonical everywhere else.  `Sampler.invalid` lists the single faults that the
sampler rejects, and nothing else.

A union drops the faults that another member accepts, at every depth, before the
objects and arrays around it are built.  Nothing is lost by that: the rest of such
an object is canonical, so it accepts its parts, and an object or array with a
fault is accepted exactly if the part with the fault is.
-/

namespace TypeGuard

namespace Sample

/-! ## Counting sentinels -/

mutual

def sentinels : Sample → Nat
  | .sentinel => 1
  | .array items => itemSentinels items
  | .object fields => fieldSentinels fields
  | _ => 0

def itemSentinels : List Sample → Nat
  | [] => 0
  | item :: rest => sentinels item + itemSentinels rest

def fieldSentinels : List (String × Sample) → Nat
  | [] => 0
  | (_, value) :: rest => sentinels value + fieldSentinels rest

end

mutual

@[simp] theorem containsSentinel_eq_false_iff (sample : Sample) :
    sample.containsSentinel = false ↔ sample.sentinels = 0 := by
  match sample with
  | .array items => exact anySentinel_eq_false_iff items
  | .object fields => exact anyFieldSentinel_eq_false_iff fields
  | .sentinel => simp [containsSentinel, sentinels]
  | .undefined | .null | .boolean _ | .number _ | .string _ =>
      simp [containsSentinel, sentinels]

@[simp] theorem anySentinel_eq_false_iff (items : List Sample) :
    anySentinel items = false ↔ itemSentinels items = 0 := by
  match items with
  | [] => simp [anySentinel, itemSentinels]
  | item :: rest =>
      rw [anySentinel, itemSentinels, Bool.or_eq_false_iff, Nat.add_eq_zero_iff,
        containsSentinel_eq_false_iff item, anySentinel_eq_false_iff rest]

@[simp] theorem anyFieldSentinel_eq_false_iff (fields : List (String × Sample)) :
    anyFieldSentinel fields = false ↔ fieldSentinels fields = 0 := by
  match fields with
  | [] => simp [anyFieldSentinel, fieldSentinels]
  | (_, value) :: rest =>
      rw [anyFieldSentinel, fieldSentinels, Bool.or_eq_false_iff, Nat.add_eq_zero_iff,
        containsSentinel_eq_false_iff value, anyFieldSentinel_eq_false_iff rest]

end

theorem fieldSentinels_eq_zero_iff {fields : Fields Sample} :
    fieldSentinels fields = 0 ↔ ∀ field ∈ fields, field.2.sentinels = 0 := by
  induction fields with
  | nil => simp [fieldSentinels]
  | cons field rest ih => simp [fieldSentinels, ih]

theorem fieldSentinels_insert {fields : Fields Sample} (h : fieldSentinels fields = 0)
    (name : String) (value : Sample) :
    fieldSentinels (Fields.insert name value fields) = value.sentinels := by
  induction fields with
  | nil => simp [fieldSentinels]
  | cons field rest ih =>
      obtain ⟨key, old⟩ := field
      rw [fieldSentinels, Nat.add_eq_zero_iff] at h
      by_cases hkey : key = name
      · simp [fieldSentinels, hkey, h.2]
      · simp [fieldSentinels, hkey, h.1, ih h.2]

end Sample

namespace Sampler

/-! ## Samples that are the same are accepted alike -/

@[simp] theorem accepts_primitive (kind : Primitive) (sample : Sample) :
    (primitive kind).accepts sample = isOfKind kind sample := by
  cases kind <;> cases sample <;> rfl

theorem isOfKind_of_same (kind : Primitive) {x y : Sample} (h : x.same y = true) :
    isOfKind kind x = isOfKind kind y := by
  cases x <;> cases y <;> first | (cases kind <;> rfl) | simp [Sample.same] at h

theorem accepts_of_same {sampler : Sampler} (h : sampler.Drawable) {x y : Sample}
    (hx : x.Distinct) (hy : y.Distinct) (hsame : x.same y = true)
    (haccepts : sampler.accepts x = true) : sampler.accepts y = true := by
  induction h generalizing x y with
  | @value sample hfixed =>
      rw [accepts_value hfixed.2] at haccepts ⊢
      exact Sample.same_trans hx hy haccepts hsame
  | @primitive kind =>
      rw [accepts_primitive] at haccepts ⊢
      rw [← isOfKind_of_same kind hsame]
      exact haccepts
  | union _ _ ih =>
      rw [accepts_union, List.any_eq_true] at haccepts ⊢
      obtain ⟨member, hmember, haccepts⟩ := haccepts
      exact ⟨member, hmember, ih member hmember hx hy hsame haccepts⟩
  | array _ ih =>
      cases hx with
      | @array xs hxs =>
          cases hy with
          | @array ys hys =>
              rw [Sample.same_array_iff] at hsame
              rw [accepts_array, List.all_eq_true] at haccepts ⊢
              intro item hitem
              obtain ⟨x, hx, hsame⟩ := exists_mem_of_forall₂ hsame.flip item hitem
              exact ih (hxs x hx) (hys item hitem) hsame (haccepts x hx)
          | _ => simp [Sample.same] at hsame
      | _ => cases haccepts
  | object _ _ ih =>
      cases x with
      | object xs =>
          cases y with
          | object ys =>
              rw [accepts_object, List.all_eq_true] at haccepts ⊢
              intro attr hattr
              exact ih attr hattr (hx.field attr.1) (hy.field attr.1)
                (Sample.same_field hx.names_nodup hy.names_nodup hsame attr.1)
                (haccepts attr hattr)
          | _ => simp [Sample.same] at hsame
      | _ => cases haccepts

/-! ## Canonical samples -/

theorem exists_canonicalRow? {drawn : Sampler → Sample → Prop}
    {attributes : List (String × Sampler)} {row : Fields Sample}
    (h : ∀ attr ∈ attributes, ∃ sample, attr.2.canonical? = some sample ∧ drawn attr.2 sample)
    (hnodup : (Fields.names row ++ Fields.names attributes).Nodup) :
    ∃ added, canonicalRow? attributes row = some (row ++ added) ∧
      List.Forall₂ (fun attr field => field.1 = attr.1 ∧ drawn attr.2 field.2)
        attributes added := by
  induction attributes generalizing row with
  | nil => exact ⟨[], by rw [canonicalRow?, List.append_nil], .nil⟩
  | cons attr rest ih =>
      obtain ⟨name, sampler⟩ := attr
      rw [List.forall_mem_cons] at h
      obtain ⟨⟨sample, hcanonical, hdrawn⟩, hrest⟩ := h
      have hfresh : name ∉ Fields.names row := fun hmem =>
        (List.nodup_append.mp hnodup).2.2 name hmem name List.mem_cons_self rfl
      have hnames : Fields.names (row ++ [(name, sample)]) ++ Fields.names rest =
          Fields.names row ++ Fields.names ((name, sampler) :: rest) := by
        simp
      obtain ⟨added, hadded, hforall⟩ := ih hrest (hnames ▸ hnodup)
      refine ⟨(name, sample) :: added, ?_, .cons ⟨rfl, hdrawn⟩ hforall⟩
      rw [canonicalRow?, hcanonical]
      simp only [Fields.insert_of_notMem hfresh, hadded, List.append_assoc, List.singleton_append]

theorem exists_canonical? {sampler : Sampler} (h : sampler.Breakable) :
    ∃ sample, sampler.canonical? = some sample ∧ Draw sampler sample := by
  induction h with
  | value => exact ⟨_, rfl, .value⟩
  | primitive => exact ⟨_, rfl, .primitive⟩
  | @union members hlength _ ih =>
      match members with
      | [] => simp at hlength
      | member :: rest =>
          obtain ⟨sample, hcanonical, hdraw⟩ := ih member List.mem_cons_self
          refine ⟨sample, ?_, .union List.mem_cons_self hdraw⟩
          rw [canonical?, firstCanonical?, hcanonical]
  | array _ ih =>
      obtain ⟨sample, hcanonical, hdraw⟩ := ih
      exact ⟨.array [sample], by rw [canonical?, hcanonical]; rfl, .array hdraw⟩
  | object hnodup _ ih =>
      have hfresh : (Fields.names ([] : Fields Sample) ++ Fields.names _).Nodup := hnodup
      obtain ⟨row, hrow, hforall⟩ := exists_canonicalRow? ih hfresh
      obtain ⟨hnames, hdraws⟩ := (Fields.forall₂_iff_field Draw hnodup).mp hforall
      exact ⟨.object row, by rw [canonical?, hrow]; rfl, .object hnames hdraws⟩

theorem Draw.sentinels_eq_zero {sampler : Sampler} {sample : Sample} (hdraw : Draw sampler sample)
    (h : sampler.Breakable) : sample.sentinels = 0 := by
  induction hdraw with
  | value =>
      cases h with
      | value hfixed => exact (Sample.containsSentinel_eq_false_iff _).mp hfixed.2
  | @primitive kind => cases kind <;> rfl
  | union hmember _ ih =>
      cases h with
      | union _ hmembers => exact ih (hmembers _ hmember)
  | array _ ih =>
      cases h with
      | array helement => simpa [Sample.sentinels, Sample.itemSentinels] using ih helement
  | object hnames _ ih =>
      cases h with
      | object hnodup hattributes =>
          rw [Sample.sentinels, Sample.fieldSentinels_eq_zero_iff]
          intro field hfield
          obtain ⟨attr, hattr, hvalue⟩ := exists_attr_of_mem_row hnodup hnames hfield
          exact hvalue ▸ ih attr hattr (hattributes attr hattr)

/-! ## Single faults -/

/-- The sentinel at one position: in place of the sample itself, or of a part of it
where the other parts are canonical. -/
inductive SingleFault : Sampler → Sample → Prop
  | sentinel {sampler : Sampler} : SingleFault sampler .sentinel
  | member {members : List Sampler} {member : Sampler} {fault : Sample} :
      member ∈ members → SingleFault member fault → SingleFault (.union members) fault
  | item {element : Sampler} {fault : Sample} :
      SingleFault element fault → SingleFault (.array element) (.array [fault])
  | part {attributes : List (String × Sampler)} {row : Fields Sample} {name : String}
      {attr : Sampler} {fault : Sample} :
      (object attributes).canonical? = some (.object row) → (name, attr) ∈ attributes →
      SingleFault attr fault →
      SingleFault (.object attributes) (.object (Fields.insert name fault row))

@[simp] theorem canonical?_object {attributes : List (String × Sampler)} {row : Fields Sample} :
    (object attributes).canonical? = some (.object row) ↔
      canonicalRow? attributes [] = some row := by
  rw [canonical?]
  simp

theorem draw_of_canonicalRow? {attributes : List (String × Sampler)} {row : Fields Sample}
    (h : (object attributes).Breakable)
    (hrow : (object attributes).canonical? = some (.object row)) :
    Draw (.object attributes) (.object row) := by
  obtain ⟨sample, hcanonical, hdraw⟩ := exists_canonical? h
  cases hrow.symm.trans hcanonical
  exact hdraw

theorem SingleFault.distinct {sampler : Sampler} {fault : Sample}
    (hfault : SingleFault sampler fault) (h : sampler.Breakable) : fault.Distinct := by
  induction hfault with
  | sentinel => exact .sentinel
  | member hmember _ ih =>
      cases h with
      | union _ hmembers => exact ih (hmembers _ hmember)
  | item _ ih =>
      cases h with
      | array helement => exact .array (by simpa using ih helement)
  | part hrow hmem _ ih =>
      have hdistinct := (draw_of_canonicalRow? h hrow).distinct h.drawable
      cases h with
      | object _ hattributes => exact hdistinct.insert _ (ih (hattributes _ hmem))

theorem SingleFault.sentinels_eq_one {sampler : Sampler} {fault : Sample}
    (hfault : SingleFault sampler fault) (h : sampler.Breakable) : fault.sentinels = 1 := by
  induction hfault with
  | sentinel => rfl
  | member hmember _ ih =>
      cases h with
      | union _ hmembers => exact ih (hmembers _ hmember)
  | item _ ih =>
      cases h with
      | array helement => simpa [Sample.sentinels, Sample.itemSentinels] using ih helement
  | part hrow hmem _ ih =>
      have hzero := (draw_of_canonicalRow? h hrow).sentinels_eq_zero h
      cases h with
      | object _ hattributes =>
          rw [Sample.sentinels, Sample.fieldSentinels_insert hzero]
          exact ih (hattributes _ hmem)

/-! ## What is listed is a single fault -/

@[simp] theorem mem_memberFaults {members : List Sampler} {fault : Sample} :
    fault ∈ memberFaults members ↔ ∃ member ∈ members, fault ∈ member.faults := by
  induction members with
  | nil => simp [memberFaults]
  | cons member rest ih => simp [memberFaults, ih]

theorem faults_object {attributes : List (String × Sampler)} {row : Fields Sample}
    (hrow : (object attributes).canonical? = some (.object row)) :
    (object attributes).faults = Sample.appendNew [.sentinel] (attributeFaults row attributes) := by
  rw [faults, canonical?_object.mp hrow]

theorem exists_canonicalRow_object {attributes : List (String × Sampler)}
    (h : (object attributes).Breakable) :
    ∃ row, (object attributes).canonical? = some (.object row) := by
  obtain ⟨sample, hcanonical, hdraw⟩ := exists_canonical? h
  cases hdraw with
  | @object _ row _ _ => exact ⟨row, hcanonical⟩

theorem singleFault_of_mem_faults {sampler : Sampler} (h : sampler.Breakable) {fault : Sample}
    (hfault : fault ∈ sampler.faults) : SingleFault sampler fault := by
  induction h generalizing fault with
  | value | primitive =>
      rw [faults, List.mem_singleton] at hfault
      rw [hfault]
      exact .sentinel
  | union _ _ ih =>
      rcases mem_sentinel_appendNew hfault with rfl | hmore
      · exact .sentinel
      · obtain ⟨member, hmember, hinner⟩ := mem_memberFaults.mp (List.mem_of_mem_filter hmore)
        exact .member hmember (ih member hmember hinner)
  | array _ ih =>
      rcases mem_sentinel_appendNew hfault with rfl | hmore
      · exact .sentinel
      · obtain ⟨inner, hinner, rfl⟩ := List.mem_map.mp hmore
        exact .item (ih hinner)
  | object hnodup hattributes ih =>
      obtain ⟨row, hrow⟩ := exists_canonicalRow_object (.object hnodup hattributes)
      rw [faults_object hrow] at hfault
      rcases mem_sentinel_appendNew hfault with rfl | hmore
      · exact .sentinel
      · obtain ⟨attr, hattr, inner, hinner, rfl⟩ := mem_attributeFaults.mp hmore
        exact .part hrow hattr (ih attr hattr hinner)

theorem distinct_of_mem_faults {sampler : Sampler} (h : sampler.Breakable) :
    ∀ fault ∈ sampler.faults, fault.Distinct :=
  fun _ hfault => (singleFault_of_mem_faults h hfault).distinct h

/-! ## Single faults that are rejected are listed -/

theorem sentinel_mem_faults (sampler : Sampler) : Sample.sentinel ∈ sampler.faults := by
  have hfirst : ∀ more, Sample.sentinel ∈ Sample.appendNew [.sentinel] more :=
    Sample.mem_appendNew_of_mem (List.mem_singleton_self _)
  cases sampler with
  | value | primitive => exact List.mem_singleton_self _
  | union | array => exact hfirst _
  | object attributes =>
      rw [faults]
      split
      · exact List.mem_singleton_self _
      · exact hfirst _

theorem isAmong_sentinel_appendNew {fault other : Sample} {more : List Sample}
    (hmore : ∀ other ∈ more, other.Distinct) (hfault : fault.Distinct)
    (hother : other ∈ more) (hsame : other.same fault = true) :
    fault.isAmong (Sample.appendNew [.sentinel] more) = true :=
  (Sample.isAmong_appendNew hmore hfault).mpr (.inr (Sample.isAmong_iff.mpr ⟨other, hother, hsame⟩))

theorem accepts_insert_iff {attributes : List (String × Sampler)} {row : Fields Sample}
    {name : String} {attr : Sampler} (h : (object attributes).Breakable)
    (hrow : (object attributes).canonical? = some (.object row))
    (hmem : (name, attr) ∈ attributes) (sample : Sample) :
    (object attributes).accepts (.object (Fields.insert name sample row)) = true ↔
      attr.accepts sample = true := by
  rw [accepts_object, List.all_eq_true]
  constructor
  · intro hall
    simpa using hall (name, attr) hmem
  · intro haccepts other hother
    by_cases hname : other.1 = name
    · -- No other attribute has the name.
      cases h with
      | object hnodup _ =>
          have heq : other.2 = attr := by
            have hfirst := Fields.find?_of_mem hnodup hmem
            rw [← hname, Fields.find?_of_mem hnodup hother] at hfirst
            exact Option.some.inj hfirst
          rw [hname, heq, Sample.field_insert_self]
          exact haccepts
    · have hcanonical := accepts_of_draw (draw_of_canonicalRow? h hrow) h.drawable
      rw [accepts_object, List.all_eq_true] at hcanonical
      rw [Sample.field_insert_of_ne hname]
      exact hcanonical other hother

theorem isAmong_faults_union {members : List Sampler} {member : Sampler} {fault : Sample}
    (hmembers : ∀ member ∈ members, member.Breakable) (hmember : member ∈ members)
    (hdistinct : fault.Distinct) (hrejected : ∀ member ∈ members, member.accepts fault = false)
    (h : fault.isAmong member.faults = true) :
    fault.isAmong (union members).faults = true := by
  obtain ⟨other, hother, hsame⟩ := Sample.isAmong_iff.mp h
  have hmore : ∀ other ∈ memberFaults members, other.Distinct := by
    intro other hother
    obtain ⟨candidate, hcandidate, hmem⟩ := mem_memberFaults.mp hother
    exact distinct_of_mem_faults (hmembers candidate hcandidate) other hmem
  have hlisted := mem_memberFaults.mpr ⟨member, hmember, hother⟩
  have hkept : (union members).accepts other = false := by
    rw [accepts_union, List.any_eq_false]
    intro candidate hcandidate haccepts
    have hfault := accepts_of_same (hmembers candidate hcandidate).drawable (hmore other hlisted)
      hdistinct hsame haccepts
    rw [hrejected candidate hcandidate] at hfault
    cases hfault
  refine isAmong_sentinel_appendNew (fun other hother => ?_) hdistinct
    (List.mem_filter.mpr ⟨hlisted, by simpa using hkept⟩) hsame
  exact hmore other (List.mem_of_mem_filter hother)

theorem isAmong_faults_array {element : Sampler} {fault : Sample} (helement : element.Breakable)
    (hdistinct : (Sample.array [fault]).Distinct) (h : fault.isAmong element.faults = true) :
    (Sample.array [fault]).isAmong (array element).faults = true := by
  obtain ⟨other, hother, hsame⟩ := Sample.isAmong_iff.mp h
  refine isAmong_sentinel_appendNew (fun more hmore => ?_) hdistinct
    (List.mem_map_of_mem hother) (Sample.same_array_iff.mpr (.cons hsame .nil))
  obtain ⟨inner, hinner, rfl⟩ := List.mem_map.mp hmore
  exact .array (by simpa using distinct_of_mem_faults helement inner hinner)

theorem isAmong_faults_object {attributes : List (String × Sampler)} {row : Fields Sample}
    {name : String} {attr : Sampler} {fault : Sample}
    (hattributes : ∀ attr ∈ attributes, attr.2.Breakable)
    (hrow : (object attributes).canonical? = some (.object row))
    (hcanonical : (Sample.object row).Distinct) (hmem : (name, attr) ∈ attributes)
    (hdistinct : fault.Distinct) (h : fault.isAmong attr.faults = true) :
    (Sample.object (Fields.insert name fault row)).isAmong (object attributes).faults = true := by
  obtain ⟨other, hother, hsame⟩ := Sample.isAmong_iff.mp h
  rw [faults_object hrow]
  refine isAmong_sentinel_appendNew (fun more hmore => ?_) (hcanonical.insert name hdistinct)
    (mem_attributeFaults.mpr ⟨_, hmem, other, hother, rfl⟩)
    (Sample.same_insert hcanonical name hsame)
  obtain ⟨part, hpart, inner, hinner, rfl⟩ := mem_attributeFaults.mp hmore
  exact hcanonical.insert _ (distinct_of_mem_faults (hattributes part hpart) inner hinner)

/-- A single fault that is rejected is listed: whatever its outer shape rejects is
rejected at every depth, since the parts beside it are accepted. -/
theorem isAmong_faults {sampler : Sampler} {fault : Sample} (hfault : SingleFault sampler fault)
    (h : sampler.Breakable) (hrejected : sampler.accepts fault = false) :
    fault.isAmong sampler.faults = true := by
  induction hfault with
  | @sentinel sampler =>
      exact Sample.isAmong_iff.mpr
        ⟨.sentinel, sentinel_mem_faults sampler, Sample.same_refl .sentinel⟩
  | @member members member fault hmember hinner ih =>
      have hdistinct := (SingleFault.member hmember hinner).distinct h
      have hall : ∀ member ∈ members, member.accepts fault = false := by
        simpa using hrejected
      cases h with
      | union _ hmembers =>
          exact isAmong_faults_union hmembers hmember hdistinct hall
            (ih (hmembers member hmember) (hall member hmember))
  | @item element fault hinner ih =>
      have hdistinct := (SingleFault.item hinner).distinct h
      have hitem : element.accepts fault = false := by
        simpa using hrejected
      cases h with
      | array helement => exact isAmong_faults_array helement hdistinct (ih helement hitem)
  | @part attributes row name attr fault hrow hmem hinner ih =>
      have hcanonical := (draw_of_canonicalRow? h hrow).distinct h.drawable
      have hpart : attr.accepts fault = false := by
        rw [Bool.eq_false_iff] at hrejected ⊢
        exact mt (accepts_insert_iff h hrow hmem fault).mpr hrejected
      cases h with
      | object _ hattributes =>
          have hattr := hattributes _ hmem
          exact isAmong_faults_object hattributes hrow hcanonical hmem (hinner.distinct hattr)
            (ih hattr hpart)

/-! ## The list of invalid samples -/

/-- Whatever a type expands to, the invalid samples are the single faults that are
rejected: all of them up to sameness and none twice, each with one sentinel, and none
the same as a valid sample. -/
theorem invalid_enumerates :
    (∀ (expansion : Expansion) (tree : TypeTree) (sampler : Sampler),
      (∀ entry ∈ expansion.roots, entry.2.Distinct) → tree.Distinct →
      expansion.sampler tree = .ok sampler → sampler.Breakable) ∧
    ∀ sampler : Sampler, sampler.Breakable →
      (∀ sample : Sample, sample.Distinct →
        (sample.isAmong sampler.invalid = true ↔
          ∃ fault, SingleFault sampler fault ∧ sampler.accepts fault = false ∧
            fault.same sample = true)) ∧
      (∀ sample ∈ sampler.invalid,
        SingleFault sampler sample ∧ sampler.accepts sample = false ∧ sample.sentinels = 1) ∧
      sampler.invalid.Pairwise (fun earlier later => earlier.same later = false) ∧
      ∀ sample ∈ sampler.invalid, ∀ other ∈ sampler.valid, sample.same other = false := by
  constructor
  · intro expansion tree sampler hroots htree hsampler
    have hyields : expansion.Yields _ tree sampler := ⟨_, _, hsampler⟩
    exact hyields.breakable hroots htree
  intro sampler h
  have hdistinct := distinct_of_mem_faults h
  have hlisted : ∀ sample ∈ sampler.invalid,
      SingleFault sampler sample ∧ sampler.accepts sample = false := fun sample hsample =>
    ⟨singleFault_of_mem_faults h (Sample.mem_of_mem_distinct hsample),
      accepts_of_mem_invalid hsample⟩
  refine ⟨fun sample hsample => ?_, fun sample hsample => ?_, Sample.pairwise_distinct _,
    fun sample hsample other hother => ?_⟩
  · rw [invalid, Sample.isAmong_distinct hdistinct hsample, Sample.isAmong_iff]
    constructor
    · rintro ⟨fault, hfault, hsame⟩
      exact ⟨fault, singleFault_of_mem_faults h hfault, accepts_of_mem_faults _ _ hfault, hsame⟩
    · rintro ⟨fault, hfault, hrejected, hsame⟩
      obtain ⟨other, hother, hagain⟩ := Sample.isAmong_iff.mp (isAmong_faults hfault h hrejected)
      exact ⟨other, hother, Sample.same_trans (hfault.distinct h) hsample hagain hsame⟩
  · obtain ⟨hfault, hrejected⟩ := hlisted sample hsample
    exact ⟨hfault, hrejected, hfault.sentinels_eq_one h⟩
  · -- A valid sample is accepted, and so is what is the same as it.
    obtain ⟨hfault, hrejected⟩ := hlisted sample hsample
    have hdraw := (mem_draws_iff h).mp (Sample.mem_of_mem_distinct hother)
    have haccepts := accepts_of_draw hdraw h.drawable
    rw [Bool.eq_false_iff]
    intro hsame
    have hback := Sample.same_symm (hfault.distinct h) (hdraw.distinct h.drawable) hsame
    rw [accepts_of_same h.drawable (hdraw.distinct h.drawable) (hfault.distinct h) hback
      haccepts] at hrejected
    cases hrejected

def overlappingRoots : Fields TypeTree :=
  [("Named", .object ⟨false, some "Named"⟩ [("x", .primitive .bare .string)] []),
    ("Noted", .object ⟨false, some "Noted"⟩
      [("y", .union .bare [.primitive .bare .string, .literal .bare .undefined])] [])]

def overlappingUnion : TypeTree :=
  .union ⟨false, some "Either"⟩ [.reference .bare "Named", .reference .bare "Noted"]

def overlapping : Sampler :=
  .union
    [.object [("x", .primitive .string)],
      .object [("y", .union [.primitive .string, .value .undefined])]]

/-- A broken `x` makes a value of the second kind, which is no invalid sample; a broken
`y` makes one. -/
theorem invalid_enumerates_overlapping :
    (Expansion.mk overlappingRoots 100).sampler overlappingUnion = .ok overlapping ∧
      (Sample.object [("y", .sentinel)]).isAmong overlapping.invalid = true ∧
      SingleFault overlapping (.object [("x", .sentinel)]) ∧
      (Sample.object [("x", .sentinel)]).isAmong overlapping.invalid = false := by
  have hnamed : TypeTree.Distinct
      (.object ⟨false, some "Named"⟩ [("x", .primitive .bare .string)] []) :=
    .object (by decide) (by simpa using .primitive)
  have hnoted : TypeTree.Distinct (.object ⟨false, some "Noted"⟩
      [("y", .union .bare [.primitive .bare .string, .literal .bare .undefined])] []) :=
    .object (by decide) (by simpa using .union (by simpa using ⟨.primitive, .literal⟩))
  have hroots : ∀ entry ∈ overlappingRoots, entry.2.Distinct := by
    simpa [overlappingRoots] using ⟨hnamed, hnoted⟩
  have hunion : overlappingUnion.Distinct := .union (by simpa using ⟨.reference, .reference⟩)
  have hsampler : (Expansion.mk overlappingRoots 100).sampler overlappingUnion =
      .ok overlapping := rfl
  have hbreakable := invalid_enumerates.1 _ _ _ hroots hunion hsampler
  obtain ⟨hamong, -, -, -⟩ := invalid_enumerates.2 _ hbreakable
  have hfirst : SingleFault overlapping (.object [("x", .sentinel)]) := by
    have hrow : (Sampler.object [("x", .primitive .string)]).canonical? =
        some (.object [("x", .string "text")]) := by
      simp [canonical?, canonicalRow?, standard]
    exact .member List.mem_cons_self (.part hrow List.mem_cons_self .sentinel)
  have hsecond : SingleFault overlapping (.object [("y", .sentinel)]) := by
    have hrow : (Sampler.object
        [("y", .union [.primitive .string, .value .undefined])]).canonical? =
          some (.object [("y", .string "text")]) := by
      simp [canonical?, firstCanonical?, canonicalRow?, standard]
    exact .member (by simp) (.part hrow List.mem_cons_self .sentinel)
  have hdistinct := hsecond.distinct hbreakable
  have hlisted := (hamong _ hdistinct).mpr
    ⟨_, hsecond, by decide +kernel, Sample.same_refl hdistinct⟩
  exact ⟨hsampler, hlisted, hfirst, by decide +kernel⟩

end Sampler

end TypeGuard

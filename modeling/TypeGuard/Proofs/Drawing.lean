import TypeGuard.Proofs.Acceptance
import TypeGuard.Proofs.Hygiene
import TypeGuard.Proofs.Legality
import TypeGuard.Proofs.Sameness

/-!
# What samplers draw

A sampler accepts everything it draws, if it names no attribute twice: a row of
an object then keeps the sample drawn for each attribute.  A sampler never
accepts what comes of breaking one of its positions, since the break is still
there to be found; a union drops the breaks that another member accepts.
-/

namespace TypeGuard

/-! ## Lists in step -/

theorem Fields.names_eq_of_forall₂ {α β : Type} {related : String × α → String × β → Prop}
    {fields : Fields α} {others : Fields β}
    (h : List.Forall₂ (fun a b => b.1 = a.1 ∧ related a b) fields others) :
    names others = names fields := by
  induction h with
  | nil => rfl
  | cons hab _ ih =>
      simp [hab.1, ih]

theorem Fields.forall₂_iff_field {attributes : List (String × Sampler)} {row : Fields Sample}
    (related : Sampler → Sample → Prop) (hnodup : (names attributes).Nodup) :
    List.Forall₂ (fun attr field => field.1 = attr.1 ∧ related attr.2 field.2) attributes row ↔
      names row = names attributes ∧
        ∀ attr ∈ attributes, related attr.2 (Sample.field attr.1 row) := by
  constructor
  · intro h
    have hnames := names_eq_of_forall₂ h
    refine ⟨hnames, fun attr hattr => ?_⟩
    obtain ⟨field, hmem, hname, hrelated⟩ := exists_mem_of_forall₂ h attr hattr
    have hfound : find? attr.1 row = some field.2 := find?_of_mem (hnames ▸ hnodup) (hname ▸ hmem)
    rwa [Sample.field_of_find? hfound]
  · rintro ⟨hnames, hrelated⟩
    have hkeys : List.Forall₂ (fun attr field => field.1 = attr.1) attributes row := by
      have heq := List.forall₂_eq_eq_eq.symm ▸ hnames
      exact (List.forall₂_map_left_iff.mp (List.forall₂_map_right_iff.mp heq)).flip
    refine List.forall₂_iff_zip.mpr ⟨hkeys.length_eq, fun {attr field} hmem => ?_⟩
    have hname := (List.forall₂_iff_zip.mp hkeys).2 hmem
    have hfound : find? field.1 row = some field.2 :=
      find?_of_mem (hnames ▸ hnodup) (List.of_mem_zip hmem).2
    have hattr := hrelated attr (List.of_mem_zip hmem).1
    rw [← hname, Sample.field_of_find? hfound] at hattr
    exact ⟨hname, hattr⟩

namespace Sample

theorem Distinct.ofLiteral (value : Literal) : (ofLiteral value).Distinct := by
  cases value with
  | null => exact .null
  | undefined => exact .undefined
  | string => exact .string
  | number => exact .number
  | boolean => exact .boolean

end Sample

namespace Sampler

/-- No object names an attribute twice, every fixed sample is of the kind `fixed`,
and every union has `least` members or more. -/
inductive WellFormed (fixed : Sample → Prop) (least : Nat) : Sampler → Prop
  | value {sample : Sample} : fixed sample → WellFormed fixed least (.value sample)
  | primitive {kind : Primitive} : WellFormed fixed least (.primitive kind)
  | union {members : List Sampler} :
      least ≤ members.length → (∀ member ∈ members, WellFormed fixed least member) →
      WellFormed fixed least (.union members)
  | array {element : Sampler} :
      WellFormed fixed least element → WellFormed fixed least (.array element)
  | object {attributes : List (String × Sampler)} :
      (Fields.names attributes).Nodup → (∀ attr ∈ attributes, WellFormed fixed least attr.2) →
      WellFormed fixed least (.object attributes)

theorem WellFormed.mono {fixed weaker : Sample → Prop} {least fewer : Nat} {sampler : Sampler}
    (h : sampler.WellFormed fixed least) (hfixed : ∀ sample, fixed sample → weaker sample)
    (hleast : fewer ≤ least) : sampler.WellFormed weaker fewer := by
  induction h with
  | value hsample => exact .value (hfixed _ hsample)
  | primitive => exact .primitive
  | union hlength _ ih => exact .union (Nat.le_trans hleast hlength) ih
  | array _ ih => exact .array ih
  | object hnodup _ ih => exact .object hnodup ih

/-- Samplers that accept what they draw: the sentinel itself is not drawn, as no
sampler accepts it. -/
abbrev Drawable : Sampler → Prop :=
  WellFormed (fun sample => sample.Distinct ∧ sample ≠ .sentinel) 0

/-! ## Full draws -/

/-- A sample that comes of one choice at every position: a member of each union, and
each attribute of an object on its own. -/
inductive Draw : Sampler → Sample → Prop
  | value {sample : Sample} : Draw (.value sample) sample
  | primitive {kind : Primitive} : Draw (.primitive kind) (standard kind)
  | union {members : List Sampler} {member : Sampler} {sample : Sample} :
      member ∈ members → Draw member sample → Draw (.union members) sample
  | array {element : Sampler} {sample : Sample} :
      Draw element sample → Draw (.array element) (.array [sample])
  | object {attributes : List (String × Sampler)} {row : Fields Sample} :
      Fields.names row = Fields.names attributes →
      (∀ attr ∈ attributes, Draw attr.2 (Sample.field attr.1 row)) →
      Draw (.object attributes) (.object row)

@[simp] theorem mem_memberDraws {members : List Sampler} {sample : Sample} :
    sample ∈ memberDraws members ↔ ∃ member ∈ members, sample ∈ member.draws := by
  induction members with
  | nil => simp [memberDraws]
  | cons member rest ih => simp [memberDraws, ih]

theorem names_of_mem_rowDraws {attributes : List (String × Sampler)} {row : Fields Sample}
    (hnodup : (Fields.names attributes).Nodup) (h : row ∈ rowDraws attributes) :
    Fields.names row = Fields.names attributes := by
  induction attributes generalizing row with
  | nil =>
      rw [rowDraws, List.mem_singleton] at h
      rw [h]
      rfl
  | cons attr rest ih =>
      obtain ⟨name, sampler⟩ := attr
      obtain ⟨head, hhead, h⟩ := List.mem_flatMap.mp h
      obtain ⟨tail, htail, rfl⟩ := List.mem_map.mp h
      have hnames : Fields.names ((name, head) :: tail) = Fields.names ((name, sampler) :: rest) :=
        congrArg (name :: ·) (ih (List.nodup_cons.mp hnodup).2 htail)
      rw [Fields.extend_eq_append (hnames ▸ hnodup)]
      exact hnames

/-- The tail of a row does not hold the name of its head, so a row is its head and
its tail. -/
theorem rowDraws_cons {name : String} {attr : Sampler} {rest : List (String × Sampler)}
    (hnodup : (Fields.names ((name, attr) :: rest)).Nodup) :
    rowDraws ((name, attr) :: rest) =
      attr.draws.flatMap fun head => (rowDraws rest).map fun tail => (name, head) :: tail := by
  rw [rowDraws, rows]
  refine congrArg (List.flatMap · attr.draws) (funext fun head => ?_)
  refine List.map_congr_left fun tail htail => ?_
  have hnames : Fields.names ((name, head) :: tail) = Fields.names ((name, attr) :: rest) :=
    congrArg (name :: ·) (names_of_mem_rowDraws (List.nodup_cons.mp hnodup).2 htail)
  exact Fields.extend_eq_append (hnames ▸ hnodup)

theorem mem_rowDraws_iff {attributes : List (String × Sampler)} {row : Fields Sample}
    (hnodup : (Fields.names attributes).Nodup) :
    row ∈ rowDraws attributes ↔
      List.Forall₂ (fun attr field => field.1 = attr.1 ∧ field.2 ∈ attr.2.draws)
        attributes row := by
  induction attributes generalizing row with
  | nil => simp [rowDraws]
  | cons attr rest ih =>
      obtain ⟨name, sampler⟩ := attr
      rw [rowDraws_cons hnodup, List.forall₂_cons_left_iff]
      simp only [List.mem_flatMap, List.mem_map, ih (List.nodup_cons.mp hnodup).2]
      constructor
      · rintro ⟨head, hhead, tail, htail, rfl⟩
        exact ⟨(name, head), tail, ⟨rfl, hhead⟩, htail, rfl⟩
      · rintro ⟨⟨_, head⟩, tail, ⟨rfl, hhead⟩, htail, rfl⟩
        exact ⟨head, hhead, tail, htail, rfl⟩

theorem mem_draws_iff {fixed : Sample → Prop} {least : Nat} {sampler : Sampler}
    (h : sampler.WellFormed fixed least) {sample : Sample} :
    sample ∈ sampler.draws ↔ Draw sampler sample := by
  induction h generalizing sample with
  | value =>
      rw [draws, List.mem_singleton]
      constructor
      · rintro rfl
        exact .value
      · rintro ⟨⟩
        rfl
  | primitive =>
      rw [draws, List.mem_singleton]
      constructor
      · rintro rfl
        exact .primitive
      · rintro ⟨⟩
        rfl
  | union _ _ ih =>
      rw [draws, mem_memberDraws]
      constructor
      · rintro ⟨member, hmember, hdraw⟩
        exact .union hmember ((ih member hmember).mp hdraw)
      · rintro ⟨⟩
        next member hmember hdraw => exact ⟨member, hmember, (ih member hmember).mpr hdraw⟩
  | array _ ih =>
      rw [draws, List.mem_map]
      constructor
      · rintro ⟨item, hitem, rfl⟩
        exact .array (ih.mp hitem)
      · rintro ⟨⟩
        next item hitem => exact ⟨item, ih.mpr hitem, rfl⟩
  | object hnodup _ ih =>
      rw [draws, List.mem_map]
      constructor
      · rintro ⟨row, hrow, rfl⟩
        obtain ⟨hnames, hdraws⟩ := (Fields.forall₂_iff_field (fun attr field => field ∈ attr.draws)
          hnodup).mp ((mem_rowDraws_iff hnodup).mp hrow)
        exact .object hnames fun attr hattr => (ih attr hattr).mp (hdraws attr hattr)
      · rintro ⟨⟩
        next row hnames hdraws =>
            refine ⟨row, (mem_rowDraws_iff hnodup).mpr ?_, rfl⟩
            rw [Fields.forall₂_iff_field (fun attr field => field ∈ attr.draws) hnodup]
            exact ⟨hnames, fun attr hattr => (ih attr hattr).mpr (hdraws attr hattr)⟩

theorem exists_attr_of_mem_row {attributes : List (String × Sampler)} {row : Fields Sample}
    (hnodup : (Fields.names attributes).Nodup) (hnames : Fields.names row = Fields.names attributes)
    {field : String × Sample} (hfield : field ∈ row) :
    ∃ attr ∈ attributes, Sample.field attr.1 row = field.2 := by
  have hname : field.1 ∈ Fields.names attributes := hnames ▸ List.mem_map_of_mem hfield
  obtain ⟨attr, hattr, heq⟩ := List.mem_map.mp hname
  refine ⟨attr, hattr, ?_⟩
  rw [heq, Sample.field_of_find? (Fields.find?_of_mem (hnames ▸ hnodup) hfield)]

theorem Draw.distinct {sampler : Sampler} {sample : Sample} (hdraw : Draw sampler sample)
    (h : sampler.Drawable) : sample.Distinct := by
  induction hdraw with
  | value =>
      cases h with
      | value hfixed => exact hfixed.1
  | @primitive kind =>
      cases kind with
      | string => exact .string
      | number => exact .number
      | boolean => exact .boolean
  | union hmember _ ih =>
      cases h with
      | union _ hmembers => exact ih (hmembers _ hmember)
  | array _ ih =>
      cases h with
      | array helement => exact .array (by simpa using ih helement)
  | object hnames _ ih =>
      cases h with
      | object hnodup hattributes =>
          refine .object (hnames ▸ hnodup) fun field hfield => ?_
          obtain ⟨attr, hattr, hvalue⟩ := exists_attr_of_mem_row hnodup hnames hfield
          exact hvalue ▸ ih attr hattr (hattributes attr hattr)

@[simp] theorem accepts_value {fixed : Sample} (h : fixed ≠ .sentinel) (sample : Sample) :
    (value fixed).accepts sample = fixed.same sample := by
  cases sample with
  | sentinel => cases fixed <;> simp_all [accepts, Sample.same]
  | _ => rfl

theorem accepts_of_draw {sampler : Sampler} {sample : Sample} (hdraw : Draw sampler sample)
    (h : sampler.Drawable) : sampler.accepts sample = true := by
  induction hdraw with
  | @value sample =>
      cases h with
      | value hfixed => rw [accepts_value hfixed.2, Sample.same_refl hfixed.1]
  | @primitive kind => cases kind <;> rfl
  | union hmember _ ih =>
      cases h with
      | union _ hmembers =>
          rw [accepts_union, List.any_eq_true]
          exact ⟨_, hmember, ih (hmembers _ hmember)⟩
  | array _ ih =>
      cases h with
      | array helement =>
          simp [ih helement]
  | object _ _ ih =>
      cases h with
      | object _ hattributes =>
          rw [accepts_object, List.all_eq_true]
          exact fun attr hattr => ih attr hattr (hattributes attr hattr)

/-! ## Faults are rejected -/

@[simp] theorem mem_attributeFaults {row : Fields Sample} {attributes : List (String × Sampler)}
    {sample : Sample} :
    sample ∈ attributeFaults row attributes ↔ ∃ attr ∈ attributes, ∃ fault ∈ attr.2.faults,
      sample = .object (Fields.insert attr.1 fault row) := by
  induction attributes with
  | nil => simp [attributeFaults]
  | cons attr rest ih =>
      simp [attributeFaults, ih, eq_comm]

theorem mem_sentinel_appendNew {sample : Sample} {more : List Sample}
    (h : sample ∈ Sample.appendNew [.sentinel] more) : sample = .sentinel ∨ sample ∈ more :=
  (Sample.mem_appendNew h).imp_left List.mem_singleton.mp

mutual

theorem accepts_of_mem_faults (sampler : Sampler) :
    ∀ fault ∈ sampler.faults, sampler.accepts fault = false := by
  intro fault h
  match sampler with
  | .value _ | .primitive _ =>
      rw [faults, List.mem_singleton] at h
      simp [h]
  | .union members =>
      rcases mem_sentinel_appendNew h with rfl | h
      · exact accepts_sentinel _
      · simpa using (List.mem_filter.mp h).2
  | .array element =>
      rcases mem_sentinel_appendNew h with rfl | h
      · exact accepts_sentinel _
      · obtain ⟨inner, hinner, rfl⟩ := List.mem_map.mp h
        simp [accepts_of_mem_faults element inner hinner]
  | .object attributes =>
      rw [faults] at h
      split at h
      next => rw [List.mem_singleton.mp h, accepts_sentinel]
      next row _ =>
          rcases mem_sentinel_appendNew h with rfl | h
          · exact accepts_sentinel _
          · obtain ⟨attr, hattr, inner, hinner, rfl⟩ := mem_attributeFaults.mp h
            rw [accepts_object, List.all_eq_false]
            refine ⟨attr, hattr, ?_⟩
            simp [attribute_accepts_of_mem_faults attributes attr hattr inner hinner]

theorem attribute_accepts_of_mem_faults (attributes : List (String × Sampler)) :
    ∀ attr ∈ attributes, ∀ fault ∈ attr.2.faults, attr.2.accepts fault = false := by
  match attributes with
  | [] => simp
  | (_, attr) :: rest =>
      exact List.forall_mem_cons.mpr
        ⟨accepts_of_mem_faults attr, attribute_accepts_of_mem_faults rest⟩

end

/-! ## Fixtures -/

theorem accepts_of_mem_valid {sampler : Sampler} (h : sampler.Drawable)
    {sample : Sample} (hsample : sample ∈ sampler.fixtures.valid) :
    sampler.accepts sample = true :=
  accepts_of_draw ((mem_draws_iff h).mp (Sample.mem_of_mem_distinct hsample)) h

theorem accepts_of_mem_invalid {sampler : Sampler} {sample : Sample}
    (h : sample ∈ sampler.fixtures.invalid) : sampler.accepts sample = false :=
  accepts_of_mem_faults sampler sample (Sample.mem_of_mem_distinct h)

/-- Samplers whose canonical sample exists and whose faults are the only sentinels. -/
abbrev Breakable : Sampler → Prop :=
  WellFormed (fun sample => sample.Distinct ∧ sample.containsSentinel = false) 1

theorem WellFormed.drawable {least : Nat} {sampler : Sampler}
    (h : sampler.WellFormed
      (fun sample => sample.Distinct ∧ sample.containsSentinel = false) least) :
    sampler.Drawable := by
  refine h.mono (fun sample hsample => ⟨hsample.1, ?_⟩) (Nat.zero_le _)
  rintro rfl
  simp [Sample.containsSentinel] at hsample

end Sampler

/-! ## Samplers of types -/

theorem Expansion.Yields.checkUnion {expansion : Expansion} {budget : Nat} {label : Label}
    {members : List TypeTree} {sampler : Sampler}
    (h : expansion.Yields (budget + 1) (.union label members) sampler) :
    ∃ place, TypeTree.checkUnion place members = .ok () := by
  obtain ⟨path, enclosing, h⟩ := h
  obtain ⟨_, hcheck, -⟩ := bind_eq_ok.mp h
  exact ⟨path, hcheck⟩

theorem Expansion.Yields.breakable {expansion : Expansion}
    (hroots : ∀ entry ∈ expansion.roots, entry.2.Distinct) {budget : Nat} {tree : TypeTree}
    {sampler : Sampler} (h : expansion.Yields budget tree sampler) (htree : tree.Distinct) :
    sampler.Breakable := by
  induction budget generalizing tree sampler with
  | zero => exact absurd h.pos (Nat.lt_irrefl 0)
  | succ budget ih =>
      cases h.level with
      | @literal label value =>
          exact .value ⟨.ofLiteral value, by cases value <;> rfl⟩
      | primitive => exact .primitive
      | array hinner =>
          cases htree with
          | array helement => exact .array (ih hinner helement)
      | @union label members samplers hmembers =>
          obtain ⟨place, hcheck⟩ := h.checkUnion
          have hlength := (TypeTree.checkUnion_eq_ok_iff.mp hcheck).1
          cases htree with
          | union hdistinct =>
              refine .union (by have := hmembers.length_eq; omega) fun inner hinner => ?_
              obtain ⟨member, hmember, hyields⟩ := exists_mem_of_forall₂ hmembers.flip inner hinner
              exact ih hyields (hdistinct member hmember)
      | object hattributes =>
          cases htree with
          | object hnodup hdistinct =>
              refine .object (Fields.names_eq_of_forall₂ hattributes ▸ hnodup) fun part hpart => ?_
              obtain ⟨attr, hattr, -, hyields⟩ :=
                exists_mem_of_forall₂ hattributes.flip part hpart
              exact ih hyields (hdistinct attr hattr)
      | reference hroot hinner => exact ih hinner (hroots _ (Fields.mem_of_find? hroot))

end TypeGuard

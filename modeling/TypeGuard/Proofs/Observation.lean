import Mathlib.Logic.Relation
import TypeGuard.Proofs.Answers
import TypeGuard.Proofs.Sameness

/-!
# What a guard can observe

Nothing in a guard tells the order of an object's fields, a field that is `undefined` from
one that is missing, or the zeros of either sign.  An edit changes one of these at one place
of a sample, and two samples are alike if edits lead from one to the other.

A question about samples is blind if no edit changes its answer.  Verdicts are blind: one
level by induction on the type, all levels by induction on their number.  Samples that are
the same are alike, so a file does not tell them apart either, and nothing that it would
answer differently is lost where samples are kept once.
-/

namespace TypeGuard

open Evaluation

namespace Sample

/-- One change that cannot be observed, at any depth. -/
inductive Edit : Sample → Sample → Prop
  | zero {negative other : Bool} : Edit (.number (.zero negative)) (.number (.zero other))
  | reorder {fields others : Fields Sample} :
      (Fields.names fields).Nodup → fields.Perm others → Edit (.object fields) (.object others)
  | drop {front back : Fields Sample} {name : String} :
      (Fields.names (front ++ (name, .undefined) :: back)).Nodup →
      Edit (.object (front ++ (name, .undefined) :: back)) (.object (front ++ back))
  | item {front back : List Sample} {before after : Sample} :
      Edit before after → Edit (.array (front ++ before :: back)) (.array (front ++ after :: back))
  | entry {front back : Fields Sample} {name : String} {before after : Sample} :
      Edit before after →
      Edit (.object (front ++ (name, before) :: back)) (.object (front ++ (name, after) :: back))

/-- The samples become equal after edits. -/
def Alike : Sample → Sample → Prop := Relation.EqvGen Edit

theorem Edit.alike {before after : Sample} (h : Edit before after) : Alike before after :=
  .rel _ _ h

theorem Alike.trans {first second third : Sample} (h : Alike first second)
    (hnext : Alike second third) : Alike first third :=
  Relation.EqvGen.trans _ _ _ h hnext

/-! ## Samples that are the same are alike -/

theorem Alike.congr {before after : Sample} (h : Alike before after) (context : Sample → Sample)
    (hcontext : ∀ {before after}, Edit before after → Edit (context before) (context after)) :
    Alike (context before) (context after) := by
  induction h with
  | rel _ _ hedit => exact (hcontext hedit).alike
  | refl => exact .refl _
  | symm _ _ _ ih => exact .symm _ _ ih
  | trans _ _ _ _ _ ih ihnext => exact ih.trans ihnext

theorem alike_array (front : List Sample) {items others : List Sample}
    (h : List.Forall₂ Alike items others) :
    Alike (.array (front ++ items)) (.array (front ++ others)) := by
  induction h generalizing front with
  | nil => exact .refl _
  | @cons item other items others hitem _ ih =>
      have hfirst := hitem.congr (fun x => .array (front ++ x :: items)) .item
      have hrest := ih (front ++ [other])
      simp only [List.append_assoc, List.singleton_append] at hrest
      exact hfirst.trans hrest

theorem alike_object (front : Fields Sample) {fields others : Fields Sample}
    (h : List.Forall₂ (fun field other => field.1 = other.1 ∧ Alike field.2 other.2)
      fields others) :
    Alike (.object (front ++ fields)) (.object (front ++ others)) := by
  induction h generalizing front with
  | nil => exact .refl _
  | @cons field other fields others hfield _ ih =>
      obtain ⟨name, value⟩ := field
      obtain ⟨key, kept⟩ := other
      obtain ⟨rfl, hvalue⟩ := hfield
      have hfirst := hvalue.congr (fun x => .object (front ++ (name, x) :: fields)) .entry
      have hrest := ih (front ++ [(name, kept)])
      simp only [List.append_assoc, List.singleton_append] at hrest
      exact hfirst.trans hrest

end Sample

theorem Binary64.eq_or_zeros_of_sameValue {x y : Binary64} (h : x.sameValue y = true) :
    x = y ∨ ∃ negative other, x = .zero negative ∧ y = .zero other := by
  cases x with
  | finite negative mantissa exponent hx =>
      cases y with
      | finite other mantissa' exponent' hy =>
          simp only [sameValue, numericEq, isNaN, Bool.and_self, Bool.or_false, Bool.or_eq_true,
            Bool.and_eq_true, beq_iff_eq] at h
          rcases h with ⟨rfl, rfl⟩ | ⟨⟨rfl, rfl⟩, rfl⟩
          · -- A mantissa of zero has the least exponent.
            obtain rfl : exponent = -1074 := hx.2.2.2.resolve_left (by decide)
            obtain rfl : exponent' = -1074 := hy.2.2.2.resolve_left (by decide)
            exact .inr ⟨negative, other, rfl, rfl⟩
          · exact .inl rfl
      | _ => simp [sameValue, numericEq, isNaN] at h
  | _ => cases y <;> simp_all [sameValue, numericEq, isNaN]

namespace Sample

theorem perm_of_same {xs ys : Fields Sample} (hxs : (Fields.names xs).Nodup)
    (hys : (Fields.names ys).Nodup) (h : (object xs).same (.object ys) = true) :
    (xs.map fun x => (x.1, field x.1 ys)).Perm ys := by
  obtain ⟨hlength, hfields⟩ := (same_object_iff hys).mp h
  have hnodup : (xs.map fun x => (x.1, field x.1 ys)).Nodup := by
    refine List.Nodup.of_map (·.1) ?_
    rwa [List.map_map]
  have hsubset : (xs.map fun x => (x.1, field x.1 ys)) ⊆ ys := by
    intro entry hentry
    obtain ⟨x, hx, rfl⟩ := List.mem_map.mp hentry
    obtain ⟨y, hy, -⟩ := hfields x hx
    rw [field, hy]
    exact Fields.mem_of_find? hy
  exact (List.subperm_of_subset hnodup hsubset).perm_of_length_le (by simp [hlength])

theorem alike_of_same {x y : Sample} (hx : x.Distinct) (hy : y.Distinct)
    (h : x.same y = true) : Alike x y := by
  induction hx generalizing y with
  | @array xs _ ih =>
      cases hy with
      | @array ys hys =>
          exact alike_array [] (forall₂_flip_of_mem (same_array_iff.mp h)
            fun x hx y hy hsame => ih x hx (hys y hy) hsame).flip
      | _ => simp [same] at h
  | @object xs hxs _ ih =>
      cases hy with
      | @object ys hys hdistinct =>
          have hperm := perm_of_same hxs hys h
          have hnodup := (Fields.names_perm hperm).nodup_iff.mpr hys
          -- First the values are changed, then the order.
          refine Alike.trans (alike_object [] ?_) (Edit.reorder hnodup hperm).alike
          refine List.forall₂_map_right_iff.mpr (List.forall₂_same.mpr fun x hx => ⟨rfl, ?_⟩)
          obtain ⟨y, hy, hsame⟩ := ((same_object_iff hys).mp h).2 x hx
          rw [field, hy]
          exact ih x hx (hdistinct _ (Fields.mem_of_find? hy)) hsame
      | _ => simp [same] at h
  | number =>
      cases hy with
      | number =>
          rw [same] at h
          obtain rfl | ⟨negative, other, rfl, rfl⟩ := Binary64.eq_or_zeros_of_sameValue h
          · exact .refl _
          · exact Edit.zero.alike
      | _ => simp [same] at h
  | _ =>
      cases hy
      all_goals simp_all only [same, Bool.false_eq_true, beq_iff_eq]
      all_goals exact .refl _

/-! ## What an edit leaves -/

def Blind {α : Type} (question : Sample → α) : Prop :=
  ∀ ⦃before after⦄, Edit before after → question before = question after

theorem Blind.reflGen {α : Type} {question : Sample → α} (h : Blind question)
    {before after : Sample} (hedit : Relation.ReflGen Edit before after) :
    question before = question after := by
  cases hedit with
  | refl => rfl
  | single hedit => exact h hedit

theorem Blind.alike {α : Type} {question : Sample → α} (h : Blind question)
    {sample other : Sample} (halike : Alike sample other) : question sample = question other := by
  induction halike with
  | rel _ _ hedit => exact h hedit
  | refl => rfl
  | symm _ _ _ ih => exact ih.symm
  | trans _ _ _ _ _ ih ihnext => exact ih.trans ihnext

theorem field_drop {front back : Fields Sample} {key : String}
    (hnodup : (Fields.names (front ++ (key, .undefined) :: back)).Nodup) (name : String) :
    field name (front ++ (key, .undefined) :: back) = field name (front ++ back) := by
  rw [field, field, Fields.find?_append, Fields.find?_append]
  by_cases hkey : key = name
  · subst hkey
    rw [Fields.names_append, Fields.names_cons, List.perm_middle.nodup_iff,
      List.nodup_cons, List.mem_append, not_or] at hnodup
    have hfront := Fields.find?_eq_none.mpr hnodup.1.1
    have hback := Fields.find?_eq_none.mpr hnodup.1.2
    simp [hfront, hback]
  · rw [Fields.find?_cons_of_ne hkey]

theorem field_entry {front back : Fields Sample} {key : String} {before after : Sample}
    (h : Edit before after) (name : String) :
    Relation.ReflGen Edit (field name (front ++ (key, before) :: back))
      (field name (front ++ (key, after) :: back)) := by
  rw [field, field, Fields.find?_append, Fields.find?_append]
  cases Fields.find? name front with
  | some value => exact .refl
  | none =>
      by_cases hkey : key = name
      · subst hkey
        rw [Fields.find?_cons_self, Fields.find?_cons_self]
        exact .single h
      · rw [Fields.find?_cons_of_ne hkey, Fields.find?_cons_of_ne hkey]

theorem Edit.field {before after : Sample} (h : Edit before after) (name : String) :
    Relation.ReflGen Edit (Sample.field name before.fields) (Sample.field name after.fields) := by
  cases h with
  | zero => exact .refl
  | item => exact .refl
  | reorder hnodup hperm =>
      rw [fields, fields, Sample.field, Sample.field, Fields.find?_perm hperm hnodup]
  | drop hnodup => rw [fields, fields, field_drop hnodup]
  | entry hedit => exact field_entry hedit name

theorem isObjectOrArray_blind : Blind isObjectOrArray := by
  rintro _ _ (_ | _ | _ | _ | _) <;> rfl

theorem isOfKind_blind (kind : Primitive) : Blind (Sampler.isOfKind kind) := by
  rintro _ _ (_ | _ | _ | _ | _) <;> cases kind <;> rfl

theorem numericEq_zero (x : Binary64) (negative other : Bool) :
    x.numericEq (.zero negative) = x.numericEq (.zero other) := by
  cases x with
  | finite sign mantissa exponent _ =>
      cases hzero : mantissa == 0 <;> simp [Binary64.numericEq, Binary64.zero, hzero]
  | _ => rfl

theorem holds_blind (value : Literal) : Blind value.holds := by
  intro before after h
  cases value with
  | number x =>
      cases h with
      | zero => exact numericEq_zero x _ _
      | _ => rfl
  | _ => cases h <;> rfl

end Sample

/-! ## Verdicts are blind -/

namespace Verdict

open Sample

section

variable {levels : Nat} {below : TypeTree → Sample → Except EvalError Bool}
  {roots : Fields TypeTree}

theorem ofItems_blind {question : Sample → Except EvalError Bool} (h : Blind question)
    (front back : List Sample) {before after : Sample} (hedit : Edit before after) :
    ofItems question (front ++ before :: back) = ofItems question (front ++ after :: back) := by
  induction front with
  | nil => simp [ofItems, h hedit]
  | cons first rest ih => simp [ofItems, ih]

theorem ofArray_blind {question : Sample → Except EvalError Bool} (h : Blind question) :
    Blind (ofArray levels question) := by
  intro before after hedit
  cases hedit with
  | item hitem => simp only [ofArray, ofItems_blind h _ _ hitem]
  | _ => rfl

mutual

theorem check_blind (hbelow : ∀ tree, Blind (below tree)) (tree : TypeTree) :
    Blind (check levels below roots tree) := by
  intro before after hedit
  match tree with
  | .literal _ value => simp [check, holds_blind value hedit]
  | .primitive _ kind => simp [check, isOfKind_blind kind hedit]
  | .array _ element => simp [check, ofArray_blind (hbelow element) hedit]
  | .union _ members => simp [check, checkSome_blind hbelow members hedit]
  | .object _ attributes _ =>
      rw [check, check, isObjectOrArray_blind hedit, checkEvery_blind hbelow attributes hedit]
  | .reference _ name =>
      rw [check, check]
      split
      next root _ => exact hbelow root hedit
      next => rfl

theorem checkSome_blind (hbelow : ∀ tree, Blind (below tree)) (members : List TypeTree) :
    Blind (checkSome levels below roots members) := by
  intro before after hedit
  match members with
  | [] => rfl
  | member :: rest =>
      rw [checkSome, checkSome, check_blind hbelow member hedit,
        checkSome_blind hbelow rest hedit]

theorem checkEvery_blind (hbelow : ∀ tree, Blind (below tree))
    (attributes : List (String × TypeTree))
    {before after : Sample} (hedit : Edit before after) :
    checkEvery levels below roots attributes before.fields =
      checkEvery levels below roots attributes after.fields := by
  match attributes with
  | [] => rfl
  | (name, tree) :: rest =>
      rw [checkEvery, checkEvery, (check_blind hbelow tree).reflGen (hedit.field name),
        checkEvery_blind hbelow rest hedit]

end

end

end Verdict

theorem verdict_blind (roots : Fields TypeTree) (levels : Nat) (tree : TypeTree) :
    Sample.Blind (verdict roots levels tree) := by
  induction levels generalizing tree with
  | zero => exact fun _ _ _ => rfl
  | succ levels ih => exact Verdict.check_blind ih tree

theorem arrayVerdict_blind (levels : Nat) : Sample.Blind (arrayVerdict levels) := by
  rintro _ _ (_ | _ | _ | _ | _) <;> rfl

namespace Registry

theorem answer_blind (settings : Settings) (trees : Fields TypeTree) (name : String) :
    Sample.Blind (answer settings trees name) := by
  intro before after hedit
  rw [answer, answer]
  split
  next => exact arrayVerdict_blind _ hedit
  next =>
      split
      next entry _ => exact verdict_blind trees _ entry.2 hedit
      next => rfl

end Registry

namespace Session

open Sample

/-- What a file answers depends on what can be observed of a sample: samples that become
equal after edits get one answer, so do samples that are the same, and keeping samples once
loses no answer. -/
theorem accepts_observable (settings : Settings) (hstem : settings.stem = "is")
    (steps : List Step) (file : GuardFile)
    (hfile : (run settings steps).registry.assemble = .ok file)
    (harray : "Array" ∉ Fields.names (run settings steps).registry.guards) (name : String) :
    (∀ sample other, Alike sample other → file.accepts name sample = file.accepts name other) ∧
      (∀ sample other, sample.Distinct → other.Distinct → sample.same other = true →
        file.accepts name sample = file.accepts name other) ∧
      ∀ samples, (∀ sample ∈ samples, sample.Distinct) → ∀ sample ∈ samples,
        ∃ kept ∈ distinct samples, kept.same sample = true ∧
          file.accepts name kept = file.accepts name sample := by
  have hblind : Blind (file.accepts name) := by
    intro before after hedit
    rw [(run_sound settings steps).accepts_eq_answer hstem harray hfile,
      (run_sound settings steps).accepts_eq_answer hstem harray hfile]
    exact Registry.answer_blind _ _ name hedit
  have hsame : ∀ sample other, sample.Distinct → other.Distinct → sample.same other = true →
      file.accepts name sample = file.accepts name other :=
    fun _ _ hsample hother h => hblind.alike (alike_of_same hsample hother h)
  refine ⟨fun _ _ => hblind.alike, hsame, fun samples hdistinct sample hsample => ?_⟩
  have hmember : sample.isAmong samples = true :=
    isAmong_iff.mpr ⟨sample, hsample, same_refl (hdistinct sample hsample)⟩
  obtain ⟨kept, hkept, hlike⟩ :=
    isAmong_iff.mp ((isAmong_distinct hdistinct (hdistinct sample hsample)).mpr hmember)
  exact ⟨kept, hkept, hlike, hsame kept sample (hdistinct kept (mem_of_mem_distinct hkept))
    (hdistinct sample hsample) hlike⟩

def nodeSample (fields : Fields Sample) : Sample :=
  .object [("items", .array [.null, .object fields])]

def notedSample : Sample :=
  nodeSample [("at", .number (.zero true)), ("note", .undefined), ("items", .array [])]

def plainSample : Sample := nodeSample [("at", .number (.zero true)), ("items", .array [])]

def reorderedSample : Sample := nodeSample [("items", .array []), ("at", .number (.zero false))]

theorem alike_notedSample : Alike notedSample plainSample :=
  Edit.alike (@Edit.entry [] [] "items" _ _ (@Edit.item [.null] [] _ _
    (@Edit.drop [("at", .number (.zero true))] _ "note" (by decide))))

theorem distinct_nodeSample {negative : Bool} {fields : Fields Sample}
    (hperm : fields.Perm [("at", .number (.zero negative)), ("items", .array [])]) :
    (nodeSample fields).Distinct := by
  have hnames : (Fields.names fields).Nodup :=
    (Fields.names_perm hperm).nodup_iff.mpr (by simp)
  refine .object (List.nodup_singleton _) (List.forall_mem_singleton.mpr (.array ?_))
  refine List.forall_mem_cons.mpr ⟨.null, List.forall_mem_singleton.mpr (.object hnames ?_)⟩
  intro field hfield
  rcases List.mem_cons.mp (hperm.mem_iff.mp hfield) with rfl | hrest
  · exact .number
  · cases List.mem_singleton.mp hrest
    exact .array (List.forall_mem_nil _)

theorem accepts_observable_cyclicSteps :
    ∃ file, (run .standard cyclicSteps).registry.assemble = .ok file ∧
      notedSample.same plainSample = false ∧ plainSample.same reorderedSample = true ∧
      file.accepts "isNode" notedSample = .ok true ∧
      file.accepts "isNode" plainSample = .ok true ∧
      file.accepts "isNode" reorderedSample = .ok true := by
  have hrun : ((run .standard cyclicSteps).registry.assemble.toOption.bind fun file =>
      (file.accepts "isNode" notedSample).toOption) = some true := by decide +kernel
  have hsame : plainSample.same reorderedSample = true := by decide +kernel
  obtain ⟨file, hfile, hnoted⟩ := Option.bind_eq_some_iff.mp hrun
  obtain ⟨halike, hlike, -⟩ := accepts_observable .standard rfl cyclicSteps file
    (eq_ok_of_toOption hfile) (by decide +kernel) "isNode"
  have hplain : file.accepts "isNode" plainSample = .ok true :=
    (halike _ _ alike_notedSample).symm.trans (eq_ok_of_toOption hnoted)
  have hreordered := hlike plainSample reorderedSample (distinct_nodeSample (.refl _))
    (distinct_nodeSample (.swap _ _ _)) hsame
  exact ⟨file, eq_ok_of_toOption hfile, by decide +kernel, hsame, eq_ok_of_toOption hnoted,
    hplain, hreordered.symm.trans hplain⟩

end Session

end TypeGuard

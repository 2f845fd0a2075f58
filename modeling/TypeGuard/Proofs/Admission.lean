import Std.Data.String.ToNat
import TypeGuard.Proofs.Preorder
import TypeGuard.Proofs.Registration

/-!
# Which types the writer takes

Writing a type either fails with the type's first offence, or there is none and it
succeeds; only the supply of fresh names can make it fail in another way.  An
attribute is never bound twice at one place: every piece of a type binds attributes
below a path of its own.  The references that are left behind are those of the type's
nodes, in their order.
-/

namespace TypeGuard

def Problem.isExhaustion : Problem → Bool
  | .namesExhausted .. => true
  | _ => false

namespace Names

variable {names : Names} {path : Path} {proposed : String} {problem : Problem}

theorem isExhaustion_of_fresh {free : String → Bool} {taken : String → Names}
    (h : (do let name ← choose free path proposed; return (name, taken name)) =
      (.error problem : Except Problem (String × Names))) : problem.isExhaustion = true := by
  obtain ⟨rfl, -⟩ := bind_choose_eq_error_iff.mp h
  rfl

theorem isExhaustion_of_bindAttribute {name : String} {later : Names}
    (hnew : (path, name) ∉ names.attributes)
    (h : names.bindAttribute path name = (.error problem, later)) :
    problem.isExhaustion = true := by
  rcases bindAttribute_of_new hnew with ⟨chosen, -, -, hbind⟩ | hbind
  · rw [hbind] at h
    cases h
  · rw [hbind] at h
    cases h
    rfl

end Names

namespace Writing

variable {settings : Settings}

/-! ## References -/

theorem AttributesBound.references {path : Path} {names : List String} {bindings : List Binding}
    {before after : Draft} (h : AttributesBound path names before bindings after) :
    after.references = before.references := by
  induction h with
  | nil => rfl
  | cons _ _ ih => exact ih

theorem SelfCheckWritten.references {path : Path} {type : TypeExpr} {bindings : List Binding}
    {check : List Stmt} {before after : Draft}
    (h : SelfCheckWritten settings path type bindings before check after) :
    after.references = before.references := by
  cases h <;> rfl

mutual

theorem GuardWritten.references {name param : String} {type : TypeExpr} {path : Path}
    {exported : Bool} {tree : TypeTree} {guard : Function} {before after : Draft} (depth : Nat)
    (h : GuardWritten settings name type param path exported tree before guard after) :
    after.references =
      before.references ++ (tree.nodes depth path).filterMap TypeTree.Node.reference? := by
  match h with
  | .intro hbody => exact hbody.references depth

theorem AssertionsWritten.references {path : Path} {target : String} {type : TypeExpr}
    {tree : TypeTree} {assertions : Assertions} {before after : Draft} (depth : Nat)
    (h : AssertionsWritten settings path target type tree before assertions after) :
    after.references =
      before.references ++ (tree.nodes depth path).filterMap TypeTree.Node.reference? := by
  match h with
  | .object hbound hinner hcheck =>
      have hattributes := hinner.references (depth + 1)
      rw [map_zip_properties hbound.properties, hbound.references] at hattributes
      rw [hcheck.references, hattributes]
      rfl
  | .union _ hmembers => exact hmembers.references (depth + 1)
  | .single hcondition => exact hcondition.references depth

theorem ConditionWritten.references {path : Path} {target : String} {tree : TypeTree}
    {condition : Condition} {before after : Draft} (depth : Nat)
    (h : ConditionWritten settings path target tree before condition after) :
    after.references =
      before.references ++ (tree.nodes depth path).filterMap TypeTree.Node.reference? := by
  match h with
  | .reference => rfl
  | .primitive | .literal => exact (List.append_nil _).symm
  | .array _ _ _ hnested => exact hnested.references (depth + 1)

theorem MembersWritten.references {path : Path} {target : String} {index : Nat}
    {members : List TypeTree} {conditions : List Condition} {before after : Draft} (depth : Nat)
    (h : MembersWritten settings path target index members before conditions after) :
    after.references = before.references ++
      (TypeTree.memberNodes depth path index members).filterMap TypeTree.Node.reference? := by
  match h with
  | .nil => exact (List.append_nil _).symm
  | .cons hfirst hrest =>
      simp [hrest.references depth, hfirst.references depth, TypeTree.memberNodes]

theorem AttributesWritten.references {path : Path} {type : TypeExpr}
    {attributes : List (Binding × TypeTree)} {assertions : Assertions} {before after : Draft}
    (depth : Nat) (h : AttributesWritten settings path type attributes before assertions after) :
    after.references = before.references ++
      (TypeTree.attributeNodes depth path
        (attributes.map fun attr => (attr.1.property, attr.2))).filterMap
          TypeTree.Node.reference? := by
  match h with
  | .nil => exact (List.append_nil _).symm
  | .cons hfirst hrest =>
      simp [hrest.references depth, hfirst.references depth, TypeTree.attributeNodes]

end

/-! ## Bound attributes -/

def Unbound (path : Path) (draft : Draft) : Prop :=
  ∀ key ∈ draft.names.attributes, ¬ path <+: key.1

def BindsUnder (path : Path) (before after : Draft) : Prop :=
  ∀ key ∈ after.names.attributes, key ∈ before.names.attributes ∨ path <+: key.1

section

variable {path : Path} {before middle after : Draft}

theorem BindsUnder.of_eq (path : Path) (h : after.names.attributes = before.names.attributes) :
    BindsUnder path before after :=
  fun _ hkey => .inl (h ▸ hkey)

theorem BindsUnder.trans (hfirst : BindsUnder path before middle)
    (hsecond : BindsUnder path middle after) : BindsUnder path before after := by
  intro key hkey
  rcases hsecond key hkey with hold | hunder
  · exact hfirst key hold
  · exact .inr hunder

theorem BindsUnder.shorten {longer : Path} (h : BindsUnder longer before after)
    (hstarts : path <+: longer) : BindsUnder path before after :=
  fun key hkey => (h key hkey).imp_right hstarts.trans

theorem Unbound.lengthen {longer : Path} (h : Unbound path before) (hstarts : path <+: longer) :
    Unbound longer before :=
  fun key hkey hlonger => h key hkey (hstarts.trans hlonger)

theorem Unbound.sibling {first second : String} (h : Unbound (path ++ [second]) before)
    (hbinds : BindsUnder (path ++ [first]) before after) (hne : first ≠ second) :
    Unbound (path ++ [second]) after := by
  intro key hkey hsecond
  rcases hbinds key hkey with hold | hfirst
  · exact h key hold hsecond
  · obtain ⟨below, hbelow⟩ := hfirst
    obtain ⟨other, hother⟩ := hsecond
    have heq := hbelow.trans hother.symm
    simp only [List.append_assoc, List.append_cancel_left_eq, List.singleton_append,
      List.cons.injEq] at heq
    exact hne heq.1

end

/-! ## What is expected of a piece of writing -/

section

variable {α β : Type} {action : Writing α} {before : Draft} {path : Path}
  {expected : Option Problem}

/-- The action fails with the expected problem, or binds attributes at the path or
below where none is expected; it may also run out of names. -/
structure Meets (action : Writing α) (before : Draft) (path : Path)
    (expected : Option Problem) : Prop where
  ok : ∀ {value after}, action.run before = .ok (value, after) →
    expected = none ∧ BindsUnder path before after
  error : ∀ {problem}, action.run before = .error problem →
    expected = some problem ∨ problem.isExhaustion = true

theorem Meets.pure (value : α) (before : Draft) (path : Path) :
    Meets (pure value) before path none where
  ok h := by
    cases h
    exact ⟨rfl, .of_eq path rfl⟩
  error h := by cases h

theorem Meets.modify {change : Draft → Draft} (path : Path)
    (h : (change before).names.attributes = before.names.attributes) :
    Meets (modify change : Writing PUnit) before path none where
  ok hrun := by
    cases hrun
    exact ⟨rfl, .of_eq path h⟩
  error hrun := by cases hrun

theorem Meets.throw (problem : Problem) (before : Draft) (path : Path) :
    Meets (throw problem : Writing α) before path (some problem) where
  ok h := by cases h
  error h := by
    cases h
    exact .inl rfl

theorem Meets.bind {next : α → Writing β} {later : Option Problem}
    (hfirst : Meets action before path expected)
    (hnext : ∀ value after, action.run before = .ok (value, after) →
      Meets (next value) after path later) :
    Meets (action >>= next) before path (expected.or later) where
  ok h := by
    obtain ⟨value, middle, hrun, h⟩ := run_bind_eq_ok.mp h
    obtain ⟨hexpected, hbinds⟩ := hfirst.ok hrun
    obtain ⟨hlater, hmore⟩ := (hnext value middle hrun).ok h
    exact ⟨by rw [hexpected, hlater]; rfl, hbinds.trans hmore⟩
  error h := by
    rcases run_bind_eq_error.mp h with hrun | ⟨value, middle, hrun, h⟩
    · exact (hfirst.error hrun).imp_left fun hsome => by rw [hsome]; rfl
    · obtain ⟨hexpected, -⟩ := hfirst.ok hrun
      rw [hexpected, Option.none_or]
      exact (hnext value middle hrun).error h

theorem Meets.then {next : α → Writing β} (hfirst : Meets action before path none)
    (hnext : ∀ value after, action.run before = .ok (value, after) →
      Meets (next value) after path expected) :
    Meets (action >>= next) before path expected := by
  simpa using hfirst.bind hnext

theorem Meets.map {next : α → β} (hfirst : Meets action before path expected) :
    Meets (do let value ← action; return next value) before path expected := by
  simpa using hfirst.bind fun value after _ => .pure (next value) after path

theorem Meets.shorten {longer : Path} (h : Meets action before longer expected)
    (hstarts : path <+: longer) : Meets action before path expected where
  ok hrun := ⟨(h.ok hrun).1, (h.ok hrun).2.shorten hstarts⟩
  error := h.error

end

/-! ## Names and attributes -/

section

variable {before : Draft} {path : Path}

theorem run_takeName_error {fresh : Names → Except Problem (String × Names)} {problem : Problem}
    (h : (takeName fresh).run before = .error problem) : fresh before.names = .error problem := by
  unfold takeName at h
  rcases run_bind_eq_error.mp h with hget | ⟨draft, middle, hget, h⟩
  · cases hget
  · cases hget
    split at h
    next => cases h
    next hfresh =>
        cases h
        exact hfresh

theorem takeName_meets {fresh : Names → Except Problem (String × Names)} (path : Path)
    (hok : ∀ {name names}, fresh before.names = .ok (name, names) →
      names.attributes = before.names.attributes)
    (herror : ∀ {problem}, fresh before.names = .error problem →
      problem.isExhaustion = true) : Meets (takeName fresh) before path none where
  ok h := by
    obtain ⟨names, hfresh, rfl⟩ := run_takeName h
    exact ⟨rfl, .of_eq path (hok hfresh)⟩
  error h := .inr (herror (run_takeName_error h))

theorem freshLocal_meets (before : Draft) (path place : Path) (proposed : String) :
    Meets (freshLocal place proposed) before path none :=
  takeName_meets path
    (fun h => by rw [(Names.freshLocal_ok h).2, Names.attributes_reserveLocal])
    Names.isExhaustion_of_fresh

theorem freshType_meets (before : Draft) (path place : Path) (proposed : String) :
    Meets (freshType place proposed) before path none :=
  takeName_meets path
    (fun h => by rw [(Names.freshType_ok h).2, Names.attributes_reserveType])
    Names.isExhaustion_of_fresh

theorem freshFunction_meets (before : Draft) (path place : Path) (proposed : String) :
    Meets (freshFunction place proposed) before path none :=
  takeName_meets path
    (fun h => by
      rw [(Names.freshFunction_ok h).2.2, Names.attributes_reserveLocal,
        Names.attributes_reserveType])
    Names.isExhaustion_of_fresh

theorem bindAttribute_meets {name : String} (hnew : (path, name) ∉ before.names.attributes) :
    Meets (bindAttribute path name) before path none where
  ok h := by
    obtain ⟨localName, names, hbind, -, rfl⟩ := run_bindAttribute h
    obtain ⟨-, -, -, rfl⟩ := Names.bindAttribute_ok hbind
    refine ⟨rfl, fun key hkey => ?_⟩
    rcases List.mem_cons.mp hkey with rfl | hold
    · exact .inr (List.prefix_refl path)
    · exact .inl hold
  error h := by
    unfold bindAttribute at h
    rcases run_bind_eq_error.mp h with hget | ⟨draft, middle, hget, h⟩
    · cases hget
    · cases hget
      split at h
      next => cases h
      next hbind =>
          cases h
          exact .inr (Names.isExhaustion_of_bindAttribute hnew hbind)

theorem bindAttributes_meets {names : List String} (hnodup : names.Nodup)
    (hnew : ∀ name ∈ names, (path, name) ∉ before.names.attributes) :
    Meets (bindAttributes path names) before path none := by
  induction names generalizing before with
  | nil => exact .pure [] before path
  | cons name rest ih =>
      rw [List.nodup_cons] at hnodup
      rw [List.forall_mem_cons] at hnew
      refine (bindAttribute_meets hnew.1).then fun binding middle hrun => ?_
      obtain ⟨localName, taken, hbind, -, rfl⟩ := run_bindAttribute hrun
      obtain ⟨-, -, -, rfl⟩ := Names.bindAttribute_ok hbind
      refine (ih hnodup.2 fun other hother hmem => ?_).map
      rcases List.mem_cons.mp hmem with heq | hold
      · cases heq
        exact hnodup.1 hother
      · exact hnew.2 other hother hold

theorem AttributesBound.at_path {names : List String} {bindings : List Binding} {after : Draft}
    (h : AttributesBound path names before bindings after) :
    ∀ key ∈ after.names.attributes, key ∈ before.names.attributes ∨ key.1 = path := by
  induction h with
  | nil => exact fun key hkey => .inl hkey
  | cons hbind _ ih =>
      obtain ⟨-, -, -, rfl⟩ := Names.bindAttribute_ok hbind
      intro key hkey
      rcases ih key hkey with hold | hpath
      · rcases List.mem_cons.mp hold with rfl | hmem
        · exact .inr rfl
        · exact .inl hmem
      · exact .inr hpath

theorem AttributesBound.unbound {names : List String} {bindings : List Binding} {after : Draft}
    (h : AttributesBound path names before bindings after) (hunbound : Unbound path before)
    (segment : String) : Unbound (path ++ [segment]) after := by
  intro key hkey hstarts
  rcases h.at_path key hkey with hold | hpath
  · exact hunbound key hold ((List.prefix_append path [segment]).trans hstarts)
  · rw [hpath] at hstarts
    have := hstarts.length_le
    rw [List.length_append, List.length_singleton] at this
    omega

theorem selfCheck_meets (before : Draft) (path : Path) (type : TypeExpr)
    (bindings : List Binding) :
    Meets (selfCheck settings path type bindings) before path none := by
  unfold selfCheck
  split
  · exact (freshLocal_meets before path path "checked").map
  · exact .pure [] before path

end

/-! ## Pieces of a type -/

def WriterMeets (settings : Settings) (write : Writer) (depth : Nat) : Prop :=
  ∀ (path : Path) (target : String) (type : TypeExpr) (tree : TypeTree) (before : Draft),
    tree.Distinct → Unbound path before →
    Meets (write path target type tree) before path (tree.offence? settings.maxDepth depth path)

section

variable {write : Writer} {depth : Nat} {before : Draft} {path : Path}

theorem guardFunction_meets (hw : WriterMeets settings write depth) {name param : String}
    {type : TypeExpr} {exported : Bool} {tree : TypeTree} (hdistinct : tree.Distinct)
    (hunbound : Unbound path before) :
    Meets (guardFunction write name type param path exported tree) before path
      (tree.offence? settings.maxDepth depth path) := by
  have hreserve : Meets (reserveLocal param) before path none := .modify path rfl
  refine hreserve.then fun _ middle hrun => ?_
  have hmiddle : Unbound path middle := by
    cases hrun
    exact hunbound
  exact (hw path param type tree middle hdistinct hmiddle).map

theorem arrayCondition_meets (hw : WriterMeets settings write (depth + 1))
    (hdepth : depth ≤ settings.maxDepth) {label : Label} {element : TypeTree}
    (hdistinct : element.Distinct) (hunbound : Unbound path before) (target : String) :
    Meets (arrayCondition write path target element) before path
      ((TypeTree.array label element).offence? settings.maxDepth depth path) := by
  rw [TypeTree.offence?, TypeTree.depthOffence?_of_le hdepth, Option.none_or]
  refine (freshType_meets before path path _).then fun typeName typed htype => ?_
  refine (freshFunction_meets typed path path _).then fun functionName named hfunction => ?_
  refine (freshLocal_meets named path path _).then fun param bound hparam => ?_
  have hbound : Unbound path bound := by
    obtain ⟨_, hfirst, rfl⟩ := run_takeName htype
    obtain ⟨_, hsecond, rfl⟩ := run_takeName hfunction
    obtain ⟨_, hthird, rfl⟩ := run_takeName hparam
    obtain ⟨-, rfl⟩ := Names.freshType_ok hfirst
    obtain ⟨-, -, rfl⟩ := Names.freshFunction_ok hsecond
    obtain ⟨-, rfl⟩ := Names.freshLocal_ok hthird
    exact hunbound
  have helement := List.prefix_append path ["element"]
  exact ((guardFunction_meets hw hdistinct (hbound.lengthen helement)).shorten helement).map

theorem leafCondition_meets (hdepth : depth ≤ settings.maxDepth) {tree : TypeTree}
    (hunion : tree.isUnion = false) (hobject : tree.isObject = false)
    (harray : ∀ label element, tree ≠ .array label element) (place : Path) (target : String) :
    Meets (condition settings write place target tree) before path
      (tree.offence? settings.maxDepth depth place) := by
  have hnone := TypeTree.depthOffence?_of_le hdepth place
  cases tree with
  | reference label name =>
      rw [TypeTree.offence?, hnone]
      have hrefer : Meets (refer name place) before path none := .modify path rfl
      exact hrefer.map
  | primitive label kind =>
      rw [TypeTree.offence?, hnone]
      exact .pure _ before path
  | literal label value =>
      rw [TypeTree.offence?, hnone]
      exact .pure _ before path
  | array label element => exact absurd rfl (harray label element)
  | union label members => cases hunion
  | object label attributes optionalNames => cases hobject

theorem tooDeep_meets {α : Type} (hdepth : settings.maxDepth < depth) (place : Path)
    (tree : TypeTree) :
    Meets (tooDeep settings place : Writing α) before path
      (tree.offence? settings.maxDepth depth place) := by
  rw [TypeTree.offence?_of_lt hdepth]
  exact .throw _ before path

/-! ## Unions -/

def alternative (path : Path) (index : Nat) : Path := path ++ ["alt" ++ toString index]

theorem memberCondition_meets (hw : WriterMeets settings write (depth + 1))
    (hdepth : depth ≤ settings.maxDepth) {index : Nat} {member : TypeTree}
    (hdistinct : member.Distinct) (hunion : member.isUnion = false)
    (hobject : member.isObject = false) (hunbound : Unbound (alternative path index) before)
    (target : String) :
    Meets (condition settings write (memberPath path index member) target member) before
      (alternative path index)
      (member.offence? settings.maxDepth depth (memberPath path index member)) := by
  cases member with
  | array label element =>
      cases hdistinct with
      | array helement => exact arrayCondition_meets hw hdepth helement hunbound target
  | _ => exact leafCondition_meets hdepth hunion hobject (by simp) _ target

theorem memberConditions_meets {write : Path → TypeTree → Writing Condition}
    {index : Nat} {members : List TypeTree}
    (hw : ∀ (index : Nat) (member : TypeTree) (before : Draft), member ∈ members →
      Unbound (alternative path index) before →
      Meets (write (memberPath path index member) member) before (alternative path index)
        (member.offence? settings.maxDepth depth (memberPath path index member)))
    (hunbound : ∀ later ≥ index, Unbound (alternative path later) before) :
    Meets (memberConditions write path index members) before path
      (TypeTree.membersOffence? settings.maxDepth depth path index members) := by
  induction members generalizing index before with
  | nil => exact .pure [] before path
  | cons member rest ih =>
      have hfirst := hw index member before List.mem_cons_self (hunbound index (Nat.le_refl _))
      rw [TypeTree.membersOffence?]
      refine (hfirst.shorten (List.prefix_append path _)).bind fun condition middle hrun => ?_
      refine (ih (fun index other before hother => ?_) fun later hlater => ?_).map
      · exact hw index other before (List.mem_cons_of_mem _ hother)
      · refine (hunbound later (by omega)).sibling (hfirst.ok hrun).2 fun heq => ?_
        have : index = later := Nat.repr_injective (by simpa using heq)
        omega

theorem unionCondition_meets {write : Path → TypeTree → Writing Condition}
    (hdepth : depth ≤ settings.maxDepth) {label : Label} {members : List TypeTree}
    (hw : ∀ (index : Nat) (member : TypeTree) (before : Draft), member ∈ members →
      member.isUnion = false → member.isObject = false → Unbound (alternative path index) before →
      Meets (write (memberPath path index member) member) before (alternative path index)
        (member.offence? settings.maxDepth (depth + 1) (memberPath path index member)))
    (hunbound : Unbound path before) :
    Meets (unionCondition write path members) before path
      ((TypeTree.union label members).offence? settings.maxDepth depth path) := by
  rw [TypeTree.offence?, TypeTree.depthOffence?_of_le hdepth, Option.none_or, TypeTree.unionOffence?]
  unfold unionCondition
  cases hcheck : TypeTree.checkUnion path members with
  | error problem => exact .throw problem before path
  | ok _ =>
      have hflat := (TypeTree.checkUnion_eq_ok_iff.mp hcheck).2
      rw [Option.none_or]
      refine (memberConditions_meets (fun index member before hmember => ?_)
        fun later _ => hunbound.lengthen (List.prefix_append path _)).map
      exact hw index member before hmember (hflat member hmember).1 (hflat member hmember).2

/-! ## Objects -/

theorem attributeAssertions_meets (hw : WriterMeets settings write depth) (type : TypeExpr)
    {zipped : List (Binding × TypeTree)} {attributes : List (String × TypeTree)}
    (hzipped : zipped.map (fun attr => (attr.1.property, attr.2)) = attributes)
    (hnodup : (Fields.names attributes).Nodup)
    (hdistinct : ∀ attr ∈ attributes, attr.2.Distinct)
    (hunbound : ∀ name ∈ Fields.names attributes, Unbound (path ++ [name]) before) :
    Meets (attributeAssertions write path type zipped) before path
      (TypeTree.attributesOffence? settings.maxDepth depth path attributes) := by
  induction zipped generalizing attributes before with
  | nil =>
      cases hzipped
      exact .pure _ before path
  | cons attr rest ih =>
      obtain ⟨binding, tree⟩ := attr
      subst hzipped
      simp only [List.map_cons, Fields.names_cons, List.nodup_cons, List.forall_mem_cons]
        at hnodup hdistinct hunbound
      have hfirst := hw (path ++ [binding.property]) binding.localName
        (.index type binding.property) tree before hdistinct.1 hunbound.1
      rw [List.map_cons, TypeTree.attributesOffence?]
      refine (hfirst.shorten (List.prefix_append path _)).bind fun first middle hrun => ?_
      refine (ih rfl hnodup.2 hdistinct.2 fun name hname => ?_).map
      refine (hunbound.2 name hname).sibling (hfirst.ok hrun).2 ?_
      rintro rfl
      exact hnodup.1 hname

theorem objectAssertions_meets (hw : WriterMeets settings write (depth + 1))
    (hdepth : depth ≤ settings.maxDepth) {label : Label} {attributes : List (String × TypeTree)}
    {optionalNames : List String}
    (hdistinct : (TypeTree.object label attributes optionalNames).Distinct)
    (hunbound : Unbound path before) (target : String) (type : TypeExpr) :
    Meets (objectAssertions settings write path target type attributes) before path
      ((TypeTree.object label attributes optionalNames).offence? settings.maxDepth depth path) := by
  rw [TypeTree.offence?, TypeTree.depthOffence?_of_le hdepth, Option.none_or]
  cases hdistinct with
  | object hnodup hattributes =>
      have hnew : ∀ name ∈ Fields.names attributes, (path, name) ∉ before.names.attributes :=
        fun name _ hmem => hunbound _ hmem (List.prefix_refl path)
      refine (bindAttributes_meets hnodup hnew).then fun bindings bound hbind => ?_
      have hbound := attributesBound_of_run hbind
      have hinner := attributeAssertions_meets hw type (map_zip_properties hbound.properties)
        hnodup hattributes fun name _ => hbound.unbound hunbound name
      simpa
        using hinner.bind fun inner written _ => (selfCheck_meets written path type bindings).map

end

/-! ## Any type -/

/-- The writer with a number of levels left meets the offence of a type at the depth
where that number is left. -/
theorem assertions_meets (budget : Nat) {depth : Nat}
    (hdepth : depth + budget = settings.maxDepth + 1) :
    WriterMeets settings (assertions settings budget) depth := by
  induction budget using Nat.strongRecOn generalizing depth with
  | ind budget ih =>
      intro path target type tree before hdistinct hunbound
      cases budget with
      | zero =>
          simpa [assertions] using tooDeep_meets (by omega) path tree
      | succ budget =>
          have hbelow : WriterMeets settings (assertions settings budget) (depth + 1) :=
            ih budget (Nat.lt_succ_self budget) (by omega)
          have hlegal : depth ≤ settings.maxDepth := by omega
          cases tree with
          | object label attributes optionalNames =>
              exact objectAssertions_meets hbelow hlegal hdistinct hunbound target type
          | union label members =>
              cases hdistinct with
              | union hmembers =>
                  cases budget with
                  | zero =>
                      exact (unionCondition_meets hlegal (fun _ member _ _ _ _ _ =>
                        tooDeep_meets (by omega) _ member) hunbound).map
                  | succ inner =>
                      have hinner : WriterMeets settings (assertions settings inner) (depth + 2) :=
                        ih inner (by omega) (by omega)
                      exact (unionCondition_meets hlegal
                        (fun _ member _ hmember hunion hobject hfree =>
                          memberCondition_meets hinner (by omega) (hmembers member hmember) hunion
                            hobject hfree target) hunbound).map
          | array label element =>
              cases hdistinct with
              | array helement =>
                  exact (arrayCondition_meets hbelow hlegal helement hunbound target).map
          | literal label value =>
              exact (leafCondition_meets hlegal rfl rfl (by simp) path target).map
          | primitive label kind =>
              exact (leafCondition_meets hlegal rfl rfl (by simp) path target).map
          | reference label name =>
              exact (leafCondition_meets hlegal rfl rfl (by simp) path target).map

end Writing

namespace Registry

open Writing

variable {registry later : Registry} {aliasName : String} {tree : TypeTree} {problem : Problem}

/-! ## Registering -/

@[simp] theorem attributes_reserveAliases (settings : Settings) (names : Names)
    (aliases : List String) :
    (aliases.foldl (reserveAlias settings) names).attributes = names.attributes := by
  induction aliases generalizing names with
  | nil => rfl
  | cons first rest ih => exact ih (reserveAlias settings names first)

theorem guardFunction_start_meets (registry : Registry) (hdistinct : tree.Distinct) :
    Meets (guardFunction (assertions registry.settings (registry.settings.maxDepth + 1))
        (registry.settings.guardName aliasName) (.ref aliasName) rootParam [aliasName] true tree)
      ⟨registry.reservedNames aliasName, []⟩ [aliasName]
      (tree.offence? registry.settings.maxDepth 0 [aliasName]) := by
  have hnone : (registry.reservedNames aliasName).attributes = [] :=
    attributes_reserveAliases _ _ _
  refine guardFunction_meets (assertions_meets _ (Nat.zero_add _)) hdistinct fun key hkey => ?_
  rw [hnone] at hkey
  cases hkey

theorem write_eq_ok {guard : Function} {references : List Reference}
    (h : registry.write aliasName tree = .ok (guard, references)) :
    tree.offence? registry.settings.maxDepth 0 [aliasName] = none ∧
      references = tree.references [aliasName] := by
  obtain ⟨⟨written, after⟩, hrun, h⟩ := bind_eq_ok.mp h
  cases h
  have hwritten := guardWritten_of_run (assertionsWritten_of_run _) hrun
  exact ⟨((guardFunction_start_meets registry hwritten.distinct).ok hrun).1,
    hwritten.references 0⟩

theorem write_eq_error (hdistinct : tree.Distinct)
    (h : registry.write aliasName tree = .error problem) :
    tree.offence? registry.settings.maxDepth 0 [aliasName] = some problem ∨
      problem.isExhaustion = true := by
  rcases bind_eq_error.mp h with hrun | ⟨_, -, h⟩
  · exact (guardFunction_start_meets registry hdistinct).error hrun
  · cases h

/-- The names that a root may mention: its own alias, and those announced or
registered. -/
def admits (registry : Registry) (aliasName name : String) : Bool :=
  name == aliasName || registry.knows name

theorem register_eq_ok (halias : tree.aliasName = some aliasName)
    (h : registry.register tree = .ok later) :
    ∃ guard references, registry.write aliasName tree = .ok (guard, references) ∧
      (∀ r ∈ references, registry.admits aliasName r.name = true) ∧
      later = { registry with
        guards := Fields.insert aliasName guard registry.guards
        references := Fields.insert aliasName references registry.references } := by
  unfold register at h
  split at h
  next => cases h
  next => cases h
  next name _ hname =>
      cases halias.symm.trans hname
      obtain ⟨⟨guard, references⟩, hwrite, h⟩ := bind_eq_ok.mp h
      simp only at h
      split at h
      next => cases h
      next hknown =>
          cases h
          refine ⟨guard, references, hwrite, fun r hr => ?_, rfl⟩
          simpa [admits, or_iff_not_imp_left] using List.find?_eq_none.mp hknown r hr

theorem admits_of_register_ok (halias : tree.aliasName = some aliasName)
    (h : registry.register tree = .ok later) :
    tree.Legal registry.settings.maxDepth ∧
      ∀ name ∈ tree.mentions, registry.admits aliasName name = true := by
  obtain ⟨guard, references, hwrite, hadmits, -⟩ := register_eq_ok halias h
  obtain ⟨hoffence, rfl⟩ := write_eq_ok hwrite
  refine ⟨TypeTree.legal_iff_offence?.mpr hoffence, fun name hmem => ?_⟩
  rw [← tree.map_name_references [aliasName]] at hmem
  obtain ⟨r, hr, rfl⟩ := List.mem_map.mp hmem
  exact hadmits r hr

/-- A registration fails with the first offence, for want of names, or where there is
no offence with the first reference to an alias that the root may not mention. -/
theorem register_eq_error (halias : tree.aliasName = some aliasName) (hne : aliasName ≠ "")
    (hdistinct : tree.Distinct) (h : registry.register tree = .error problem) :
    problem.isExhaustion = true ∨
      tree.offence? registry.settings.maxDepth 0 [aliasName] = some problem ∨
      tree.offence? registry.settings.maxDepth 0 [aliasName] = none ∧
        ∃ reference, (tree.references [aliasName]).find?
            (fun reference => !registry.admits aliasName reference.name) = some reference ∧
          problem = registry.unknownAlias [aliasName] reference := by
  unfold register at h
  split at h
  next hnone => cases halias.symm.trans hnone
  next hempty =>
      cases halias.symm.trans hempty
      exact absurd rfl hne
  next name _ hname =>
      cases halias.symm.trans hname
      rcases bind_eq_error.mp h with hwrite | ⟨⟨guard, references⟩, hwrite, h⟩
      · rcases write_eq_error hdistinct hwrite with hoffence | hexhausted
        · exact .inr (.inl hoffence)
        · exact .inl hexhausted
      · obtain ⟨hoffence, rfl⟩ := write_eq_ok hwrite
        simp only at h
        split at h
        next reference hunknown =>
            cases h
            exact .inr (.inr ⟨hoffence, reference, hunknown, rfl⟩)
        next => cases h

end Registry

end TypeGuard

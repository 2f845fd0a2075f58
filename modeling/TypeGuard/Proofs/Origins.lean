import TypeGuard.Proofs.Provenance

/-!
# The text of a specification

Decoding follows the text: the literal of a specification is what the text of its own `value`
spells, the types inside it are decoded from the texts of its own parts, and the roots of a
batch document from the items of the one list that the document calls its roots.
-/

namespace TypeGuard

namespace Fields

variable {α β γ : Type} {fields : Fields α} {others : Fields β}

def named (name : String) (fields : Fields α) : Fields α :=
  fields.filter fun field => field.1 == name

def Sole (name : String) (value : α) (fields : Fields α) : Prop :=
  named name fields = [(name, value)]

def Aligned (related : α → β → Prop) (fields : Fields α) (others : Fields β) : Prop :=
  List.Forall₂ (fun field other => field.1 = other.1 ∧ related field.2 other.2) fields others

@[simp] theorem named_nil (name : String) : named name ([] : Fields α) = [] :=
  rfl

@[simp] theorem named_append (name : String) (fields more : Fields α) :
    named name (fields ++ more) = named name fields ++ named name more :=
  List.filter_append fields more

@[simp] theorem named_cons_self (name : String) (value : α) (fields : Fields α) :
    named name ((name, value) :: fields) = (name, value) :: named name fields := by
  simp [named]

@[simp] theorem named_cons_of_ne {name key : String} (h : key ≠ name) (value : α)
    (fields : Fields α) :
    named name ((key, value) :: fields) = named name fields := by
  simp [named, h]

theorem named_filter_ne {name key : String} (h : name ≠ key) (fields : Fields α) :
    named name (fields.filter fun field => field.1 != key) = named name fields := by
  rw [named, List.filter_filter]
  refine List.filter_congr fun field _ => ?_
  by_cases hname : field.1 = name <;> simp [hname, h]

variable {related : α → β → Prop}

theorem aligned_iff : Aligned related fields others ↔ names fields = names others ∧
    List.Forall₂ related (fields.map (·.2)) (others.map (·.2)) := by
  induction fields generalizing others with
  | nil => cases others <;> simp [Aligned]
  | cons field fields ih =>
      cases others with
      | nil => simp [Aligned]
      | cons other others =>
          simp only [Aligned] at ih
          simp [Aligned, ih]
          tauto

namespace Aligned

theorem named (h : Aligned related fields others) (name : String) :
    Aligned related (fields.named name) (others.named name) := by
  induction h with
  | nil => exact .nil
  | @cons field other fields others hfirst _ ih =>
      obtain ⟨key, value⟩ := field
      obtain ⟨_, content⟩ := other
      obtain ⟨rfl, hvalue⟩ := hfirst
      by_cases hkey : key = name
      · subst hkey
        rw [named_cons_self, named_cons_self]
        exact .cons ⟨rfl, hvalue⟩ ih
      · rwa [named_cons_of_ne hkey, named_cons_of_ne hkey]

theorem sole (h : Aligned related fields others) {name : String} {value : α}
    (hsole : fields = [(name, value)]) :
    ∃ other, others = [(name, other)] ∧ related value other := by
  subst hsole
  obtain ⟨⟨_, other⟩, _, ⟨rfl, hrelated⟩, hrest, rfl⟩ := List.forall₂_cons_left_iff.mp h
  cases hrest
  exact ⟨other, rfl, hrelated⟩

theorem flip (h : Aligned related fields others) :
    Aligned (fun other value => related value other) others fields :=
  (List.Forall₂.flip h).imp fun _ _ hfield => ⟨hfield.1.symm, hfield.2⟩

theorem trans {last : Fields γ} {next : β → γ → Prop} {both : α → γ → Prop}
    (h : Aligned related fields others) (hnext : Aligned next others last)
    (hboth : ∀ a b c, related a b → next b c → both a c) : Aligned both fields last := by
  refine forall₂_trans_of_mem h hnext fun a b _ c _ hab hbc => ?_
  exact ⟨hab.1.trans hbc.1, hboth _ _ _ hab.2 hbc.2⟩

theorem insert (h : Aligned related fields others) (name : String) {value : α} {other : β}
    (hvalue : related value other) :
    Aligned related (fields.insert name value) (others.insert name other) := by
  induction h with
  | nil => exact .cons ⟨rfl, hvalue⟩ .nil
  | @cons field other fields others hfirst hrest ih =>
      obtain ⟨key, value⟩ := field
      obtain ⟨_, content⟩ := other
      obtain ⟨rfl, hold⟩ := hfirst
      by_cases hkey : key = name
      · subst hkey
        rw [Fields.insert_cons_self, Fields.insert_cons_self]
        exact .cons ⟨rfl, hvalue⟩ hrest
      · rw [Fields.insert_cons_of_ne hkey, Fields.insert_cons_of_ne hkey]
        exact .cons ⟨rfl, hold⟩ ih

theorem extend {later : Fields α} {laterOthers : Fields β} (h : Aligned related fields others)
    (hlater : Aligned related later laterOthers) :
    Aligned related (fields.extend later) (others.extend laterOthers) := by
  induction hlater generalizing fields others with
  | nil => exact h
  | @cons field other later laterOthers hfirst _ ih =>
      obtain ⟨key, value⟩ := field
      obtain ⟨_, content⟩ := other
      obtain ⟨rfl, hvalue⟩ := hfirst
      exact ih (h.insert key hvalue)

theorem ofList (h : Aligned related fields others) :
    Aligned related (Fields.ofList fields) (Fields.ofList others) :=
  extend .nil h

end Aligned

end Fields

/-! ## Texts of specifications -/

namespace Json

def ValueText (text : List Char) : Prop := ∃ value : Json, value.Spelled text

def ListText (items : List (List Char)) (text : List Char) : Prop :=
  ∃ inner, text = '[' :: inner ∧ ItemsText true items inner

/-- The text of an object and those of its members' values, which are as described. -/
def ObjectText (described : String × List Char → Prop) (members : Fields (List Char))
    (text : List Char) : Prop :=
  ∃ inner, text = '\x7b' :: inner ∧ MembersText true members inner ∧
    ∀ member ∈ members, described member

abbrev ValuesText : Fields (List Char) → List Char → Prop :=
  ObjectText fun member => ValueText member.2

end Json

open Json (ListText ValueText ValuesText ObjectText)

/-- The text of a specification: what is inside the specification has its text inside that
text, and every literal with the text of its value is as described. -/
inductive TypeSpec.WrittenAs (described : SpecLabel → Json → List Char → Prop) :
    TypeSpec → List Char → Prop
  | literal {label : SpecLabel} {value : Json} {members : Fields (List Char)}
      {text content : List Char} :
      ValuesText members text → members.Sole "value" content → described label value content →
        WrittenAs described (.literal label value) text
  | undefined {label : SpecLabel} {members : Fields (List Char)} {text : List Char} :
      ValuesText members text → WrittenAs described (.undefined label) text
  | primitive {label : SpecLabel} {name : String} {members : Fields (List Char)}
      {text : List Char} :
      ValuesText members text → WrittenAs described (.primitive label name) text
  | object {label : SpecLabel} {attributes : Fields TypeSpec} {optionalNames : List String}
      {members fields : Fields (List Char)} {text content : List Char} :
      ValuesText members text → members.Sole "attributes" content → ValuesText fields content →
        attributes.names = (Fields.ofList fields).names →
        List.Forall₂ (WrittenAs described) (attributes.map (·.2))
          ((Fields.ofList fields).map (·.2)) →
        WrittenAs described (.object label attributes optionalNames) text
  | bare {label : SpecLabel} {optionalNames : List String} {members : Fields (List Char)}
      {text : List Char} :
      ValuesText members text → members.named "attributes" = [] →
        WrittenAs described (.object label [] optionalNames) text
  | union {label : SpecLabel} {types : List TypeSpec} {members : Fields (List Char)}
      {text content : List Char} {items : List (List Char)} :
      ValuesText members text → members.Sole "members" content → ListText items content →
        List.Forall₂ (WrittenAs described) types items →
        WrittenAs described (.union label types) text
  | array {label : SpecLabel} {element : TypeSpec} {members : Fields (List Char)}
      {text content : List Char} :
      ValuesText members text → members.Sole "element" content →
        WrittenAs described element content →
        WrittenAs described (.array label element) text
  | reference {label : SpecLabel} {name : String} {members : Fields (List Char)}
      {text : List Char} :
      ValuesText members text → WrittenAs described (.reference label name) text

namespace Document

open Json Json.Reading

/-! ## Decoding -/

section

variable {α : Type}

abbrev AlignedText : Fields Json → Fields (List Char) → Prop := Fields.Aligned Json.Spelled

theorem valuesText_of_aligned {members : Fields Json} {texts : Fields (List Char)}
    {inner : List Char} (htext : MembersText true texts inner)
    (hmembers : AlignedText members texts) : ValuesText texts ('\x7b' :: inner) := by
  refine ⟨inner, rfl, htext, fun text hmem => ?_⟩
  obtain ⟨member, -, -, hspelled⟩ := exists_mem_of_forall₂ hmembers.flip text hmem
  exact ⟨member.2, hspelled⟩

def IsPart (name : String) : Prop := name ≠ "alias" ∧ name ≠ "optional" ∧ name ≠ "kind"

instance (name : String) : Decidable (IsPart name) :=
  inferInstanceAs (Decidable (name ≠ "alias" ∧ name ≠ "optional" ∧ name ≠ "kind"))

/-- Among the members are all that belong to the shape of the object with these texts. -/
def Parts (members : Fields Json) (texts : Fields (List Char)) : Prop :=
  ∀ name, IsPart name → AlignedText (members.named name) (texts.named name)

theorem Parts.sole {members : Fields Json} {texts : Fields (List Char)} (h : Parts members texts)
    {name : String} (hname : IsPart name) {value : Json} (hsole : members.Sole name value) :
    ∃ content, texts.Sole name content ∧ value.Spelled content :=
  (h name hname).sole hsole

theorem Parts.filter {members : Fields Json} {texts : Fields (List Char)}
    (h : Parts members texts) : Parts (members.filter fun (name, _) => name != "kind") texts := by
  intro name hname
  have hnamed := Fields.named_filter_ne hname.2.2 members
  rw [hnamed]
  exact h name hname

theorem named_of_split {marks marks' : Marks} {members others : Fields Json}
    (h : marks.split members = .ok (marks', others)) {name : String} (hname : IsPart name) :
    others.named name = members.named name := by
  induction members generalizing marks others with
  | nil =>
      cases h
      rfl
  | cons member rest ih =>
      obtain ⟨key, value⟩ := member
      rw [Marks.split] at h
      split at h
      next read hread =>
          obtain ⟨decode, -, h⟩ := bind_eq_ok.mp h
          obtain ⟨middle, -, h⟩ := bind_eq_ok.mp h
          have hkey : key ≠ name := by
            rintro rfl
            simp [Marks.take?, hname.1, hname.2.1] at hread
          rw [Fields.named_cons_of_ne hkey]
          exact ih h
      next =>
          obtain ⟨⟨middle, rest'⟩, hrest, h⟩ := bind_eq_ok.mp h
          cases h
          by_cases hkey : key = name
          · subst hkey
            simp [ih hrest]
          · simp [hkey, ih hrest]

theorem soleField_some {name : String} {decode : Json → Decoded α} {found part : α}
    {members : Fields Json} (h : soleField name decode (some found) members = .ok part) :
    part = found ∧ members.named name = [] := by
  induction members with
  | nil =>
      cases h
      exact ⟨rfl, rfl⟩
  | cons member rest ih =>
      obtain ⟨key, value⟩ := member
      unfold soleField at h
      split at h
      next => cases h
      next hkey =>
          rw [Fields.named_cons_of_ne hkey]
          exact ih h

theorem soleField_none {name : String} {decode : Json → Decoded α} {part : α}
    {members : Fields Json} (h : soleField name decode none members = .ok part) :
    ∃ value, members.Sole name value ∧ decode value = .ok part := by
  induction members with
  | nil => cases h
  | cons member rest ih =>
      obtain ⟨key, value⟩ := member
      unfold soleField at h
      split at h
      next hkey =>
          obtain ⟨first, hfirst, h⟩ := bind_eq_ok.mp h
          obtain ⟨rfl, hrest⟩ := soleField_some h
          subst hkey
          exact ⟨value, by rw [Fields.Sole, Fields.named_cons_self, hrest], hfirst⟩
      next hkey =>
          obtain ⟨value', hsole, hdecode⟩ := ih h
          exact ⟨value', by rwa [Fields.Sole, Fields.named_cons_of_ne hkey], hdecode⟩

end

section

variable {described : SpecLabel → Json → List Char → Prop}

def FitsSpelled (described : SpecLabel → Json → List Char → Prop) : Prop :=
  ∀ (label : SpecLabel) (value : Json) (text : List Char), value.Spelled text →
    described label value.normal text

def Keeps (described : SpecLabel → Json → List Char → Prop)
    (decode : Json → Decoded TypeSpec) : Prop :=
  ∀ {value : Json} {text : List Char} {spec : TypeSpec}, value.Spelled text →
    decode value = .ok spec → spec.WrittenAs described text

variable {decode : Json → Decoded TypeSpec} {value : Json} {text : List Char}

theorem written_of_specs (hdecode : Keeps described decode) (hvalue : value.Spelled text)
    {types : List TypeSpec} (h : specs decode value = .ok types) :
    ∃ items, ListText items text ∧ List.Forall₂ (TypeSpec.WrittenAs described) types items := by
  cases hvalue with
  | @array items texts inner hinner hitems =>
      refine ⟨texts, ⟨inner, rfl, hinner⟩, ?_⟩
      refine forall₂_trans_of_mem (forall₂_of_mapM h).flip hitems ?_
      exact fun spec item _ text _ hspec hitem => hdecode hitem hspec
  | _ => cases h

theorem aligned_of_mapM {members : Fields Json} {attributes : Fields TypeSpec}
    (h : (members.mapM fun (name, member) => do
      let spec ← decode member
      return (name, spec)) = .ok attributes) :
    Fields.Aligned (fun member spec => decode member = .ok spec) members attributes := by
  refine (forall₂_of_mapM h).imp fun member field heq => ?_
  obtain ⟨spec, hspec, heq⟩ := bind_eq_ok.mp heq
  cases heq
  exact ⟨rfl, hspec⟩

theorem objectParts_some {parts result : ObjectParts} {members : Fields Json}
    {attributes : Fields TypeSpec} (hparts : parts.attributes = some attributes)
    (h : objectParts decode parts members = .ok result) :
    result.attributes = some attributes ∧ members.named "attributes" = [] := by
  induction members generalizing parts with
  | nil =>
      cases h
      exact ⟨hparts, rfl⟩
  | cons member rest ih =>
      obtain ⟨key, value⟩ := member
      unfold objectParts at h
      split at h
      next heq => cases heq
      next heq =>
          rw [hparts] at h
          cases h
      next heq =>
          cases heq
          split at h
          next => cases h
          next =>
              obtain ⟨names, -, h⟩ := bind_eq_ok.mp h
              rw [Fields.named_cons_of_ne (by decide)]
              refine ih ?_ h
              exact hparts
      next hkey _ heq =>
          cases heq
          have hne : key ≠ "attributes" := fun heq => hkey value (by rw [heq])
          rw [Fields.named_cons_of_ne hne]
          exact ih hparts h

theorem objectParts_none {parts result : ObjectParts} {members : Fields Json}
    (hparts : parts.attributes = none) (h : objectParts decode parts members = .ok result) :
    (result.attributes = none ∧ members.named "attributes" = []) ∨
      ∃ (fields : Fields Json) (attributes : Fields TypeSpec),
        members.Sole "attributes" (.object fields) ∧
          Fields.Aligned (fun member spec => decode member = .ok spec) fields attributes ∧
          result.attributes = some (Fields.ofList attributes) := by
  induction members generalizing parts with
  | nil =>
      cases h
      exact .inl ⟨hparts, rfl⟩
  | cons member rest ih =>
      obtain ⟨key, value⟩ := member
      unfold objectParts at h
      split at h
      next heq => cases heq
      next heq =>
          cases heq
          split at h
          next => cases h
          next =>
              split at h
              next fields =>
                  obtain ⟨attributes, hattributes, h⟩ := bind_eq_ok.mp h
                  obtain ⟨hresult, hrest⟩ := objectParts_some rfl h
                  refine .inr ⟨fields, attributes, ?_, aligned_of_mapM hattributes, hresult⟩
                  simp [Fields.Sole, hrest]
              next => cases h
      next heq =>
          cases heq
          split at h
          next => cases h
          next =>
              obtain ⟨names, -, h⟩ := bind_eq_ok.mp h
              have hne : "optionalAttributes" ≠ "attributes" := by decide
              simp only [Fields.Sole, Fields.named_cons_of_ne hne]
              refine ih ?_ h
              exact hparts
      next hkey _ heq =>
          cases heq
          have hne : key ≠ "attributes" := fun heq => hkey value (by rw [heq])
          simp only [Fields.Sole, Fields.named_cons_of_ne hne]
          exact ih hparts h

theorem written_of_shape (hdecode : Keeps described decode) (hliteral : FitsSpelled described)
    {label : SpecLabel} {members : Fields Json} {texts : Fields (List Char)}
    (htext : ValuesText texts text) (hparts : Parts members texts) {spec : TypeSpec}
    (h : shape decode label members = .ok spec) : spec.WrittenAs described text := by
  obtain ⟨kind, -, h⟩ := bind_eq_ok.mp h
  have hfields := hparts.filter
  cases kind with
  | undefined =>
      cases h
      exact .undefined htext
  | literal =>
      obtain ⟨value, hvalue, h⟩ := bind_eq_ok.mp h
      cases h
      obtain ⟨original, hsole, heq⟩ := soleField_none hvalue
      cases heq
      obtain ⟨content, hcontent, hspelled⟩ := hfields.sole (by decide) hsole
      exact .literal htext hcontent (hliteral label original content hspelled)
  | primitive =>
      obtain ⟨name, -, h⟩ := bind_eq_ok.mp h
      cases h
      exact .primitive htext
  | object =>
      obtain ⟨parts, hobject, h⟩ := bind_eq_ok.mp h
      cases h
      obtain ⟨hnone, hempty⟩ | ⟨fields, attributes, hsole, hattributes, hsome⟩ :=
        objectParts_none rfl hobject
      · rw [hnone, Option.getD_none]
        refine .bare htext ?_
        have haligned := hfields "attributes" (by decide)
        rw [hempty] at haligned
        exact List.forall₂_nil_left_iff.mp haligned
      · rw [hsome, Option.getD_some]
        obtain ⟨content, hcontent, hspelled⟩ := hfields.sole (by decide) hsole
        cases hspelled with
        | @object _ contents inner hinner hnames hcontents =>
            have haligned : AlignedText fields contents :=
              Fields.aligned_iff.mpr ⟨hnames, hcontents⟩
            have hwritten : Fields.Aligned (TypeSpec.WrittenAs described) attributes contents := by
              refine hattributes.flip.trans haligned ?_
              exact fun spec member text hspec hmember => hdecode hmember hspec
            have hlast := Fields.aligned_iff.mp hwritten.ofList
            exact .object htext hcontent (valuesText_of_aligned hinner haligned) hlast.1 hlast.2
  | union =>
      obtain ⟨types, htypes, h⟩ := bind_eq_ok.mp h
      cases h
      obtain ⟨value, hsole, hspecs⟩ := soleField_none htypes
      obtain ⟨content, hcontent, hspelled⟩ := hfields.sole (by decide) hsole
      obtain ⟨items, hitems, hwritten⟩ := written_of_specs hdecode hspelled hspecs
      exact .union htext hcontent hitems hwritten
  | array =>
      obtain ⟨element, helement, h⟩ := bind_eq_ok.mp h
      cases h
      obtain ⟨value, hsole, hspec⟩ := soleField_none helement
      obtain ⟨content, hcontent, hspelled⟩ := hfields.sole (by decide) hsole
      exact .array htext hcontent (hdecode hspelled hspec)
  | reference =>
      obtain ⟨name, -, h⟩ := bind_eq_ok.mp h
      cases h
      exact .reference htext

theorem keeps_specWithin (hliteral : FitsSpelled described) (fuel : Nat) :
    Keeps described (specWithin fuel) := by
  induction fuel with
  | zero =>
      intro value text spec _ h
      cases value <;> cases h
  | succ fuel ih =>
      intro value text spec hvalue h
      cases hvalue with
      | @object members texts inner hinner hnames hmembers =>
          obtain ⟨⟨marks, others⟩, hsplit, h⟩ := bind_eq_ok.mp h
          have haligned : AlignedText members texts := Fields.aligned_iff.mpr ⟨hnames, hmembers⟩
          have hparts : Parts others texts := by
            intro name hname
            rw [named_of_split hsplit hname]
            exact haligned.named name
          exact written_of_shape ih hliteral (valuesText_of_aligned hinner haligned) hparts h
      | _ => cases h

end

end Document

end TypeGuard

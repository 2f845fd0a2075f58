import TypeGuard.Proofs.Origins

/-!
# The text of a document

A batch document is read root by root, so that what is decoded on the way has to be put
together with what is read after it: the marks of a root and its other members, or the roots
and the other members of the batch.  In the end every root has been decoded from its own text.
-/

namespace TypeGuard

open Json (ListText ValueText ValuesText ObjectText)

def RootsText (described : SpecLabel → Json → List Char → Prop) (roots : List TypeSpec)
    (text : List Char) : Prop :=
  ∃ items, ListText items text ∧ List.Forall₂ (TypeSpec.WrittenAs described) roots items

/-- The text of a value that is read or only passed over. -/
def PassedText (text : List Char) : Prop :=
  ValueText text ∨ ∃ fuel, Json.Reading.Spans (Json.skipValue fuel) () text

/-- The text of a batch: an object, in which one member holds the roots, or a list of two. -/
inductive BatchDocument.WrittenAs (described : SpecLabel → Json → List Char → Prop) :
    BatchDocument → List Char → Prop
  | object {document : BatchDocument} {members : Fields (List Char)} {text content : List Char} :
      ObjectText (fun member => member.1 = "roots" ∨ PassedText member.2) members text →
        members.Sole "roots" content → RootsText described document.roots content →
        WrittenAs described document text
  | list {document : BatchDocument} {text source content : List Char} :
      ListText [source, content] text → ValueText source →
        RootsText described document.roots content → WrittenAs described document text

namespace Document

open Json Json.Reading

/-! ## Reading the parts -/

section

variable {α : Type}

theorem gives_settle {decoded : Decoded α} {described : α → List Char → Prop}
    {ahead : List Char} (h : ∀ part, decoded = .ok part → described part ahead) :
    Gives ahead (settle decoded) described := by
  cases decoded with
  | ok part => exact .pure (h part rfl)
  | error fault => exact .fail

theorem reads_scalarPart (fuel : Nat) {decode : Json → Decoded α}
    (harray : ∀ part, decode (.array []) ≠ .ok part)
    (hobject : ∀ part, decode (.object []) ≠ .ok part) :
    Reads (scalarPart fuel decode) fun part text =>
      ∃ value : Json, decode value = .ok part ∧ AfterGap value.Spelled text := by
  refine fun ahead => gives_next .fail fun gap first rest hgap hahead => ?_
  split
  next hnone => cases hnone
  next => exact gives_settle fun part hpart => absurd hpart (harray part)
  next => exact gives_settle fun part hpart => absurd hpart (hobject part)
  next hfirst =>
      cases hfirst
      refine .bind ((gives_scalar fuel).mono ?_)
      rintro value after ⟨text, hrest, htext⟩
      refine gives_settle fun part hpart => ?_
      exact ⟨gap ++ text, by simp [hahead, hrest], value, hpart, gap, text, hgap, rfl, htext⟩

theorem reads_openPart (fuel depth : Nat) (opening : Char) (expected : String) :
    Reads (openPart fuel depth opening expected) fun _ text => AfterGap (· = [opening]) text := by
  refine fun ahead => gives_next .fail fun gap first rest hgap hahead => ?_
  split
  next hfirst =>
      cases hfirst
      split
      next heq =>
          subst heq
          refine gives_enter.mono ?_
          rintro _ after rfl
          exact ⟨gap ++ [first], by simp [hahead], gap, [first], hgap, rfl, rfl⟩
      next =>
          refine (reads_scalarPart fuel nofun nofun (first :: rest)).mono ?_
          rintro part after ⟨text, -, value, hvalue, -⟩
          cases hvalue
  next hnone => cases hnone

theorem gives_nextName (fuel : Nat) (first : Bool) {ahead : List Char} :
    Gives ahead (nextName fuel first) fun name? rest =>
      (∃ name lead quoted, name? = some name ∧ ahead = lead ++ (quoted ++ rest) ∧
        Lead first lead ∧ QuotedText name quoted) ∨
      (name? = none ∧ ∃ gap, ahead = (gap ++ ['\x7d']) ++ rest ∧ IsGap gap) := by
  refine .bind (.within ((gives_moreMembers first).mono ?_))
  rintro more rest ⟨lead, rfl, ⟨rfl, hlead, rest, rfl⟩ | ⟨rfl, hgap, after, rfl⟩⟩
  · refine .bind (.within ((gives_stringLiteral fuel).mono ?_))
    rintro name rest ⟨quoted, hrest, hname⟩
    exact .pure (.inl ⟨name, lead, quoted, rfl, by rw [hrest], hlead, hname⟩)
  · exact .bind (.skip (.pure (.inr ⟨rfl, lead, by simp, hgap⟩)))

theorem reads_memberValue {name : String} {part : Reading α}
    {described : α → List Char → Prop} (h : Reads part described) :
    Reads (memberValue name part) fun result text => ∃ before content,
      IsGap before ∧ text = before ++ ':' :: content ∧ described result content := by
  refine fun ahead => reads_colon.andThen ?_
  rintro - _ rest ⟨before, hbefore, rfl⟩ rfl
  refine (h.within rest).mono ?_
  rintro result after ⟨content, rfl, hcontent⟩
  exact ⟨before ++ ':' :: content, by simp, before, content, hbefore, rfl, hcontent⟩

theorem take?_eq_some {marks : Marks} {name : String} {decode : Json → Decoded Marks}
    (h : marks.take? name = some (.ok decode)) :
    ¬ IsPart name ∧ (∀ part, decode (.array []) ≠ .ok part) ∧
      ∀ part, decode (.object []) ≠ .ok part := by
  unfold Marks.take? at h
  split at h
  next hname =>
      split at h
      next => cases h
      next =>
          cases h
          exact ⟨fun hpart => hpart.1 hname, nofun, nofun⟩
  next =>
      split at h
      next hname =>
          split at h
          next => cases h
          next =>
              cases h
              exact ⟨fun hpart => hpart.2.1 hname, nofun, nofun⟩
      next => cases h

theorem gives_failObject {fault : Fault} {described : α → List Char → Prop} {ahead : List Char} :
    Gives ahead (failObject fault) described := by
  refine Passes.next.andThen fun first text rest _ _ => ?_
  dsimp only
  split
  · exact .bind (.skip .fail)
  · exact .fail

end

/-! ## Reading roots -/

/-- The members read so far and the rest of them make up the shape of the root. -/
theorem reads_rootMembers (fuel depth : Nat) (first : Bool) (marks : Marks)
    (others : Fields Json) :
    Reads (rootMembers fuel depth first marks others) fun root text =>
      ∃ (texts : Fields (List Char)) (members : Fields Json), MembersText first texts text ∧
        AlignedText members texts ∧ ∃ (label : SpecLabel) (parts : Fields Json),
          shape spec label parts = .ok root ∧ ∀ name, IsPart name →
            Fields.named name parts = Fields.named name (others.reverse ++ members) := by
  induction fuel generalizing first marks others with
  | zero => exact fun _ => .fail
  | succ fuel ih =>
      refine fun ahead => .bind ((gives_nextName fuel first).mono ?_)
      rintro name? rest (⟨name, lead, quoted, rfl, rfl, hlead, hname⟩ | ⟨rfl, gap, rfl, hgap⟩)
      · dsimp only
        split
        next => exact gives_failObject
        next decode hmark =>
            obtain ⟨hmark, harray, hobject⟩ := take?_eq_some hmark
            refine (reads_memberValue (reads_scalarPart fuel harray hobject)).andThen ?_
            rintro marks _ rest ⟨before, _, hbefore, rfl, value, -, gap, core, hgap, rfl, hcore⟩ rfl
            refine (ih false marks others rest).mono ?_
            rintro root after ⟨text, rfl, texts, members, htext, hmembers, label, parts, hroot,
              hparts⟩
            refine ⟨_, ?_, (name, core) :: texts, (name, value) :: members,
              .member hlead hname hbefore hgap htext, .cons ⟨rfl, hcore⟩ hmembers, label, parts,
              hroot, fun other hother => ?_⟩
            · simp
            · have hne : name ≠ other := fun heq => hmark (heq ▸ hother)
              rw [hparts other hother, Fields.named_append, Fields.named_append,
                Fields.named_cons_of_ne hne]
        next =>
            refine (reads_memberValue (reads_value fuel depth)).andThen ?_
            rintro value _ rest ⟨before, _, hbefore, rfl, gap, core, hgap, rfl, hcore⟩ rfl
            refine (ih false marks ((name, value) :: others) rest).mono ?_
            rintro root after ⟨text, rfl, texts, members, htext, hmembers, label, parts, hroot,
              hparts⟩
            refine ⟨_, ?_, (name, core) :: texts, (name, value) :: members,
              .member hlead hname hbefore hgap htext, .cons ⟨rfl, hcore⟩ hmembers, label, parts,
              hroot, fun other hother => ?_⟩
            · simp
            · rw [hparts other hother, List.reverse_cons, List.append_assoc, List.singleton_append]
      · refine gives_settle fun root hroot => ?_
        exact ⟨gap ++ ['\x7d'], rfl, [], [], .close hgap, .nil, marks.label, others.reverse, hroot,
          fun name _ => by rw [List.append_nil]⟩

section

variable {described : SpecLabel → Json → List Char → Prop} (hliteral : FitsSpelled described)

include hliteral

theorem reads_root (fuel depth : Nat) :
    Reads (do
      let depth ← openPart fuel depth '\x7b' "struct RawTypeNode"
      rootMembers fuel depth true Marks.none []) fun root text =>
        AfterGap (root.WrittenAs described) text := by
  refine fun ahead => (reads_openPart fuel depth _ _).andThen ?_
  rintro depth _ rest ⟨gap, _, hgap, rfl, rfl⟩ rfl
  refine (reads_rootMembers fuel depth true Marks.none [] rest).mono ?_
  rintro root after ⟨text, rfl, texts, members, htext, hmembers, label, parts, hroot, hparts⟩
  have hspec : Keeps described spec := fun hvalue h => keeps_specWithin hliteral _ hvalue h
  have hall : Parts parts texts := by
    intro name hname
    rw [hparts name hname]
    exact hmembers.named name
  have hwritten := written_of_shape hspec hliteral (valuesText_of_aligned htext hmembers) hall hroot
  exact ⟨gap ++ '\x7b' :: text, by simp, gap, _, hgap, rfl, hwritten⟩

theorem reads_rootItems (fuel depth index : Nat) :
    Reads (rootItems fuel depth index) fun roots text => ∃ items,
      ItemsText (index == 0) items text ∧
        List.Forall₂ (TypeSpec.WrittenAs described) roots items := by
  induction fuel generalizing index with
  | zero => exact fun _ => .fail
  | succ fuel ih =>
      refine fun ahead => .bind ((gives_moreItems (index == 0)).mono ?_)
      rintro more rest ⟨lead, rfl, ⟨rfl, hlead⟩ | ⟨rfl, hgap, after, rfl⟩⟩
      · refine (reads_root hliteral fuel depth).within.andThen ?_
        rintro root _ rest ⟨gap, text, hgap, rfl, hroot⟩ rfl
        refine (ih (index + 1)).andThen ?_
        rintro roots more after ⟨items, hmore, hroots⟩ rfl
        have htext : ItemsText (index == 0) (text :: items) (lead ++ gap ++ text ++ more) :=
          .item (hlead.append hgap) hmore
        exact .pure ⟨_, by simp, text :: items, htext, .cons hroot hroots⟩
      · exact .bind (.skip (.pure ⟨lead ++ [']'], by simp, [], .close hgap, .nil⟩))

theorem reads_rootList (fuel depth : Nat) :
    Reads (rootList fuel depth) fun roots text => AfterGap (RootsText described roots) text := by
  refine fun ahead => (reads_openPart fuel depth _ _).andThen ?_
  rintro depth _ rest ⟨gap, _, hgap, rfl, rfl⟩ rfl
  refine (reads_rootItems hliteral fuel depth 0 rest).mono ?_
  rintro roots after ⟨text, rfl, items, htext, hroots⟩
  exact ⟨gap ++ '[' :: text, by simp, gap, _, hgap, rfl, items, ⟨text, rfl, htext⟩, hroots⟩

end

/-! ## Reading batches -/

inductive RootsAmong (described : SpecLabel → Json → List Char → Prop) :
    Option (List TypeSpec) → List TypeSpec → Fields (List Char) → Prop
  | before {roots : List TypeSpec} {texts : Fields (List Char)} :
      texts.named "roots" = [] → RootsAmong described (some roots) roots texts
  | here {roots : List TypeSpec} {texts : Fields (List Char)} {content : List Char} :
      texts.Sole "roots" content → RootsText described roots content →
        RootsAmong described none roots texts

theorem RootsAmong.cons {described : SpecLabel → Json → List Char → Prop}
    {before? : Option (List TypeSpec)} {roots : List TypeSpec} {texts : Fields (List Char)}
    (h : RootsAmong described before? roots texts) {name : String} (hname : name ≠ "roots")
    (content : List Char) : RootsAmong described before? roots ((name, content) :: texts) := by
  cases h with
  | before hnone => exact .before (by rwa [Fields.named_cons_of_ne hname])
  | here hsole hroots => exact .here (by rwa [Fields.Sole, Fields.named_cons_of_ne hname]) hroots

theorem reads_closeList : Reads closeList fun _ text => ∃ gap, IsGap gap ∧ text = gap ++ [']'] := by
  refine fun ahead => gives_next .fail fun gap first rest hgap hahead => ?_
  split
  next hnone => cases hnone
  next hclose =>
      cases hclose
      exact .skip ⟨gap ++ [']'], by simp [hahead], gap, hgap, rfl⟩
  next =>
      refine .bind (.skip (Passes.next.andThen fun second text after _ _ => ?_))
      split
      · exact .failNext
      · exact .failNext
  next => exact .failNext

section

variable {described : SpecLabel → Json → List Char → Prop} (hliteral : FitsSpelled described)

include hliteral

theorem reads_batchMembers (fuel depth : Nat) (first : Bool)
    (source : Option (Option String)) (before? : Option (List TypeSpec)) :
    Reads (batchMembers fuel depth first source before?) fun document text =>
      ∃ texts, MembersText first texts text ∧
        (∀ member ∈ texts, member.1 = "roots" ∨ PassedText member.2) ∧
        RootsAmong described before? document.roots texts := by
  induction fuel generalizing first source before? with
  | zero => exact fun _ => .fail
  | succ fuel ih =>
      refine fun ahead => .bind ((gives_nextName fuel first).mono ?_)
      rintro name? rest (⟨name, lead, quoted, rfl, rfl, hlead, hname⟩ | ⟨rfl, gap, rfl, hgap⟩)
      · dsimp only
        split
        next himport =>
            have hne : name ≠ "roots" := by
              rw [himport]
              decide
            split
            next => exact gives_failObject
            next =>
                refine (reads_memberValue (reads_scalarPart fuel nofun nofun)).andThen ?_
                rintro source _ rest ⟨before, _, hbefore, rfl, value, -, gap, core, hgap, rfl,
                  hcore⟩ rfl
                refine (ih false (some source) before? rest).mono ?_
                rintro document after ⟨text, rfl, texts, htext, hpassed, hroots⟩
                refine ⟨_, ?_, (name, core) :: texts, .member hlead hname hbefore hgap htext, ?_,
                  hroots.cons hne core⟩
                · simp
                · exact List.forall_mem_cons.mpr ⟨.inr (.inl ⟨value, hcore⟩), hpassed⟩
        next =>
            split
            next hroots =>
                subst hroots
                cases before? with
                | some given => exact gives_failObject
                | none =>
                    refine (reads_memberValue (reads_rootList hliteral fuel depth)).andThen ?_
                    rintro roots _ rest ⟨before, _, hbefore, rfl, gap, core, hgap, rfl, hcore⟩ rfl
                    refine (ih false source (some roots) rest).mono ?_
                    rintro document after ⟨text, rfl, texts, htext, hpassed, hroots⟩
                    refine ⟨_, ?_, ("roots", core) :: texts,
                      .member hlead hname hbefore hgap htext, ?_, ?_⟩
                    · simp
                    · exact List.forall_mem_cons.mpr ⟨.inl rfl, hpassed⟩
                    · cases hroots with
                      | before hnone =>
                          refine .here ?_ hcore
                          simp [Fields.Sole, hnone]
            next hne =>
                refine (reads_memberValue (passes_skipValue fuel).spans).andThen ?_
                rintro _ _ rest ⟨before, content, hbefore, rfl, hcontent⟩ rfl
                refine (ih false source before? rest).mono ?_
                rintro document after ⟨text, rfl, texts, htext, hpassed, hroots⟩
                have hgap : IsGap [] := List.forall_mem_nil _
                refine ⟨_, ?_, (name, content) :: texts, .member hlead hname hbefore hgap htext,
                  ?_, hroots.cons hne content⟩
                · simp
                · exact List.forall_mem_cons.mpr ⟨.inr (.inr ⟨fuel, hcontent⟩), hpassed⟩
      · cases before? with
        | none => exact .fail
        | some roots =>
            exact .pure ⟨gap ++ ['\x7d'], rfl, [], .close hgap, List.forall_mem_nil _, .before rfl⟩

theorem reads_batchItems (fuel depth : Nat) :
    Reads (batchItems fuel depth) fun document text =>
      ∃ source content, ItemsText true [source, content] text ∧ ValueText source ∧
        RootsText described document.roots content := by
  refine fun ahead => .bind ((gives_moreItems true).mono ?_)
  rintro more rest ⟨lead, rfl, ⟨rfl, hlead⟩ | ⟨rfl, -, after, rfl⟩⟩
  · dsimp only
    refine (reads_scalarPart fuel nofun nofun).within.andThen ?_
    rintro importFrom _ rest ⟨value, -, gap, source, hgap, rfl, hsource⟩ rfl
    refine .bind ((gives_moreItems false).mono ?_)
    rintro more rest ⟨between, rfl, ⟨rfl, hbetween⟩ | ⟨rfl, -, after, rfl⟩⟩
    · refine (reads_rootList hliteral fuel depth).within.andThen ?_
      rintro roots _ rest ⟨gap', content, hgap', rfl, hroots⟩ rfl
      refine reads_closeList.andThen ?_
      rintro - _ rest ⟨last, hlast, rfl⟩ rfl
      have htext : ItemsText true [source, content]
          (lead ++ gap ++ source ++ (between ++ gap' ++ content ++ (last ++ [']']))) :=
        .item (hlead.append hgap) (.item (hbetween.append hgap') (.close hlast))
      exact .pure ⟨_, by simp, source, content, htext, ⟨value, hsource⟩, hroots⟩
    · exact .bind (.skip .fail)
  · exact .bind (.skip .fail)

theorem reads_batch (fuel : Nat) :
    Reads (batch fuel) fun document text => AfterGap (document.WrittenAs described) text := by
  refine fun ahead => gives_next .fail fun gap first rest hgap hahead => ?_
  split
  next hnone => cases hnone
  next hopen =>
      cases hopen
      refine .bind (gives_enter.mono ?_)
      rintro depth _ rfl
      refine (reads_batchItems hliteral fuel depth _).mono ?_
      rintro document after ⟨text, rfl, source, content, htext, hsource, hroots⟩
      have hwritten := BatchDocument.WrittenAs.list ⟨text, rfl, htext⟩ hsource hroots
      exact ⟨gap ++ '[' :: text, by simp [hahead], gap, _, hgap, rfl, hwritten⟩
  next hopen =>
      cases hopen
      refine .bind (gives_enter.mono ?_)
      rintro depth _ rfl
      refine (reads_batchMembers hliteral fuel depth true none none _).mono ?_
      rintro document after ⟨text, rfl, texts, htext, hpassed, hroots⟩
      cases hroots with
      | here hsole hroots =>
          have hwritten := BatchDocument.WrittenAs.object ⟨text, rfl, htext, hpassed⟩ hsole hroots
          exact ⟨gap ++ '\x7b' :: text, by simp [hahead], gap, _, hgap, rfl, hwritten⟩
  next hfirst =>
      cases hfirst
      refine .bind ((gives_scalar fuel).mono ?_)
      rintro found after -
      refine gives_settle fun document hdocument => ?_
      cases hdocument

end

end Document

/-- A batch document is read from a text of its own, and so are its parts. -/
theorem BatchDocument.written_of_read {described : SpecLabel → Json → List Char → Prop}
    (hliteral : Document.FitsSpelled described) {source : String} {document : BatchDocument}
    (h : BatchDocument.read source = .ok document) :
    ∃ text rest, source.toList = text ++ rest ∧
      Json.AfterGap (document.WrittenAs described) text := by
  unfold BatchDocument.read at h
  cases hbatch : Document.batch (Json.fuelFor source) (Json.Cursor.ofText source) with
  | error failure => simp [hbatch, Except.map] at h
  | ok result =>
      rw [hbatch] at h
      cases h
      obtain ⟨text, htext, hwritten⟩ := Document.reads_batch hliteral _ _ _ _ _ rfl hbatch
      exact ⟨text, _, htext, hwritten⟩

end TypeGuard

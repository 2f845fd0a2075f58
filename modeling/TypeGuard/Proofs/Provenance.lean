import TypeGuard.Document.Reader
import TypeGuard.Proofs.Spelling

/-!
# The text of a value

A value is read from a text that spells it.  The text of a list is made of the texts of its
items and the text of an object of those of its members, so every part of the value has a
text of its own; the text of a number is the numeral that the number was read as.
-/

namespace TypeGuard.Json

def Numeral.SignedText (n : Numeral) (negative : Bool) (text : List Char) : Prop :=
  ∃ digits, n.Text digits ∧ text = if negative then '-' :: digits else digits

def Number.Text (number : Number) (text : List Char) : Prop :=
  ∃ (n : Numeral) (negative : Bool), n.SignedText negative text ∧ n.value negative = .ok number

namespace Reading

variable {α β : Type}

def Spans (reading : Reading α) (result : α) (text : List Char) : Prop :=
  ∃ before after : Cursor, before.rest = text ++ after.rest ∧ reading before = .ok (result, after)

/-- Whatever is ahead, a run of the reading goes over a text that is as described for its
result. -/
def Reads (reading : Reading α) (described : α → List Char → Prop) : Prop :=
  ∀ ahead, Gives ahead reading fun result rest =>
    ∃ text, ahead = text ++ rest ∧ described result text

def Passes (reading : Reading α) : Prop := Reads reading fun _ _ => True

theorem Reads.andThen {first : Reading α} {next : α → Reading β}
    {middle : α → List Char → Prop} {described : β → List Char → Prop} {ahead : List Char}
    (h : Reads first middle)
    (hnext : ∀ value text rest, middle value text → ahead = text ++ rest →
      Gives rest (next value) described) :
    Gives ahead (first >>= next) described := by
  refine .bind ((h ahead).mono ?_)
  rintro value rest ⟨text, hahead, htext⟩
  exact hnext value text rest htext hahead

theorem Reads.mono {reading : Reading α} {described other : α → List Char → Prop}
    (h : Reads reading described)
    (hother : ∀ value text, described value text → other value text) : Reads reading other := by
  refine fun ahead => (h ahead).mono ?_
  rintro value rest ⟨text, hahead, htext⟩
  exact ⟨text, hahead, hother value text htext⟩

theorem Reads.within {reading : Reading α} {described : α → List Char → Prop}
    {segment : Segment} (h : Reads reading described) :
    Reads (within segment reading) described :=
  fun ahead => .within (h ahead)

namespace Passes

theorem spans {reading : Reading α} (h : Passes reading) : Reads reading (Spans reading) := by
  intro ahead before after result hbefore hresult
  obtain ⟨text, htext, -⟩ := h ahead before after result hbefore hresult
  exact ⟨text, htext, before, after, hbefore.trans htext, hresult⟩

theorem bind {first : Reading α} {next : α → Reading β} (h : Passes first)
    (hnext : ∀ value, Passes (next value)) : Passes (first >>= next) := by
  refine fun ahead => Reads.andThen h ?_
  rintro value text rest - rfl
  refine (hnext value rest).mono ?_
  rintro result after ⟨more, rfl, -⟩
  exact ⟨text ++ more, by rw [List.append_assoc], trivial⟩

theorem pure {value : α} : Passes (pure value) :=
  fun _ => .pure ⟨[], rfl, trivial⟩

theorem fail {fault : Fault} : Passes (fail fault : Reading α) :=
  fun _ => .fail

theorem failNext {fault : Fault} : Passes (failNext fault : Reading α) :=
  fun _ => .failNext

theorem peek : Passes peek :=
  fun _ => .peek ⟨[], rfl, trivial⟩

theorem skip : Passes skip :=
  fun ahead => .skip ⟨ahead.take 1, by cases ahead <;> rfl, trivial⟩

theorem takeWhile {p : Char → Bool} : Passes (takeWhile p) :=
  fun ahead => .takeWhile ⟨ahead.takeWhile p, List.takeWhile_append_dropWhile.symm, trivial⟩

theorem next : Passes next :=
  takeWhile.bind fun _ => peek

end Passes

end Reading

open Reading

/-! ## Between the values -/

def IsGap (text : List Char) : Prop := ∀ c ∈ text, isBlank c = true

theorem IsGap.append {gap more : List Char} (h : IsGap gap) (hmore : IsGap more) :
    IsGap (gap ++ more) :=
  List.forall_mem_append.mpr ⟨h, hmore⟩

inductive Lead : Bool → List Char → Prop
  | first {gap : List Char} : IsGap gap → Lead true gap
  | later {before after : List Char} : IsGap before → IsGap after →
      Lead false (before ++ ',' :: after)

theorem Lead.append {first : Bool} {lead gap : List Char} (h : Lead first lead)
    (hgap : IsGap gap) : Lead first (lead ++ gap) := by
  cases h with
  | first hlead => exact .first (hlead.append hgap)
  | later hbefore hafter =>
      rw [List.append_assoc, List.cons_append]
      exact .later hbefore (hafter.append hgap)

/-- The text is as described but for blanks before it. -/
def AfterGap (described : List Char → Prop) (text : List Char) : Prop :=
  ∃ gap core, IsGap gap ∧ text = gap ++ core ∧ described core

variable {α : Type} {ahead : List Char}

/-- The first character that is not blank decides how to read on; it is still ahead then. -/
theorem gives_next {proceed : Option Char → Reading α} {described : α → List Char → Prop}
    (hend : Gives [] (proceed none) fun _ _ => False)
    (hnext : ∀ gap first rest, IsGap gap → ahead = gap ++ first :: rest →
      Gives (first :: rest) (proceed (some first)) described) :
    Gives ahead (next >>= proceed) described := by
  refine .bind (.bind (.takeWhile (.peek ?_)))
  have hgap : IsGap (ahead.takeWhile isBlank) := fun _ hc => List.mem_takeWhile_imp hc
  have hahead : ahead.takeWhile isBlank ++ ahead.dropWhile isBlank = ahead :=
    List.takeWhile_append_dropWhile
  cases hdrop : ahead.dropWhile isBlank with
  | nil => exact hend.mono fun _ _ => False.elim
  | cons first rest =>
      rw [hdrop] at hahead
      exact hnext _ first rest hgap hahead.symm

theorem reads_colon : Reads colon fun _ text => ∃ gap, IsGap gap ∧ text = gap ++ [':'] := by
  refine fun ahead => gives_next .failNext fun gap first rest hgap hahead => ?_
  split
  next hfirst =>
      cases hfirst
      exact .skip ⟨gap ++ [':'], by simp [hahead], gap, hgap, rfl⟩
  next => exact .failNext
  next hnone => cases hnone

theorem reads_word (letters : List Char) : Reads (word letters) fun _ text => text = letters := by
  induction letters with
  | nil => exact fun ahead => .pure ⟨[], rfl, rfl⟩
  | cons expected letters ih =>
      intro ahead
      refine .bind (.peek ?_)
      cases ahead with
      | nil => exact .fail
      | cons c rest =>
          dsimp only [List.head?_cons]
          split
          next hc =>
              subst hc
              refine .bind (.skip ((ih rest).mono ?_))
              rintro - after ⟨text, hrest, rfl⟩
              exact ⟨c :: text, congrArg (c :: ·) hrest, rfl⟩
          next => exact .failNext

theorem gives_moreItems (first : Bool) :
    Gives ahead (moreItems first) fun more rest => ∃ lead, ahead = lead ++ rest ∧
      ((more = true ∧ Lead first lead) ∨
        (more = false ∧ IsGap lead ∧ ∃ after, rest = ']' :: after)) := by
  refine gives_next .failNext fun gap c rest hgap hahead => ?_
  split
  next hnone => cases hnone
  next hclose =>
      cases hclose
      exact .pure ⟨gap, hahead, .inr ⟨rfl, hgap, rest, rfl⟩⟩
  next hopen =>
      cases hopen
      cases first with
      | true => exact .pure ⟨gap, hahead, .inl ⟨rfl, .first hgap⟩⟩
      | false =>
          simp only [Bool.false_eq_true, if_false]
          split
          next hcomma =>
              subst hcomma
              refine .bind (.skip (gives_next .failNext fun gap' c' rest' hgap' hrest => ?_))
              have htext : ahead = (gap ++ ',' :: gap') ++ c' :: rest' := by
                simp_all
              split
              next hnone => cases hnone
              next => exact .failNext
              next hitem =>
                  exact .pure ⟨_, htext, .inl ⟨rfl, .later hgap hgap'⟩⟩
          next => exact .failNext

theorem gives_moreMembers (first : Bool) :
    Gives ahead (moreMembers first) fun more rest => ∃ lead, ahead = lead ++ rest ∧
      ((more = true ∧ Lead first lead ∧ ∃ after, rest = '"' :: after) ∨
        (more = false ∧ IsGap lead ∧ ∃ after, rest = '\x7d' :: after)) := by
  refine gives_next .failNext fun gap c rest hgap hahead => ?_
  split
  next hnone => cases hnone
  next hclose =>
      cases hclose
      exact .pure ⟨gap, hahead, .inr ⟨rfl, hgap, rest, rfl⟩⟩
  next hopen =>
      cases hopen
      cases first with
      | true =>
          simp only [if_true]
          split
          next hquote =>
              subst hquote
              exact .pure ⟨gap, hahead, .inl ⟨rfl, .first hgap, rest, rfl⟩⟩
          next => exact .failNext
      | false =>
          simp only [Bool.false_eq_true, if_false]
          split
          next hcomma =>
              subst hcomma
              refine .bind (.skip (gives_next .failNext fun gap' c' rest' hgap' hrest => ?_))
              have htext : ahead = (gap ++ ',' :: gap') ++ c' :: rest' := by
                simp_all
              split
              next hnone => cases hnone
              next hquote =>
                  cases hquote
                  exact .pure ⟨_, htext, .inl ⟨rfl, .later hgap hgap', rest', rfl⟩⟩
              next => exact .failNext
              next => exact .failNext
          next => exact .failNext

/-! ## Strings -/

def QuotedText (s : String) (text : List Char) : Prop :=
  ∃ fuel characters body, Spans (stringRounds fuel) characters body ∧
    s = String.ofList characters ∧ text = '"' :: body

theorem passes_hexUnit : Passes hexUnit := by
  rintro ahead ⟨rest, position⟩ after result rfl hresult
  obtain ⟨cursor, middle, hget, hresult⟩ := run_bind_eq_ok.mp hresult
  cases hget
  split at hresult
  next => cases hresult
  next =>
      dsimp only at hresult
      split at hresult
      next =>
          cases hresult
          exact ⟨rest.take 4, (List.take_append_drop 4 rest).symm, trivial⟩
      next => cases hresult

theorem passes_expectInPair (expected : Char) : Passes (expectInPair expected) := by
  refine Passes.peek.bind fun first => ?_
  split
  · exact .fail
  · split
    · exact .skip
    · exact .failNext

theorem passes_hexEscape : Passes hexEscape := by
  refine passes_hexUnit.bind fun unit => ?_
  split
  · exact .fail
  · split
    · refine (passes_expectInPair _).bind fun _ => ?_
      refine (passes_expectInPair _).bind fun _ => ?_
      refine passes_hexUnit.bind fun second => ?_
      split
      · exact .pure
      · exact .fail
    · exact .pure

theorem passes_escape : Passes escape := by
  refine Passes.peek.bind fun first => ?_
  split
  · exact .fail
  · refine Passes.skip.bind fun _ => ?_
    exact passes_hexEscape
  · split
    · refine Passes.skip.bind fun _ => ?_
      exact .pure
    · exact .failNext

theorem passes_stringRounds (fuel : Nat) : Passes (stringRounds fuel) := by
  induction fuel with
  | zero => exact .fail
  | succ fuel ih =>
      refine Passes.takeWhile.bind fun run => ?_
      refine Passes.peek.bind fun first => ?_
      split
      · exact .fail
      · refine Passes.skip.bind fun _ => ?_
        exact .pure
      · refine Passes.skip.bind fun _ => ?_
        refine passes_escape.bind fun c => ?_
        refine ih.bind fun characters => ?_
        exact .pure
      · exact .failNext

theorem gives_stringLiteral (fuel : Nat) {rest : List Char} :
    Gives ('"' :: rest) (stringLiteral fuel) fun s after =>
      ∃ text, '"' :: rest = text ++ after ∧ QuotedText s text := by
  refine .bind (.skip ((passes_stringRounds fuel).spans.andThen ?_))
  rintro characters body after hspans hrest
  refine .pure ⟨'"' :: body, ?_, fuel, characters, body, hspans, rfl, rfl⟩
  rw [List.cons_append, ← hrest, List.tail_cons]

/-! ## Values -/

/-- The rest of a list, its closing bracket included, and the texts of its items. -/
inductive ItemsText : Bool → List (List Char) → List Char → Prop
  | close {first : Bool} {gap : List Char} : IsGap gap → ItemsText first [] (gap ++ [']'])
  | item {first : Bool} {lead item rest : List Char} {items : List (List Char)} :
      Lead first lead → ItemsText false items rest →
        ItemsText first (item :: items) (lead ++ item ++ rest)

/-- The rest of an object, its closing brace included, and the texts of its members' values. -/
inductive MembersText : Bool → Fields (List Char) → List Char → Prop
  | close {first : Bool} {gap : List Char} : IsGap gap → MembersText first [] (gap ++ ['\x7d'])
  | member {first : Bool} {lead quoted before after content rest : List Char} {name : String}
      {members : Fields (List Char)} :
      Lead first lead → QuotedText name quoted → IsGap before → IsGap after →
        MembersText false members rest →
        MembersText first ((name, content) :: members)
          (lead ++ quoted ++ before ++ ':' :: after ++ content ++ rest)

inductive Spelled : Json → List Char → Prop
  | null : Spelled .null ['n', 'u', 'l', 'l']
  | bool {b : Bool} :
      Spelled (.bool b) (if b then ['t', 'r', 'u', 'e'] else ['f', 'a', 'l', 's', 'e'])
  | number {n : Number} {text : List Char} : n.Text text → Spelled (.number n) text
  | string {s : String} {text : List Char} : QuotedText s text → Spelled (.string s) text
  | array {items : List Json} {texts : List (List Char)} {text : List Char} :
      ItemsText true texts text → List.Forall₂ Spelled items texts →
        Spelled (.array items) ('[' :: text)
  | object {members : Fields Json} {texts : Fields (List Char)} {text : List Char} :
      MembersText true texts text → Fields.names members = Fields.names texts →
        List.Forall₂ Spelled (members.map (·.2)) (texts.map (·.2)) →
        Spelled (.object members) ('\x7b' :: text)

theorem gives_word {first : Char} {rest letters : List Char} {value : α}
    {described : α → List Char → Prop} (h : described value (first :: letters)) :
    Gives (first :: rest) (do
      skip
      word letters
      return value) fun value after =>
        ∃ text, first :: rest = text ++ after ∧ described value text := by
  refine .bind (.skip ((reads_word letters).andThen ?_))
  rintro - text after rfl hrest
  exact .pure ⟨first :: text, congrArg (first :: ·) hrest, h⟩

theorem gives_scalar (fuel : Nat) {first : Char} {rest : List Char} :
    Gives (first :: rest) (scalar fuel first) fun value after =>
      ∃ text, first :: rest = text ++ after ∧ value.Spelled text := by
  unfold scalar
  split
  · exact gives_word .null
  · exact gives_word (.bool (b := true))
  · exact gives_word (.bool (b := false))
  · refine .bind ((gives_stringLiteral fuel).mono ?_)
    rintro s after ⟨text, hahead, htext⟩
    exact .pure ⟨text, hahead, .string htext⟩
  · refine .bind (.skip (.bind (gives_numberLiteral.mono ?_)))
    rintro number after ⟨n, digits, hrest, hdigits, hvalue⟩
    have htext : number.Text ('-' :: digits) := ⟨n, true, ⟨digits, hdigits, rfl⟩, hvalue⟩
    exact .pure ⟨'-' :: digits, congrArg ('-' :: ·) hrest, .number htext⟩
  · split
    · refine .bind (gives_numberLiteral.mono ?_)
      rintro number after ⟨n, digits, hahead, hdigits, hvalue⟩
      have htext : number.Text digits := ⟨n, false, ⟨digits, hdigits, rfl⟩, hvalue⟩
      exact .pure ⟨digits, hahead, .number htext⟩
    · exact .failNext

theorem gives_enter {depth : Nat} {first : Char} {rest : List Char} :
    Gives (first :: rest) (enter depth) fun _ after => after = rest := by
  unfold enter
  split
  · exact .failNext
  · exact .bind (.skip (.pure rfl))

mutual

theorem reads_value : ∀ fuel depth : Nat,
    Reads (value fuel depth) fun value text => AfterGap value.Spelled text
  | 0, _ => by
      rw [value]
      exact fun _ => .fail
  | fuel + 1, depth => by
      rw [value]
      refine fun ahead => gives_next .fail fun gap first rest hgap hahead => ?_
      split
      next hnone => cases hnone
      next hopen =>
          cases hopen
          refine .bind (gives_enter.mono ?_)
          rintro depth _ rfl
          refine (reads_items fuel depth 0).andThen ?_
          rintro items text after ⟨texts, htext, hitems⟩ hrest
          refine .pure ⟨gap ++ '[' :: text, ?_, gap, _, hgap, rfl, .array htext hitems⟩
          simp [hahead, hrest]
      next hopen =>
          cases hopen
          refine .bind (gives_enter.mono ?_)
          rintro depth _ rfl
          refine (reads_members fuel depth true).andThen ?_
          rintro members text after ⟨texts, htext, hnames, hmembers⟩ hrest
          refine .pure ⟨gap ++ '\x7b' :: text, ?_, gap, _, hgap, rfl, .object htext hnames hmembers⟩
          simp [hahead, hrest]
      next hfirst =>
          cases hfirst
          refine (gives_scalar fuel).mono ?_
          rintro value after ⟨text, hrest, htext⟩
          exact ⟨gap ++ text, by simp [hahead, hrest], gap, text, hgap, rfl, htext⟩

theorem reads_items : ∀ fuel depth index : Nat,
    Reads (items fuel depth index) fun values text => ∃ texts,
      ItemsText (index == 0) texts text ∧ List.Forall₂ Spelled values texts
  | 0, _, _ => by
      rw [items]
      exact fun _ => .fail
  | fuel + 1, depth, index => by
      rw [items]
      refine fun ahead => .bind ((gives_moreItems (index == 0)).mono ?_)
      rintro more rest ⟨lead, rfl, ⟨rfl, hlead⟩ | ⟨rfl, hgap, after, rfl⟩⟩
      · refine (reads_value fuel depth).within.andThen ?_
        rintro item _ rest ⟨gap, text, hgap, rfl, hitem⟩ rfl
        refine (reads_items fuel depth (index + 1)).andThen ?_
        rintro items more after ⟨texts, hmore, hitems⟩ rfl
        have htext : ItemsText (index == 0) (text :: texts) (lead ++ gap ++ text ++ more) :=
          .item (hlead.append hgap) hmore
        exact .pure ⟨_, by simp, text :: texts, htext, .cons hitem hitems⟩
      · exact .bind (.skip (.pure ⟨lead ++ [']'], by simp, [], .close hgap, .nil⟩))

theorem reads_members : ∀ (fuel depth : Nat) (first : Bool),
    Reads (members fuel depth first) fun members text => ∃ texts,
      MembersText first texts text ∧ Fields.names members = Fields.names texts ∧
        List.Forall₂ Spelled (members.map (·.2)) (texts.map (·.2))
  | 0, _, _ => by
      rw [members]
      exact fun _ => .fail
  | fuel + 1, depth, first => by
      rw [members]
      refine fun ahead => .bind (.within ((gives_moreMembers first).mono ?_))
      rintro more rest ⟨lead, rfl, ⟨rfl, hlead, rest, rfl⟩ | ⟨rfl, hgap, after, rfl⟩⟩
      · refine .bind (.within ((gives_stringLiteral fuel).mono ?_))
        rintro name rest ⟨quoted, hquoted, hname⟩
        refine reads_colon.andThen ?_
        rintro - _ rest ⟨before, hbefore, rfl⟩ rfl
        refine (reads_value fuel depth).within.andThen ?_
        rintro content _ rest ⟨gap, text, hgap, rfl, hcontent⟩ rfl
        refine (reads_members fuel depth false).andThen ?_
        rintro members more after ⟨texts, hmore, hnames, hmembers⟩ rfl
        have htext : MembersText first ((name, text) :: texts)
            (lead ++ quoted ++ before ++ ':' :: gap ++ text ++ more) :=
          .member hlead hname hbefore hgap hmore
        refine .pure ⟨_, by simp [hquoted], (name, text) :: texts, htext, ?_, ?_⟩
        · simpa using hnames
        · exact .cons hcontent hmembers
      · exact .bind (.skip (.pure ⟨lead ++ ['\x7d'], by simp, [], .close hgap, rfl, .nil⟩))

end

/-! ## What is skipped -/

theorem passes_next {proceed : Option Char → Reading α}
    (hend : Gives [] (proceed none) fun _ _ => False)
    (hnext : ∀ first rest, Gives (first :: rest) (proceed (some first)) fun _ after =>
      ∃ text, first :: rest = text ++ after ∧ True) : Passes (next >>= proceed) := by
  refine fun ahead => gives_next hend fun gap first rest _ hahead => ?_
  refine (hnext first rest).mono ?_
  rintro result after ⟨text, hrest, -⟩
  exact ⟨gap ++ text, by rw [hahead, hrest, List.append_assoc], trivial⟩

theorem passes_colon : Passes colon :=
  reads_colon.mono fun _ _ _ => trivial

theorem passes_numeral {fault : Fault} : Passes (numeral fault) := by
  refine fun ahead => gives_numeral.mono ?_
  rintro n rest ⟨text, hahead, -⟩
  exact ⟨text, hahead, trivial⟩

theorem passes_skipEscape : Passes skipEscape := by
  refine Passes.peek.bind fun first => ?_
  split
  · exact .fail
  · refine Passes.skip.bind fun _ => ?_
    refine passes_hexUnit.bind fun unit => ?_
    exact .pure
  · split
    · exact .skip
    · exact .failNext

theorem passes_skipRounds (fuel : Nat) : Passes (skipRounds fuel) := by
  induction fuel with
  | zero => exact .fail
  | succ fuel ih =>
      refine Passes.takeWhile.bind fun run => ?_
      refine Passes.peek.bind fun first => ?_
      split
      · exact .fail
      · exact .skip
      · refine Passes.skip.bind fun _ => ?_
        refine passes_skipEscape.bind fun _ => ?_
        exact ih
      · exact .fail

theorem passes_skipString (fuel : Nat) : Passes (skipString fuel) :=
  Passes.skip.bind fun _ => passes_skipRounds fuel

theorem gives_skipScalar (fuel : Nat) {first : Char} {rest : List Char} :
    Gives (first :: rest) (skipScalar fuel first) fun _ after =>
      ∃ text, first :: rest = text ++ after ∧ True := by
  unfold skipScalar
  split
  · exact passes_skipString fuel _
  · refine .bind (.skip (passes_numeral.andThen ?_))
    rintro n text after - hrest
    exact .pure ⟨'-' :: text, congrArg ('-' :: ·) hrest, trivial⟩
  · split
    · refine passes_numeral.andThen ?_
      rintro n text after - hahead
      exact .pure ⟨text, hahead, trivial⟩
    · refine .bind ((gives_scalar fuel).mono ?_)
      rintro value after ⟨text, hahead, -⟩
      exact .pure ⟨text, hahead, trivial⟩

mutual

theorem passes_skipValue : ∀ fuel : Nat, Passes (skipValue fuel)
  | 0 => by
      rw [skipValue]
      exact .fail
  | fuel + 1 => by
      rw [skipValue]
      refine passes_next .fail fun first rest => ?_
      split
      next hnone => cases hnone
      next =>
          have hitems := passes_skipItems fuel true
          exact Passes.skip.bind (fun _ => hitems) _
      next =>
          have hmembers := passes_skipMembers fuel true
          exact Passes.skip.bind (fun _ => hmembers) _
      next hfirst =>
          cases hfirst
          exact gives_skipScalar fuel

theorem passes_skipItems : ∀ (fuel : Nat) (first : Bool), Passes (skipItems fuel first)
  | 0, _ => by
      rw [skipItems]
      exact .fail
  | fuel + 1, first => by
      rw [skipItems]
      refine Passes.next.bind fun found => ?_
      split
      · exact .fail
      · exact .skip
      · split
        · refine (passes_skipValue fuel).bind fun _ => ?_
          exact passes_skipItems fuel false
        · split
          · refine Passes.skip.bind fun _ => ?_
            refine (passes_skipValue fuel).bind fun _ => ?_
            exact passes_skipItems fuel false
          · refine Passes.failNext.bind fun _ => ?_
            exact passes_skipItems fuel false

theorem passes_skipMembers : ∀ (fuel : Nat) (first : Bool), Passes (skipMembers fuel first)
  | 0, _ => by
      rw [skipMembers]
      exact .fail
  | fuel + 1, first => by
      rw [skipMembers]
      -- An entry is read alike with and without a comma before it.
      have hentry : Passes (do
          match ← next with
          | none => fail .endOfObject
          | some '"' => skipString fuel
          | some _ => failNext .keyNotString
          colon
          skipValue fuel
          skipMembers fuel false) := by
        have hrest : Passes (do
            colon
            skipValue fuel
            skipMembers fuel false) := by
          refine passes_colon.bind fun _ => ?_
          refine (passes_skipValue fuel).bind fun _ => ?_
          exact passes_skipMembers fuel false
        refine Passes.next.bind fun found => ?_
        dsimp only
        split
        · exact Passes.fail.bind fun _ => hrest
        · exact (passes_skipString fuel).bind fun _ => hrest
        · exact Passes.failNext.bind fun _ => hrest
      refine Passes.next.bind fun found => ?_
      dsimp only
      split
      · exact .fail
      · exact .skip
      · split
        · split
          · exact Passes.skip.bind fun _ => hentry
          · exact Passes.failNext.bind fun _ => hentry
        · exact hentry

end

end TypeGuard.Json

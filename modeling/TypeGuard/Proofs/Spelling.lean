import Mathlib.Data.List.TakeWhile
import TypeGuard.Json.Lexeme
import TypeGuard.Proofs.Results

/-!
# The text of a number

What a reading gives is told from the text ahead of it, step by step.  A number is read from
the text that spells it, and from no more.
-/

namespace TypeGuard.Json

namespace Reading

/-- A reading that succeeds where `ahead` is the text gives a result, and leaves a text, as
described. -/
def Gives {α : Type} (ahead : List Char) (reading : Reading α)
    (described : α → List Char → Prop) : Prop :=
  ∀ (cursor after : Cursor) (result : α), cursor.rest = ahead →
    reading cursor = .ok (result, after) → described result after.rest

namespace Gives

variable {α β : Type} {ahead : List Char}

theorem pure {value : α} {described : α → List Char → Prop} (h : described value ahead) :
    Gives ahead (pure value) described := by
  rintro cursor after result rfl hresult
  cases hresult
  exact h

theorem bind {first : Reading α} {next : α → Reading β} {described : β → List Char → Prop}
    (h : Gives ahead first fun value rest => Gives rest (next value) described) :
    Gives ahead (first >>= next) described := by
  intro cursor after result hcursor hresult
  obtain ⟨value, middle, hfirst, hnext⟩ := run_bind_eq_ok.mp hresult
  exact h _ _ _ hcursor hfirst _ _ _ rfl hnext

theorem mono {reading : Reading α} {described other : α → List Char → Prop}
    (h : Gives ahead reading described)
    (hother : ∀ value rest, described value rest → other value rest) :
    Gives ahead reading other :=
  fun _ _ _ hcursor hresult => hother _ _ (h _ _ _ hcursor hresult)

section

variable {described : α → List Char → Prop}

theorem failAt {position : Position} {fault : Fault} :
    Gives ahead (failAt position fault) described :=
  nofun

theorem fail {fault : Fault} : Gives ahead (fail fault) described :=
  nofun

theorem failNext {fault : Fault} : Gives ahead (failNext fault) described := by
  rintro ⟨rest, position⟩ after result rfl hresult
  cases rest <;> cases hresult

theorem within {segment : Segment} {reading : Reading α} (h : Gives ahead reading described) :
    Gives ahead (within segment reading) described := by
  intro cursor after result hcursor hresult
  unfold Reading.within at hresult
  split at hresult
  next heq =>
      cases hresult
      exact h _ _ _ hcursor heq
  next => cases hresult

end

theorem peek {described : Option Char → List Char → Prop} (h : described ahead.head? ahead) :
    Gives ahead peek described := by
  rintro cursor after result rfl hresult
  cases hresult
  exact h

theorem skip {described : Unit → List Char → Prop} (h : described () ahead.tail) :
    Gives ahead skip described := by
  rintro ⟨rest, position⟩ after result rfl hresult
  cases hresult
  cases rest <;> exact h

theorem takeWhile {p : Char → Bool} {described : List Char → List Char → Prop}
    (h : described (ahead.takeWhile p) (ahead.dropWhile p)) :
    Gives ahead (takeWhile p) described := by
  rintro cursor after result rfl hresult
  cases hresult
  exact h

end Gives

end Reading

open Reading

/-! ## Spellings -/

def IsDigits (digits : List Char) : Prop := digits ≠ [] ∧ ∀ c ∈ digits, c.isDigit

/-- The digits of a whole part, which starts with a zero only if it is zero. -/
def IsWhole (digits : List Char) : Prop :=
  IsDigits digits ∧ (digits.head? = some '0' → digits = ['0'])

inductive DecimalsText : Option (List Char) → List Char → Prop
  | absent : DecimalsText none []
  | present {digits : List Char} : IsDigits digits → DecimalsText (some digits) ('.' :: digits)

inductive ExponentText : Option (Bool × List Char) → List Char → Prop
  | absent : ExponentText none []
  | unsigned {mark : Char} {digits : List Char} : mark = 'e' ∨ mark = 'E' → IsDigits digits →
      ExponentText (some (false, digits)) (mark :: digits)
  | signed {mark sign : Char} {digits : List Char} : mark = 'e' ∨ mark = 'E' →
      sign = '+' ∨ sign = '-' → IsDigits digits →
      ExponentText (some (sign == '-', digits)) (mark :: sign :: digits)

inductive Numeral.Text : Numeral → List Char → Prop
  | mk {whole : List Char} {decimals? : Option (List Char)} {exponent? : Option (Bool × List Char)}
      {decimals exponent : List Char} :
      IsWhole whole → DecimalsText decimals? decimals → ExponentText exponent? exponent →
      Text ⟨whole, decimals?, exponent?⟩ (whole ++ decimals ++ exponent)

variable {ahead : List Char} {fault : Fault}

theorem isDigits_takeWhile (h : ahead.takeWhile Char.isDigit ≠ []) :
    IsDigits (ahead.takeWhile Char.isDigit) :=
  ⟨h, fun _ hc => List.mem_takeWhile_imp hc⟩

theorem gives_wholeDigits :
    Gives ahead (wholeDigits fault) fun digits rest => ahead = digits ++ rest ∧ IsWhole digits := by
  refine .bind (.peek ?_)
  match ahead with
  | [] => exact .fail
  | c :: rest =>
      by_cases hzero : c = '0'
      · subst hzero
        have hwhole : IsWhole ['0'] := ⟨⟨List.cons_ne_nil _ _, by simp⟩, fun _ => rfl⟩
        refine .bind (.skip (.bind (.peek ?_)))
        split
        · split
          · exact .failNext
          · exact .pure ⟨rfl, hwhole⟩
        · exact .pure ⟨rfl, hwhole⟩
      · by_cases hdigit : c.isDigit
        · have hdigits : IsDigits ((c :: rest).takeWhile Char.isDigit) :=
            isDigits_takeWhile (by simp [hdigit])
          simp only [List.head?_cons, hdigit, if_true]
          refine .takeWhile ⟨List.takeWhile_append_dropWhile.symm, hdigits, ?_⟩
          simp [hdigit, hzero]
        · simp only [List.head?_cons, hdigit]
          exact .failNext

theorem gives_digits {α : Type} {build : List Char → α} {described : α → List Char → Prop}
    (h : ∀ digits rest, ahead = digits ++ rest → IsDigits digits →
      described (build digits) rest) :
    Gives ahead (do
      let digits ← takeWhile Char.isDigit
      if digits.isEmpty then
        match ← peek with
        | none => fail fault
        | some _ => failNext .invalidNumber
      else return build digits) described := by
  refine .bind (.takeWhile ?_)
  split
  · refine .bind (.peek ?_)
    split
    · exact .fail
    · exact .failNext
  next hne =>
      exact .pure (h _ _ List.takeWhile_append_dropWhile.symm
        (isDigits_takeWhile (by simpa using hne)))

theorem gives_decimalDigits :
    Gives ahead (decimalDigits fault) fun decimals? rest =>
      ∃ text, ahead = text ++ rest ∧ DecimalsText decimals? text := by
  refine .bind (.peek ?_)
  split
  · exact .pure ⟨[], rfl, .absent⟩
  next hpoint =>
      have hahead : '.' :: ahead.tail = ahead := List.cons_head?_tail (by simpa using hpoint)
      refine .bind (.skip (gives_digits fun digits rest htail hdigits => ?_))
      exact ⟨'.' :: digits, by rw [← hahead, htail, List.cons_append], .present hdigits⟩

theorem gives_exponentDigits :
    Gives ahead (exponentDigits fault) fun exponent? rest =>
      ∃ text, ahead = text ++ rest ∧ ExponentText exponent? text := by
  refine .bind (.peek ?_)
  dsimp only
  split
  · exact .pure ⟨[], rfl, .absent⟩
  next hnone =>
      obtain ⟨mark, after, rfl, hmark⟩ :
          ∃ mark after, ahead = mark :: after ∧ (mark = 'e' ∨ mark = 'E') := by
        cases ahead with
        | nil => simp at hnone
        | cons mark after => exact ⟨mark, after, rfl, by simpa [or_iff_not_imp_left] using hnone⟩
      refine .bind (.skip (.bind (.peek ?_)))
      by_cases hsigned : (after.head? == some '+' || after.head? == some '-') = true
      · obtain ⟨sign, tail, rfl, hsign⟩ :
            ∃ sign tail, after = sign :: tail ∧ (sign = '+' ∨ sign = '-') := by
          cases after with
          | nil => simp at hsigned
          | cons sign tail => exact ⟨sign, tail, rfl, by simpa using hsigned⟩
        rw [List.tail_cons, if_pos hsigned]
        refine .bind (.skip (gives_digits fun digits rest htail hdigits => ?_))
        refine ⟨mark :: sign :: digits, by simpa using htail, ?_⟩
        have hbelow : ((sign :: tail).head? == some '-') = (sign == '-') := by simp
        rw [hbelow]
        exact .signed hmark hsign hdigits
      · rw [List.tail_cons, if_neg hsigned]
        refine gives_digits fun digits rest htail hdigits => ⟨mark :: digits, ?_, ?_⟩
        · simp [htail]
        · have hbelow : (after.head? == some '-') = false :=
            eq_false_of_ne_true fun h => hsigned (by rw [h, Bool.or_true])
          rw [hbelow]
          exact .unsigned hmark hdigits

theorem gives_numeral :
    Gives ahead (numeral fault) fun n rest => ∃ text, ahead = text ++ rest ∧ n.Text text := by
  refine .bind (gives_wholeDigits.mono ?_)
  rintro whole _ ⟨rfl, hwhole⟩
  refine .bind (gives_decimalDigits.mono ?_)
  rintro decimals? _ ⟨decimals, rfl, hdecimals⟩
  refine .bind (gives_exponentDigits.mono ?_)
  rintro exponent? rest ⟨exponent, rfl, hexponent⟩
  exact .pure ⟨_, by simp only [List.append_assoc], .mk hwhole hdecimals hexponent⟩

theorem gives_numberLiteral {negative : Bool} :
    Gives ahead (numberLiteral negative) fun number rest =>
      ∃ (n : Numeral) (text : List Char), ahead = text ++ rest ∧ n.Text text ∧
        n.value negative = .ok number := by
  refine .bind (gives_numeral.mono ?_)
  rintro n rest ⟨text, rfl, htext⟩
  split
  next hvalue => exact .pure ⟨n, text, rfl, htext, hvalue⟩
  next => exact .bind fun _ _ _ _ _ => .failAt

end TypeGuard.Json

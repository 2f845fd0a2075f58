import TypeGuard.Document.Lowering
import TypeGuard.Proofs.Numerals
import TypeGuard.Proofs.Documents

/-!
# Integer literals

An integer literal of 64 bits is taken with its value if a double has that value, and refused
otherwise.  An integer literal beyond 64 bits has become a double by then, and is taken with
whatever value that double has.
-/

namespace TypeGuard

open Json (Numeral)

structure LowersInteger (i : Int) (label : Label) (path : Path)
    (lowered : Except Problem TypeTree) : Prop where
  kept : Numeral.Fits i → Binary64.Representable i →
    ∃ x, lowered = .ok (.literal label (.number x)) ∧ x.value? = some (i : ℚ)
  refused : Numeral.Fits i → ¬ Binary64.Representable i →
    lowered = .error (.unsupportedLiteral path (toString i))
  rounded : ¬ Numeral.Fits i →
    ∃ x value, lowered = .ok (.literal label (.number x)) ∧ x.value? = some value ∧
      (value = i → Binary64.Representable i) ∧
      (x.sameValue (Binary64.ofInt i) → Binary64.Representable i → value = i)

namespace TypeTree

@[simp] theorem ofSpecAt_double (path : Path) (label : SpecLabel) (x : Binary64) :
    ofSpecAt path (.literal label (.number (.double x))) =
      .ok (.literal (labelOf label) (.number x)) :=
  rfl

theorem ofSpecAt_integer (path : Path) (label : SpecLabel) {i : Int}
    (h : Binary64.Representable i) :
    ofSpecAt path (.literal label (.number (.integer i))) =
      .ok (.literal (labelOf label) (.number (Binary64.ofInt i))) := by
  have hint : (Binary64.ofInt i).toInt? = some i :=
    Binary64.toInt?_eq_some_iff.mpr (Binary64.representable_iff.mp h)
  simp only [ofSpecAt, literalOf, Literal.ofJson?, if_pos hint]
  rfl

theorem ofSpecAt_inexact (path : Path) (label : SpecLabel) {i : Int}
    (h : ¬ Binary64.Representable i) :
    ofSpecAt path (.literal label (.number (.integer i))) =
      .error (.unsupportedLiteral path (toString i)) := by
  have hint : (Binary64.ofInt i).toInt? ≠ some i := fun hint =>
    h (Binary64.representable_iff.mpr (Binary64.toInt?_eq_some_iff.mp hint))
  simp only [ofSpecAt, literalOf, Literal.ofJson?, if_neg hint]
  rfl

theorem lowersInteger_ofSpecAt (path : Path) (label : SpecLabel) {n : Numeral} {negative : Bool}
    {number : Json.Number} (h : n.IsInteger) (hvalue : n.value negative = .ok number) :
    LowersInteger (n.integer negative) (labelOf label) path
      (ofSpecAt path (.literal label (.number number))) := by
  obtain ⟨hfits, hbeyond⟩ := Numeral.value_integer h hvalue
  generalize n.integer negative = i at hfits hbeyond
  refine ⟨fun hi hrepresentable => ?_, fun hi hrepresentable => ?_, fun hi => ?_⟩
  · obtain rfl | ⟨rfl, rfl⟩ := hfits hi
    · exact ⟨_, ofSpecAt_integer path label hrepresentable,
        Binary64.representable_iff.mp hrepresentable⟩
    · exact ⟨_, ofSpecAt_double path label _, by norm_num [Binary64.zero, Binary64.value?]⟩
  · obtain rfl | ⟨rfl, -⟩ := hfits hi
    · exact ofSpecAt_inexact path label hrepresentable
    · exact absurd ⟨Binary64.zero false, by norm_num [Binary64.zero, Binary64.value?]⟩
        hrepresentable
  · obtain ⟨x, rfl, hfinite⟩ := hbeyond hi
    obtain ⟨value, hx⟩ := Option.isSome_iff_exists.mp hfinite
    refine ⟨x, value, ofSpecAt_double path label x, hx, ?_, ?_⟩
    · rintro rfl
      exact ⟨x, hx⟩
    · intro hnearest hrepresentable
      rw [Binary64.value?_congr hnearest, Binary64.representable_iff.mp hrepresentable] at hx
      exact (Option.some.inj hx).symm

end TypeTree

/-! ## Integer tokens -/

namespace Json

theorem Numeral.Text.exists_digit {n : Numeral} {text : List Char} (h : n.Text text) :
    ∃ c rest, text = c :: rest ∧ c.isDigit := by
  cases h with
  | @mk whole _ _ decimals exponent hwhole _ _ =>
      obtain ⟨c, rest, rfl⟩ := List.exists_cons_of_ne_nil hwhole.1.1
      exact ⟨c, _, rfl, hwhole.1.2 c List.mem_cons_self⟩

theorem Numeral.Text.eq_of_digits {n : Numeral} {text : List Char} (h : n.Text text)
    (hdigits : ∀ c ∈ text, c.isDigit) : n = ⟨text, none, none⟩ := by
  cases h with
  | @mk whole _ _ decimals exponent _ hdecimals hexponent =>
      simp only [List.forall_mem_append] at hdigits
      obtain ⟨⟨-, hpoint⟩, hmark⟩ := hdigits
      cases hdecimals with
      | present => exact absurd (hpoint '.' List.mem_cons_self) (by decide)
      | absent =>
          cases hexponent with
          | absent => simp
          | unsigned hletter =>
              have hdigit := hmark _ List.mem_cons_self
              rcases hletter with rfl | rfl <;> exact absurd hdigit (by decide)
          | signed hletter =>
              have hdigit := hmark _ List.mem_cons_self
              rcases hletter with rfl | rfl <;> exact absurd hdigit (by decide)

theorem Numeral.IsInteger.digits {n : Numeral} {text : List Char} (h : n.IsInteger)
    (htext : n.Text text) : ∀ c ∈ text, c.isDigit := by
  cases htext with
  | mk hwhole hdecimals hexponent =>
      obtain ⟨rfl, rfl⟩ := h
      cases hdecimals
      cases hexponent
      simpa using hwhole.1.2

theorem Numeral.SignedText.exists_first {n : Numeral} {negative : Bool} {text : List Char}
    (h : n.SignedText negative text) : ∃ c rest, text = c :: rest ∧ (c = '-' ∨ c.isDigit) := by
  obtain ⟨digits, hdigits, rfl⟩ := h
  cases negative with
  | true => exact ⟨'-', digits, rfl, .inl rfl⟩
  | false =>
      obtain ⟨c, rest, htext, hc⟩ := hdigits.exists_digit
      exact ⟨c, rest, htext, .inr hc⟩

/-- An integer token can be read in one way only. -/
theorem Numeral.IsInteger.eq_of_signedText {n m : Numeral} {negative negative' : Bool}
    {text : List Char} (h : n.IsInteger) (hn : n.SignedText negative text)
    (hm : m.SignedText negative' text) : m = n ∧ negative' = negative := by
  obtain ⟨digits, hdigits, rfl⟩ := hn
  obtain ⟨digits', hdigits', heq⟩ := hm
  obtain ⟨c, rest, hfirst, hc⟩ := hdigits.exists_digit
  obtain ⟨c', rest', hfirst', hc'⟩ := hdigits'.exists_digit
  have hne : c ≠ '-' := by
    rintro rfl
    exact absurd hc (by decide)
  have hne' : c' ≠ '-' := by
    rintro rfl
    exact absurd hc' (by decide)
  have hsame : digits = digits' ∧ negative' = negative := by
    cases negative <;> cases negative' <;> grind
  obtain ⟨rfl, rfl⟩ := hsame
  have hall := h.digits hdigits
  exact ⟨(hdigits'.eq_of_digits hall).trans (hdigits.eq_of_digits hall).symm, rfl⟩

theorem Spelled.exists_number {value : Json} {c : Char} {text rest : List Char}
    (h : value.Spelled text) (htext : text = c :: rest) (hc : c = '-' ∨ c.isDigit) :
    ∃ number, value = .number number ∧ number.Text text := by
  cases h with
  | number hnumber => exact ⟨_, rfl, hnumber⟩
  | null =>
      obtain ⟨rfl, -⟩ := List.cons.inj htext
      exact absurd hc (by decide)
  | @bool b =>
      cases b <;>
        (obtain ⟨rfl, -⟩ := List.cons.inj htext
         exact absurd hc (by decide))
  | string hquoted =>
      obtain ⟨fuel, characters, body, -, -, rfl⟩ := hquoted
      obtain ⟨rfl, -⟩ := List.cons.inj htext
      exact absurd hc (by decide)
  | array =>
      obtain ⟨rfl, -⟩ := List.cons.inj htext
      exact absurd hc (by decide)
  | object =>
      obtain ⟨rfl, -⟩ := List.cons.inj htext
      exact absurd hc (by decide)

theorem Spelled.eq_number {value : Json} {n : Numeral} {negative : Bool} {text : List Char}
    (h : value.Spelled text) (hinteger : n.IsInteger) (hn : n.SignedText negative text) :
    ∃ number, value = .number number ∧ n.value negative = .ok number := by
  obtain ⟨c, rest, htext, hc⟩ := hn.exists_first
  obtain ⟨number, rfl, m, negative', hm, hvalue⟩ := h.exists_number htext hc
  obtain ⟨rfl, rfl⟩ := hinteger.eq_of_signedText hn hm
  exact ⟨number, rfl, hvalue⟩

end Json

/-- A literal is what its own text spells, and if that text is an integer token, lowering
decides by that integer. -/
structure LowersAsWritten (label : SpecLabel) (value : Json) (text : List Char) : Prop where
  spelled : ∃ original : Json, original.Spelled text ∧ value = original.normal
  lowers : ∀ (n : Numeral) (negative : Bool), n.IsInteger → n.SignedText negative text →
    ∀ path, LowersInteger (n.integer negative) (TypeTree.labelOf label) path
      (TypeTree.ofSpecAt path (.literal label value))

theorem fitsSpelled_lowersAsWritten : Document.FitsSpelled LowersAsWritten := by
  intro label value text hspelled
  refine ⟨⟨value, hspelled, rfl⟩, fun n negative hinteger htext path => ?_⟩
  obtain ⟨number, rfl, hvalue⟩ := hspelled.eq_number hinteger htext
  exact TypeTree.lowersInteger_ofSpecAt path label hinteger hvalue

namespace TypeSpec

mutual

def numberLiterals : TypeSpec → List (SpecLabel × Json.Number)
  | .literal label (.number n) => [(label, n)]
  | .object _ attributes _ => attributesNumbers attributes
  | .union _ members => membersNumbers members
  | .array _ element => numberLiterals element
  | _ => []

def attributesNumbers : List (String × TypeSpec) → List (SpecLabel × Json.Number)
  | [] => []
  | (_, spec) :: rest => numberLiterals spec ++ attributesNumbers rest

def membersNumbers : List TypeSpec → List (SpecLabel × Json.Number)
  | [] => []
  | spec :: rest => numberLiterals spec ++ membersNumbers rest

end

end TypeSpec

namespace BatchDocument

def numberLiterals (document : BatchDocument) : List (SpecLabel × Json.Number) :=
  document.roots.flatMap TypeSpec.numberLiterals

def limitsText : String :=
  "\x7b\"roots\":[\x7b\"kind\":\"union\",\"alias\":\"Big\",\"members\":[" ++
    "\x7b\"kind\":\"literal\",\"value\":9007199254740992\x7d," ++
    "\x7b\"kind\":\"literal\",\"value\":-9007199254740993\x7d," ++
    "\x7b\"kind\":\"literal\",\"value\":18446744073709551617\x7d]\x7d]\x7d"

def pastLimit : Binary64 := .finite false 4503599627370496 12 (by decide)

def plainLabel : SpecLabel := ⟨none, false⟩

end BatchDocument

end TypeGuard

/-!
# Identifiers

An identifier starts with an ASCII letter or `_` and goes on with ASCII letters,
digits and `_`.  `Identifier.ofText` turns any text into one: every other
character becomes `_`, and a text that would then start with a digit, or is
empty, gets a leading `_`.
-/

namespace TypeGuard.Identifier

def isStart (c : Char) : Bool := c.isAlpha || c == '_'

def isPart (c : Char) : Bool := c.isAlphanum || c == '_'

def isValid (text : String) : Bool :=
  match text.toList with
  | [] => false
  | c :: rest => isStart c && rest.all isPart

def maskChar (c : Char) : Char := if isPart c then c else '_'

def ofText (text : String) : String :=
  match text.toList.map maskChar with
  | [] => "_"
  | c :: rest =>
      if isStart c then String.ofList (c :: rest) else String.ofList ('_' :: c :: rest)

@[simp] theorem isPart_maskChar (c : Char) : isPart (maskChar c) = true := by
  unfold maskChar
  split
  · assumption
  · decide

@[simp] theorem isValid_ofText (text : String) : isValid (ofText text) = true := by
  have hall : (text.toList.map maskChar).all isPart = true := by
    simp
  unfold ofText
  cases h : text.toList.map maskChar with
  | nil => decide
  | cons c rest =>
      rw [h, List.all_cons, Bool.and_eq_true] at hall
      by_cases hc : isStart c
      · simp [isValid, hc, hall.2]
      · simp only [hc, Bool.false_eq_true, if_false, isValid, String.toList_ofList,
          List.all_cons, hall.1, hall.2]
        decide

theorem isPart_of_isStart {c : Char} (h : isStart c = true) : isPart c = true := by
  rw [isStart, Bool.or_eq_true] at h
  rw [isPart, Bool.or_eq_true]
  exact h.imp_left fun halpha => by simp [Char.isAlphanum, halpha]

theorem all_isPart_of_isValid {text : String} (h : isValid text = true) :
    text.toList.all isPart = true := by
  unfold isValid at h
  split at h
  next => cases h
  next hchars =>
      rw [Bool.and_eq_true] at h
      rw [hchars, List.all_cons, isPart_of_isStart h.1, h.2]
      rfl

theorem isValid_append {text rest : String} (h : isValid text = true)
    (hrest : rest.toList.all isPart = true) : isValid (text ++ rest) = true := by
  unfold isValid at h ⊢
  rw [String.toList_append]
  split at h
  next => cases h
  next hchars =>
      rw [Bool.and_eq_true] at h
      simp only [hchars, List.cons_append, List.all_append, h.1, h.2, hrest, Bool.and_self]

end TypeGuard.Identifier

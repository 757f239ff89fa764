import ApiSurface.Proofs.LineEndings
import ApiSurface.Proofs.LiteralTexts
import Mathlib.Algebra.Order.BigOperators.Group.List
/-!
String literals and the texts that they denote. A literal is written as a row of elements, each of
which stands for UTF-16 code units. Every literal is scanned as one token, and the token has the
text that the literal denotes just if no element is one of three that are read as something else:
the escape of a surrogate, a null character behind a backslash, and a line that is continued behind
a line or paragraph separator.
-/
namespace ApiSurface

/-! ### Code units -/

/-- The UTF-16 code units of a code point. -/
def codeUnits (n : ℕ) : List ℕ :=
  if n < 0x10000 then [n] else [0xD800 + (n - 0x10000) / 0x400, 0xDC00 + (n - 0x10000) % 0x400]

/-- The UTF-16 code units of a text. -/
def textUnits (s : List Char) : List ℕ := s.flatMap fun c => codeUnits c.toNat

theorem codeUnits_toNat_inj {c c' : Char} {us us' : List ℕ}
    (h : codeUnits c.toNat ++ us = codeUnits c'.toNat ++ us') : c = c' ∧ us = us' := by
  have hc : c.toNat.isValidChar := c.valid
  have hc' : c'.toNat.isValidChar := c'.valid
  unfold Nat.isValidChar at hc hc'
  suffices hnat : c.toNat = c'.toNat by
    obtain rfl := Char.toNat_inj.mp hnat
    exact ⟨rfl, List.append_cancel_left h⟩
  unfold codeUnits at h
  -- the first unit shows whether there is a second one, as no character is a surrogate
  split_ifs at h
  all_goals
    simp only [List.cons_append, List.nil_append, List.cons.injEq] at h
    omega

/-- A text is determined by its code units. -/
theorem textUnits_injective : Function.Injective textUnits := by
  intro s s' h
  have hne (c : Char) (us : List ℕ) : codeUnits c.toNat ++ us ≠ [] := by
    unfold codeUnits
    split <;> simp
  induction s generalizing s' with
  | nil =>
    cases s' with
    | nil => rfl
    | cons c' s' => exact absurd h.symm (hne c' _)
  | cons c s ih =>
    cases s' with
    | nil => exact absurd h (hne c _)
    | cons c' s' =>
      obtain ⟨rfl, hrest⟩ := codeUnits_toNat_inj h
      rw [ih hrest]

/-! ### Literals -/

/-- An element of a string literal. -/
inductive StringElement where
  /-- A character that stands for itself. -/
  | plain (c : Char)
  /-- A backslash and a character: one of the letters for control characters, a zero, or a character
  that is meant as such. -/
  | escaped (c : Char)
  /-- The escape of a code unit of two digits in base sixteen. -/
  | hex (digits : List Char)
  /-- The escape of a code unit of four digits. -/
  | unit (digits : List Char)
  /-- The escape of a code point in braces. -/
  | codePoint (digits : List Char)
  /-- A line that is continued after its end. -/
  | continuation (lineEnd : List Char)
  deriving DecidableEq

namespace StringElement

/-- How an element is written. -/
def text : StringElement → List Char
  | plain c => [c]
  | escaped c => ['\\', c]
  | hex digits => '\\' :: 'x' :: digits
  | unit digits => '\\' :: 'u' :: digits
  | codePoint digits => '\\' :: 'u' :: '\x7b' :: (digits ++ ['\x7d'])
  | continuation lineEnd => '\\' :: lineEnd

/-- The character that a character behind a backslash stands for. -/
def escapedCharacter : Char → Char
  | 'n' => '\n'
  | 'r' => '\r'
  | 't' => '\t'
  | 'b' => '\x08'
  | 'f' => '\x0c'
  | 'v' => '\x0b'
  | '0' => '\x00'
  | c => c

/-- The code point that an element stands for; a continuation stands for none. -/
def code? : StringElement → Option ℕ
  | plain c => some c.toNat
  | escaped c => some (escapedCharacter c).toNat
  | hex digits | unit digits | codePoint digits => some (writtenNumber 16 digits)
  | continuation _ => none

/-- The code units that an element stands for. -/
def units (e : StringElement) : List ℕ := e.code?.elim [] codeUnits

/-- What ends a line. -/
def lineEnds : List (List Char) := [['\n'], ['\r'], ['\r', '\n'], ['\u2028'], ['\u2029']]

/-- Characters that mean something else behind a backslash, or nothing at all. -/
def reserved : List Char := "123456789xu\n\r\u2028\u2029".toList

/-- What can stand in a literal between certain quotes. -/
def IsValid (quote : Char) : StringElement → Prop
  | plain c => c ≠ quote ∧ c ≠ '\\' ∧ isLineEnd c = false
  | escaped c => c ∉ reserved
  | hex digits => digits.length = 2 ∧ ∀ d ∈ digits, IsDigitIn 16 d
  | unit digits => digits.length = 4 ∧ ∀ d ∈ digits, IsDigitIn 16 d
  | codePoint digits =>
    digits ≠ [] ∧ (∀ d ∈ digits, IsDigitIn 16 d) ∧ writtenNumber 16 digits ≤ 0x10FFFF
  | continuation lineEnd => lineEnd ∈ lineEnds

instance (quote : Char) : (e : StringElement) → Decidable (e.IsValid quote)
  | plain _ => inferInstanceAs (Decidable (_ ∧ _ ∧ _))
  | escaped _ => inferInstanceAs (Decidable (¬ _))
  | hex _ | unit _ => inferInstanceAs (Decidable (_ ∧ _))
  | codePoint _ => inferInstanceAs (Decidable (_ ∧ _ ∧ _))
  | continuation _ => inferInstanceAs (Decidable (_ ∈ _))

end StringElement

/-- A row of elements as it is written. -/
def elementsText (es : List StringElement) : List Char := es.flatMap StringElement.text

/-- The elements between the quotes of a literal. A zero behind a backslash stands before no
digit. -/
inductive IsStringBody (quote : Char) : List StringElement → Prop
  | nil : IsStringBody quote []
  | cons {e : StringElement} {es : List StringElement} (he : e.IsValid quote)
      (hzero : e = .escaped '0' → ∀ c ∈ (elementsText es).head?, c.isDigit = false)
      (hes : IsStringBody quote es) : IsStringBody quote (e :: es)

/-- A literal that is written with some elements between two quotes. -/
def stringLiteral (quote : Char) (es : List StringElement) : List Char :=
  quote :: (elementsText es ++ [quote])

/-- A string literal that denotes a text: the code units of its elements are those of the text. -/
structure IsLiteralOf (quote : Char) (es : List StringElement) (s : List Char) : Prop where
  quoted : quote = '\'' ∨ quote = '"'
  body : IsStringBody quote es
  units : es.flatMap StringElement.units = textUnits s

/-! ### What is read -/

namespace StringElement

/-- The characters that are read from an element. -/
def read : StringElement → List Char
  | escaped '\x00' => []
  | continuation lineEnd => lineEnd.filter fun c => c == '\u2028' || c == '\u2029'
  | e => (e.code?.bind scalar?).toList

/-- Elements that are read as something else than they denote. -/
inductive Misread : StringElement → Prop
  /-- A code unit that is a part of a character. -/
  | surrogate {e : StringElement} {n : ℕ} (hn : e.code? = some n) (h : ¬ n.isValidChar) : Misread e
  /-- A null character. -/
  | null : Misread (escaped '\x00')
  /-- A continuation behind one of the line ends that no program text should have. -/
  | separator {c : Char} (h : c = '\u2028' ∨ c = '\u2029') : Misread (continuation [c])

theorem scalar?_toNat (c : Char) : scalar? c.toNat = some c := by
  have hc : c.toNat.isValidChar := c.valid
  rw [scalar?, if_pos hc, Char.ofNat_toNat]

theorem read_plain (c : Char) : (plain c).read = [c] :=
  congrArg Option.toList (scalar?_toNat c)

theorem read_escaped {c : Char} (hc : c ≠ '\x00') : (escaped c).read = [escapedCharacter c] := by
  unfold read
  split
  · next h => exact absurd (StringElement.escaped.inj h) hc
  · next h => cases h
  · exact congrArg Option.toList (scalar?_toNat _)

/-- One character behind a backslash. -/
theorem escape_read_escaped {c : Char} (hc : c ∉ reserved) (rest : List Char) :
    Escape.read (c :: rest) = ⟨(escaped c).read, 1⟩ := by
  by_cases hnull : c = '\x00'
  · subst hnull
    rfl
  rw [read_escaped hnull]
  have hother (d : Char) (hd : d ∈ reserved) : c ≠ d := fun h => hc (h ▸ hd)
  have hx := hother 'x' (by decide)
  have hu := hother 'u' (by decide)
  have hreturn := hother '\r' (by decide)
  have hfeed := hother '\n' (by decide)
  by_cases hletter : c ∈ "nrtbfv0".toList
  · simp only [String.reduceToList, List.mem_cons, List.not_mem_nil, or_false] at hletter
    rcases hletter with rfl | rfl | rfl | rfl | rfl | rfl | rfl <;> rfl
  · simp only [String.reduceToList, List.mem_cons, List.not_mem_nil, or_false, not_or] at hletter
    have hcharacter : escapedCharacter c = c := by
      unfold escapedCharacter
      split <;> simp_all only [not_true_eq_false, false_and, and_false]
    rw [hcharacter]
    clear hc hother hcharacter
    unfold Escape.read
    split <;> simp_all

/-- A number of a few digits is read as a code. -/
theorem hexCode?_digits {n : ℕ} {digits : List Char} (rest : List Char)
    (hlength : digits.length = n) (hpos : 0 < n) (hn : 16 ^ n ≤ Nat.pow 2 32)
    (hdigits : ∀ d ∈ digits, IsDigitIn 16 d) :
    hexCode? n (digits ++ rest) = some (writtenNumber 16 digits) := by
  subst hlength
  have hne : digits ≠ [] := List.ne_nil_of_length_pos hpos
  have hlt : writtenNumber 16 digits < Nat.pow 2 32 :=
    Nat.lt_of_lt_of_le (writtenNumber_lt (by decide) hdigits) hn
  rw [hexCode?, if_pos (by simp), List.take_left,
    unsignedValue?_eq (by decide) (by decide) hne hdigits, if_pos hlt]

theorem ne_brace_of_digit {d : Char} (hd : IsDigitIn 16 d) : d ≠ '\x7b' ∧ d ≠ '\x7d' :=
  ⟨fun h => absurd (h ▸ hd.1) (by decide), fun h => absurd (h ▸ hd.1) (by decide)⟩

/-- An element behind a backslash is read as an escape that takes all of it. -/
theorem escape_read {quote : Char} {e : StringElement} (he : e.IsValid quote)
    {taken rest : List Char} (htext : e.text = '\\' :: taken) (hplain : ∀ c, e ≠ plain c)
    (hrest : rest.head? ≠ some '\n') :
    Escape.read (taken ++ rest) = ⟨e.read, taken.length⟩ := by
  cases e with
  | plain c => exact absurd rfl (hplain c)
  | escaped c =>
    obtain rfl : [c] = taken := (List.cons.inj htext).2
    exact escape_read_escaped he rest
  | hex digits =>
    obtain rfl : 'x' :: digits = taken := (List.cons.inj htext).2
    obtain ⟨hlength, hdigits⟩ := he
    have hcode := hexCode?_digits rest hlength (by decide) (by decide) hdigits
    have hlt := writtenNumber_lt (by decide) hdigits
    rw [hlength] at hlt
    have hscalar :
        scalar? (writtenNumber 16 digits) = some (Char.ofNat (writtenNumber 16 digits)) :=
      if_pos (Or.inl (Nat.lt_trans hlt (by decide)))
    have hread : (hex digits).read = [Char.ofNat (writtenNumber 16 digits)] :=
      congrArg Option.toList hscalar
    rw [List.cons_append, Escape.read_hex, hcode, Option.bind_some, hscalar, List.length_cons,
      hlength, hread]
    rfl
  | unit digits =>
    obtain rfl : 'u' :: digits = taken := (List.cons.inj htext).2
    obtain ⟨hlength, hdigits⟩ := he
    have hcode := hexCode?_digits rest hlength (by decide) (by decide) hdigits
    have hbrace : (digits ++ rest).head? ≠ some '\x7b' := by
      cases digits with
      | nil => cases hlength
      | cons d ds =>
        exact fun h => (ne_brace_of_digit (hdigits d List.mem_cons_self)).1 (Option.some.inj h)
    rw [List.cons_append, Escape.read_unicode hbrace, hcode, List.length_cons, hlength]
    rfl
  | codePoint digits =>
    obtain rfl : 'u' :: '\x7b' :: (digits ++ ['\x7d']) = taken := (List.cons.inj htext).2
    obtain ⟨hne, hdigits, hle⟩ := he
    have hinner : (digits ++ ['\x7d'] ++ rest).takeWhile (· != '\x7d') = digits := by
      rw [List.append_assoc, List.takeWhile_append_of_pos
        (fun d hd => bne_iff_ne.mpr (ne_brace_of_digit (hdigits d hd)).2)]
      simp
    have hlt : writtenNumber 16 digits < Nat.pow 2 32 := Nat.lt_of_le_of_lt hle (by decide)
    rw [List.cons_append, List.cons_append, Escape.read_braced, hinner, if_pos (by simp),
      unsignedValue?_eq (by decide) (by decide) hne hdigits, if_pos hlt]
    simp [read, code?]
  | continuation lineEnd =>
    obtain rfl : lineEnd = taken := (List.cons.inj htext).2
    simp only [IsValid, lineEnds, List.mem_cons, List.not_mem_nil, or_false] at he
    rcases he with rfl | rfl | rfl | rfl | rfl
    -- a carriage return would take a line feed behind it along
    on_goal 2 =>
      cases rest with
      | nil => rfl
      | cons c rest =>
        have hc : c ≠ '\n' := fun h => hrest (congrArg some h)
        simp [Escape.read, read, hc]
    all_goals rfl

/-- A string goes on behind an element, with what is read from the element in front. -/
theorem stringBody_text {quote : Char} (hquote : quote = '\'' ∨ quote = '"') {e : StringElement}
    (he : e.IsValid quote) {rest : List Char} (hrest : rest.head? ≠ some '\n') :
    stringBody quote 0 (e.text ++ rest) =
      { stringBody quote 0 rest with
        value := e.read ++ (stringBody quote 0 rest).value
        width := (stringBody quote 0 rest).width + byteLength e.text } := by
  have hslash : quote ≠ '\\' := by rcases hquote with rfl | rfl <;> decide
  by_cases hplain : ∃ c, e = plain c
  · obtain ⟨c, rfl⟩ := hplain
    obtain ⟨hclose, hescape, hline⟩ := he
    have hends : ¬ (c = '\n' ∨ c = '\r') := by simpa [isLineEnd] using hline
    show stringBody quote 0 (c :: rest) = _
    rw [stringBody, if_neg hclose, if_neg hends, if_neg hescape, read_plain]
    rfl
  · obtain ⟨taken, htext, hne⟩ : ∃ taken, e.text = '\\' :: taken ∧ taken ≠ [] := by
      cases e with
      | plain c => exact absurd ⟨c, rfl⟩ hplain
      | continuation lineEnd =>
        refine ⟨lineEnd, rfl, ?_⟩
        rintro rfl
        exact absurd he (show [] ∉ lineEnds by decide)
      | _ => exact ⟨_, rfl, List.cons_ne_nil _ _⟩
    have hread := escape_read he htext (fun c hc => hplain ⟨c, hc⟩) hrest
    rw [htext, List.cons_append, stringBody_escape hslash hne hread]

/-- No element begins with a line feed. -/
theorem head?_text {quote : Char} {e : StringElement} (he : e.IsValid quote) :
    ∃ c cs, e.text = c :: cs ∧ c ≠ '\n' := by
  cases e with
  | plain c =>
    refine ⟨c, [], rfl, ?_⟩
    rintro rfl
    exact absurd he.2.2 (by decide)
  | _ => exact ⟨_, _, rfl, by decide⟩

end StringElement

/-- A string with some elements is read up to its closing quote. -/
theorem stringBody_elements {quote : Char} (hquote : quote = '\'' ∨ quote = '"')
    {es : List StringElement} (hes : IsStringBody quote es) (after : List Char) :
    stringBody quote 0 (elementsText es ++ quote :: after) =
      ⟨es.flatMap StringElement.read, byteLength (elementsText es) + 1, after, true⟩ := by
  have hfeed : quote ≠ '\n' := by rcases hquote with rfl | rfl <;> decide
  induction hes with
  | nil =>
    have hsize : quote.utf8Size = 1 := by rcases hquote with rfl | rfl <;> rfl
    show stringBody quote 0 (quote :: after) = _
    rw [stringBody, if_pos rfl, hsize]
    rfl
  | @cons e es he hzero hes ih =>
    have hhead : (elementsText es ++ quote :: after).head? ≠ some '\n' := by
      cases hes with
      | nil => exact fun h => hfeed (Option.some.inj h)
      | cons he' hzero' hes' =>
        obtain ⟨c, cs, htext, hc⟩ := StringElement.head?_text he'
        simp [elementsText, htext, hc]
    have htext : elementsText (e :: es) ++ quote :: after =
        e.text ++ (elementsText es ++ quote :: after) := by
      simp [elementsText]
    have hwidth : byteLength (elementsText (e :: es)) =
        byteLength e.text + byteLength (elementsText es) := by
      simp [elementsText]
    rw [htext, StringElement.stringBody_text hquote he hhead, ih, hwidth, List.flatMap_cons]
    dsimp only
    rw [Nat.add_right_comm, Nat.add_comm (byteLength e.text)]

/-! ### What is read and what is denoted -/

/-- Where two rows of lists make the same list, and the lists of one row never have more entries of
a kind, they have as many. -/
theorem countP_eq_of_flatMap_eq {α β : Type} {f g : α → List β} {l : List α} (p : β → Bool)
    (h : l.flatMap f = l.flatMap g) (hle : ∀ a ∈ l, (f a).countP p ≤ (g a).countP p) :
    ∀ a ∈ l, (f a).countP p = (g a).countP p := by
  intro a ha
  by_contra hne
  have hlt := List.sum_lt_sum (l := l) _ _ hle ⟨a, ha, Nat.lt_of_le_of_ne (hle a ha) hne⟩
  have htotal := congrArg (List.countP p) h
  rw [List.countP_flatMap, List.countP_flatMap] at htotal
  exact absurd htotal (Nat.ne_of_lt hlt)

namespace StringElement

variable {quote : Char} {e : StringElement} {n : ℕ}

theorem read_of_code (hn : e.code? = some n) (hnull : e ≠ escaped '\x00') :
    e.read = (scalar? n).toList := by
  cases e with
  | escaped c =>
    have hc : c ≠ '\x00' := fun h => hnull (congrArg escaped h)
    obtain rfl : (escapedCharacter c).toNat = n := Option.some.inj hn
    rw [read_escaped hc, scalar?_toNat]
    rfl
  | continuation lineEnd => cases hn
  | _ =>
    obtain rfl := Option.some.inj hn
    rfl

/-- What is read well has the code units that are denoted. -/
theorem textUnits_read (he : e.IsValid quote) (h : ¬ e.Misread) : textUnits e.read = e.units := by
  cases hcode : e.code? with
  | some n =>
    have hvalid : n.isValidChar := by
      by_contra hn
      exact h (.surrogate hcode hn)
    have hnull : e ≠ escaped '\x00' := by
      rintro rfl
      exact h .null
    have hnat : (Char.ofNat n).toNat = n := by
      rw [Char.ofNat, dif_pos hvalid]
      rfl
    rw [read_of_code hcode hnull, scalar?, if_pos hvalid, units, hcode]
    simp [textUnits, hnat]
  | none =>
    cases e with
    | continuation lineEnd =>
      simp only [IsValid, lineEnds, List.mem_cons, List.not_mem_nil, or_false] at he
      rcases he with rfl | rfl | rfl | rfl | rfl
      on_goal 4 => exact absurd (.separator (Or.inl rfl)) h
      on_goal 4 => exact absurd (.separator (Or.inr rfl)) h
      all_goals rfl
    | _ => cases hcode

/-- A unit that stands for a line or paragraph separator. -/
def isSeparatorUnit (n : ℕ) : Bool := n == 0x2028 || n == 0x2029

/-- A code point that is no character is one unit, no separator, and not read. -/
theorem units_of_surrogate (he : e.IsValid quote) (hn : e.code? = some n)
    (hsurrogate : ¬ n.isValidChar) :
    e.units = [n] ∧ e.read = [] ∧ isSeparatorUnit n = false := by
  have hle : n ≤ 0x10FFFF := by
    cases e with
    | plain c | escaped c =>
      obtain rfl := Option.some.inj hn
      exact absurd (Char.valid _) hsurrogate
    | hex digits | unit digits =>
      obtain rfl := Option.some.inj hn
      have hlt := writtenNumber_lt (by decide) he.2
      rw [he.1] at hlt
      omega
    | codePoint digits =>
      obtain rfl := Option.some.inj hn
      exact he.2.2
    | continuation lineEnd => cases hn
  have hscalar : scalar? n = none := if_neg hsurrogate
  simp only [Nat.isValidChar, not_or, not_and, not_lt] at hsurrogate
  have hnull : e ≠ escaped '\x00' := by
    rintro rfl
    obtain rfl : 0 = n := Option.some.inj hn
    omega
  refine ⟨?_, by rw [read_of_code hn hnull, hscalar]; rfl, ?_⟩
  · rw [units, hn]
    exact if_pos (by omega)
  · simp only [isSeparatorUnit, Bool.or_eq_false_iff, beq_eq_false_iff_ne]
    omega

/-- An element that is misread denotes no separator. -/
theorem countP_units_of_misread (he : e.IsValid quote) (h : e.Misread) :
    e.units.countP isSeparatorUnit = 0 := by
  cases h with
  | @surrogate _ n hn hsurrogate =>
    obtain ⟨hunits, -, hseparator⟩ := units_of_surrogate he hn hsurrogate
    rw [hunits, List.countP_singleton, hseparator]
    rfl
  | null => rfl
  | separator hc => rfl

/-- An element that is misread and stands for something is not read. -/
theorem read_of_misread (he : e.IsValid quote) (h : e.Misread) :
    (e.units.length = 1 ∧ e.read = []) ∨ (textUnits e.read).countP isSeparatorUnit = 1 := by
  cases h with
  | surrogate hn hsurrogate =>
    obtain ⟨hunits, hread, -⟩ := units_of_surrogate he hn hsurrogate
    exact Or.inl ⟨by rw [hunits]; rfl, hread⟩
  | null => exact Or.inl ⟨rfl, rfl⟩
  | separator hc => rcases hc with rfl | rfl <;> exact Or.inr rfl

end StringElement

open StringElement

variable {quote : Char} {es : List StringElement} {s : List Char}

theorem IsStringBody.valid (h : IsStringBody quote es) : ∀ e ∈ es, e.IsValid quote := by
  induction h with
  | nil => exact nofun
  | cons he hzero hes ih => exact List.forall_mem_cons.mpr ⟨he, ih⟩

theorem textUnits_flatMap (es : List StringElement) :
    textUnits (es.flatMap read) = es.flatMap fun e => textUnits e.read :=
  List.flatMap_assoc

/-- The text that a literal denotes is read from it just if no element is misread. -/
theorem IsLiteralOf.read_eq_iff (h : IsLiteralOf quote es s) :
    es.flatMap read = s ↔ ∀ e ∈ es, ¬ e.Misread := by
  have hvalid := h.body.valid
  constructor
  · intro hread
    have hunits : es.flatMap (fun e => textUnits e.read) = es.flatMap StringElement.units := by
      rw [← textUnits_flatMap, hread, h.units]
    have hsame {e : StringElement} (he : e ∈ es) (hgood : ¬ e.Misread) (p : ℕ → Bool) :
        (textUnits e.read).countP p = e.units.countP p := by
      rw [textUnits_read (hvalid e he) hgood]
    -- no element denotes more separators than are read from it, so none is read that is not denoted
    have hseparators : ∀ e ∈ es,
        e.units.countP isSeparatorUnit = (textUnits e.read).countP isSeparatorUnit := by
      apply countP_eq_of_flatMap_eq isSeparatorUnit hunits.symm
      intro e he
      by_cases hmisread : e.Misread
      · rw [countP_units_of_misread (hvalid e he) hmisread]
        exact Nat.zero_le _
      · exact Nat.le_of_eq (hsame he hmisread _).symm
    have hdropped : ∀ e ∈ es, e.Misread → e.units.length = 1 ∧ e.read = [] := by
      intro e he hmisread
      refine (read_of_misread (hvalid e he) hmisread).resolve_right fun hone => ?_
      have hnone := countP_units_of_misread (hvalid e he) hmisread
      rw [hseparators e he, hone] at hnone
      exact absurd hnone (by decide)
    -- so every other element is read with at most the units that it denotes, and none is missing
    have hcounts : ∀ e ∈ es,
        (textUnits e.read).countP (fun _ => true) = e.units.countP fun _ => true := by
      apply countP_eq_of_flatMap_eq (fun _ => true) hunits
      intro e he
      by_cases hmisread : e.Misread
      · rw [(hdropped e he hmisread).2]
        exact Nat.zero_le _
      · exact Nat.le_of_eq (hsame he hmisread _)
    intro e he hmisread
    obtain ⟨hone, hnone⟩ := hdropped e he hmisread
    have hcount := hcounts e he
    rw [hnone, List.countP_true, hone] at hcount
    cases hcount
  · intro hgood
    apply textUnits_injective
    rw [textUnits_flatMap, ← h.units]
    exact List.flatMap_congr fun e he => textUnits_read (hvalid e he) (hgood e he)

/-- What a literal is read as, wherever it stands. -/
theorem read_stringLiteral (pos : ℕ) (hquote : quote = '\'' ∨ quote = '"')
    (hes : IsStringBody quote es) (after : List Char) :
    Lexeme.read pos quote (elementsText es ++ quote :: after) =
      ⟨.string, es.flatMap read, byteLength (stringLiteral quote es), after, false, []⟩ := by
  have hstring : Lexeme.read pos quote (elementsText es ++ quote :: after) =
      Lexeme.string pos quote (elementsText es ++ quote :: after) := by
    rcases hquote with rfl | rfl <;> rfl
  have hsize : quote.utf8Size = 1 := by rcases hquote with rfl | rfl <;> rfl
  have hwidth : byteLength (stringLiteral quote es) = byteLength (elementsText es) + 1 + 1 := by
    simp only [stringLiteral, byteLength_cons, byteLength_append, byteLength_nil, hsize]
    omega
  rw [hstring, Lexeme.string, stringBody_elements hquote hes, hwidth]
  rfl

/-- Every string literal is scanned as one string token that covers just the literal, and no problem
is found, by itself and wherever it stands; and the token has the text that the literal denotes just
if no element of it is misread. -/
theorem stringLiteral_scanned (h : IsLiteralOf quote es s) :
    IsOneToken (stringLiteral quote es) .string (es.flatMap read) ∧
      (∀ (l : Lexer) (after : List Char), l.rest = stringLiteral quote es ++ after →
        l.scan = ⟨after,
          ⟨.string, ⟨l.pos, l.pos + byteLength (stringLiteral quote es)⟩,
            String.ofList (es.flatMap read), false, false⟩, l.comments, l.problems⟩) ∧
      (String.ofList (es.flatMap read) = String.ofList s ↔ ∀ e ∈ es, ¬ e.Misread) := by
  have hsolid : IsSolid quote := by rcases h.quoted with rfl | rfl <;> exact ⟨rfl, by decide⟩
  refine ⟨?_, fun l after hrest => ?_, ?_⟩
  · have hmark : quote ≠ '\uFEFF' := by rcases h.quoted with rfl | rfl <;> decide
    have hhash : quote ≠ '#' := by rcases h.quoted with rfl | rfl <;> decide
    exact isOneToken_of_read hsolid hmark hhash (by decide)
      (read_stringLiteral 0 h.quoted h.body [])
  · rw [stringLiteral, List.cons_append, List.append_assoc, List.singleton_append] at hrest
    rw [Lexer.scan_lexeme hrest hsolid (read_stringLiteral l.pos h.quoted h.body after)]
    rfl
  · rw [String.ofList_inj, h.read_eq_iff]

/-- Elements of all forms, with a character outside of the basic plane, a null character before a
continued line and a digit behind it. -/
def mixedElements : List StringElement :=
  [plain 'a', escaped 'n', escaped 'q', hex "4a".toList, unit "00E9".toList,
    codePoint "01f600".toList, escaped '0', continuation ['\r', '\n'], plain '7', escaped '"']

theorem mixedLiteral_scanned :
    IsLiteralOf '"' mixedElements "a\nqJé😀\x007\"".toList ∧
      IsOneToken (stringLiteral '"' mixedElements) .string "a\nqJé😀\x007\"".toList := by
  have hbody : IsStringBody '"' mixedElements := by
    unfold mixedElements
    repeat' first
      | exact .nil
      | refine .cons (by decide) (by simp [elementsText, StringElement.text]) ?_
  have hliteral : IsLiteralOf '"' mixedElements "a\nqJé😀\x007\"".toList :=
    ⟨Or.inr rfl, hbody, by decide⟩
  obtain ⟨htoken, -, -⟩ := stringLiteral_scanned hliteral
  have hread : mixedElements.flatMap read = "a\nqJé😀\x007\"".toList := by decide
  exact ⟨hliteral, hread ▸ htoken⟩

/-- A character that is written as the escapes of its two code units is not read. -/
theorem surrogatePair_misread :
    IsLiteralOf '\'' [unit "D83D".toList, unit "DE00".toList] "😀".toList ∧
      ¬ IsOneToken (stringLiteral '\'' [unit "D83D".toList, unit "DE00".toList]) .string
        "😀".toList := by
  refine ⟨⟨Or.inl rfl, ?_, by decide⟩, fun h => ?_⟩
  · exact .cons (by decide) nofun (.cons (by decide) nofun .nil)
  · have hvalue := congrArg (fun x => x.tokens.map (·.value)) h
    revert hvalue
    decide +kernel

end ApiSurface

import ApiSurface.Proofs.DefinedNumbers
import ApiSurface.Proofs.LineEndings
import ApiSurface.Proofs.LiteralTexts
/-!
Number literals in decimal digits and in base sixteen, eight and two. A literal is scanned as one
token unless there is a separator in its exponent, and its text has a value unless it is written in
another base than ten and does not fit 64 bits.
-/
namespace ApiSurface

/-! ### Literals -/

/-- A run of digits, in which single separators can stand between two digits. -/
inductive SeparatedDigits (radix : ℕ) : List Char → Prop
  | last {d : Char} (hd : IsDigitIn radix d) : SeparatedDigits radix [d]
  | next {d : Char} {ds : List Char} (hd : IsDigitIn radix d) (hds : SeparatedDigits radix ds) :
    SeparatedDigits radix (d :: ds)
  | separated {d : Char} {ds : List Char} (hd : IsDigitIn radix d)
    (hds : SeparatedDigits radix ds) : SeparatedDigits radix (d :: '_' :: ds)

/-- The exponent of a literal: its letter, perhaps a sign, and digits. -/
structure Exponent where
  mark : Char
  sign : List Char
  digits : List Char

/-- A number literal. -/
inductive NumberLiteral where
  /-- Digits in a base other than ten, which a letter names. -/
  | based (mark : Char) (digits : List Char)
  | decimal (whole : List Char) (fraction : Option (List Char)) (exponent : Option Exponent)

/-- The base that a letter names. -/
def radix? : Char → Option ℕ
  | 'x' | 'X' => some 16
  | 'o' | 'O' => some 8
  | 'b' | 'B' => some 2
  | _ => none

/-- What is kept of a literal: all but the separators. -/
def cooked (cs : List Char) : List Char := cs.filter (· != '_')

/-- How an exponent is written. -/
def Exponent.text (e : Exponent) : List Char := e.mark :: (e.sign ++ e.digits)

/-- An exponent that can be written. -/
structure Exponent.IsValid (e : Exponent) : Prop where
  mark : e.mark = 'e' ∨ e.mark = 'E'
  sign : e.sign = [] ∨ e.sign = ['+'] ∨ e.sign = ['-']
  digits : SeparatedDigits 10 e.digits

def exponentText (exponent : Option Exponent) : List Char := exponent.elim [] Exponent.text

namespace NumberLiteral

/-- How a literal is written. -/
def text : NumberLiteral → List Char
  | based mark digits => '0' :: mark :: digits
  | decimal whole fraction exponent => whole ++ fractionText fraction ++ exponentText exponent

/-- The literals of the language. There are digits before the point or behind it. Zeros in front of
other digits, which old programs have, are not excluded. -/
def IsValid : NumberLiteral → Prop
  | based mark digits => ∃ radix, radix? mark = some radix ∧ SeparatedDigits radix digits
  | decimal whole fraction exponent =>
    (whole = [] ∨ SeparatedDigits 10 whole) ∧
      (∀ ds ∈ fraction, ds = [] ∨ SeparatedDigits 10 ds) ∧
      (whole = [] → ∃ ds ∈ fraction, ds ≠ []) ∧ ∀ e ∈ exponent, e.IsValid

/-- The number that the digits of a literal in another base than ten write. -/
def basedNumber? : NumberLiteral → Option ℕ
  | based mark digits => (radix? mark).map fun radix => writtenNumber radix (cooked digits)
  | decimal _ _ _ => none

/-- What follows a literal begins no name and is no digit, and no point that would belong to it. -/
def EndsBefore (x : NumberLiteral) (after : List Char) : Prop :=
  ∀ c ∈ after.head?, continuesName c = false ∧ (c = '.' → ∀ whole, x ≠ decimal whole none none)

/-- A literal without separators in its exponent. -/
def IsWhole : NumberLiteral → Prop
  | based _ _ => True
  | decimal _ _ exponent => ∀ e ∈ exponent, '_' ∉ e.digits

end NumberLiteral

/-! ### Digits and separators -/

variable {radix : ℕ} {ds rest : List Char} {c : Char}

namespace SeparatedDigits

theorem mem (h : SeparatedDigits radix ds) (hc : c ∈ ds) : IsDigitIn radix c ∨ c = '_' := by
  induction h with
  | last hd => exact Or.inl (List.mem_singleton.mp hc ▸ hd)
  | next hd _ ih =>
    rcases List.mem_cons.mp hc with rfl | hc
    · exact Or.inl hd
    · exact ih hc
  | separated hd _ ih =>
    rcases List.mem_cons.mp hc with rfl | hc
    · exact Or.inl hd
    rcases List.mem_cons.mp hc with rfl | hc
    · exact Or.inr rfl
    · exact ih hc

/-- A run begins with a digit. -/
theorem exists_head (h : SeparatedDigits radix ds) :
    ∃ d more, ds = d :: more ∧ IsDigitIn radix d := by
  cases h with
  | last hd | next hd _ | separated hd _ => exact ⟨_, _, rfl, hd⟩

theorem ne_underscore (h : IsDigitIn radix c) : c ≠ '_' := by
  rintro rfl
  exact absurd h.1 (by decide)

/-- The digits of a run, without its separators. -/
theorem cooked (h : SeparatedDigits radix ds) :
    cooked ds ≠ [] ∧ ∀ d ∈ cooked ds, IsDigitIn radix d := by
  constructor
  · obtain ⟨d, more, rfl, hd⟩ := h.exists_head
    have hkept : ApiSurface.cooked (d :: more) = d :: ApiSurface.cooked more :=
      List.filter_cons_of_pos (bne_iff_ne.mpr (ne_underscore hd))
    rw [hkept]
    exact List.cons_ne_nil _ _
  · intro d hd
    obtain ⟨hmem, hne⟩ := List.mem_filter.mp hd
    exact (h.mem hmem).resolve_right (bne_iff_ne.mp hne)

end SeparatedDigits

theorem IsDigitIn.isDigit (h : IsDigitIn 10 c) : c.isDigit = true := by
  have hall : ∀ d ∈ digitCharacters, digitOf d < 10 → d.isDigit = true := by decide
  exact hall c h.1 h.2

/-- Digits in lower case write the same. -/
theorem IsDigitIn.toLower (h : IsDigitIn radix c) :
    IsDigitIn radix c.toLower ∧ digitOf c.toLower = digitOf c := by
  have hall : ∀ d ∈ digitCharacters,
      d.toLower ∈ digitCharacters ∧ digitOf d.toLower = digitOf d := by decide
  obtain ⟨hmem, hvalue⟩ := hall c h.1
  exact ⟨⟨hmem, hvalue ▸ h.2⟩, hvalue⟩

theorem isHexDigit_of_isDigitIn (hradix : radix ≤ 16) (h : IsDigitIn radix c) :
    isHexDigit c = true := by
  rw [isHexDigit, (h.mono hradix).value]
  rfl

/-- Digits of all bases can stand in names. -/
theorem continuesName_of_isHexDigit (h : isHexDigit c = true) : continuesName c = true := by
  have hrange : 48 ≤ c.toNat ∧ c.toNat ≤ 57 ∨ 97 ≤ c.toNat ∧ c.toNat ≤ 102 ∨
      65 ≤ c.toNat ∧ c.toNat ≤ 70 := by
    unfold isHexDigit digitValue? at h
    dsimp only at h
    split_ifs at h with hdigit hlower hupper
    · exact Or.inl hdigit
    · exact Or.inr (Or.inl hlower)
    · exact Or.inr (Or.inr hupper)
    · cases h
  have halpha (h : 97 ≤ c.toNat ∧ c.toNat ≤ 102 ∨ 65 ≤ c.toNat ∧ c.toNat ≤ 70) :
      c.isAlpha = true := by
    show (decide ('A'.val ≤ c.val ∧ c.val ≤ 'Z'.val) ||
      decide ('a'.val ≤ c.val) && decide (c.val ≤ 'z'.val)) = true
    simp only [Bool.or_eq_true, Bool.and_eq_true, decide_eq_true_eq, UInt32.le_iff_toNat_le]
    show (65 ≤ c.toNat ∧ c.toNat ≤ 90) ∨ (97 ≤ c.toNat ∧ c.toNat ≤ 122)
    omega
  rcases hrange with hdigit | hletter
  · rw [continuesName, Char.isDigit_iff_toNat.mpr hdigit, Bool.or_true]
  · rw [continuesName, startsName, halpha hletter]
    rfl

theorem continuesName_of_isDecimal (h : isDecimal c = true) : continuesName c = true := by
  rcases Bool.or_eq_true_iff.mp h with hdigit | hunderscore
  · rw [continuesName, hdigit, Bool.or_true]
  · rw [beq_iff_eq.mp hunderscore]
    rfl

theorem isDecimal_of_isDigitIn (h : IsDigitIn 10 c ∨ c = '_') : isDecimal c = true := by
  rcases h with h | rfl
  · rw [isDecimal, h.isDigit, Bool.true_or]
  · rfl

/-! ### How far a literal is read -/

/-- The exponent up to its first separator. -/
def Exponent.cut (e : Exponent) : Exponent := { e with digits := e.digits.takeWhile Char.isDigit }

/-- The digits of an exponent from its first separator on. -/
def Exponent.excess (e : Exponent) : List Char := e.digits.dropWhile Char.isDigit

namespace NumberLiteral

/-- The literal without what follows a separator in its exponent. -/
def cut : NumberLiteral → NumberLiteral
  | based mark digits => based mark digits
  | decimal whole fraction exponent => decimal whole fraction (exponent.map Exponent.cut)

/-- The exponent from its first separator on. -/
def excess : NumberLiteral → List Char
  | based _ _ => []
  | decimal _ _ exponent => exponent.elim [] Exponent.excess

variable {x : NumberLiteral}

theorem text_cut (x : NumberLiteral) : x.text = x.cut.text ++ x.excess := by
  cases x with
  | based mark digits => exact (List.append_nil _).symm
  | decimal whole fraction exponent =>
    cases exponent with
    | none => exact (List.append_nil _).symm
    | some e =>
      have hdigits : e.digits = e.cut.digits ++ e.excess := List.takeWhile_append_dropWhile.symm
      have hexponent : e.text = e.cut.text ++ e.excess := by
        unfold Exponent.text
        rw [hdigits]
        simp [Exponent.cut]
      show whole ++ fractionText fraction ++ e.text =
        whole ++ fractionText fraction ++ e.cut.text ++ e.excess
      rw [hexponent, ← List.append_assoc]

end NumberLiteral

/-- What is left of an exponent begins with a separator. -/
theorem Exponent.IsValid.head?_excess {e : Exponent} (he : e.IsValid) :
    ∀ c ∈ e.excess.head?, c = '_' := by
  intro c hc
  have hnot := List.head?_dropWhile_not Char.isDigit e.digits
  have hmem : c ∈ e.digits :=
    (List.dropWhile_suffix Char.isDigit).mem (List.mem_of_mem_head? hc)
  refine (he.digits.mem hmem).resolve_left fun hdigit => ?_
  unfold excess at hc
  rw [Option.mem_def.mp hc] at hnot
  have hfalse : c.isDigit = false := hnot
  rw [hdigit.isDigit] at hfalse
  cases hfalse

theorem fractionPart_text {fraction : Option (List Char)}
    (hfraction : ∀ ds ∈ fraction, ∀ d ∈ ds, isDecimal d = true)
    (hrest : ∀ c ∈ rest.head?, isDecimal c = false ∧ (fraction = none → c ≠ '.')) :
    fractionPart (fractionText fraction ++ rest) = fractionText fraction := by
  cases fraction with
  | none =>
    cases rest with
    | nil => rfl
    | cons c rest => exact if_neg ((hrest c rfl).2 rfl)
  | some ds =>
    have hdigits := (takeWhile_stops (hfraction ds rfl) fun c hc => (hrest c hc).1).1
    show fractionPart ('.' :: (ds ++ rest)) = '.' :: ds
    rw [fractionPart, if_pos rfl, hdigits]

/-- What is read behind the letter of an exponent and its sign, if it has one. -/
theorem exponentPart_cons {mark : Char} (hmark : mark = 'e' ∨ mark = 'E') {sign cs : List Char}
    (hsign : sign = ['+'] ∨ sign = ['-'] ∨ sign = [] ∧ ∀ c ∈ cs.head?, c ≠ '+' ∧ c ≠ '-') :
    exponentPart (mark :: (sign ++ cs)) =
      if (cs.takeWhile Char.isDigit).isEmpty then []
      else mark :: (sign ++ cs.takeWhile Char.isDigit) := by
  unfold exponentPart
  dsimp only
  rw [if_pos hmark]
  rcases hsign with rfl | rfl | ⟨rfl, hcs⟩
  · rfl
  · rfl
  · cases cs with
    | nil => rfl
    | cons c cs =>
      obtain ⟨hplus, hminus⟩ := hcs c rfl
      simp [hplus, hminus]

theorem exponentPart_text {exponent : Option Exponent} (hexponent : ∀ e ∈ exponent, e.IsValid)
    (hrest : ∀ c ∈ rest.head?, continuesName c = false) :
    exponentPart (exponentText exponent ++ rest) = exponentText (exponent.map Exponent.cut) := by
  cases exponent with
  | none =>
    cases rest with
    | nil => rfl
    | cons c rest =>
      refine if_neg ?_
      rintro (rfl | rfl)
      · exact absurd (hrest 'e' rfl) (by decide)
      · exact absurd (hrest 'E' rfl) (by decide)
  | some e =>
    have he := hexponent e rfl
    obtain ⟨d, more, hhead, hd⟩ := he.digits.exists_head
    -- the digits end with the exponent or at its first separator
    have hcut : (e.digits ++ rest).takeWhile Char.isDigit = e.cut.digits := by
      have hsplit : e.digits ++ rest = e.cut.digits ++ (e.excess ++ rest) := by
        rw [← List.append_assoc]
        exact congrArg (· ++ rest) List.takeWhile_append_dropWhile.symm
      rw [hsplit]
      refine (takeWhile_stops (fun d hd => List.mem_takeWhile_imp hd) fun c hc => ?_).1
      cases hexcess : e.excess with
      | nil =>
        rw [hexcess, List.nil_append] at hc
        exact (Bool.or_eq_false_iff.mp (hrest c hc)).2
      | cons d more =>
        obtain rfl : d = c := by simpa [hexcess] using hc
        rw [he.head?_excess d (by rw [hexcess]; rfl)]
        rfl
    have hne : e.cut.digits.isEmpty = false := by
      simp [Exponent.cut, hhead, hd.isDigit]
    have hsign : e.sign = ['+'] ∨ e.sign = ['-'] ∨
        e.sign = [] ∧ ∀ c ∈ (e.digits ++ rest).head?, c ≠ '+' ∧ c ≠ '-' := by
      refine or_rotate.mp (he.sign.imp_left fun hnone => ⟨hnone, ?_⟩)
      intro c hc
      obtain rfl : d = c := by simpa [hhead] using hc
      constructor
      · rintro rfl
        exact absurd hd (by decide)
      · rintro rfl
        exact absurd hd (by decide)
    show exponentPart (e.mark :: (e.sign ++ e.digits ++ rest)) = e.mark :: (e.sign ++ e.cut.digits)
    rw [List.append_assoc, exponentPart_cons he.mark hsign, hcut, hne, if_neg Bool.false_ne_true]

theorem radix?_eq_some {mark : Char} (h : radix? mark = some radix) :
    (radix = 16 ∧ (mark = 'x' ∨ mark = 'X')) ∨ (radix = 8 ∧ (mark = 'o' ∨ mark = 'O')) ∨
      (radix = 2 ∧ (mark = 'b' ∨ mark = 'B')) := by
  unfold radix? at h
  split at h
  all_goals simp_all

/-- What comes behind the digits before and behind the point. -/
theorem head?_exponentText {exponent : Option Exponent} (hexponent : ∀ e ∈ exponent, e.IsValid)
    (hc : c ∈ (exponentText exponent ++ rest).head?) :
    c = 'e' ∨ c = 'E' ∨ exponent = none ∧ c ∈ rest.head? := by
  cases exponent with
  | none => exact Or.inr (Or.inr ⟨rfl, hc⟩)
  | some e =>
    obtain rfl : e.mark = c := Option.some.inj hc
    exact (hexponent e rfl).mark.imp_right Or.inl

namespace NumberLiteral

variable {x : NumberLiteral}

theorem numberPart_based {mark : Char} (hradix : radix? mark = some radix)
    (hdigits : SeparatedDigits radix ds) (hrest : ∀ c ∈ rest.head?, continuesName c = false) :
    numberPart ('0' :: mark :: (ds ++ rest)) = '0' :: mark :: ds := by
  have hcases := radix?_eq_some hradix
  have hmark : "xXoObB".toList.contains mark = true := by
    rcases hcases with ⟨-, rfl | rfl⟩ | ⟨-, rfl | rfl⟩ | ⟨-, rfl | rfl⟩ <;> rfl
  have hle : radix ≤ 16 := by omega
  have htake : (ds ++ rest).takeWhile (fun c => isHexDigit c || c == '_') = ds := by
    refine (takeWhile_stops (fun d hd => ?_) fun c hc => ?_).1
    · rcases hdigits.mem hd with hdigit | rfl
      · rw [isHexDigit_of_isDigitIn hle hdigit, Bool.true_or]
      · rfl
    · by_contra hin
      rw [Bool.not_eq_false, Bool.or_eq_true, beq_iff_eq] at hin
      have hname : continuesName c = true := by
        rcases hin with hin | rfl
        · exact continuesName_of_isHexDigit hin
        · rfl
      rw [hrest c hc] at hname
      cases hname
  unfold numberPart
  simp only [hmark, if_true]
  rw [htake]

/-- What ends a literal is no decimal digit. -/
theorem EndsBefore.isDecimal (h : x.EndsBefore rest) : ∀ c ∈ rest.head?, isDecimal c = false := by
  intro c hc
  by_contra hin
  rw [Bool.not_eq_false] at hin
  have hcontinues := continuesName_of_isDecimal hin
  rw [(h c hc).1] at hcontinues
  cases hcontinues

theorem isDecimal_of_separated (hds : ds = [] ∨ SeparatedDigits 10 ds) :
    ∀ d ∈ ds, isDecimal d = true := by
  intro d hd
  rcases hds with rfl | hds
  · cases hd
  · exact isDecimal_of_isDigitIn (hds.mem hd)

/-- No letter of another base stands behind a zero that a decimal literal begins with. -/
theorem not_based_decimal {whole : List Char} {fraction : Option (List Char)}
    {exponent : Option Exponent} (hwhole : ∀ d ∈ whole, isDecimal d = true)
    (hexponent : ∀ e ∈ exponent, e.IsValid) (hrest : ∀ c ∈ rest.head?, continuesName c = false)
    (hstop : ∀ c ∈ (fractionText fraction ++ (exponentText exponent ++ rest)).head?,
      isDecimal c = false) :
    ¬ ∃ r digits, whole ++ (fractionText fraction ++ (exponentText exponent ++ rest)) =
      '0' :: r :: digits ∧ "xXoObB".toList.contains r = true := by
  rintro ⟨r, digits, heq, hr⟩
  have hletter : ∀ c ∈ "xXoObB".toList,
      isDecimal c = false ∧ continuesName c = true ∧ c ∉ ['.', 'e', 'E'] := by decide
  obtain ⟨hnot, hcontinues, hother⟩ := hletter r (List.contains_iff_mem.mp hr)
  cases whole with
  | nil => exact absurd (hstop '0' (by rw [← List.nil_append (_ ++ _), heq]; rfl)) (by decide)
  | cons d whole =>
    obtain ⟨-, htail⟩ := List.cons.inj heq
    cases whole with
    -- the letter would be the point, that of an exponent, or what ends the literal
    | nil =>
      have hhead : r ∈ (fractionText fraction ++ (exponentText exponent ++ rest)).head? := by
        rw [show fractionText fraction ++ (exponentText exponent ++ rest) = r :: digits from htail]
        rfl
      rcases head?_fractionText hhead with rfl | ⟨-, hhead⟩
      · exact hother (by decide)
      · rcases head?_exponentText hexponent hhead with rfl | rfl | ⟨-, hafter⟩
        · exact hother (by decide)
        · exact hother (by decide)
        · rw [hrest r hafter] at hcontinues
          cases hcontinues
    | cons d' whole =>
      obtain ⟨rfl, -⟩ := List.cons.inj htail
      rw [hwhole d' (by simp)] at hnot
      cases hnot

theorem numberPart_decimal {whole : List Char} {fraction : Option (List Char)}
    {exponent : Option Exponent} (hx : (decimal whole fraction exponent).IsValid)
    (hrest : (decimal whole fraction exponent).EndsBefore rest) :
    numberPart (whole ++ (fractionText fraction ++ (exponentText exponent ++ rest))) =
      whole ++ fractionText fraction ++ exponentText (exponent.map Exponent.cut) := by
  obtain ⟨hwhole, hfraction, -, hexponent⟩ := hx
  have hname : ∀ c ∈ rest.head?, continuesName c = false := fun c hc => (hrest c hc).1
  have hpoint : ∀ c ∈ (exponentText exponent ++ rest).head?,
      isDecimal c = false ∧ (fraction = none → c ≠ '.') := by
    intro c hc
    rcases head?_exponentText hexponent hc with rfl | rfl | ⟨rfl, hc⟩
    · exact ⟨rfl, fun _ => by decide⟩
    · exact ⟨rfl, fun _ => by decide⟩
    · refine ⟨hrest.isDecimal c hc, ?_⟩
      rintro rfl hdot
      exact (hrest c hc).2 hdot whole rfl
  have hstop : ∀ c ∈ (fractionText fraction ++ (exponentText exponent ++ rest)).head?,
      isDecimal c = false := by
    intro c hc
    rcases head?_fractionText hc with rfl | ⟨-, hc⟩
    · rfl
    · exact (hpoint c hc).1
  have hdigits := isDecimal_of_separated hwhole
  have htake := (takeWhile_stops hdigits hstop).1
  have hbase := not_based_decimal hdigits hexponent hname hstop
  have hfractionPart :=
    fractionPart_text (fun ds hds => isDecimal_of_separated (hfraction ds hds)) hpoint
  rw [numberPart_of_decimal hbase, htake, List.drop_left, hfractionPart, ← List.append_assoc,
    List.drop_left, exponentPart_text hexponent hname]

/-- A literal is read up to its end, or up to a separator in its exponent. -/
theorem numberPart_text (hx : x.IsValid) (hend : x.EndsBefore rest) :
    numberPart (x.text ++ rest) = x.cut.text := by
  cases x with
  | based mark digits =>
    obtain ⟨radix, hradix, hdigits⟩ := hx
    exact numberPart_based hradix hdigits fun c hc => (hend c hc).1
  | decimal whole fraction exponent =>
    have hpart := numberPart_decimal hx hend
    simpa only [text, cut, List.append_assoc] using hpart

/-- What is left of a literal begins with a separator. -/
theorem head?_excess (hx : x.IsValid) : ∀ c ∈ x.excess.head?, c = '_' := by
  intro c hc
  cases x with
  | based mark digits => cases hc
  | decimal whole fraction exponent =>
    cases exponent with
    | none => cases hc
    | some e => exact (hx.2.2.2 e rfl).head?_excess c hc

theorem excess_eq_nil_iff (hx : x.IsValid) : x.excess = [] ↔ x.IsWhole := by
  cases x with
  | based mark digits => exact iff_of_true rfl trivial
  | decimal whole fraction exponent =>
    cases exponent with
    | none => exact iff_of_true rfl nofun
    | some e =>
      have he := hx.2.2.2 e rfl
      have hwhole : (decimal whole fraction (some e)).IsWhole ↔ '_' ∉ e.digits := by
        simp [IsWhole]
      have hexcess : (decimal whole fraction (some e)).excess = [] ↔
          ∀ d ∈ e.digits, d.isDigit = true := List.dropWhile_eq_nil_iff
      rw [hwhole, hexcess]
      constructor
      · intro h hmem
        exact absurd (h '_' hmem) (by decide)
      · intro h d hd
        refine ((he.digits.mem hd).resolve_right ?_).isDigit
        rintro rfl
        exact h hd

/-- A literal is read as a number, and what is left of it is left to be read. -/
theorem number_text (hx : x.IsValid) (hend : x.EndsBefore rest) :
    Lexeme.number (x.text ++ rest) =
      ⟨.number, cooked x.cut.text, byteLength x.cut.text, x.excess ++ rest, false, []⟩ := by
  have hdrop : (x.text ++ rest).drop x.cut.text.length = x.excess ++ rest := by
    have hsplit : x.text ++ rest = x.cut.text ++ (x.excess ++ rest) := by
      rw [← List.append_assoc, ← text_cut]
    rw [hsplit, List.drop_left]
  have hbig : (x.excess ++ rest).head? ≠ some 'n' := by
    intro hhead
    cases hexcess : x.excess with
    | nil =>
      rw [hexcess, List.nil_append] at hhead
      exact absurd (hend 'n' hhead).1 (by decide)
    | cons c more =>
      rw [hexcess] at hhead
      obtain rfl : c = 'n' := Option.some.inj hhead
      exact absurd (head?_excess hx 'n' (by rw [hexcess]; rfl)) (by decide)
  rw [Lexeme.number_eq, numberPart_text hx hend, hdrop, if_neg hbig]
  rfl

/-- What a literal begins with. -/
theorem exists_head (hx : x.IsValid) : ∃ c cs, x.text = c :: cs ∧
    (c.isDigit = true ∨ c = '.' ∧ ∃ d ∈ cs.head?, d.isDigit = true) := by
  cases x with
  | based mark digits => exact ⟨'0', mark :: digits, rfl, Or.inl rfl⟩
  | decimal whole fraction exponent =>
    obtain ⟨hwhole, hfraction, hnonempty, -⟩ := hx
    rcases hwhole with rfl | hwhole
    · obtain ⟨ds, rfl, hne⟩ := hnonempty rfl
      obtain ⟨d, more, rfl, hd⟩ := ((hfraction ds rfl).resolve_left hne).exists_head
      exact ⟨'.', d :: (more ++ exponentText exponent), rfl, Or.inr ⟨rfl, d, rfl, hd.isDigit⟩⟩
    · obtain ⟨d, more, rfl, hd⟩ := hwhole.exists_head
      exact ⟨d, more ++ fractionText fraction ++ exponentText exponent, rfl, Or.inl hd.isDigit⟩

end NumberLiteral

/-- A number begins with a digit, or with a point and a digit. -/
theorem read_number (pos : ℕ) {cs : List Char}
    (h : c.isDigit = true ∨ c = '.' ∧ ∃ d ∈ cs.head?, d.isDigit = true) :
    IsSolid c ∧ c ≠ '\uFEFF' ∧ c ≠ '#' ∧ Lexeme.read pos c cs = Lexeme.number (c :: cs) := by
  rcases h with hdigit | ⟨rfl, d, hd, hdigit⟩
  · have hne (d : Char) (hd : d.isDigit = false) : c ≠ d := by
      rintro rfl
      rw [hdigit] at hd
      cases hd
    refine ⟨⟨?_, ?_⟩, hne _ rfl, hne _ rfl, ?_⟩
    · exact Bool.or_eq_false_iff.mpr ⟨beq_false_of_ne (hne _ rfl), beq_false_of_ne (hne _ rfl)⟩
    · simp only [List.mem_cons, List.not_mem_nil, or_false, not_or]
      exact ⟨hne _ rfl, hne _ rfl, hne _ rfl, hne _ rfl, hne _ rfl⟩
    · unfold Lexeme.read
      split
      all_goals try exact absurd hdigit (by decide)
      exact if_pos hdigit
  · refine ⟨⟨rfl, by decide⟩, by decide, by decide, ?_⟩
    have hnext : cs.headD '\x00' = d := by
      rw [List.headD_eq_head?_getD, Option.mem_def.mp hd]
      rfl
    show (if (cs.headD '\x00').isDigit = true then Lexeme.number ('.' :: cs) else _) = _
    rw [hnext, if_pos hdigit]

/-! ### The value of a literal -/

theorem toLower_of_isDigit (h : c.isDigit = true) : c.toLower = c := by
  rw [Char.isDigit_iff_toNat] at h
  refine dif_neg fun hupper => ?_
  have hbound : 65 ≤ c.toNat := hupper.1
  have hle : c.toNat ≤ 57 := h.2
  omega

theorem cooked_append (xs ys : List Char) : cooked (xs ++ ys) = cooked xs ++ cooked ys :=
  List.filter_append xs ys

theorem cooked_cons (hc : c ≠ '_') (cs : List Char) : cooked (c :: cs) = c :: cooked cs :=
  List.filter_cons_of_pos (bne_iff_ne.mpr hc)

/-- What is kept of decimal digits. -/
theorem cooked_digits (h : ds = [] ∨ SeparatedDigits 10 ds) :
    (∀ d ∈ cooked ds, d.isDigit = true) ∧ (cooked ds).map Char.toLower = cooked ds ∧
      (cooked ds = [] → ds = []) := by
  have hdigits : ∀ d ∈ cooked ds, d.isDigit = true := by
    rcases h with rfl | h
    · exact nofun
    · exact fun d hd => (h.cooked.2 d hd).isDigit
  refine ⟨hdigits, ?_, ?_⟩
  · exact (List.map_congr_left fun d hd => toLower_of_isDigit (hdigits d hd)).trans (List.map_id _)
  · rcases h with rfl | h
    · exact id
    · exact fun hnil => absurd hnil h.cooked.1

namespace NumberLiteral

/-- The text of an exponent, without separators and in lower case. -/
theorem lower_exponent {exponent : Option Exponent} (hexponent : ∀ e ∈ exponent, e.IsValid) :
    (cooked (exponentText exponent)).map Char.toLower =
      exponent.elim [] fun e => 'e' :: (e.sign ++ cooked e.digits) := by
  cases exponent with
  | none => rfl
  | some e =>
    have he := hexponent e rfl
    obtain ⟨-, hdigits, -⟩ := cooked_digits (Or.inr he.digits)
    have hmark : e.mark ≠ '_' ∧ e.mark.toLower = 'e' := by
      rcases he.mark with h | h <;> rw [h] <;> exact ⟨by decide, rfl⟩
    have hsign : (cooked e.sign).map Char.toLower = e.sign := by
      rcases he.sign with h | h | h <;> rw [h] <;> rfl
    show (cooked (e.mark :: (e.sign ++ e.digits))).map Char.toLower =
      'e' :: (e.sign ++ cooked e.digits)
    rw [cooked_cons hmark.1, cooked_append, List.map_cons, List.map_append, hmark.2, hsign, hdigits]

/-- Such an exponent is none, or it is read as one. -/
theorem lower_exponent_reads {exponent : Option Exponent} (hexponent : ∀ e ∈ exponent, e.IsValid) :
    let tail := exponent.elim [] fun e => 'e' :: (e.sign ++ cooked e.digits)
    (tail = [] ∨ ∃ n cs, tail = 'e' :: cs ∧ exponent? cs = some n) ∧
      ∀ d ∈ tail, d.isDigit = true ∨ d ∈ ['e', '+', '-'] := by
  cases exponent with
  | none => exact ⟨Or.inl rfl, nofun⟩
  | some e =>
    have he := hexponent e rfl
    obtain ⟨hdigits, -, -⟩ := cooked_digits (Or.inr he.digits)
    obtain ⟨n, hn⟩ := exponent?_isSome he.sign he.digits.cooked.1 hdigits
    refine ⟨Or.inr ⟨n, _, rfl, hn⟩, List.forall_mem_cons.mpr ⟨Or.inr (by decide), ?_⟩⟩
    intro d hd
    rcases List.mem_append.mp hd with hd | hd
    · right
      rcases he.sign with h | h | h <;> rw [h] at hd <;> simp_all
    · exact Or.inl (hdigits d hd)

/-- The text of a decimal literal, without separators and in lower case. -/
theorem lower_decimal {whole : List Char} {fraction : Option (List Char)}
    {exponent : Option Exponent} (hx : (decimal whole fraction exponent).IsValid) :
    (cooked (decimal whole fraction exponent).text).map Char.toLower =
      cooked whole ++ (fractionText (fraction.map cooked) ++
        exponent.elim [] fun e => 'e' :: (e.sign ++ cooked e.digits)) := by
  obtain ⟨hwhole, hfraction, -, hexponent⟩ := hx
  have hpoint : (cooked (fractionText fraction)).map Char.toLower =
      fractionText (fraction.map cooked) := by
    cases fraction with
    | none => rfl
    | some ds =>
      show (cooked ('.' :: ds)).map Char.toLower = '.' :: cooked ds
      rw [cooked_cons (by decide), List.map_cons, (cooked_digits (hfraction ds rfl)).2.1]
      rfl
  show (cooked (whole ++ fractionText fraction ++ exponentText exponent)).map Char.toLower = _
  rw [cooked_append, cooked_append, List.map_append, List.map_append, (cooked_digits hwhole).2.1,
    hpoint, lower_exponent hexponent, List.append_assoc]

/-- No letter of another base is among digits with a point and an exponent. -/
theorem notMem_decimal {whole : List Char} {fraction : Option (List Char)} {exponent : List Char}
    (hwhole : ∀ d ∈ whole, d.isDigit = true)
    (hfraction : ∀ ds ∈ fraction, ∀ d ∈ ds, d.isDigit = true)
    (hexponent : ∀ d ∈ exponent, d.isDigit = true ∨ d ∈ ['e', '+', '-'])
    (hc : c ∈ ['x', 'o', 'b']) : c ∉ whole ++ (fractionText fraction ++ exponent) := by
  have hnot : ∀ c ∈ ['x', 'o', 'b'], c.isDigit ≠ true ∧ c ∉ ['e', '+', '-'] ∧ c ≠ '.' := by decide
  obtain ⟨hdigit, hsign, hpoint⟩ := hnot c hc
  intro hin
  rcases List.mem_append.mp hin with hin | hin
  · exact hdigit (hwhole c hin)
  rcases List.mem_append.mp hin with hin | hin
  · cases fraction with
    | none => cases hin
    | some ds =>
      rcases List.mem_cons.mp hin with h | hin
      · exact hpoint h
      · exact hdigit (hfraction ds rfl c hin)
  · exact (hexponent c hin).elim hdigit hsign

/-- A decimal literal has a number. -/
theorem isNaN_decimal {whole : List Char} {fraction : Option (List Char)}
    {exponent : Option Exponent} (hx : (decimal whole fraction exponent).IsValid) :
    (numericValue (String.ofList (cooked (decimal whole fraction exponent).text))).isNaN =
      false := by
  have hlower := lower_decimal hx
  obtain ⟨hwhole, hfraction, hnonempty, hexponent⟩ := hx
  obtain ⟨hwhole', -, hempty⟩ := cooked_digits hwhole
  have hfraction' : ∀ ds ∈ fraction.map cooked, ∀ d ∈ ds, d.isDigit = true := by
    intro ds hds
    obtain ⟨ds', hmem, rfl⟩ := Option.map_eq_some_iff.mp hds
    exact (cooked_digits (hfraction ds' hmem)).1
  have hnonempty' : cooked whole = [] → ∃ ds ∈ fraction.map cooked, ds ≠ [] := by
    intro hnil
    obtain ⟨ds, hds, hne⟩ := hnonempty (hempty hnil)
    refine ⟨cooked ds, Option.mem_map_of_mem cooked hds, ?_⟩
    exact fun h => hne ((cooked_digits (hfraction ds hds)).2.2 h)
  obtain ⟨hexponent', hcharacters⟩ := lower_exponent_reads hexponent
  generalize exponent.elim [] (fun e => 'e' :: (e.sign ++ cooked e.digits)) = tail
    at hlower hexponent' hcharacters
  obtain ⟨value, hvalue, hdefined⟩ :=
    isNaN_decimalNumber hwhole' hfraction' hnonempty' hexponent'
  have hbase (c : Char) (hc : c ∈ ['x', 'o', 'b']) (cs : List Char) :
      cooked whole ++ (fractionText (fraction.map cooked) ++ tail) ≠ '0' :: c :: cs := by
    intro h
    apply notMem_decimal hwhole' hfraction' hcharacters hc
    rw [h]
    exact List.mem_cons_of_mem _ List.mem_cons_self
  unfold numericValue
  rw [String.toList_ofList, hlower]
  dsimp only
  split
  · next h => exact absurd h (hbase 'x' (by decide) _)
  · next h => exact absurd h (hbase 'o' (by decide) _)
  · next h => exact absurd h (hbase 'b' (by decide) _)
  · rw [hvalue]
    exact hdefined

theorem writtenNumber_toLower (hds : ∀ d ∈ ds, IsDigitIn radix d) :
    writtenNumber radix (ds.map Char.toLower) = writtenNumber radix ds := by
  unfold writtenNumber
  rw [← List.map_reverse, List.map_map]
  refine congrArg _ (List.map_congr_left fun d hd => ?_)
  exact (hds d (List.mem_reverse.mp hd)).toLower.2

/-- A literal in another base has one if its digits fit. -/
theorem isNaN_based {mark : Char} (hradix : radix? mark = some radix)
    (hdigits : SeparatedDigits radix ds) :
    (numericValue (String.ofList (cooked (based mark ds).text))).isNaN = true ↔
      2 ^ 64 ≤ writtenNumber radix (cooked ds) := by
  obtain ⟨hne, hds⟩ := hdigits.cooked
  have hcases := radix?_eq_some hradix
  have hlower : ∀ d ∈ (cooked ds).map Char.toLower, IsDigitIn radix d := by
    intro d hd
    obtain ⟨d', hd', rfl⟩ := List.mem_map.mp hd
    exact (hds d' hd').toLower.1
  have hvalue : (((unsignedValue? radix (Nat.pow 2 64) ((cooked ds).map Char.toLower)).map
      (nearestDouble · 1)).getD undefinedNumber).isNaN = true ↔
      2 ^ 64 ≤ writtenNumber radix (cooked ds) := by
    rw [unsignedValue?_eq (by omega) (by decide) (by simpa using hne) hlower,
      writtenNumber_toLower hds]
    by_cases hlt : writtenNumber radix (cooked ds) < Nat.pow 2 64
    · rw [if_pos hlt]
      refine iff_of_false ?_ (Nat.not_le_of_lt hlt)
      rw [Option.map_some, Option.getD_some, isNaN_nearestDouble]
      exact Bool.false_ne_true
    · rw [if_neg hlt]
      exact iff_of_true isNaN_undefinedNumber (Nat.le_of_not_lt hlt)
  have hmark : mark ≠ '_' := by
    rintro rfl
    cases hradix
  unfold numericValue
  rw [String.toList_ofList, text, cooked_cons (by decide), cooked_cons hmark]
  rcases hcases with ⟨rfl, rfl | rfl⟩ | ⟨rfl, rfl | rfl⟩ | ⟨rfl, rfl | rfl⟩
  all_goals exact hvalue

end NumberLiteral

/-! ### Scanned literals -/

theorem SeparatedDigits.of_digits (hne : ds ≠ []) (hds : ∀ d ∈ ds, IsDigitIn radix d) :
    SeparatedDigits radix ds := by
  induction ds with
  | nil => exact absurd rfl hne
  | cons d ds ih =>
    obtain ⟨hd, hds⟩ := List.forall_mem_cons.mp hds
    cases ds with
    | nil => exact .last hd
    | cons d' ds => exact .next hd (ih (List.cons_ne_nil _ _) hds)

/-- What is read of an exponent is an exponent. -/
theorem Exponent.IsValid.cut {e : Exponent} (he : e.IsValid) : e.cut.IsValid := by
  refine ⟨he.mark, he.sign, SeparatedDigits.of_digits ?_ fun d hd => ?_⟩
  · obtain ⟨d, more, hdigits, hd⟩ := he.digits.exists_head
    simp [Exponent.cut, hdigits, hd.isDigit]
  · have hdigit : d.isDigit = true := List.mem_takeWhile_imp hd
    refine (he.digits.mem ((List.takeWhile_prefix _).mem hd)).resolve_right ?_
    rintro rfl
    cases hdigit

namespace NumberLiteral

variable {x : NumberLiteral}

/-- Nothing is cut off where there is no separator in the exponent. -/
theorem cut_eq (hx : x.IsValid) (h : x.IsWhole) : x.cut = x := by
  cases x with
  | based mark digits => rfl
  | decimal whole fraction exponent =>
    cases exponent with
    | none => rfl
    | some e =>
      have hdigits : e.digits.takeWhile Char.isDigit = e.digits := by
        rw [List.takeWhile_eq_self_iff]
        intro d hd
        refine (((hx.2.2.2 e rfl).digits.mem hd).resolve_right ?_).isDigit
        rintro rfl
        exact h e rfl hd
      show decimal whole fraction (some { e with digits := e.digits.takeWhile Char.isDigit }) = _
      rw [hdigits]

/-- What is read of a literal has a number, unless it is in another base and does not fit. -/
theorem isNaN_cut (hx : x.IsValid) :
    (numericValue (String.ofList (cooked x.cut.text))).isNaN = true ↔
      ∃ n ∈ x.basedNumber?, 2 ^ 64 ≤ n := by
  cases x with
  | based mark digits =>
    obtain ⟨radix, hradix, hdigits⟩ := hx
    refine (isNaN_based hradix hdigits).trans ?_
    simp [basedNumber?, hradix]
  | decimal whole fraction exponent =>
    have hcut : (decimal whole fraction (exponent.map Exponent.cut)).IsValid := by
      obtain ⟨hwhole, hfraction, hnonempty, hexponent⟩ := hx
      refine ⟨hwhole, hfraction, hnonempty, fun e he => ?_⟩
      obtain ⟨e', he', rfl⟩ := Option.map_eq_some_iff.mp he
      exact (hexponent e' he').cut
    refine iff_of_false ?_ nofun
    rw [show (decimal whole fraction exponent).cut =
      decimal whole fraction (exponent.map Exponent.cut) from rfl, isNaN_decimal hcut]
    exact Bool.false_ne_true

end NumberLiteral

open NumberLiteral

/-- A literal that something else than a name, a digit or its own point follows is scanned as a
number token, which covers all of it up to a separator in its exponent. -/
theorem NumberLiteral.scan {x : NumberLiteral} (hx : x.IsValid) {l : Lexer} {after : List Char}
    (hrest : l.rest = x.text ++ after) (hend : x.EndsBefore after) :
    l.scan = ⟨x.excess ++ after,
      ⟨.number, ⟨l.pos, l.pos + byteLength x.cut.text⟩, String.ofList (cooked x.cut.text), false,
        false⟩, l.comments, l.problems⟩ := by
  obtain ⟨c, cs, htext, hhead⟩ := exists_head hx
  have hhead' : c.isDigit = true ∨ c = '.' ∧ ∃ d ∈ (cs ++ after).head?, d.isDigit = true := by
    refine hhead.imp_right (And.imp_right ?_)
    rintro ⟨d, hd, hdigit⟩
    exact ⟨d, List.mem_head?_append_of_mem_head? hd, hdigit⟩
  obtain ⟨hsolid, -, -, hread⟩ := read_number l.pos hhead'
  have hnumber := number_text hx hend
  rw [htext, List.cons_append] at hrest hnumber
  rw [Lexer.scan_lexeme hrest hsolid (hread.trans hnumber)]
  rfl

/-- A literal is one token just if there is no separator in its exponent. -/
theorem NumberLiteral.isOneToken_iff {x : NumberLiteral} (hx : x.IsValid) :
    IsOneToken x.text .number (cooked x.text) ↔ x.IsWhole := by
  obtain ⟨c, cs, htext, hhead⟩ := exists_head hx
  obtain ⟨hsolid, hmark, hhash, hread⟩ := read_number 0 hhead
  have hend : x.EndsBefore [] := fun c hc => absurd hc (Option.not_mem_none c)
  constructor
  · intro hone
    rw [← excess_eq_nil_iff hx]
    by_contra hexcess
    -- the first token ends where the exponent is cut, which is before the end of the text
    have hfirst := head?_lex x.text
    have hstart := Lexer.ofText_cons hmark hhash cs
    rw [← htext] at hstart
    rw [hone, scan hx (l := Lexer.ofText x.text) (by rw [hstart, List.append_nil]) hend, hstart]
      at hfirst
    have hstop := congrArg (Option.map fun t => t.span.stop) hfirst
    have hbytes : byteLength x.text = byteLength x.cut.text := by simpa [Lexer.pos] using hstop
    have hlength := congrArg byteLength (text_cut x)
    have hpos := byteLength_pos hexcess
    rw [byteLength_append] at hlength
    omega
  · intro hwhole
    have hnumber := number_text hx hend
    rw [cut_eq hx hwhole, (excess_eq_nil_iff hx).mpr hwhole, List.append_nil, htext] at hnumber
    rw [htext]
    exact isOneToken_of_read hsolid hmark hhash (by decide) (hread.trans hnumber)

/-- Every number literal is scanned as a number token. The token covers the literal, and is all that
is read of it, just if there is no separator in the exponent; and the number of the token is
undefined just if the literal is written in another base than ten and does not fit 64 bits. -/
theorem numberLiteral_scanned {x : NumberLiteral} (hx : x.IsValid) :
    (IsOneToken x.text .number (cooked x.text) ↔ x.IsWhole) ∧
      ((numericValue (String.ofList (cooked x.cut.text))).isNaN = true ↔
        ∃ n ∈ x.basedNumber?, 2 ^ 64 ≤ n) ∧
      ∀ (l : Lexer) (after : List Char), l.rest = x.text ++ after → x.EndsBefore after →
        l.scan = ⟨x.excess ++ after,
          ⟨.number, ⟨l.pos, l.pos + byteLength x.cut.text⟩, String.ofList (cooked x.cut.text),
            false, false⟩, l.comments, l.problems⟩ :=
  ⟨isOneToken_iff hx, isNaN_cut hx, fun _ _ hrest hend => scan hx hrest hend⟩

/-- A literal with a separator, a fraction and an exponent. -/
def smallLiteral : NumberLiteral :=
  .decimal "1_0".toList (some "2_5".toList) (some ⟨'E', ['-'], "03".toList⟩)

theorem smallLiteral_scanned :
    smallLiteral.IsValid ∧ IsOneToken "1_0.2_5E-03".toList .number "10.25E-03".toList ∧
      (numericValue "10.25E-03").isNaN = false := by
  have hvalid : smallLiteral.IsValid := by
    refine ⟨Or.inr (.separated (by decide) (.last (by decide))), ?_, nofun, ?_⟩
    · intro ds hds
      obtain rfl := Option.some.inj hds
      exact Or.inr (.separated (by decide) (.last (by decide)))
    · intro e he
      obtain rfl := Option.some.inj he
      exact ⟨Or.inr rfl, Or.inr (Or.inr rfl), .next (by decide) (.last (by decide))⟩
  obtain ⟨htoken, hvalue, -⟩ := numberLiteral_scanned hvalid
  have hwhole : smallLiteral.IsWhole := by
    intro e he
    obtain rfl := Option.some.inj he
    decide
  refine ⟨hvalid, htoken.mpr hwhole, ?_⟩
  rw [cut_eq hvalid hwhole] at hvalue
  exact Bool.eq_false_iff.mpr fun h => absurd (hvalue.mp h) nofun

/-- A literal of 65 bits has no number, and one with a separator in its exponent is two tokens. -/
theorem numberLiterals_misread :
    ((based 'x' "10000000000000000".toList).IsValid ∧
        (numericValue "0x10000000000000000").isNaN = true) ∧
      (decimal ['1'] none (some ⟨'e', [], "1_0".toList⟩)).IsValid ∧
        ¬ IsOneToken "1e1_0".toList .number "1e10".toList := by
  refine ⟨⟨⟨16, rfl, ?_⟩, by decide +kernel⟩, ⟨Or.inr (.last (by decide)), nofun, nofun, ?_⟩, ?_⟩
  · exact .of_digits (by decide) (by decide)
  · intro e he
    obtain rfl := Option.some.inj he
    exact ⟨Or.inl rfl, Or.inl rfl, .separated (by decide) (.last (by decide))⟩
  · intro h
    have hstops := congrArg (fun x => x.tokens.map (·.span.stop)) h
    revert hstops
    decide +kernel

end ApiSurface

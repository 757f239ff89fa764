import ApiSurface.Number.Literal
import Mathlib.Data.List.TakeWhile
import Mathlib.Tactic.Common
import Mathlib.Tactic.SplitIfs
/-!
Numbers that are not undefined: doubles that are the nearest to a fraction, and decimal text with a
point and an exponent or without.
-/
namespace ApiSurface

/-! ### Defined numbers -/

section Defined

open Float.Model

/-- Bits are read as a number unless all bits of the exponent are set, and some of the mantissa. -/
theorem unpack_ne_notANumber {bits : BitVec Format.binary64.numBits}
    (h : UnpackedFloat.unpackExponent bits = -1#_ → UnpackedFloat.unpackMantissa bits = 0#_) :
    UnpackedFloat.unpack .binary64 bits ≠ .notANumber := by
  intro hundefined
  unfold UnpackedFloat.unpack at hundefined
  dsimp only at hundefined
  by_cases hfull : UnpackedFloat.unpackExponent bits = -1#_
  · rw [if_pos hfull, if_pos (h hfull)] at hundefined
    cases hundefined
  rw [if_neg hfull] at hundefined
  by_cases hexponent : UnpackedFloat.unpackExponent bits = 0#_
  · rw [if_pos hexponent] at hundefined
    by_cases hmantissa : UnpackedFloat.unpackMantissa bits = 0#_
    · rw [dif_pos hmantissa] at hundefined
      cases hundefined
    · rw [dif_neg hmantissa] at hundefined
      cases hundefined
  · rw [if_neg hexponent] at hundefined
    cases hundefined

/-- The bits of a number that is not undefined are not those of the undefined one. -/
theorem isNaN_pack {f : UnpackedFloat} (hf : f ≠ .notANumber) : (pack f).isNaN = false := by
  have hfull : -1#11 ≠ 0#11 := by decide
  -- with all bits of the exponent set, only infinite numbers are left
  have hmantissa : UnpackedFloat.unpackExponent (UnpackedFloat.pack .binary64 f) = -1#_ →
      UnpackedFloat.unpackMantissa (UnpackedFloat.pack .binary64 f) = 0#_ := by
    intro hexponent
    cases f with
    | notANumber => exact absurd rfl hf
    | infinity s => exact UnpackedFloat.unpackMantissa_packComponents
    | zero s => exact UnpackedFloat.unpackMantissa_packComponents
    | finite s m e hm =>
      unfold UnpackedFloat.pack at hexponent ⊢
      dsimp only at hexponent ⊢
      split_ifs at hexponent ⊢ with hlarge hnormal
      · exact UnpackedFloat.unpackMantissa_packComponents
      · rw [UnpackedFloat.unpackExponent_packComponents] at hexponent
        have hvalue := congrArg BitVec.toNat hexponent
        rw [BitVec.toNat_ofNat] at hvalue
        change _ % 2048 = 2047 at hvalue
        change ¬ 2048 ≤ _ at hlarge
        omega
      · rw [UnpackedFloat.unpackExponent_packComponents] at hexponent
        exact absurd hexponent.symm hfull
  have hdefined := unpack_ne_notANumber hmantissa
  show (UnpackedFloat.unpack .binary64 (UnpackedFloat.pack .binary64 f)).isNaN = false
  cases hread : UnpackedFloat.unpack .binary64 (UnpackedFloat.pack .binary64 f) with
  | notANumber => exact absurd hread hdefined
  | infinity _ | zero _ | finite _ _ _ _ => rfl

/-- Bits up to those of the infinite number stand for a number. -/
theorem isNaN_ofBits {bits : UInt64} (h : bits.toNat ≤ 0x7FF0000000000000) :
    (Float.ofBits bits).isNaN = false := by
  have hle : bits.toBitVec.toNat ≤ 0x7FF0000000000000 := h
  have hmantissa (hfull : @UnpackedFloat.unpackExponent .binary64 bits.toBitVec = -1#_) :
      @UnpackedFloat.unpackMantissa .binary64 bits.toBitVec = 0#_ := by
    have hexponent := congrArg BitVec.toNat hfull
    apply BitVec.eq_of_toNat_eq
    simp only [UnpackedFloat.unpackExponent, UnpackedFloat.unpackMantissa, BitVec.toNat_cast,
      BitVec.extractLsb_toNat, Nat.shiftRight_eq_div_pow] at hexponent ⊢
    change _ = 2047 at hexponent
    show _ = 0
    omega
  show (pack (UnpackedFloat.unpack .binary64 bits.toBitVec)).isNaN = false
  exact isNaN_pack (unpack_ne_notANumber hmantissa)

end Defined

theorem isNaN_undefinedNumber : undefinedNumber.isNaN = true := by decide +kernel

/-- The double nearest to a fraction is defined. -/
theorem isNaN_nearestDouble (num den : ℕ) : (nearestDouble num den).isNaN = false := by
  apply isNaN_ofBits
  unfold nearestBits
  split_ifs with hzero
  · decide
  dsimp only
  split_ifs with hlarge hsmall hinfinite
  · decide
  · have hlt : divHalfEven (scaleDown num den (binaryExponent num den)).1
        (scaleDown num den (binaryExponent num den)).2 < 4503599627370496 := hsmall
    rw [Nat.toUInt64_eq, UInt64.toNat_ofNat']
    omega
  · decide
  · rw [Nat.toUInt64_eq, UInt64.toNat_ofNat']
    omega

/-- A finite number is defined. -/
theorem isNaN_toFloat (digits : ℕ) (exponent : ℤ) :
    (Magnitude.finite digits exponent).toFloat.isNaN = false := by
  have hzero : (Float.ofBits 0).isNaN = false := isNaN_ofBits (by decide)
  have hinfinite : infiniteNumber.isNaN = false := isNaN_ofBits (by decide)
  unfold Magnitude.toFloat
  dsimp only
  split_ifs
  · exact hzero
  · exact hinfinite
  · exact hzero
  · exact isNaN_nearestDouble _ _
  · exact isNaN_nearestDouble _ _

/-! ### Decimal text -/

/-- The point and the digits behind it. -/
def fractionText (fraction : Option (List Char)) : List Char := fraction.elim [] ('.' :: ·)

variable {ds rest : List Char} {c : Char}

/-- Characters of some kind, up to one that is not. -/
theorem takeWhile_stops {p : Char → Bool} (hds : ∀ d ∈ ds, p d = true)
    (hrest : ∀ c ∈ rest.head?, p c = false) :
    (ds ++ rest).takeWhile p = ds ∧ (ds ++ rest).dropWhile p = rest := by
  rw [List.takeWhile_append_of_pos hds, List.dropWhile_append_of_pos hds]
  cases rest with
  | nil => simp
  | cons c rest =>
    have hc : p c = false := hrest c rfl
    simp [hc]

/-- What comes behind the digits before the point. -/
theorem head?_fractionText {fraction : Option (List Char)}
    (hc : c ∈ (fractionText fraction ++ rest).head?) :
    c = '.' ∨ fraction = none ∧ c ∈ rest.head? := by
  cases fraction with
  | none => exact Or.inr ⟨rfl, hc⟩
  | some ds => exact Or.inl (Option.some.inj hc).symm

/-- Digits with a sign, or with none, are an exponent. -/
theorem exponent?_isSome {sign : List Char} (hsign : sign = [] ∨ sign = ['+'] ∨ sign = ['-'])
    (hne : ds ≠ []) (hds : ∀ d ∈ ds, d.isDigit = true) : ∃ n, exponent? (sign ++ ds) = some n := by
  have hall : ds.all Char.isDigit = true := List.all_eq_true.mpr hds
  have hempty : ds.isEmpty = false := by simpa using hne
  have hread (negative : Bool) : ∃ n : ℤ, (if (ds.isEmpty || !ds.all Char.isDigit) = true then none
      else some (if negative then -(decimalValue ds : ℤ) else decimalValue ds)) = some n := by
    rw [hempty, hall]
    exact ⟨_, rfl⟩
  rcases hsign with rfl | rfl | rfl
  · cases ds with
    | nil => exact absurd rfl hne
    | cons d ds =>
      have hd := hds d List.mem_cons_self
      have hsign (c : Char) (hc : c.isDigit = false) : d ≠ c := by
        rintro rfl
        rw [hd] at hc
        cases hc
      have hminus := hsign '-' rfl
      have hplus := hsign '+' rfl
      simpa [exponent?, hminus, hplus] using hread false
  · exact hread false
  · exact hread true

/-- Digits with a point and an exponent, or without, are a finite number. -/
theorem finiteMagnitude?_isSome {whole : List Char} {fraction : Option (List Char)}
    {exponent : List Char} (hwhole : ∀ d ∈ whole, d.isDigit = true)
    (hfraction : ∀ ds ∈ fraction, ∀ d ∈ ds, d.isDigit = true)
    (hnonempty : whole = [] → ∃ ds ∈ fraction, ds ≠ [])
    (hexponent : exponent = [] ∨ ∃ n cs, exponent = 'e' :: cs ∧ exponent? cs = some n) :
    ∃ digits n, finiteMagnitude? (whole ++ (fractionText fraction ++ exponent)) =
      some (.finite digits n) := by
  have hstop : ∀ c ∈ exponent.head?, c.isDigit = false := by
    rcases hexponent with rfl | ⟨-, cs, rfl, -⟩
    · exact nofun
    · rintro c hc
      rw [← Option.some.inj hc]
      rfl
  have hpoint : ∀ c ∈ (fractionText fraction ++ exponent).head?, c.isDigit = false := by
    intro c hc
    rcases head?_fractionText hc with rfl | ⟨-, hc⟩
    · rfl
    · exact hstop c hc
  obtain ⟨htake, hdrop⟩ := takeWhile_stops hwhole hpoint
  unfold finiteMagnitude?
  dsimp only
  rw [htake, hdrop]
  cases fraction with
  | none =>
    have hne : whole ≠ [] := fun h => by
      obtain ⟨ds, hds, -⟩ := hnonempty h
      cases hds
    have hempty : whole.isEmpty = false := by simpa using hne
    rcases hexponent with rfl | ⟨n, cs, rfl, hn⟩
    · simp [fractionText, hempty]
    · simp [fractionText, hempty, hn]
  | some ds =>
    obtain ⟨htake', hdrop'⟩ := takeWhile_stops (hfraction ds rfl) hstop
    have hempty : (whole.isEmpty && ds.isEmpty) = false := by
      cases whole with
      | cons d whole => rfl
      | nil =>
        obtain ⟨ds', hds', hne⟩ := hnonempty rfl
        obtain rfl := Option.some.inj hds'
        simpa using hne
    have hfractionText : fractionText (some ds) ++ exponent = '.' :: (ds ++ exponent) := rfl
    simp only [hfractionText, htake', hdrop', hempty]
    rcases hexponent with rfl | ⟨n, cs, rfl, hn⟩
    · exact ⟨_, _, rfl⟩
    · simp [hn]

/-- Decimal text in lower case, with digits before the point or behind it, is a number. -/
theorem isNaN_decimalNumber {whole : List Char} {fraction : Option (List Char)}
    {exponent : List Char} (hwhole : ∀ d ∈ whole, d.isDigit = true)
    (hfraction : ∀ ds ∈ fraction, ∀ d ∈ ds, d.isDigit = true)
    (hnonempty : whole = [] → ∃ ds ∈ fraction, ds ≠ [])
    (hexponent : exponent = [] ∨ ∃ n cs, exponent = 'e' :: cs ∧ exponent? cs = some n) :
    ∃ value, decimalNumber? (whole ++ (fractionText fraction ++ exponent)) = some value ∧
      value.isNaN = false := by
  obtain ⟨digits, n, hfinite⟩ := finiteMagnitude?_isSome hwhole hfraction hnonempty hexponent
  have hhead : ∃ c cs, whole ++ (fractionText fraction ++ exponent) = c :: cs ∧
      (c.isDigit = true ∨ c = '.') := by
    cases whole with
    | nil =>
      obtain ⟨ds, rfl, -⟩ := hnonempty rfl
      exact ⟨'.', ds ++ exponent, rfl, Or.inr rfl⟩
    | cons d whole => exact ⟨d, _, rfl, Or.inl (hwhole d List.mem_cons_self)⟩
  obtain ⟨c, cs, htext, hc⟩ := hhead
  rw [htext] at hfinite ⊢
  have hne (d : Char) (hd : d.isDigit = false ∧ d ≠ '.') : c ≠ d := by
    rintro rfl
    rcases hc with hc | rfl
    · rw [hd.1] at hc
      cases hc
    · exact hd.2 rfl
  have hmagnitude : magnitude? (c :: cs) = some (.finite digits n) := by
    unfold magnitude?
    rw [if_neg, if_neg, hfinite]
    · exact fun h => hne 'n' (by decide) (List.cons.inj h).1
    · rintro (h | h)
      · exact hne 'i' (by decide) (List.cons.inj h).1
      · exact hne 'i' (by decide) (List.cons.inj h).1
  have hminus := hne '-' (by decide)
  have hplus := hne '+' (by decide)
  refine ⟨(Magnitude.finite digits n).toFloat, ?_, isNaN_toFloat digits n⟩
  simp [decimalNumber?, hminus, hplus, hmagnitude]

end ApiSurface

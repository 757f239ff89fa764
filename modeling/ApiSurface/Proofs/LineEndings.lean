import ApiSurface.Proofs.ScannedText
import Mathlib.Tactic.Common
/-!
A text whose lines end in line feeds, and the same text with a carriage return before each of them.
Where a reader looks for line ends it finds one at the same place in both; everywhere else the
characters are the same.
-/
namespace ApiSurface

/-- A carriage return before every line feed. -/
def withReturns : List Char → List Char
  | [] => []
  | c :: cs => if c = '\n' then '\r' :: '\n' :: withReturns cs else c :: withReturns cs

namespace withReturns

variable {c : Char} {cs xs ys : List Char}

@[simp] theorem nil : withReturns [] = [] := rfl

@[simp] theorem feed (cs : List Char) : withReturns ('\n' :: cs) = '\r' :: '\n' :: withReturns cs :=
  rfl

theorem cons (hc : c ≠ '\n') (cs : List Char) : withReturns (c :: cs) = c :: withReturns cs :=
  if_neg hc

@[simp] theorem append (xs ys : List Char) :
    withReturns (xs ++ ys) = withReturns xs ++ withReturns ys := by
  induction xs with
  | nil => rfl
  | cons c xs ih =>
    by_cases hc : c = '\n'
    · subst hc
      simp [ih]
    · simp [cons hc, ih]

theorem of_notMem (h : '\n' ∉ cs) : withReturns cs = cs := by
  induction cs with
  | nil => rfl
  | cons c cs ih =>
    rw [List.mem_cons, not_or] at h
    rw [cons (Ne.symm h.1), ih h.2]

@[simp] theorem eq_nil_iff : withReturns cs = [] ↔ cs = [] := by
  cases cs with
  | nil => simp
  | cons c cs =>
    by_cases hc : c = '\n'
    · simp [hc]
    · simp [cons hc]

theorem mem_iff (hc : c ≠ '\r') : c ∈ withReturns cs ↔ c ∈ cs := by
  induction cs with
  | nil => exact Iff.rfl
  | cons d cs ih =>
    by_cases hd : d = '\n'
    · simp [hd, hc, ih]
    · simp [cons hd, ih]

theorem length_le (cs : List Char) : cs.length ≤ (withReturns cs).length := by
  induction cs with
  | nil => exact Nat.le_refl 0
  | cons c cs ih =>
    by_cases hc : c = '\n'
    · subst hc
      simp only [feed, List.length_cons]
      omega
    · simpa [cons hc] using ih

theorem byteLength_le (cs : List Char) : byteLength cs ≤ byteLength (withReturns cs) := by
  induction cs with
  | nil => exact Nat.le_refl 0
  | cons c cs ih =>
    by_cases hc : c = '\n'
    · subst hc
      simp only [feed, byteLength_cons]
      omega
    · simpa [cons hc] using ih

/-- The first characters differ only at a line end. -/
theorem head? (cs : List Char) (f : Char → Bool) (h : f '\r' = f '\n') :
    (withReturns cs).head?.any f = cs.head?.any f := by
  cases cs with
  | nil => rfl
  | cons c cs =>
    by_cases hc : c = '\n'
    · simp [hc, h]
    · simp [cons hc]

theorem headD (cs : List Char) {α : Type} (f : Char → α) (h : f '\r' = f '\n') (d : Char) :
    f ((withReturns cs).headD d) = f (cs.headD d) := by
  cases cs with
  | nil => rfl
  | cons c cs =>
    by_cases hc : c = '\n'
    · simp [hc, h]
    · simp [cons hc]

theorem head?_eq_iff (hc : c ≠ '\n') (hc' : c ≠ '\r') :
    (withReturns cs).head? = some c ↔ cs.head? = some c := by
  cases cs with
  | nil => rfl
  | cons d cs =>
    by_cases hd : d = '\n'
    · subst hd
      simp [hc.symm, hc'.symm]
    · simp [cons hd]

/-- What characters that are no line ends reach up to. -/
theorem takeWhile {p : Char → Bool} (h : p '\n' = false) (h' : p '\r' = false) (cs : List Char) :
    (withReturns cs).takeWhile p = cs.takeWhile p := by
  induction cs with
  | nil => rfl
  | cons c cs ih =>
    by_cases hc : c = '\n'
    · simp [hc, h, h']
    · rw [cons hc, List.takeWhile_cons, List.takeWhile_cons, ih]

/-- What characters reach up to where line ends count. -/
theorem takeWhile' {p : Char → Bool} (h : p '\n' = true) (h' : p '\r' = true) (cs : List Char) :
    (withReturns cs).takeWhile p = withReturns (cs.takeWhile p) := by
  induction cs with
  | nil => rfl
  | cons c cs ih =>
    by_cases hc : c = '\n'
    · simp [hc, h, h', ih]
    · rw [cons hc, List.takeWhile_cons, List.takeWhile_cons, ih]
      split
      · rw [cons hc]
      · rfl

/-- What is behind a part of a text. -/
theorem drop_append (xs ys : List Char) :
    (withReturns (xs ++ ys)).drop (withReturns xs).length = withReturns ys := by
  rw [append, List.drop_left]

theorem drop {xs : List Char} (h : xs <+: cs) (hxs : '\n' ∉ xs) :
    (withReturns cs).drop xs.length = withReturns (cs.drop xs.length) := by
  obtain ⟨ys, rfl⟩ := h
  rw [List.drop_left, ← drop_append xs ys, of_notMem hxs]

theorem notMem_takeWhile {p : Char → Bool} (h : p '\n' = false) (cs : List Char) :
    '\n' ∉ cs.takeWhile p := fun hmem => by
  rw [List.mem_takeWhile_imp hmem] at h
  cases h

end withReturns

/-! ### Numbers and escapes -/

theorem exponentPart_withReturns (cs : List Char) :
    exponentPart (withReturns cs) = exponentPart cs := by
  rcases cs with _ | ⟨e, _ | ⟨s, tail⟩⟩
  · rfl
  · by_cases he : e = '\n'
    · subst he
      rfl
    · rw [withReturns.cons he, withReturns.nil]
  · by_cases he : e = '\n'
    · subst he
      rfl
    · rw [withReturns.cons he]
      by_cases hs : s = '\n'
      · subst hs
        rfl
      · have hdigits (sign : List Char) (hsign : sign = [s] ∨ sign = []) :
            ((s :: withReturns tail).drop sign.length).takeWhile Char.isDigit =
              ((s :: tail).drop sign.length).takeWhile Char.isDigit := by
          rcases hsign with rfl | rfl
          · exact withReturns.takeWhile rfl rfl tail
          · rw [← withReturns.cons hs]
            exact withReturns.takeWhile rfl rfl (s :: tail)
        rw [withReturns.cons hs]
        unfold exponentPart
        dsimp only
        rw [hdigits _ (by split <;> simp)]

theorem notMem_exponentPart (cs : List Char) : '\n' ∉ exponentPart cs := by
  unfold exponentPart
  split
  · next e rest =>
    dsimp only
    split_ifs with hmark hdigits
    · exact List.not_mem_nil
    · refine List.not_mem_append ?_ (withReturns.notMem_takeWhile (by decide) _)
      have he : '\n' ≠ e := by rcases hmark with rfl | rfl <;> decide
      refine List.mem_cons.not.mpr (not_or.mpr ⟨he, ?_⟩)
      split
      · split
        · next hsign => rcases hsign with rfl | rfl <;> decide
        · exact List.not_mem_nil
      · exact List.not_mem_nil
    · exact List.not_mem_nil
  · exact List.not_mem_nil

/-- Digits and the separators between them. -/
def isDecimal (c : Char) : Bool := c.isDigit || c == '_'

/-- A point and the digits behind it. -/
def fractionPart : List Char → List Char
  | [] => []
  | c :: rest => if c = '.' then '.' :: rest.takeWhile isDecimal else []

theorem fractionPart_leading (cs : List Char) : fractionPart cs <+: cs := by
  cases cs with
  | nil => exact List.nil_prefix
  | cons c cs =>
    simp only [fractionPart]
    split
    · next hc =>
      rw [hc]
      exact (List.prefix_cons_inj _).mpr (List.takeWhile_prefix _)
    · exact List.nil_prefix

theorem notMem_fractionPart (cs : List Char) : '\n' ∉ fractionPart cs := by
  cases cs with
  | nil => exact List.not_mem_nil
  | cons c cs =>
    simp only [fractionPart]
    split
    · rw [List.mem_cons, not_or]
      exact ⟨by decide, withReturns.notMem_takeWhile rfl cs⟩
    · exact List.not_mem_nil

theorem fractionPart_withReturns (cs : List Char) :
    fractionPart (withReturns cs) = fractionPart cs := by
  cases cs with
  | nil => rfl
  | cons c cs =>
    by_cases hc : c = '\n'
    · subst hc
      rfl
    · rw [withReturns.cons hc]
      simp only [fractionPart]
      rw [withReturns.takeWhile rfl rfl]

/-- A number in decimal digits. -/
theorem numberPart_of_decimal {cs : List Char}
    (h : ¬ ∃ r digits, cs = '0' :: r :: digits ∧ "xXoObB".toList.contains r = true) :
    numberPart cs = (cs.takeWhile isDecimal ++ fractionPart (cs.drop (cs.takeWhile isDecimal).length))
      ++ exponentPart (cs.drop (cs.takeWhile isDecimal ++
        fractionPart (cs.drop (cs.takeWhile isDecimal).length)).length) := by
  have hdecimal : (fun c : Char => c.isDigit || c == '_') = isDecimal := rfl
  unfold numberPart
  simp only [hdecimal]
  split
  · next part hpart =>
    split at hpart
    · next r digits =>
      split at hpart
      · next hr => exact absurd ⟨r, digits, rfl, hr⟩ h
      · cases hpart
    · cases hpart
  · generalize cs.drop (cs.takeWhile isDecimal).length = behind
    cases behind with
    | nil => rfl
    | cons c behind =>
      by_cases hc : c = '.'
      · subst hc
        rfl
      · simp [fractionPart, hc]

theorem numberPart_withReturns (cs : List Char) :
    numberPart (withReturns cs) = numberPart cs := by
  by_cases h : ∃ r digits, cs = '0' :: r :: digits ∧ "xXoObB".toList.contains r = true
  · obtain ⟨r, digits, rfl, hr⟩ := h
    have hr' : r ≠ '\n' := by
      rintro rfl
      cases hr
    rw [withReturns.cons (by decide), withReturns.cons hr']
    unfold numberPart
    simp only [hr, if_true]
    rw [withReturns.takeWhile rfl rfl]
  · have h' : ¬ ∃ r digits, withReturns cs = '0' :: r :: digits ∧
        "xXoObB".toList.contains r = true := by
      rintro ⟨r, digits, hcs, hr⟩
      rcases cs with _ | ⟨c, _ | ⟨d, cs⟩⟩
      · cases hcs
      · by_cases hc : c = '\n'
        · subst hc
          cases hcs
        · rw [withReturns.cons hc] at hcs
          cases hcs
      · by_cases hc : c = '\n'
        · subst hc
          cases hcs
        · by_cases hd : d = '\n'
          · subst hd
            rw [withReturns.cons hc] at hcs
            obtain ⟨-, hcs⟩ := List.cons.inj hcs
            rw [← (List.cons.inj hcs).1] at hr
            cases hr
          · rw [withReturns.cons hc, withReturns.cons hd] at hcs
            obtain ⟨hzero, hcs⟩ := List.cons.inj hcs
            obtain ⟨hradix, -⟩ := List.cons.inj hcs
            exact h ⟨d, cs, congrArg (· :: d :: cs) hzero, hradix ▸ hr⟩
    have hwhole : (withReturns cs).takeWhile isDecimal = cs.takeWhile isDecimal :=
      withReturns.takeWhile rfl rfl cs
    have hpart : cs.takeWhile isDecimal ++ fractionPart (cs.drop (cs.takeWhile isDecimal).length)
        <+: cs := append_leading (List.takeWhile_prefix _) (fractionPart_leading _)
    have hbreak : '\n' ∉ cs.takeWhile isDecimal ++
        fractionPart (cs.drop (cs.takeWhile isDecimal).length) :=
      List.not_mem_append (withReturns.notMem_takeWhile rfl cs) (notMem_fractionPart _)
    rw [numberPart_of_decimal h, numberPart_of_decimal h', hwhole,
      withReturns.drop (List.takeWhile_prefix _) (withReturns.notMem_takeWhile rfl cs),
      fractionPart_withReturns, withReturns.drop hpart hbreak, exponentPart_withReturns]

/-- A line end is no digit, so a text with one is no number. -/
theorem unsignedValue?_eq_none {radix limit : ℕ} {cs : List Char} {c : Char} (hmem : c ∈ cs)
    (hplus : c ≠ '+') (hdigit : digitValue? radix c = none) :
    unsignedValue? radix limit cs = none := by
  set step : Option ℕ → Char → Option ℕ := fun acc c => do
    let v ← acc
    let d ← digitValue? radix c
    let v := v * radix + d
    if v < limit then some v else none with hstep
  have hstay (ds : List Char) : ds.foldl step none = none := by
    induction ds with
    | nil => rfl
    | cons d ds ih => exact ih
  have hstop (acc : Option ℕ) : step acc c = none := by
    rw [hstep]
    dsimp only
    rw [hdigit]
    cases acc <;> rfl
  have hdigits {ds : List Char} (hmem : c ∈ ds) : digitsValue? radix limit ds = none := by
    obtain ⟨before, after, rfl⟩ := List.append_of_mem hmem
    show (before ++ c :: after).foldl step (some 0) = none
    rw [List.foldl_append, List.foldl_cons, hstop, hstay]
  unfold unsignedValue?
  split
  · next rest =>
    split
    · rfl
    · exact hdigits ((List.mem_cons.mp hmem).resolve_left hplus)
  · rfl
  · exact hdigits hmem

theorem unsignedValue?_withReturns (radix limit : ℕ) (cs : List Char) :
    unsignedValue? radix limit (withReturns cs) = unsignedValue? radix limit cs := by
  have hdigit : digitValue? radix '\n' = none := rfl
  by_cases h : '\n' ∈ cs
  · rw [unsignedValue?_eq_none h (by decide) hdigit,
      unsignedValue?_eq_none ((withReturns.mem_iff (by decide)).mpr h) (by decide) hdigit]
  · rw [withReturns.of_notMem h]

/-- A line end among the first characters, after which more follow. -/
theorem mem_take_withReturns {n : ℕ} {cs : List Char} (h : '\n' ∈ cs.take n) :
    '\r' ∈ (withReturns cs).take n := by
  induction cs generalizing n with
  | nil => simp at h
  | cons c cs ih =>
    cases n with
    | zero => simp at h
    | succ n =>
      by_cases hc : c = '\n'
      · simp [hc]
      · rw [List.take_succ_cons, List.mem_cons] at h
        rw [withReturns.cons hc, List.take_succ_cons]
        exact List.mem_cons_of_mem _ (ih (h.resolve_left (Ne.symm hc)))

/-- The value of a character code of `n` digits in base sixteen. -/
def hexCode? (n : ℕ) (cs : List Char) : Option ℕ :=
  if n ≤ cs.length then unsignedValue? 16 (Nat.pow 2 32) (cs.take n) else none

theorem hexCode?_withReturns (n : ℕ) (cs : List Char) :
    hexCode? n (withReturns cs) = hexCode? n cs := by
  by_cases hfeed : '\n' ∈ cs.take n
  · have hnone {ds : List Char} {c : Char} (hmem : c ∈ ds.take n) (hplus : c ≠ '+')
        (hdigit : digitValue? 16 c = none) : hexCode? n ds = none := by
      unfold hexCode?
      rw [unsignedValue?_eq_none hmem hplus hdigit, ite_self]
    rw [hnone hfeed (by decide) rfl, hnone (mem_take_withReturns hfeed) (by decide) rfl]
  · have htake : (withReturns cs).take n = cs.take n ∧
        (n ≤ (withReturns cs).length ↔ n ≤ cs.length) := by
      by_cases hn : n ≤ cs.length
      · have hlength : (cs.take n).length = n := List.length_take_of_le hn
        have hsplit : withReturns cs = cs.take n ++ withReturns (cs.drop n) := by
          conv_rhs => rw [← withReturns.of_notMem hfeed]
          rw [← withReturns.append, List.take_append_drop]
        refine ⟨by rw [hsplit, List.take_left' hlength], iff_of_true ?_ hn⟩
        rw [hsplit, List.length_append, hlength]
        exact Nat.le_add_right n _
      · rw [List.take_of_length_le (Nat.le_of_not_le hn)] at hfeed
        rw [withReturns.of_notMem hfeed]
        exact ⟨rfl, Iff.rfl⟩
    unfold hexCode?
    rw [htake.1]
    simp only [htake.2]

/-- A character code stands on one line. -/
theorem notMem_of_hexCode? {n k : ℕ} {cs : List Char} (h : hexCode? n cs = some k) :
    '\n' ∉ cs.take n := by
  intro hmem
  unfold hexCode? at h
  rw [unsignedValue?_eq_none hmem (by decide) rfl, ite_self] at h
  cases h

namespace Escape

theorem read_hex (cs : List Char) : read ('x' :: cs) =
    ((hexCode? 2 cs).bind scalar?).elim ⟨[], 1⟩ fun c => ⟨[c], 3⟩ := by
  unfold hexCode?
  rcases cs with _ | ⟨a, _ | ⟨b, cs⟩⟩
  · rfl
  · rfl
  · rw [if_pos (show 2 ≤ (a :: b :: cs).length by simp)]
    simp only [read, List.take_succ_cons, List.take_zero]
    cases (unsignedValue? 16 (Nat.pow 2 32) [a, b]).bind scalar? <;> rfl

theorem read_unicode {cs : List Char} (h : cs.head? ≠ some '\x7b') : read ('u' :: cs) =
    (hexCode? 4 cs).elim ⟨[], 1⟩ fun n => ⟨(scalar? n).toList, 5⟩ := by
  unfold hexCode?
  rcases cs with _ | ⟨a, cs⟩
  · rfl
  have ha : a ≠ '\x7b' := fun ha => h (congrArg some ha)
  rcases cs with _ | ⟨b, _ | ⟨c, _ | ⟨d, cs⟩⟩⟩
  on_goal 4 =>
    rw [if_pos (show 4 ≤ (a :: b :: c :: d :: cs).length by simp)]
    simp only [read, List.take_succ_cons, List.take_zero]
    cases unsignedValue? 16 (Nat.pow 2 32) [a, b, c, d] <;> rfl
  all_goals simp [read, ha]

theorem read_braced (body : List Char) : read ('u' :: '\x7b' :: body) =
    if (body.takeWhile (· != '\x7d')).length < body.length then
      ⟨((unsignedValue? 16 (Nat.pow 2 32) (body.takeWhile (· != '\x7d'))).bind scalar?).toList,
        (body.takeWhile (· != '\x7d')).length + 3⟩
    else ⟨[], 1⟩ := rfl

/-- Most escapes are decided by one character. -/
theorem read_single {c : Char} (hreturn : c ≠ '\r') (hx : c ≠ 'x') (hu : c ≠ 'u') :
    ∃ value, ∀ cs, read (c :: cs) = ⟨value, 1⟩ := by
  refine ⟨(read [c]).value, fun cs => ?_⟩
  unfold read
  split <;> simp_all

theorem length_of_hexCode? {n k : ℕ} {cs : List Char} (h : hexCode? n cs = some k) :
    (withReturns (cs.take n)).length = n := by
  rw [withReturns.of_notMem (notMem_of_hexCode? h), List.length_take_of_le]
  unfold hexCode? at h
  split at h
  · assumption
  · cases h

/-- An escape denotes the same, and as many characters are passed, a carriage return more for each
line end among them. -/
theorem read_withReturns {cs : List Char} (h : '\r' ∉ cs) :
    (read (withReturns cs)).value = (read cs).value ∧
      (read (withReturns cs)).length = (withReturns (cs.take (read cs).length)).length := by
  rcases cs with _ | ⟨c, cs⟩
  · exact ⟨rfl, rfl⟩
  by_cases hfeed : c = '\n'
  · subst hfeed
    exact ⟨rfl, rfl⟩
  rw [withReturns.cons hfeed]
  have hone (value : List Char) (hread : ∀ cs, read (c :: cs) = ⟨value, 1⟩) :
      (read (c :: withReturns cs)).value = (read (c :: cs)).value ∧
        (read (c :: withReturns cs)).length =
          (withReturns ((c :: cs).take (read (c :: cs)).length)).length := by
    rw [hread, hread]
    exact ⟨rfl, by rw [List.take_succ_cons, List.take_zero, withReturns.cons hfeed]; rfl⟩
  by_cases hx : c = 'x'
  · subst hx
    rw [read_hex, read_hex, hexCode?_withReturns]
    cases hcode : hexCode? 2 cs with
    | none => exact ⟨rfl, rfl⟩
    | some n =>
      rw [Option.bind_some]
      cases scalar? n with
      | none => exact ⟨rfl, rfl⟩
      | some d =>
        refine ⟨rfl, ?_⟩
        show 3 = (withReturns ('x' :: cs.take 2)).length
        rw [withReturns.cons hfeed, List.length_cons, length_of_hexCode? hcode]
  by_cases hu : c = 'u'
  · subst hu
    by_cases hbrace : cs.head? = some '\x7b'
    · obtain ⟨body, rfl⟩ := List.head?_eq_some_iff.mp hbrace
      rw [withReturns.cons (by decide), read_braced, read_braced,
        withReturns.takeWhile' rfl rfl, unsignedValue?_withReturns]
      obtain ⟨inner, back, rfl, hinner, hback⟩ : ∃ inner back, body = inner ++ back ∧
          body.takeWhile (· != '\x7d') = inner ∧ back.head?.all (· == '\x7d') = true :=
        ⟨_, _, List.takeWhile_append_dropWhile.symm, rfl, by
          have hhead := List.head?_dropWhile_not (· != '\x7d') body
          revert hhead
          cases (body.dropWhile (· != '\x7d')).head? <;> simp⟩
      rw [hinner, withReturns.append, List.length_append, List.length_append]
      cases back with
      | nil =>
        rw [if_neg (by simp), if_neg (by simp)]
        exact ⟨rfl, rfl⟩
      | cons d back =>
        obtain rfl : d = '\x7d' := by simpa using hback
        rw [withReturns.cons (by decide) back, if_pos (by simp), if_pos (by simp)]
        refine ⟨rfl, ?_⟩
        show (withReturns inner).length + 3 = (withReturns ('u' :: '\x7b' ::
          (inner ++ '\x7d' :: back).take (inner.length + 1))).length
        rw [List.take_length_add_append, withReturns.cons hfeed, withReturns.cons (by decide),
          withReturns.append]
        simp [withReturns.cons (show '\x7d' ≠ '\n' by decide)]
    · have hbrace' : (withReturns cs).head? ≠ some '\x7b' :=
        (withReturns.head?_eq_iff (by decide) (by decide)).not.mpr hbrace
      rw [read_unicode hbrace, read_unicode hbrace', hexCode?_withReturns]
      cases hcode : hexCode? 4 cs with
      | none => exact ⟨rfl, rfl⟩
      | some n =>
        refine ⟨rfl, ?_⟩
        show 5 = (withReturns ('u' :: cs.take 4)).length
        rw [withReturns.cons hfeed, List.length_cons, length_of_hexCode? hcode]
  · obtain ⟨value, hread⟩ := read_single (fun hc => h (hc ▸ List.mem_cons_self)) hx hu
    exact hone value hread

end Escape

/-! ### Strings and templates -/

/-- The same string, read from texts with one and the other line ends. Where the string ends, the
rests have as many bytes more or less as the texts have. -/
structure StringBody.Alike (cs : List Char) (b b' : StringBody) : Prop where
  value : b'.value = b.value
  rest : b'.rest = withReturns b.rest
  closed : b'.closed = b.closed
  width : b'.width + byteLength b'.rest + byteLength cs =
    b.width + byteLength b.rest + byteLength (withReturns cs)

theorem stringBody_withReturns {quote : Char} (hquote : quote ≠ '\n') (hquote' : quote ≠ '\r')
    {cs : List Char} (h : '\r' ∉ cs) (skip : ℕ) :
    StringBody.Alike cs (stringBody quote skip cs)
      (stringBody quote (withReturns (cs.take skip)).length (withReturns cs)) := by
  induction cs generalizing skip with
  | nil =>
    rw [List.take_nil]
    exact ⟨rfl, rfl, rfl, rfl⟩
  | cons c cs ih =>
    obtain ⟨hc, hcs⟩ := not_or.mp (List.mem_cons.not.mp h)
    cases skip with
    | succ skip =>
      obtain ⟨hvalue, hrest, hclosed, hwidth⟩ := ih hcs skip
      by_cases hfeed : c = '\n'
      · subst hfeed
        refine ⟨hvalue, hrest, hclosed, ?_⟩
        simp only [List.take_succ_cons, withReturns.feed, List.length_cons, stringBody,
          byteLength_cons]
        omega
      · rw [List.take_succ_cons, withReturns.cons hfeed, withReturns.cons hfeed]
        refine ⟨hvalue, hrest, hclosed, ?_⟩
        simp only [List.length_cons, stringBody, byteLength_cons, withReturns.cons hfeed]
        omega
    | zero =>
      rw [List.take_zero, withReturns.nil, List.length_nil]
      by_cases hfeed : c = '\n'
      · subst hfeed
        have hstop (d : Char) (ds : List Char) (hd : d = '\n' ∨ d = '\r') :
            stringBody quote 0 (d :: ds) = ⟨[], 0, d :: ds, false⟩ := by
          have hne : d ≠ quote := fun heq => hd.elim (fun hd => hquote (heq ▸ hd))
            fun hd => hquote' (heq ▸ hd)
          simp only [stringBody]
          rw [if_neg hne, if_pos hd]
        rw [withReturns.feed, hstop _ _ (Or.inl rfl), hstop _ _ (Or.inr rfl)]
        exact ⟨rfl, rfl, rfl, by simp only [withReturns.feed, byteLength_cons]; omega⟩
      · rw [withReturns.cons hfeed]
        simp only [stringBody, List.isEmpty_iff, withReturns.eq_nil_iff]
        split_ifs with hend hline hslash hempty
        · exact ⟨rfl, rfl, rfl, by simp only [byteLength_cons, withReturns.cons hfeed]; omega⟩
        · exact absurd (hline.resolve_left hfeed).symm hc
        · subst hempty
          exact ⟨rfl, rfl, rfl, by simp only [withReturns.cons hfeed, withReturns.nil]⟩
        · obtain ⟨hvalue, hlength⟩ := Escape.read_withReturns hcs
          obtain ⟨hvalue', hrest, hclosed, hwidth⟩ := ih hcs (Escape.read cs).length
          rw [← hlength] at hvalue' hrest hclosed hwidth
          refine ⟨by rw [hvalue, hvalue'], hrest, hclosed, ?_⟩
          simp only [byteLength_cons, withReturns.cons hfeed]
          omega
        · obtain ⟨hvalue, hrest, hclosed, hwidth⟩ := ih hcs 0
          refine ⟨congrArg (c :: ·) hvalue, hrest, hclosed, ?_⟩
          simp only [List.take_zero, withReturns.nil, List.length_nil] at hwidth ⊢
          simp only [byteLength_cons, withReturns.cons hfeed]
          omega

/-- The same nesting, up to where strings started. A string is always in a substitution. -/
inductive Nesting.Alike : List Nesting → List Nesting → Prop
  | nil : Alike [] []
  | template {outer outer' : List Nesting} (h : Alike outer outer') :
      Alike (.template :: outer) (.template :: outer')
  | substitution (depth : ℕ) {outer outer' : List Nesting} (h : Alike outer outer') :
      Alike (.substitution depth :: outer) (.substitution depth :: outer')
  | string {quote : Char} (start start' : ℕ) {depth : ℕ} {outer outer' : List Nesting}
      (hquote : quote ≠ '\n' ∧ quote ≠ '\r')
      (h : Alike (.substitution depth :: outer) (.substitution depth :: outer')) :
      Alike (.string quote start :: .substitution depth :: outer)
        (.string quote start' :: .substitution depth :: outer')

/-- The same template, up to its raw text. -/
structure TemplateBody.Alike (b b' : TemplateBody) : Prop where
  rest : b'.rest = withReturns b.rest
  closed : b'.closed = b.closed
  substitutes : b'.substitutes = b.substitutes

namespace TemplateBody.Alike

variable {b b' : TemplateBody}

theorem cons (h : b.Alike b') (c : Char) : (b.cons c).Alike (b'.cons c) :=
  ⟨h.rest, h.closed, h.substitutes⟩

theorem feed (h : b.Alike b') : (b.cons '\n').Alike ((b'.cons '\n').cons '\r') :=
  ⟨h.rest, h.closed, h.substitutes⟩

theorem report (h : b.Alike b') (start stop start' stop' : ℕ) :
    (b.report start stop).Alike (b'.report start' stop') :=
  ⟨h.rest, h.closed, h.substitutes⟩

end TemplateBody.Alike

/-- A line end in a template or a substitution is one character of it. -/
theorem templateBody_feed {c : Char} (hc : c = '\n' ∨ c = '\r') {top : Nesting}
    (htop : top = .template ∨ ∃ depth, top = .substitution depth) (pos : ℕ) (outer : List Nesting)
    (cs : List Char) : templateBody pos 0 (top :: outer) (c :: cs) =
      (templateBody (pos + c.utf8Size) 0 (top :: outer) cs).cons c := by
  rcases htop with rfl | ⟨depth, rfl⟩ <;> rcases hc with rfl | rfl <;> rfl

/-- Behind a backslash in a template, one character is passed or all of a line end. -/
theorem templateBody_escaped (pos : ℕ) (outer : List Nesting) (cs : List Char) :
    templateBody pos 1 (.template :: outer) (withReturns cs) =
      templateBody pos (withReturns (cs.take 1)).length (.template :: outer) (withReturns cs) := by
  rcases cs with _ | ⟨c, cs⟩
  · rfl
  · by_cases hfeed : c = '\n'
    · subst hfeed
      rfl
    · rw [List.take_succ_cons, List.take_zero, withReturns.cons hfeed []]
      rfl

theorem templateBody_withReturns {cs : List Char} (h : '\r' ∉ cs) {nesting nesting' : List Nesting}
    (hnesting : Nesting.Alike nesting nesting') (pos pos' skip : ℕ) :
    (templateBody pos skip nesting cs).Alike
      (templateBody pos' (withReturns (cs.take skip)).length nesting' (withReturns cs)) := by
  induction cs generalizing nesting nesting' pos pos' skip with
  | nil =>
    rw [List.take_nil]
    cases hnesting <;> exact ⟨rfl, rfl, rfl⟩
  | cons c cs ih =>
    obtain ⟨hc, hcs⟩ := not_or.mp (List.mem_cons.not.mp h)
    cases skip with
    | succ skip =>
      by_cases hfeed : c = '\n'
      · subst hfeed
        exact (ih hcs hnesting _ _ skip).feed
      · rw [List.take_succ_cons, withReturns.cons hfeed, withReturns.cons hfeed]
        exact (ih hcs hnesting _ _ skip).cons c
    | zero =>
      rw [List.take_zero, withReturns.nil, List.length_nil]
      have hnext {nesting nesting' : List Nesting} (hnesting : Nesting.Alike nesting nesting')
          (pos pos' : ℕ) : (templateBody pos 0 nesting cs).Alike
            (templateBody pos' 0 nesting' (withReturns cs)) := ih hcs hnesting pos pos' 0
      by_cases hfeed : c = '\n'
      · subst hfeed
        rw [withReturns.feed]
        cases hnesting with
        | nil => exact ⟨rfl, rfl, rfl⟩
        | template houter =>
          rw [templateBody_feed (Or.inl rfl) (Or.inl rfl),
            templateBody_feed (Or.inr rfl) (Or.inl rfl), templateBody_feed (Or.inl rfl) (Or.inl rfl)]
          exact (hnext (.template houter) _ _).feed
        | substitution depth houter =>
          rw [templateBody_feed (Or.inl rfl) (Or.inr ⟨_, rfl⟩),
            templateBody_feed (Or.inr rfl) (Or.inr ⟨_, rfl⟩),
            templateBody_feed (Or.inl rfl) (Or.inr ⟨_, rfl⟩)]
          exact (hnext (.substitution depth houter) _ _).feed
        | string start start' hquote houter =>
          simp only [templateBody, if_neg hquote.1.symm, if_neg hquote.2.symm, true_or, or_true,
            if_true]
          -- the line feed behind the carriage return is one more character of the substitution
          exact (hnext houter _ _).feed.report _ _ _ _
      · rw [withReturns.cons hfeed]
        cases hnesting with
        | nil => exact ⟨(withReturns.cons hfeed cs).symm, rfl, rfl⟩
        | @template outer outer' houter =>
          have hempty : outer'.isEmpty = outer.isEmpty := by cases houter <;> rfl
          have hbrace : (withReturns cs).head? = some '\x7b' ↔ cs.head? = some '\x7b' :=
            withReturns.head?_eq_iff (by decide) (by decide)
          simp only [templateBody, hempty, hbrace]
          split_ifs with hmark hlast hslash hsubstitution
          · exact ⟨rfl, rfl, rfl⟩
          · exact (hnext houter _ _).cons c
          · rw [templateBody_escaped]
            exact (ih hcs (.template houter) _ _ 1).cons c
          · obtain ⟨after, rfl⟩ := List.head?_eq_some_iff.mp hsubstitution.2
            have hinner := ih hcs (.substitution 1 (.template houter)) (pos + c.utf8Size)
              (pos' + c.utf8Size) 1
            exact ⟨hinner.rest, hinner.closed, rfl⟩
          · exact (hnext (.template houter) _ _).cons c
        | @substitution depth outer outer' houter =>
          simp only [templateBody]
          refine (hnext ?_ _ _).cons c
          split_ifs with hopen hclose hlast hquote hmark
          · exact .substitution _ houter
          · exact houter
          · exact .substitution _ houter
          · refine .string _ _ ?_ (.substitution depth houter)
            rcases hquote with rfl | rfl <;> decide
          · exact .template (.substitution depth houter)
          · exact .substitution depth houter
        | string start start' hquote houter =>
          simp only [templateBody, List.isEmpty_iff, withReturns.eq_nil_iff]
          split_ifs with hclose hline hslash hempty
          · exact (hnext houter _ _).cons c
          · exact absurd (hline.resolve_left hfeed).symm hc
          · exact ((hnext houter _ _).cons c).report _ _ _ _
          · rw [(Escape.read_withReturns hcs).2]
            exact (ih hcs (.string start start' hquote houter) _ _ _).cons c
          · exact (hnext (.string start start' hquote houter) _ _).cons c

/-! ### Lexemes -/

theorem notMem_numberPart (cs : List Char) : '\n' ∉ numberPart cs := by
  by_cases h : ∃ r digits, cs = '0' :: r :: digits ∧ "xXoObB".toList.contains r = true
  · obtain ⟨r, digits, rfl, hr⟩ := h
    have hr' : r ≠ '\n' := by
      rintro rfl
      cases hr
    unfold numberPart
    simp only [hr, if_true, List.mem_cons, not_or]
    exact ⟨by decide, hr'.symm, withReturns.notMem_takeWhile rfl digits⟩
  · rw [numberPart_of_decimal h]
    refine List.not_mem_append (List.not_mem_append ?_ (notMem_fractionPart _)) ?_
    · exact withReturns.notMem_takeWhile rfl cs
    · exact notMem_exponentPart _

/-- What is behind a part without line ends is longer by as many bytes as the whole text. -/
theorem byteLength_drop_withReturns {xs cs : List Char} (h : xs <+: cs) (hxs : '\n' ∉ xs) :
    byteLength (withReturns (cs.drop xs.length)) + byteLength cs =
      byteLength (cs.drop xs.length) + byteLength (withReturns cs) := by
  obtain ⟨ys, rfl⟩ := h
  rw [List.drop_left, withReturns.append, withReturns.of_notMem hxs, byteLength_append,
    byteLength_append]
  omega

namespace Lexeme

theorem number_eq (cs : List Char) : number cs =
    if (cs.drop (numberPart cs).length).head? = some 'n' then
      ⟨.bigInt, (numberPart cs).filter (· != '_'), byteLength (numberPart cs) + 1,
        (cs.drop (numberPart cs).length).tail, false, []⟩
    else ⟨.number, (numberPart cs).filter (· != '_'), byteLength (numberPart cs),
      cs.drop (numberPart cs).length, false, []⟩ := by
  unfold number
  dsimp only
  split
  · next after hafter =>
    rw [hafter]
    rfl
  · next hother =>
    rw [if_neg]
    intro hhead
    obtain ⟨after, hafter⟩ := List.head?_eq_some_iff.mp hhead
    exact hother after hafter

/-- The same lexeme, read from texts with one and the other line ends. -/
structure Alike (cs : List Char) (x x' : Lexeme) : Prop where
  kind : x'.kind = x.kind
  value : x.kind ≠ .template → x'.value = x.value
  rest : x'.rest = withReturns x.rest
  substitutes : x'.substitutes = x.substitutes
  width : x'.width + byteLength x'.rest + byteLength cs =
    x.width + byteLength x.rest + byteLength (withReturns cs)

namespace Alike

variable {cs : List Char}

theorem punctuation {text : List Char} (kind : TokenKind) (h : text <+: cs) (htext : '\n' ∉ text) :
    Alike cs (punctuation kind text.length cs) (punctuation kind text.length (withReturns cs)) := by
  have hrest := withReturns.drop h htext
  refine ⟨rfl, fun _ => rfl, hrest, rfl, ?_⟩
  show text.length + byteLength ((withReturns cs).drop text.length) + byteLength cs =
    text.length + byteLength (cs.drop text.length) + byteLength (withReturns cs)
  rw [hrest]
  have hbytes := byteLength_drop_withReturns h htext
  omega

theorem operator {c : Char} (hc : c ≠ '\n') (cs : List Char) :
    Alike (c :: cs) (operator (c :: cs)) (Lexeme.operator (c :: withReturns cs)) := by
  unfold Lexeme.operator
  simp only [List.take_succ_cons, List.take_zero, List.drop_succ_cons, List.drop_zero,
    withReturns.takeWhile (show continuesOperator '\n' = false by decide)
      (show continuesOperator '\r' = false by decide)]
  rw [← withReturns.cons hc]
  refine punctuation _ ((List.prefix_cons_inj c).mpr ?_) ?_
  · exact (List.take_prefix 3 _).trans (List.takeWhile_prefix _)
  · refine fun hmem => (List.mem_cons.mp hmem).elim (fun h => hc h.symm) fun hmem => ?_
    exact withReturns.notMem_takeWhile (by decide) cs (List.mem_of_mem_take hmem)

theorem name (kind : TokenKind) {lead : List Char} (hlead : '\n' ∉ lead) (cs : List Char) :
    Alike (lead ++ cs) (name kind lead cs) (Lexeme.name kind lead (withReturns cs)) := by
  have hfeed : '\n' ∉ cs.takeWhile continuesName :=
    withReturns.notMem_takeWhile (by decide) cs
  have htext : (withReturns cs).takeWhile continuesName = cs.takeWhile continuesName :=
    withReturns.takeWhile (by decide) (by decide) cs
  have hrest := withReturns.drop (List.takeWhile_prefix continuesName) hfeed
  have hbytes := byteLength_drop_withReturns (List.takeWhile_prefix continuesName) hfeed
  unfold Lexeme.name
  dsimp only
  rw [htext]
  refine ⟨rfl, fun _ => rfl, hrest, rfl, ?_⟩
  dsimp only
  rw [hrest, withReturns.append, withReturns.of_notMem hlead]
  simp only [byteLength_append]
  omega

theorem number (cs : List Char) :
    Alike cs (number cs) (Lexeme.number (withReturns cs)) := by
  have hrest := withReturns.drop (numberPart_leading cs) (notMem_numberPart cs)
  have hbytes := byteLength_drop_withReturns (numberPart_leading cs) (notMem_numberPart cs)
  rw [number_eq, number_eq, numberPart_withReturns, hrest]
  simp only [withReturns.head?_eq_iff (show 'n' ≠ '\n' by decide) (show 'n' ≠ '\r' by decide)]
  split_ifs with hbig
  · obtain ⟨after, hafter⟩ := List.head?_eq_some_iff.mp hbig
    rw [hafter, withReturns.cons (by decide)] at hbytes
    rw [hafter, withReturns.cons (by decide)]
    refine ⟨rfl, fun _ => rfl, rfl, rfl, ?_⟩
    simp only [List.tail_cons, byteLength_cons] at hbytes ⊢
    omega
  · exact ⟨rfl, fun _ => rfl, rfl, rfl, by dsimp only; omega⟩

theorem string (pos pos' : ℕ) {quote : Char} (hquote : quote ≠ '\n') (hquote' : quote ≠ '\r')
    {cs : List Char} (h : '\r' ∉ cs) :
    Alike (quote :: cs) (string pos quote cs) (Lexeme.string pos' quote (withReturns cs)) := by
  obtain ⟨hvalue, hrest, -, hwidth⟩ := stringBody_withReturns hquote hquote' h 0
  rw [List.take_zero] at hvalue hrest hwidth
  refine ⟨rfl, fun _ => hvalue, hrest, rfl, ?_⟩
  unfold Lexeme.string
  simp only [withReturns.cons hquote, byteLength_cons]
  simp only [withReturns.nil, List.length_nil] at hwidth
  omega

theorem template (pos pos' : ℕ) {cs : List Char} (h : '\r' ∉ cs) :
    Alike ('`' :: cs) (template pos cs) (Lexeme.template pos' (withReturns cs)) := by
  have hbody := templateBody_withReturns h (.template .nil) (pos + 1) (pos' + 1) 0
  rw [List.take_zero] at hbody
  refine ⟨rfl, fun hkind => absurd rfl hkind, hbody.rest, hbody.substitutes, ?_⟩
  have hcut {x : Lexeme} {cs : List Char} (hx : x.Leads cs) (hkind : x.kind = .template) :
      byteLength cs = x.width + byteLength x.rest := by
    rcases hx with hx | ⟨hstring, -⟩
    · exact byteLength_of_dropBytes hx
    · rw [hstring] at hkind
      cases hkind
  rw [withReturns.cons (by decide), hcut (template_leads pos cs) rfl,
    hcut (template_leads pos' (withReturns cs)) rfl, Nat.add_comm]

theorem single {c : Char} (hc : c ≠ '\n') (kind : TokenKind) (cs : List Char) :
    Alike (c :: cs) (Lexeme.punctuation kind 1 (c :: cs))
      (Lexeme.punctuation kind 1 (c :: withReturns cs)) := by
  rw [← withReturns.cons hc]
  exact @punctuation (c :: cs) [c] kind (List.prefix_append [c] cs)
    (List.mem_singleton.not.mpr hc.symm)

theorem ite {b b' : Prop} [Decidable b] [Decidable b'] {cs : List Char} {x x' y y' : Lexeme}
    (h : b' ↔ b) (hyes : b → Alike cs x x') (hno : ¬ b → Alike cs y y') :
    Alike cs (if b then x else y) (if b' then x' else y') := by
  by_cases hb : b
  · rw [if_pos hb, if_pos (h.mpr hb)]
    exact hyes hb
  · rw [if_neg hb, if_neg (h.not.mpr hb)]
    exact hno hb

/-- An operator, if one of some characters comes next. -/
theorem operatorOr {c : Char} (hc : c ≠ '\n') (nexts : List Char)
    (hnexts : nexts.contains '\r' = nexts.contains '\n') (kind : TokenKind) (cs : List Char) :
    Alike (c :: cs)
      (if nexts.contains (cs.headD '\x00') = true then Lexeme.operator (c :: cs)
        else Lexeme.punctuation kind 1 (c :: cs))
      (if nexts.contains ((withReturns cs).headD '\x00') = true then
          Lexeme.operator (c :: withReturns cs)
        else Lexeme.punctuation kind 1 (c :: withReturns cs)) := by
  refine ite (by rw [withReturns.headD cs nexts.contains hnexts]) (fun _ => ?_) fun _ => ?_
  · exact operator hc cs
  · exact single hc kind cs

/-- Two characters, of which the second is the next one. -/
theorem pair {c d : Char} (hc : c ≠ '\n') (hd : d ≠ '\n') (hd' : d ≠ '\x00') (kind : TokenKind)
    {cs : List Char} (hnext : cs.headD '\x00' = d) :
    Alike (c :: cs) (Lexeme.punctuation kind 2 (c :: cs))
      (Lexeme.punctuation kind 2 (c :: withReturns cs)) := by
  cases cs with
  | nil => exact absurd hnext.symm hd'
  | cons e cs =>
    obtain rfl : e = d := hnext
    rw [← withReturns.cons hc]
    exact @punctuation (c :: e :: cs) [c, e] kind (List.prefix_append [c, e] cs)
      (by simp [hc.symm, hd.symm])

end Alike

theorem take_two_withReturns (cs : List Char) :
    (withReturns cs).take 2 = ['.', '.'] ↔ cs.take 2 = ['.', '.'] := by
  rcases cs with _ | ⟨d, cs⟩
  · exact Iff.rfl
  · by_cases hd : d = '\n'
    · subst hd
      simp
    · rw [withReturns.cons hd, List.take_succ_cons, List.take_succ_cons]
      rcases cs with _ | ⟨e, cs⟩
      · exact Iff.rfl
      · by_cases he : e = '\n'
        · subst he
          simp
        · rw [withReturns.cons he]
          rfl

/-- A point and no digit behind it. -/
theorem point_withReturns (cs : List Char) :
    (withReturns cs).headD '\x00' = '.' ∧
        (!(((withReturns cs).drop 1).headD '\x00').isDigit) = true ↔
      cs.headD '\x00' = '.' ∧ (!((cs.drop 1).headD '\x00').isDigit) = true := by
  rcases cs with _ | ⟨d, cs⟩
  · exact Iff.rfl
  · by_cases hd : d = '\n'
    · subst hd
      exact iff_of_false (fun h => absurd h.1 (show '\r' ≠ '.' by decide))
        fun h => absurd h.1 (show '\n' ≠ '.' by decide)
    · rw [withReturns.cons hd, List.drop_succ_cons, List.drop_succ_cons, List.drop_zero,
        List.drop_zero, withReturns.headD cs Char.isDigit rfl]
      rfl

/-- What a text begins with is the same for both line ends. -/
theorem read_withReturns (pos pos' : ℕ) {c : Char} (hc : c ≠ '\n') {cs : List Char}
    (h : '\r' ∉ c :: cs) : Alike (c :: cs) (read pos c cs) (read pos' c (withReturns cs)) := by
  obtain ⟨hc', hcs⟩ := not_or.mp (List.mem_cons.not.mp h)
  have hall (kind : TokenKind) := Alike.single hc kind cs
  have hdigit := withReturns.headD cs Char.isDigit rfl '\x00'
  have his {d : Char} (hd : d ≠ '\n') (hd' : d ≠ '\r') :
      (withReturns cs).headD '\x00' = d ↔ cs.headD '\x00' = d := by
    have hbeq := withReturns.headD cs (· == d) (by
      rw [beq_false_of_ne hd.symm, beq_false_of_ne hd'.symm]) '\x00'
    rw [← beq_iff_eq, ← beq_iff_eq (b := d), hbeq]
  have hnumber : Alike (c :: cs) (number (c :: cs)) (number (c :: withReturns cs)) :=
    withReturns.cons hc cs ▸ Alike.number (c :: cs)
  unfold read
  dsimp only
  split
  -- what a character begins alone, and operators that the next character decides
  all_goals try first
    | exact hall _
    | exact .string pos pos' (by decide) (by decide) hcs
    | exact .template pos pos' hcs
    | exact .operator hc cs
    | exact .operatorOr hc _ (by decide) _ cs
  · refine .ite (by rw [hdigit]) (fun _ => hnumber) fun _ => ?_
    refine .ite (take_two_withReturns cs) (fun htwo => ?_) fun _ => hall _
    have hlead : ['.', '.', '.'] <+: '.' :: cs :=
      (List.prefix_cons_inj _).mpr (htwo ▸ cs.take_prefix 2)
    rw [← withReturns.cons hc]
    exact @Alike.punctuation _ ['.', '.', '.'] _ hlead (by decide)
  · refine .ite (his (by decide) (by decide)) (fun hnext => ?_) fun _ => ?_
    · exact .pair hc (by decide) (by decide) _ hnext
    · exact .operatorOr hc _ (by decide) _ cs
  · refine .ite (point_withReturns cs) (fun hnext => ?_) fun _ => ?_
    · exact .pair hc (by decide) (by decide) _ hnext.1
    · exact .operatorOr hc _ (by decide) _ cs
  · refine .ite Iff.rfl (fun _ => hnumber) fun _ => .ite ?_ (fun _ => ?_) fun _ =>
      .ite Iff.rfl (fun _ => ?_) fun _ => ?_
    · rw [withReturns.headD cs startsName (by decide)]
    · exact .name _ (List.mem_singleton.not.mpr hc.symm) cs
    · rw [← withReturns.cons hc]
      exact .name _ List.not_mem_nil (c :: cs)
    · refine ⟨rfl, fun _ => rfl, rfl, rfl, ?_⟩
      simp only [withReturns.cons hc, byteLength_cons]
      omega

end Lexeme

end ApiSurface

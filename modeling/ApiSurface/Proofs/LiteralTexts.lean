import ApiSurface.Proofs.ScannedText
import ApiSurface.Proofs.SpelledPieces
import Mathlib.Data.List.Induction
import Mathlib.Data.Nat.Digits.Defs
/-!
What literals of all kinds have in common: the digits that they are written with, and how a lexer
reads a text that is one token.
-/
namespace ApiSurface

/-! ### Digits -/

/-- A fact about the characters of a text is decided on these, and not on all that there are. -/
instance decidableForallMem (p : Char → Prop) [DecidablePred p] (cs : List Char) :
    Decidable (∀ c ∈ cs, p c) :=
  List.decidableBAll p cs

/-- All digits, those that are greater than nine in both cases. -/
def digitCharacters : List Char := "0123456789abcdefABCDEF".toList

/-- The value of a digit. -/
def digitOf (c : Char) : ℕ :=
  let place := digitCharacters.idxOf c
  if place < 16 then place else place - 6

/-- A digit of a base up to sixteen. -/
def IsDigitIn (radix : ℕ) (c : Char) : Prop := c ∈ digitCharacters ∧ digitOf c < radix

instance (radix : ℕ) (c : Char) : Decidable (IsDigitIn radix c) := by
  unfold IsDigitIn
  infer_instance

/-- The number that digits write, the most significant digit first. -/
def writtenNumber (radix : ℕ) (ds : List Char) : ℕ := Nat.ofDigits radix (ds.reverse.map digitOf)

variable {radix limit : ℕ} {c : Char} {ds : List Char}

theorem writtenNumber_append_singleton (radix : ℕ) (ds : List Char) (c : Char) :
    writtenNumber radix (ds ++ [c]) = writtenNumber radix ds * radix + digitOf c := by
  unfold writtenNumber
  rw [List.reverse_append, List.reverse_singleton, List.singleton_append, List.map_cons,
    Nat.ofDigits_cons, Nat.add_comm, Nat.mul_comm]

theorem writtenNumber_lt (hradix : 1 < radix) (hds : ∀ c ∈ ds, IsDigitIn radix c) :
    writtenNumber radix ds < radix ^ ds.length := by
  have hlt := Nat.ofDigits_lt_base_pow_length (l := ds.reverse.map digitOf) hradix
    (List.forall_mem_map.mpr fun c hc => (hds c (List.mem_reverse.mp hc)).2)
  rwa [List.length_map, List.length_reverse] at hlt

theorem IsDigitIn.mono {radix' : ℕ} (h : IsDigitIn radix c) (hle : radix ≤ radix') :
    IsDigitIn radix' c :=
  ⟨h.1, Nat.lt_of_lt_of_le h.2 hle⟩

theorem IsDigitIn.value (h : IsDigitIn radix c) : digitValue? radix c = some (digitOf c) := by
  have hall : ∀ c ∈ digitCharacters,
      (if 48 ≤ c.toNat ∧ c.toNat ≤ 57 then some (c.toNat - 48)
        else if 97 ≤ c.toNat ∧ c.toNat ≤ 102 then some (c.toNat - 87)
        else if 65 ≤ c.toNat ∧ c.toNat ≤ 70 then some (c.toNat - 55)
        else none) = some (digitOf c) := by decide
  unfold digitValue?
  dsimp only
  rw [hall c h.1, Option.filter_some, if_pos (decide_eq_true h.2)]

/-- Digits are read one by one, and their number is found if it is below the limit. -/
theorem digitsValue?_eq (hradix : 0 < radix) (hlimit : 0 < limit)
    (hds : ∀ c ∈ ds, IsDigitIn radix c) :
    digitsValue? radix limit ds =
      if writtenNumber radix ds < limit then some (writtenNumber radix ds) else none := by
  induction ds using List.reverseRecOn with
  | nil => exact (if_pos hlimit).symm
  | append_singleton ds c ih =>
    have hfront := ih fun d hd => hds d (List.mem_append_left _ hd)
    have hlast := (hds c (by simp)).value
    unfold digitsValue? at hfront ⊢
    rw [List.foldl_append, hfront, writtenNumber_append_singleton]
    by_cases hlt : writtenNumber radix ds < limit
    · rw [if_pos hlt]
      simp [hlast]
    -- the number of more digits is at least that of the first ones
    · have hle : writtenNumber radix ds ≤ writtenNumber radix ds * radix :=
        Nat.le_mul_of_pos_right _ hradix
      rw [if_neg hlt, if_neg (by omega)]
      rfl

/-- What is read of digits does not depend on a sign that they do not have. -/
theorem unsignedValue?_eq (hradix : 0 < radix) (hlimit : 0 < limit) (hne : ds ≠ [])
    (hds : ∀ c ∈ ds, IsDigitIn radix c) :
    unsignedValue? radix limit ds =
      if writtenNumber radix ds < limit then some (writtenNumber radix ds) else none := by
  rw [← digitsValue?_eq hradix hlimit hds]
  unfold unsignedValue?
  split
  · exact absurd (hds '+' List.mem_cons_self).1 (by decide)
  · exact absurd rfl hne
  · rfl

/-! ### Escapes -/

/-- The characters of an escape are passed. -/
theorem stringBody_skip (quote : Char) (taken rest : List Char) :
    stringBody quote taken.length (taken ++ rest) =
      { stringBody quote 0 rest with
        width := (stringBody quote 0 rest).width + byteLength taken } := by
  induction taken with
  | nil => rfl
  | cons c taken ih =>
    rw [List.cons_append, List.length_cons, stringBody, ih, byteLength_cons, Nat.add_assoc,
      Nat.add_comm c.utf8Size]

/-- A string goes on behind an escape, and what the escape denotes is in front of the rest. -/
theorem stringBody_escape {quote : Char} (hquote : quote ≠ '\\') {taken rest value : List Char}
    (hne : taken ≠ []) (hread : Escape.read (taken ++ rest) = ⟨value, taken.length⟩) :
    stringBody quote 0 ('\\' :: (taken ++ rest)) =
      { stringBody quote 0 rest with
        value := value ++ (stringBody quote 0 rest).value
        width := (stringBody quote 0 rest).width + byteLength ('\\' :: taken) } := by
  have hcs : (taken ++ rest).isEmpty = false := by simp [hne]
  have hline : ¬ ('\\' = '\n' ∨ '\\' = '\r') := by decide
  rw [stringBody, if_neg hquote.symm, if_neg hline, if_pos rfl, hcs, if_neg Bool.false_ne_true,
    hread]
  dsimp only
  rw [stringBody_skip, byteLength_cons, Nat.add_assoc, Nat.add_comm (byteLength taken)]
  rfl

/-! ### Texts of one token -/

/-- In front of a character that is neither a blank nor the start of a comment, there is nothing to
be passed. -/
theorem trivia_of_solid (pos : ℕ) (hc : IsSolid c) (cs : List Char) :
    trivia pos 0 (c :: cs) = ⟨c :: cs, pos, false, [], []⟩ := by
  obtain ⟨hend, hblank⟩ := hc
  simp only [List.mem_cons, List.not_mem_nil, or_false, not_or] at hblank
  simp [trivia, hend, hblank]

/-- A lexer in front of a lexeme reads it, and records nothing else. -/
theorem Lexer.scan_lexeme {l : Lexer} {cs : List Char} {x : Lexeme} (hrest : l.rest = c :: cs)
    (hc : IsSolid c) (hread : Lexeme.read l.pos c cs = x) :
    l.scan =
      { rest := x.rest
        token := ⟨x.kind, ⟨l.pos, l.pos + x.width⟩, String.ofList x.value, false, x.substitutes⟩
        comments := l.comments, problems := x.problems.foldl Array.push l.problems } := by
  unfold scan
  rw [hrest, trivia_of_solid l.pos hc, ← hread]
  rfl

/-- A lexer that reads the last token of a text then reads its end. -/
theorem Lexer.scanAll_last {l : Lexer} (hkind : l.scan.token.kind ≠ .endOfFile)
    (hrest : l.scan.rest = []) (n : ℕ) :
    (l.scanAll (n + 2)).1 =
        [l.scan.token, ⟨.endOfFile, ⟨l.scan.pos, l.scan.pos⟩, "", false, false⟩] ∧
      (l.scanAll (n + 2)).2.comments = l.scan.comments ∧
      (l.scanAll (n + 2)).2.problems = l.scan.problems := by
  obtain ⟨-, htoken, hcomments, hproblems⟩ := scan_of_nil hrest
  have hend : l.scan.scan.token.kind = .endOfFile := by rw [htoken]
  have hall : l.scanAll (n + 2) = ([l.scan.token, l.scan.scan.token], l.scan.scan) := by
    rw [scanAll, if_neg hkind, scanAll, if_pos hend]
  rw [hall, htoken]
  exact ⟨rfl, hcomments, hproblems⟩

/-- Reading starts with the first character, if that belongs to the program. -/
theorem Lexer.ofText_cons (hmark : c ≠ '\uFEFF') (hhash : c ≠ '#') (cs : List Char) :
    ofText (c :: cs) = ⟨c :: cs, ⟨.unknown, ⟨0, 0⟩, "", false, false⟩, #[], #[]⟩ := by
  unfold ofText
  simp [hmark, hhash]

/-- The first token of a text is the one read first. -/
theorem head?_lex (text : List Char) :
    (lex text).tokens.head? = some (Lexer.ofText text).scan.token := by
  unfold lex Lexer.scanAll
  dsimp only
  split <;> rfl

/-- A text is one token and nothing else: the token, which covers all of it, and the end are all
that is read, and no problem is found. -/
def IsOneToken (text : List Char) (kind : TokenKind) (value : List Char) : Prop :=
  lex text =
    { start := 0
      tokens :=
        [⟨kind, ⟨0, byteLength text⟩, String.ofList value, false, false⟩,
          ⟨.endOfFile, ⟨byteLength text, byteLength text⟩, "", false, false⟩]
      comments := #[], problems := #[] }

/-- A text that is one lexeme is one token. -/
theorem isOneToken_of_read {cs value : List Char} {kind : TokenKind} (hc : IsSolid c)
    (hmark : c ≠ '\uFEFF') (hhash : c ≠ '#') (hkind : kind ≠ .endOfFile)
    (hread : Lexeme.read 0 c cs = ⟨kind, value, byteLength (c :: cs), [], false, []⟩) :
    IsOneToken (c :: cs) kind value := by
  have hstart := Lexer.ofText_cons hmark hhash cs
  have hscan : (Lexer.ofText (c :: cs)).scan = ⟨[], ⟨kind, ⟨0, byteLength (c :: cs)⟩,
      String.ofList value, false, false⟩, #[], #[]⟩ := by
    have hpos : (Lexer.ofText (c :: cs)).pos = 0 := by
      rw [hstart]
      rfl
    have hfront := Lexer.scan_lexeme (by rw [hstart]) hc (hpos.symm ▸ hread)
    rw [hfront, hpos, Nat.zero_add, hstart]
    rfl
  obtain ⟨htokens, hcomments, hproblems⟩ := Lexer.scanAll_last (l := Lexer.ofText (c :: cs))
    (by rw [hscan]; exact hkind) (by rw [hscan]) cs.length
  unfold IsOneToken lex
  dsimp only [List.length_cons]
  rw [htokens, hcomments, hproblems, hscan, hstart]
  rfl

end ApiSurface

import Mathlib.Data.List.Basic
import ApiSurface.Token.Lexer
/-!
The tokens of a text start one after the other: every one but the end takes at least a byte.
-/
namespace ApiSurface

theorem le_trivia_pos (pos skip : ℕ) (cs : List Char) : pos ≤ (trivia pos skip cs).pos := by
  induction cs generalizing pos skip with
  | nil => exact Nat.le_refl pos
  | cons c cs ih =>
    have hnext (skip : ℕ) : pos ≤ (trivia (pos + c.utf8Size) skip cs).pos :=
      Nat.le_trans (Nat.le_add_right _ _) (ih _ skip)
    cases skip with
    | succ skip => exact hnext skip
    | zero =>
      simp only [trivia]
      split_ifs <;> first | exact hnext _ | exact Nat.le_refl pos

theorem trivia_rest_le (pos skip : ℕ) (cs : List Char) :
    (trivia pos skip cs).rest.length ≤ cs.length := by
  induction cs generalizing pos skip with
  | nil => exact Nat.le_refl 0
  | cons c cs ih =>
    have hnext (skip : ℕ) : (trivia (pos + c.utf8Size) skip cs).rest.length ≤ (c :: cs).length :=
      Nat.le_succ_of_le (ih _ skip)
    cases skip with
    | succ skip => exact hnext skip
    | zero =>
      simp only [trivia]
      split_ifs <;> first | exact hnext _ | exact Nat.le_refl _

theorem byteLength_pos {cs : List Char} (h : cs ≠ []) : 0 < byteLength cs := by
  cases cs with
  | nil => exact absurd rfl h
  | cons c cs => exact Nat.add_pos_left c.utf8Size_pos _

/-- A digit starts a number, and so does a dot before one. -/
theorem numberPart_ne_nil {c : Char} (cs : List Char) (h : c.isDigit = true ∨ c = '.') :
    numberPart (c :: cs) ≠ [] := by
  unfold numberPart
  dsimp only
  split
  · next part hpart =>
    split at hpart
    · split at hpart
      · obtain rfl := Option.some.inj hpart
        exact List.cons_ne_nil _ _
      · cases hpart
    · cases hpart
  · refine List.append_ne_nil_of_left_ne_nil ?_ _
    rcases h with h | rfl
    · refine List.append_ne_nil_of_left_ne_nil ?_ _
      simp [h]
    · exact List.append_ne_nil_of_right_ne_nil _ (by simp)

namespace Lexeme

theorem number_width_pos {c : Char} (cs : List Char) (h : c.isDigit = true ∨ c = '.') :
    0 < (number (c :: cs)).width := by
  unfold number
  dsimp only
  split
  · exact Nat.succ_pos _
  · exact byteLength_pos (numberPart_ne_nil cs h)

theorem operator_width_pos (c : Char) (cs : List Char) : 0 < (operator (c :: cs)).width := by
  simp [operator, punctuation]

theorem name_width_pos (kind : TokenKind) (lead : List Char) {c : Char} (cs : List Char)
    (h : lead ≠ [] ∨ startsName c = true) : 0 < (name kind lead (c :: cs)).width := by
  refine byteLength_pos ?_
  rcases h with h | h
  · exact List.append_ne_nil_of_left_ne_nil h _
  · exact List.append_ne_nil_of_right_ne_nil _ (by simp [continuesName, h])

/-- Every lexeme takes at least one byte. -/
theorem read_width_pos (pos : ℕ) (c : Char) (cs : List Char) : 0 < (read pos c cs).width := by
  unfold read
  dsimp only
  split
  -- what a character begins alone, and then what depends on the next one
  all_goals try first | exact Nat.one_pos | exact Nat.succ_pos _ | exact operator_width_pos c cs
  all_goals split_ifs
  all_goals first
    | exact Nat.one_pos
    | exact Nat.succ_pos _
    | exact operator_width_pos _ _
    | exact number_width_pos _ (Or.inr rfl)
    | exact number_width_pos _ (Or.inl ‹_›)
    | exact byteLength_pos (List.cons_ne_nil _ _)
    | exact name_width_pos _ _ _ (Or.inr ‹_›)
    | exact c.utf8Size_pos

end Lexeme

namespace Lexer

theorem scan_start (l : Lexer) : l.scan.token.span.start = (trivia l.pos 0 l.rest).pos := by
  unfold scan
  dsimp only
  split <;> rfl

theorem le_scan_start (l : Lexer) : l.pos ≤ l.scan.token.span.start := by
  unfold scan
  dsimp only
  split <;> exact le_trivia_pos l.pos 0 l.rest

/-- Only the end of a text takes nothing. -/
theorem scan_width (l : Lexer) : l.scan.token.span.start ≤ l.scan.pos ∧
    (l.scan.token.kind ≠ .endOfFile → l.scan.token.span.start < l.scan.pos) := by
  unfold scan
  dsimp only
  split
  · exact ⟨Nat.le_refl _, fun h => absurd rfl h⟩
  · next c cs hrest =>
    have hlt : (trivia l.pos 0 l.rest).pos < (trivia l.pos 0 l.rest).pos +
        (Lexeme.read (trivia l.pos 0 l.rest).pos c cs).width :=
      Nat.lt_add_of_pos_right (Lexeme.read_width_pos _ c cs)
    exact ⟨Nat.le_of_lt hlt, fun _ => hlt⟩

/-- All tokens that are read start where the reading begins or later, and each after those before
it. -/
theorem scanAll_sorted (fuel : ℕ) (l : Lexer) :
    (∀ t ∈ (l.scanAll fuel).1, l.pos ≤ t.span.start) ∧
      (l.scanAll fuel).1.Pairwise fun t u => t.span.start < u.span.start := by
  induction fuel generalizing l with
  | zero => exact ⟨fun t ht => absurd ht List.not_mem_nil, List.Pairwise.nil⟩
  | succ fuel ih =>
    have hstart := l.le_scan_start
    unfold scanAll
    dsimp only
    split
    · exact ⟨fun t ht => List.mem_singleton.mp ht ▸ hstart, List.pairwise_singleton _ _⟩
    · next hkind =>
      have hwidth := (l.scan_width).2 hkind
      obtain ⟨hlater, hsorted⟩ := ih l.scan
      have hrest : ∀ t ∈ (l.scan.scanAll fuel).1, l.scan.token.span.start < t.span.start :=
        fun t ht => Nat.lt_of_lt_of_le hwidth (hlater t ht)
      refine ⟨fun t ht => ?_, List.pairwise_cons.mpr ⟨hrest, hsorted⟩⟩
      rcases List.mem_cons.mp ht with rfl | ht
      · exact hstart
      · exact Nat.le_trans hstart (Nat.le_of_lt (hrest t ht))

theorem scanAll_width (fuel : ℕ) (l : Lexer) : ∀ t ∈ (l.scanAll fuel).1,
    t.span.start ≤ t.span.stop ∧ (t.kind ≠ .endOfFile → t.span.start < t.span.stop) := by
  induction fuel generalizing l with
  | zero => exact fun t ht => absurd ht List.not_mem_nil
  | succ fuel ih =>
    unfold scanAll
    dsimp only
    split
    · intro t ht
      obtain rfl := List.mem_singleton.mp ht
      exact l.scan_width
    · intro t ht
      rcases List.mem_cons.mp ht with rfl | ht
      · exact l.scan_width
      · exact ih l.scan t ht

end Lexer

end ApiSurface

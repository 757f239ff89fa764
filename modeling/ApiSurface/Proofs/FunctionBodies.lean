import ApiSurface.Grammar.File
import ApiSurface.Proofs.Progress
/-!
What a function body returns. A body is passed token by token, with a stack of the depths at which
the bodies of nested functions opened and a mark that the next brace opens one. Here code is a tree
that knows its nested functions. The pass over the tokens of a tree finds the returns in no braces
that the mark stands before; where it stands before the bodies of functions alone, those are the
returns of the body itself.
-/
namespace ApiSurface

/-! ### Code with its nested functions -/

namespace Token

/-- A token that is neither a brace nor the end of the text. -/
def IsPlain (t : Token) : Prop := t.kind ∉ [.openBrace, .closeBrace, .endOfFile]

/-- Behind a `return`, the value that is returned starts with this token. -/
def StartsValue (t : Token) : Prop :=
  t.afterBreak = false ∧ t.kind ∉ [.semicolon, .closeBrace, .endOfFile]

/-- Whether behind a token the next brace is taken for the body of a nested function. -/
def marks (t next : Token) (pending : Bool) : Bool :=
  match t.kind with
  | .arrow => next.kind == .openBrace
  | .semicolon => false
  | _ => t.isWord "function" || pending

instance (t : Token) : Decidable t.IsPlain := inferInstanceAs (Decidable (_ ∉ _))

instance (t : Token) : Decidable t.StartsValue := inferInstanceAs (Decidable (_ ∧ _))

variable {t : Token} {word : String}

theorem kind_of_isWord (h : t.isWord word = true) : t.kind = .identifier :=
  beq_iff_eq.mp (Bool.and_eq_true_iff.mp h).1

theorem marks_eq_false {next : Token} (hword : t.isWord "function" = false)
    (harrow : t.kind = .arrow → next.kind ≠ .openBrace) : t.marks next false = false := by
  unfold marks
  split
  · next hkind => exact beq_false_of_ne (harrow hkind)
  · rfl
  · rw [hword, Bool.or_false]

/-- A word is no other one. -/
theorem isWord_eq_false {other : String} (h : t.isWord word = true) (hne : word ≠ other) :
    t.isWord other = false := by
  have hvalue : t.value = word := beq_iff_eq.mp (Bool.and_eq_true_iff.mp h).2
  rw [isWord, hvalue, beq_false_of_ne hne, Bool.and_false]

end Token

/-- A brace and the one that closes it. -/
structure Braces (opening closing : Token) : Prop where
  opens : opening.kind = .openBrace
  closes : closing.kind = .closeBrace

/-- Well-bracketed code. Names that are spelled like the words `function` and `return` are tokens
like others, and so are the arrows of function types and of functions without braces. -/
inductive Code where
  | done
  | token (t : Token) (isPlain : t.IsPlain) (rest : Code)
  /-- The word of a `return` statement. -/
  | returns (word : Token) (isReturn : word.isWord "return" = true) (rest : Code)
  /-- Braces of any other kind: blocks, object literals and types, patterns, classes. -/
  | block (opening : Token) (inner : Code) (closing : Token) (braces : Braces opening closing)
    (rest : Code)
  /-- A function: between its word and its body stand its name, its parameters and its type. -/
  | function (word : Token) (isFunction : word.isWord "function" = true) (head : Code)
    (opening : Token) (body : Code) (closing : Token) (braces : Braces opening closing)
    (rest : Code)
  /-- An arrow function from its arrow on, with a body in braces. -/
  | arrow (sign : Token) (isArrow : sign.kind = .arrow) (opening : Token) (body : Code)
    (closing : Token) (braces : Braces opening closing) (rest : Code)

namespace Code

def tokens : Code → List Token
  | done => []
  | token t _ rest => t :: rest.tokens
  | returns word _ rest => word :: rest.tokens
  | block opening inner closing _ rest => opening :: (inner.tokens ++ closing :: rest.tokens)
  | function word _ head opening body closing _ rest =>
    word :: (head.tokens ++ opening :: (body.tokens ++ closing :: rest.tokens))
  | arrow sign _ opening body closing _ rest =>
    sign :: opening :: (body.tokens ++ closing :: rest.tokens)

/-- The first token of code, or the one behind it. -/
def first (code : Code) (next : Token) : Token := code.tokens.headD next

/-- In code before a token, some `return` with a value stands in the body of no nested function. -/
def ReturnsOwn (next : Token) : Code → Prop
  | done => False
  | token _ _ rest => rest.ReturnsOwn next
  | returns _ _ rest => (rest.first next).StartsValue ∨ rest.ReturnsOwn next
  | block _ inner closing _ rest => inner.ReturnsOwn closing ∨ rest.ReturnsOwn next
  | function _ _ head opening _ _ _ rest => head.ReturnsOwn opening ∨ rest.ReturnsOwn next
  | arrow _ _ _ _ _ _ rest => rest.ReturnsOwn next

/-- Whether the pass leaves code with a brace to come that it takes for the body of a nested
function, if it entered it so. -/
def pendingBehind (next : Token) : Code → Bool → Bool
  | done, pending => pending
  | token t _ rest, pending => rest.pendingBehind next (t.marks (rest.first next) pending)
  | returns _ _ rest, pending => rest.pendingBehind next pending
  | block _ inner closing _ rest, _ =>
    rest.pendingBehind next (inner.pendingBehind closing false)
  | function _ _ _ _ body closing _ rest, _ =>
    rest.pendingBehind next (body.pendingBehind closing false)
  | arrow _ _ _ body closing _ rest, _ =>
    rest.pendingBehind next (body.pendingBehind closing false)

/-- Whether some word `return` before a value stands in no braces that the pass takes for the body
of a nested function. -/
def counts (next : Token) : Code → Bool → Bool
  | done, _ => false
  | token t _ rest, pending =>
    (t.isWord "return" && decide (rest.first next).StartsValue) ||
      rest.counts next (t.marks (rest.first next) pending)
  | returns _ _ rest, pending =>
    decide (rest.first next).StartsValue || rest.counts next pending
  | block _ inner closing _ rest, pending =>
    (!pending && inner.counts closing false) ||
      rest.counts next (inner.pendingBehind closing false)
  | function _ _ head opening body closing _ rest, _ =>
    head.counts opening true ||
      ((!head.pendingBehind opening true && body.counts closing false) ||
        rest.counts next (body.pendingBehind closing false))
  | arrow _ _ _ body closing _ rest, _ => rest.counts next (body.pendingBehind closing false)

/-- The pass takes for the bodies of nested functions those braces alone that are, as far as values
are returned in them, and no name that is spelled like the word `return` stands before a value. -/
def WellMarked (next : Token) : Code → Bool → Prop
  | done, _ => True
  | token t _ rest, pending =>
    (t.isWord "return" = true → ¬ (rest.first next).StartsValue) ∧
      rest.WellMarked next (t.marks (rest.first next) pending)
  | returns _ _ rest, pending => rest.WellMarked next pending
  | block _ inner closing _ rest, pending =>
    (if pending then ¬ inner.ReturnsOwn closing else inner.WellMarked closing false) ∧
      rest.WellMarked next (inner.pendingBehind closing false)
  | function _ _ head opening body closing _ rest, _ =>
    head.WellMarked opening true ∧
      (head.pendingBehind opening true = true ∨ body.counts closing false = false) ∧
      rest.WellMarked next (body.pendingBehind closing false)
  | arrow _ _ _ body closing _ rest, _ => rest.WellMarked next (body.pendingBehind closing false)

instance decidableReturnsOwn (next : Token) : (code : Code) → Decidable (code.ReturnsOwn next)
  | done => inferInstanceAs (Decidable False)
  | token _ _ rest => rest.decidableReturnsOwn next
  | returns _ _ rest => @instDecidableOr _ _ inferInstance (rest.decidableReturnsOwn next)
  | block _ inner closing _ rest =>
    @instDecidableOr _ _ (inner.decidableReturnsOwn closing) (rest.decidableReturnsOwn next)
  | function _ _ head opening _ _ _ rest =>
    @instDecidableOr _ _ (head.decidableReturnsOwn opening) (rest.decidableReturnsOwn next)
  | arrow _ _ _ _ _ _ rest => rest.decidableReturnsOwn next

instance decidableWellMarked (next : Token) :
    (code : Code) → (pending : Bool) → Decidable (code.WellMarked next pending)
  | done, _ => inferInstanceAs (Decidable True)
  | token _ _ rest, _ => @instDecidableAnd _ _ inferInstance (rest.decidableWellMarked next _)
  | returns _ _ rest, _ => rest.decidableWellMarked next _
  | block _ inner closing _ rest, pending =>
    @instDecidableAnd _ _
      (match pending with
        | true => @instDecidableNot _ (inner.decidableReturnsOwn closing)
        | false => inner.decidableWellMarked closing false)
      (rest.decidableWellMarked next _)
  | function _ _ head opening _ _ _ rest, _ =>
    @instDecidableAnd _ _ (head.decidableWellMarked opening true)
      (@instDecidableAnd _ _ inferInstance (rest.decidableWellMarked next _))
  | arrow _ _ _ _ _ _ rest, _ => rest.decidableWellMarked next _

/-- Where the code is well marked, the pass finds its own returns. -/
theorem counts_iff {next : Token} {code : Code} {pending : Bool}
    (h : code.WellMarked next pending) :
    code.counts next pending = true ↔ code.ReturnsOwn next := by
  induction code generalizing next pending with
  | done => exact iff_of_false Bool.false_ne_true id
  | token t _ rest ih =>
    obtain ⟨hname, hrest⟩ := h
    have hcounts : (t.isWord "return" && decide (rest.first next).StartsValue) = false := by
      simpa using hname
    rw [counts, hcounts, Bool.false_or]
    exact ih hrest
  | returns _ _ rest ih =>
    rw [counts, Bool.or_eq_true, decide_eq_true_eq, ih h]
    rfl
  | block _ inner closing _ rest ihInner ihRest =>
    obtain ⟨hinner, hrest⟩ := h
    have hhere : (!pending && inner.counts closing false) = true ↔ inner.ReturnsOwn closing := by
      cases pending with
      | false => exact ihInner hinner
      | true => exact iff_of_false Bool.false_ne_true hinner
    rw [counts, Bool.or_eq_true, hhere, ihRest hrest]
    rfl
  | function _ _ head opening body closing _ rest ihHead _ ihRest =>
    obtain ⟨hhead, hbody, hrest⟩ := h
    have hnone : (!head.pendingBehind opening true && body.counts closing false) = false := by
      rcases hbody with h | h <;> rw [h]
      · exact Bool.false_and _
      · exact Bool.and_false _
    rw [counts, hnone, Bool.false_or, Bool.or_eq_true, ihHead hhead, ihRest hrest]
    rfl
  | arrow _ _ _ _ _ _ rest _ ih => exact ih h

/-- The head of an ordinary function, with its name, its parameters and its type: it has no brace,
arrow or semicolon, and no name that is spelled like the word `return`. -/
def IsSimple (head : Code) : Prop :=
  ∀ t ∈ head.tokens, t.kind ∉ [.openBrace, .arrow, .semicolon] ∧ t.isWord "return" = false

/-- Code in which the heads of functions are simple, and names are not spelled like words. -/
def Ordinary (next : Token) : Code → Prop
  | done => True
  | token t _ rest =>
    t.isWord "function" = false ∧ t.isWord "return" = false ∧
      (t.kind = .arrow → (rest.first next).kind ≠ .openBrace) ∧ rest.Ordinary next
  | returns _ _ rest => rest.Ordinary next
  | block _ inner closing _ rest => inner.Ordinary closing ∧ rest.Ordinary next
  | function _ _ head _ body closing _ rest =>
    head.IsSimple ∧ body.Ordinary closing ∧ rest.Ordinary next
  | arrow _ _ _ body closing _ rest => body.Ordinary closing ∧ rest.Ordinary next

/-- The brace behind a simple head is taken for the body of the function. -/
theorem IsSimple.marks_body {next : Token} {head : Code} (h : head.IsSimple) :
    head.WellMarked next true ∧ head.pendingBehind next true = true := by
  induction head with
  | done => exact ⟨trivial, rfl⟩
  | token t _ rest ih =>
    obtain ⟨⟨hkind, hname⟩, hrest⟩ := List.forall_mem_cons.mp h
    have hmarks : t.marks (rest.first next) true = true := by
      unfold Token.marks
      split
      · next hsign => simp [hsign] at hkind
      · next hsign => simp [hsign] at hkind
      · exact Bool.or_true _
    rw [WellMarked, pendingBehind, hmarks]
    exact ⟨⟨fun hreturn => absurd (hname.symm.trans hreturn) Bool.false_ne_true, (ih hrest).1⟩,
      (ih hrest).2⟩
  | returns _ isReturn =>
    have hname := (List.forall_mem_cons.mp h).1.2
    exact absurd (hname.symm.trans isReturn) Bool.false_ne_true
  | block _ _ _ braces =>
    exact absurd (by simp [braces.opens]) (List.forall_mem_cons.mp h).1.1
  | function _ _ _ _ _ _ braces =>
    have hbehind := (List.forall_mem_append.mp (List.forall_mem_cons.mp h).2).2
    exact absurd (by simp [braces.opens]) (List.forall_mem_cons.mp hbehind).1.1
  | arrow _ isArrow => exact absurd (by simp [isArrow]) (List.forall_mem_cons.mp h).1.1

/-- Behind ordinary code, no brace is taken for the body of a nested function. -/
theorem Ordinary.pendingBehind_eq_false {next : Token} {code : Code} (h : code.Ordinary next) :
    code.pendingBehind next false = false := by
  induction code generalizing next with
  | done => rfl
  | token t _ rest ih =>
    obtain ⟨hword, -, harrow, hrest⟩ := h
    rw [pendingBehind, Token.marks_eq_false hword harrow]
    exact ih hrest
  | returns _ _ _ ih => exact ih h
  | block _ inner closing _ rest ihInner ihRest =>
    rw [pendingBehind, ihInner h.1]
    exact ihRest h.2
  | function _ _ _ _ body closing _ rest _ ihBody ihRest =>
    rw [pendingBehind, ihBody h.2.1]
    exact ihRest h.2.2
  | arrow _ _ _ body closing _ rest ihBody ihRest =>
    rw [pendingBehind, ihBody h.1]
    exact ihRest h.2

/-- In ordinary code, the braces that are taken for the bodies of nested functions are theirs. -/
theorem Ordinary.wellMarked {next : Token} {code : Code} (h : code.Ordinary next) :
    code.WellMarked next false := by
  induction code generalizing next with
  | done => trivial
  | token t _ rest ih =>
    obtain ⟨hword, hname, harrow, hrest⟩ := h
    rw [WellMarked, Token.marks_eq_false hword harrow]
    exact ⟨fun hreturn => absurd (hname.symm.trans hreturn) Bool.false_ne_true, ih hrest⟩
  | returns _ _ _ ih => exact ih h
  | block _ inner closing _ rest ihInner ihRest =>
    obtain ⟨hinner, hrest⟩ := h
    rw [WellMarked, hinner.pendingBehind_eq_false]
    exact ⟨ihInner hinner, ihRest hrest⟩
  | function _ _ head opening body closing _ rest _ _ ihRest =>
    obtain ⟨hhead, hbody, hrest⟩ := h
    rw [WellMarked, hbody.pendingBehind_eq_false]
    exact ⟨hhead.marks_body.1, Or.inl hhead.marks_body.2, ihRest hrest⟩
  | arrow _ _ _ body closing _ rest _ ihRest =>
    obtain ⟨hbody, hrest⟩ := h
    rw [WellMarked, hbody.pendingBehind_eq_false]
    exact ihRest hrest

end Code

/-! ### Taking tokens -/

namespace ParseState

/-- From one state to another, the tokens taken are these. -/
def Takes : List Token → ParseState → ParseState → Prop
  | [], s, s' => s' = s
  | t :: ts, s, s' => s.current = t ∧ Takes ts (Parse.next s) s'

variable {s s' : ParseState} {ts us : List Token}

theorem takes_append : Takes (ts ++ us) s s' ↔ ∃ s₁, Takes ts s s₁ ∧ Takes us s₁ s' := by
  induction ts generalizing s with
  | nil => exact ⟨fun h => ⟨s, rfl, h⟩, fun ⟨_, heq, h⟩ => heq ▸ h⟩
  | cons t ts ih =>
    constructor
    · rintro ⟨ht, h⟩
      obtain ⟨s₁, hts, hus⟩ := ih.mp h
      exact ⟨s₁, ⟨ht, hts⟩, hus⟩
    · rintro ⟨s₁, ⟨ht, hts⟩, hus⟩
      exact ⟨ht, ih.mpr ⟨s₁, hts, hus⟩⟩

theorem Takes.passes (h : Takes ts s s') (hs : s.Ordered) : s.Passes s' := by
  induction ts generalizing s with
  | nil =>
    obtain rfl : s' = s := h
    exact .refl hs
  | cons t ts ih => exact (next_passes hs).trans (ih h.2 (next_ordered s))

/-- The first token of code is the one it stands at. -/
theorem Takes.first {code : Code} (h : Takes code.tokens s s') :
    s.current = code.first s'.current := by
  unfold Code.first
  cases htokens : code.tokens with
  | nil =>
    rw [htokens] at h
    obtain rfl : s' = s := h
    rfl
  | cons t ts =>
    rw [htokens] at h
    exact h.1

/-- The tokens that come next are taken. -/
theorem takes_of_iterate {n : ℕ} (h : (List.iterate Parse.next s n).map current = ts) :
    Takes ts s (Parse.next^[n] s) := by
  subst h
  induction n generalizing s with
  | zero => rfl
  | succ n ih => exact ⟨rfl, ih⟩

end ParseState

/-! ### The pass over the tokens of code -/

namespace Parse

namespace BodyScan

/-- What is known behind a brace that opens. -/
def opened (b : BodyScan) : BodyScan :=
  { b with
    depth := b.depth + 1
    inner := if b.pending then (b.depth + 1) :: b.inner else b.inner
    pending := false }

/-- What is known behind a brace that closes. -/
def closed (b : BodyScan) : BodyScan :=
  { b with
    depth := b.depth - 1
    inner := if b.inner.head? = some b.depth then b.inner.tail else b.inner }

/-- What is known behind a part of the body with certain returns, if braces are closed again. -/
def after (b : BodyScan) (pending value : Bool) : BodyScan :=
  { b with pending, returnsValue := b.returnsValue || (b.inner.isEmpty && value) }

/-- What is known behind code, from what was known before it. -/
def behind (b : BodyScan) (code : Code) (next : Token) : BodyScan :=
  b.after (code.pendingBehind next b.pending) (code.counts next b.pending)

theorem after_after (b : BodyScan) (pending value pending' value' : Bool) :
    (b.after pending value).after pending' value' = b.after pending' (value || value') := by
  simp only [after, Bool.or_assoc, ← Bool.and_or_distrib_left]

theorem behind_after (b : BodyScan) (pending value : Bool) (code : Code) (next : Token) :
    (b.after pending value).behind code next =
      b.after (code.pendingBehind next pending) (value || code.counts next pending) :=
  b.after_after pending value _ _

/-- The body itself is open, and so are all bodies of nested functions that were entered. -/
structure IsInside (b : BodyScan) : Prop where
  depth_pos : 0 < b.depth
  inner_le : ∀ d ∈ b.inner, d ≤ b.depth

variable {b : BodyScan}

theorem IsInside.opened (h : b.IsInside) : b.opened.IsInside where
  depth_pos := Nat.succ_pos _
  inner_le d hd := by
    have hle : ∀ d ∈ b.inner, d ≤ b.depth + 1 := fun d hd => Nat.le_succ_of_le (h.inner_le d hd)
    cases hpending : b.pending with
    | false =>
      simp only [BodyScan.opened, hpending, Bool.false_eq_true, if_false] at hd
      exact hle d hd
    | true =>
      simp only [BodyScan.opened, hpending, if_true] at hd
      rcases List.mem_cons.mp hd with rfl | hd
      · exact Nat.le_refl _
      · exact hle d hd

theorem IsInside.after (h : b.IsInside) (pending value : Bool) :
    (b.after pending value).IsInside := ⟨h.depth_pos, h.inner_le⟩

/-- Behind braces, what was known before them is known again, but for what their code returns. -/
theorem closed_behind_opened (h : b.IsInside) (code : Code) (next : Token) :
    (b.opened.behind code next).closed =
      b.after (code.pendingBehind next false) (!b.pending && code.counts next false) := by
  obtain ⟨depth, inner, pending, returnsValue⟩ := b
  cases pending with
  | false =>
    have hne : inner.head? ≠ some (depth + 1) := fun hhead =>
      absurd (h.inner_le _ (List.mem_of_mem_head? hhead)) (Nat.not_succ_le_self depth)
    simp [opened, behind, after, closed, hne]
  | true => simp [opened, behind, after, closed]

end BodyScan

variable {c : Setting} {s s' s'' : ParseState} {b b' b'' : BodyScan}

/-! #### One token -/

theorem current_bind_run {α : Type} (f : Token → Parse α) :
    (current >>= f) c s = f s.current c s := rfl

theorem bodyStep_opening (h : s.current.kind = .openBrace) :
    bodyStep b c s = ((b.opened, true), next s) := by
  unfold bodyStep
  simp only [current_bind_run, h]
  rfl

theorem bodyStep_closing (h : s.current.kind = .closeBrace) :
    bodyStep b c s = ((b.closed, b.depth - 1 != 0), next s) := by
  unfold bodyStep
  simp only [current_bind_run, h]
  rfl

theorem bodyStep_word (h : s.current.kind = .identifier) :
    bodyStep b c s = ((b.after (s.current.isWord "function" || b.pending)
      (s.current.isWord "return" && decide (next s).current.StartsValue), true), next s) := by
  unfold bodyStep BodyScan.after
  simp only [current_bind_run, h]
  cases hfunction : s.current.isWord "function" with
  | true =>
    have hreturn := Token.isWord_eq_false hfunction (by decide : "function" ≠ "return")
    simp only [if_true, hreturn, Bool.true_or, Bool.false_and, Bool.and_false, Bool.or_false]
    rfl
  | false =>
    simp only [Bool.false_eq_true, if_false, Bool.false_or]
    cases hreturn : s.current.isWord "return" with
    | true =>
      have hvalue : (!(next s).current.afterBreak &&
          !([.semicolon, .closeBrace, .endOfFile] : List TokenKind).contains
            (next s).current.kind) = decide (next s).current.StartsValue := by
        simp [Token.StartsValue, Bool.decide_and]
      rw [← hvalue, Bool.true_and, Bool.and_comm]
      rfl
    | false =>
      rw [Bool.false_and, Bool.and_false, Bool.or_false]
      rfl

/-- A token that is no brace changes what is known as the word or the sign that it is. -/
theorem bodyStep_plain (h : s.current.IsPlain) :
    bodyStep b c s = ((b.after (s.current.marks (next s).current b.pending)
      (s.current.isWord "return" && decide (next s).current.StartsValue), true), next s) := by
  cases hkind : s.current.kind with
  | openBrace => exact absurd h (by simp [Token.IsPlain, hkind])
  | closeBrace => exact absurd h (by simp [Token.IsPlain, hkind])
  | endOfFile => exact absurd h (by simp [Token.IsPlain, hkind])
  | identifier =>
    rw [bodyStep_word hkind]
    simp only [Token.marks, hkind]
  | _ =>
    have hword (word : String) : s.current.isWord word = false := by simp [Token.isWord, hkind]
    unfold bodyStep BodyScan.after
    simp only [current_bind_run, hkind, hword, Token.marks, Bool.false_and, Bool.and_false,
      Bool.or_false, Bool.false_or]
    rfl

/-! #### All tokens of code -/

/-- Passing the rest of a body from one state comes to the same as from another one. -/
def BodyLeads (c : Setting) (b : BodyScan) (s : ParseState) (b' : BodyScan) (s' : ParseState) :
    Prop :=
  ∀ left : List Char, s.ahead ≤ left.length → ∃ left' : List Char, s'.ahead ≤ left'.length ∧
    iterateFrom bodyStep left b c s = iterateFrom bodyStep left' b' c s'

theorem BodyLeads.refl (c : Setting) (b : BodyScan) (s : ParseState) : BodyLeads c b s b s :=
  fun left hleft => ⟨left, hleft, rfl⟩

theorem BodyLeads.trans (h : BodyLeads c b s b' s') (h' : BodyLeads c b' s' b'' s'') :
    BodyLeads c b s b'' s'' := by
  intro left hleft
  obtain ⟨left', hleft', heq⟩ := h left hleft
  obtain ⟨left'', hleft'', heq'⟩ := h' left' hleft'
  exact ⟨left'', hleft'', heq.trans heq'⟩

/-- A step takes one of the tokens ahead, which its bound has a character for. -/
theorem iterateFrom_bodyStep {left : List Char} {more : Bool} (hs : s.Ordered)
    (hkind : s.current.kind ≠ .endOfFile) (hleft : s.ahead ≤ left.length)
    (hstep : bodyStep b c s = ((b', more), next s)) :
    ∃ left' : List Char, (next s).ahead ≤ left'.length ∧ iterateFrom bodyStep left b c s =
      if more then iterateFrom bodyStep left' b' c (next s) else (b', next s) := by
  have hlt := (ParseState.next_passed hs hkind).2
  cases left with
  | nil => exact absurd hleft (Nat.not_le.mpr (Nat.zero_lt_of_lt hlt))
  | cons d left =>
    have hreach : Reaches s Prod.snd (bodyStep b c s) := by
      rw [hstep]
      exact ⟨ParseState.next_goesOn hs, fun _ => hlt⟩
    refine ⟨left, Nat.le_of_lt_succ (Nat.lt_of_lt_of_le hlt hleft), ?_⟩
    show (if (stepOn bodyStep b c s).1.2 then iterateFrom bodyStep left (stepOn bodyStep b c s).1.1
      else return (stepOn bodyStep b c s).1.1) c (stepOn bodyStep b c s).2 = _
    rw [Stepping.stepOn_eq hreach, hstep]
    cases more <;> rfl

theorem BodyLeads.step (hs : s.Ordered) (hkind : s.current.kind ≠ .endOfFile)
    (hstep : bodyStep b c s = ((b', true), next s)) : BodyLeads c b s b' (next s) := by
  intro left hleft
  obtain ⟨left', hleft', heq⟩ := iterateFrom_bodyStep hs hkind hleft hstep
  exact ⟨left', hleft', heq⟩

theorem BodyLeads.plain (hs : s.Ordered) (h : s.current.IsPlain) :
    BodyLeads c b s (b.after (s.current.marks (next s).current b.pending)
      (s.current.isWord "return" && decide (next s).current.StartsValue)) (next s) :=
  .step hs (fun hkind => h (by simp [hkind])) (bodyStep_plain h)

theorem BodyLeads.returnWord (hs : s.Ordered) (h : s.current.isWord "return" = true) :
    BodyLeads c b s (b.after b.pending (decide (next s).current.StartsValue)) (next s) := by
  have hword := bodyStep_word (b := b) (c := c) (Token.kind_of_isWord h)
  rw [h, Token.isWord_eq_false h (by decide : "return" ≠ "function"), Bool.false_or,
    Bool.true_and] at hword
  exact .step hs (by simp [Token.kind_of_isWord h]) hword

theorem BodyLeads.functionWord (hs : s.Ordered) (h : s.current.isWord "function" = true) :
    BodyLeads c b s (b.after true false) (next s) := by
  have hword := bodyStep_word (b := b) (c := c) (Token.kind_of_isWord h)
  rw [h, Token.isWord_eq_false h (by decide : "function" ≠ "return"), Bool.true_or,
    Bool.false_and] at hword
  exact .step hs (by simp [Token.kind_of_isWord h]) hword

theorem BodyLeads.arrowSign (hs : s.Ordered) (h : s.current.kind = .arrow)
    (hopens : (next s).current.kind = .openBrace) :
    BodyLeads c b s (b.after true false) (next s) := by
  have hsign := BodyLeads.plain (b := b) (c := c) hs (by simp [Token.IsPlain, h])
  have hmarks : s.current.marks (next s).current b.pending = true := by
    simp only [Token.marks, h, hopens, beq_self_eq_true]
  have hreturn : s.current.isWord "return" = false := by simp [Token.isWord, h]
  rwa [hmarks, hreturn, Bool.false_and] at hsign

/-- From one state to another, code is passed, whatever body it stands in. -/
def CodeLeads (c : Setting) (code : Code) (s s' : ParseState) : Prop :=
  ∀ b : BodyScan, b.IsInside → BodyLeads c b s (b.behind code s'.current) s'

/-- Code is passed behind a part of the body. -/
theorem BodyLeads.andThen {rest : Code} {pending value : Bool} (hb : b.IsInside)
    (h : BodyLeads c b s (b.after pending value) s') (hrest : CodeLeads c rest s' s'') :
    BodyLeads c b s (b.after (rest.pendingBehind s''.current pending)
      (value || rest.counts s''.current pending)) s'' := by
  have hlater := hrest _ (hb.after pending value)
  rw [BodyScan.behind_after] at hlater
  exact h.trans hlater

/-- Braces are passed if the code inside them is. -/
theorem BodyLeads.braces {inner : Code} (hb : b.IsInside) (hs : s.Ordered) (hs' : s'.Ordered)
    (h : Braces s.current s'.current) (hinner : CodeLeads c inner (next s) s') :
    BodyLeads c b s (b.after (inner.pendingBehind s'.current false)
      (!b.pending && inner.counts s'.current false)) (next s') := by
  have hopens : BodyLeads c b s b.opened (next s) :=
    .step hs (by simp [h.opens]) (bodyStep_opening h.opens)
  have hmore : (b.depth + 1 - 1 != 0) = true := by simp [Nat.pos_iff_ne_zero.mp hb.depth_pos]
  have hcloses : BodyLeads c (b.opened.behind inner s'.current) s'
      (b.opened.behind inner s'.current).closed (next s') :=
    .step hs' (by simp [h.closes]) (by rw [← hmore]; exact bodyStep_closing h.closes)
  rw [BodyScan.closed_behind_opened hb] at hcloses
  exact hopens.trans ((hinner _ hb.opened).trans hcloses)

/-- The braces of a function's body are passed behind a part of the body that it stands in. -/
theorem BodyLeads.andBraces {inner : Code} {pending value : Bool} (hb : b.IsInside)
    (hlead : BodyLeads c b s (b.after pending value) s') (hs' : s'.Ordered) (hs'' : s''.Ordered)
    (h : Braces s'.current s''.current) (hinner : CodeLeads c inner (next s') s'') :
    BodyLeads c b s (b.after (inner.pendingBehind s''.current false)
      (value || (!pending && inner.counts s''.current false))) (next s'') := by
  have hbraces := BodyLeads.braces (hb.after pending value) hs' hs'' h hinner
  rw [BodyScan.after_after] at hbraces
  exact hlead.trans hbraces

/-- The tokens of code are passed with what the pass makes of it. By induction on the code: each
token is a step, and in braces the depth is larger than it is here. -/
theorem codeLeads_of_takes {code : Code} (hs : s.Ordered)
    (h : ParseState.Takes code.tokens s s') : CodeLeads c code s s' := by
  have hnext := ParseState.next_ordered
  induction code generalizing s s' with
  | done =>
    obtain rfl : s' = s := h
    intro b _
    have hsame : b.behind .done s'.current = b := by
      simp [BodyScan.behind, BodyScan.after, Code.pendingBehind, Code.counts]
    rw [hsame]
    exact .refl c b s'
  | token t isPlain rest ih =>
    obtain ⟨rfl, hrest⟩ := h
    intro b hb
    have htoken := BodyLeads.plain (c := c) (b := b) hs isPlain
    rw [hrest.first] at htoken
    exact htoken.andThen hb (ih (hnext s) hrest)
  | returns word isReturn rest ih =>
    obtain ⟨rfl, hrest⟩ := h
    intro b hb
    have hword := BodyLeads.returnWord (c := c) (b := b) hs isReturn
    rw [hrest.first] at hword
    exact hword.andThen hb (ih (hnext s) hrest)
  | block opening inner closing braces rest ihInner ihRest =>
    obtain ⟨rfl, hbehind⟩ := h
    obtain ⟨s₁, hinner, rfl, hrest⟩ := ParseState.takes_append.mp hbehind
    have hs₁ := (hinner.passes (hnext s)).ordered
    intro b hb
    exact (BodyLeads.braces hb hs hs₁ braces (ihInner (hnext s) hinner)).andThen hb
      (ihRest (hnext s₁) hrest)
  | function word isFunction head opening body closing braces rest ihHead ihBody ihRest =>
    obtain ⟨rfl, hbehind⟩ := h
    obtain ⟨s₁, hhead, rfl, hbehind₁⟩ := ParseState.takes_append.mp hbehind
    obtain ⟨s₂, hbody, rfl, hrest⟩ := ParseState.takes_append.mp hbehind₁
    have hs₁ := (hhead.passes (hnext s)).ordered
    have hs₂ := (hbody.passes (hnext s₁)).ordered
    intro b hb
    have hbefore := (BodyLeads.functionWord hs isFunction).andThen hb (ihHead (hnext s) hhead)
    have hbraces := hbefore.andBraces hb hs₁ hs₂ braces (ihBody (hnext s₁) hbody)
    have hlater := hbraces.andThen hb (ihRest (hnext s₂) hrest)
    rw [Bool.false_or, Bool.or_assoc] at hlater
    exact hlater
  | arrow sign isArrow opening body closing braces rest ihBody ihRest =>
    obtain ⟨rfl, rfl, hbehind⟩ := h
    obtain ⟨s₁, hbody, rfl, hrest⟩ := ParseState.takes_append.mp hbehind
    have hs₁ := (hbody.passes (hnext (next s))).ordered
    intro b hb
    have hsign := BodyLeads.arrowSign (c := c) (b := b) hs isArrow braces.opens
    have hbraces := hsign.andBraces hb (hnext s) hs₁ braces (ihBody (hnext (next s)) hbody)
    exact hbraces.andThen hb (ihRest (hnext s₁) hrest)

/-- A function body in braces is passed whole, with what the pass makes of its code. -/
theorem functionBody_of_takes {opening closing : Token} {body : Code}
    (braces : Braces opening closing) (hs : s.Ordered)
    (h : ParseState.Takes (opening :: (body.tokens ++ [closing])) s s') :
    functionBody c s =
      (⟨⟨opening.span.start, closing.span.stop⟩, body.counts closing false⟩, s') := by
  obtain ⟨rfl, hbehind⟩ := h
  obtain ⟨s₁, hbody, rfl, rfl⟩ := ParseState.takes_append.mp hbehind
  have hs₁ := hbody.passes (ParseState.next_ordered s)
  let b : BodyScan := ⟨0, [], false, false⟩
  have hinside : b.opened.IsInside := ⟨Nat.one_pos, fun d hd => absurd hd List.not_mem_nil⟩
  have hopens : BodyLeads c b s b.opened (next s) :=
    .step hs (by simp [braces.opens]) (bodyStep_opening braces.opens)
  have hbodyLeads : BodyLeads c b.opened (next s) (b.opened.behind body s₁.current) s₁ :=
    codeLeads_of_takes (ParseState.next_ordered s) hbody _ hinside
  have hiterate : iterate bodyStep b c s = ((b.opened.behind body s₁.current).closed, next s₁) := by
    obtain ⟨left, hleft, hrun⟩ := hopens.trans hbodyLeads (' ' :: s.rest) s.ahead_le
    -- the brace at depth one ends the pass
    have hcloses : bodyStep (b.opened.behind body s₁.current) c s₁ =
        (((b.opened.behind body s₁.current).closed, false), next s₁) :=
      bodyStep_closing braces.closes
    obtain ⟨_, _, hlast⟩ :=
      iterateFrom_bodyStep hs₁.ordered (by simp [braces.closes]) hleft hcloses
    exact hrun.trans hlast
  have hstop : max s₁.current.span.stop s.pos = s₁.current.span.stop :=
    Nat.max_eq_left (Nat.le_trans ((ParseState.next_passes hs).trans hs₁).pos_le
      hs₁.ordered.le_stop)
  show ((⟨⟨s.pos, max (iterate bodyStep b c s).2.lastEnd s.pos⟩,
    (iterate bodyStep b c s).1.returnsValue⟩ : FunctionBody), (iterate bodyStep b c s).2) = _
  rw [hiterate]
  show ((⟨⟨s.pos, max s₁.current.span.stop s.pos⟩, body.counts s₁.current false⟩ :
    FunctionBody), next s₁) = _
  rw [hstop]
  rfl

/-- A function body is passed up to the end of its closing brace, and is said to return a value if
some word `return` before one stands in no braces that are taken for the body of a nested function.
Where the code is well marked, that says that some `return` of the body itself does. -/
theorem functionBody_by_own_returns {opening closing : Token} {body : Code}
    (braces : Braces opening closing) (hs : s.Ordered)
    (h : ParseState.Takes (opening :: (body.tokens ++ [closing])) s s') :
    functionBody c s =
        (⟨⟨opening.span.start, closing.span.stop⟩, body.counts closing false⟩, s') ∧
      (body.WellMarked closing false →
        ((functionBody c s).1.returnsValue = true ↔ body.ReturnsOwn closing)) := by
  have hrun : functionBody c s = _ := functionBody_of_takes braces hs h
  refine ⟨hrun, fun hmarked => ?_⟩
  rw [hrun]
  exact Code.counts_iff hmarked

/-- The code in `{ function g() { return 1; } return; }`. -/
def nestedReturn : Code :=
  .function ⟨.identifier, ⟨2, 10⟩, "function", false, false⟩ (by decide)
    (.token ⟨.identifier, ⟨11, 12⟩, "g", false, false⟩ (by decide)
      (.token ⟨.openParen, ⟨12, 13⟩, "", false, false⟩ (by decide)
        (.token ⟨.closeParen, ⟨13, 14⟩, "", false, false⟩ (by decide) .done)))
    ⟨.openBrace, ⟨15, 16⟩, "", false, false⟩
    (.returns ⟨.identifier, ⟨17, 23⟩, "return", false, false⟩ (by decide)
      (.token ⟨.number, ⟨24, 25⟩, "1", false, false⟩ (by decide)
        (.token ⟨.semicolon, ⟨25, 26⟩, "", false, false⟩ (by decide) .done)))
    ⟨.closeBrace, ⟨27, 28⟩, "", false, false⟩ ⟨rfl, rfl⟩
    (.returns ⟨.identifier, ⟨29, 35⟩, "return", false, false⟩ (by decide)
      (.token ⟨.semicolon, ⟨35, 36⟩, "", false, false⟩ (by decide) .done))

/-- The state in front of `{ function g() { return 1; } return; }`. -/
def nestedReturnStart : ParseState :=
  .start "\x7b function g() \x7b return 1; \x7d return; \x7d".toList

theorem nestedReturn_by_own_returns :
    functionBody ⟨"a.ts", []⟩ nestedReturnStart = (⟨⟨0, 38⟩, false⟩, next^[13] nestedReturnStart) ∧
      ¬ nestedReturn.ReturnsOwn ⟨.closeBrace, ⟨37, 38⟩, "", false, false⟩ := by
  have braces : Braces ⟨.openBrace, ⟨0, 1⟩, "", false, false⟩
      ⟨.closeBrace, ⟨37, 38⟩, "", false, false⟩ := ⟨rfl, rfl⟩
  have htakes : ParseState.Takes _ nestedReturnStart _ := ParseState.takes_of_iterate
    (by decide +kernel : (List.iterate next nestedReturnStart 13).map ParseState.current =
      ⟨.openBrace, ⟨0, 1⟩, "", false, false⟩ :: (nestedReturn.tokens ++
        [⟨.closeBrace, ⟨37, 38⟩, "", false, false⟩]))
  obtain ⟨hrun, hown⟩ := functionBody_by_own_returns (c := ⟨"a.ts", []⟩) braces
    (ParseState.next_ordered _) htakes
  refine ⟨hrun, fun hreturns => ?_⟩
  rw [← hown (by decide +kernel), hrun] at hreturns
  exact absurd hreturns (by decide +kernel)

/-- The code in `{ function g({ a }) { return a; } }`. -/
def destructured : Code :=
  .function ⟨.identifier, ⟨2, 10⟩, "function", false, false⟩ (by decide)
    (.token ⟨.identifier, ⟨11, 12⟩, "g", false, false⟩ (by decide)
      (.token ⟨.openParen, ⟨12, 13⟩, "", false, false⟩ (by decide)
        (.block ⟨.openBrace, ⟨13, 14⟩, "", false, false⟩
          (.token ⟨.identifier, ⟨15, 16⟩, "a", false, false⟩ (by decide) .done)
          ⟨.closeBrace, ⟨17, 18⟩, "", false, false⟩ ⟨rfl, rfl⟩
          (.token ⟨.closeParen, ⟨18, 19⟩, "", false, false⟩ (by decide) .done))))
    ⟨.openBrace, ⟨20, 21⟩, "", false, false⟩
    (.returns ⟨.identifier, ⟨22, 28⟩, "return", false, false⟩ (by decide)
      (.token ⟨.identifier, ⟨29, 30⟩, "a", false, false⟩ (by decide)
        (.token ⟨.semicolon, ⟨30, 31⟩, "", false, false⟩ (by decide) .done)))
    ⟨.closeBrace, ⟨32, 33⟩, "", false, false⟩ ⟨rfl, rfl⟩ .done

/-- The state in front of `{ function g({ a }) { return a; } }`. -/
def destructuredStart : ParseState :=
  .start "\x7b function g(\x7b a \x7d) \x7b return a; \x7d \x7d".toList

/-- The pattern's brace is taken for the nested function's body, so what that function returns is
taken for a value of the body around it. -/
theorem destructured_return_counted :
    destructuredStart.Ordered ∧ ParseState.Takes (⟨.openBrace, ⟨0, 1⟩, "", false, false⟩ ::
        (destructured.tokens ++ [⟨.closeBrace, ⟨34, 35⟩, "", false, false⟩]))
        destructuredStart (next^[14] destructuredStart) ∧
      ¬ destructured.ReturnsOwn ⟨.closeBrace, ⟨34, 35⟩, "", false, false⟩ ∧
      (functionBody ⟨"a.ts", []⟩ destructuredStart).1.returnsValue = true := by
  have hs : destructuredStart.Ordered := ParseState.next_ordered _
  have htakes : ParseState.Takes _ destructuredStart _ := ParseState.takes_of_iterate
    (by decide +kernel : (List.iterate next destructuredStart 14).map ParseState.current =
      ⟨.openBrace, ⟨0, 1⟩, "", false, false⟩ :: (destructured.tokens ++
        [⟨.closeBrace, ⟨34, 35⟩, "", false, false⟩]))
  refine ⟨hs, htakes, by decide +kernel, ?_⟩
  rw [functionBody_of_takes ⟨rfl, rfl⟩ hs htakes]
  decide +kernel

end Parse

end ApiSurface

import ApiSurface.Proofs.Progress
/-!
The parsers that productions are made of make progress.
-/
namespace ApiSurface

namespace Parse

variable {α β σ : Type} {k : ℕ} {taken inside : Bool}

/-! ### Tokens and names -/

instance (p : Parse α) [hp : Still p] : Looking p :=
  ⟨fun c s => by rw [hp.state]⟩

instance (p : Parse α) [hp : Still p] : Steady k taken inside p :=
  .of_goesOn fun c s h => by
    rw [hp.state]
    exact .refl h.ordered

namespace Looking

instance (p : Parse α) (f : α → Parse β) [hp : Looking p] [hf : ∀ a, Looking (f a)] :
    Looking (p >>= f) :=
  ⟨fun c s => ((hf _).current c _).trans (hp.current c s)⟩

instance (c : Prop) [Decidable c] (p q : Parse α) [hp : Looking p] [hq : Looking q] :
    Looking (if c then p else q) := by split <;> assumption

instance (p : Parse α) : Looking (lookAhead p) := ⟨fun _ _ => rfl⟩

instance (start length : ℕ) (p : Problem) : Looking (reportAt start length p) := by
  refine ⟨fun c s => ?_⟩
  show (if s.diagnostics.back?.any (·.start == start) then s else _ : ParseState).current = _
  split <;> rfl

instance (name : Ident) (span : Span) (modifiers : Modifiers) (doc : Option String)
    (shape : DeclarationShape) : Looking (declare name span modifiers doc shape) :=
  ⟨fun _ _ => rfl⟩

instance (p : Problem) : Looking (report p) := by
  unfold report
  infer_instance

end Looking

namespace Showing

variable {kind : TokenKind} {kinds : List TokenKind}

instance [Known kind.isInner true] : Showing (isAt kind) where
  ne_end _ _ h := eq_of_beq h ▸ kind.ne_of_isInner

instance (word : String) : Showing (isAtWord word) where
  ne_end _ s h hend := by
    have hword : s.current.kind = .identifier := eq_of_beq (Bool.and_eq_true_iff.mp h).1
    rw [hend] at hword
    cases hword

instance (words : List String) : Showing (isAtWords words) where
  ne_end _ s h hend := by
    have hword : s.current.kind = .identifier := eq_of_beq (Bool.and_eq_true_iff.mp h).1
    rw [hend] at hword
    cases hword

instance : Showing isAtIdentifier := inferInstanceAs (Showing (isAt .identifier))

end Showing

namespace Excluding

variable {kinds : List TokenKind}

instance [h : HasEnd kinds] : Excluding (isAtAny kinds) where
  ne_end _ _ hnot hend := by
    have hmem := List.contains_iff_mem.mpr (hend ▸ h.mem)
    exact Bool.false_ne_true (hnot.symm.trans hmem)

instance : Excluding (isAt .endOfFile) where
  ne_end _ _ hnot hend := Bool.false_ne_true (hnot.symm.trans (beq_iff_eq.mpr hend))

instance : Excluding isAtExpressionEnd := by
  unfold isAtExpressionEnd
  infer_instance

instance : Excluding isAtTypeEnd := by
  unfold isAtTypeEnd
  infer_instance

end Excluding

namespace Finding

instance : Finding (pure none : Parse (Option α)) := ⟨fun _ _ h => absurd h Bool.false_ne_true⟩

instance (c : Bool) (a : Option α) [hc : Known c false] :
    Finding (pure (if c = true then a else none) : Parse (Option α)) := by
  rw [if_neg (Bool.eq_false_iff.mp hc.eq)]
  infer_instance

instance (p : Parse α) (f : α → Parse (Option β)) [hf : ∀ a, Finding (f a)] :
    Finding (p >>= f) := ⟨fun _ _ h => (hf _).ne_end _ _ h⟩

instance (t : Parse Bool) (f : Bool → Parse (Option β)) [hshow : Showing t]
    [htrue : Looking (f true)] [hfalse : Finding (f false)] : Finding (t >>= f) := by
  refine ⟨fun c s h => ?_⟩
  change (f (t c s).1 c (t c s).2).1.isSome = true at h
  show (f (t c s).1 c (t c s).2).2.current.kind ≠ .endOfFile
  cases hanswer : (t c s).1 with
  | true =>
    rw [htrue.current, hshow.current]
    exact hshow.ne_end c s hanswer
  | false => exact hfalse.ne_end c _ (hanswer ▸ h)

instance (c : Prop) [Decidable c] (p q : Parse (Option α)) [hp : Finding p] [hq : Finding q] :
    Finding (if c then p else q) := by split <;> assumption

instance (c : Bool) (p q : Parse (Option α)) [hc : Known c false] [hq : Finding q] :
    Finding (if c = true then p else q) := by
  rwa [if_neg (Bool.eq_false_iff.mp hc.eq)]

end Finding

namespace Refusing

/-- A token that is taken if a test holds. -/
theorem of_test {t : Parse Bool} (ht : Looking t) :
    Refusing (do if ← t then (do advance; return true) else return false) := by
  refine ⟨fun c s => ?_⟩
  show ((if (t c s).1 then (do advance; return true : Parse Bool) else return false) c
    (t c s).2).1 = false → ((if (t c s).1 then (do advance; return true : Parse Bool) else
      return false) c (t c s).2).2.current = s.current
  split
  · exact fun h => absurd h.symm Bool.false_ne_true
  · exact fun _ => ht.current c s

/-- A token that is reported if it is not taken. -/
theorem of_report {t : Parse Bool} (ht : Refusing t) (p : Problem) :
    Refusing (do if ← t then return true else (do report p; return false)) := by
  refine ⟨fun c s => ?_⟩
  show ((if (t c s).1 then (return true : Parse Bool) else (do report p; return false)) c
    (t c s).2).1 = false → ((if (t c s).1 then (return true : Parse Bool) else
      (do report p; return false)) c (t c s).2).2.current = s.current
  split
  · exact fun h => absurd h.symm Bool.false_ne_true
  · next hnot =>
    intro _
    have hreport : Looking (report p) := inferInstance
    exact (hreport.current c _).trans (ht.current c s (Bool.eq_false_iff.mpr hnot))

instance (kind : TokenKind) : Refusing (accept kind) := of_test inferInstance

instance (word : String) : Refusing (acceptWord word) := of_test inferInstance

instance (kind : TokenKind) : Refusing (expect kind) := of_report inferInstance _

end Refusing

namespace Steady

instance : Steady k taken inside advance := of_goesOn fun _ _ h => ParseState.next_goesOn h.ordered

instance : Grabbing k taken advance :=
  ⟨fun _ _ h => ⟨ParseState.next_goesOn h.ordered,
    fun _ => (ParseState.next_passed h.ordered (h.ne_end rfl)).2⟩⟩

instance (start length : ℕ) (p : Problem) : Steady k taken inside (reportAt start length p) :=
  of_goesOn fun c s h => by
    show s.GoesOn (if s.diagnostics.back?.any (·.start == start) then s else _)
    split
    · exact .refl h.ordered
    · exact .of_eq h.ordered rfl rfl

instance (p : Problem) : Steady k taken inside (report p) := by
  unfold report
  infer_instance

instance (kind : TokenKind) : Steady k taken inside (accept kind) := by
  unfold accept
  infer_instance

instance (kind : TokenKind) [Known kind.isInner true] : Taking k taken inside (accept kind) := by
  unfold accept
  infer_instance

instance (word : String) : Taking k taken inside (acceptWord word) := by
  unfold acceptWord
  infer_instance

instance (kind : TokenKind) : Steady k taken inside (expect kind) := by
  unfold expect
  infer_instance

instance (kind : TokenKind) [Known kind.isInner true] : Taking k taken inside (expect kind) := by
  unfold expect
  infer_instance

instance (word : String) : Steady k taken inside (expectWord word) := by
  unfold expectWord
  infer_instance

instance : Steady k taken inside takeIdent := by
  unfold takeIdent
  infer_instance

instance : Steady k taken inside identifier := by
  unfold identifier
  infer_instance

instance : Steady k taken inside stringLiteral := by
  unfold stringLiteral
  infer_instance

instance : Steady k taken inside specifier := by
  unfold specifier
  infer_instance

instance : Steady k taken inside semicolon := by
  unfold semicolon
  infer_instance

instance : Steady k taken inside entityName := by
  unfold entityName
  infer_instance

instance : Steady k taken inside exportName := by
  unfold exportName
  infer_instance

instance (condition : Parse Bool) (p : Parse α) [Steady k taken inside condition]
    [Steady k taken false p] : Steady k taken inside (whenever condition p) := by
  unfold whenever
  infer_instance

/-- What follows a condition that takes a token may enter productions. -/
instance (condition : Parse Bool) (p : Parse α) [Taking k taken inside condition]
    [Refusing condition] [Steady k true false p] :
    Steady k taken inside (whenever condition p) := by
  unfold whenever
  infer_instance

instance (close : TokenKind) (item : Parse α) [Steady k taken false item] :
    Steady k taken inside (listUntil close item) := by
  unfold listUntil
  infer_instance

instance (p : Parse α) [hp : Steady k taken true p] : Grabbing k taken (orAdvance p) := by
  refine ⟨fun c s h => ?_⟩
  have hgoes := hp.goesOn (c := c) h
  show Reaches s _ ((if (p c s).2.pos == s.pos then (do advance; return (p c s).1) else
    return (p c s).1) c (p c s).2)
  split
  · next heq =>
    have hnext := ParseState.next_goesOn hgoes.ordered
    have hkind := hgoes.kind_eq (eq_of_beq heq) ▸ h.ne_end rfl
    exact ⟨hgoes.trans hnext, fun _ => Nat.lt_of_lt_of_le
      (ParseState.next_passed hgoes.ordered hkind).2 hgoes.ahead_le⟩
  · next hne =>
    exact ⟨hgoes, fun _ => hgoes.moved (h.ne_end rfl) fun heq => hne (beq_iff_eq.mpr heq)⟩

/-- After a parser that took no token inside the text, one is reported and passed. -/
theorem orReport {p : Parse α} (hp : Steady k taken true p) {c : Setting} {s : ParseState}
    (h : s.Within k taken true) (problem : Problem) : Reaches s Prod.snd ((do
      let x ← p
      let after ← position
      let isEnd ← isAt .endOfFile
      if after == s.pos && !isEnd then
        report problem
        advance
        return (x, true)
      else return (x, true)) c s) := by
  have hgoes := hp.goesOn (c := c) h
  show Reaches s _ ((if (p c s).2.pos == s.pos &&
      !((p c s).2.current.kind == TokenKind.endOfFile) then
      (do report problem; advance; return ((p c s).1, true))
    else return ((p c s).1, true)) c (p c s).2)
  split
  · next hboth =>
    have hkind : (p c s).2.current.kind ≠ .endOfFile := by
      simpa using (Bool.and_eq_true_iff.mp hboth).2
    have hwithin := (hgoes.within h).inner hkind
    exact Advances.after inferInstance hgoes hwithin
  · next hnot =>
    refine ⟨hgoes, fun _ => hgoes.moved (h.ne_end rfl) fun heq => hnot ?_⟩
    have hkind := hgoes.kind_eq heq ▸ h.ne_end rfl
    simp [heq, hkind]

instance (tooDeep p : Parse α) [Steady k taken false tooDeep] [Steady k taken inside p] :
    Steady k taken inside (nested tooDeep p) := by
  unfold nested
  infer_instance

instance (without : Bool) (p : Parse α) [Steady k taken inside p] :
    Steady k taken inside (settingConditionals without p) := by
  unfold settingConditionals
  infer_instance

instance (p : Parse α) [Steady k taken inside p] :
    Steady k taken inside (withoutConditionals p) := by
  unfold withoutConditionals
  infer_instance

instance (p : Parse α) [Steady k taken inside p] : Steady k taken inside (withConditionals p) := by
  unfold withConditionals
  infer_instance

instance (parent : DeclIndex) (p : Parse α) [Steady k taken inside p] :
    Steady k taken inside (inBodyOf parent p) := by
  unfold inBodyOf
  infer_instance

instance (name : Ident) (span : Span) (modifiers : Modifiers) (doc : Option String)
    (shape : DeclarationShape) : Steady k taken inside (declare name span modifiers doc shape) :=
  of_goesOn fun _ _ h => .of_eq h.ordered rfl rfl

instance (index : DeclIndex) (span : Span) (shape : DeclarationShape) :
    Steady k taken inside (complete index span shape) :=
  of_goesOn fun _ _ h => .of_eq h.ordered rfl rfl

end Steady

section Answers

variable {kind : TokenKind} {c : Setting} {s : ParseState}

theorem accept_answer (h : s.current.kind = kind) :
    (accept kind c s).1 = true := by
  show ((if s.current.kind == kind then (do advance; return true : Parse Bool) else return false)
    c s).1 = true
  rw [if_pos (beq_iff_eq.mpr h)]
  rfl

theorem accept_run_of_ne (h : s.current.kind ≠ kind) :
    accept kind c s = (false, s) := by
  show (if s.current.kind == kind then (do advance; return true : Parse Bool) else return false)
    c s = _
  rw [if_neg fun heq => h (eq_of_beq heq)]
  rfl

theorem expect_answer (h : s.current.kind = kind) :
    (expect kind c s).1 = true := by
  show ((if (accept kind c s).1 then (return true : Parse Bool) else
    (do report _; return false)) c (accept kind c s).2).1 = true
  rw [if_pos (accept_answer h)]
  rfl

end Answers

/-! ### Passing over -/

namespace Steady

instance (depth : ℕ) : Grabbing k taken (balancedStep depth) := by
  refine .current (fun t ht => ?_) nofun
  rw [if_neg fun hend => ht (eq_of_beq hend)]
  infer_instance

instance (depth : ℕ) : Stepping k taken false (balancedStep depth) := by
  refine .current (fun t ht => inferInstance) fun _ t ht => ?_
  rw [if_pos (beq_iff_eq.mpr ht)]
  infer_instance

instance : Steady k taken inside skipBalanced := by
  unfold skipBalanced
  infer_instance

instance : Grabbing k taken skipBalanced := by
  unfold skipBalanced
  infer_instance

instance : Grabbing k taken skipGroup := by
  unfold skipGroup
  infer_instance

instance (b : BodyScan) : Stepping k taken false (bodyStep b) := by
  unfold bodyStep
  refine .current (fun t ht => ?_) fun _ t ht => ?_
  · split <;> infer_instance
  · rw [ht]
    infer_instance

instance : Steady k taken inside functionBody := by
  unfold functionBody
  infer_instance

instance : Steady k taken inside optionalBody := by
  unfold optionalBody
  infer_instance

instance : Steady k taken inside skipStatement := by
  unfold skipStatement
  refine .bind inferInstance fun start => repeatWhile (.current (fun t ht => ?_) fun _ t ht => ?_)
  · split <;> infer_instance
  · rw [ht]
    infer_instance

instance : Steady k taken inside skipExpression := by
  unfold skipExpression
  infer_instance

instance : Steady k taken inside skipType := by
  unfold skipType
  infer_instance

instance : Steady k taken inside skipAngles := by
  unfold skipAngles
  refine .bind (iterate (fun depth => .current (fun t ht => ?_) fun _ t ht => ?_) 0) fun _ =>
    inferInstance
  · split <;> infer_instance
  · rw [ht]
    infer_instance

end Steady

end Parse

end ApiSurface

import Mathlib.Data.List.Basic
import ApiSurface.Grammar.Skipping
import ApiSurface.Proofs.Backtracking
/-!
Parsers that declare nothing: they leave the table of declarations as it is, and among the tokens
they only go on. That a parser is one of them follows from its parts, so instances find it.
-/
namespace ApiSurface

namespace ParseState

/-- How many characters are left, and one more before the end of the text. -/
def ahead (s : ParseState) : ℕ :=
  s.rest.length + if s.current.kind = .endOfFile then 0 else 1

/-- The current token takes something, so the others start behind it, or it is the end of the
text. -/
structure Ordered (s : ParseState) : Prop where
  le_stop : s.pos ≤ s.lexer.pos
  lt_stop : s.current.kind ≠ .endOfFile → s.pos < s.lexer.pos
  ended : s.current.kind = .endOfFile → s.rest = []

/-- From one state to another, no token was given back and nothing was declared. -/
structure Passes (s s' : ParseState) : Prop where
  ordered : s'.Ordered
  declarations : s'.declarations = s.declarations
  context : s'.context = s.context
  pos_le : s.pos ≤ s'.pos
  kind_eq : s'.pos = s.pos → s'.current.kind = s.current.kind
  ahead_le : s'.ahead ≤ s.ahead

variable {s s' s'' : ParseState}

theorem Passes.refl (h : s.Ordered) : s.Passes s :=
  ⟨h, rfl, rfl, Nat.le_refl _, fun _ => rfl, Nat.le_refl _⟩

theorem Passes.trans (h : s.Passes s') (h' : s'.Passes s'') : s.Passes s'' where
  ordered := h'.ordered
  declarations := h'.declarations.trans h.declarations
  context := h'.context.trans h.context
  pos_le := Nat.le_trans h.pos_le h'.pos_le
  kind_eq heq := by
    have hle := h.pos_le
    have hle' := h'.pos_le
    exact (h'.kind_eq (by omega)).trans (h.kind_eq (by omega))
  ahead_le := Nat.le_trans h'.ahead_le h.ahead_le

/-- A change of a state that keeps its lexer keeps the tokens that are left. -/
theorem Ordered.of_eq (h : s.Ordered) (hlexer : s'.lexer = s.lexer) : s'.Ordered := by
  obtain ⟨hle, hlt, hended⟩ := h
  unfold pos current at hle hlt
  unfold current rest at hended
  exact ⟨by rwa [pos, current, hlexer], by rwa [pos, current, hlexer],
    by rwa [current, rest, hlexer]⟩

/-- A change to what is no token, no declaration and no context. -/
theorem Passes.of_eq (h : s.Ordered) (hlexer : s'.lexer = s.lexer)
    (hdeclarations : s'.declarations = s.declarations) (hcontext : s'.context = s.context) :
    s.Passes s' := by
  have hcurrent : s'.current = s.current := congrArg Lexer.token hlexer
  have hpos : s'.pos = s.pos := congrArg (·.span.start) hcurrent
  have hahead : s'.ahead = s.ahead := by rw [ahead, ahead, hcurrent, rest, rest, hlexer]
  exact ⟨h.of_eq hlexer, hdeclarations, hcontext, Nat.le_of_eq hpos.symm,
    fun _ => congrArg _ hcurrent, Nat.le_of_eq hahead⟩

theorem Passes.stall (h : s.Ordered) : s.Passes { s with stalled := true } :=
  .of_eq h rfl rfl rfl

theorem next_ordered (s : ParseState) : (Parse.next s).Ordered :=
  ⟨s.lexer.scan_width.1, s.lexer.scan_width.2, Lexer.scan_rest_of_end⟩

theorem ahead_next_le (s : ParseState) : (Parse.next s).ahead ≤ s.rest.length := by
  unfold ahead
  split
  · exact Lexer.scan_rest_le s.lexer
  · next hkind => exact Lexer.scan_rest_lt hkind

theorem next_passes (h : s.Ordered) : s.Passes (Parse.next s) := by
  have hstart : s.lexer.pos ≤ (Parse.next s).pos := s.lexer.le_scan_start
  refine ⟨next_ordered s, rfl, rfl, Nat.le_trans h.le_stop hstart, fun heq => ?_,
    Nat.le_trans (ahead_next_le s) (Nat.le_add_right _ _)⟩
  -- where the place is the same, the current token takes nothing, so it is the end
  have hend : s.current.kind = .endOfFile := by
    by_contra hkind
    exact absurd heq (Nat.ne_of_gt (Nat.lt_of_lt_of_le (h.lt_stop hkind) hstart))
  obtain ⟨-, htoken, -⟩ := Lexer.scan_of_nil (h.ended hend)
  exact (congrArg Token.kind htoken).trans hend.symm

/-- A token that is not the end is left behind. -/
theorem next_passed (h : s.Ordered) (hkind : s.current.kind ≠ .endOfFile) :
    s.pos < (Parse.next s).pos ∧ (Parse.next s).ahead < s.ahead := by
  have hstart : s.lexer.pos ≤ (Parse.next s).pos := s.lexer.le_scan_start
  refine ⟨Nat.lt_of_lt_of_le (h.lt_stop hkind) hstart,
    Nat.lt_of_le_of_lt (ahead_next_le s) ?_⟩
  rw [ahead, if_neg hkind]
  exact Nat.lt_succ_self _

/-- A parser that declares nothing only goes on. -/
theorem Walks.passes (h : s.Walks s') (hs : s.Ordered) : s.Passes s' := by
  induction h with
  | refl s => exact .refl hs
  | trans _ _ ih ih' =>
    have hfirst := ih hs
    exact hfirst.trans (ih' hfirst.ordered)
  | next s => exact next_passes hs
  | report s d => exact .of_eq hs rfl rfl rfl
  | within k _ ih =>
    have h := ih (hs.of_eq rfl)
    exact ⟨h.ordered.of_eq rfl, h.declarations, rfl, h.pos_le, h.kind_eq, h.ahead_le⟩
  | mark s b _ => exact .of_eq hs rfl rfl rfl

end ParseState

namespace Parse

variable {α β σ : Type}

/-- A parser that declares nothing. -/
class Quiet (p : Parse α) : Prop where
  walks : ∀ (c : Setting) (s : ParseState), s.Walks (p c s).2

namespace Quiet

theorem bind {p : Parse α} {f : α → Parse β} (hp : Quiet p) (hf : ∀ a, Quiet (f a)) :
    Quiet (p >>= f) := ⟨fun c s => (hp.walks c s).trans ((hf _).walks c _)⟩

instance (a : α) : Quiet (pure a : Parse α) := ⟨fun _ s => .refl s⟩

instance (p : Parse α) (f : α → Parse β) [hp : Quiet p] [hf : ∀ a, Quiet (f a)] :
    Quiet (p >>= f) := bind hp hf

instance (f : α → β) (p : Parse α) [hp : Quiet p] : Quiet (f <$> p) := ⟨hp.walks⟩

instance (c : Prop) [Decidable c] (p q : Parse α) [hp : Quiet p] [hq : Quiet q] :
    Quiet (if c then p else q) := by split <;> assumption

instance : Quiet (get : Parse ParseState) := ⟨fun _ s => .refl s⟩

instance : Quiet (read : Parse Setting) := ⟨fun _ s => .refl s⟩

instance : Quiet advance := ⟨fun _ s => .next s⟩

instance : Quiet stall := ⟨fun _ s => .mark s true fun _ => rfl⟩

/-- A parser that looks ahead goes back to where it was. -/
theorem lookAhead_run {p : Parse α} (hp : Quiet p) (c : Setting) (s : ParseState) :
    lookAhead p c s = ((p c s).1, { s with stalled := (p c s).2.stalled }) := by
  rw [← (hp.walks c s).back]
  rfl

instance (p : Parse α) [hp : Quiet p] : Quiet (lookAhead p) :=
  ⟨fun c s => by
    rw [lookAhead_run hp]
    exact .mark s _ (hp.walks c s).stalled⟩

/-- A parser that finds nothing goes back to where it was. -/
theorem attempt_run_none {p : Parse (Option α)} (hp : Quiet p) {c : Setting} {s : ParseState}
    (h : (p c s).1 = none) :
    Parse.attempt p c s = (none, { s with stalled := (p c s).2.stalled }) := by
  unfold Parse.attempt
  rw [← (hp.walks c s).back]
  split
  · next heq =>
    rw [heq] at h
    cases h
  · next heq => rw [heq]

theorem attempt_run_some {p : Parse (Option α)} {c : Setting} {s : ParseState} {a : α}
    (h : (p c s).1 = some a) : Parse.attempt p c s = (some a, (p c s).2) := by
  unfold Parse.attempt
  split
  · next heq =>
    rw [heq] at h ⊢
    rw [Option.some.inj h]
  · next heq =>
    rw [heq] at h
    cases h

theorem attempt {p : Parse (Option α)} (hp : Quiet p) : Quiet (attempt p) where
  walks c s := by
    cases hfound : (p c s).1 with
    | none =>
      rw [attempt_run_none hp hfound]
      exact .mark s _ (hp.walks c s).stalled
    | some a =>
      rw [attempt_run_some hfound]
      exact hp.walks c s

instance (p : Parse (Option α)) [hp : Quiet p] : Quiet (Parse.attempt p) := attempt hp

instance (start length : ℕ) (p : Problem) : Quiet (reportAt start length p) where
  walks c s := by
    show s.Walks (if s.diagnostics.back?.any (·.start == start) then s else _)
    split
    · exact .refl s
    · exact .report s _

/-- A context that is changed and changed back. -/
theorem within {p : Parse α} (hp : Quiet p) (enter leave : ParseContext → ParseContext)
    {c : Setting} {s : ParseState} (h : leave (enter s.context) = s.context) :
    s.Walks (within enter leave p c s).2 := by
  have hwalks := hp.walks c { s with context := enter s.context }
  have hinner : (p c { s with context := enter s.context }).2.context = enter s.context :=
    hwalks.extends.context
  show s.Walks { (p c { s with context := enter s.context }).2 with
    context := leave (p c { s with context := enter s.context }).2.context }
  rw [hinner, h]
  exact .within _ hwalks

instance (step : σ → Parse (σ × Bool)) (x : σ) [hstep : Quiet (step x)] :
    Quiet (stepOn step x) := by
  unfold stepOn
  infer_instance

theorem iterateFrom {step : σ → Parse (σ × Bool)} (hstep : ∀ x, Quiet (step x)) (cs : List Char)
    (x : σ) : Quiet (iterateFrom step cs x) := by
  induction cs generalizing x with
  | nil =>
    unfold Parse.iterateFrom
    infer_instance
  | cons c cs ih =>
    unfold Parse.iterateFrom
    infer_instance

theorem iterate {step : σ → Parse (σ × Bool)} (hstep : ∀ x, Quiet (step x)) (x : σ) :
    Quiet (iterate step x) :=
  bind inferInstance fun s => iterateFrom hstep (' ' :: s.rest) x

instance (step : σ → Parse (σ × Bool)) (x : σ) [hstep : ∀ x, Quiet (step x)] :
    Quiet (Parse.iterate step x) := iterate hstep x

theorem repeatWhile {step : Parse Bool} (hstep : Quiet step) : Quiet (repeatWhile step) :=
  iterate (fun _ => inferInstance) ()

instance (step : Parse Bool) [hstep : Quiet step] : Quiet (Parse.repeatWhile step) :=
  repeatWhile hstep

instance (step : Parse (List α × Bool)) [Quiet step] : Quiet (collect step) := by
  unfold collect gather
  infer_instance

/-! ### Tokens and names -/

instance : Quiet current := by
  unfold current
  infer_instance

instance : Quiet peek := by
  unfold peek
  infer_instance

instance (kind : TokenKind) : Quiet (isAt kind) := by
  unfold isAt
  infer_instance

instance (kinds : List TokenKind) : Quiet (isAtAny kinds) := by
  unfold isAtAny
  infer_instance

instance (word : String) : Quiet (isAtWord word) := by
  unfold isAtWord
  infer_instance

instance (words : List String) : Quiet (isAtWords words) := by
  unfold isAtWords
  infer_instance

instance : Quiet isAtIdentifier := by
  unfold isAtIdentifier
  infer_instance

instance : Quiet isAfterBreak := by
  unfold isAfterBreak
  infer_instance

instance (kind : TokenKind) : Quiet (nextIs kind) := by
  unfold nextIs
  infer_instance

instance (word : String) : Quiet (nextIsWord word) := by
  unfold nextIsWord
  infer_instance

instance : Quiet nextIsIdentifierOnLine := by
  unfold nextIsIdentifierOnLine
  infer_instance

instance : Quiet position := by
  unfold position
  infer_instance

instance (start : ℕ) : Quiet (spanFrom start) := by
  unfold spanFrom
  infer_instance

instance (p : Problem) : Quiet (report p) := by
  unfold report
  infer_instance

instance (kind : TokenKind) : Quiet (accept kind) := by
  unfold accept
  infer_instance

instance (word : String) : Quiet (acceptWord word) := by
  unfold acceptWord
  infer_instance

instance (kind : TokenKind) : Quiet (expect kind) := by
  unfold expect
  infer_instance

instance (word : String) : Quiet (expectWord word) := by
  unfold expectWord
  infer_instance

instance : Quiet takeIdent := by
  unfold takeIdent
  infer_instance

instance : Quiet identifier := by
  unfold identifier
  infer_instance

instance : Quiet stringLiteral := by
  unfold stringLiteral
  infer_instance

instance : Quiet specifier := by
  unfold specifier
  infer_instance

instance : Quiet canEndStatement := by
  unfold canEndStatement
  infer_instance

instance : Quiet semicolon := by
  unfold semicolon
  infer_instance

instance : Quiet entityName := by
  unfold entityName
  infer_instance

instance : Quiet exportName := by
  unfold exportName
  infer_instance

instance (condition : Parse Bool) (p : Parse α) [Quiet condition] [Quiet p] :
    Quiet (whenever condition p) := by
  unfold whenever
  infer_instance

instance (close : TokenKind) (item : Parse α) [Quiet item] : Quiet (listUntil close item) := by
  unfold listUntil
  infer_instance

instance (p : Parse α) [Quiet p] : Quiet (orAdvance p) := by
  unfold orAdvance
  infer_instance

instance (tooDeep p : Parse α) [Quiet tooDeep] [hp : Quiet p] : Quiet (nested tooDeep p) := by
  unfold nested
  have hwithin : Quiet (Parse.within (fun k => { k with depth := k.depth + 1 })
      (fun k => { k with depth := k.depth - 1 }) p) := ⟨fun _ _ => within hp _ _ rfl⟩
  infer_instance

instance (without : Bool) (p : Parse α) [hp : Quiet p] : Quiet (settingConditionals without p) :=
  ⟨fun _ s => within hp ({ · with withoutConditionals := without })
    ({ · with withoutConditionals := s.context.withoutConditionals }) rfl⟩

instance (p : Parse α) [Quiet p] : Quiet (withoutConditionals p) := by
  unfold withoutConditionals
  infer_instance

instance (p : Parse α) [Quiet p] : Quiet (withConditionals p) := by
  unfold withConditionals
  infer_instance

instance : Quiet leadingDocHere := by
  unfold leadingDocHere
  refine bind inferInstance fun setting => bind inferInstance fun s => ?_
  dsimp only
  split <;> infer_instance

/-! ### Passing over -/

instance (depth : ℕ) : Quiet (balancedStep depth) := by
  unfold balancedStep
  infer_instance

instance : Quiet skipBalanced := by
  unfold skipBalanced
  infer_instance

instance : Quiet skipGroup := by
  unfold skipGroup
  infer_instance

instance (b : BodyScan) : Quiet (bodyStep b) := by
  unfold bodyStep
  refine bind inferInstance fun t => ?_
  split <;> infer_instance

instance : Quiet functionBody := by
  unfold functionBody
  infer_instance

instance : Quiet optionalBody := by
  unfold optionalBody
  infer_instance

instance : Quiet skipStatement := by
  unfold skipStatement
  refine bind inferInstance fun start => repeatWhile (bind inferInstance fun t => ?_)
  split <;> infer_instance

instance : Quiet isAtExpressionEnd := by
  unfold isAtExpressionEnd
  infer_instance

instance : Quiet skipExpression := by
  unfold skipExpression
  infer_instance

instance : Quiet isAtTypeEnd := by
  unfold isAtTypeEnd
  infer_instance

instance : Quiet skipType := by
  unfold skipType
  infer_instance

instance : Quiet skipAngles := by
  unfold skipAngles
  refine bind (iterate (fun depth => bind inferInstance fun t => ?_) 0) fun _ => inferInstance
  split <;> infer_instance

end Quiet

/-- A parser that declares nothing, but may change what is noted of the file. -/
class Passing (p : Parse α) : Prop where
  passes : ∀ (c : Setting) (s : ParseState), s.Ordered → s.Passes (p c s).2

namespace Passing

instance (p : Parse α) (f : α → Parse β) [hp : Passing p] [hf : ∀ a, Passing (f a)] :
    Passing (p >>= f) where
  passes c s h := by
    have hfirst := hp.passes c s h
    exact hfirst.trans ((hf _).passes c _ hfirst.ordered)

instance (c : Prop) [Decidable c] (p q : Parse α) [hp : Passing p] [hq : Passing q] :
    Passing (if c then p else q) := by split <;> assumption

instance (p : Parse α) [hp : Quiet p] : Passing p := ⟨fun c s h => (hp.walks c s).passes h⟩

end Passing

/-! ### Tests -/

/-- A parser that changes nothing. -/
class Still (p : Parse α) : Prop where
  state : ∀ (c : Setting) (s : ParseState), (p c s).2 = s

namespace Still

instance (a : α) : Still (pure a : Parse α) := ⟨fun _ _ => rfl⟩

theorem bind {p : Parse α} {f : α → Parse β} (hp : Still p) (hf : ∀ a, Still (f a)) :
    Still (p >>= f) := ⟨fun c s => ((hf _).state c _).trans (hp.state c s)⟩

instance (c : Prop) [Decidable c] (p q : Parse α) [hp : Still p] [hq : Still q] :
    Still (if c then p else q) := by split <;> assumption

instance : Still (get : Parse ParseState) := ⟨fun _ _ => rfl⟩

instance : Still (read : Parse Setting) := ⟨fun _ _ => rfl⟩

instance : Still current := ⟨fun _ _ => rfl⟩

/-- The next token is looked at and given back. -/
instance : Still peek :=
  ⟨fun c s => congrArg Prod.snd (Quiet.lookAhead_run inferInstance c s)⟩

instance (kind : TokenKind) : Still (isAt kind) := ⟨fun _ _ => rfl⟩

instance (kinds : List TokenKind) : Still (isAtAny kinds) := ⟨fun _ _ => rfl⟩

instance (word : String) : Still (isAtWord word) := ⟨fun _ _ => rfl⟩

instance (words : List String) : Still (isAtWords words) := ⟨fun _ _ => rfl⟩

instance : Still isAtIdentifier := ⟨fun _ _ => rfl⟩

instance : Still isAfterBreak := ⟨fun _ _ => rfl⟩

instance (kind : TokenKind) : Still (nextIs kind) := bind inferInstance fun _ => inferInstance

instance (word : String) : Still (nextIsWord word) := bind inferInstance fun _ => inferInstance

instance : Still nextIsIdentifierOnLine := bind inferInstance fun _ => inferInstance

instance : Still position := ⟨fun _ _ => rfl⟩

instance (start : ℕ) : Still (spanFrom start) := ⟨fun _ _ => rfl⟩

instance : Still canEndStatement := ⟨fun _ _ => rfl⟩

instance : Still isAtExpressionEnd := ⟨fun _ _ => rfl⟩

instance : Still isAtTypeEnd := ⟨fun _ _ => rfl⟩

instance : Still leadingDocHere := by
  unfold leadingDocHere
  refine bind inferInstance fun setting => bind inferInstance fun s => ?_
  dsimp only
  split <;> infer_instance

end Still

end Parse

end ApiSurface

import ApiSurface.Proofs.AlikeTrees
import ApiSurface.Proofs.Speculation
/-!
Two parsers that go side by side through two texts. As long as the lexers give tokens that go
together, they take the same way through the grammar and find what is alike. That two parsers are
such a pair follows from their parts, so instances find it.
-/
namespace ApiSurface

/-! ### Two readers -/

/-- Two tokens that a grammar does not tell apart. The raw text of a template is not looked at. -/
structure Token.Alike (L : Likeness) (t t' : Token) : Prop where
  kind : t'.kind = t.kind
  span : t.span.Alike L t'.span
  value : t.kind ≠ .template → t'.value = t.value
  afterBreak : t'.afterBreak = t.afterBreak
  substitutes : t'.substitutes = t.substitutes

namespace Token.Alike

variable {L : Likeness} {t t' : Token}

/-- A test of a word. -/
theorem word (h : t.Alike L t') (test : String → Bool) :
    (t'.kind == .identifier && test t'.value) = (t.kind == .identifier && test t.value) := by
  rw [h.kind]
  by_cases hkind : t.kind = .identifier
  · rw [h.value (hkind ▸ nofun)]
  · have hno : (t.kind == .identifier) = false := beq_eq_false_iff_ne.mpr hkind
    rw [hno, Bool.false_and, Bool.false_and]

theorem isWord (h : t.Alike L t') (word : String) : t'.isWord word = t.isWord word :=
  h.word (· == word)

end Token.Alike

/-- What a parser knows of the text. -/
structure Reading where
  lexer : Lexer
  lastEnd : ℕ
  firstStatement : Option ℕ

namespace Reading

/-- After one more token. -/
def next (r : Reading) : Reading := { r with lexer := r.lexer.scan, lastEnd := r.lexer.pos }

/-- At the start of a statement. -/
def atStatement (r : Reading) : Reading :=
  { r with firstStatement := r.firstStatement.or (some r.lexer.token.span.start) }

end Reading

/-- What is known of the text. -/
def ParseState.reading (s : ParseState) : Reading := ⟨s.lexer, s.lastEnd, s.firstStatement⟩

/-- A likeness of two texts that is kept from token to token. -/
structure Pairing (c c' : Setting) extends Likeness where
  /-- Both readers are at the same token. -/
  reads : Reading → Reading → Prop
  stop_of_start : ∀ {p p' : ℕ}, start p p' → stop p p'
  le_iff : ∀ {p p' q q' : ℕ}, stop p p' → stop q q' → (p ≤ q ↔ p' ≤ q')
  token : ∀ {r r' : Reading}, reads r r' → r.lexer.token.Alike toLikeness r'.lexer.token
  /-- What starts at a token ends where the last token did, or is empty. -/
  lastEnd : ∀ {r r' : Reading} {p p' : ℕ}, reads r r' → start p p' →
    stop (max r.lastEnd p) (max r'.lastEnd p')
  length_le : ∀ {r r' : Reading}, reads r r' → r.lexer.rest.length ≤ r'.lexer.rest.length
  next : ∀ {r r' : Reading}, reads r r' → reads r.next r'.next
  atStatement : ∀ {r r' : Reading}, reads r r' → reads r.atStatement r'.atStatement
  /-- The same documentation stands before both tokens, unless they are the ends of the texts. -/
  documents : ∀ {s s' : ParseState}, reads s.reading s'.reading → s.current.kind ≠ .endOfFile →
    doc s.pos s'.pos (Parse.leadingDocHere c s).1 (Parse.leadingDocHere c' s').1
  fragment : ∀ {s s' : Span}, s.Alike toLikeness s' → written (s.text c.text) (s'.text c'.text)
  /-- What has been noted of whether the texts are modules. -/
  modules : Bool → Bool → Prop
  modules_self : ∀ b : Bool, modules b b

namespace Pairing

variable {c c' : Setting} (P : Pairing c c')

/-- Two parsers that are at the same token and have found the same. -/
structure States (s s' : ParseState) : Prop where
  reading : P.reads s.reading s'.reading
  reports : List.Forall₂ (fun d d' => P.start d.start d'.start) s.diagnostics.toList
    s'.diagnostics.toList
  declarations : List.Forall₂ (Declaration.Alike P.toLikeness) s.declarations.toList
    s'.declarations.toList
  isModule : P.modules s.isModule s'.isModule
  context : s'.context = s.context

/-- At tokens of some kinds, two parsers go side by side and find what is related. Of a run that
stalls nothing is said. -/
def Goes (K : TokenKind → Prop) {α β : Type} (R : α → β → Prop) (p : Parse α) (p' : Parse β) :
    Prop :=
  ∀ s s', P.States s s' → K s.current.kind → (p c s).2.stalled = false →
    P.States (p c s).2 (p' c' s').2 ∧ R (p c s).1 (p' c' s').1

/-- Two parsers change nothing, and what they see is related. -/
def Sees {α β : Type} (R : α → β → Prop) (p : Parse α) (p' : Parse β) : Prop :=
  ∀ s s', P.States s s' → (p c s).2 = s ∧ (p' c' s').2 = s' ∧ R (p c s).1 (p' c' s').1

/-- Tokens of all kinds. -/
def Anywhere (_ : TokenKind) : Prop := True

variable {P}

theorem eq_iff {p p' q q' : ℕ} (h : P.stop p p') (h' : P.stop q q') : p = q ↔ p' = q' := by
  rw [Nat.le_antisymm_iff, Nat.le_antisymm_iff, P.le_iff h h', P.le_iff h' h]

theorem beq_eq {p p' q q' : ℕ} (h : P.start p p') (h' : P.start q q') :
    (p' == q') = (p == q) := by
  rw [Bool.eq_iff_iff, beq_iff_eq, beq_iff_eq, eq_iff (P.stop_of_start h) (P.stop_of_start h')]

namespace States

variable {s s' : ParseState}

theorem current (h : P.States s s') : s.current.Alike P.toLikeness s'.current :=
  P.token h.reading

theorem pos (h : P.States s s') : P.start s.pos s'.pos := h.current.span.start

theorem next (h : P.States s s') : P.States (Parse.next s) (Parse.next s') :=
  ⟨P.next h.reading, h.reports, h.declarations, h.isModule, h.context⟩

theorem reports_size (h : P.States s s') : s'.diagnostics.size = s.diagnostics.size := by
  have hlength := h.reports.length_eq
  rwa [Array.length_toList, Array.length_toList, eq_comm] at hlength

/-- Two tables of equal length. -/
theorem size_eq (h : P.States s s') : s'.declarations.size = s.declarations.size := by
  have hlength := h.declarations.length_eq
  rwa [Array.length_toList, Array.length_toList, eq_comm] at hlength

end States

/-! ### Runs side by side -/

theorem forall₂_modify {α β : Type} {R : α → β → Prop} {f : α → α} {f' : β → β}
    (hf : ∀ a b, R a b → R (f a) (f' b)) {as : List α} {bs : List β} (h : List.Forall₂ R as bs)
    (i : ℕ) : List.Forall₂ R (as.modify i f) (bs.modify i f') := by
  induction h generalizing i with
  | nil => simp
  | cons hab hrest ih =>
    cases i with
    | zero => exact .cons (hf _ _ hab) hrest
    | succ i => exact .cons hab (ih i)

namespace Goes

open Parse

variable {α β σ τ : Type} {K K' : TokenKind → Prop} {R : α → β → Prop}

theorem mono {p : Parse α} {p' : Parse β} (hK : ∀ k, K' k → K k) (h : P.Goes K R p p') :
    P.Goes K' R p p' := fun s s' hs hk => h s s' hs (hK _ hk)

theorem pure {a : α} {b : β} (h : R a b) : P.Goes K R (pure a) (pure b) :=
  fun _ _ hs _ _ => ⟨hs, h⟩

/-- One parser after the other. -/
theorem bind {p : Parse α} {p' : Parse β} {f : α → Parse σ} {f' : β → Parse τ}
    {S : σ → τ → Prop} (hp : P.Goes K R p p') (hrun : ∀ a, Running (f a))
    (hf : ∀ a b, R a b → P.Goes Anywhere S (f a) (f' b)) :
    P.Goes K S (p >>= f) (p' >>= f') := by
  intro s s' hs hk hstalled
  have hmid : (p c s).2.stalled = false := by
    by_contra h
    have hafter := ((hrun (p c s).1).runs c (p c s).2).stalled (Bool.not_eq_false _ ▸ h)
    exact absurd hafter (Bool.eq_false_iff.mp hstalled)
  obtain ⟨hstates, hfound⟩ := hp s s' hs hk hmid
  exact hf _ _ hfound _ _ hstates trivial hstalled

/-- What is only looked at. -/
theorem see {p : Parse α} {p' : Parse β} {f : α → Parse σ} {f' : β → Parse τ}
    {S : σ → τ → Prop} (hp : P.Sees R p p') (hf : ∀ a b, R a b → P.Goes K S (f a) (f' b)) :
    P.Goes K S (p >>= f) (p' >>= f') := by
  intro s s' hs hk hstalled
  obtain ⟨hstate, hstate', hfound⟩ := hp s s' hs
  have hrun : (p >>= f) c s = f (p c s).1 c s := congrArg (f (p c s).1 c) hstate
  have hrun' : (p' >>= f') c' s' = f' (p' c' s').1 c' s' := congrArg (f' (p' c' s').1 c') hstate'
  rw [hrun] at hstalled ⊢
  rw [hrun']
  exact hf _ _ hfound s s' hs hk hstalled

theorem ite {b : Prop} [Decidable b] {p q : Parse α} {p' q' : Parse β} (hp : b → P.Goes K R p p')
    (hq : ¬ b → P.Goes K R q q') : P.Goes K R (if b then p else q) (if b then p' else q') := by
  by_cases hb : b
  · rw [if_pos hb, if_pos hb]
    exact hp hb
  · rw [if_neg hb, if_neg hb]
    exact hq hb

/-- A test of the kind of the current token. -/
theorem test (test : TokenKind → Bool) {p q : Parse α} {p' q' : Parse β}
    (hyes : P.Goes (fun k => K k ∧ test k = true) R p p')
    (hno : P.Goes (fun k => K k ∧ test k = false) R q q') :
    P.Goes K R (do if test (← current).kind then p else q)
      (do if test (← current).kind then p' else q') := by
  intro s s' hs hk
  show ((if test s.current.kind then p else q) c s).2.stalled = false →
    P.States ((if test s.current.kind then p else q) c s).2
        ((if test s'.current.kind then p' else q') c' s').2 ∧
      R ((if test s.current.kind then p else q) c s).1
        ((if test s'.current.kind then p' else q') c' s').1
  rw [hs.current.kind]
  cases htest : test s.current.kind with
  | true => exact hyes s s' hs ⟨hk, htest⟩
  | false => exact hno s s' hs ⟨hk, htest⟩

theorem isAt {kind : TokenKind} {p q : Parse α} {p' q' : Parse β}
    (hyes : P.Goes (fun k => K k ∧ k = kind) R p p')
    (hno : P.Goes (fun k => K k ∧ k ≠ kind) R q q') :
    P.Goes K R (do if ← isAt kind then p else q) (do if ← isAt kind then p' else q') :=
  test (· == kind) (hyes.mono fun _ h => ⟨h.1, beq_iff_eq.mp h.2⟩)
    (hno.mono fun _ h => ⟨h.1, beq_eq_false_iff_ne.mp h.2⟩)

theorem isAtAny {kinds : List TokenKind} {p q : Parse α} {p' q' : Parse β}
    (hyes : P.Goes (fun k => K k ∧ k ∈ kinds) R p p')
    (hno : P.Goes (fun k => K k ∧ k ∉ kinds) R q q') :
    P.Goes K R (do if ← isAtAny kinds then p else q) (do if ← isAtAny kinds then p' else q') :=
  test (kinds.contains ·) (hyes.mono fun _ h => ⟨h.1, List.contains_iff_mem.mp h.2⟩)
    (hno.mono fun _ h => ⟨h.1, fun hmem => Bool.false_ne_true
      (h.2.symm.trans (List.contains_iff_mem.mpr hmem))⟩)

/-- A token that is taken if it comes next. -/
theorem accept {kind : TokenKind} {p q : Parse α} {p' q' : Parse β}
    (hyes : P.Goes Anywhere R p p') (hno : P.Goes K R q q') :
    P.Goes K R (do if ← accept kind then p else q) (do if ← accept kind then p' else q') := by
  have hrun {γ : Type} (p q : Parse γ) (c : Setting) (s : ParseState) :
      (do if ← Parse.accept kind then p else q : Parse γ) c s =
        if s.current.kind == kind then p c (Parse.next s) else q c s := by
    show (do if ← (if s.current.kind == kind then (do advance; return true) else return false :
      Parse Bool) then p else q : Parse γ) c s = _
    split <;> rfl
  intro s s' hs hk
  rw [hrun, hrun, hs.current.kind]
  by_cases hkind : s.current.kind == kind
  · rw [if_pos hkind, if_pos hkind]
    exact hyes _ _ hs.next trivial
  · rw [if_neg hkind, if_neg hkind]
    exact hno s s' hs hk

/-- The current token, whose kind is then known. -/
theorem current {f : Token → Parse α} {f' : Token → Parse β}
    (hf : ∀ t t', t.Alike P.toLikeness t' → K t.kind → P.Goes (· = t.kind) R (f t) (f' t')) :
    P.Goes K R (current >>= f) (current >>= f') :=
  fun s s' hs hk => hf _ _ hs.current hk s s' hs rfl

/-- Looking ahead. -/
theorem lookAhead {p : Parse α} {p' : Parse β} [hp : Quiet p] [hp' : Quiet p']
    (h : P.Goes K R p p') : P.Goes K R (lookAhead p) (lookAhead p') := by
  intro s s' hs hk hstalled
  rw [hp.lookAhead_run] at hstalled ⊢
  rw [hp'.lookAhead_run]
  exact ⟨⟨hs.reading, hs.reports, hs.declarations, hs.isModule, hs.context⟩,
    (h s s' hs hk hstalled).2⟩

theorem attempt {p : Parse (Option α)} {p' : Parse (Option β)} [hp : Quiet p] [hp' : Quiet p']
    (h : P.Goes K (Option.Rel R) p p') :
    P.Goes K (Option.Rel R) (attempt p) (attempt p') := by
  intro s s' hs hk hstalled
  cases hfound : (p c s).1 with
  | none =>
    rw [hp.attempt_run_none hfound] at hstalled ⊢
    obtain ⟨-, hboth⟩ := h s s' hs hk hstalled
    rw [hfound] at hboth
    have hfound' : (p' c' s').1 = none := by
      generalize (p' c' s').1 = x at hboth
      cases hboth
      rfl
    rw [hp'.attempt_run_none hfound']
    exact ⟨⟨hs.reading, hs.reports, hs.declarations, hs.isModule, hs.context⟩, .none⟩
  | some a =>
    rw [Quiet.attempt_run_some hfound] at hstalled ⊢
    obtain ⟨hstates, hboth⟩ := h s s' hs hk hstalled
    rw [hfound] at hboth
    cases hfound' : (p' c' s').1 with
    | none =>
      rw [hfound'] at hboth
      cases hboth
    | some b =>
      rw [hfound'] at hboth
      rw [Quiet.attempt_run_some hfound']
      exact ⟨hstates, hboth⟩

/-- The state itself. -/
theorem get {f : ParseState → Parse σ} {f' : ParseState → Parse τ} {S : σ → τ → Prop}
    (hf : ∀ s s', P.States s s' → P.Goes K S (f s) (f' s')) :
    P.Goes K S (get >>= f) (get >>= f') := fun s s' hs => hf s s' hs s s' hs

/-- Of a run that stalls nothing is said. -/
theorem stall (f : Unit → Parse α) (p' : Parse β) [hf : Running (f ())] :
    P.Goes K R (stall >>= f) p' := by
  intro s s' hs hk hstalled
  have hafter := (hf.runs c { s with stalled := true }).stalled rfl
  exact absurd hafter (Bool.eq_false_iff.mp hstalled)

/-- A step of a repetition that has a value and asks for more or not. -/
abbrev Step (P : Pairing c c') (S : σ → τ → Prop) (p : Parse (σ × Bool)) (p' : Parse (τ × Bool)) :
    Prop := P.Goes Anywhere (fun a b => S a.1 b.1 ∧ a.2 = b.2) p p'

variable {S : σ → τ → Prop} {step : σ → Parse (σ × Bool)} {step' : τ → Parse (τ × Bool)}

theorem stepOn {x : σ} {y : τ} (h : Step P S (step x) (step' y)) :
    Step P S (stepOn step x) (stepOn step' y) := by
  unfold Parse.stepOn
  refine get fun s s' hs => bind h (fun _ => inferInstance) fun a b hab => get fun m m' hm => ?_
  obtain ⟨x, more⟩ := a
  obtain ⟨y, more'⟩ := b
  obtain ⟨hxy, rfl⟩ := hab
  have hpos : m'.pos ≤ s'.pos ↔ m.pos ≤ s.pos :=
    (P.le_iff (P.stop_of_start hm.pos) (P.stop_of_start hs.pos)).symm
  simp only [hpos]
  exact ite (fun _ => stall _ _) fun _ => pure ⟨hxy, rfl⟩

/-- What follows a step that asks for more. -/
theorem again {p : Parse (σ × Bool)} {p' : Parse (τ × Bool)} {f : σ → Parse σ} {f' : τ → Parse τ}
    [hrun : ∀ x, Running (f x)] (h : Step P S p p')
    (hf : ∀ x y, S x y → P.Goes Anywhere S (f x) (f' y)) :
    P.Goes Anywhere S (p >>= fun r => if r.2 then f r.1 else Pure.pure r.1)
      (p' >>= fun r => if r.2 then f' r.1 else Pure.pure r.1) := by
  refine bind h (fun _ => inferInstance) fun a b hab => ?_
  rw [← hab.2]
  exact ite (fun _ => hf _ _ hab.1) fun _ => pure hab.1

theorem iterateFrom [hrun : ∀ x, Running (step x)] (h : ∀ x y, S x y → Step P S (step x) (step' y))
    {cs cs' : List Char} (hlength : cs.length ≤ cs'.length) {x : σ} {y : τ} (hxy : S x y) :
    P.Goes Anywhere S (iterateFrom step cs x) (iterateFrom step' cs' y) := by
  induction cs generalizing cs' x y with
  | nil =>
    -- the right one may have characters left; the left one stalls if it asks for more
    have hend (f' : τ → Parse τ) := again (stepOn (h x y hxy)) fun x y _ =>
      (stall (fun _ => Pure.pure x) (f' y) : P.Goes Anywhere S _ (f' y))
    cases cs' with
    | nil => exact hend fun y => Parse.stall >>= fun _ => Pure.pure y
    | cons c' cs' => exact hend (Parse.iterateFrom step' cs')
  | cons c cs ih =>
    cases cs' with
    | nil => cases hlength
    | cons c' cs' =>
      have hrest : ∀ x, Running (Parse.iterateFrom step cs x) := Running.iterateFrom hrun cs
      exact again (stepOn (h x y hxy)) fun x y hxy => ih (Nat.le_of_succ_le_succ hlength) hxy

theorem iterate [hrun : ∀ x, Running (step x)] (h : ∀ x y, S x y → Step P S (step x) (step' y))
    {x : σ} {y : τ} (hxy : S x y) :
    P.Goes Anywhere S (iterate step x) (iterate step' y) := by
  refine get fun s s' hs => ?_
  have hlength : (' ' :: s.rest).length ≤ (' ' :: s'.rest).length :=
    Nat.succ_le_succ (P.length_le hs.reading)
  exact iterateFrom h hlength hxy

/-- Results that are gathered. -/
theorem collect {step : Parse (List σ × Bool)} {step' : Parse (List τ × Bool)} [Running step]
    (h : Step P (List.Forall₂ S) step step') :
    P.Goes Anywhere (List.Forall₂ S) (collect step) (collect step') := by
  have hgather (found : Array σ) (found' : Array τ)
      (hfound : List.Forall₂ S found.toList found'.toList) :
      Step P (fun a b => List.Forall₂ S a.toList b.toList) (gather step found)
        (gather step' found') := by
    refine bind h (fun _ => inferInstance) fun a b hab => pure ⟨?_, hab.2⟩
    simp only [Array.toList_append]
    exact List.rel_append hfound hab.1
  have hrun (found : Array σ) : Running (gather step found) := by
    unfold gather
    infer_instance
  exact bind (iterate hgather .nil) (fun _ => inferInstance) fun a b hab => pure hab

/-- What is run in another context, and left again. -/
theorem within {p : Parse α} {p' : Parse β} (enter leave : ParseContext → ParseContext)
    (h : P.Goes Anywhere R p p') :
    P.Goes K R (within enter leave p) (within enter leave p') := by
  intro s s' hs _ hstalled
  have hcontext := hs.context
  obtain ⟨hstates, hfound⟩ := h { s with context := enter s.context }
    { s' with context := enter s'.context } ⟨hs.reading, hs.reports, hs.declarations, hs.isModule,
      congrArg enter hcontext⟩ trivial hstalled
  exact ⟨⟨hstates.reading, hstates.reports, hstates.declarations, hstates.isModule,
    congrArg leave hstates.context⟩, hfound⟩

/-- The start of a statement, noted if it is the first. -/
theorem atStatement {f : ℕ → Unit → Parse α} {f' : ℕ → Unit → Parse β}
    (hf : ∀ p p', P.start p p' → P.Goes K R (f p ()) (f' p' ())) :
    P.Goes K R
      (position >>= fun p =>
        (modify fun s : ParseState => { s with firstStatement := s.firstStatement.or (some p) }) >>= f p)
      (position >>= fun p =>
        (modify fun s : ParseState => { s with firstStatement := s.firstStatement.or (some p) }) >>= f' p) :=
  fun s s' hs hk => hf s.pos s'.pos hs.pos
    { s with firstStatement := s.firstStatement.or (some s.pos) }
    { s' with firstStatement := s'.firstStatement.or (some s'.pos) }
    ⟨P.atStatement hs.reading, hs.reports, hs.declarations, hs.isModule, hs.context⟩ hk

/-- A change of the states. -/
theorem modify {f f' : ParseState → ParseState} (h : ∀ s s', P.States s s' → P.States (f s) (f' s')) :
    P.Goes K Eq (modify f) (modify f') := fun s s' hs _ _ => ⟨h s s' hs, rfl⟩

theorem reportAt {start start' : ℕ} (length length' : ℕ) (p p' : Problem)
    (h : P.start start start') :
    P.Goes K Eq (reportAt start length p) (reportAt start' length' p') := by
  intro s s' hs _ _
  have hback : s'.diagnostics.back?.any (·.start == start') =
      s.diagnostics.back?.any (·.start == start) := by
    rw [← Array.getLast?_toList, ← Array.getLast?_toList, ← List.head?_reverse,
      ← List.head?_reverse]
    have hreports := List.forall₂_reverse_iff.mpr hs.reports
    generalize s.diagnostics.toList.reverse = ds, s'.diagnostics.toList.reverse = ds' at hreports
    cases hreports with
    | nil => rfl
    | cons hd _ =>
      exact beq_eq hd h
  refine ⟨?_, rfl⟩
  show P.States (if s.diagnostics.back?.any (·.start == start) then s else _)
    (if s'.diagnostics.back?.any (·.start == start') then s' else _)
  rw [hback]
  split
  · exact hs
  · refine ⟨hs.reading, ?_, hs.declarations, hs.isModule, hs.context⟩
    rw [Array.toList_push, Array.toList_push]
    exact List.rel_append hs.reports (.cons h .nil)

theorem declare {name name' : Ident} {span span' : Span} (modifiers : Modifiers)
    {doc doc' : Option String} {shape shape' : DeclarationShape}
    (h : ∀ parent, Declaration.Alike P.toLikeness ⟨name, span, modifiers, doc, shape, parent⟩
      ⟨name', span', modifiers, doc', shape', parent⟩) :
    P.Goes K Eq (declare name span modifiers doc shape)
      (declare name' span' modifiers doc' shape') := by
  intro s s' hs _ _
  refine ⟨⟨hs.reading, hs.reports, ?_, hs.isModule, hs.context⟩, hs.size_eq.symm⟩
  show List.Forall₂ _ (s.declarations.push _).toList (s'.declarations.push _).toList
  rw [Array.toList_push, Array.toList_push, hs.context]
  exact List.rel_append hs.declarations (.cons (h _) .nil)

end Goes

end Pairing

/-! ### What goes together -/

namespace Parse

open Pairing (Anywhere)

variable {c c' : Setting} (P : Pairing c c') {α β σ τ : Type}

/-- Two places where tokens start. -/
class Starts (L : Likeness) (p p' : ℕ) : Prop where
  start : L.start p p'

/-- Documentation found before two tokens, or none. -/
class Documents (L : Likeness) (doc doc' : Option String) : Prop where
  documented : L.Documented doc doc'

/-- Documentation found before the tokens at two places. -/
class DocumentsAt (L : Likeness) (p p' : ℕ) (doc doc' : Option String) : Prop where
  doc : L.doc p p' doc doc'

/-- Declarations that are no members of enums. -/
class NoMember (shape : DeclarationShape) : Prop where
  ne : ∀ x, shape ≠ .enumMember x

instance (signature : Signature) (body : Option FunctionBody) :
    NoMember (.function signature body) := ⟨nofun⟩

instance (kind : VariableKind) (type : Option TypeExpr) (initial : Option Expr) :
    NoMember (.variable kind type initial) := ⟨nofun⟩

instance (params : List TypeParam) (type : TypeExpr) : NoMember (.typeAlias params type) := ⟨nofun⟩

instance (params : List TypeParam) (types : List TypeExpr) (members : List TypeMember) :
    NoMember (.interface params types members) := ⟨nofun⟩

instance (params : List TypeParam) (type : Option TypeExpr) (types : List TypeExpr)
    (members : List ClassMember) : NoMember (.class params type types members) := ⟨nofun⟩

instance (members : List DeclIndex) : NoMember (.enum members) := ⟨nofun⟩

instance (naming : ModuleNaming) (body : Option (List Statement)) :
    NoMember (.module naming body) := ⟨nofun⟩

/-- Two values that are alike. -/
structure Twin (L : Likeness) (α : Type) [Comparable α] where
  left : α
  right : α
  alike : Comparable.alike L left right

/-- Two places where tokens start. -/
structure PlaceTwin (L : Likeness) where
  left : ℕ
  right : ℕ
  start : L.start left right

/-- The documentation before two tokens. -/
structure DocTwin (L : Likeness) extends PlaceTwin L where
  doc : Option String
  doc' : Option String
  documents : L.doc left right doc doc'

/-- The ends of two ranges. -/
structure EndTwin (L : Likeness) (p p' : ℕ) where
  left : ℕ
  right : ℕ
  alike : Span.Alike L ⟨p, left⟩ ⟨p', right⟩

/-- Two states in the same context. -/
structure StateTwin where
  left : ParseState
  other : ParseState
  states : P.States left { other with context := left.context }

/-- The other state. -/
@[reducible] def StateTwin.right {P : Pairing c c'} (x : StateTwin P) : ParseState :=
  { x.other with context := x.left.context }

/-- Two tokens that are alike. -/
structure TokenTwin (L : Likeness) where
  left : Token
  span : Span
  value : String
  alike : left.Alike L { left with span, value }

/-- The other token. -/
@[reducible] def TokenTwin.right {L : Likeness} (t : TokenTwin L) : Token :=
  { t.left with span := t.span, value := t.value }

section

variable {L : Likeness} [Comparable α]

instance (x : Twin L α) : Agree L x.left x.right := ⟨x.alike⟩

instance (x : PlaceTwin L) : Starts L x.left x.right := ⟨x.start⟩

instance (x : DocTwin L) : Starts L x.left x.right := ⟨x.start⟩

instance (x : DocTwin L) : Documents L x.doc x.doc' := ⟨.inl ⟨_, _, x.start, x.documents⟩⟩

instance (x : DocTwin L) : DocumentsAt L x.left x.right x.doc x.doc' := ⟨x.documents⟩

instance : Documents L none none := ⟨.inr ⟨rfl, rfl⟩⟩

instance (p p' : ℕ) (x : EndTwin L p p') : Agree L (Span.mk p x.left) (Span.mk p' x.right) :=
  ⟨x.alike⟩

instance (t : TokenTwin L) : Starts L t.left.span.start t.span.start := ⟨t.alike.span.start⟩

instance (t : TokenTwin L) : Agree L t.left.span t.span := ⟨t.alike.span⟩

instance (p p' : ℕ) [h : Starts P.toLikeness p p'] :
    Agree P.toLikeness (Span.mk p p) (Span.mk p' p') :=
  ⟨h.start, P.stop_of_start h.start, Nat.le_refl p⟩

instance (n n' : Ident) [h : Agree L n n'] : Starts L n.span.start n'.span.start :=
  ⟨h.alike.span.start⟩

instance (s s' : Span) [h : Agree L s s'] : Starts L s.start s'.start := ⟨h.alike.start⟩

instance (p p' e e' : ℕ) (doc doc' : Option String) (shape shape' : TypeMemberShape)
    [hs : Agree L (Span.mk p e) (Span.mk p' e')] [hd : DocumentsAt L p p' doc doc']
    [h : Agree L shape shape'] :
    Agree L (TypeMember.mk ⟨p, e⟩ doc shape) (TypeMember.mk ⟨p', e'⟩ doc' shape') :=
  ⟨.mk hs.alike hd.doc h.alike⟩

instance (p p' e e' : ℕ) (doc doc' : Option String) (modifiers : Modifiers)
    (shape shape' : ClassMemberShape) [hs : Agree L (Span.mk p e) (Span.mk p' e')]
    [hd : DocumentsAt L p p' doc doc'] [h : Agree L shape shape'] :
    Agree L (ClassMember.mk ⟨p, e⟩ doc modifiers shape)
      (ClassMember.mk ⟨p', e'⟩ doc' modifiers shape') := ⟨hs.alike, hd.doc, rfl, h.alike⟩

end

/-! ### Tests -/

/-- Tests that change nothing and have the same answer. -/
class Seen [Comparable α] (p p' : Parse α) : Prop where
  sees : P.Sees (Comparable.alike P.toLikeness) p p'

namespace Seen

variable {P} [Comparable α] [Comparable β]

theorem bind {p : Parse σ} {p' : Parse τ} {f : σ → Parse α} {f' : τ → Parse α} {R : σ → τ → Prop}
    (h : P.Sees R p p') (hf : ∀ a b, R a b → Seen P (f a) (f' b)) :
    Seen P (p >>= f) (p' >>= f') := by
  refine ⟨fun s s' hs => ?_⟩
  obtain ⟨hstate, hstate', hfound⟩ := h s s' hs
  have hrun : (p >>= f) c s = f (p c s).1 c s := congrArg (f (p c s).1 c) hstate
  have hrun' : (p' >>= f') c' s' = f' (p' c' s').1 c' s' := congrArg (f' (p' c' s').1 c') hstate'
  rw [hrun, hrun']
  exact (hf _ _ hfound).sees s s' hs

instance (a a' : α) [h : Agree P.toLikeness a a'] : Seen P (pure a) (pure a') :=
  ⟨fun _ _ _ => ⟨rfl, rfl, h.alike⟩⟩

instance (p p' : Parse α) (f f' : α → Parse β) [hplain : Plain α] [hp : Seen P p p']
    [hf : ∀ a, Seen P (f a) (f' a)] : Seen P (p >>= f) (p' >>= f') := by
  refine bind hp.sees fun a a' h => ?_
  obtain rfl := (hplain.alike_iff P.toLikeness a a').mp h
  exact hf a

instance (b : Prop) [Decidable b] (p q p' q' : Parse α) [hp : Seen P p p'] [hq : Seen P q q'] :
    Seen P (if b then p else q) (if b then p' else q') := by
  split <;> assumption

theorem current : P.Sees (Token.Alike P.toLikeness) current current :=
  fun _ _ hs => ⟨rfl, rfl, hs.current⟩

theorem position : P.Sees P.start position position := fun _ _ hs => ⟨rfl, rfl, hs.pos⟩

theorem peek : P.Sees (Token.Alike P.toLikeness) peek peek := fun _ _ hs => by
  refine ⟨Still.state _ _, Still.state _ _, ?_⟩
  have hrun (c : Setting) (s : ParseState) : (Parse.peek c s).1 = (Parse.next s).current :=
    congrArg Prod.fst (Quiet.lookAhead_run inferInstance c s)
  rw [hrun, hrun]
  exact hs.next.current

theorem token {t t' : Token} (h : t.Alike P.toLikeness t') :
    ∃ x : TokenTwin P.toLikeness, x.left = t ∧ x.right = t' := by
  have ht' : t' = { t with span := t'.span, value := t'.value } := by
    obtain ⟨hkind, -, -, hbreak, hsubstitutes⟩ := h
    cases t
    cases t'
    cases hkind
    cases hbreak
    cases hsubstitutes
    rfl
  exact ⟨⟨t, t'.span, t'.value, ht' ▸ h⟩, rfl, ht'.symm⟩

instance (f f' : Token → Parse α) [hf : ∀ t : TokenTwin P.toLikeness, Seen P (f t.left) (f' t.right)] :
    Seen P (Parse.current >>= f) (Parse.current >>= f') := by
  refine bind current fun t t' h => ?_
  obtain ⟨x, rfl, rfl⟩ := token h
  exact hf x

instance (f f' : Token → Parse α) [hf : ∀ t : TokenTwin P.toLikeness, Seen P (f t.left) (f' t.right)] :
    Seen P (Parse.peek >>= f) (Parse.peek >>= f') := by
  refine bind peek fun t t' h => ?_
  obtain ⟨x, rfl, rfl⟩ := token h
  exact hf x

instance (t : TokenTwin P.toLikeness) (word : String) :
    Agree P.toLikeness (t.left.isWord word) (t.right.isWord word) := ⟨(t.alike.isWord word).symm⟩

instance (kind : TokenKind) : Seen P (isAt kind) (isAt kind) := by
  unfold isAt
  infer_instance

instance (kinds : List TokenKind) : Seen P (isAtAny kinds) (isAtAny kinds) := by
  unfold isAtAny
  infer_instance

instance (word : String) : Seen P (isAtWord word) (isAtWord word) := by
  unfold isAtWord
  infer_instance

instance (words : List String) : Seen P (isAtWords words) (isAtWords words) := by
  unfold isAtWords
  refine bind current fun t t' h => ?_
  rw [h.word words.contains]
  infer_instance

instance : Seen P isAtIdentifier isAtIdentifier := by
  unfold isAtIdentifier
  infer_instance

instance : Seen P isAfterBreak isAfterBreak := by
  unfold isAfterBreak
  infer_instance

instance (kind : TokenKind) : Seen P (nextIs kind) (nextIs kind) := by
  unfold nextIs
  infer_instance

instance (word : String) : Seen P (nextIsWord word) (nextIsWord word) := by
  unfold nextIsWord
  infer_instance

instance : Seen P nextIsIdentifierOnLine nextIsIdentifierOnLine := by
  unfold nextIsIdentifierOnLine
  infer_instance

instance : Seen P canEndStatement canEndStatement := by
  unfold canEndStatement
  infer_instance

instance : Seen P isAtExpressionEnd isAtExpressionEnd := by
  unfold isAtExpressionEnd
  infer_instance

instance : Seen P isAtTypeEnd isAtTypeEnd := by
  unfold isAtTypeEnd
  infer_instance

end Seen

/-! ### Parsers that go side by side -/

/-- Two parsers that go side by side and find what is alike. -/
class Paired [Comparable α] (p p' : Parse α) : Prop where
  goes : P.Goes Anywhere (Comparable.alike P.toLikeness) p p'

namespace Paired

variable {P} [Comparable α] [Comparable β] [Comparable σ]

instance (a a' : α) [h : Agree P.toLikeness a a'] : Paired P (pure a) (pure a') :=
  ⟨.pure h.alike⟩

instance (priority := low) (p p' : Parse α) [h : Seen P p p'] : Paired P p p' :=
  ⟨fun s s' hs _ _ => by
    obtain ⟨hstate, hstate', hfound⟩ := h.sees s s' hs
    rw [hstate, hstate']
    exact ⟨hs, hfound⟩⟩

instance (priority := high) (a a' : β) (f f' : β → Parse α) [h : Paired P (f a) (f' a')] :
    Paired P (pure a >>= f) (pure a' >>= f') := ⟨h.goes⟩

instance (p p' : Parse α) (f f' : α → Parse β) [hp : Paired P p p'] [hrun : ∀ a, Running (f a)]
    [hf : ∀ x : Twin P.toLikeness α, Paired P (f x.left) (f' x.right)] :
    Paired P (p >>= f) (p' >>= f') :=
  ⟨hp.goes.bind hrun fun a a' h => (hf ⟨a, a', h⟩).goes⟩

section

variable (p p' : Parse α) (f f' : α → Parse β)

instance (priority := high) [hplain : Plain α] [hp : Paired P p p'] [hrun : ∀ a, Running (f a)]
    [hf : ∀ a, Paired P (f a) (f' a)] : Paired P (p >>= f) (p' >>= f') := by
  refine ⟨hp.goes.bind hrun fun a a' h => ?_⟩
  obtain rfl := (hplain.alike_iff P.toLikeness a a').mp h
  exact (hf a).goes

instance (priority := high) [hplain : Plain α] [hp : Seen P p p'] [hf : ∀ a, Paired P (f a) (f' a)] :
    Paired P (p >>= f) (p' >>= f') := by
  refine ⟨.see hp.sees fun a a' h => ?_⟩
  obtain rfl := (hplain.alike_iff P.toLikeness a a').mp h
  exact (hf a).goes

end

section

variable (p p' : Parse (Option α)) (f f' : Option α → Parse β) [hp : Paired P p p']
  [hrun : ∀ a, Running (f (some a))] [hrun' : Running (f none)] [hnone : Paired P (f none) (f' none)]

/-- What comes after something optional. -/
instance (priority := low)
    [hsome : ∀ x : Twin P.toLikeness α, Paired P (f (some x.left)) (f' (some x.right))] :
    Paired P (p >>= f) (p' >>= f') := by
  have hf : ∀ a, Running (f a)
    | none => hrun'
    | some a => hrun a
  refine ⟨hp.goes.bind hf fun a a' h => ?_⟩
  cases h with
  | none => exact hnone.goes
  | some h => exact (hsome ⟨_, _, h⟩).goes

instance (priority := low) [hplain : Plain α] [hsome : ∀ a, Paired P (f (some a)) (f' (some a))] :
    Paired P (p >>= f) (p' >>= f') := by
  have hboth (x : Twin P.toLikeness α) : Paired P (f (some x.left)) (f' (some x.right)) :=
    (hplain.alike_iff P.toLikeness x.left x.right).mp x.alike ▸ hsome x.left
  infer_instance

end

instance (b : Prop) [Decidable b] (p q p' q' : Parse α) [hp : Paired P p p'] [hq : Paired P q q'] :
    Paired P (if b then p else q) (if b then p' else q') := by
  split <;> assumption

/-- A test with the same answer. -/
instance (priority := low) (b b' : Bool) (p q p' q' : Parse α) [h : Agree P.toLikeness b b']
    [Paired P p p'] [Paired P q q'] : Paired P (if b then p else q) (if b' then p' else q') := by
  obtain rfl : b = b' := h.alike
  infer_instance

theorem of {K : TokenKind → Prop} {p p' : Parse α} (h : Paired P p p') :
    P.Goes K (Comparable.alike P.toLikeness) p p' := h.goes.mono fun _ _ => trivial

/-- The place of the current token. -/
instance (priority := high) (f f' : ℕ → Parse α)
    [hf : ∀ x : PlaceTwin P.toLikeness, Paired P (f x.left) (f' x.right)] :
    Paired P (position >>= f) (position >>= f') :=
  ⟨.see Seen.position fun p p' h => (hf ⟨p, p', h⟩).goes⟩

instance (priority := high) (p p' : ℕ) (f f' : Span → Parse α) [h : Starts P.toLikeness p p']
    [hf : ∀ x : EndTwin P.toLikeness p p', Paired P (f ⟨p, x.left⟩) (f' ⟨p', x.right⟩)] :
    Paired P (spanFrom p >>= f) (spanFrom p' >>= f') := by
  refine ⟨.get fun s s' hs => ?_⟩
  have hspan : Span.Alike P.toLikeness ⟨p, max s.lastEnd p⟩ ⟨p', max s'.lastEnd p'⟩ :=
    ⟨h.start, P.lastEnd hs.reading h.start, Nat.le_max_right _ _⟩
  exact (hf ⟨_, _, hspan⟩).goes

/-- The current token. -/
instance (priority := high) (f f' : Token → Parse α)
    [hf : ∀ t : TokenTwin P.toLikeness, Paired P (f t.left) (f' t.right)] :
    Paired P (current >>= f) (current >>= f') := by
  refine ⟨.current fun t t' h _ => of ?_⟩
  obtain ⟨x, rfl, rfl⟩ := Seen.token h
  exact hf x

/-- The context. -/
instance (priority := high) (f f' : ParseState → Parse α)
    [hf : ∀ x : StateTwin P, Paired P (f x.left) (f' x.right)] :
    Paired P (get >>= f) (get >>= f') := by
  refine ⟨.get fun s s' hs => ?_⟩
  have hs' : s' = { s' with context := s.context } := by rw [← hs.context]
  obtain ⟨x, rfl, rfl⟩ : ∃ x : StateTwin P, x.left = s ∧ x.right = s' :=
    ⟨⟨s, s', hs' ▸ hs⟩, rfl, hs'.symm⟩
  exact (hf x).goes

/-- What is read. -/
instance (priority := high) (f f' : Setting → Parse α) [hf : Paired P (f c) (f' c')] :
    Paired P (read >>= f) (read >>= f') := ⟨hf.goes⟩

/-- The next token. -/
instance (priority := high) (f f' : Token → Parse α)
    [hf : ∀ t : TokenTwin P.toLikeness, Paired P (f t.left) (f' t.right)] :
    Paired P (peek >>= f) (peek >>= f') := by
  refine ⟨.see Seen.peek fun t t' h => ?_⟩
  obtain ⟨x, rfl, rfl⟩ := Seen.token h
  exact (hf x).goes

instance (p p' : Parse α) [Quiet p] [Quiet p'] [h : Paired P p p'] :
    Paired P (lookAhead p) (lookAhead p') := ⟨h.goes.lookAhead⟩

instance (p p' : Parse (Option α)) [Quiet p] [Quiet p'] [h : Paired P p p'] :
    Paired P (attempt p) (attempt p') := ⟨h.goes.attempt⟩

instance (step step' : σ → Parse (σ × Bool)) (x x' : σ) [hrun : ∀ x, Running (step x)]
    [hstep : ∀ x : Twin P.toLikeness σ, Paired P (step x.left) (step' x.right)]
    [h : Agree P.toLikeness x x'] : Paired P (iterate step x) (iterate step' x') :=
  ⟨.iterate (fun x x' h => (hstep ⟨x, x', h⟩).goes) h.alike⟩

theorem iterate [hplain : Plain σ] {step step' : σ → Parse (σ × Bool)} (x : σ)
    (hrun : ∀ x, Running (step x)) (hstep : ∀ x, Paired P (step x) (step' x)) :
    Paired P (iterate step x) (iterate step' x) := by
  refine ⟨.iterate (fun x x' h => ?_) ((hplain.alike_iff P.toLikeness x x).mpr rfl)⟩
  obtain rfl := (hplain.alike_iff P.toLikeness x x').mp h
  exact (hstep x).goes

instance (priority := high) (step step' : σ → Parse (σ × Bool)) (x : σ) [Plain σ]
    [hrun : ∀ x, Running (step x)] [hstep : ∀ x, Paired P (step x) (step' x)] :
    Paired P (Parse.iterate step x) (Parse.iterate step' x) := iterate x hrun hstep

theorem repeatWhile {step step' : Parse Bool} (hrun : Running step) (hstep : Paired P step step') :
    Paired P (repeatWhile step) (repeatWhile step') :=
  iterate () (fun _ => inferInstance) fun _ => inferInstance

instance (step step' : Parse Bool) [hrun : Running step] [hstep : Paired P step step'] :
    Paired P (Parse.repeatWhile step) (Parse.repeatWhile step') := repeatWhile hrun hstep

instance (step step' : Parse (List α × Bool)) [Running step] [h : Paired P step step'] :
    Paired P (collect step) (collect step') := ⟨.collect h.goes⟩

/-- A test that keeps the current token. -/
theorem seen {K : TokenKind → Prop} [hplain : Plain α] {p p' : Parse α} {f f' : α → Parse β}
    [hp : Seen P p p'] (hf : ∀ a, P.Goes K (Comparable.alike P.toLikeness) (f a) (f' a)) :
    P.Goes K (Comparable.alike P.toLikeness) (p >>= f) (p' >>= f') := by
  refine .see hp.sees fun a a' h => ?_
  obtain rfl := (hplain.alike_iff P.toLikeness a a').mp h
  exact hf a

/-! ### Contexts and reports -/

instance (start start' length length' : ℕ) (p : Problem) [h : Starts P.toLikeness start start'] :
    Paired P (reportAt start length p) (reportAt start' length' p) :=
  ⟨.reportAt length length' p p h.start⟩

instance (p : Problem) : Paired P (report p) (report p) := by
  unfold report
  infer_instance

instance (tooDeep tooDeep' p p' : Parse α) [Running tooDeep] [Paired P tooDeep tooDeep']
    [hp : Paired P p p'] : Paired P (nested tooDeep p) (nested tooDeep' p') := by
  unfold nested
  refine ⟨.get fun s s' hs => ?_⟩
  rw [hs.context]
  have hdeep : Paired P (do report .tooDeep; tooDeep) (do report .tooDeep; tooDeep') :=
    inferInstance
  exact .ite (fun _ => hdeep.goes) fun _ => hp.goes.within _ _

instance (without : Bool) (p p' : Parse α) [hp : Paired P p p'] :
    Paired P (settingConditionals without p) (settingConditionals without p') := by
  refine ⟨.get fun s s' hs => ?_⟩
  rw [hs.context]
  exact hp.goes.within _ _

instance (p p' : Parse α) [Paired P p p'] :
    Paired P (withoutConditionals p) (withoutConditionals p') := by
  unfold withoutConditionals
  infer_instance

instance (p p' : Parse α) [Paired P p p'] :
    Paired P (withConditionals p) (withConditionals p') := by
  unfold withConditionals
  infer_instance

instance (parent : DeclIndex) (p p' : Parse α) [hp : Paired P p p'] :
    Paired P (inBodyOf parent p) (inBodyOf parent p') := by
  refine ⟨.get fun s s' hs => ?_⟩
  rw [hs.context]
  exact hp.goes.within _ _

/-! ### Declarations -/

instance (name name' : Ident) (span span' : Span) (modifiers : Modifiers)
    (doc doc' : Option String) (shape shape' : DeclarationShape) [hlisted : NoMember shape]
    [hname : Agree P.toLikeness name name'] [hspan : Agree P.toLikeness span span']
    [hdoc : Documents P.toLikeness doc doc'] [hshape : Agree P.toLikeness shape shape'] :
    Paired P (declare name span modifiers doc shape) (declare name' span' modifiers doc' shape') :=
  ⟨.declare modifiers fun _ => ⟨hname.alike, hspan.alike, rfl, hdoc.documented,
    fun x hx => absurd hx (hlisted.ne x), hshape.alike, rfl⟩⟩

instance (name name' : Ident) (p p' e e' : ℕ) (modifiers : Modifiers) (doc doc' : Option String)
    (shape shape' : DeclarationShape) [hname : Agree P.toLikeness name name']
    [hspan : Agree P.toLikeness (Span.mk p e) (Span.mk p' e')]
    [hdoc : DocumentsAt P.toLikeness p p' doc doc'] [hshape : Agree P.toLikeness shape shape'] :
    Paired P (declare name ⟨p, e⟩ modifiers doc shape)
      (declare name' ⟨p', e'⟩ modifiers doc' shape') :=
  ⟨.declare modifiers fun _ => ⟨hname.alike, hspan.alike, rfl,
    .inl ⟨p, p', hspan.alike.start, hdoc.doc⟩, fun _ _ => hdoc.doc, hshape.alike, rfl⟩⟩

instance (i : DeclIndex) (span span' : Span) (shape shape' : DeclarationShape)
    [hlisted : NoMember shape] [hspan : Agree P.toLikeness span span']
    [hshape : Agree P.toLikeness shape shape'] :
    Paired P (complete i span shape) (complete i span' shape') := by
  refine ⟨.modify fun s s' hs => ⟨hs.reading, hs.reports, ?_, hs.isModule, hs.context⟩⟩
  rw [Array.toList_modify, Array.toList_modify]
  exact Pairing.forall₂_modify (fun d d' h => ⟨h.name, hspan.alike, h.modifiers, h.documented,
    fun x hx => absurd hx (hlisted.ne x), hshape.alike, h.parent⟩) hs.declarations i

-- a parser of many parts has an instance of many parts
set_option synthInstance.maxSize 10000

/-- The documentation before the current token, and the place of that. -/
theorem documented {f f' : Option String → ℕ → Parse α}
    (hf : ∀ x : DocTwin P.toLikeness, Paired P (f x.doc x.left) (f' x.doc' x.right)) :
    P.Goes (· ≠ .endOfFile) (Comparable.alike P.toLikeness)
      (leadingDocHere >>= fun doc => position >>= f doc)
      (leadingDocHere >>= fun doc => position >>= f' doc) := by
  intro s s' hs hk hstalled
  have hrun (c : Setting) (f : Option String → ℕ → Parse α) (s : ParseState) :
      (leadingDocHere >>= fun doc => position >>= f doc) c s =
        f (leadingDocHere c s).1 s.pos c s :=
    congrArg (fun m : ParseState => f (leadingDocHere c s).1 m.pos c m)
      (Still.state (p := leadingDocHere) c s)
  rw [hrun] at hstalled ⊢
  rw [hrun]
  exact (hf ⟨⟨s.pos, s'.pos, hs.pos⟩, _, _, P.documents hs.reading hk⟩).goes s s' hs trivial hstalled

/-! ### Tokens and names -/

instance : Paired P advance advance := ⟨.modify fun _ _ hs => hs.next⟩

instance (kind : TokenKind) : Paired P (accept kind) (accept kind) := by
  unfold accept
  infer_instance

instance (word : String) : Paired P (acceptWord word) (acceptWord word) := by
  unfold acceptWord
  infer_instance

instance (kind : TokenKind) : Paired P (expect kind) (expect kind) := by
  unfold expect
  infer_instance

instance (word : String) : Paired P (expectWord word) (expectWord word) := by
  unfold expectWord
  infer_instance

/-- The steps of a list in braces. -/
theorem braced {step step' : Parse (List α × Bool)} (hrun : Running step)
    (hstep : Paired P step step') :
    Paired P
      (do
        if ← expect .openBrace then
          let members ← collect step
          let _ ← expect .closeBrace
          return members
        else return [])
      (do
        if ← expect .openBrace then
          let members ← collect step'
          let _ ← expect .closeBrace
          return members
        else return []) := by
  infer_instance

/-- A name is not taken from a template. -/
theorem takeIdent : P.Goes (· ≠ .template) (Ident.Alike P.toLikeness) takeIdent takeIdent :=
  fun _ _ hs hk _ => ⟨hs.next, (hs.current.value hk).symm, hs.current.span⟩

instance : Paired P identifier identifier := by
  unfold identifier
  exact ⟨.isAt (takeIdent.mono fun _ h => h.2 ▸ nofun) (of inferInstance)⟩

/-- What follows a name that is taken. -/
theorem ident {K : TokenKind → Prop} (hK : ∀ k, K k → k ≠ .template) {f f' : Ident → Parse α}
    [hrun : ∀ n, Running (f n)] [hf : ∀ x : Twin P.toLikeness Ident, Paired P (f x.left) (f' x.right)] :
    P.Goes K (Comparable.alike P.toLikeness) (Parse.takeIdent >>= f) (Parse.takeIdent >>= f') :=
  (takeIdent.mono hK).bind hrun fun n n' h => (hf ⟨n, n', h⟩).goes

instance : Paired P stringLiteral stringLiteral := by
  unfold stringLiteral
  exact ⟨.isAt (ident (by simp +contextual)) (of inferInstance)⟩

instance : Paired P specifier specifier := by
  unfold specifier
  infer_instance

instance : Paired P semicolon semicolon := by
  unfold semicolon
  infer_instance

instance : Paired P entityName entityName := by
  unfold entityName
  infer_instance

instance : Paired P exportName exportName := by
  unfold exportName
  exact ⟨.isAt (takeIdent.mono fun _ h => h.2 ▸ nofun) (of inferInstance)⟩

instance (condition condition' : Parse Bool) (p p' : Parse α) [Running p]
    [Paired P condition condition'] [Paired P p p'] :
    Paired P (whenever condition p) (whenever condition' p') := by
  unfold whenever
  infer_instance

instance (close : TokenKind) (item item' : Parse α) [Running item] [Paired P item item'] :
    Paired P (listUntil close item) (listUntil close item') := by
  unfold listUntil
  infer_instance

theorem orAdvance {K : TokenKind → Prop} {p p' : Parse α} [Running p]
    (h : P.Goes K (Comparable.alike P.toLikeness) p p') :
    P.Goes K (Comparable.alike P.toLikeness) (orAdvance p) (orAdvance p') := by
  refine .see Seen.position fun p p' hp => .bind h (fun _ => inferInstance) fun x x' hx =>
    .see Seen.position fun q q' hq => ?_
  rw [Pairing.beq_eq hq hp]
  exact .ite (fun _ => .bind (inferInstance : Paired P advance advance).goes
    (fun _ => inferInstance) fun _ _ _ => .pure hx) fun _ => .pure hx

/-! ### Passing over -/

instance (depth : ℕ) : Paired P (balancedStep depth) (balancedStep depth) := by
  unfold balancedStep
  infer_instance

instance : Paired P skipBalanced skipBalanced := by
  unfold skipBalanced
  infer_instance

instance : Paired P skipGroup skipGroup := by
  unfold skipGroup
  infer_instance

instance : Comparable BodyScan := ⟨fun _ => Eq⟩

instance : Plain BodyScan := ⟨fun _ _ _ => .rfl⟩

instance (b : BodyScan) : Paired P (bodyStep b) (bodyStep b) := by
  unfold bodyStep
  refine ⟨.current fun t t' h _ => of ?_⟩
  simp only [h.kind, h.isWord]
  split <;> infer_instance

instance : Paired P functionBody functionBody := by
  unfold functionBody
  infer_instance

instance : Paired P optionalBody optionalBody := by
  unfold optionalBody
  infer_instance

instance : Paired P skipStatement skipStatement := by
  unfold skipStatement
  refine ⟨.see Seen.position fun p p' hp => of (repeatWhile (.bind inferInstance fun t => ?_)
    ⟨.current fun t t' h _ => of ?_⟩)⟩
  · split <;> infer_instance
  · simp only [h.kind, h.afterBreak, bne, Pairing.beq_eq h.span.start hp]
    split <;> infer_instance

instance : Paired P skipExpression skipExpression := by
  unfold skipExpression
  infer_instance

instance : Paired P skipType skipType := by
  unfold skipType
  infer_instance

instance : Paired P skipAngles skipAngles := by
  unfold skipAngles
  refine ⟨.bind (iterate 0 (fun depth => .bind inferInstance fun t => ?_)
    fun depth => ⟨.current fun t t' h _ => of ?_⟩).goes (fun _ => inferInstance)
    fun _ _ _ => .pure rfl⟩
  · split <;> infer_instance
  · rw [h.kind]
    split <;> infer_instance

end Paired

end Parse

end ApiSurface

import ApiSurface.Proofs.QuietParsing
import ApiSurface.Proofs.SpelledPieces
import Mathlib.Data.List.Forall2
/-!
What a parser reads from the tokens in front of it. A parser reads up to some token with some result
where it does so from every state in front of the same tokens; that a production reads what its
grammar says follows from one rule for each way in which parsers are put together.
-/
namespace ApiSurface

/-- A parser in front of some tokens, and of nothing else; nothing has been reported. -/
structure ParseState.At (k : ParseContext) (ps : List Piece) (s : ParseState) : Prop where
  lexer : s.lexer.At ps
  context : s.context = k
  diagnostics : s.diagnostics = #[]

/-- The first of some tokens. -/
structure Token.IsFirst (ps : List Piece) (t : Token) : Prop where
  kind : t.kind = kindAt ps
  value : t.value = valueAt ps
  afterBreak : t.afterBreak = false

/-- Whether the first of some tokens is a certain word. -/
def wordAt (ps : List Piece) (word : String) : Bool :=
  kindAt ps == .identifier && valueAt ps == word

section First

variable {ps : List Piece}

@[simp] theorem kindAt_word (name : String) : kindAt (.word name :: ps) = .identifier := rfl

@[simp] theorem kindAt_string (value : String) : kindAt (.string value :: ps) = .string := rfl

@[simp] theorem kindAt_sign (kind : TokenKind) : kindAt (.sign kind :: ps) = kind := rfl

@[simp] theorem valueAt_word (name : String) : valueAt (.word name :: ps) = name := rfl

@[simp] theorem valueAt_string (value : String) : valueAt (.string value :: ps) = value := rfl

@[simp] theorem wordAt_word (name word : String) :
    wordAt (.word name :: ps) word = (name == word) := rfl

theorem wordAt_of_kindAt {word : String} (h : kindAt ps ≠ .identifier) :
    wordAt ps word = false := by
  rw [wordAt, beq_false_of_ne h, Bool.false_and]

theorem Token.IsFirst.isWord {t : Token} (h : t.IsFirst ps) (word : String) :
    t.isWord word = wordAt ps word := by
  rw [Token.isWord, h.kind, h.value, wordAt]

end First

namespace ParseState.At

variable {k : ParseContext} {ps : List Piece} {s : ParseState}

theorem isFirst (h : s.At k ps) : s.current.IsFirst ps :=
  ⟨h.lexer.kind, h.lexer.value, h.lexer.afterBreak⟩

theorem next (h : s.At k ps) : (Parse.next s).At k ps.tail :=
  ⟨Lexer.scan_at h.lexer.rest h.lexer.comments h.lexer.problems, h.context, h.diagnostics⟩

theorem stall (h : s.At k ps) (stalled : Bool) : { s with stalled }.At k ps :=
  ⟨h.lexer, h.context, h.diagnostics⟩

theorem enter (h : s.At k ps) (k' : ParseContext) : { s with context := k' }.At k' ps :=
  ⟨h.lexer, rfl, h.diagnostics⟩

/-- Each token that is left takes at least one character. -/
theorem length_le (h : s.At k ps) : ps.length ≤ s.rest.length + 1 := by
  have hle := h.lexer.rest.length_le
  rw [List.length_tail] at hle
  exact Nat.le_add_of_sub_le hle

end ParseState.At

namespace Parse

variable {α β σ : Type} {k : ParseContext} {ps qs rs : List Piece} {P Q : α → Prop}

/-- In front of the tokens `ps`, a parser reads up to `qs`, and its result is as said. -/
def Reads (p : Parse α) (k : ParseContext) (ps qs : List Piece) (P : α → Prop) : Prop :=
  ∀ (c : Setting) (s : ParseState), s.At k ps → P (p c s).1 ∧ (p c s).2.At k qs

/-- In front of the tokens `ps`, the answer of a parser is `a`. -/
def Tells (p : Parse α) (k : ParseContext) (ps : List Piece) (a : α) : Prop :=
  ∀ (c : Setting) (s : ParseState), s.At k ps → (p c s).1 = a

/-! ### Rules for all parsers -/

theorem Reads.mono {p : Parse α} (h : p.Reads k ps qs P) (hPQ : ∀ a, P a → Q a) :
    p.Reads k ps qs Q := fun c s hs => ⟨hPQ _ (h c s hs).1, (h c s hs).2⟩

theorem Reads.pure {a : α} (h : P a) : (pure a : Parse α).Reads k ps ps P := fun _ _ hs => ⟨h, hs⟩

theorem Reads.bind {p : Parse α} {f : α → Parse β} {R : β → Prop} (hp : p.Reads k ps qs P)
    (hf : ∀ a, P a → (f a).Reads k qs rs R) : (p >>= f).Reads k ps rs R := fun c s hs =>
  hf (p c s).1 (hp c s hs).1 c (p c s).2 (hp c s hs).2

/-- A parser that reads with one result only. -/
theorem Reads.then {p : Parse α} {f : α → Parse β} {a : α} {R : β → Prop}
    (hp : p.Reads k ps qs (· = a)) (hf : (f a).Reads k qs rs R) : (p >>= f).Reads k ps rs R :=
  hp.bind fun _ h => h ▸ hf

/-- A parser that changes nothing. -/
theorem Reads.of_still {p : Parse α} [hp : Still p] (h : ∀ c s, s.At k ps → P (p c s).1) :
    p.Reads k ps ps P := fun c s hs => ⟨h c s hs, (hp.state c s).symm ▸ hs⟩

/-- A parser whose result is used in no way. -/
theorem Reads.still {p : Parse α} {f : α → Parse β} {R : β → Prop} [Still p]
    (hf : ∀ a, (f a).Reads k ps rs R) : (p >>= f).Reads k ps rs R :=
  (of_still (P := fun _ => True) fun _ _ _ => trivial).bind fun a _ => hf a

theorem Reads.get {f : ParseState → Parse β} {R : β → Prop}
    (hf : ∀ s, s.context = k → (f s).Reads k ps rs R) : (get >>= f).Reads k ps rs R :=
  (of_still (P := (·.context = k)) fun _ _ hs => hs.context).bind hf

/-! ### Tests of the current and of the next token -/

theorem peek_isFirst (c : Setting) {s : ParseState} (hs : s.At k ps) :
    (peek c s).1.IsFirst ps.tail := hs.next.isFirst

theorem tells_isAt {kind : TokenKind} : (isAt kind).Tells k ps (kindAt ps == kind) :=
  fun _ _ hs => congrArg (· == kind) hs.isFirst.kind

theorem tells_isAtAny {kinds : List TokenKind} :
    (isAtAny kinds).Tells k ps (kinds.contains (kindAt ps)) :=
  fun _ _ hs => congrArg kinds.contains hs.isFirst.kind

theorem tells_isAtWord {word : String} : (isAtWord word).Tells k ps (wordAt ps word) :=
  fun _ _ hs => hs.isFirst.isWord word

theorem tells_isAtWords {words : List String} :
    (isAtWords words).Tells k ps (kindAt ps == .identifier && words.contains (valueAt ps)) :=
  fun _ _ hs =>
    congrArg₂ (fun (kind : TokenKind) value => kind == .identifier && words.contains value)
      hs.isFirst.kind hs.isFirst.value

theorem tells_isAfterBreak : isAfterBreak.Tells k ps false := fun _ _ hs => hs.isFirst.afterBreak

theorem tells_nextIs {kind : TokenKind} : (nextIs kind).Tells k ps (kindAt ps.tail == kind) :=
  fun c _ hs => congrArg (· == kind) (peek_isFirst c hs).kind

theorem tells_nextIsWord {word : String} : (nextIsWord word).Tells k ps (wordAt ps.tail word) :=
  fun c _ hs => (peek_isFirst c hs).isWord word

theorem tells_nextIsIdentifierOnLine :
    nextIsIdentifierOnLine.Tells k ps (kindAt ps.tail == .identifier) := fun c s hs => by
  have hnext := peek_isFirst c hs
  show ((peek c s).1.kind == .identifier && !(peek c s).1.afterBreak) = _
  rw [hnext.kind, hnext.afterBreak, Bool.not_false, Bool.and_true]

/-- A test that is decided by the tokens in front. -/
theorem Tells.reads_iff {p : Parse α} {f : α → Parse β} {a : α} {R : β → Prop} [hp : Still p]
    (h : p.Tells k ps a) : (p >>= f).Reads k ps qs R ↔ (f a).Reads k ps qs R := by
  refine forall_congr' fun c => forall_congr' fun s => imp_congr_right fun hs => ?_
  have hrun : (p >>= f) c s = f (p c s).1 c (p c s).2 := rfl
  rw [hrun, h c s hs, hp.state c s]

theorem Tells.reads {p : Parse α} {a : α} [Still p] (h : p.Tells k ps a) :
    p.Reads k ps ps (· = a) := .of_still h

section Tests

variable {f : Bool → Parse β} {R : β → Prop} {kind : TokenKind} {kinds : List TokenKind}
  {word : String} {words : List String}

@[simp] theorem reads_isAt :
    (isAt kind >>= f).Reads k ps qs R ↔ (f (kindAt ps == kind)).Reads k ps qs R :=
  tells_isAt.reads_iff

@[simp] theorem reads_isAtAny :
    (isAtAny kinds >>= f).Reads k ps qs R ↔ (f (kinds.contains (kindAt ps))).Reads k ps qs R :=
  tells_isAtAny.reads_iff

@[simp] theorem reads_isAtWord :
    (isAtWord word >>= f).Reads k ps qs R ↔ (f (wordAt ps word)).Reads k ps qs R :=
  tells_isAtWord.reads_iff

@[simp] theorem reads_isAtWords :
    (isAtWords words >>= f).Reads k ps qs R ↔
      (f (kindAt ps == .identifier && words.contains (valueAt ps))).Reads k ps qs R :=
  tells_isAtWords.reads_iff

@[simp] theorem reads_isAtIdentifier :
    (isAtIdentifier >>= f).Reads k ps qs R ↔
      (f (kindAt ps == .identifier)).Reads k ps qs R := reads_isAt

@[simp] theorem reads_isAfterBreak :
    (isAfterBreak >>= f).Reads k ps qs R ↔ (f false).Reads k ps qs R :=
  tells_isAfterBreak.reads_iff

@[simp] theorem reads_isAtTypeEnd :
    (isAtTypeEnd >>= f).Reads k ps qs R ↔
      (f ([.closeParen, .closeBracket, .closeBrace, .comma, .semicolon, .greater, .equals, .arrow,
        .endOfFile].contains (kindAt ps))).Reads k ps qs R := reads_isAtAny

@[simp] theorem reads_nextIs :
    (nextIs kind >>= f).Reads k ps qs R ↔ (f (kindAt ps.tail == kind)).Reads k ps qs R :=
  tells_nextIs.reads_iff

@[simp] theorem reads_nextIsWord :
    (nextIsWord word >>= f).Reads k ps qs R ↔ (f (wordAt ps.tail word)).Reads k ps qs R :=
  tells_nextIsWord.reads_iff

@[simp] theorem reads_nextIsIdentifierOnLine :
    (nextIsIdentifierOnLine >>= f).Reads k ps qs R ↔
      (f (kindAt ps.tail == .identifier)).Reads k ps qs R := tells_nextIsIdentifierOnLine.reads_iff

end Tests

theorem reads_current : current.Reads k ps ps (Token.IsFirst ps) :=
  .of_still fun _ _ hs => hs.isFirst

theorem Reads.current {f : Token → Parse β} {R : β → Prop}
    (hf : ∀ t, t.IsFirst ps → (f t).Reads k ps rs R) : (current >>= f).Reads k ps rs R :=
  reads_current.bind hf

theorem Reads.peek {f : Token → Parse β} {R : β → Prop}
    (hf : ∀ t, t.IsFirst ps.tail → (f t).Reads k ps rs R) : (peek >>= f).Reads k ps rs R :=
  (of_still (P := Token.IsFirst ps.tail) fun c _ hs => peek_isFirst c hs).bind hf

/-! ### Taking tokens -/

theorem Reads.advance {f : Unit → Parse β} {R : β → Prop} (hf : (f ()).Reads k ps.tail qs R) :
    (advance >>= f).Reads k ps qs R := fun c s hs => hf c (Parse.next s) hs.next

section Taking

variable {p : Piece} {kind : TokenKind} {word : String} {f : Bool → Parse β} {R : β → Prop}

/-- A token of the kind that comes next is taken. -/
theorem reads_accept : (accept kind).Reads k (.sign kind :: ps) ps (· = true) := by
  rw [accept, reads_isAt, kindAt_sign, beq_self_eq_true, if_pos rfl]
  exact .advance (.pure rfl)

/-- A token of another kind is left. -/
theorem reads_reject (hkind : kindAt ps ≠ kind) : (accept kind).Reads k ps ps (· = false) := by
  rw [accept, reads_isAt, beq_false_of_ne hkind, if_neg Bool.false_ne_true]
  exact .pure rfl

theorem reads_acceptWord : (acceptWord word).Reads k (.word word :: ps) ps (· = true) := by
  rw [acceptWord, reads_isAtWord, wordAt_word, beq_self_eq_true, if_pos rfl]
  exact .advance (.pure rfl)

theorem reads_rejectWord (hword : wordAt ps word = false) :
    (acceptWord word).Reads k ps ps (· = false) := by
  rw [acceptWord, reads_isAtWord, hword, if_neg Bool.false_ne_true]
  exact .pure rfl

theorem Reads.accept (hf : (f true).Reads k ps qs R) :
    (accept kind >>= f).Reads k (.sign kind :: ps) qs R := reads_accept.then hf

theorem Reads.reject (hkind : kindAt ps ≠ kind) (hf : (f false).Reads k ps qs R) :
    (Parse.accept kind >>= f).Reads k ps qs R := (reads_reject hkind).then hf

theorem Reads.acceptWord (hf : (f true).Reads k ps qs R) :
    (acceptWord word >>= f).Reads k (.word word :: ps) qs R := reads_acceptWord.then hf

theorem Reads.rejectWord (hword : wordAt ps word = false) (hf : (f false).Reads k ps qs R) :
    (Parse.acceptWord word >>= f).Reads k ps qs R := (reads_rejectWord hword).then hf

theorem reads_expect : (expect kind).Reads k (.sign kind :: ps) ps (· = true) := by
  rw [expect]
  exact .accept (.pure rfl)

theorem Reads.expect (hf : (f true).Reads k ps qs R) :
    (expect kind >>= f).Reads k (.sign kind :: ps) qs R := reads_expect.then hf

theorem reads_takeIdent :
    takeIdent.Reads k (p :: ps) ps (·.text = p.value) := by
  rw [takeIdent]
  exact .current fun t ht => .advance (.pure ht.value)

theorem reads_identifier {name : String} :
    identifier.Reads k (.word name :: ps) ps (·.text = name) := by
  rw [identifier, reads_isAtIdentifier]
  exact reads_takeIdent

/-- What would follow a sign is left out where the sign is not there. -/
theorem reads_never {q : Parse α} (hkind : kindAt ps ≠ kind) :
    (whenever (Parse.accept kind) q).Reads k ps ps (· = none) := by
  rw [whenever]
  exact .reject hkind (.pure rfl)

end Taking

/-! ### Going back -/

/-- A parser that looks ahead stays where it is. -/
theorem Reads.lookAhead {p : Parse α} [hp : Quiet p] (h : p.Reads k ps qs P) :
    (lookAhead p).Reads k ps ps P := by
  intro c s hs
  rw [Quiet.lookAhead_run hp]
  exact ⟨(h c s hs).1, hs.stall _⟩

/-- A parser that looks ahead to something that does not matter. -/
theorem Reads.lookAhead_any {p : Parse α} [hp : Quiet p] :
    (Parse.lookAhead p).Reads k ps ps fun _ => True := by
  intro c s hs
  rw [Quiet.lookAhead_run hp]
  exact ⟨trivial, hs.stall _⟩

/-- A parser that reads something and finds that it is not for it stays where it is. -/
theorem Reads.attempt {p : Parse (Option α)} [hp : Quiet p] (qs : List Piece)
    (h : p.Reads k ps qs (· = none)) : (Parse.attempt p).Reads k ps ps (· = none) := by
  intro c s hs
  rw [Quiet.attempt_run_none hp (h c s hs).1]
  exact ⟨rfl, hs.stall _⟩

/-! ### Contexts -/

theorem Reads.within {p : Parse α} {enter leave : ParseContext → ParseContext}
    (hback : leave (enter k) = k) (h : p.Reads (enter k) ps qs P) :
    (within enter leave p).Reads k ps qs P := by
  intro c s hs
  obtain ⟨hP, hend⟩ := h c { s with context := enter s.context } (hs.context ▸ hs.enter _)
  refine ⟨hP, hend.lexer, ?_, hend.diagnostics⟩
  exact (congrArg leave hend.context).trans hback

theorem Reads.nested {tooDeep p : Parse α} (hdepth : k.depth < maxDepth)
    (h : p.Reads { k with depth := k.depth + 1 } ps qs P) :
    (nested tooDeep p).Reads k ps qs P := by
  rw [Parse.nested]
  refine .get fun s hs => ?_
  rw [if_neg (by rw [hs]; exact Nat.not_le_of_gt hdepth)]
  exact .within rfl h

theorem Reads.settingConditionals {p : Parse α} {without : Bool}
    (h : p.Reads { k with withoutConditionals := without } ps qs P) :
    (settingConditionals without p).Reads k ps qs P := by
  rw [Parse.settingConditionals]
  refine .get fun s hs => .within ?_ h
  rw [hs]

/-! ### Repetitions -/

theorem reads_stepOn {step : σ → Parse (σ × Bool)} {x : σ} {R : σ × Bool → Prop}
    (h : (step x).Reads k ps qs R) : (stepOn step x).Reads k ps qs R := by
  rw [stepOn]
  refine .get fun s _ => h.bind fun (y, more) hR => .get fun s' _ => ?_
  dsimp only
  split
  · exact fun c s hs => ⟨hR, hs.stall true⟩
  · exact .pure hR

/-- A step of a repetition goes from tokens where a value may be to fewer tokens where the next one
may be, or stops with a result. -/
def Steps (step : σ → Parse (σ × Bool)) (k : ParseContext) (qs : List Piece)
    (I : σ → List Piece → Prop) (P : σ → Prop) : Prop :=
  ∀ x ps, I x ps →
    (step x).Reads k ps qs (fun (y, more) => more = false ∧ P y) ∨
      ∃ rs, rs.length < ps.length ∧ (step x).Reads k ps rs fun (y, more) => more = true ∧ I y rs

theorem reads_iterateFrom {step : σ → Parse (σ × Bool)} {I : σ → List Piece → Prop} {P : σ → Prop}
    (hstep : Steps step k qs I P) {cs : List Char} {x : σ} (hlength : ps.length ≤ cs.length)
    (hx : I x ps) : (iterateFrom step cs x).Reads k ps qs P := by
  induction cs generalizing x ps with
  | nil =>
    rw [iterateFrom]
    obtain hstop | ⟨rs, hlt, -⟩ := hstep x ps hx
    · refine (reads_stepOn hstop).bind fun (y, more) ⟨hmore, hP⟩ => ?_
      obtain rfl := hmore
      exact .pure hP
    · exact absurd (Nat.lt_of_lt_of_le hlt hlength) (Nat.not_lt_zero _)
  | cons c cs ih =>
    rw [iterateFrom]
    obtain hstop | ⟨rs, hlt, hgo⟩ := hstep x ps hx
    · refine (reads_stepOn hstop).bind fun (y, more) ⟨hmore, hP⟩ => ?_
      obtain rfl := hmore
      exact .pure hP
    · refine (reads_stepOn hgo).bind fun (y, more) ⟨hmore, hI⟩ => ?_
      obtain rfl := hmore
      exact ih (Nat.le_of_lt_succ (Nat.lt_of_lt_of_le hlt hlength)) hI

/-- A repetition reads what its steps read. -/
theorem reads_iterate {step : σ → Parse (σ × Bool)} {I : σ → List Piece → Prop} {P : σ → Prop}
    {x : σ} (hstep : Steps step k qs I P) (hx : I x ps) : (iterate step x).Reads k ps qs P := by
  intro c s hs
  exact reads_iterateFrom hstep hs.length_le hx c s hs

/-- A repetition that stops at once. -/
theorem reads_iterate_none {step : σ → Parse (σ × Bool)} {x : σ}
    (h : (step x).Reads k ps ps (· = (x, false))) : (iterate step x).Reads k ps ps (· = x) := by
  refine reads_iterate (I := fun y rs => y = x ∧ rs = ps) (fun y rs ⟨hy, hrs⟩ => .inl ?_) ⟨rfl, rfl⟩
  subst hy hrs
  exact h.mono fun (z, more) hz => (Prod.mk.inj hz).symm

/-! ### Lists -/

section Lists

variable {τ : Type} {w : τ → List Piece} {S : τ → α → Prop} {xs : List τ} {item : Parse α}

/-- Results are collected from tokens that go with what has been found so far. -/
theorem reads_collect {step : Parse (List α × Bool)} {I : List α → List Piece → Prop}
    {P : List α → Prop} (hstep : ∀ found ps, I found ps →
      (step.Reads k ps qs fun (new, more) => more = false ∧ P (found ++ new)) ∨
        ∃ rs, rs.length < ps.length ∧
          step.Reads k ps rs fun (new, more) => more = true ∧ I (found ++ new) rs)
    (h : I [] ps) : (collect step).Reads k ps qs P := by
  rw [collect]
  refine (reads_iterate (I := fun found ps => I found.toList ps) (P := fun found => P found.toList)
    (fun found ps hI => ?_) h).bind fun found hP => .pure hP
  refine (hstep found.toList ps hI).imp (fun hstop => ?_) fun ⟨rs, hlt, hgo⟩ => ⟨rs, hlt, ?_⟩
  · exact hstop.bind fun (new, more) ⟨hmore, hP⟩ => .pure ⟨hmore, by simpa using hP⟩
  · exact hgo.bind fun (new, more) ⟨hmore, hI⟩ => .pure ⟨hmore, by simpa using hI⟩

/-- Items are read with a sign before each. -/
theorem reads_led {sign : TokenKind} (hend : kindAt qs ≠ sign)
    (hitem : ∀ x ∈ xs, ∀ rs, (rs = qs ∨ ∃ rest, rs = .sign sign :: rest) →
      (w x ++ rs).length < (led sign (xs.map w) ++ qs).length →
      item.Reads k (w x ++ rs) rs (S x)) :
    (collect do if ← accept sign then return ([← item], true) else return ([], false)).Reads k
      (led sign (xs.map w) ++ qs) qs (List.Forall₂ S xs) := by
  -- some items have been read, the tokens are those of the others
  refine reads_collect (I := fun found ps => ∃ done todo, xs = done ++ todo ∧
    List.Forall₂ S done found ∧ ps = led sign (todo.map w) ++ qs) ?_ ⟨[], xs, rfl, .nil, rfl⟩
  rintro found _ ⟨done, todo, rfl, hdone, rfl⟩
  cases todo with
  | nil =>
    refine .inl (.reject hend (.pure ⟨rfl, ?_⟩))
    rwa [List.append_nil, List.append_nil]
  | cons x todo =>
    have hrest : led sign (todo.map w) ++ qs = qs ∨
        ∃ rest, led sign (todo.map w) ++ qs = .sign sign :: rest := by
      cases todo with
      | nil => exact .inl rfl
      | cons y todo => exact .inr ⟨_, rfl⟩
    have hx := hitem x (List.mem_append_cons_self) (led sign (todo.map w) ++ qs) hrest
      (by simp [led]; omega)
    have htokens : led sign ((x :: todo).map w) ++ qs =
        .sign sign :: (w x ++ (led sign (todo.map w) ++ qs)) := by simp [led]
    refine .inr ⟨led sign (todo.map w) ++ qs, ?_, ?_⟩
    · exact htokens ▸ Nat.lt_succ_of_le (List.suffix_append (w x) _).length_le
    · rw [htokens]
      exact .accept (hx.bind fun y hy =>
        .pure ⟨rfl, done ++ [x], todo, by simp, List.rel_append hdone (.cons hy .nil), rfl⟩)

/-- Items are read up to a closing token, with commas between them. -/
theorem reads_listUntil {close : TokenKind} (hclose : close ≠ .comma)
    (hfirst : ∀ x ∈ xs, ∀ rs, kindAt (w x ++ rs) ∉ [close, .endOfFile])
    (hitem : ∀ x ∈ xs, ∀ kind ∈ [.comma, close], ∀ rs,
      (w x ++ .sign kind :: rs).length ≤
        (parted .comma (xs.map w) ++ .sign close :: qs).length →
      item.Reads k (w x ++ .sign kind :: rs) (.sign kind :: rs) (S x)) :
    (listUntil close item).Reads k (parted .comma (xs.map w) ++ .sign close :: qs)
      (.sign close :: qs) (List.Forall₂ S xs) := by
  rw [listUntil]
  -- some items and the commas behind them have been read
  refine reads_collect (I := fun found ps => ∃ done todo, xs = done ++ todo ∧
    List.Forall₂ S done found ∧
    ps.length ≤ (parted .comma (xs.map w) ++ .sign close :: qs).length ∧
    ps = parted .comma (todo.map w) ++ .sign close :: qs)
    ?_ ⟨[], xs, rfl, .nil, le_rfl, rfl⟩
  rintro found _ ⟨done, todo, rfl, hdone, hle, rfl⟩
  cases todo with
  | nil =>
    refine .inl (reads_isAtAny.mpr ?_)
    simp only [parted, List.map_nil, List.nil_append, kindAt_sign, List.contains_cons, BEq.rfl,
      Bool.true_or, if_true]
    refine .pure ⟨rfl, ?_⟩
    rwa [List.append_nil, List.append_nil]
  | cons x todo =>
    have hmem : x ∈ done ++ x :: todo := List.mem_append_cons_self
    have hat (rs : List Piece) : [close, .endOfFile].contains (kindAt (w x ++ rs)) = false := by
      rw [List.contains_eq_mem, decide_eq_false (hfirst x hmem rs)]
    cases todo with
    | nil =>
      have htokens : parted .comma ([x].map w) ++ .sign close :: qs =
          w x ++ .sign close :: qs := by simp [parted, led]
      rw [htokens] at hle ⊢
      refine .inl (reads_isAtAny.mpr ?_)
      rw [hat, if_neg Bool.false_ne_true]
      refine (hitem x hmem close (by simp) qs hle).bind fun y hy =>
        .reject hclose (.pure ⟨rfl, List.rel_append hdone (.cons hy .nil)⟩)
    | cons y todo =>
      have htokens : parted .comma ((x :: y :: todo).map w) ++ .sign close :: qs =
          w x ++ .sign .comma ::
            (parted .comma ((y :: todo).map w) ++ .sign close :: qs) := by simp [parted, led]
      rw [htokens] at hle ⊢
      refine .inr ⟨parted .comma ((y :: todo).map w) ++ .sign close :: qs, ?_,
        reads_isAtAny.mpr ?_⟩
      · simp only [List.length_append, List.length_cons]
        omega
      rw [hat, if_neg Bool.false_ne_true]
      refine (hitem x hmem .comma (by simp) _ hle).bind fun z hz =>
        .accept (.pure ⟨rfl, done ++ [x], y :: todo, by simp,
          List.rel_append hdone (.cons hz .nil), ?_, rfl⟩)
      simp only [List.length_append, List.length_cons] at hle ⊢
      omega

end Lists

/-- A dotted name is read up to a token that is no dot. -/
theorem reads_entityName {head : String} {tail : List String} (hend : kindAt qs ≠ .dot) :
    entityName.Reads k (.word head :: (led .dot (tail.map fun name => [.word name]) ++ qs)) qs
      (·.texts = head :: tail) := by
  rw [entityName]
  refine .still fun start => reads_identifier.bind fun first hfirst => ?_
  refine (reads_led (w := fun name => [.word name])
    (S := fun name (found : Ident) => found.text = name) hend
    fun name _ rs _ _ => reads_identifier).bind fun rest hrest => .still fun span => .pure ?_
  have htexts : rest.map Ident.text = tail := by
    have hsame := List.forall₂_map_right_iff.mpr (hrest.imp fun _ _ h => h.symm)
    rw [List.forall₂_eq_eq_eq] at hsame
    exact hsame.symm
  show first.text :: rest.map Ident.text = _
  rw [hfirst, htexts]

/-! ### Groups in brackets -/

/-- How many brackets are open behind a token. -/
def openAfter (depth : ℕ) (kind : TokenKind) : ℕ :=
  if kind.opens then depth + 1 else if kind.closes then depth - 1 else depth

/-- What is left behind the group that is open, or that starts with the first token. -/
def afterGroup (depth : ℕ) : List Piece → Option (List Piece)
  | [] => none
  | p :: ps =>
    if p.kind = .endOfFile then none
    else if openAfter depth p.kind = 0 then some ps
    else afterGroup (openAfter depth p.kind) ps

theorem reads_balancedStep {depth : ℕ} (hkind : kindAt ps ≠ .endOfFile) :
    (balancedStep depth).Reads k ps ps.tail
      (· = (openAfter depth (kindAt ps), openAfter depth (kindAt ps) != 0)) := by
  rw [balancedStep]
  refine .current fun t ht => ?_
  dsimp only
  rw [ht.kind, beq_false_of_ne hkind, if_neg Bool.false_ne_true]
  exact .advance (.pure rfl)

/-- A group in brackets is passed. -/
theorem reads_skipBalanced (h : afterGroup 0 ps = some qs) :
    skipBalanced.Reads k ps qs fun _ => True := by
  rw [skipBalanced]
  refine (reads_iterate (I := fun depth ps => afterGroup depth ps = some qs) (P := fun _ => True)
    (fun depth ps hps => ?_) h).bind fun _ _ => .pure trivial
  cases ps with
  | nil => exact absurd hps nofun
  | cons p ps =>
    rw [afterGroup] at hps
    split at hps
    · exact absurd hps nofun
    next hkind =>
    have hstep := @reads_balancedStep k (p :: ps) depth hkind
    split at hps
    · next hclosed =>
      obtain rfl := Option.some.inj hps
      refine .inl (hstep.mono fun (next, more) h => ?_)
      obtain ⟨-, hmore⟩ := Prod.mk.inj h
      exact ⟨hmore.trans (bne_eq_false_iff_eq.mpr hclosed), trivial⟩
    · next hopen =>
      refine .inr ⟨ps, Nat.lt_succ_self _, hstep.mono fun (next, more) h => ?_⟩
      obtain ⟨hnext, hmore⟩ := Prod.mk.inj h
      exact ⟨hmore.trans (bne_iff_ne.mpr hopen), hnext ▸ hps⟩

end Parse

end ApiSurface

import ApiSurface.Proofs.QuietParsing
/-!
Parsers that make progress: they never go on without taking a token. A parser that enters a
production again may count on a token having been taken before, or on standing inside the text. That
a parser is one of them follows from its parts, so instances find it; a condition in front of a
parser tells what the parser may count on.
-/
namespace ApiSurface

/-- The kinds of token inside a text. -/
@[reducible] def TokenKind.isInner : TokenKind → Bool
  | .endOfFile => false
  | _ => true

/-- A condition that has a known value. -/
class Known (b : Bool) (value : outParam Bool) : Prop where
  eq : b = value

instance : Known true true := ⟨rfl⟩

instance : Known false false := ⟨rfl⟩

instance (b : Bool) [h : Known b false] : Known (!b) true := ⟨by rw [h.eq]; rfl⟩

instance (a b : Bool) [h : Known a false] : Known (a && b) false := ⟨by rw [h.eq, Bool.false_and]⟩

instance (a b : Bool) [h : Known a true] : Known (a || b) true := ⟨by rw [h.eq, Bool.true_or]⟩

instance (a b : Bool) [h : Known b true] : Known (a || b) true := ⟨by rw [h.eq, Bool.or_true]⟩

instance (a b : Bool) [ha : Known a false] [hb : Known b false] : Known (a || b) false :=
  ⟨by rw [ha.eq, hb.eq, Bool.false_or]⟩

theorem TokenKind.ne_of_isInner {kind : TokenKind} [h : Known kind.isInner true] :
    kind ≠ .endOfFile := by
  rintro rfl
  cases h.eq

/-- The end of the text is among some kinds. -/
class HasEnd (kinds : List TokenKind) : Prop where
  mem : .endOfFile ∈ kinds

instance (kinds : List TokenKind) : HasEnd (.endOfFile :: kinds) := ⟨List.mem_cons_self⟩

instance (kind : TokenKind) (kinds : List TokenKind) [h : HasEnd kinds] : HasEnd (kind :: kinds) :=
  ⟨List.mem_cons_of_mem _ h.mem⟩

namespace ParseState

/-- From one state to another, no token was given back, a change of place took a token, and parsing
did not go on without one. -/
structure GoesOn (s s' : ParseState) : Prop where
  ordered : s'.Ordered
  pos_le : s.pos ≤ s'.pos
  kind_eq : s'.pos = s.pos → s'.current.kind = s.current.kind
  ahead_le : s'.ahead ≤ s.ahead
  ahead_eq : s'.pos = s.pos → s'.ahead = s.ahead
  moved : s.current.kind ≠ .endOfFile → s'.pos ≠ s.pos → s'.ahead < s.ahead
  stalled : s'.stalled = s.stalled

variable {s s' s'' : ParseState}

theorem GoesOn.refl (h : s.Ordered) : s.GoesOn s :=
  ⟨h, Nat.le_refl _, fun _ => rfl, Nat.le_refl _, fun _ => rfl, fun _ hne => absurd rfl hne, rfl⟩

theorem GoesOn.trans (h : s.GoesOn s') (h' : s'.GoesOn s'') : s.GoesOn s'' where
  ordered := h'.ordered
  pos_le := Nat.le_trans h.pos_le h'.pos_le
  kind_eq heq := by
    have hle := h.pos_le
    have hle' := h'.pos_le
    exact (h'.kind_eq (by omega)).trans (h.kind_eq (by omega))
  ahead_le := Nat.le_trans h'.ahead_le h.ahead_le
  ahead_eq heq := by
    have hle := h.pos_le
    have hle' := h'.pos_le
    exact (h'.ahead_eq (by omega)).trans (h.ahead_eq (by omega))
  moved hkind hne := by
    -- where the first part stayed, it left the kind of token to the second
    by_cases heq : s'.pos = s.pos
    · exact Nat.lt_of_lt_of_le (h'.moved (h.kind_eq heq ▸ hkind) (heq ▸ hne)) h.ahead_le
    · exact Nat.lt_of_le_of_lt h'.ahead_le (h.moved hkind heq)
  stalled := h'.stalled.trans h.stalled

/-- A token is taken only by a change of place. -/
theorem GoesOn.pos_lt (h : s.GoesOn s') (hlt : s'.ahead < s.ahead) : s.pos < s'.pos :=
  Nat.lt_of_le_of_ne h.pos_le fun heq => absurd (h.ahead_eq heq.symm) (Nat.ne_of_lt hlt)

/-- A change to what is neither a token nor the mark of a parser that stalled. -/
theorem GoesOn.of_eq (h : s.Ordered) (hlexer : s'.lexer = s.lexer)
    (hstalled : s'.stalled = s.stalled) : s.GoesOn s' := by
  have hcurrent : s'.current = s.current := congrArg Lexer.token hlexer
  have hpos : s'.pos = s.pos := congrArg (·.span.start) hcurrent
  have hahead : s'.ahead = s.ahead := by rw [ahead, ahead, hcurrent, rest, rest, hlexer]
  exact ⟨h.of_eq hlexer, Nat.le_of_eq hpos.symm, fun _ => congrArg _ hcurrent, Nat.le_of_eq hahead,
    fun _ => hahead, fun _ hne => absurd hpos hne, hstalled⟩

theorem next_goesOn (h : s.Ordered) : s.GoesOn (Parse.next s) := by
  have hpasses := next_passes h
  refine ⟨hpasses.ordered, hpasses.pos_le, hpasses.kind_eq, hpasses.ahead_le, fun heq => ?_,
    fun hkind _ => (next_passed h hkind).2, rfl⟩
  -- only the end is at the same place as the token after it
  have hend : s.current.kind = .endOfFile := by
    by_contra hkind
    exact absurd heq (Nat.ne_of_gt (next_passed h hkind).1)
  have hnext : (Parse.next s).current.kind = .endOfFile := (hpasses.kind_eq heq).trans hend
  rw [ahead, ahead, if_pos hend, if_pos hnext, h.ended hend, hpasses.ordered.ended hnext]

/-- What a parser may count on where it starts, if productions may be entered as long as fewer than
`k` characters are left: that a token was taken since, and that it stands inside the text. -/
structure Within (k : ℕ) (taken inside : Bool) (s : ParseState) : Prop where
  ordered : s.Ordered
  ahead_le : s.ahead + taken.toNat ≤ k
  ne_end : inside = true → s.current.kind ≠ .endOfFile

variable {k : ℕ} {taken inside : Bool}

theorem ahead_le (s : ParseState) : s.ahead ≤ (' ' :: s.rest).length := by
  rw [ahead, List.length_cons]
  split <;> omega

theorem Within.outside (h : s.Within k taken inside) : s.Within k taken false :=
  ⟨h.ordered, h.ahead_le, fun hinside => absurd hinside Bool.false_ne_true⟩

theorem Within.inner (h : s.Within k taken inside) (hkind : s.current.kind ≠ .endOfFile) :
    s.Within k taken true := ⟨h.ordered, h.ahead_le, fun _ => hkind⟩

theorem GoesOn.within (h : s.GoesOn s') (hs : s.Within k taken inside) :
    s'.Within k taken false :=
  ⟨h.ordered, Nat.le_trans (Nat.add_le_add_right h.ahead_le _) hs.ahead_le,
    fun hinside => absurd hinside Bool.false_ne_true⟩

theorem GoesOn.took (h : s.GoesOn s') (hs : s.Within k taken inside) (hlt : s'.ahead < s.ahead) :
    s'.Within k true false :=
  ⟨h.ordered, Nat.le_trans hlt (Nat.le_trans (Nat.le_add_right _ _) hs.ahead_le),
    fun hinside => absurd hinside Bool.false_ne_true⟩

end ParseState

namespace Parse

variable {α β σ : Type} {k : ℕ} {taken inside : Bool}

/-- A result and the state with it are reached by going on, with a token taken if the result asks
for that. -/
def Reaches (s : ParseState) (asks : α → Bool) (r : α × ParseState) : Prop :=
  s.GoesOn r.2 ∧ (asks r.1 = true → r.2.ahead < s.ahead)

/-- A parser that never goes on without taking a token, and takes one if its result asks for
that. -/
class Advances (k : ℕ) (taken inside : Bool) (asks : α → Bool) (p : Parse α) : Prop where
  reaches : ∀ (c : Setting) (s : ParseState), s.Within k taken inside → Reaches s asks (p c s)

/-- A parser that never goes on without taking a token. -/
abbrev Steady (k : ℕ) (taken inside : Bool) (p : Parse α) : Prop :=
  Advances k taken inside (fun _ => false) p

/-- A step that takes a token if it asks for more. -/
abbrev Stepping (k : ℕ) (taken inside : Bool) (step : Parse (σ × Bool)) : Prop :=
  Advances k taken inside Prod.snd step

/-- A parser that takes a token if it answers so. -/
abbrev Taking (k : ℕ) (taken inside : Bool) (p : Parse Bool) : Prop :=
  Advances k taken inside (fun answer => answer) p

/-- A parser that takes a token inside a text. -/
abbrev Grabbing (k : ℕ) (taken : Bool) (p : Parse α) : Prop :=
  Advances k taken true (fun _ => true) p

/-- A parser that takes no token. -/
class Looking (p : Parse α) : Prop where
  current : ∀ (c : Setting) (s : ParseState), (p c s).2.current = s.current

/-- A test that holds inside a text only. -/
class Showing (p : Parse Bool) : Prop extends Looking p where
  ne_end : ∀ (c : Setting) (s : ParseState), (p c s).1 = true → s.current.kind ≠ .endOfFile

/-- A test that holds at the end of a text. -/
class Excluding (p : Parse Bool) : Prop extends Looking p where
  ne_end : ∀ (c : Setting) (s : ParseState), (p c s).1 = false → s.current.kind ≠ .endOfFile

/-- A parser that takes no token unless it answers so. -/
class Refusing (p : Parse Bool) : Prop where
  current : ∀ (c : Setting) (s : ParseState), (p c s).1 = false → (p c s).2.current = s.current

/-- A parser that finds something only before a token inside the text. -/
class Finding (p : Parse (Option α)) : Prop where
  ne_end : ∀ (c : Setting) (s : ParseState), (p c s).1.isSome = true →
    (p c s).2.current.kind ≠ .endOfFile

/-! ### Parsers one after the other -/

theorem Advances.goesOn {asks : α → Bool} {p : Parse α} (hp : Advances k taken inside asks p)
    {c : Setting} {s : ParseState} (h : s.Within k taken inside) : s.GoesOn (p c s).2 :=
  (hp.reaches c s h).1

theorem Steady.of_goesOn {p : Parse α} (h : ∀ (c : Setting) (s : ParseState),
    s.Within k taken inside → s.GoesOn (p c s).2) : Steady k taken inside p :=
  ⟨fun c s hs => ⟨h c s hs, fun hfalse => absurd hfalse Bool.false_ne_true⟩⟩

theorem Advances.outside {asks : α → Bool} {p : Parse α} (hp : Advances k taken false asks p) :
    Advances k taken inside asks p := ⟨fun c s h => hp.reaches c s h.outside⟩

/-- One production deeper, with a token taken before. -/
theorem Advances.enter {asks : α → Bool} {p : Parse α} (hp : Advances k false inside asks p) :
    Advances (k + 1) true inside asks p :=
  ⟨fun c s h => hp.reaches c s ⟨h.ordered, Nat.le_of_succ_le_succ h.ahead_le, h.ne_end⟩⟩

theorem Looking.within {p : Parse α} (hp : Looking p) {c : Setting} {s : ParseState}
    (hs : s.GoesOn (p c s).2) (h : s.Within k taken inside) :
    (p c s).2.Within k taken inside :=
  ⟨hs.ordered, (hs.within h).ahead_le, fun hinside => hp.current c s ▸ h.ne_end hinside⟩

/-- What comes after a token was taken need not take one. -/
theorem Reaches.past {asks : β → Bool} {q : Parse β} {c : Setting} {s s₁ : ParseState}
    (hq : Steady k true false q) (h : s.Within k taken inside) (hs : s.GoesOn s₁)
    (hlt : s₁.ahead < s.ahead) : Reaches s asks (q c s₁) := by
  have hgoes := hq.goesOn (c := c) (hs.took h hlt)
  exact ⟨hs.trans hgoes, fun _ => Nat.lt_of_le_of_lt hgoes.ahead_le hlt⟩

namespace Advances

variable {asks : β → Bool} {c : Setting} {s s₁ : ParseState}

theorem after {q : Parse β} (hq : Advances k taken inside asks q) (hs : s.GoesOn s₁)
    (h : s₁.Within k taken inside) : Reaches s asks (q c s₁) := by
  obtain ⟨hgoes, hasks⟩ := hq.reaches c s₁ h
  exact ⟨hs.trans hgoes, fun ha => Nat.lt_of_lt_of_le (hasks ha) hs.ahead_le⟩

instance (b : β) [hb : Known (asks b) false] : Advances k taken inside asks (pure b : Parse β) :=
  ⟨fun _ _ h => ⟨.refl h.ordered, fun ha => absurd (hb.eq.symm.trans ha) Bool.false_ne_true⟩⟩

theorem bind {p : Parse α} {f : α → Parse β} (hp : Steady k taken inside p)
    (hf : ∀ a, Advances k taken false asks (f a)) : Advances k taken inside asks (p >>= f) :=
  ⟨fun _ _ h =>
    have hfirst := hp.goesOn h
    (hf _).after hfirst (hfirst.within h)⟩

instance (p : Parse α) (f : α → Parse β) [hp : Steady k taken inside p]
    [hf : ∀ a, Advances k taken false asks (f a)] : Advances k taken inside asks (p >>= f) :=
  bind hp hf

theorem look {p : Parse α} {f : α → Parse β} (hlook : Looking p) (hp : Steady k taken inside p)
    (hf : ∀ a, Advances k taken inside asks (f a)) : Advances k taken inside asks (p >>= f) :=
  ⟨fun _ _ h =>
    have hfirst := hp.goesOn h
    (hf _).after hfirst (hlook.within hfirst h)⟩

instance (p : Parse α) (f : α → Parse β) [hlook : Looking p] [hp : Steady k taken inside p]
    [hf : ∀ a, Advances k taken inside asks (f a)] : Advances k taken inside asks (p >>= f) :=
  look hlook hp hf

/-- What comes after a token that is taken inside the text. -/
instance (p : Parse α) (f : α → Parse β) [hp : Grabbing k taken p]
    [hf : ∀ a, Steady k true false (f a)] : Advances k taken true asks (p >>= f) :=
  ⟨fun c s h =>
    have hfirst := hp.reaches c s h
    show Reaches s asks (f (p c s).1 c (p c s).2) from .past (hf _) h hfirst.1 (hfirst.2 rfl)⟩

/-- What comes after a token that may have been taken. -/
instance (t : Parse Bool) (f : Bool → Parse β) [ht : Taking k taken inside t]
    [hrefuse : Refusing t] [htrue : Steady k true false (f true)]
    [hfalse : Advances k taken inside asks (f false)] : Advances k taken inside asks (t >>= f) := by
  refine ⟨fun c s h => ?_⟩
  obtain ⟨hfirst, hlt⟩ := ht.reaches c s h
  show Reaches s asks (f (t c s).1 c (t c s).2)
  cases hanswer : (t c s).1 with
  | true => exact .past htrue h hfirst (hlt hanswer)
  | false =>
    have hwithin := hfirst.within h
    exact hfalse.after hfirst ⟨hwithin.ordered, hwithin.ahead_le,
      fun hinside => hrefuse.current c s hanswer ▸ h.ne_end hinside⟩

/-- What comes after something that may have been found. -/
theorem find {p : Parse (Option α)} {f : Option α → Parse β} (hfind : Finding p)
    (hp : Steady k taken inside p) (hsome : ∀ a, Advances k taken true asks (f (some a)))
    (hnone : Advances k taken false asks (f none)) : Advances k taken inside asks (p >>= f) := by
  refine ⟨fun c s h => ?_⟩
  have hfirst := hp.goesOn (c := c) h
  have hwithin := hfirst.within h
  show Reaches s asks (f (p c s).1 c (p c s).2)
  cases hfound : (p c s).1 with
  | some a =>
    have hkind := hfind.ne_end c s (Option.isSome_of_eq_some hfound)
    exact (hsome a).after hfirst (hwithin.inner hkind)
  | none => exact hnone.after hfirst hwithin

instance (p : Parse (Option α)) (f : Option α → Parse β) [hfind : Finding p]
    [hp : Steady k taken inside p] [hsome : ∀ a, Advances k taken true asks (f (some a))]
    [hnone : Advances k taken false asks (f none)] : Advances k taken inside asks (p >>= f) :=
  find hfind hp hsome hnone

/-- What comes after something optional. -/
instance (priority := low) (p : Parse (Option α)) (f : Option α → Parse β)
    [hp : Steady k taken inside p] [hsome : ∀ a, Advances k taken false asks (f (some a))]
    [hnone : Advances k taken false asks (f none)] : Advances k taken inside asks (p >>= f) :=
  bind hp fun
    | some a => hsome a
    | none => hnone

theorem shown {t : Parse Bool} {f : Bool → Parse β} (hshow : Showing t)
    (ht : Steady k taken inside t) (htrue : Advances k taken true asks (f true))
    (hfalse : Advances k taken inside asks (f false)) : Advances k taken inside asks (t >>= f) := by
  refine ⟨fun c s h => ?_⟩
  have hfirst := ht.goesOn (c := c) h
  have hwithin := hshow.within hfirst h
  show Reaches s asks (f (t c s).1 c (t c s).2)
  cases hanswer : (t c s).1 with
  | true =>
    exact htrue.after hfirst (hwithin.inner (hshow.current c s ▸ hshow.ne_end c s hanswer))
  | false => exact hfalse.after hfirst hwithin

instance (t : Parse Bool) (f : Bool → Parse β) [hshow : Showing t] [ht : Steady k taken inside t]
    [htrue : Advances k taken true asks (f true)]
    [hfalse : Advances k taken inside asks (f false)] : Advances k taken inside asks (t >>= f) :=
  shown hshow ht htrue hfalse

theorem excluded {t : Parse Bool} {f : Bool → Parse β} (hexclude : Excluding t)
    (ht : Steady k taken inside t) (htrue : Advances k taken inside asks (f true))
    (hfalse : Advances k taken true asks (f false)) : Advances k taken inside asks (t >>= f) := by
  refine ⟨fun c s h => ?_⟩
  have hfirst := ht.goesOn (c := c) h
  have hwithin := hexclude.within hfirst h
  show Reaches s asks (f (t c s).1 c (t c s).2)
  cases hanswer : (t c s).1 with
  | true => exact htrue.after hfirst hwithin
  | false =>
    exact hfalse.after hfirst (hwithin.inner (hexclude.current c s ▸ hexclude.ne_end c s hanswer))

instance (t : Parse Bool) (f : Bool → Parse β) [hexclude : Excluding t]
    [ht : Steady k taken inside t] [htrue : Advances k taken inside asks (f true)]
    [hfalse : Advances k taken true asks (f false)] : Advances k taken inside asks (t >>= f) :=
  excluded hexclude ht htrue hfalse

instance (c : Prop) [Decidable c] (p q : Parse β) [hp : Advances k taken inside asks p]
    [hq : Advances k taken inside asks q] : Advances k taken inside asks (if c then p else q) := by
  split <;> assumption

instance (c : Bool) (p q : Parse β) [hc : Known c true] [hp : Advances k taken inside asks p] :
    Advances k taken inside asks (if c = true then p else q) := by rwa [if_pos hc.eq]

instance (c : Bool) (p q : Parse β) [hc : Known c false] [hq : Advances k taken inside asks q] :
    Advances k taken inside asks (if c = true then p else q) := by
  rwa [if_neg (Bool.eq_false_iff.mp hc.eq)]

instance (enter leave : ParseContext → ParseContext) (p : Parse β)
    [hp : Advances k taken inside asks p] :
    Advances k taken inside asks (Parse.within enter leave p) := by
  refine ⟨fun c s h => ?_⟩
  -- neither change of the context touches a token
  have henter : s.GoesOn { s with context := enter s.context } := .of_eq h.ordered rfl rfl
  obtain ⟨hgoes, hasks⟩ := hp.reaches c { s with context := enter s.context }
    ⟨henter.ordered, h.ahead_le, h.ne_end⟩
  exact ⟨(henter.trans hgoes).trans (.of_eq hgoes.ordered rfl rfl), hasks⟩

/-- What comes after a look at the current token. -/
theorem current {f : Token → Parse β}
    (hinner : ∀ t, t.kind ≠ .endOfFile → Advances k taken true asks (f t))
    (hend : inside = false → ∀ t, t.kind = .endOfFile → Advances k taken false asks (f t)) :
    Advances k taken inside asks (current >>= f) := by
  refine ⟨fun c s h => ?_⟩
  show Reaches s asks (f s.current c s)
  by_cases hkind : s.current.kind = .endOfFile
  · have hinside : inside = false := Bool.eq_false_iff.mpr fun hinside => h.ne_end hinside hkind
    exact (hend hinside _ hkind).reaches c s h.outside
  · exact (hinner _ hkind).reaches c s (h.inner hkind)

end Advances

section Runs

variable {p : Parse α} {f : α → Parse β} {t : Parse Bool} {g : Bool → Parse β} {asks : β → Bool}
  {c : Setting} {s s' : ParseState} {a : α}

theorem bind_run (h : p c s = (a, s')) : (p >>= f) c s = f a c s' := by
  show f (p c s).1 c (p c s).2 = f a c s'
  rw [h]

/-- What comes after a parser that takes a token in this state. -/
theorem Reaches.bind (hp : Reaches s (fun _ => true) (p c s)) (h : s.Within k taken inside)
    (hf : ∀ a, Steady k true false (f a)) : Reaches s asks ((p >>= f) c s) :=
  show Reaches s asks (f (p c s).1 c (p c s).2) from .past (hf _) h hp.1 (hp.2 rfl)

theorem Reaches.of_current {f : Token → Parse β} (h : Reaches s asks (f s.current c s)) :
    Reaches s asks ((current >>= f) c s) := h

theorem Reaches.of_position {f : ℕ → Parse β} (h : Reaches s asks (f s.pos c s)) :
    Reaches s asks ((position >>= f) c s) := h

/-- What comes after a look ahead from this state. -/
theorem Reaches.look (hlook : Looking p) (hp : Steady k taken inside p)
    (h : s.Within k taken inside) (hf : ∀ s', s'.current = s.current → s'.Within k taken inside →
      Reaches s' asks (f (p c s).1 c s')) : Reaches s asks ((p >>= f) c s) := by
  have hgoes := hp.goesOn (c := c) h
  obtain ⟨hlast, hasks⟩ := hf _ (hlook.current c s) (hlook.within hgoes h)
  exact ⟨hgoes.trans hlast, fun ha => Nat.lt_of_lt_of_le (hasks ha) hgoes.ahead_le⟩

/-- What comes after a test that takes a token in this state. -/
theorem Reaches.of_answer (ht : Taking k taken inside t) (h : s.Within k taken inside)
    (hanswer : (t c s).1 = true) (htrue : Steady k true false (g true)) :
    Reaches s asks ((t >>= g) c s) := by
  obtain ⟨hfirst, hlt⟩ := ht.reaches c s h
  show Reaches s asks (g (t c s).1 c (t c s).2)
  rw [hanswer]
  exact .past htrue h hfirst (hlt hanswer)

end Runs

namespace Steady

instance (p : Parse α) [hquiet : Quiet p] [hp : Steady k taken inside p] :
    Steady k taken inside (lookAhead p) :=
  of_goesOn fun c s h => by
    rw [Quiet.lookAhead_run hquiet]
    exact .of_eq h.ordered rfl (hp.goesOn h).stalled

theorem attempt {p : Parse (Option α)} (hquiet : Quiet p) (hp : Steady k taken inside p) :
    Steady k taken inside (attempt p) := by
  refine of_goesOn fun c s h => ?_
  have hgoes := hp.goesOn (c := c) h
  cases hfound : (p c s).1 with
  | none =>
    rw [Quiet.attempt_run_none hquiet hfound]
    exact .of_eq h.ordered rfl hgoes.stalled
  | some a => rwa [Quiet.attempt_run_some hfound]

instance (p : Parse (Option α)) [hquiet : Quiet p] [hp : Steady k taken inside p] :
    Steady k taken inside (Parse.attempt p) := attempt hquiet hp

end Steady

/-! ### Repetitions -/

namespace Stepping

variable {step : σ → Parse (σ × Bool)} {c : Setting} {s : ParseState}

/-- A step that asks for more does so with a token less, so a repetition notes nothing. -/
theorem stepOn_eq {x : σ} (h : Reaches s Prod.snd (step x c s)) :
    stepOn step x c s = step x c s := by
  unfold stepOn
  show (if (step x c s).1.2 && (step x c s).2.pos ≤ s.pos then
    (do stall; return (step x c s).1 : Parse (σ × Bool)) else return (step x c s).1) c
      (step x c s).2 = _
  rw [if_neg]
  · rfl
  · intro hboth
    obtain ⟨hmore, hle⟩ := Bool.and_eq_true_iff.mp hboth
    exact absurd (h.1.pos_lt (h.2 hmore)) (Nat.not_lt.mpr (of_decide_eq_true hle))

/-- A repetition goes on after its first step, and a step that asks for no more ends it before its
bound is used up. -/
theorem iterateFrom (hstep : ∀ x, Stepping k taken false (step x)) (cs : List Char) (x : σ)
    (h : s.Within k taken false) (hle : s.ahead ≤ cs.length) :
    (step x c s).2.GoesOn (iterateFrom step cs x c s).2 ∧
      ∃ x' s', s'.Within k taken false ∧ (step x' c s').1.2 = false ∧
        (Parse.iterateFrom step cs x c s).2 = (step x' c s').2 := by
  induction cs generalizing x s with
  | nil =>
    have hreach := (hstep x).reaches c s h
    -- no token is left to take, so the step cannot ask for more
    have hend : (step x c s).1.2 = false := Bool.eq_false_iff.mpr fun hmore =>
      absurd (Nat.lt_of_lt_of_le (hreach.2 hmore) hle) (Nat.not_lt_zero _)
    have hlast : (Parse.iterateFrom step [] x c s).2 = (step x c s).2 := by
      show ((if (stepOn step x c s).1.2 then (do stall; return (stepOn step x c s).1.1 : Parse σ)
        else return (stepOn step x c s).1.1) c (stepOn step x c s).2).2 = _
      rw [stepOn_eq hreach, hend]
      rfl
    refine ⟨?_, x, s, h, hend, hlast⟩
    rw [hlast]
    exact .refl hreach.1.ordered
  | cons d cs ih =>
    have hreach := (hstep x).reaches c s h
    have hrun : Parse.iterateFrom step (d :: cs) x c s = (if (step x c s).1.2 then
        Parse.iterateFrom step cs (step x c s).1.1 else return (step x c s).1.1) c
          (step x c s).2 := by
      show (if (stepOn step x c s).1.2 then Parse.iterateFrom step cs (stepOn step x c s).1.1
        else return (stepOn step x c s).1.1) c (stepOn step x c s).2 = _
      rw [stepOn_eq hreach]
    rw [hrun]
    cases hmore : (step x c s).1.2 with
    | false => exact ⟨.refl hreach.1.ordered, x, s, h, hmore, rfl⟩
    | true =>
      -- the step took a token, as the bound did
      have hwithin := hreach.1.within h
      obtain ⟨hgoes, hlast⟩ := ih (step x c s).1.1 hwithin
        (Nat.le_of_lt_succ (Nat.lt_of_lt_of_le (hreach.2 hmore) hle))
      exact ⟨((hstep _).goesOn hwithin).trans hgoes, hlast⟩

theorem iterate (hstep : ∀ x, Stepping k taken false (step x)) (x : σ)
    (h : s.Within k taken false) :
    (step x c s).2.GoesOn (iterate step x c s).2 ∧
      ∃ x' s', s'.Within k taken false ∧ (step x' c s').1.2 = false ∧
        (Parse.iterate step x c s).2 = (step x' c s').2 :=
  iterateFrom hstep (' ' :: s.rest) x h s.ahead_le

end Stepping

namespace Steady

theorem iterate {step : σ → Parse (σ × Bool)} (hstep : ∀ x, Stepping k taken false (step x))
    (x : σ) : Steady k taken inside (iterate step x) :=
  of_goesOn fun _ _ h =>
    ((hstep x).goesOn h.outside).trans (Stepping.iterate hstep x h.outside).1

instance (step : σ → Parse (σ × Bool)) (x : σ) [hstep : ∀ x, Stepping k taken false (step x)] :
    Steady k taken inside (Parse.iterate step x) := iterate hstep x

instance (step : σ → Parse (σ × Bool)) (x : σ) [hstep : ∀ x, Stepping k taken false (step x)]
    [hfirst : Grabbing k taken (step x)] : Grabbing k taken (Parse.iterate step x) :=
  ⟨fun c s h =>
    have hgoes := (Stepping.iterate (c := c) hstep x h.outside).1
    ⟨(hfirst.goesOn h).trans hgoes,
      fun _ => Nat.lt_of_le_of_lt hgoes.ahead_le ((hfirst.reaches c s h).2 rfl)⟩⟩

theorem repeatWhile {step : Parse Bool} (hstep : Taking k taken false step) :
    Steady k taken inside (repeatWhile step) := iterate (fun _ => ⟨hstep.reaches⟩) ()

instance (step : Parse Bool) [hstep : Taking k taken false step] :
    Steady k taken inside (Parse.repeatWhile step) := repeatWhile hstep

theorem collect {step : Parse (List α × Bool)} (hstep : Stepping k taken false step) :
    Steady k taken inside (collect step) :=
  have hnext (found : Array α) : Stepping k taken false (gather step found) := ⟨hstep.reaches⟩
  have hiterate : Steady k taken inside (Parse.iterate (gather step) #[]) := iterate hnext #[]
  of_goesOn fun _ _ h => hiterate.goesOn h

/-- A step that asks for no more ends a repetition. -/
theorem collect_last {step : Parse (List α × Bool)} (hstep : Stepping k taken false step)
    {c : Setting} {s : ParseState} (h : s.Within k taken false) :
    ∃ s', s'.Within k taken false ∧ (step c s').1.2 = false ∧
      (Parse.collect step c s).2 = (step c s').2 := by
  have hnext (found : Array α) : Stepping k taken false (gather step found) := ⟨hstep.reaches⟩
  obtain ⟨-, _, s', hs', hend, hlast⟩ := Stepping.iterate (c := c) hnext #[] h
  exact ⟨s', hs', hend, hlast⟩

instance (step : Parse (List α × Bool)) [hstep : Stepping k taken false step] :
    Steady k taken inside (Parse.collect step) := collect hstep

end Steady

/-! ### Steps that ask for more -/

/-- A step that always asks for more. -/
class Continuing (step : Parse (σ × Bool)) : Prop where
  more : ∀ (c : Setting) (s : ParseState), (step c s).1.2 = true

namespace Continuing

instance (x : σ) : Continuing (pure (x, true) : Parse (σ × Bool)) := ⟨fun _ _ => rfl⟩

instance (p : Parse α) (f : α → Parse (σ × Bool)) [hf : ∀ a, Continuing (f a)] :
    Continuing (p >>= f) := ⟨fun _ _ => (hf _).more _ _⟩

instance (c : Prop) [Decidable c] (p q : Parse (σ × Bool)) [hp : Continuing p]
    [hq : Continuing q] : Continuing (if c then p else q) := by split <;> assumption

instance (c : Bool) (p q : Parse (σ × Bool)) [hc : Known c false] [hq : Continuing q] :
    Continuing (if c = true then p else q) := by rwa [if_neg (Bool.eq_false_iff.mp hc.eq)]

end Continuing

end Parse

end ApiSurface

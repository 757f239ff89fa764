import ApiSurface.Proofs.LineEndings
import ApiSurface.Proofs.LiteralTexts
import ApiSurface.Proofs.LosslessScanning
/-!
Line ends inside string tokens. A string ends with its line unless the line is continued; the only
line ends that a string token has inside beside those of continued lines stand between the braces of
an escape, as the closing brace is looked for on all lines that follow.
-/
namespace ApiSurface

/-! ### Continued lines -/

/-- At a line end behind some text the line is continued: the line end follows a backslash, or it is
the line feed behind a carriage return that does. -/
def ContinuesLine (before : List Char) (c : Char) : Prop :=
  before.getLast? = some '\\' ∨ c = '\n' ∧ ['\\', '\r'] <:+ before

/-- Every line end of a text continues its line. -/
def LinesContinue (cs : List Char) : Prop :=
  ∀ before c after, cs = before ++ c :: after → isLineEnd c = true → ContinuesLine before c

/-- Every line end in a range of a text continues its line. -/
def Span.LinesContinue (text : List Char) (s : Span) : Prop :=
  ∀ before c after, text = before ++ c :: after → isLineEnd c = true →
    s.start ≤ byteLength before → byteLength before < s.stop → ContinuesLine before c

variable {xs ys before after : List Char} {x c : Char}

theorem continuesLine_cons (hx : x ≠ '\\') :
    ContinuesLine (x :: before) c ↔ ContinuesLine before c := by
  have hlast : (x :: before).getLast? = some '\\' ↔ before.getLast? = some '\\' := by
    cases before with
    | nil => simpa using hx
    | cons y before => rw [List.getLast?_cons_cons]
  have hpair : ['\\', '\r'] <:+ x :: before ↔ ['\\', '\r'] <:+ before := by
    rw [List.suffix_cons_iff, or_iff_right]
    exact fun h => hx (List.cons.inj h).1.symm
  rw [ContinuesLine, ContinuesLine, hlast, hpair]

/-- Whether a line is continued does not depend on what stands before its last character, unless
that is a line end itself. -/
theorem continuesLine_append (hx : isLineEnd x = false) :
    ContinuesLine (xs ++ x :: before) c ↔ ContinuesLine (x :: before) c := by
  have hlast : (xs ++ x :: before).getLast? = (x :: before).getLast? :=
    List.getLast?_append_of_ne_nil xs (List.cons_ne_nil x before)
  have hpair : ['\\', '\r'] <:+ xs ++ x :: before ↔ ['\\', '\r'] <:+ x :: before := by
    constructor
    · intro h
      refine List.suffix_of_suffix_length_le h (List.suffix_append xs _) ?_
      cases before with
      | cons y before => exact Nat.le_add_left 2 _
      | nil =>
        -- the carriage return would be the character itself
        obtain ⟨front, hfront⟩ := h
        have hreturn : '\r' = x := by
          have hends := congrArg List.getLast? hfront
          simpa using hends
        rw [← hreturn] at hx
        cases hx
    · exact fun h => h.trans (List.suffix_append xs _)
  rw [ContinuesLine, ContinuesLine, hlast, hpair]

theorem linesContinue_nil : LinesContinue [] :=
  fun before c after h => absurd h (by simp)

theorem linesContinue_cons (hslash : x ≠ '\\') (hx : isLineEnd x = false) :
    LinesContinue (x :: ys) ↔ LinesContinue ys := by
  constructor
  · intro h before c after hsplit hc
    rw [← continuesLine_cons hslash]
    exact h (x :: before) c after (congrArg (x :: ·) hsplit) hc
  · intro h before c after hsplit hc
    cases before with
    | nil =>
      obtain rfl : x = c := (List.cons.inj hsplit).1
      exact absurd hc (by rw [hx]; exact Bool.false_ne_true)
    | cons y before =>
      obtain ⟨rfl, hrest⟩ := List.cons.inj hsplit
      exact (continuesLine_cons hslash).mpr (h before c after hrest hc)

/-- Of two texts the second of which does not begin with a line end, each can be looked at by
itself. -/
theorem linesContinue_append (hys : ∀ y ∈ ys.head?, isLineEnd y = false) :
    LinesContinue (xs ++ ys) ↔ LinesContinue xs ∧ LinesContinue ys := by
  have hfront {before after : List Char} {c : Char} (hsplit : ys = before ++ c :: after)
      (hc : isLineEnd c = true) : ContinuesLine (xs ++ before) c ↔ ContinuesLine before c := by
    cases before with
    | nil => exact absurd (hys c (by rw [hsplit]; rfl)) (ne_false_of_eq_true hc)
    | cons y before => exact continuesLine_append (hys y (by rw [hsplit]; rfl))
  constructor
  · intro h
    constructor
    · intro before c after hsplit hc
      exact h before c (after ++ ys) (by rw [hsplit]; simp) hc
    · intro before c after hsplit hc
      exact (hfront hsplit hc).mp (h (xs ++ before) c after (by rw [hsplit]; simp) hc)
  · rintro ⟨hxs, hys'⟩ before c after hsplit hc
    rcases List.append_eq_append_iff.mp hsplit with ⟨more, rfl, hmore⟩ | ⟨more, hmore, hrest⟩
    · exact (hfront hmore hc).mpr (hys' more c after hmore hc)
    · cases more with
      | nil =>
        rw [List.append_nil] at hmore
        subst hmore
        exact absurd (hys c (by rw [← List.nil_append ys, ← hrest]; rfl)) (ne_false_of_eq_true hc)
      | cons d more =>
        obtain ⟨rfl, -⟩ := List.cons.inj hrest
        exact hxs before c more hmore hc

/-- A text without line ends. -/
theorem linesContinue_of_forall (h : ∀ c ∈ xs, isLineEnd c = false) : LinesContinue xs := by
  intro before c after hsplit hc
  have hnone := h c (by rw [hsplit]; simp)
  exact absurd hc (by rw [hnone]; exact Bool.false_ne_true)

/-! ### Strings by their parts -/

/-- What is passed at once inside a string. -/
inductive StringPart where
  | plain (c : Char)
  /-- A backslash and what belongs to it. -/
  | escape (taken : List Char)
  /-- A backslash, the letter of code points, and braces. -/
  | braced (inner : List Char)
  deriving DecidableEq

namespace StringPart

/-- How a part is written. -/
def text : StringPart → List Char
  | plain c => [c]
  | escape taken => '\\' :: taken
  | braced inner => '\\' :: 'u' :: '\x7b' :: (inner ++ ['\x7d'])

/-- What the parts of a string between certain quotes are, well written or not. Behind a backslash
stands one character, a line end of two, or a code without line ends. Only braces can hold line
ends: they go up to the first closing one, on whatever line that stands. -/
def IsPassed (quote : Char) : StringPart → Prop
  | plain c => c ≠ quote ∧ c ≠ '\\' ∧ isLineEnd c = false
  | escape taken =>
    (∃ c, taken = [c]) ∨ taken = ['\r', '\n'] ∨ taken ≠ [] ∧ ∀ c ∈ taken, isLineEnd c = false
  | braced inner => '\x7d' ∉ inner

/-- Only in braces there are line ends that do not continue their lines. -/
def LinesContinue : StringPart → Prop
  | braced inner => ApiSurface.LinesContinue inner
  | _ => True

theorem head?_text {quote : Char} {p : StringPart} (hp : p.IsPassed quote) :
    ∀ c ∈ p.text.head?, isLineEnd c = false := by
  cases p with
  | plain d =>
    rintro c hc
    obtain rfl := Option.some.inj hc
    exact hp.2.2
  | escape taken | braced inner =>
    rintro c hc
    obtain rfl := Option.some.inj hc
    rfl

theorem linesContinue_text {quote : Char} {p : StringPart} (hp : p.IsPassed quote) :
    ApiSurface.LinesContinue p.text ↔ p.LinesContinue := by
  cases p with
  | plain c =>
    refine iff_of_true (linesContinue_of_forall fun d hd => ?_) trivial
    rw [List.mem_singleton.mp hd]
    exact hp.2.2
  | escape taken =>
    refine iff_of_true ?_ trivial
    rcases hp with ⟨c, rfl⟩ | rfl | ⟨-, hline⟩
    -- the only line end there can be stands behind the backslash, or behind the one that does
    · intro before d after hsplit hd
      rcases before with _ | ⟨x, _ | ⟨y, before⟩⟩
      · obtain rfl := (List.cons.inj hsplit).1
        cases hd
      · obtain rfl := (List.cons.inj hsplit).1
        exact Or.inl rfl
      · simp [text] at hsplit
    · intro before d after hsplit hd
      rcases before with _ | ⟨x, _ | ⟨y, _ | ⟨z, before⟩⟩⟩
      · obtain rfl := (List.cons.inj hsplit).1
        cases hd
      · obtain rfl := (List.cons.inj hsplit).1
        exact Or.inl rfl
      · simp only [text, List.cons_append, List.nil_append, List.cons.injEq] at hsplit
        obtain ⟨rfl, rfl, rfl, -⟩ := hsplit
        exact Or.inr ⟨rfl, List.suffix_rfl⟩
      · simp [text] at hsplit
    · exact linesContinue_of_forall (List.forall_mem_cons.mpr ⟨rfl, hline⟩)
  | braced inner =>
    have hsingle (c : Char) (hc : isLineEnd c = false) : ApiSurface.LinesContinue [c] :=
      linesContinue_of_forall (by simpa using hc)
    have hslash : ApiSurface.LinesContinue (text (braced inner)) ↔
        ApiSurface.LinesContinue ['\\'] ∧
          ApiSurface.LinesContinue ('u' :: '\x7b' :: (inner ++ ['\x7d'])) :=
      @linesContinue_append ['\\'] _ (by simp [isLineEnd])
    have hopen : ApiSurface.LinesContinue ('u' :: '\x7b' :: (inner ++ ['\x7d'])) ↔
        ApiSurface.LinesContinue (inner ++ ['\x7d']) :=
      (linesContinue_cons (by decide) rfl).trans (linesContinue_cons (by decide) rfl)
    have hclose : ApiSurface.LinesContinue (inner ++ ['\x7d']) ↔
        ApiSurface.LinesContinue inner ∧ ApiSurface.LinesContinue ['\x7d'] :=
      linesContinue_append (by simp [isLineEnd])
    rw [hslash, hopen, hclose, and_iff_right (hsingle _ rfl), and_iff_left (hsingle _ rfl),
      LinesContinue]

end StringPart

/-- Parts as they are written one after the other. -/
def partsText (ps : List StringPart) : List Char := ps.flatMap StringPart.text

theorem linesContinue_partsText {quote : Char} {ps : List StringPart}
    (hps : ∀ p ∈ ps, p.IsPassed quote) (hys : ∀ y ∈ ys.head?, isLineEnd y = false) :
    LinesContinue (partsText ps ++ ys) ↔ (∀ p ∈ ps, p.LinesContinue) ∧ LinesContinue ys := by
  induction ps with
  | nil => simp [partsText]
  | cons p ps ih =>
    obtain ⟨hp, hps⟩ := List.forall_mem_cons.mp hps
    have hrest : ∀ y ∈ (partsText ps ++ ys).head?, isLineEnd y = false := by
      cases ps with
      | nil => exact hys
      | cons q qs =>
        have hne : q.text ≠ [] := by cases q <;> exact List.cons_ne_nil _ _
        obtain ⟨c, cs, hcs⟩ := List.exists_cons_of_ne_nil hne
        have hhead := StringPart.head?_text (hps q List.mem_cons_self)
        simp only [hcs, List.head?_cons, Option.mem_some_iff, forall_eq'] at hhead
        simpa [partsText, hcs] using hhead
    have htext : partsText (p :: ps) ++ ys = p.text ++ (partsText ps ++ ys) := by
      simp [partsText]
    rw [htext, linesContinue_append hrest, StringPart.linesContinue_text hp, ih hps,
      List.forall_mem_cons, and_assoc]

/-! ### How a string is passed -/

/-- No line end is among the digits of a code. -/
theorem isLineEnd_of_hexCode? {n k : ℕ} {cs : List Char} (h : hexCode? n cs = some k) :
    ∀ c ∈ cs.take n, isLineEnd c = false := by
  intro c hc
  by_contra hend
  have hcases : c = '\n' ∨ c = '\r' := by
    rw [Bool.not_eq_false] at hend
    simpa [isLineEnd] using hend
  have hplus : c ≠ '+' := by rcases hcases with rfl | rfl <;> decide
  have hdigit : digitValue? 16 c = none := by rcases hcases with rfl | rfl <;> rfl
  unfold hexCode? at h
  rw [unsignedValue?_eq_none hc hplus hdigit, ite_self] at h
  cases h

theorem length_take_of_hexCode? {n k : ℕ} {cs : List Char} (h : hexCode? n cs = some k) :
    (cs.take n).length = n := by
  unfold hexCode? at h
  split at h
  · next hle => exact List.length_take_of_le hle
  · cases h

/-- Where a search for a character ends before a text does, it has found the character. -/
theorem takeWhile_ne_closed {d : Char} (h : (xs.takeWhile (· != d)).length < xs.length) :
    ∃ rest, xs = xs.takeWhile (· != d) ++ d :: rest := by
  induction xs with
  | nil => exact absurd h (Nat.lt_irrefl 0)
  | cons x xs ih =>
    by_cases hx : x = d
    · subst hx
      exact ⟨xs, by simp⟩
    · have htake : (x :: xs).takeWhile (· != d) = x :: xs.takeWhile (· != d) :=
        List.takeWhile_cons_of_pos (bne_iff_ne.mpr hx)
      rw [htake] at h ⊢
      obtain ⟨rest, hrest⟩ := ih (Nat.lt_of_succ_lt_succ h)
      exact ⟨rest, congrArg (x :: ·) hrest⟩

namespace Escape

/-- Behind a backslash, a text goes on with a part that is read as an escape, and is passed. -/
def IsPart (quote : Char) (cs : List Char) : Prop :=
  ∃ (p : StringPart) (taken rest : List Char), p.IsPassed quote ∧ p.text = '\\' :: taken ∧
    taken ≠ [] ∧ cs = taken ++ rest ∧ (read cs).length = taken.length

variable {quote c : Char} {cs : List Char}

theorem isPart_single (h : (read (c :: cs)).length = 1) : IsPart quote (c :: cs) :=
  ⟨.escape [c], [c], cs, Or.inl ⟨c, rfl⟩, rfl, List.cons_ne_nil _ _, rfl, h⟩

/-- A code of so many digits behind its letter. -/
theorem isPart_code {n k : ℕ} (hletter : isLineEnd c = false) (h : hexCode? n cs = some k)
    (hlength : (read (c :: cs)).length = n + 1) : IsPart quote (c :: cs) := by
  refine ⟨.escape (c :: cs.take n), c :: cs.take n, cs.drop n, ?_, rfl, List.cons_ne_nil _ _, ?_,
    ?_⟩
  · refine Or.inr (Or.inr ⟨List.cons_ne_nil _ _, ?_⟩)
    exact List.forall_mem_cons.mpr ⟨hletter, isLineEnd_of_hexCode? h⟩
  · rw [List.cons_append, List.take_append_drop]
  · rw [hlength, List.length_cons, length_take_of_hexCode? h]

/-- A code point in braces. -/
theorem isPart_braced {body : List Char} : IsPart quote ('u' :: '\x7b' :: body) := by
  have hread := read_braced body
  set inner := body.takeWhile (· != '\x7d') with hinner
  by_cases hclosed : inner.length < body.length
  · rw [if_pos hclosed] at hread
    obtain ⟨rest, hbody⟩ := takeWhile_ne_closed hclosed
    refine ⟨.braced inner, 'u' :: '\x7b' :: (inner ++ ['\x7d']), rest, ?_, rfl,
      List.cons_ne_nil _ _, ?_, ?_⟩
    · intro hmem
      exact absurd (List.mem_takeWhile_imp hmem) (by decide)
    · rw [List.cons_append, List.cons_append, List.append_assoc, List.singleton_append, ← hbody]
    · rw [hread]
      simp
  · rw [if_neg hclosed] at hread
    exact isPart_single (by rw [hread])

theorem read_part (quote : Char) (hcs : cs ≠ []) : IsPart quote cs := by
  obtain ⟨c, cs, rfl⟩ := List.exists_cons_of_ne_nil hcs
  by_cases hreturn : c = '\r'
  · subst hreturn
    by_cases hfeed : ∃ rest, cs = '\n' :: rest
    · obtain ⟨rest, rfl⟩ := hfeed
      exact ⟨.escape ['\r', '\n'], ['\r', '\n'], rest, Or.inr (Or.inl rfl), rfl,
        List.cons_ne_nil _ _, rfl, rfl⟩
    · apply isPart_single
      unfold read
      split <;> simp_all
  by_cases hx : c = 'x'
  · subst hx
    have hread := read_hex cs
    cases hdigits : (hexCode? 2 cs).bind scalar? with
    | none => exact isPart_single (by rw [hread, hdigits]; rfl)
    | some d =>
      obtain ⟨n, hn, -⟩ := Option.bind_eq_some_iff.mp hdigits
      exact isPart_code rfl hn (by rw [hread, hdigits]; rfl)
  by_cases hu : c = 'u'
  · subst hu
    by_cases hbrace : cs.head? = some '\x7b'
    · obtain ⟨body, rfl⟩ := List.head?_eq_some_iff.mp hbrace
      exact isPart_braced
    · have hread := read_unicode hbrace
      cases hdigits : hexCode? 4 cs with
      | none => exact isPart_single (by rw [hread, hdigits]; rfl)
      | some n => exact isPart_code rfl hdigits (by rw [hread, hdigits]; rfl)
  · obtain ⟨value, hread⟩ := read_single hreturn hx hu
    exact isPart_single (by rw [hread])

end Escape

/-- How a string ends: what it ends with, what follows, and how many bytes it counts behind the end
of the text. -/
inductive StringEnd (quote : Char) : List Char → List Char → ℕ → Prop
  /-- With its closing quote. -/
  | closed (rest : List Char) : StringEnd quote [quote] rest 0
  /-- At the end of its line. -/
  | line {c : Char} (hc : isLineEnd c = true) (rest : List Char) : StringEnd quote [] (c :: rest) 0
  /-- At the end of the text. -/
  | text : StringEnd quote [] [] 0
  /-- With a backslash at the end of the text, which counts the character that is not there. -/
  | backslash : StringEnd quote ['\\'] [] 1

/-- A text is passed by a string part by part up to one of its ends. -/
def IsParted (quote : Char) (cs : List Char) : Prop :=
  ∃ (ps : List StringPart) (ending rest : List Char) (beyond : ℕ),
    cs = partsText ps ++ (ending ++ rest) ∧ (∀ p ∈ ps, p.IsPassed quote) ∧
    StringEnd quote ending rest beyond ∧
    (stringBody quote 0 cs).width = byteLength (partsText ps ++ ending) + beyond

theorem StringEnd.isParted {quote : Char} {ending rest : List Char} {beyond : ℕ}
    (h : StringEnd quote ending rest beyond)
    (hwidth : (stringBody quote 0 (ending ++ rest)).width = byteLength ending + beyond) :
    IsParted quote (ending ++ rest) :=
  ⟨[], ending, rest, beyond, rfl, List.forall_mem_nil _, h, hwidth⟩

/-- One more part can stand in front. -/
theorem IsParted.cons {quote : Char} {p : StringPart} {rest : List Char}
    (h : IsParted quote rest) (hp : p.IsPassed quote)
    (hwidth : (stringBody quote 0 (p.text ++ rest)).width =
      (stringBody quote 0 rest).width + byteLength p.text) :
    IsParted quote (p.text ++ rest) := by
  obtain ⟨ps, ending, rest', beyond, rfl, hps, hend, hbytes⟩ := h
  refine ⟨p :: ps, ending, rest', beyond, ?_, List.forall_mem_cons.mpr ⟨hp, hps⟩, hend, ?_⟩
  · simp [partsText]
  · rw [hwidth, hbytes]
    simp only [partsText, List.flatMap_cons, byteLength_append]
    omega

theorem stringBody_parts {quote : Char} (hquote : quote ≠ '\\') (cs : List Char) :
    IsParted quote cs := by
  induction hn : cs.length using Nat.strong_induction_on generalizing cs with
  | _ n ih =>
  subst hn
  cases cs with
  | nil => exact StringEnd.text.isParted rfl
  | cons c cs =>
    by_cases hclose : c = quote
    · subst hclose
      apply (StringEnd.closed cs).isParted
      show (stringBody c 0 (c :: cs)).width = _
      rw [stringBody, if_pos rfl]
      rfl
    by_cases hline : c = '\n' ∨ c = '\r'
    · have hend : isLineEnd c = true := by rcases hline with rfl | rfl <;> rfl
      apply (StringEnd.line hend cs).isParted
      show (stringBody quote 0 (c :: cs)).width = _
      rw [stringBody, if_neg hclose, if_pos hline]
      rfl
    by_cases hslash : c = '\\'
    · subst hslash
      by_cases hcs : cs = []
      · subst hcs
        apply StringEnd.backslash.isParted
        show (stringBody quote 0 ['\\']).width = _
        rw [stringBody, if_neg hclose, if_neg hline, if_pos rfl]
        rfl
      · obtain ⟨p, taken, rest, hp, htext, hne, rfl, hlength⟩ := Escape.read_part quote hcs
        have hread : Escape.read (taken ++ rest) =
            ⟨(Escape.read (taken ++ rest)).value, taken.length⟩ := by
          rw [← hlength]
        have hlt : rest.length < ('\\' :: (taken ++ rest)).length := by
          simp only [List.length_cons, List.length_append]
          omega
        rw [← List.cons_append, ← htext]
        apply (ih rest.length hlt rest rfl).cons hp
        rw [htext, List.cons_append, stringBody_escape hquote hne hread]
    · have hplain : isLineEnd c = false := by simpa [isLineEnd] using hline
      have hrest := ih cs.length (Nat.lt_succ_self _) cs rfl
      refine hrest.cons (p := .plain c) ⟨hclose, hslash, hplain⟩ ?_
      show (stringBody quote 0 (c :: cs)).width = _
      rw [stringBody, if_neg hclose, if_neg hline, if_neg hslash]
      rfl

/-! ### String tokens -/

/-- The text of a string token: what stands before it, its quote, its parts and its end. -/
structure StringSplit (text : List Char) (t : Token) where
  lead : List Char
  quote : Char
  parts : List StringPart
  ending : List Char
  rest : List Char
  /-- The bytes that the token counts behind the end of the text. -/
  beyond : ℕ
  text_eq : text = lead ++ quote :: (partsText parts ++ (ending ++ rest))
  span_eq : t.span =
    ⟨byteLength lead,
      byteLength lead + byteLength (quote :: (partsText parts ++ ending)) + beyond⟩
  quoted : quote = '\'' ∨ quote = '"'
  passed : ∀ p ∈ parts, p.IsPassed quote
  ends : StringEnd quote ending rest beyond

/-- What stands in the range of a part of a text stands in that part. The range may count bytes
behind the end of the text. -/
theorem exists_inner_of_range {lead part rest before after : List Char} {c : Char} {beyond : ℕ}
    (hbeyond : beyond = 0 ∨ rest = []) (hsplit : lead ++ (part ++ rest) = before ++ c :: after)
    (hstart : byteLength lead ≤ byteLength before)
    (hstop : byteLength before < byteLength lead + byteLength part + beyond) :
    ∃ inner after', before = lead ++ inner ∧ part = inner ++ c :: after' := by
  -- it does not stand before the part
  obtain ⟨inner, rfl, hinner⟩ : ∃ inner, before = lead ++ inner ∧
      part ++ rest = inner ++ c :: after := by
    rcases List.append_eq_append_iff.mp hsplit with hfront | ⟨more, rfl, hmore⟩
    · exact hfront
    · cases more with
      | nil => exact ⟨[], by simp, hmore.symm⟩
      | cons d more =>
        have hpos := d.utf8Size_pos
        simp only [byteLength_append, byteLength_cons] at hstart
        omega
  -- nor behind it
  have hbehind {more : List Char} (hmore : rest = more ++ c :: after) (heq : inner = part ++ more) :
      False := by
    rcases hbeyond with rfl | rfl
    · rw [heq] at hstop
      simp only [byteLength_append] at hstop
      omega
    · simp at hmore
  rcases List.append_eq_append_iff.mp hinner with ⟨more, heq, hmore⟩ | ⟨more, heq, hmore⟩
  · exact (hbehind hmore heq).elim
  · cases more with
    | nil => exact (@hbehind [] hmore.symm (by simp [heq])).elim
    | cons d more =>
      obtain ⟨rfl, -⟩ := List.cons.inj hmore
      exact ⟨inner, more, rfl, heq⟩

/-- In a part of a text that does not begin with a line end, the lines go on in the text just if
they do in the part. -/
theorem linesContinue_range {lead part rest : List Char} {beyond : ℕ}
    (hx : isLineEnd x = false) (hbeyond : beyond = 0 ∨ rest = []) :
    Span.LinesContinue (lead ++ (x :: part ++ rest))
        ⟨byteLength lead, byteLength lead + byteLength (x :: part) + beyond⟩ ↔
      LinesContinue (x :: part) := by
  have hne {c : Char} (hc : isLineEnd c = true) : x ≠ c := by
    rintro rfl
    exact absurd hx (ne_false_of_eq_true hc)
  constructor
  · intro h before c after hsplit hc
    cases before with
    | nil => exact absurd (List.cons.inj hsplit).1 (hne hc)
    | cons y before =>
      obtain rfl : x = y := (List.cons.inj hsplit).1
      have hpart : part = before ++ c :: after := (List.cons.inj hsplit).2
      apply (continuesLine_append hx).mp
      refine h (lead ++ x :: before) c (after ++ rest) ?_ hc ?_ ?_
      · rw [hpart]
        simp
      · simp
      · have hpos := c.utf8Size_pos
        rw [hpart]
        simp only [byteLength_append, byteLength_cons]
        omega
  · intro h before c after hsplit hc hstart hstop
    obtain ⟨inner, after', rfl, hpart⟩ := exists_inner_of_range hbeyond hsplit hstart hstop
    have hcontinues := h inner c after' hpart hc
    cases inner with
    | nil => exact absurd (List.cons.inj hpart).1 (hne hc)
    | cons y inner =>
      obtain ⟨rfl, -⟩ := List.cons.inj hpart
      exact (continuesLine_append hx).mpr hcontinues

/-- Only quotes begin a string. -/
theorem Lexeme.quote_of_string {pos : ℕ} {cs : List Char} (h : (read pos c cs).kind = .string) :
    (c = '\'' ∨ c = '"') ∧ read pos c cs = string pos c cs := by
  have hoperator {p : Prop} (cs : List Char) (h : (operator cs).kind = .string) : p := by
    rcases operator_kind cs with hkind | hkind <;> rw [hkind] at h <;> cases h
  have hnumber {p : Prop} (cs : List Char) (h : (number cs).kind = .string) : p := by
    rcases number_kind cs with hkind | hkind <;> rw [hkind] at h <;> cases h
  revert h
  unfold read
  dsimp only
  split
  all_goals try split_ifs
  all_goals first
    | with_reducible exact hoperator _
    | with_reducible exact hnumber _
    | exact fun _ => ⟨Or.inl rfl, rfl⟩
    | exact fun _ => ⟨Or.inr rfl, rfl⟩
    | (intro hother; cases hother)

variable {source text : List Char} {t : Token} {l : Lexer}

/-- A lexer that reads a string reads its parts. -/
theorem Lexer.scan_string (h : l.Reads source) (hkind : l.scan.token.kind = .string) :
    Nonempty (StringSplit source l.scan.token) := by
  cases hrest : (trivia l.pos 0 l.rest).rest with
  | nil =>
    rw [(Lexer.scan_of_end hrest).1] at hkind
    cases hkind
  | cons c cs =>
    -- a lexer behind the end of the source has nothing to read
    have hcut : dropBytes source l.pos = some l.rest := by
      refine h.cut.resolve_right fun hend => ?_
      rw [hend.1] at hrest
      cases hrest
    obtain ⟨htrivia, -⟩ := trivia_cut l.pos 0 l.rest hcut
    rw [hrest] at htrivia
    obtain ⟨lead, hsource, hlead⟩ := dropBytes_eq_some_iff.mp htrivia
    obtain ⟨-, hread, hspan⟩ := Lexer.scan_of_cons hrest
    obtain ⟨hquoted, hstring⟩ := Lexeme.quote_of_string (hread.symm.trans hkind)
    have hslash : c ≠ '\\' := by rcases hquoted with rfl | rfl <;> decide
    have hsize : c.utf8Size = 1 := by rcases hquoted with rfl | rfl <;> rfl
    obtain ⟨parts, ending, rest, beyond, hcs, hpassed, hends, hwidth⟩ := stringBody_parts hslash cs
    refine ⟨lead, c, parts, ending, rest, beyond, by rw [hsource, hcs], ?_, hquoted, hpassed, hends⟩
    have hbytes : (Lexeme.string (trivia l.pos 0 l.rest).pos c cs).width =
        byteLength (c :: (partsText parts ++ ending)) + beyond := by
      show (stringBody c 0 cs).width + 1 = _
      rw [hwidth, byteLength_cons, hsize]
      omega
    rw [hspan, hstring, hbytes, hlead, Nat.add_assoc]

theorem Lexer.scanAll_string (fuel : ℕ) (h : l.Reads source) :
    ∀ t ∈ (l.scanAll fuel).1, t.kind = .string → Nonempty (StringSplit source t) := by
  induction fuel generalizing l with
  | zero => exact nofun
  | succ fuel ih =>
    unfold scanAll
    dsimp only
    split
    · intro t ht hkind
      obtain rfl := List.mem_singleton.mp ht
      exact scan_string h hkind
    · exact List.forall_mem_cons.mpr ⟨scan_string h, ih (scan_reads h).1⟩

/-- The lines in a string are all continued just if those between its braces are. -/
theorem StringSplit.linesContinue_iff (s : StringSplit text t) :
    t.span.LinesContinue text ↔ ∀ p ∈ s.parts, p.LinesContinue := by
  obtain ⟨lead, quote, parts, ending, rest, beyond, rfl, hspan, hquoted, hpassed, hends⟩ := s
  have hquote : isLineEnd quote = false := by rcases hquoted with rfl | rfl <;> rfl
  have hslash : quote ≠ '\\' := by rcases hquoted with rfl | rfl <;> decide
  have hending : ∀ c ∈ ending, isLineEnd c = false := by
    cases hends with
    | closed => simpa using hquote
    | backslash => simp [isLineEnd]
    | _ => exact List.forall_mem_nil _
  have hbeyond : beyond = 0 ∨ rest = [] := by
    cases hends with
    | backslash => exact Or.inr rfl
    | _ => exact Or.inl rfl
  have hhead : ∀ c ∈ ending.head?, isLineEnd c = false :=
    fun c hc => hending c (List.mem_of_mem_head? hc)
  have hrange := @linesContinue_range quote lead (partsText parts ++ ending) rest beyond hquote
    hbeyond
  have htext : lead ++ (quote :: (partsText parts ++ ending) ++ rest) =
      lead ++ quote :: (partsText parts ++ (ending ++ rest)) := by simp
  rw [htext] at hrange
  rw [hspan, hrange, linesContinue_cons hslash hquote, linesContinue_partsText hpassed hhead,
    and_iff_left (linesContinue_of_forall hending)]

/-- A string token is a quote, parts that are passed one after the other, and an end that is the
closing quote or the end of its line, unless the text ends before. The only line ends in it that do
not continue their lines are those between the braces of its escapes. -/
theorem stringToken_lines (ht : t ∈ (lex text).tokens) (hkind : t.kind = .string) :
    ∃ s : StringSplit text t, t.span.LinesContinue text ↔ ∀ p ∈ s.parts, p.LinesContinue := by
  obtain ⟨s⟩ := Lexer.scanAll_string (text.length + 1) (Lexer.ofText_reads text) t ht hkind
  exact ⟨s, s.linesContinue_iff⟩

/-- A string whose line is continued. -/
theorem continuedString_lines :
    ∃ t ∈ (lex "'a\\\nb'".toList).tokens, t.kind = .string ∧ ∃ s : StringSplit "'a\\\nb'".toList t,
      t.span.LinesContinue "'a\\\nb'".toList ↔ ∀ p ∈ s.parts, p.LinesContinue := by
  have ht : ⟨.string, ⟨0, 6⟩, "ab", false, false⟩ ∈ (lex "'a\\\nb'".toList).tokens := by
    decide +kernel
  exact ⟨_, ht, rfl, stringToken_lines ht rfl⟩

/-- A string with an open brace takes the next line to itself, up to the closing brace there. -/
theorem bracedString_takesLines :
    ¬ ∀ t ∈ (lex "let a = '\\u\x7b';\nlet b = \x7b\x7d;".toList).tokens, t.kind = .string →
      t.span.LinesContinue "let a = '\\u\x7b';\nlet b = \x7b\x7d;".toList := by
  intro h
  have ht : ⟨.string, ⟨8, 26⟩, ";", false, false⟩ ∈
      (lex "let a = '\\u\x7b';\nlet b = \x7b\x7d;".toList).tokens := by
    decide +kernel
  have hline := h _ ht rfl "let a = '\\u\x7b';".toList '\n' "let b = \x7b\x7d;".toList rfl rfl
    (by decide) (by decide)
  revert hline
  unfold ContinuesLine
  decide

end ApiSurface

import Mathlib.Data.List.Infix
import ApiSurface.Proofs.ScannedText
/-!
Scanning loses nothing: blanks, comments and tokens, laid end to end, are the text.
-/
namespace ApiSurface

/-! ### What stands between tokens -/

/-- Blanks of the lexer. -/
def isSpacing (c : Char) : Bool :=
  isLineEnd c || c == ' ' || c == '\t' || c == '\x0b' || c == '\x0c'

/-- A blank or a comment starts here. -/
def StartsGap (cs : List Char) : Prop :=
  cs.head?.any isSpacing = true ∨ ['/', '/'] <+: cs ∨ ['/', '*'] <+: cs

/-- A comment at an offset, as it is written, with the text behind it. -/
inductive Comment.IsAt (pos : ℕ) : List Char → List Char → Comment → Prop
  /-- A line comment ends with its line. -/
  | line {body rest : List Char} (hbody : ∀ c ∈ body, isLineEnd c = false)
      (hrest : rest.head?.all isLineEnd = true) :
      IsAt pos ('/' :: '/' :: body) rest
        ⟨⟨pos, pos + byteLength ('/' :: '/' :: body)⟩, false, !rest.isEmpty⟩
  /-- A block comment ends with the first closing mark in it. -/
  | block {body rest : List Char} (hbody : ¬ ['*', '/'] <:+: body ++ ['*']) :
      IsAt pos ('/' :: '*' :: (body ++ ['*', '/'])) rest
        ⟨⟨pos, pos + byteLength ('/' :: '*' :: (body ++ ['*', '/']))⟩, true,
          rest.head?.any isLineEnd⟩
  /-- Without a closing mark it ends with the text. -/
  | unclosed {body : List Char} (hbody : ¬ ['*', '/'] <:+: body) :
      IsAt pos ('/' :: '*' :: body) []
        ⟨⟨pos, pos + byteLength ('/' :: '*' :: body)⟩, true, false⟩

/-- From an offset on, a text is blanks, comments and tokens, laid end to end, and then its end.
A token begins where neither a blank nor a comment does. -/
inductive Tiled : ℕ → List Char → List Token → List Comment → Prop
  | blank {pos : ℕ} {c : Char} {rest : List Char} {ts : List Token} {ks : List Comment}
      (hblank : isSpacing c = true) (hrest : Tiled (pos + c.utf8Size) rest ts ks) :
      Tiled pos (c :: rest) ts ks
  | comment {pos : ℕ} {text rest : List Char} {k : Comment} {ts : List Token} {ks : List Comment}
      (hk : k.IsAt pos text rest) (hrest : Tiled (pos + byteLength text) rest ts ks) :
      Tiled pos (text ++ rest) ts (k :: ks)
  | token {pos : ℕ} {text rest : List Char} {t : Token} {ts : List Token} {ks : List Comment}
      (htext : text ≠ []) (hstart : ¬ StartsGap (text ++ rest)) (hkind : t.kind ≠ .endOfFile)
      (hspan : t.span = ⟨pos, pos + byteLength text⟩)
      (hrest : Tiled (pos + byteLength text) rest ts ks) : Tiled pos (text ++ rest) (t :: ts) ks
  /-- A string that ends in a backslash at the end of the text reaches a byte further, and so does
  the end behind it. -/
  | unfinished {pos : ℕ} {text : List Char} {t e : Token}
      (htext : text.getLast? = some '\\') (hstart : ¬ StartsGap text) (ht : t.kind = .string)
      (hspan : t.span = ⟨pos, pos + byteLength text + 1⟩) (he : e.kind = .endOfFile)
      (hend : e.span = ⟨pos + byteLength text + 1, pos + byteLength text + 1⟩) :
      Tiled pos text [t, e] []
  | done {pos : ℕ} {e : Token} (he : e.kind = .endOfFile) (hend : e.span = ⟨pos, pos⟩) :
      Tiled pos [] [e] []

/-! ### Ranges in a tiled text -/

theorem Comment.IsAt.text {pos : ℕ} {text rest : List Char} {k : Comment}
    (h : k.IsAt pos text rest) : k.span = ⟨pos, pos + byteLength text⟩ := by
  cases h <;> rfl

namespace Tiled

variable {pos : ℕ} {cs : List Char} {ts : List Token} {ks : List Comment}

/-- The ranges of tokens and comments, from an offset on, come one after the other. -/
structure Apart (pos : ℕ) (ts : List Token) (ks : List Comment) : Prop where
  token : ∀ t ∈ ts, pos ≤ t.span.start ∧ t.span.start ≤ t.span.stop
  comment : ∀ k ∈ ks, pos ≤ k.span.start ∧ k.span.start ≤ k.span.stop
  tokens : ts.Pairwise fun t u => t.span.stop ≤ u.span.start
  comments : ks.Pairwise fun j k => j.span.stop ≤ k.span.start
  between : ∀ t ∈ ts, ∀ k ∈ ks, t.span.stop ≤ k.span.start ∨ k.span.stop ≤ t.span.start

theorem Apart.weaken {start : ℕ} (h : Apart pos ts ks) (hle : start ≤ pos) : Apart start ts ks where
  token t ht := ⟨Nat.le_trans hle (h.token t ht).1, (h.token t ht).2⟩
  comment k hk := ⟨Nat.le_trans hle (h.comment k hk).1, (h.comment k hk).2⟩
  tokens := h.tokens
  comments := h.comments
  between := h.between

theorem Apart.cons_token {t : Token} {n : ℕ} (hspan : t.span = ⟨pos, pos + n⟩)
    (h : Apart (pos + n) ts ks) : Apart pos (t :: ts) ks where
  token := List.forall_mem_cons.mpr ⟨by rw [hspan]; exact ⟨Nat.le_refl _, Nat.le_add_right _ _⟩,
    (h.weaken (Nat.le_add_right _ _)).token⟩
  comment := (h.weaken (Nat.le_add_right _ _)).comment
  tokens := List.pairwise_cons.mpr ⟨fun u hu => by rw [hspan]; exact (h.token u hu).1, h.tokens⟩
  comments := h.comments
  between := List.forall_mem_cons.mpr
    ⟨fun k hk => Or.inl (by rw [hspan]; exact (h.comment k hk).1), h.between⟩

theorem Apart.cons_comment {k : Comment} {n : ℕ} (hspan : k.span = ⟨pos, pos + n⟩)
    (h : Apart (pos + n) ts ks) : Apart pos ts (k :: ks) where
  token := (h.weaken (Nat.le_add_right _ _)).token
  comment := List.forall_mem_cons.mpr ⟨by rw [hspan]; exact ⟨Nat.le_refl _, Nat.le_add_right _ _⟩,
    (h.weaken (Nat.le_add_right _ _)).comment⟩
  tokens := h.tokens
  comments := List.pairwise_cons.mpr
    ⟨fun j hj => by rw [hspan]; exact (h.comment j hj).1, h.comments⟩
  between t ht := List.forall_mem_cons.mpr
    ⟨Or.inr (by rw [hspan]; exact (h.token t ht).1), h.between t ht⟩

theorem apart (h : Tiled pos cs ts ks) : Apart pos ts ks := by
  have hnone (pos : ℕ) : Apart pos [] [] := ⟨nofun, nofun, .nil, .nil, nofun⟩
  induction h with
  | blank hblank hrest ih => exact ih.weaken (Nat.le_add_right _ _)
  | comment hk hrest ih => exact ih.cons_comment hk.text
  | token htext hstart hkind hspan hrest ih => exact ih.cons_token hspan
  | unfinished htext hstart ht hspan he hend =>
    exact .cons_token (by rw [hspan, Nat.add_assoc]) (.cons_token (n := 0) hend (hnone _))
  | done he hend => exact .cons_token (n := 0) hend (hnone _)

end Tiled

/-- A range of a text that starts and ends between characters. -/
def Span.IsIn (text : List Char) (s : Span) : Prop :=
  (sliceBytes text s.start s.stop).isSome = true

/-- All tokens are parts of the text, or all but the last two: a string that ends in a backslash at
the end of the text, and the end behind it, both a byte too far. -/
def TokensIn (text : List Char) (ts : List Token) : Prop :=
  (∀ t ∈ ts, t.span.IsIn text) ∨
    text.getLast? = some '\\' ∧ ∃ taken string last, ts = taken ++ [string, last] ∧
      (∀ t ∈ taken, t.span.IsIn text) ∧ string.kind = .string ∧ last.kind = .endOfFile ∧
      (dropBytes text string.span.start).isSome = true ∧
      string.span.stop = byteLength text + 1 ∧
      last.span = ⟨byteLength text + 1, byteLength text + 1⟩

theorem TokensIn.cons {text : List Char} {t : Token} {ts : List Token} (ht : t.span.IsIn text)
    (h : TokensIn text ts) : TokensIn text (t :: ts) := by
  rcases h with hall | ⟨hlast, taken, string, last, rfl, htaken, hrest⟩
  · exact Or.inl (List.forall_mem_cons.mpr ⟨ht, hall⟩)
  · exact Or.inr ⟨hlast, t :: taken, string, last, rfl, List.forall_mem_cons.mpr ⟨ht, htaken⟩, hrest⟩

/-- The ranges of a tiled text are parts of it. -/
theorem Tiled.isIn {pos : ℕ} {cs text : List Char} {ts : List Token} {ks : List Comment}
    (h : Tiled pos cs ts ks) (hcut : dropBytes text pos = some cs) :
    TokensIn text ts ∧ ∀ k ∈ ks, k.span.IsIn text := by
  induction h with
  | blank hblank hrest ih => exact ih (dropBytes_add hcut (dropBytes_cons _ _))
  | @comment _ part rest _ _ _ hk _ ih =>
    have hnext := dropBytes_append part rest
    obtain ⟨htokens, hcomments⟩ := ih (dropBytes_add hcut hnext)
    refine ⟨htokens, List.forall_mem_cons.mpr ⟨?_, hcomments⟩⟩
    rw [Span.IsIn, hk.text]
    exact sliceBytes_isSome hcut hnext
  | @token _ part rest _ _ _ _ _ _ hspan _ ih =>
    have hnext := dropBytes_append part rest
    obtain ⟨htokens, hcomments⟩ := ih (dropBytes_add hcut hnext)
    refine ⟨.cons ?_ htokens, hcomments⟩
    rw [Span.IsIn, hspan]
    exact sliceBytes_isSome hcut hnext
  | @unfinished pos rest t e htext hstart ht hspan he hend =>
    have hwidth := byteLength_of_dropBytes hcut
    obtain ⟨before, rfl, -⟩ := dropBytes_eq_some_iff.mp hcut
    refine ⟨Or.inr ⟨?_, [], t, e, rfl, nofun, ht, he, ?_, ?_, ?_⟩, nofun⟩
    · rw [List.getLast?_append, htext]
      rfl
    · rw [hspan]
      exact Option.isSome_of_eq_some hcut
    · rw [hspan, hwidth]
    · rw [hend, hwidth]
  | done he hend =>
    refine ⟨Or.inl (List.forall_mem_singleton.mpr ?_), nofun⟩
    rw [Span.IsIn, hend]
    exact sliceBytes_isSome hcut (dropBytes_zero _)

/-! ### Trivia -/

theorem blockBody_closed {cs : List Char} (h : (blockBody cs).2 = true) :
    ∃ body, (blockBody cs).1 = body ++ ['*', '/'] ∧ ¬ ['*', '/'] <:+: body ++ ['*'] := by
  induction cs with
  | nil => cases h
  | cons c cs ih =>
    unfold blockBody at h ⊢
    by_cases hclose : c = '*' ∧ cs.head? = some '/'
    · rw [if_pos hclose]
      exact ⟨[], rfl, by decide⟩
    · rw [if_neg hclose] at h ⊢
      obtain ⟨body, hbody, hfirst⟩ := ih h
      refine ⟨c :: body, congrArg (c :: ·) hbody, fun hinfix => ?_⟩
      rw [List.cons_append, List.infix_cons_iff] at hinfix
      rcases hinfix with hleads | hinner
      -- a closing mark at `c` would need the next character to be its second half
      · obtain ⟨hc, hslash⟩ := List.cons_prefix_cons.mp hleads
        refine hclose ⟨hc.symm, ?_⟩
        have hlead : ['/'] <+: cs := by
          refine hslash.trans ?_
          have hall := blockBody_leading cs
          rw [hbody] at hall
          exact (List.prefix_append_right_inj body).mpr ⟨['/'], rfl⟩ |>.trans hall
        obtain ⟨rest, rfl⟩ := hlead
        rfl
      · exact hfirst hinner

theorem blockBody_unclosed {cs : List Char} (h : (blockBody cs).2 = false) :
    (blockBody cs).1 = cs ∧ ¬ ['*', '/'] <:+: cs := by
  induction cs with
  | nil => exact ⟨rfl, by decide⟩
  | cons c cs ih =>
    unfold blockBody at h ⊢
    by_cases hclose : c = '*' ∧ cs.head? = some '/'
    · rw [if_pos hclose] at h
      cases h
    · rw [if_neg hclose] at h ⊢
      obtain ⟨hbody, hnone⟩ := ih h
      refine ⟨congrArg (c :: ·) hbody, fun hinfix => ?_⟩
      rcases List.infix_cons_iff.mp hinfix with hleads | hinner
      · obtain ⟨hc, rest, rfl⟩ := List.cons_prefix_cons.mp hleads
        exact hclose ⟨hc.symm, rfl⟩
      · exact hnone hinner

/-- Passing the rest of a comment only moves on. -/
theorem trivia_skip (pos : ℕ) (text rest : List Char) :
    trivia pos text.length (text ++ rest) = trivia (pos + byteLength text) 0 rest := by
  induction text generalizing pos with
  | nil => rfl
  | cons c text ih =>
    show trivia (pos + c.utf8Size) text.length (text ++ rest) = _
    rw [ih, byteLength_cons, Nat.add_assoc]

/-- Behind trivia neither a blank nor a comment starts. -/
theorem trivia_stops (pos skip : ℕ) (cs : List Char) : ¬ StartsGap (trivia pos skip cs).rest := by
  induction cs generalizing pos skip with
  | nil => simp [trivia, StartsGap]
  | cons c cs ih =>
    cases skip with
    | succ skip => exact ih _ skip
    | zero =>
      simp only [trivia]
      split_ifs with hbreak hblank hline hblock
      on_goal 6 =>
        rintro (hspacing | hcomment | hcomment)
        · simp only [not_or] at hblank
          simp [isSpacing, hbreak, hblank] at hspacing
        · obtain ⟨hc, rest, rfl⟩ := List.cons_prefix_cons.mp hcomment
          exact hline ⟨hc.symm, rfl⟩
        · obtain ⟨hc, rest, rfl⟩ := List.cons_prefix_cons.mp hcomment
          exact hblock ⟨hc.symm, rfl⟩
      all_goals exact ih _ _

/-- The line comment that starts with two strokes. -/
theorem lineComment_isAt (pos : ℕ) (after : List Char) :
    Comment.IsAt pos ('/' :: '/' :: after.takeWhile (!isLineEnd ·))
      (after.dropWhile (!isLineEnd ·))
      ⟨⟨pos, pos + 2 + byteLength (after.takeWhile (!isLineEnd ·))⟩, false,
        (after.takeWhile (!isLineEnd ·)).length < after.length⟩ := by
  set line := after.takeWhile (!isLineEnd ·)
  set rest := after.dropWhile (!isLineEnd ·)
  have hafter : line ++ rest = after := List.takeWhile_append_dropWhile
  have hline : ∀ c ∈ line, isLineEnd c = false := fun c hc => by
    simpa using List.mem_takeWhile_imp hc
  have hrest : rest.head?.all isLineEnd = true := by
    have hhead := List.head?_dropWhile_not (!isLineEnd ·) after
    cases hr : rest.head? with
    | none => rfl
    | some c =>
      rw [show (after.dropWhile (!isLineEnd ·)).head? = some c from hr] at hhead
      simpa using hhead
  have hbreak : decide (line.length < after.length) = !rest.isEmpty := by
    rw [← hafter, List.length_append]
    cases rest <;> simp
  have hcomment : Comment.IsAt pos _ _ _ := .line hline hrest
  rwa [byteLength_comment rfl, ← Nat.add_assoc, ← hbreak] at hcomment

theorem blockBody_append (cs : List Char) :
    (blockBody cs).1 ++ cs.drop (blockBody cs).1.length = cs := by
  obtain ⟨rest, hrest⟩ := blockBody_leading cs
  have hdrop : ((blockBody cs).1 ++ rest).drop (blockBody cs).1.length = rest := List.drop_left
  rw [hrest] at hdrop
  rw [hdrop, hrest]

/-- The block comment that starts with a stroke and a star. -/
theorem blockComment_isAt (pos : ℕ) (after : List Char) :
    Comment.IsAt pos ('/' :: '*' :: (blockBody after).1) (after.drop (blockBody after).1.length)
      ⟨⟨pos, pos + 2 + byteLength (blockBody after).1⟩, true,
        (after.drop (blockBody after).1.length).head?.any isLineEnd⟩ := by
  rw [Nat.add_assoc, ← byteLength_comment (show '*'.utf8Size = 1 from rfl)]
  cases hclosed : (blockBody after).2 with
  | true =>
    obtain ⟨body, hbody, hfirst⟩ := blockBody_closed hclosed
    rw [hbody]
    exact .block hfirst
  | false =>
    obtain ⟨hbody, hnone⟩ := blockBody_unclosed hclosed
    rw [hbody, List.drop_length]
    exact .unclosed hnone

/-- Trivia are blanks and the comments that are recorded. -/
theorem trivia_tiled (pos : ℕ) (cs : List Char) {ts : List Token} {ks : List Comment}
    (h : Tiled (trivia pos 0 cs).pos (trivia pos 0 cs).rest ts ks) :
    Tiled pos cs ts ((trivia pos 0 cs).comments ++ ks) := by
  induction hlength : cs.length using Nat.strong_induction_on generalizing pos cs with
  | _ n ih =>
    cases cs with
    | nil => exact h
    | cons c cs =>
      subst hlength
      have hblank (hc : isSpacing c = true)
          (h : Tiled (trivia (pos + c.utf8Size) 0 cs).pos (trivia (pos + c.utf8Size) 0 cs).rest
            ts ks) : Tiled pos (c :: cs) ts ((trivia (pos + c.utf8Size) 0 cs).comments ++ ks) :=
        .blank hc (ih _ (Nat.lt_succ_self _) _ _ h rfl)
      -- behind the opening stroke of a comment, the rest of it is passed
      have hcomment {d : Char} {body rest after : List Char} (k : Comment)
          (hcs : cs = d :: after) (hk : k.IsAt pos ('/' :: d :: body) rest)
          (hafter : body ++ rest = after)
          (h : Tiled (trivia (pos + '/'.utf8Size) (body.length + 1) (d :: after)).pos
            (trivia (pos + '/'.utf8Size) (body.length + 1) (d :: after)).rest ts ks) :
          Tiled pos ('/' :: d :: after) ts
            (k :: (trivia (pos + '/'.utf8Size) (body.length + 1) (d :: after)).comments ++ ks) := by
        have hlt : rest.length < (c :: cs).length := by
          rw [hcs, ← hafter, List.length_cons, List.length_cons, List.length_append]
          omega
        subst hafter
        rw [show body.length + 1 = (d :: body).length from rfl, ← List.cons_append,
          trivia_skip, Nat.add_assoc, ← byteLength_cons] at h ⊢
        exact .comment hk (ih _ hlt _ _ h rfl)
      simp only [trivia] at h ⊢
      split_ifs at h ⊢ with hbreak hspace hline hopen
      · exact hblank (by simp [isSpacing, hbreak]) h
      · exact hblank (by rcases hspace with rfl | rfl | rfl | rfl <;> rfl) h
      · obtain ⟨rfl, hslash⟩ := hline
        obtain ⟨after, rfl⟩ := List.head?_eq_some_iff.mp hslash
        exact hcomment _ rfl (lineComment_isAt pos after) List.takeWhile_append_dropWhile h
      on_goal 3 => exact h
      -- a block comment, closed or not
      all_goals
        obtain ⟨rfl, hstar⟩ := hopen
        obtain ⟨after, rfl⟩ := List.head?_eq_some_iff.mp hstar
        exact hcomment _ rfl (blockComment_isAt pos after) (blockBody_append after) h

/-! ### Tokens -/

namespace Lexer

variable {source : List Char} {l : Lexer}

theorem scan_comments (l : Lexer) :
    l.scan.comments.toList = l.comments.toList ++ (trivia l.pos 0 l.rest).comments := by
  unfold scan
  dsimp only
  split <;> rw [List.foldl_push_eq_append', Array.toList_append]

theorem scan_of_end (h : (trivia l.pos 0 l.rest).rest = []) :
    l.scan.token.kind = .endOfFile ∧
      l.scan.token.span = ⟨(trivia l.pos 0 l.rest).pos, (trivia l.pos 0 l.rest).pos⟩ := by
  unfold scan
  dsimp only
  rw [h]
  exact ⟨rfl, rfl⟩

theorem scan_of_cons {c : Char} {cs : List Char} (h : (trivia l.pos 0 l.rest).rest = c :: cs) :
    let pos := (trivia l.pos 0 l.rest).pos
    let x := Lexeme.read pos c cs
    l.scan.rest = x.rest ∧ l.scan.token.kind = x.kind ∧
      l.scan.token.span = ⟨pos, pos + x.width⟩ := by
  unfold scan
  dsimp only
  rw [h]
  exact ⟨rfl, rfl, rfl⟩

/-- From where a lexer stands, the tokens it reads and the comments it records tile the text. -/
theorem scanAll_tiled (fuel : ℕ) (h : l.Reads source) (hfuel : l.rest.length < fuel) :
    ∃ new, (l.scanAll fuel).2.comments.toList = l.comments.toList ++ new ∧
      Tiled l.pos l.rest (l.scanAll fuel).1 new := by
  induction fuel generalizing l with
  | zero => exact absurd hfuel (Nat.not_lt_zero _)
  | succ fuel ih =>
    have hcomments := scan_comments l
    have hstart := trivia_stops l.pos 0 l.rest
    unfold scanAll
    dsimp only
    cases hrest : (trivia l.pos 0 l.rest).rest with
    | nil =>
      obtain ⟨hkind, hspan⟩ := scan_of_end hrest
      rw [if_pos hkind]
      refine ⟨_, hcomments.trans (congrArg _ (List.append_nil _).symm), trivia_tiled _ _ ?_⟩
      rw [hrest]
      exact .done hkind hspan
    | cons c cs =>
      obtain ⟨hafter, hkind, hspan⟩ := scan_of_cons hrest
      have hinner : l.scan.token.kind ≠ .endOfFile := by
        rw [hkind]
        exact (Lexeme.read_kind _ c cs).1
      have hlt := scan_rest_lt hinner
      have hpos : l.scan.pos = _ := congrArg Span.stop hspan
      rw [if_neg hinner]
      rw [hrest] at hstart
      rcases Lexeme.read_leads (trivia l.pos 0 l.rest).pos c cs with
        hcut | ⟨hstring, hnil, hwidth, hlast⟩
      · obtain ⟨new, hnew, htiled⟩ := ih (scan_reads h).1 (by omega)
        obtain ⟨text, htext, hwidth⟩ := dropBytes_eq_some_iff.mp hcut
        refine ⟨(trivia l.pos 0 l.rest).comments ++ new, ?_, trivia_tiled _ _ ?_⟩
        · rw [hnew, hcomments, List.append_assoc]
        · rw [hpos, hafter, ← hwidth] at htiled
          rw [hrest, htext]
          refine .token ?_ (htext ▸ hstart) hinner (by rw [hspan, hwidth]) htiled
          rintro rfl
          exact absurd hwidth.symm (Nat.ne_of_gt (Lexeme.read_width_pos _ c cs))
      -- behind such a string there is only the end, a byte too far
      · obtain ⟨n, rfl⟩ : ∃ n, fuel = n + 1 := Nat.exists_eq_succ_of_ne_zero (by omega)
        obtain ⟨-, htoken, hsame, -⟩ := scan_of_nil (hafter.trans hnil)
        have hend : l.scan.scan.token.kind = .endOfFile := by rw [htoken]
        unfold scanAll
        dsimp only
        rw [if_pos hend, hsame]
        refine ⟨_, hcomments.trans (congrArg _ (List.append_nil _).symm), trivia_tiled _ _ ?_⟩
        rw [hrest]
        refine .unfinished hlast hstart (hkind.trans hstring) ?_ hend ?_
        · rw [hspan, hwidth, Nat.add_assoc]
        · rw [htoken, hpos, hwidth, Nat.add_assoc]

end Lexer

/-! ### Whole texts -/

/-- What is passed before scanning starts: a byte order mark, and a first line that names an
interpreter, up to its line feed. -/
def IsPreamble (lead rest : List Char) : Prop :=
  ∃ mark line, lead = mark ++ line ∧
    (mark = ['\uFEFF'] ∨ mark = [] ∧ (line ++ rest).head? ≠ some '\uFEFF') ∧
    (['#', '!'] <+: line ∧ '\n' ∉ line ∧ rest.head?.all (· == '\n') = true ∨
      line = [] ∧ ¬ ['#', '!'] <+: rest)

/-- Nothing of a text is lost by scanning it. -/
structure Lexed.Lossless (text : List Char) (x : Lexed) : Prop where
  /-- Behind the preamble, blanks, recorded comments and tokens are the text. -/
  tiled : ∃ lead rest, text = lead ++ rest ∧ IsPreamble lead rest ∧ x.start = byteLength lead ∧
    Tiled x.start rest x.tokens x.comments.toList
  /-- The ranges of tokens and comments come one after the other. -/
  apart : Tiled.Apart x.start x.tokens x.comments.toList
  tokens : TokensIn text x.tokens
  comments : ∀ k ∈ x.comments, k.span.IsIn text

/-- A first line that names an interpreter goes up to its line feed. -/
theorem Lexer.interpreterLine_parts (rest : List Char) :
    let line := match rest with
      | '#' :: '!' :: _ => rest.takeWhile (· != '\n')
      | _ => []
    rest = line ++ rest.drop line.length ∧
      (['#', '!'] <+: line ∧ '\n' ∉ line ∧
          (rest.drop line.length).head?.all (· == '\n') = true ∨
        line = [] ∧ ¬ ['#', '!'] <+: rest.drop line.length) := by
  split
  · next after =>
    set line := ('#' :: '!' :: after).takeWhile (· != '\n') with hline
    have hdrop : ('#' :: '!' :: after).drop line.length =
        ('#' :: '!' :: after).dropWhile (· != '\n') := by
      conv_lhs =>
        rw [← List.takeWhile_append_dropWhile (p := (· != '\n')) (l := '#' :: '!' :: after)]
      exact List.drop_left
    refine ⟨?_, Or.inl ⟨⟨after.takeWhile (· != '\n'), rfl⟩, fun hmem => ?_, ?_⟩⟩
    · rw [hdrop, hline, List.takeWhile_append_dropWhile]
    · simpa using List.mem_takeWhile_imp hmem
    · have hhead := List.head?_dropWhile_not (· != '\n') ('#' :: '!' :: after)
      rw [hdrop]
      revert hhead
      cases (('#' :: '!' :: after).dropWhile (· != '\n')).head? <;> simp
  · next hother =>
    refine ⟨rfl, Or.inr ⟨rfl, ?_⟩⟩
    rintro ⟨after, rfl⟩
    exact hother after rfl

theorem Lexer.mark_parts (text : List Char) :
    let found : ℕ × List Char := match text with
      | '\uFEFF' :: rest => (3, rest)
      | _ => (0, text)
    ∃ mark, found.1 = byteLength mark ∧ text = mark ++ found.2 ∧
      (mark = ['\uFEFF'] ∨ mark = [] ∧ found.2.head? ≠ some '\uFEFF') := by
  dsimp only
  split
  · exact ⟨['\uFEFF'], rfl, rfl, Or.inl rfl⟩
  · next hother =>
    refine ⟨[], rfl, rfl, Or.inr ⟨rfl, fun hhead => ?_⟩⟩
    obtain ⟨rest, rfl⟩ := List.head?_eq_some_iff.mp hhead
    exact hother rest rfl

theorem Lexer.ofText_preamble (text : List Char) :
    ∃ lead, text = lead ++ (ofText text).rest ∧ IsPreamble lead (ofText text).rest ∧
      (ofText text).pos = byteLength lead := by
  obtain ⟨mark, hwidth, htext, hmark⟩ := mark_parts text
  have hline := interpreterLine_parts
  unfold ofText pos
  dsimp only at hline ⊢
  refine ⟨mark ++ _, ?_, ⟨mark, _, rfl, ?_, (hline _).2⟩, ?_⟩
  · rw [List.append_assoc]
    exact htext.trans (congrArg (mark ++ ·) (hline _).1)
  · exact hmark.imp_right (And.imp_right ((hline _).1 ▸ ·))
  · exact (congrArg (· + _) hwidth).trans (byteLength_append _ _).symm

/-- Every text is scanned without loss. -/
theorem lex_lossless (text : List Char) : (lex text).Lossless text := by
  have hcut := Lexer.ofText_cut text
  have hreads := Lexer.ofText_reads text
  obtain ⟨lead, htext, hlead, hpos⟩ := Lexer.ofText_preamble text
  have hlength := congrArg List.length htext
  rw [List.length_append] at hlength
  obtain ⟨new, hnew, htiled⟩ := Lexer.scanAll_tiled (text.length + 1) hreads (by omega)
  have hcomments : (lex text).comments.toList = new := hnew
  have htiled' : Tiled (lex text).start (Lexer.ofText text).rest (lex text).tokens
      (lex text).comments.toList := hcomments ▸ htiled
  obtain ⟨htokens, hin⟩ := htiled'.isIn hcut
  exact
    { tiled := ⟨lead, _, htext, hlead, hpos, htiled'⟩
      apart := htiled'.apart
      tokens := htokens
      comments := fun k hk => hin k (Array.mem_toList_iff.mpr hk) }

/-- A comment is recorded once, and what looks like one inside a string is none. -/
example : (lex "'/*'/*b*/ //c".toList).comments.toList.map (·.span) = [⟨4, 9⟩, ⟨10, 13⟩] := by
  decide +kernel

end ApiSurface

import ApiSurface.Proofs.LineEndings
import ApiSurface.Proofs.LosslessScanning
import ApiSurface.Proofs.PairedParsing
/-!
Scanning a text, and scanning it with carriage returns before its line feeds: the same comments and
the same tokens are found at the same places.
-/
namespace ApiSurface

/-! ### Places -/

/-- Behind the end of a text nothing can be cut out. -/
theorem sliceBytes_eq_none {cs : List Char} {m n : ℕ} (h : byteLength cs < n) :
    sliceBytes cs m n = none := by
  rw [Option.eq_none_iff_forall_ne_some]
  intro part hpart
  obtain ⟨before, rest, rfl, hbefore, hstop⟩ := sliceBytes_eq_some_iff.mp hpart
  rw [byteLength_append, byteLength_append] at h
  omega

/-- An offset of a text with what is left there, and the offset of the same place when the text has
carriage returns. A string that a backslash at the end of the text leaves open reaches over the
end. -/
def SameRest (text rest : List Char) (p p' : ℕ) : Prop :=
  ∃ before excess, text = before ++ rest ∧ (rest ≠ [] → excess = 0) ∧
    p = byteLength before + excess ∧ p' = byteLength (withReturns before) + excess

/-- Offsets of the same place. -/
def SamePlace (text : List Char) (p p' : ℕ) : Prop := ∃ rest, SameRest text rest p p'

namespace SameRest

variable {text rest : List Char} {p p' : ℕ}

theorem place (h : SameRest text rest p p') : SamePlace text p p' := ⟨rest, h⟩

theorem start (text : List Char) : SameRest text text 0 0 :=
  ⟨[], 0, rfl, fun _ => rfl, rfl, rfl⟩

theorem skip {part : List Char} (h : SameRest text (part ++ rest) p p') :
    SameRest text rest (p + byteLength part) (p' + byteLength (withReturns part)) := by
  obtain ⟨before, excess, htext, hover, rfl, rfl⟩ := h
  refine ⟨before ++ part, excess, by rw [htext, List.append_assoc], fun hrest => ?_, ?_, ?_⟩
  · exact hover (List.append_ne_nil_of_right_ne_nil _ hrest)
  · rw [byteLength_append]
    omega
  · rw [withReturns.append, byteLength_append]
    omega

theorem isSuffix (h : SameRest text rest p p') : rest <:+ text := by
  obtain ⟨before, -, htext, -⟩ := h
  exact ⟨before, htext.symm⟩

theorem cut (h : SameRest text rest p p') (hrest : rest ≠ []) : dropBytes text p = some rest := by
  obtain ⟨before, excess, htext, hover, hp, -⟩ := h
  rw [hover hrest, Nat.add_zero] at hp
  exact dropBytes_eq_some_iff.mpr ⟨before, htext, hp.symm⟩

end SameRest

namespace SamePlace

variable {text : List Char} {p p' q q' : ℕ}

/-- A part before one place is shorter than a part before a later place, in both texts. -/
theorem lt_of_length_lt {before before' rest rest' : List Char}
    (hsame : before ++ rest = before' ++ rest') (hlength : before.length < before'.length) :
    rest ≠ [] ∧ byteLength before < byteLength before' ∧
      byteLength (withReturns before) < byteLength (withReturns before') := by
  obtain ⟨part, rfl⟩ := List.prefix_of_prefix_length_le ⟨rest, rfl⟩ ⟨rest', hsame.symm⟩
    (Nat.le_of_lt hlength)
  have hpart : part ≠ [] := by
    rintro rfl
    simp at hlength
  rw [List.append_assoc, List.append_cancel_left_eq] at hsame
  have hbytes := byteLength_pos hpart
  have hbytes' := Nat.lt_of_lt_of_le hbytes (withReturns.byteLength_le part)
  refine ⟨hsame ▸ List.append_ne_nil_of_left_ne_nil hpart _, ?_, ?_⟩
  · rw [byteLength_append]
    omega
  · rw [withReturns.append, byteLength_append]
    omega

/-- One place is before another in both texts or in none. -/
theorem le_iff (h : SamePlace text p p') (h' : SamePlace text q q') : p ≤ q ↔ p' ≤ q' := by
  obtain ⟨rest, before, excess, htext, hover, rfl, rfl⟩ := h
  obtain ⟨rest', before', excess', htext', hover', rfl, rfl⟩ := h'
  rcases Nat.lt_trichotomy before.length before'.length with hlt | heq | hlt
  · obtain ⟨hrest, hbytes, hbytes'⟩ := lt_of_length_lt (htext.symm.trans htext') hlt
    rw [hover hrest]
    omega
  · obtain ⟨rfl, -⟩ := List.append_inj (htext.symm.trans htext') heq
    omega
  · obtain ⟨hrest, hbytes, hbytes'⟩ := lt_of_length_lt (htext'.symm.trans htext) hlt
    rw [hover' hrest]
    omega

theorem eq_iff (h : SamePlace text p p') (h' : SamePlace text q q') : p = q ↔ p' = q' := by
  rw [Nat.le_antisymm_iff, Nat.le_antisymm_iff, le_iff h h', le_iff h' h]

theorem min (h : SamePlace text p p') (h' : SamePlace text q q') :
    SamePlace text (min p q) (min p' q') := by
  by_cases hle : p ≤ q
  · rwa [Nat.min_eq_left hle, Nat.min_eq_left ((le_iff h h').mp hle)]
  · rwa [Nat.min_eq_right (Nat.le_of_not_le hle),
      Nat.min_eq_right (Nat.le_of_not_le ((le_iff h h').not.mp hle))]

theorem max (h : SamePlace text p p') (h' : SamePlace text q q') :
    SamePlace text (max p q) (max p' q') := by
  by_cases hle : p ≤ q
  · rwa [Nat.max_eq_right hle, Nat.max_eq_right ((le_iff h h').mp hle)]
  · rwa [Nat.max_eq_left (Nat.le_of_not_le hle),
      Nat.max_eq_left (Nat.le_of_not_le ((le_iff h h').not.mp hle))]

/-- What stands between two places. -/
theorem sliceBytes (h : SamePlace text p p') (h' : SamePlace text q q') :
    sliceBytes (withReturns text) p' q' = (sliceBytes text p q).map withReturns := by
  by_cases hle : p ≤ q
  · have hle' := (le_iff h h').mp hle
    obtain ⟨rest, before, excess, htext, hover, rfl, rfl⟩ := h
    obtain ⟨rest', before', excess', htext', hover', rfl, rfl⟩ := h'
    by_cases hends : excess = 0 ∧ excess' = 0
    · obtain ⟨rfl, rfl⟩ := hends
      have hlength : before.length ≤ before'.length := by
        by_contra hlt
        have hbytes := (lt_of_length_lt (htext'.symm.trans htext) (Nat.lt_of_not_le hlt)).2.1
        omega
      obtain ⟨part, rfl⟩ := List.prefix_of_prefix_length_le ⟨rest, htext.symm⟩ ⟨rest', htext'.symm⟩
        hlength
      rw [htext', withReturns.append, withReturns.append, Nat.add_zero, Nat.add_zero, Nat.add_zero,
        Nat.add_zero, byteLength_append, byteLength_append, sliceBytes_append, sliceBytes_append]
      rfl
    -- the part reaches over the end
    · have hover : byteLength text < byteLength before' + excess' ∧
          byteLength (withReturns text) < byteLength (withReturns before') + excess' := by
        rcases not_and_or.mp hends with hne | hne
        · obtain rfl : rest = [] := of_not_not fun hrest => hne (hover hrest)
          rw [List.append_nil] at htext
          rw [htext]
          omega
        · obtain rfl : rest' = [] := of_not_not fun hrest => hne (hover' hrest)
          rw [List.append_nil] at htext'
          rw [htext']
          omega
      rw [sliceBytes_eq_none hover.1, sliceBytes_eq_none hover.2]
      rfl
  · have hle' := (le_iff h h').not.mp hle
    unfold ApiSurface.sliceBytes
    rw [if_neg hle, if_neg hle']
    rfl

end SamePlace

/-! ### Comments -/

/-- The same comment in a text and in the text with carriage returns. -/
structure Comment.Alike (text : List Char) (c c' : Comment) : Prop where
  start : SamePlace text c.span.start c'.span.start
  stop : SamePlace text c.span.stop c'.span.stop
  multiLine : c'.multiLine = c.multiLine

/-- A block comment with its closing mark, or a line comment. -/
def Comment.IsClosed (text : List Char) (c : Comment) : Prop :=
  c.multiLine = true → ['*', '/'] <:+ c.written text

theorem blockBody_withReturns (cs : List Char) :
    blockBody (withReturns cs) = (withReturns (blockBody cs).1, (blockBody cs).2) := by
  induction cs with
  | nil => rfl
  | cons c cs ih =>
    by_cases hfeed : c = '\n'
    · subst hfeed
      rw [withReturns.feed]
      simp only [blockBody, ih]
      simp
    · rw [withReturns.cons hfeed]
      unfold blockBody
      simp only [withReturns.head?_eq_iff (show '/' ≠ '\n' by decide) (show '/' ≠ '\r' by decide), ih]
      split
      · rfl
      · simp [withReturns.cons hfeed]

/-- The same trivia in a text and in the text with carriage returns. -/
structure Trivia.Alike (text : List Char) (t t' : Trivia) : Prop where
  rest : t'.rest = withReturns t.rest
  place : SameRest text t.rest t.pos t'.pos
  afterBreak : t'.afterBreak = t.afterBreak
  comments : List.Forall₂ (Comment.Alike text) t.comments t'.comments
  /-- Behind a comment that is not closed nothing is left. -/
  closed : t.rest ≠ [] → ∀ c ∈ t.comments, c.IsClosed text

theorem trivia_of_lineEnd {c : Char} (h : isLineEnd c = true) (pos : ℕ) (cs : List Char) :
    trivia pos 0 (c :: cs) = { trivia (pos + c.utf8Size) 0 cs with afterBreak := true } := by
  simp only [trivia]
  rw [if_pos h]

/-- Behind its two marks, the rest of a comment is passed. -/
theorem trivia_passed (pos : ℕ) (d : Char) (body rest : List Char) :
    trivia (pos + '/'.utf8Size + d.utf8Size) body.length (body ++ rest) =
      trivia (pos + byteLength ('/' :: d :: body)) 0 rest := by
  rw [trivia_skip, Nat.add_assoc, Nat.add_assoc]
  rfl

theorem trivia_of_line (pos : ℕ) (line : List Char) {rest : List Char}
    (hline : (line ++ rest).takeWhile (!isLineEnd ·) = line) :
    let after := trivia (pos + byteLength ('/' :: '/' :: line)) 0 rest
    trivia pos 0 ('/' :: '/' :: (line ++ rest)) = { after with comments :=
      ⟨⟨pos, pos + byteLength ('/' :: '/' :: line)⟩, false,
        line.length < (line ++ rest).length⟩ :: after.comments } := by
  simp only [trivia]
  rw [if_neg (by decide), if_neg (by decide), if_pos (by simp), List.drop_one, List.tail_cons,
    hline, trivia_passed, byteLength_comment rfl, Nat.add_assoc]

theorem trivia_of_block (pos : ℕ) (body : List Char) {rest : List Char} {closed : Bool}
    (hbody : blockBody (body ++ rest) = (body, closed)) :
    let after := trivia (pos + byteLength ('/' :: '*' :: body)) 0 rest
    trivia pos 0 ('/' :: '*' :: (body ++ rest)) = { after with
      afterBreak := body.contains '\n' || after.afterBreak
      comments := ⟨⟨pos, pos + byteLength ('/' :: '*' :: body)⟩, true,
        rest.head?.any isLineEnd⟩ :: after.comments
      problems := if closed then after.problems
        else ⟨pos, 2, .unterminatedComment⟩ :: after.problems } := by
  simp only [trivia]
  rw [if_neg (by decide), if_neg (by decide), if_neg (by simp), if_pos (by simp), List.drop_one,
    List.tail_cons, hbody]
  dsimp only
  rw [trivia_passed, byteLength_comment rfl, Nat.add_assoc, List.drop_left]

/-- Without a closing mark a comment takes all that is left. -/
theorem blockComment_closed {text body rest : List Char} {p : ℕ} {closed breaks : Bool}
    (h : dropBytes text p = some ('/' :: '*' :: (body ++ rest)))
    (hbody : blockBody (body ++ rest) = (body, closed)) :
    Comment.IsClosed text ⟨⟨p, p + byteLength ('/' :: '*' :: body)⟩, true, breaks⟩ ∨ rest = [] := by
  cases closed with
  | true =>
    refine Or.inl fun _ => ?_
    have hlt : p < p + byteLength ('/' :: '*' :: body) :=
      Nat.lt_add_of_pos_right (byteLength_pos (List.cons_ne_nil _ _))
    obtain ⟨inner, hinner, -⟩ := blockBody_closed (congrArg Prod.snd hbody)
    rw [hbody] at hinner
    unfold Comment.written
    have hslice : sliceBytes text p (p + byteLength ('/' :: '*' :: body)) =
        some ('/' :: '*' :: body) := sliceBytes_of_dropBytes h
    rw [if_pos hlt, hslice]
    exact ⟨'/' :: '*' :: inner, congrArg (fun body => '/' :: '*' :: body) hinner.symm⟩
  | false =>
    obtain ⟨hall, -⟩ := blockBody_unclosed (congrArg Prod.snd hbody)
    rw [hbody] at hall
    exact Or.inr (List.append_right_eq_self.mp hall.symm)

theorem trivia_withReturns {text cs : List Char} (hreturn : '\r' ∉ text) {p p' : ℕ}
    (h : SameRest text cs p p') : Trivia.Alike text (trivia p 0 cs) (trivia p' 0 (withReturns cs)) := by
  induction hlength : cs.length using Nat.strong_induction_on generalizing p p' cs with
  | _ n ih =>
    subst hlength
    cases cs with
    | nil => exact ⟨rfl, h, rfl, .nil, fun _ => List.forall_mem_nil _⟩
    | cons c cs =>
      have hskip (part rest : List Char) (hcs : c :: cs = part ++ rest) (hpart : part ≠ []) :
          Trivia.Alike text (trivia (p + byteLength part) 0 rest)
            (trivia (p' + byteLength (withReturns part)) 0 (withReturns rest)) := by
        refine ih _ ?_ (SameRest.skip (hcs ▸ h)) rfl
        rw [hcs, List.length_append]
        have hpos := List.length_pos_iff.mpr hpart
        omega
      by_cases hfeed : c = '\n'
      · subst hfeed
        have hrest := hskip ['\n'] cs rfl (List.cons_ne_nil _ _)
        rw [withReturns.feed, trivia_of_lineEnd rfl, trivia_of_lineEnd rfl, trivia_of_lineEnd rfl]
        exact ⟨hrest.rest, hrest.place, rfl, hrest.comments, hrest.closed⟩
      rw [withReturns.cons hfeed]
      have hline : isLineEnd c = false := by
        have hc : c ≠ '\r' := fun hc => hreturn (h.isSuffix.subset (hc ▸ List.mem_cons_self))
        simp [isLineEnd, hfeed, hc]
      by_cases hblank : c = ' ' ∨ c = '\t' ∨ c = '\x0b' ∨ c = '\x0c'
      · have hrest := hskip [c] cs rfl (List.cons_ne_nil _ _)
        have hpass (q : ℕ) (ds : List Char) :
            trivia q 0 (c :: ds) = trivia (q + c.utf8Size) 0 ds := by
          simp only [trivia]
          rw [if_neg (Bool.eq_false_iff.mp hline), if_pos hblank]
        rw [hpass, hpass]
        rwa [withReturns.cons hfeed] at hrest
      by_cases hopen : c = '/' ∧ cs.head? = some '/'
      · obtain ⟨rfl, hslash⟩ := hopen
        obtain ⟨after, rfl⟩ := List.head?_eq_some_iff.mp hslash
        obtain ⟨line, rest, rfl, htake⟩ : ∃ line rest, after = line ++ rest ∧
            after.takeWhile (!isLineEnd ·) = line :=
          ⟨_, _, List.takeWhile_append_dropWhile.symm, rfl⟩
        have hnone : '\n' ∉ line := htake ▸ withReturns.notMem_takeWhile rfl _
        have htake' : (line ++ withReturns rest).takeWhile (!isLineEnd ·) = line := by
          have hsame := withReturns.takeWhile (p := (!isLineEnd ·)) rfl rfl (line ++ rest)
          rwa [withReturns.append, withReturns.of_notMem hnone, htake] at hsame
        have hrest := hskip ('/' :: '/' :: line) rest rfl (List.cons_ne_nil _ _)
        have hstop := SameRest.skip (show SameRest text (('/' :: '/' :: line) ++ rest) _ _ from h)
        have hmarks : withReturns ('/' :: '/' :: line) = '/' :: '/' :: line :=
          withReturns.of_notMem (by simp [hnone])
        rw [hmarks] at hrest hstop
        rw [withReturns.cons hfeed, withReturns.append, withReturns.of_notMem hnone,
          trivia_of_line p line htake, trivia_of_line p' line htake']
        exact ⟨hrest.rest, hrest.place, hrest.afterBreak,
          .cons ⟨h.place, hstop.place, rfl⟩ hrest.comments,
          fun hne => List.forall_mem_cons.mpr ⟨fun hlines => absurd hlines Bool.false_ne_true,
            hrest.closed hne⟩⟩
      by_cases hblock : c = '/' ∧ cs.head? = some '*'
      · obtain ⟨rfl, hstar⟩ := hblock
        obtain ⟨after, rfl⟩ := List.head?_eq_some_iff.mp hstar
        obtain ⟨body, rest, closed, rfl, hbody⟩ : ∃ body rest closed, after = body ++ rest ∧
            blockBody after = (body, closed) :=
          ⟨_, _, _, (blockBody_append after).symm, rfl⟩
        have hbody' := blockBody_withReturns (body ++ rest)
        rw [hbody, withReturns.append] at hbody'
        have hrest := hskip ('/' :: '*' :: body) rest rfl (List.cons_ne_nil _ _)
        have hstop := SameRest.skip (show SameRest text (('/' :: '*' :: body) ++ rest) _ _ from h)
        have hmarks : withReturns ('/' :: '*' :: body) = '/' :: '*' :: withReturns body := by
          rw [withReturns.cons hfeed, withReturns.cons (by decide)]
        rw [hmarks] at hrest hstop
        rw [withReturns.cons (by decide), withReturns.append, trivia_of_block p body hbody,
          trivia_of_block p' (withReturns body) hbody']
        refine ⟨hrest.rest, hrest.place, ?_, .cons ⟨h.place, hstop.place, rfl⟩ hrest.comments,
          fun hne => List.forall_mem_cons.mpr ⟨?_, hrest.closed hne⟩⟩
        · have hfeeds : (withReturns body).contains '\n' = body.contains '\n' := by
            rw [Bool.eq_iff_iff, List.contains_iff_mem, List.contains_iff_mem,
              withReturns.mem_iff (by decide)]
          dsimp only
          rw [hfeeds, hrest.afterBreak]
        · refine (blockComment_closed (h.cut (List.cons_ne_nil _ _)) hbody).resolve_right ?_
          rintro rfl
          exact hne rfl
      · have hnext {d : Char} (hd : d ≠ '\n') (hd' : d ≠ '\r') :
            (withReturns cs).head? = some d ↔ cs.head? = some d :=
          withReturns.head?_eq_iff hd hd'
        have hstop (q : ℕ) (ds : List Char) (hline' : ¬ (c = '/' ∧ ds.head? = some '/'))
            (hblock' : ¬ (c = '/' ∧ ds.head? = some '*')) :
            trivia q 0 (c :: ds) = ⟨c :: ds, q, false, [], []⟩ := by
          simp only [trivia]
          rw [if_neg (Bool.eq_false_iff.mp hline), if_neg hblank, if_neg hline', if_neg hblock']
        rw [hstop p cs hopen hblock, hstop p' _ (by rwa [hnext (by decide) (by decide)])
          (by rwa [hnext (by decide) (by decide)])]
        exact ⟨(withReturns.cons hfeed cs).symm, h, rfl, .nil, fun _ => List.forall_mem_nil _⟩

/-! ### Scanning -/

theorem le_trivia_comment (pos skip : ℕ) (cs : List Char) :
    ∀ c ∈ (trivia pos skip cs).comments, pos ≤ c.span.start := by
  induction cs generalizing pos skip with
  | nil => exact List.forall_mem_nil _
  | cons c cs ih =>
    have hnext (skip : ℕ) : ∀ k ∈ (trivia (pos + c.utf8Size) skip cs).comments,
        pos ≤ k.span.start := fun k hk => Nat.le_trans (Nat.le_add_right _ _) (ih _ skip k hk)
    cases skip with
    | succ skip => exact hnext skip
    | zero =>
      simp only [trivia]
      split_ifs
      on_goal 6 => exact List.forall_mem_nil _
      all_goals first
        | exact hnext _
        | exact List.forall_mem_cons.mpr ⟨Nat.le_refl _, hnext _⟩

namespace Lexer

variable {l : Lexer}

theorem scan_at_end (h : (trivia l.pos 0 l.rest).rest = []) : l.scan.rest = [] ∧
    l.scan.token = ⟨.endOfFile, ⟨(trivia l.pos 0 l.rest).pos, (trivia l.pos 0 l.rest).pos⟩, "",
      (trivia l.pos 0 l.rest).afterBreak, false⟩ := by
  unfold scan
  dsimp only
  rw [h]
  exact ⟨rfl, rfl⟩

theorem scan_of_trivia {c : Char} {cs : List Char} (h : (trivia l.pos 0 l.rest).rest = c :: cs) :
    let t := trivia l.pos 0 l.rest
    let x := Lexeme.read t.pos c cs
    l.scan.rest = x.rest ∧ l.scan.token = ⟨x.kind, ⟨t.pos, t.pos + x.width⟩,
      String.ofList x.value, t.afterBreak, x.substitutes⟩ := by
  unfold scan
  dsimp only
  rw [h]
  exact ⟨rfl, rfl⟩

/-- What a scan does depends on the trivia that come next. -/
theorem scan_eq_of_trivia {k : Lexer} (h : trivia l.pos 0 l.rest = trivia k.pos 0 k.rest)
    (hcomments : l.comments = k.comments) (hproblems : l.problems = k.problems) :
    l.scan = k.scan := by
  unfold scan
  rw [h, hcomments, hproblems]

end Lexer

/-- Behind a lexeme, too, reading goes on at the same place. -/
theorem SameRest.lexeme {text cs : List Char} {c : Char} {p p' : ℕ} {x x' : Lexeme}
    (h : SameRest text (c :: cs) p p') (hleads : x.Leads (c :: cs))
    (hx : Lexeme.Alike (c :: cs) x x') : SameRest text x.rest (p + x.width) (p' + x'.width) := by
  have hwidth := hx.width
  rw [hx.rest] at hwidth
  rcases hleads with hcut | ⟨-, hrest, hleads, -⟩
  · obtain ⟨taken, htaken, hbytes⟩ := dropBytes_eq_some_iff.mp hcut
    rw [htaken] at h
    have hskip := h.skip
    rw [htaken, withReturns.append, byteLength_append, byteLength_append] at hwidth
    have hbytes' : byteLength (withReturns taken) = x'.width := by omega
    rwa [hbytes, hbytes'] at hskip
  · obtain ⟨before, excess, htext, hover, rfl, rfl⟩ := h
    have hnone : excess = 0 := hover (List.cons_ne_nil c cs)
    rw [hrest, withReturns.nil, byteLength_nil] at hwidth
    rw [hrest]
    refine ⟨text, 1, (List.append_nil text).symm, fun h => absurd rfl h, ?_, ?_⟩
    · rw [htext, byteLength_append]
      omega
    · rw [htext, withReturns.append, byteLength_append]
      omega

/-- What goes together in a text and in the text with carriage returns: the same places, the same
documentation, and parts of the text with carriage returns in them. Nothing starts before the place
where scanning does. -/
def returned (text : List Char) : Likeness where
  start p p' := SamePlace text p p' ∧ (Lexer.ofText text).pos ≤ p ∧
    (Lexer.ofText (withReturns text)).pos ≤ p'
  stop := SamePlace text
  doc _ _ d d' := d' = d
  written w w' := w' = String.ofList (withReturns w.toList)

namespace Lexer

/-- A lexer that has recorded nothing before an offset. -/
structure IsBehind (first : ℕ) (l : Lexer) : Prop where
  pos : first ≤ l.pos
  comments : ∀ c ∈ l.comments.toList, first ≤ c.span.start

theorem IsBehind.scan {first : ℕ} {l : Lexer} (h : l.IsBehind first) : l.scan.IsBehind first where
  pos := Nat.le_trans h.pos (Nat.le_trans l.le_scan_start l.scan_width.1)
  comments c hc := by
    rw [scan_comments, List.mem_append] at hc
    exact hc.elim (h.comments c) fun hc => Nat.le_trans h.pos (le_trivia_comment _ _ _ c hc)

/-- Lexers at the same place of a text and of the text with carriage returns. -/
structure Alike (text : List Char) (l l' : Lexer) : Prop where
  rest : l'.rest = withReturns l.rest
  place : SameRest text l.rest l.pos l'.pos
  comments : List.Forall₂ (Comment.Alike text) l.comments.toList l'.comments.toList
  ended : l.token.kind = .endOfFile → l.rest = []
  closed : l.token.kind ≠ .endOfFile → ∀ c ∈ l.comments.toList, c.IsClosed text

end Lexer

namespace Lexer.Alike

variable {text : List Char} {l l' : Lexer}

/-- The next tokens are the same. -/
theorem scan (h : l.Alike text l') (hreturn : '\r' ∉ text)
    (hfirst : (ofText text).pos ≤ l.scan.token.span.start)
    (hfirst' : (ofText (withReturns text)).pos ≤ l'.scan.token.span.start) :
    l.scan.Alike text l'.scan ∧ l.scan.token.Alike (returned text) l'.scan.token := by
  have htrivia := trivia_withReturns hreturn h.place
  rw [← h.rest] at htrivia
  have hcomments : List.Forall₂ (Comment.Alike text) l.scan.comments.toList
      l'.scan.comments.toList := by
    rw [scan_comments, scan_comments]
    exact List.rel_append h.comments htrivia.comments
  have hclosed (hrest : (trivia l.pos 0 l.rest).rest ≠ []) :
      ∀ c ∈ l.scan.comments.toList, c.IsClosed text := by
    intro c hc
    rw [scan_comments, List.mem_append] at hc
    refine hc.elim (h.closed (fun hkind => hrest ?_) c) (htrivia.closed hrest c)
    rw [h.ended hkind]
    rfl
  have hstart : (returned text).start (trivia l.pos 0 l.rest).pos
      (trivia l'.pos 0 l'.rest).pos :=
    ⟨htrivia.place.place, scan_start l ▸ hfirst, scan_start l' ▸ hfirst'⟩
  have hspan {q q' : ℕ} (hstop : SamePlace text q q') (hle : (trivia l.pos 0 l.rest).pos ≤ q) :
      Span.Alike (returned text) ⟨(trivia l.pos 0 l.rest).pos, q⟩
        ⟨(trivia l'.pos 0 l'.rest).pos, q'⟩ := ⟨hstart, hstop, hle⟩
  cases hrest : (trivia l.pos 0 l.rest).rest with
  | nil =>
    have hrest' : (trivia l'.pos 0 l'.rest).rest = [] := by
      rw [htrivia.rest, hrest]
      rfl
    obtain ⟨hscan, htoken⟩ := scan_at_end hrest
    obtain ⟨hscan', htoken'⟩ := scan_at_end hrest'
    have hplace := htrivia.place
    rw [hrest] at hplace
    refine ⟨⟨by rw [hscan, hscan']; rfl, ?_, hcomments, fun _ => hscan,
      fun hkind => absurd (by rw [htoken]) hkind⟩, ?_⟩
    · show SameRest text l.scan.rest l.scan.token.span.stop l'.scan.token.span.stop
      rwa [hscan, htoken, htoken']
    · rw [htoken, htoken']
      exact ⟨rfl, hspan hplace.place (Nat.le_refl _), fun _ => rfl, htrivia.afterBreak, rfl⟩
  | cons c cs =>
    have hplace := htrivia.place
    rw [hrest] at hplace
    have hall : '\r' ∉ c :: cs := fun hmem => hreturn (hplace.isSuffix.subset hmem)
    have hfeed : c ≠ '\n' := by
      rintro rfl
      exact trivia_stops l.pos 0 l.rest (Or.inl (by rw [hrest]; rfl))
    have hrest' : (trivia l'.pos 0 l'.rest).rest = c :: withReturns cs := by
      rw [htrivia.rest, hrest, withReturns.cons hfeed]
    obtain ⟨hscan, htoken⟩ := scan_of_trivia hrest
    obtain ⟨hscan', htoken'⟩ := scan_of_trivia hrest'
    have hread := Lexeme.read_withReturns (trivia l.pos 0 l.rest).pos (trivia l'.pos 0 l'.rest).pos
      hfeed hall
    have hbehind := hplace.lexeme (Lexeme.read_leads _ c cs) hread
    refine ⟨⟨by rw [hscan, hscan', hread.rest], ?_, hcomments, scan_rest_of_end,
      fun _ => hclosed (hrest ▸ List.cons_ne_nil c cs)⟩, ?_⟩
    · show SameRest text l.scan.rest l.scan.token.span.stop l'.scan.token.span.stop
      rwa [hscan, htoken, htoken']
    · rw [htoken, htoken']
      refine ⟨hread.kind, hspan hbehind.place (Nat.le_add_right _ _), fun hkind => ?_,
        htrivia.afterBreak, hread.substitutes⟩
      exact congrArg String.ofList (hread.value hkind)

end Lexer.Alike

namespace Lexer

/-- A first line that names an interpreter. -/
def interpreterLine (rest : List Char) : List Char :=
  match rest with
  | '#' :: '!' :: _ => rest.takeWhile (· != '\n')
  | _ => []

/-- The bytes of a byte order mark, and what follows it. -/
def behindMark (text : List Char) : ℕ × List Char :=
  match text with
  | '\uFEFF' :: rest => (3, rest)
  | _ => (0, text)

theorem ofText_eq (text : List Char) :
    (ofText text).rest = (behindMark text).2.drop (interpreterLine (behindMark text).2).length ∧
      (ofText text).pos =
        (behindMark text).1 + byteLength (interpreterLine (behindMark text).2) := ⟨rfl, rfl⟩

theorem behindMark_withReturns (text : List Char) :
    behindMark (withReturns text) = ((behindMark text).1, withReturns (behindMark text).2) := by
  rcases text with _ | ⟨c, text⟩
  · rfl
  · by_cases hfeed : c = '\n'
    · subst hfeed
      rfl
    · by_cases hmark : c = '\uFEFF'
      · subst hmark
        rw [withReturns.cons (by decide)]
        rfl
      · have hnone (rest : List Char) : behindMark (c :: rest) = (0, c :: rest) := by
          unfold behindMark
          split
          · next heq => exact absurd (List.cons.inj heq).1 hmark
          · rfl
        rw [withReturns.cons hfeed, hnone, hnone, withReturns.cons hfeed]

/-- A line that names an interpreter takes the carriage return before its line feed, too. -/
theorem interpreterLine_withReturns (rest : List Char) :
    '\n' ∉ interpreterLine rest ∧ ∃ back, rest = interpreterLine rest ++ back ∧
      (interpreterLine (withReturns rest) = interpreterLine rest ∨
        ∃ after, back = '\n' :: after ∧
          interpreterLine (withReturns rest) = interpreterLine rest ++ ['\r']) := by
  by_cases h : ∃ after, rest = '#' :: '!' :: after
  · obtain ⟨after, rfl⟩ := h
    have hline (after : List Char) : interpreterLine ('#' :: '!' :: after) =
        ('#' :: '!' :: after).takeWhile (· != '\n') := rfl
    rw [withReturns.cons (by decide), withReturns.cons (by decide), hline, hline,
      ← withReturns.cons (by decide), ← withReturns.cons (by decide)]
    generalize '#' :: '!' :: after = rest
    refine ⟨withReturns.notMem_takeWhile (by decide) rest, rest.dropWhile (· != '\n'),
      List.takeWhile_append_dropWhile.symm, ?_⟩
    have hnone : '\n' ∉ rest.takeWhile (· != '\n') :=
      withReturns.notMem_takeWhile (by decide) rest
    have hsplit : withReturns rest =
        rest.takeWhile (· != '\n') ++ withReturns (rest.dropWhile (· != '\n')) := by
      conv_lhs => rw [← List.takeWhile_append_dropWhile (p := (· != '\n')) (l := rest)]
      rw [withReturns.append, withReturns.of_notMem hnone]
    rw [hsplit, List.takeWhile_append_of_pos fun c hc =>
      List.mem_takeWhile_imp (p := (· != '\n')) hc]
    have hhead := List.head?_dropWhile_not (· != '\n') rest
    cases hback : rest.dropWhile (· != '\n') with
    | nil => exact Or.inl (List.append_nil _)
    | cons c back =>
      rw [hback] at hhead
      obtain rfl : c = '\n' := by simpa using hhead
      exact Or.inr ⟨back, rfl, rfl⟩
  · have hnone {rest : List Char} (h : ¬ ∃ after, rest = '#' :: '!' :: after) :
        interpreterLine rest = [] := by
      unfold interpreterLine
      split
      · next after => exact absurd ⟨after, rfl⟩ h
      · rfl
    have h' : ¬ ∃ after, withReturns rest = '#' :: '!' :: after := by
      rintro ⟨after, hrest⟩
      rcases rest with _ | ⟨c, rest⟩
      · cases hrest
      · have hc := (withReturns.head?_eq_iff (by decide) (by decide)).mp
          (congrArg List.head? hrest)
        obtain rfl : c = '#' := Option.some.inj hc
        rw [withReturns.cons (by decide)] at hrest
        obtain ⟨tail, htail⟩ := List.head?_eq_some_iff.mp
          ((withReturns.head?_eq_iff (by decide) (by decide)).mp
            (congrArg List.head? (List.cons.inj hrest).2))
        exact h ⟨tail, by rw [htail]⟩
    rw [hnone h, hnone h']
    exact ⟨List.not_mem_nil, rest, rfl, Or.inl rfl⟩

/-- Scanning starts at the same place, or behind a carriage return and before its line feed. -/
theorem ofText_withReturns (text : List Char) :
    SameRest text (ofText text).rest (ofText text).pos (ofText text).pos ∧
      ((ofText (withReturns text)).rest = withReturns (ofText text).rest ∧
          (ofText (withReturns text)).pos = (ofText text).pos ∨
        ∃ after, (ofText text).rest = '\n' :: after ∧
          (ofText (withReturns text)).rest = '\n' :: withReturns after ∧
          (ofText (withReturns text)).pos = (ofText text).pos + 1) := by
  obtain ⟨hrest, hpos⟩ := ofText_eq text
  obtain ⟨hrest', hpos'⟩ := ofText_eq (withReturns text)
  obtain ⟨mark, hwidth, htext, hmark⟩ := mark_parts text
  obtain ⟨hnone, back, hback, hline⟩ := interpreterLine_withReturns (behindMark text).2
  have htext : text = mark ++ (behindMark text).2 := htext
  have hwidth : (behindMark text).1 = byteLength mark := hwidth
  rw [behindMark_withReturns] at hrest' hpos'
  dsimp only at hrest' hpos'
  set line := interpreterLine (behindMark text).2
  have hbefore : '\n' ∉ mark ++ line := by
    refine List.not_mem_append ?_ hnone
    rcases hmark with rfl | ⟨rfl, -⟩ <;> decide
  have hleft : (ofText text).rest = back := by rw [hrest, hback, List.drop_left]
  have hplace : SameRest text back (ofText text).pos (ofText text).pos := by
    refine ⟨mark ++ line, 0, ?_, fun _ => rfl, ?_, ?_⟩
    · rw [List.append_assoc, ← hback]
      exact htext
    · rw [hpos, hwidth, byteLength_append, Nat.add_zero]
    · rw [hpos, hwidth, withReturns.of_notMem hbefore, byteLength_append, Nat.add_zero]
  have hreturned : withReturns (behindMark text).2 = line ++ withReturns back := by
    rw [hback, withReturns.append, withReturns.of_notMem hnone]
  rw [hleft]
  refine ⟨hplace, ?_⟩
  rcases hline with hsame | ⟨after, rfl, hmore⟩
  · rw [hsame] at hrest' hpos'
    exact Or.inl ⟨by rw [hrest', hreturned, List.drop_left], hpos'.trans hpos.symm⟩
  · rw [hmore] at hrest' hpos'
    refine Or.inr ⟨after, rfl, ?_, ?_⟩
    · rw [hrest', hreturned, withReturns.feed, List.append_cons line '\r' ('\n' :: _),
        List.drop_left]
    · rw [hpos', hpos, byteLength_append]
      rfl

/-- The first tokens are the same. -/
theorem scan_ofText_withReturns {text : List Char} (hreturn : '\r' ∉ text) :
    (ofText text).scan.Alike text (ofText (withReturns text)).scan ∧
      (ofText text).scan.token.Alike (returned text) (ofText (withReturns text)).scan.token := by
  obtain ⟨hplace, hsame | ⟨after, hrest, hrest', hpos⟩⟩ := ofText_withReturns text
  · have halike : (ofText text).Alike text (ofText (withReturns text)) :=
      { rest := hsame.1
        place := by rw [hsame.2]; exact hplace
        comments := .nil
        ended := nofun
        closed := fun _ => nofun }
    exact halike.scan hreturn (le_scan_start _) (le_scan_start _)
  · -- a lexer before the carriage return reads the same
    let k : Lexer := { ofText (withReturns text) with
      rest := withReturns (ofText text).rest, token := (ofText text).token }
    have halike : (ofText text).Alike text k :=
      { rest := rfl, place := hplace, comments := .nil, ended := nofun, closed := fun _ => nofun }
    have hscan : k.scan = (ofText (withReturns text)).scan := by
      refine scan_eq_of_trivia ?_ rfl rfl
      show trivia (ofText text).pos 0 (withReturns (ofText text).rest) = _
      rw [hrest, hrest', hpos, withReturns.feed, trivia_of_lineEnd rfl, trivia_of_lineEnd rfl]
      rfl
    have hfirst' : (ofText (withReturns text)).pos ≤ k.scan.token.span.start :=
      hscan ▸ le_scan_start _
    rw [← hscan]
    exact halike.scan hreturn (le_scan_start _) hfirst'

end Lexer

end ApiSurface

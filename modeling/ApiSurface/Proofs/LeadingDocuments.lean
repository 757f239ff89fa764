import ApiSurface.Proofs.FoundDocuments
import ApiSurface.Proofs.PairedParsing
/-!
Which comment documents a node, and which the file. The first comment of a file is judged twice: by
itself before the first statement, and together with all other comments when the file has been read.
The two verdicts are the same but for two arrangements of comments, which are described here.
-/
namespace ApiSurface

/-! ### Comments, nodes and files -/

/-- The comment has a tag that marks it as the documentation of a file. -/
def Comment.isTagged (c : Comment) (text : List Char) : Bool :=
  containsText packageTag (contentOf (c.written text)) ||
    containsText moduleTag (contentOf (c.written text))

/-- What the comment says of a file, without the lines that hold tags. -/
def Comment.contentForFile (c : Comment) (text : List Char) : String :=
  String.ofList (trim (joinLines ((linesOf (contentOf (c.written text))).filter fun line =>
    trim line != packageTag && !moduleTag.isPrefixOf (trim line))))

/-- Between two places there are two line feeds or more. -/
def BlankLineBetween (text : List Char) (p q : ℕ) : Prop :=
  2 ≤ ((sliceBytes text p q).getD []).count '\n'

namespace SourceFile

variable (f : SourceFile)

/-- The comment is the closest documentation in the trivia before the place `p`: it ends there or
before, no token starts between them, and neither does other documentation. -/
structure Leads (c : Comment) (p : ℕ) : Prop where
  mem : c ∈ f.comments
  isDoc : c.isDoc f.text = true
  stop_le : c.span.stop ≤ p
  alone : ∀ t ∈ (lex f.text).tokens, t.span.start < p → t.span.stop ≤ c.span.start
  closest : ∀ d ∈ f.comments, d.isDoc f.text = true → d.span.stop ≤ p →
    d.span.start ≤ c.span.start

/-- The first statement starts at the first token. -/
def FirstStatementAt (p : ℕ) : Prop := ∃ t ∈ (lex f.text).tokens.head?, t.span.start = p

/-- The comment is the first one, and documents the file. -/
def IsDocumentedBy (c : Comment) : Prop :=
  f.comments[0]? = some c ∧ f.doc = some (c.contentForFile f.text)

/-- The comment documents either the node at `p`, which has the documentation `doc`, or the file,
whose first statement then starts at `p`; it is one of the two and not both. -/
def DocumentsOnce (c : Comment) (p : ℕ) (doc : Option String) : Prop :=
  doc = some (c.content f.text) ∧ ¬ f.IsDocumentedBy c ∨
    doc = none ∧ f.IsDocumentedBy c ∧ f.FirstStatementAt p

/-- The comment is the first one, and only blanks stand before it. -/
structure Opens (c : Comment) : Prop where
  first : f.comments[0]? = some c
  blank : (trim ((sliceBytes f.text 0 c.span.start).getD [])).isEmpty = true

/-- A blank line parts the comment from the first statement, but a second comment stands before that
statement, and no blank line parts the two comments. Before the statement the comment is taken for
the documentation of the file, and at the end of the file it is not. -/
structure Loses (c : Comment) (p : ℕ) : Prop extends f.Opens c where
  untagged : c.isTagged f.text = false
  statement : f.FirstStatementAt p
  detached : BlankLineBetween f.text c.span.stop p
  attached : ∃ d, f.comments[1]? = some d ∧ d.span.start < p ∧
    ¬ BlankLineBetween f.text c.span.stop d.span.start

/-- The comment is tagged, and what stands before it counts as blank, but was read as a token: a
space that is one in Unicode only. A statement has passed it, so the comment is taken for the
documentation of the next statement, and at the end for that of the file. -/
structure Doubles (c : Comment) : Prop extends f.Opens c where
  tagged : c.isTagged f.text = true
  passed : ∃ t ∈ (lex f.text).tokens, t.span.start < c.span.start

/-- What leads the node at `p`, which has the documentation `doc`, documents it or the file, but for
the two arrangements in which it is lost or used twice. -/
def Documents (p : ℕ) (doc : Option String) : Prop :=
  ∀ c, f.Leads c p → (f.DocumentsOnce c p doc ↔ ¬ f.Loses c p ∧ ¬ f.Doubles c)

end SourceFile

/-! ### What has been scanned up to a token -/

/-- A comment starts before the token that is found behind it. -/
theorem trivia_comment_le (pos skip : ℕ) (cs : List Char) :
    ∀ c ∈ (trivia pos skip cs).comments, c.span.start ≤ (trivia pos skip cs).pos := by
  induction cs generalizing pos skip with
  | nil => exact List.forall_mem_nil _
  | cons c cs ih =>
    have hpos (skip : ℕ) : pos ≤ (trivia (pos + c.utf8Size) skip cs).pos :=
      Nat.le_trans (Nat.le_add_right _ _) (le_trivia_pos _ skip cs)
    cases skip with
    | succ skip => exact ih _ skip
    | zero =>
      simp only [trivia]
      split_ifs
      on_goal 6 => exact List.forall_mem_nil _
      all_goals first
        | exact ih _ _
        | exact List.forall_mem_cons.mpr ⟨hpos _, ih _ _⟩

namespace Lexer

variable {l : Lexer}

theorem iterate_scan_of_nil_kind (k : ℕ) (h : l.rest = []) :
    (scan^[k + 1] l).token.kind = .endOfFile := by
  induction k generalizing l with
  | zero => exact congrArg Token.kind (scan_of_nil h).2.1
  | succ k ih => exact ih (scan_of_nil h).1

/-- Before a token that is not the end there is none that is. -/
theorem scan_kind_of_iterate {k : ℕ} (h : (scan^[k + 1] l).token.kind ≠ .endOfFile) :
    l.scan.token.kind ≠ .endOfFile := by
  cases k with
  | zero => exact h
  | succ k => exact fun hend => h (iterate_scan_of_nil_kind k (scan_rest_of_end hend))

/-- Before the end, a token that scanning comes to is one of those that scanning all reads, and so
are those before it. From there on scanning reads the rest. -/
theorem scanAll_from (k : ℕ) {fuel : ℕ} (hfuel : l.rest.length < fuel)
    (hkind : (scan^[k + 1] l).token.kind ≠ .endOfFile) :
    ∃ fuel', (scan^[k + 1] l).rest.length < fuel' ∧
      (l.scanAll fuel).2 = ((scan^[k + 1] l).scanAll fuel').2 ∧
      ∀ j ≤ k, (scan^[j + 1] l).token ∈ (l.scanAll fuel).1 := by
  induction k generalizing l fuel with
  | zero =>
    obtain ⟨n, rfl⟩ := Nat.exists_eq_succ_of_ne_zero (Nat.ne_zero_of_lt hfuel)
    have hrun : l.scanAll (n + 1) = (l.scan.token :: (l.scan.scanAll n).1, (l.scan.scanAll n).2) :=
      if_neg hkind
    have hlt := Nat.lt_of_lt_of_le (scan_rest_lt hkind) (Nat.le_of_lt_succ hfuel)
    rw [hrun]
    refine ⟨n, hlt, rfl, fun j hj => ?_⟩
    rw [Nat.le_zero.mp hj]
    exact List.mem_cons_self
  | succ k ih =>
    obtain ⟨n, rfl⟩ := Nat.exists_eq_succ_of_ne_zero (Nat.ne_zero_of_lt hfuel)
    have hfirst := scan_kind_of_iterate hkind
    have hrun : l.scanAll (n + 1) = (l.scan.token :: (l.scan.scanAll n).1, (l.scan.scanAll n).2) :=
      if_neg hfirst
    have hlt := Nat.lt_of_lt_of_le (scan_rest_lt hfirst) (Nat.le_of_lt_succ hfuel)
    obtain ⟨fuel', hle, hlast, hmem⟩ := ih hlt hkind
    rw [hrun]
    refine ⟨fuel', hle, hlast, fun j hj => ?_⟩
    cases j with
    | zero => exact List.mem_cons_self
    | succ j => exact List.mem_cons_of_mem _ (hmem j (Nat.le_of_succ_le_succ hj))

theorem iterate_scan_reads {source : List Char} (k : ℕ) (h : l.Reads source) :
    (scan^[k] l).Reads source := by
  induction k generalizing l with
  | zero => exact h
  | succ k ih => exact ih (scan_reads h).1

/-- What was recorded up to a token starts before it. -/
theorem iterate_scan_comment_le (k : ℕ) (h : ∀ c ∈ l.comments.toList, c.span.start ≤ l.pos) :
    ∀ c ∈ (scan^[k + 1] l).comments.toList,
      c.span.start ≤ (scan^[k + 1] l).token.span.start := by
  induction k generalizing l with
  | zero =>
    intro c hc
    show c.span.start ≤ l.scan.token.span.start
    rcases List.mem_append.mp (scan_comments l ▸ hc) with hc | hc
    · exact Nat.le_trans (h c hc) l.le_scan_start
    · exact scan_start l ▸ trivia_comment_le _ _ _ c hc
  | succ k ih =>
    refine ih fun c hc => ?_
    rcases List.mem_append.mp (scan_comments l ▸ hc) with hc | hc
    · exact Nat.le_trans (h c hc) (Nat.le_trans l.le_scan_start l.scan_width.1)
    · exact Nat.le_trans (scan_start l ▸ trivia_comment_le _ _ _ c hc) l.scan_width.1

end Lexer

/-- What is known at a token of a text: the comments up to it were recorded, those that were not stand
behind it, and scanning came from the end of the token before it. -/
structure Lexer.UpTo (text : List Char) (k : ℕ) (l : Lexer) : Prop where
  token : l.token ∈ (lex text).tokens
  recorded : ∃ new, (lex text).comments.toList = l.comments.toList ++ new ∧
    ∀ c ∈ new, l.pos ≤ c.span.start
  behind : ∀ c ∈ l.comments.toList, c.span.stop ≤ l.token.span.start
  origin : ∀ p, (lex text).start ≤ p →
    (∀ t ∈ (lex text).tokens, t.span.start < l.token.span.start → t.span.stop ≤ p) →
      (scan^[k] (ofText text)).pos ≤ p

theorem Lexer.upTo {text : List Char} {k : ℕ} {l : Lexer}
    (hl : l = scan^[k + 1] (ofText text)) (hkind : l.token.kind ≠ .endOfFile) : l.UpTo text k := by
  subst hl
  have hlossless := lex_lossless text
  have hwide := (Lexed.scans_lex text).wide
  obtain ⟨fuel, hfuel, hlast, htokens⟩ := scanAll_from k
    (Nat.lt_succ_of_le (ofText_rest_le text)) hkind
  obtain ⟨new, hnew, htiled⟩ := scanAll_tiled fuel
    (iterate_scan_reads (k + 1) (ofText_reads text)) hfuel
  have hall : (lex text).comments.toList = (scan^[k + 1] (ofText text)).comments.toList ++ new :=
    (congrArg (·.comments.toList) hlast).trans hnew
  have htoken := htokens k (Nat.le_refl k)
  constructor
  case token => exact htoken
  case recorded => exact ⟨new, hall, fun c hc => (htiled.apart.comment c hc).1⟩
  case behind =>
    intro c hc
    have hmem : c ∈ (lex text).comments.toList := hall ▸ List.mem_append_left _ hc
    -- the comment starts before the token, so it does not stand behind it
    rcases hlossless.apart.between _ htoken c hmem with hafter | hbefore
    · have hle := iterate_scan_comment_le (l := ofText text) k nofun c hc
      exact absurd (Nat.lt_of_lt_of_le (hwide _ htoken hkind) hafter) (Nat.not_lt_of_le hle)
    · exact hbefore
  case origin =>
    intro p hstart hbefore
    cases k with
    | zero => exact hstart
    | succ k =>
      rw [Function.iterate_succ_apply'] at hkind hbefore
      have hinner : (scan^[k + 1] (ofText text)).token.kind ≠ .endOfFile := by
        intro hend
        rw [Function.iterate_succ_apply'] at hend hkind
        exact hkind (iterate_scan_of_nil_kind 0 (scan_rest_of_end hend))
      have hmem := htokens k (Nat.le_succ k)
      exact hbefore _ hmem (Nat.lt_of_lt_of_le (hwide _ hmem hinner) (le_scan_start _))

/-! ### Documentation before a token -/

/-- All elements satisfy the condition. -/
theorem partitionPoint_of_forall {α : Type} {p : α → Bool} {xs : Array α} (h : ∀ x ∈ xs, p x = true) :
    partitionPoint p xs = xs.size := by
  have hgo (size base : ℕ) (hpos : 0 < size) (hsize : base + size = xs.size) :
      partitionPoint.go p xs base size = xs.size := by
    have hat (i : ℕ) (hi : i < xs.size) : (xs[i]?).any p = true := by
      rw [Array.getElem?_eq_getElem hi]
      exact h _ (Array.getElem_mem hi)
    induction size using Nat.strong_induction_on generalizing base with
    | _ size ih =>
      unfold partitionPoint.go
      split
      · dsimp only
        rw [if_pos (hat (base + size / 2) (by omega))]
        exact ih (size - size / 2) (by omega) (base + size / 2) (by omega) (by omega)
      · rw [if_pos (hat base (by omega))]
        omega
  unfold partitionPoint
  split
  · next hempty => exact (Array.size_eq_zero_iff.mpr (Array.isEmpty_iff.mp hempty)).symm
  · next hne =>
    refine hgo xs.size 0 (Nat.pos_of_ne_zero fun hzero => hne ?_) (Nat.zero_add _)
    exact Array.isEmpty_iff.mpr (Array.size_eq_zero_iff.mp hzero)

/-- Among comments that all end before a place, the last documentation is the closest. -/
theorem leadingDoc_eq {cs : Array Comment} {first p : ℕ} {text : List Char} {c : Comment}
    (hall : ∀ d ∈ cs.toList, d.span.stop ≤ p)
    (hsorted : cs.toList.Pairwise fun d e => d.span.start < e.span.start)
    (hc : c ∈ cs.toList) (hdoc : c.isDoc text = true) (hfirst : first ≤ c.span.start)
    (hclosest : ∀ d ∈ cs.toList, d.isDoc text = true → d.span.start ≤ c.span.start) :
    leadingDoc cs first p text = some c := by
  have hpoint : partitionPoint (fun d => decide (d.span.stop ≤ p)) cs = cs.size :=
    partitionPoint_of_forall fun d hd => decide_eq_true (hall d (Array.mem_toList_iff.mpr hd))
  unfold leadingDoc
  dsimp only
  rw [hpoint, toList_take, ← Array.length_toList, List.take_length]
  obtain ⟨before, after, hsplit⟩ := List.append_of_mem hc
  rw [hsplit] at hsorted hclosest
  have hafter : ∀ d ∈ after, c.span.start < d.span.start :=
    (List.pairwise_cons.mp (List.pairwise_append.mp hsorted).2.1).1
  -- what comes later is in the trivia too, but is no documentation
  have hwithin : ∀ d ∈ after.reverse, decide (first ≤ d.span.start) = true := fun d hd =>
    decide_eq_true (Nat.le_trans hfirst (Nat.le_of_lt (hafter d (List.mem_reverse.mp hd))))
  have hnone : ∀ d ∈ after.reverse, ¬ d.isDoc text = true := by
    intro d hd hisDoc
    have hd := List.mem_reverse.mp hd
    have hle := hclosest d (List.mem_append_right _ (List.mem_cons_of_mem _ hd)) hisDoc
    exact absurd (hafter d hd) (Nat.not_lt_of_le hle)
  rw [hsplit, List.reverse_append, List.reverse_cons, List.append_assoc, List.singleton_append,
    List.takeWhile_append_of_pos hwithin,
    List.takeWhile_cons_of_pos (p := fun d : Comment => decide (first ≤ d.span.start))
      (decide_eq_true hfirst), List.find?_append, List.find?_eq_none.mpr hnone, Option.none_or]
  exact List.find?_cons_of_pos hdoc

/-! ### The two verdicts -/

section Verdicts

variable {text : List Char} {c : Comment} {p q : ℕ}

/-- Nothing stands between a place and one before it. -/
theorem not_blankLineBetween (h : q < p) : ¬ BlankLineBetween text p q := by
  unfold BlankLineBetween sliceBytes
  rw [if_neg (Nat.not_le_of_lt h)]
  decide

/-- Further on in the text there is a blank line between, too. -/
theorem BlankLineBetween.mono (h : BlankLineBetween text p q) {r : ℕ} (hle : q ≤ r)
    (hr : (dropBytes text r).isSome = true) : BlankLineBetween text p r := by
  obtain ⟨behind, hbehind⟩ := Option.isSome_iff_exists.mp hr
  unfold BlankLineBetween at h ⊢
  cases hslice : sliceBytes text p q with
  | none =>
    rw [hslice] at h
    exact absurd h (by decide)
  | some part =>
    rw [hslice, Option.getD_some] at h
    obtain ⟨before, rest, rfl, rfl, rfl⟩ := sliceBytes_eq_some_iff.mp hslice
    obtain ⟨taken, htaken, rfl⟩ := dropBytes_eq_some_iff.mp hbehind
    -- what is taken up to the later place starts with what is taken up to the earlier one
    have hprefix : before ++ part <+: taken := by
      rcases List.append_eq_append_iff.mp htaken with ⟨more, rfl, -⟩ | ⟨more, hmore, -⟩
      · exact List.prefix_append _ _
      · rw [← byteLength_append, hmore, byteLength_append] at hle
        have hnil : more = [] := by
          by_contra hne
          have hpos := byteLength_pos hne
          omega
        rw [hmore, hnil, List.append_nil]
    obtain ⟨more, rfl⟩ := hprefix
    have hlater : sliceBytes (before ++ part ++ rest) (byteLength before)
        (byteLength (before ++ part ++ more)) = some (part ++ more) := by
      refine sliceBytes_eq_some_iff.mpr ⟨before, behind, ?_, rfl, ?_⟩
      · rw [htaken, List.append_assoc before part more]
      · simp only [byteLength_append, Nat.add_assoc]
    rw [hlater, Option.getD_some, List.count_append]
    omega

theorem isDetached_nil : isDetached c [] (some p) text = true ↔ BlankLineBetween text c.span.stop p :=
  decide_eq_true_iff

theorem isDetached_cons (d : Comment) (others : List Comment) :
    isDetached c (d :: others) (some p) text = true ↔
      BlankLineBetween text c.span.stop (min d.span.start p) := decide_eq_true_iff

/-- The verdict on the first comment. -/
theorem fileDoc_cases (hdoc : c.isDoc text = true) (others : List Comment) (first : Option ℕ) :
    let accepted := (trim ((sliceBytes text 0 c.span.start).getD [])).isEmpty = true ∧
      (c.isTagged text = true ∨ isDetached c others first text = true)
    accepted ∧ fileDoc (c :: others) first text = some (c.contentForFile text) ∨
      ¬ accepted ∧ fileDoc (c :: others) first text = none := by
  dsimp only
  rw [fileDoc_cons, hdoc, Bool.not_true, Bool.or_false, ← Bool.or_eq_true]
  cases (trim ((sliceBytes text 0 c.span.start).getD [])).isEmpty with
  | false => exact Or.inr ⟨fun h => Bool.false_ne_true h.1, rfl⟩
  | true =>
    cases hjudged : c.isTagged text || isDetached c others first text with
    | false => exact Or.inr ⟨fun h => Bool.false_ne_true h.2, if_neg (ne_true_of_eq_false hjudged)⟩
    | true => exact Or.inl ⟨⟨rfl, rfl⟩, if_pos hjudged⟩

/-- When a comment is taken for the documentation of the file with all others at hand, it is so
alone, and the other way round unless the second comment is closer than a blank line. -/
theorem isDetached_iff (others : List Comment) (hp : (dropBytes text p).isSome = true) :
    isDetached c others (some p) text = true ↔ BlankLineBetween text c.span.stop p ∧
      ¬ ∃ d ∈ others.head?, d.span.start < p ∧
        ¬ BlankLineBetween text c.span.stop d.span.start := by
  cases others with
  | nil => simp [isDetached_nil]
  | cons d others =>
    rw [isDetached_cons]
    rcases Nat.lt_or_ge d.span.start p with hlt | hge
    · rw [Nat.min_eq_left (Nat.le_of_lt hlt)]
      refine ⟨fun h => ⟨h.mono (Nat.le_of_lt hlt) hp, ?_⟩, fun ⟨_, h⟩ => ?_⟩
      · rintro ⟨e, he, -, hno⟩
        obtain rfl := Option.some.inj he
        exact hno h
      · by_contra hno
        exact h ⟨d, rfl, hlt, hno⟩
    · rw [Nat.min_eq_right hge]
      refine ⟨fun h => ⟨h, ?_⟩, And.left⟩
      rintro ⟨e, he, hlt, -⟩
      obtain rfl := Option.some.inj he
      exact absurd hlt (Nat.not_lt_of_le hge)

/-- A comment behind the start of the first statement is no documentation of the file for the blank
lines behind it. -/
theorem not_isDetached (others : List Comment) (h : p < c.span.stop) :
    ¬ isDetached c others (some p) text = true := by
  cases others with
  | nil => exact mt isDetached_nil.mp (not_blankLineBetween h)
  | cons d others =>
    exact mt (isDetached_cons d others).mp
      (not_blankLineBetween (Nat.lt_of_le_of_lt (Nat.min_le_right _ _) h))

end Verdicts

/-! ### Before a token -/

/-- A reader that stands at a token of the text, after the first statement was noted. -/
structure Reading.Stands (text : List Char) (r : Reading) : Prop where
  scans : ∃ k, r.lexer = Lexer.scan^[k + 1] (.ofText text) ∧
    r.lastEnd = (Lexer.scan^[k] (.ofText text)).pos
  first : r.firstStatement = some (Lexer.ofText text).scan.token.span.start

theorem lex_head (text : List Char) :
    (lex text).tokens.head? = some (Lexer.ofText text).scan.token := by
  show ((Lexer.ofText text).scanAll (text.length + 1)).1.head? = _
  unfold Lexer.scanAll
  dsimp only
  split <;> rfl

theorem first_le_of_mem {text : List Char} {t : Token} (h : t ∈ (lex text).tokens) :
    (Lexer.ofText text).scan.token.span.start ≤ t.span.start := by
  have hsorted : (lex text).tokens.Pairwise fun t u => t.span.start < u.span.start :=
    (Lexer.scanAll_sorted (text.length + 1) (.ofText text)).2
  obtain ⟨rest, hrest⟩ := List.head?_eq_some_iff.mp (lex_head text)
  rw [hrest] at h hsorted
  rcases List.mem_cons.mp h with rfl | h
  · exact Nat.le_refl _
  · exact Nat.le_of_lt ((List.pairwise_cons.mp hsorted).1 t h)

/-- A token that is not the end starts between two characters. -/
theorem Token.LiesIn.start {text : List Char} {t : Token} (h : t.LiesIn text)
    (hkind : t.kind ≠ .endOfFile) : (dropBytes text t.span.start).isSome = true := by
  rcases h.part with hpart | ⟨-, hstart, -⟩ | ⟨hend, -⟩
  · obtain ⟨part, hpart⟩ := Option.isSome_iff_exists.mp hpart
    obtain ⟨before, rest, rfl, hbefore, -⟩ := sliceBytes_eq_some_iff.mp hpart
    rw [List.append_assoc, ← hbefore, dropBytes_append]
    rfl
  · exact hstart
  · exact absurd hend hkind

namespace ParseState

variable {text : List Char} {s s' : ParseState}

theorem Walks.stands (h : s.Walks s') : s.reading.Stands text → s'.reading.Stands text := by
  induction h with
  | refl s | report s d | mark s b hb => exact id
  | trans _ _ ih ih' => exact ih' ∘ ih
  | next s =>
    rintro ⟨⟨k, hlexer, -⟩, hfirst⟩
    have hlexer : s.lexer = Lexer.scan^[k + 1] (.ofText text) := hlexer
    refine ⟨⟨k + 1, ?_, congrArg Lexer.pos hlexer⟩, hfirst⟩
    rw [Function.iterate_succ_apply', ← hlexer]
    rfl
  | within k _ ih => exact ih

/-- However parsing goes on, it stands at a token of the text. -/
theorem Runs.stands (h : s.Runs s') : s.reading.Stands text → s'.reading.Stands text := by
  induction h with
  | walks h => exact h.stands
  | trans _ _ ih ih' => exact ih' ∘ ih
  | declares s | marks s => exact id
  | notes s start =>
    rintro ⟨hscans, hfirst⟩
    have hfirst : s.firstStatement = some _ := hfirst
    exact ⟨hscans, by rw [reading, hfirst]; rfl⟩
  | within k _ ih => exact ih

/-- The state in which the first statement is noted. -/
def noted (s : ParseState) : ParseState := { s with firstStatement := some s.pos }

theorem start_noted_stands (text : List Char) : (start text).noted.reading.Stands text :=
  ⟨⟨0, rfl, rfl⟩, rfl⟩

end ParseState

namespace Productions

open Parse

variable (g : Productions) {c : Setting} {s : ParseState}

/-- The first step of a file notes where it starts, unless the file is at its end. -/
theorem statementStep_noted (hnone : s.firstStatement = none)
    (hkind : s.current.kind ≠ .endOfFile) :
    g.statementStep false c s = g.statementStep false c s.noted := by
  have hat (s : ParseState) (hkind : s.current.kind ≠ .endOfFile) :
      isAt .endOfFile c s = (false, s) := by
    show (s.current.kind == .endOfFile, s) = _
    rw [beq_eq_false_iff_ne.mpr hkind]
  unfold statementStep
  rw [bind_run (hat s hkind), bind_run (hat s.noted hkind)]
  obtain ⟨_, _, _, _, _, firstStatement, _, _, _⟩ := s
  obtain rfl : firstStatement = none := hnone
  rfl

/-- The statements of a file are read as if it were known where the first of them starts. -/
theorem statementList_noted (hnone : s.firstStatement = none)
    (hkind : s.current.kind ≠ .endOfFile) :
    g.statementList false c s = g.statementList false c s.noted := by
  have hbind {α β : Type} {p : Parse α} {f : α → Parse β} (h : p c s = p c s.noted) :
      (p >>= f) c s = (p >>= f) c s.noted :=
    congrArg (fun r : α × ParseState => f r.1 c r.2) h
  have hget {β : Type} (f : ParseState → Parse β) (s : ParseState) : (get >>= f) c s = f s c s := rfl
  have hstep : gather (g.statementStep false) #[] c s =
      gather (g.statementStep false) #[] c s.noted := hbind (g.statementStep_noted hnone hkind)
  have hfirst : stepOn (gather (g.statementStep false)) #[] c s =
      stepOn (gather (g.statementStep false)) #[] c s.noted := by
    unfold stepOn
    rw [hget, hget]
    exact hbind hstep
  have hall : iterate (gather (g.statementStep false)) #[] c s =
      iterate (gather (g.statementStep false)) #[] c s.noted := by
    unfold iterate
    rw [hget, hget]
    exact hbind hfirst
  exact hbind hall

end Productions

namespace SourceFile

/-- Unless a file is empty, it is parsed as if it were known where its first statement starts. -/
theorem statementsOf_noted (name : String) {text : List Char}
    (hkind : (Lexer.ofText text).scan.token.kind ≠ .endOfFile) :
    statementsOf name text = (Productions.ofDepth (text.length + 1)).statementList false ⟨name, text⟩
      (ParseState.start text).noted :=
  Productions.statementList_noted _ rfl hkind

theorem statementsOf_stands (name : String) {text : List Char}
    (hkind : (Lexer.ofText text).scan.token.kind ≠ .endOfFile) :
    (statementsOf name text).2.reading.Stands text := by
  rw [statementsOf_noted name hkind]
  exact (Parse.Running.runs _ _).stands (ParseState.start_noted_stands text)

/-- Unless a file is empty, its first statement starts at the first token, and so its documentation
is judged. -/
theorem parse_doc (name : String) {text : List Char}
    (hkind : (Lexer.ofText text).scan.token.kind ≠ .endOfFile) :
    (parse name text).doc = fileDoc (parse name text).comments.toList
      (some (Lexer.ofText text).scan.token.span.start) text := by
  have hnoted : (statementsOf name text).2.firstStatement = _ :=
    (statementsOf_stands name hkind).first
  show fileDoc _ (statementsOf name text).2.firstStatement _ = _
  rw [hnoted]
  rfl

theorem firstStatementAt_iff {f : SourceFile} {p : ℕ} : f.FirstStatementAt p ↔
    (Lexer.ofText f.text).scan.token.span.start = p := by
  unfold FirstStatementAt
  rw [lex_head]
  simp

/-- The first comment documents the file if it is judged so with all others at hand. -/
theorem isDocumentedBy_iff {f : SourceFile} {c : Comment} {others : List Comment} {first : Option ℕ}
    (hcomments : f.comments.toList = c :: others) (hdoc : c.isDoc f.text = true)
    (hfile : f.doc = fileDoc f.comments.toList first f.text) :
    f.IsDocumentedBy c ↔ f.Opens c ∧
      (c.isTagged f.text = true ∨ isDetached c others first f.text = true) := by
  have hfirst : f.comments[0]? = some c := by
    rw [← Array.getElem?_toList, hcomments]
    rfl
  unfold IsDocumentedBy
  rw [hfile, hcomments]
  rcases fileDoc_cases hdoc others first with ⟨⟨hblank, h⟩, hsome⟩ | ⟨hno, hnone⟩
  · exact iff_of_true ⟨hfirst, hsome⟩ ⟨⟨hfirst, hblank⟩, h⟩
  · refine iff_of_false (fun h => ?_) fun h => hno ⟨h.1.blank, h.2⟩
    rw [hnone] at h
    exact nomatch h.2

/-- A comment that starts where the first one that was recorded does is the first one of the file. -/
theorem Leads.isFirst_iff {name : String} {text : List Char} {l : Lexer} {c : Comment} {k p : ℕ}
    (h : (parse name text).Leads c p) (hupTo : l.UpTo text k) (hmem : c ∈ l.comments.toList) :
    l.comments[0]?.any (·.span.start == c.span.start) = true ↔
      (parse name text).comments[0]? = some c := by
  have hsorted := (lex_lossless text).comments_start
  have hc := Array.mem_toList_iff.mpr h.mem
  obtain ⟨new, hall, -⟩ := hupTo.recorded
  obtain ⟨first, rest, hrecorded⟩ := List.exists_cons_of_ne_nil (List.ne_nil_of_mem hmem)
  rw [parse_comments, ← Array.getElem?_toList, ← Array.getElem?_toList, hall, hrecorded]
  rw [parse_comments, hall, hrecorded] at hc
  rw [hall, hrecorded] at hsorted
  show (first.span.start == c.span.start) = true ↔ some first = some c
  rw [beq_iff_eq, Option.some_inj]
  refine ⟨fun hstart => ?_, fun heq => heq ▸ rfl⟩
  rcases List.mem_cons.mp hc with heq | hlater
  · exact heq.symm
  · exact absurd hstart (Nat.ne_of_lt ((List.pairwise_cons.mp hsorted).1 c hlater))

/-- What leads the current token was recorded, and is what is found before it. -/
theorem Leads.leadingDoc {name : String} {text : List Char} {s : ParseState} {c : Comment} {k : ℕ}
    (h : (parse name text).Leads c s.pos) (hupTo : s.lexer.UpTo text k)
    (hlast : s.lastEnd = (Lexer.scan^[k] (.ofText text)).pos)
    (hkind : s.current.kind ≠ .endOfFile) :
    c ∈ s.lexer.comments.toList ∧
      ApiSurface.leadingDoc s.lexer.comments s.lastEnd s.pos text = some c := by
  have hapart := (lex_lossless text).apart
  have hsorted := (lex_lossless text).comments_start
  obtain ⟨new, hall, hnew⟩ := hupTo.recorded
  have hcomments (d : Comment) : d ∈ (parse name text).comments ↔ d ∈ (lex text).comments.toList := by
    rw [parse_comments, Array.mem_toList_iff]
  have hc := (hcomments c).mp h.mem
  have hmem : c ∈ s.lexer.comments.toList := by
    rcases List.mem_append.mp (hall ▸ hc) with hmem | hlater
    · exact hmem
    · -- a comment that was not recorded stands behind the token
      have hwide := (Lexed.scans_lex text).wide s.current hupTo.token hkind
      have hle := Nat.le_trans (hapart.comment c hc).2 h.stop_le
      exact absurd (Nat.le_trans (hnew c hlater) hle) (Nat.not_le_of_lt hwide)
  rw [hall] at hsorted
  refine ⟨hmem, leadingDoc_eq hupTo.behind (List.pairwise_append.mp hsorted).1 hmem h.isDoc ?_ ?_⟩
  · rw [hlast]
    exact hupTo.origin _ (hapart.comment c hc).1 h.alone
  · intro d hd hdoc
    exact h.closest d ((hcomments d).mpr (hall ▸ List.mem_append_left _ hd)) hdoc (hupTo.behind d hd)

end SourceFile

/-- The verdict on a comment before a token: it is kept for the file if it is the first one and no
statement was passed, and by itself documents a file whose first statement starts here. -/
theorem ParseState.doc_of_lead {f : SourceFile} {s : ParseState} {c : Comment} {first : ℕ}
    (hlead : leadingDoc s.lexer.comments s.lastEnd s.pos f.text = some c)
    (hdoc : c.isDoc f.text = true) (hstatement : s.firstStatement = some first)
    (hfirst : s.lexer.comments[0]?.any (·.span.start == c.span.start) = true ↔
      f.comments[0]? = some c) :
    (f.Opens c ∧ ¬ first < s.pos ∧
        (c.isTagged f.text = true ∨ BlankLineBetween f.text c.span.stop s.pos)) ∧
      s.doc f.text = none ∨
    ¬ (f.Opens c ∧ ¬ first < s.pos ∧
        (c.isTagged f.text = true ∨ BlankLineBetween f.text c.span.stop s.pos)) ∧
      s.doc f.text = some (c.content f.text) := by
  unfold ParseState.doc
  rw [hlead, Option.bind_some, hstatement, Option.any_some]
  have hfile := fileDoc_cases hdoc [] (some s.pos)
  dsimp only at hfile
  rw [isDetached_nil] at hfile
  by_cases hopening : f.comments[0]? = some c
  · rw [hfirst.mpr hopening, Bool.true_and]
    rcases hfile with ⟨⟨hblank, h⟩, hsome⟩ | ⟨hno, hnone⟩
    · by_cases hpassed : first < s.pos
      · exact Or.inr ⟨fun h => h.2.1 hpassed, by simp [hpassed]⟩
      · exact Or.inl ⟨⟨⟨hopening, hblank⟩, hpassed, h⟩, by simp [hpassed, hsome]⟩
    · exact Or.inr ⟨fun h => hno ⟨h.1.blank, h.2.2⟩, by simp [hnone]⟩
  · rw [Bool.eq_false_iff.mpr (mt hfirst.mp hopening), Bool.false_and, Bool.false_and]
    exact Or.inr ⟨fun h => hopening h.1.first, rfl⟩

/-- Before the first statement, the two verdicts differ where a comment is lost. -/
theorem SourceFile.documentsOnce_at_first {f : SourceFile} {c : Comment} {p : ℕ}
    {doc : Option String} {others : List Comment} (hcomments : f.comments.toList = c :: others)
    (hstart : f.FirstStatementAt p) (hle : c.span.start ≤ p)
    (hcut : (dropBytes f.text p).isSome = true)
    (hdocumented : f.IsDocumentedBy c ↔ f.Opens c ∧
      (c.isTagged f.text = true ∨ isDetached c others (some p) f.text = true))
    (hverdict : (f.Opens c ∧ (c.isTagged f.text = true ∨ BlankLineBetween f.text c.span.stop p)) ∧
        doc = none ∨
      ¬ (f.Opens c ∧ (c.isTagged f.text = true ∨ BlankLineBetween f.text c.span.stop p)) ∧
        doc = some (c.content f.text)) :
    f.DocumentsOnce c p doc ↔ ¬ f.Loses c p ∧ ¬ f.Doubles c := by
  have hsecond : f.comments[1]? = others.head? := by
    rw [← Array.getElem?_toList, hcomments, List.getElem?_cons_succ, List.head?_eq_getElem?]
  have hloses : f.Loses c p ↔ f.Opens c ∧ ¬ c.isTagged f.text = true ∧
      BlankLineBetween f.text c.span.stop p ∧ ∃ d ∈ others.head?, d.span.start < p ∧
        ¬ BlankLineBetween f.text c.span.stop d.span.start := by
    constructor
    · intro h
      obtain ⟨d, hd, hlt, hno⟩ := h.attached
      exact ⟨h.toOpens, ne_true_of_eq_false h.untagged, h.detached, d, hsecond ▸ hd, hlt, hno⟩
    · rintro ⟨hopens, huntagged, hdetached, d, hd, hlt, hno⟩
      exact ⟨hopens, Bool.eq_false_iff.mpr huntagged, hstart, hdetached, d, hsecond.trans hd, hlt, hno⟩
  have hdoubles : ¬ f.Doubles c := by
    intro h
    obtain ⟨t, ht, hlt⟩ := h.passed
    have hfirst := first_le_of_mem ht
    rw [firstStatementAt_iff.mp hstart] at hfirst
    omega
  rw [hloses, and_iff_left hdoubles]
  rw [isDetached_iff others hcut] at hdocumented
  unfold DocumentsOnce
  rcases hverdict with ⟨⟨hopens, h⟩, rfl⟩ | ⟨hno, rfl⟩
  · have hright : none = some (c.content f.text) ∧ ¬ f.IsDocumentedBy c ∨
        (none : Option String) = none ∧ f.IsDocumentedBy c ∧ f.FirstStatementAt p ↔
          f.IsDocumentedBy c := by simp [hstart]
    rw [hright, hdocumented]
    refine ⟨fun hfile hlost => ?_, fun hkept => ⟨hopens, ?_⟩⟩
    · exact hfile.2.elim hlost.2.1 fun hfile => hfile.2 hlost.2.2.2
    · by_cases htagged : c.isTagged f.text = true
      · exact Or.inl htagged
      · have hdetached := h.resolve_left htagged
        exact Or.inr ⟨hdetached, fun hcloser => hkept ⟨hopens, htagged, hdetached, hcloser⟩⟩
  · refine iff_of_true (Or.inl ⟨rfl, fun h => ?_⟩) fun h => ?_
    · obtain ⟨hopens, h⟩ := hdocumented.mp h
      exact hno ⟨hopens, h.imp_right And.left⟩
    · exact hno ⟨h.1, Or.inr h.2.2.1⟩

/-- Behind the first statement, the two verdicts differ where a comment is used twice. -/
theorem SourceFile.documentsOnce_behind {f : SourceFile} {c : Comment} {p first : ℕ}
    {others : List Comment} (hstart : ¬ f.FirstStatementAt p)
    (hpassed : ∃ t ∈ (lex f.text).tokens, t.span.start < c.span.start)
    (hlt : first < c.span.stop)
    (hdocumented : f.IsDocumentedBy c ↔ f.Opens c ∧
      (c.isTagged f.text = true ∨ isDetached c others (some first) f.text = true)) :
    f.DocumentsOnce c p (some (c.content f.text)) ↔ ¬ f.Loses c p ∧ ¬ f.Doubles c := by
  have hdoubles : f.IsDocumentedBy c ↔ f.Doubles c := by
    rw [hdocumented, or_iff_left (not_isDetached others hlt)]
    exact ⟨fun h => ⟨h.1, h.2, hpassed⟩, fun h => ⟨h.toOpens, h.tagged⟩⟩
  have hloses : ¬ f.Loses c p := fun h => hstart h.statement
  rw [and_iff_right hloses, ← hdoubles]
  exact ⟨fun h => h.elim And.right nofun, fun h => Or.inl ⟨rfl, h⟩⟩

/-- What leads the token at which the parser stands documents what starts there or the file, but for
the two arrangements in which the verdicts differ. -/
theorem ParseState.documents (name : String) {text : List Char} {s : ParseState}
    (hs : s.reading.Stands text) (hkind : s.current.kind ≠ .endOfFile) :
    (SourceFile.parse name text).Documents s.pos (s.doc text) := by
  intro c hc
  set f := SourceFile.parse name text with hf
  show f.DocumentsOnce c s.pos (s.doc f.text) ↔ _
  obtain ⟨⟨k, hlexer, hlast⟩, hstatement⟩ := hs
  have hlexer : s.lexer = Lexer.scan^[k + 1] (.ofText text) := hlexer
  have hinner : (Lexer.ofText text).scan.token.kind ≠ .endOfFile :=
    Lexer.scan_kind_of_iterate (k := k) (by rwa [← hlexer])
  have hmemFirst := List.mem_of_mem_head? (lex_head text)
  have hlong := (Lexed.scans_lex text).wide _ hmemFirst hinner
  have hfile := SourceFile.parse_doc name hinner
  have hupTo := Lexer.upTo hlexer hkind
  have hle := first_le_of_mem hupTo.token
  have hstart : f.FirstStatementAt s.pos ↔ (Lexer.ofText text).scan.token.span.start = s.pos :=
    SourceFile.firstStatementAt_iff
  have hpassed : (Lexer.ofText text).scan.token.span.start < c.span.start →
      ∃ t ∈ (lex text).tokens, t.span.start < c.span.start := fun hlt => ⟨_, hmemFirst, hlt⟩
  have halone := hc.alone _ hmemFirst
  obtain ⟨hmem, hlead⟩ := hc.leadingDoc hupTo hlast hkind
  have hverdict := ParseState.doc_of_lead (f := f) hlead hc.isDoc hstatement
    (hc.isFirst_iff hupTo hmem)
  have hwide : c.span.start ≤ c.span.stop := by
    have hc := Array.mem_toList_iff.mpr hc.mem
    rw [hf, SourceFile.parse_comments] at hc
    exact ((lex_lossless text).apart.comment c hc).2
  generalize (Lexer.ofText text).scan.token.span.start = first at *
  by_cases hopening : f.comments[0]? = some c
  · obtain ⟨others, hcomments⟩ : ∃ others, f.comments.toList = c :: others := by
      rw [← Array.getElem?_toList, ← List.head?_eq_getElem?] at hopening
      exact List.head?_eq_some_iff.mp hopening
    have hdocumented := SourceFile.isDocumentedBy_iff hcomments hc.isDoc hfile
    rcases Nat.eq_or_lt_of_le hle with hpos | hlt
    · have hpos : first = s.pos := hpos
      rw [hpos] at hdocumented hverdict
      simp only [Nat.lt_irrefl, not_false_eq_true, true_and] at hverdict
      have hcut := ((Lexed.scans_lex text).tokens _ hupTo.token).start hkind
      exact SourceFile.documentsOnce_at_first hcomments (hstart.mpr hpos)
        (Nat.le_trans hwide hc.stop_le) hcut hdocumented hverdict
    · -- the first token was passed, and the comment stands behind it
      have hbefore := halone hlt
      rcases hverdict with ⟨h, -⟩ | ⟨-, hdoc⟩
      · exact absurd hlt h.2.1
      · rw [hdoc]
        exact SourceFile.documentsOnce_behind (fun h => Nat.ne_of_lt hlt (hstart.mp h))
          (hpassed (by omega)) (by omega) hdocumented
  · have hno : ¬ f.Opens c := fun h => hopening h.first
    rcases hverdict with ⟨h, -⟩ | ⟨-, hdoc⟩
    · exact absurd h.1 hno
    · exact iff_of_true (Or.inl ⟨hdoc, fun h => hopening h.1⟩)
        ⟨fun h => hno h.toOpens, fun h => hno h.toOpens⟩

end ApiSurface

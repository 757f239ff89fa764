import ApiSurface.Proofs.PairedProductions
import ApiSurface.Proofs.ReturnedDocuments
/-!
Two texts with the same end. Whatever they begin with, behind that the same tokens and the same
comments are scanned from both, each moved by as many bytes, and so the same is parsed from there.
-/
namespace ApiSurface

/-! ### Places -/

/-- Two offsets as far behind the first `a` bytes of one text as behind the first `b` bytes of
another. -/
def MovedPlace (a b p q : ℕ) : Prop := ∃ n, p = a + n ∧ q = b + n

namespace MovedPlace

variable {a b p q p' q' : ℕ}

theorem start (a b : ℕ) : MovedPlace a b a b := ⟨0, rfl, rfl⟩

theorem add (h : MovedPlace a b p q) (k : ℕ) : MovedPlace a b (p + k) (q + k) := by
  obtain ⟨n, rfl, rfl⟩ := h
  exact ⟨n + k, Nat.add_assoc .., Nat.add_assoc ..⟩

theorem le_iff (h : MovedPlace a b p q) (h' : MovedPlace a b p' q') : p ≤ p' ↔ q ≤ q' := by
  obtain ⟨n, rfl, rfl⟩ := h
  obtain ⟨n', rfl, rfl⟩ := h'
  omega

theorem max (h : MovedPlace a b p q) (h' : MovedPlace a b p' q') :
    MovedPlace a b (Nat.max p p') (Nat.max q q') := by
  obtain ⟨n, rfl, rfl⟩ := h
  obtain ⟨n', rfl, rfl⟩ := h'
  exact ⟨Nat.max n n', (Nat.add_max_add_left ..), (Nat.add_max_add_left ..)⟩

end MovedPlace

/-- What goes together behind the first `a` bytes of one text and the first `b` bytes of another:
places that are as far behind, the same documentation and the same parts. -/
def moved (a b : ℕ) : Likeness where
  start := MovedPlace a b
  stop := MovedPlace a b
  doc _ _ d d' := d' = d
  written w w' := w' = w

/-! ### What is cut out -/

theorem dropBytes_behind (lead rest : List Char) (n : ℕ) :
    dropBytes (lead ++ rest) (byteLength lead + n) = dropBytes rest n := by
  induction lead with
  | nil => rw [List.nil_append, byteLength_nil, Nat.zero_add]
  | cons c lead ih =>
    have hc := c.utf8Size_pos
    obtain ⟨k, hk⟩ : ∃ k, byteLength (c :: lead) + n = k + 1 :=
      Nat.exists_eq_succ_of_ne_zero (by rw [byteLength_cons]; omega)
    rw [byteLength_cons] at hk
    have hleft : k + 1 - c.utf8Size = byteLength lead + n := by omega
    rw [byteLength_cons, hk, List.cons_append, dropBytes, if_pos (by omega), hleft, ih]

/-- What stands behind the beginning does not depend on it. -/
theorem sliceBytes_behind (lead rest : List Char) (m n : ℕ) :
    sliceBytes (lead ++ rest) (byteLength lead + m) (byteLength lead + n) = sliceBytes rest m n := by
  unfold sliceBytes
  rw [dropBytes_behind, Nat.add_sub_add_left]
  simp only [Nat.add_le_add_iff_left]

theorem sliceBytes_moved (lead lead' rest : List Char) {p q p' q' : ℕ}
    (h : MovedPlace (byteLength lead) (byteLength lead') p q)
    (h' : MovedPlace (byteLength lead) (byteLength lead') p' q') :
    sliceBytes (lead' ++ rest) q q' = sliceBytes (lead ++ rest) p p' := by
  obtain ⟨m, rfl, rfl⟩ := h
  obtain ⟨n, rfl, rfl⟩ := h'
  rw [sliceBytes_behind, sliceBytes_behind]

/-! ### Blanks and comments -/

/-- The same comment in two texts. -/
structure Comment.Moved (a b : ℕ) (c c' : Comment) : Prop where
  start : MovedPlace a b c.span.start c'.span.start
  stop : MovedPlace a b c.span.stop c'.span.stop
  multiLine : c'.multiLine = c.multiLine

/-- The same blanks and comments in two texts. -/
structure Trivia.Moved (a b : ℕ) (t t' : Trivia) : Prop where
  rest : t'.rest = t.rest
  pos : MovedPlace a b t.pos t'.pos
  afterBreak : t'.afterBreak = t.afterBreak
  comments : List.Forall₂ (Comment.Moved a b) t.comments t'.comments

theorem trivia_moved {a b p q : ℕ} (h : MovedPlace a b p q) (skip : ℕ) (cs : List Char) :
    (trivia p skip cs).Moved a b (trivia q skip cs) := by
  induction cs generalizing p q skip with
  | nil => exact ⟨rfl, h, rfl, .nil⟩
  | cons c cs ih =>
    have hnext (skip : ℕ) := ih (h.add c.utf8Size) skip
    cases skip with
    | succ skip => exact hnext skip
    | zero =>
      have hbreaks (n : ℕ) := congrArg ((blockBody (cs.drop 1)).1.contains '\n' || ·)
        (hnext n).afterBreak
      simp only [trivia]
      -- line ends, blanks, comments to the end of a line, block comments, and what is no trivia
      split_ifs with hend hblank hline hblock hclosed
      · exact ⟨(hnext 0).rest, (hnext 0).pos, rfl, (hnext 0).comments⟩
      · exact hnext 0
      · exact ⟨(hnext _).rest, (hnext _).pos, (hnext _).afterBreak,
          .cons ⟨h, (h.add 2).add _, rfl⟩ (hnext _).comments⟩
      · exact ⟨(hnext _).rest, (hnext _).pos, hbreaks _,
          .cons ⟨h, (h.add 2).add _, rfl⟩ (hnext _).comments⟩
      · exact ⟨(hnext _).rest, (hnext _).pos, hbreaks _,
          .cons ⟨h, (h.add 2).add _, rfl⟩ (hnext _).comments⟩
      · exact ⟨rfl, h, rfl, .nil⟩

/-! ### Lexemes -/

/-- Two lexemes that differ at most in the problems with them. -/
structure Lexeme.Same (x y : Lexeme) : Prop where
  kind : y.kind = x.kind
  value : y.value = x.value
  width : y.width = x.width
  rest : y.rest = x.rest
  substitutes : y.substitutes = x.substitutes

/-- The same is open around a character, wherever strings started. -/
inductive Nesting.Same : Nesting → Nesting → Prop
  | template : Same .template .template
  | substitution (depth : ℕ) : Same (.substitution depth) (.substitution depth)
  | string (quote : Char) (start start' : ℕ) : Same (.string quote start) (.string quote start')

/-- Two parts of templates that differ at most in the problems with them. -/
structure TemplateBody.Same (x y : TemplateBody) : Prop where
  value : y.value = x.value
  width : y.width = x.width
  rest : y.rest = x.rest
  closed : y.closed = x.closed
  substitutes : y.substitutes = x.substitutes

namespace TemplateBody.Same

variable {x y : TemplateBody}

theorem cons (h : x.Same y) (c : Char) : (x.cons c).Same (y.cons c) :=
  ⟨congrArg (c :: ·) h.value, congrArg (· + c.utf8Size) h.width, h.rest, h.closed, h.substitutes⟩

theorem report (h : x.Same y) (p p' q q' : ℕ) : (x.report p p').Same (y.report q q') :=
  ⟨h.value, h.width, h.rest, h.closed, h.substitutes⟩

end TemplateBody.Same

/-- How far a template reaches does not depend on where it stands. -/
theorem templateBody_same (p q skip : ℕ) {nesting nesting' : List Nesting}
    (h : List.Forall₂ Nesting.Same nesting nesting') (cs : List Char) :
    (templateBody p skip nesting cs).Same (templateBody q skip nesting' cs) := by
  induction cs generalizing p q skip nesting nesting' with
  | nil =>
    cases h with
    | nil => exact ⟨rfl, rfl, rfl, rfl, rfl⟩
    | cons htop _ => cases htop <;> exact ⟨rfl, rfl, rfl, rfl, rfl⟩
  | cons c cs ih =>
    cases skip with
    | succ skip => exact (ih _ _ skip h).cons c
    | zero =>
      -- what is open decides what the character does
      cases h with
      | nil => exact ⟨rfl, rfl, rfl, rfl, rfl⟩
      | @cons top top' outer outer' htop houter =>
        cases htop with
        | template =>
          have hempty : outer'.isEmpty = outer.isEmpty := by cases houter <;> rfl
          simp only [templateBody, hempty]
          split_ifs
          · exact ⟨rfl, rfl, rfl, rfl, rfl⟩
          · exact (ih _ _ 0 houter).cons c
          · exact (ih _ _ 1 (.cons .template houter)).cons c
          · have hinner := (ih (p + c.utf8Size) (q + c.utf8Size) 1
              (.cons (.substitution 1) (.cons .template houter))).cons c
            exact ⟨hinner.value, hinner.width, hinner.rest, hinner.closed, rfl⟩
          · exact (ih _ _ 0 (.cons .template houter)).cons c
        | substitution depth =>
          simp only [templateBody]
          refine (ih _ _ 0 ?_).cons c
          split_ifs
          · exact .cons (.substitution _) houter
          · exact houter
          · exact .cons (.substitution _) houter
          · exact .cons (.string c p q) (.cons (.substitution depth) houter)
          · exact .cons .template (.cons (.substitution depth) houter)
          · exact .cons (.substitution depth) houter
        | string quote start start' =>
          simp only [templateBody]
          split_ifs
          · exact (ih _ _ 0 houter).cons c
          · exact ((ih _ _ 0 houter).cons c).report _ _ _ _
          · exact ((ih _ _ 0 houter).cons c).report _ _ _ _
          · exact (ih _ _ _ (.cons (.string quote start start') houter)).cons c
          · exact (ih _ _ 0 (.cons (.string quote start start') houter)).cons c

/-- What a text begins with does not depend on where it stands. -/
theorem Lexeme.read_same (p q : ℕ) (c : Char) (cs : List Char) :
    (read p c cs).Same (read q c cs) := by
  have htemplate := templateBody_same (p + 1) (q + 1) 0 (.cons .template .nil) cs
  unfold read
  dsimp only
  split
  all_goals try exact ⟨rfl, rfl, rfl, rfl, rfl⟩
  · exact ⟨rfl, htemplate.value, congrArg (· + 1) htemplate.width, htemplate.rest,
      htemplate.substitutes⟩
  · split_ifs <;> exact ⟨rfl, rfl, rfl, rfl, rfl⟩

/-! ### Scanning -/

/-- Lexers behind the same tokens of two texts. -/
structure Lexer.Moved (a b : ℕ) (l l' : Lexer) : Prop where
  rest : l'.rest = l.rest
  pos : MovedPlace a b l.pos l'.pos
  comments : List.Forall₂ (Comment.Moved a b) l.comments.toList l'.comments.toList

/-- The next tokens are the same. -/
theorem Lexer.Moved.scan {a b : ℕ} {l l' : Lexer} (h : l.Moved a b l') :
    l.scan.Moved a b l'.scan ∧ l.scan.token.Alike (moved a b) l'.scan.token := by
  have hsame : trivia l'.pos 0 l'.rest = trivia l'.pos 0 l.rest := by rw [h.rest]
  have htrivia := trivia_moved h.pos 0 l.rest
  rw [← hsame] at htrivia
  have hcomments : List.Forall₂ (Comment.Moved a b) l.scan.comments.toList
      l'.scan.comments.toList := by
    rw [scan_comments, scan_comments]
    exact List.rel_append h.comments htrivia.comments
  cases hrest : (trivia l.pos 0 l.rest).rest with
  | nil =>
    obtain ⟨hscan, htoken⟩ := scan_at_end hrest
    obtain ⟨hscan', htoken'⟩ := scan_at_end (htrivia.rest.trans hrest)
    refine ⟨⟨by rw [hscan, hscan'], ?_, hcomments⟩, ?_⟩
    · unfold Lexer.pos
      rw [htoken, htoken']
      exact htrivia.pos
    · rw [htoken, htoken']
      exact ⟨rfl, ⟨htrivia.pos, htrivia.pos, Nat.le_refl _⟩, fun _ => rfl, htrivia.afterBreak, rfl⟩
  | cons c cs =>
    obtain ⟨hscan, htoken⟩ := scan_of_trivia hrest
    obtain ⟨hscan', htoken'⟩ := scan_of_trivia (htrivia.rest.trans hrest)
    have hread := Lexeme.read_same (trivia l.pos 0 l.rest).pos (trivia l'.pos 0 l'.rest).pos c cs
    have hstop : MovedPlace a b
        ((trivia l.pos 0 l.rest).pos + (Lexeme.read (trivia l.pos 0 l.rest).pos c cs).width)
        ((trivia l'.pos 0 l'.rest).pos + (Lexeme.read (trivia l'.pos 0 l'.rest).pos c cs).width) := by
      rw [hread.width]
      exact htrivia.pos.add _
    refine ⟨⟨by rw [hscan, hscan', hread.rest], ?_, hcomments⟩, ?_⟩
    · unfold Lexer.pos
      rw [htoken, htoken']
      exact hstop
    · rw [htoken, htoken']
      exact ⟨hread.kind, ⟨htrivia.pos, hstop, Nat.le_add_right _ _⟩,
        fun _ => congrArg String.ofList hread.value, htrivia.afterBreak, hread.substitutes⟩

/-! ### Documentation -/

section

variable (lead lead' rest : List Char) {c c' : Comment}

theorem Comment.Moved.written (h : c.Moved (byteLength lead) (byteLength lead') c') :
    c'.written (lead' ++ rest) = c.written (lead ++ rest) := by
  have hlt : c'.span.start < c'.span.stop ↔ c.span.start < c.span.stop := by
    rw [← Nat.not_le, ← Nat.not_le, h.stop.le_iff h.start]
  unfold Comment.written
  simp only [hlt, sliceBytes_moved lead lead' rest h.start h.stop]

theorem Comment.Moved.isDoc (h : c.Moved (byteLength lead) (byteLength lead') c') :
    c.isDoc (lead ++ rest) = c'.isDoc (lead' ++ rest) := by
  unfold Comment.isDoc
  rw [h.multiLine, h.written lead lead' rest]

theorem Comment.Moved.content (h : c.Moved (byteLength lead) (byteLength lead') c') :
    c'.content (lead' ++ rest) = c.content (lead ++ rest) := by
  unfold Comment.content
  rw [h.written lead lead' rest]

end

/-- Readers behind the same tokens of two texts. In both the first statement starts at the very
beginning. -/
structure Reading.Moved (a b : ℕ) (r r' : Reading) : Prop where
  lexer : r.lexer.Moved a b r'.lexer
  token : r.lexer.token.Alike (moved a b) r'.lexer.token
  lastEnd : MovedPlace a b r.lastEnd r'.lastEnd
  first : r.firstStatement = some 0
  first' : r'.firstStatement = some 0

theorem Reading.Moved.next {a b : ℕ} {r r' : Reading} (h : r.Moved a b r') :
    r.next.Moved a b r'.next :=
  ⟨h.lexer.scan.1, h.lexer.scan.2, h.lexer.pos, h.first, h.first'⟩

theorem Reading.Moved.atStatement {a b : ℕ} {r r' : Reading} (h : r.Moved a b r') :
    r.atStatement.Moved a b r'.atStatement := by
  refine ⟨h.lexer, h.token, h.lastEnd, ?_, ?_⟩
  · rw [Reading.atStatement, h.first]
    rfl
  · rw [Reading.atStatement, h.first']
    rfl

/-- The same documentation stands before the same token. Behind the beginning of a text it is never
taken for that of the file. -/
theorem ParseState.doc_moved {lead lead' : List Char} (rest : List Char) (hlead : lead ≠ [])
    (hlead' : lead' ≠ []) {s s' : ParseState}
    (h : s.reading.Moved (byteLength lead) (byteLength lead') s'.reading) :
    s'.doc (lead' ++ rest) = s.doc (lead ++ rest) := by
  have hpos : MovedPlace (byteLength lead) (byteLength lead') s.pos s'.pos := h.token.span.start
  have hstatement : s.firstStatement.any (· < s.pos) = true := by
    obtain ⟨n, hn, -⟩ := hpos
    have hbytes := byteLength_pos hlead
    have hfirst : s.firstStatement = some 0 := h.first
    rw [hfirst]
    exact decide_eq_true (by omega)
  have hstatement' : s'.firstStatement.any (· < s'.pos) = true := by
    obtain ⟨n, -, hn⟩ := hpos
    have hbytes := byteLength_pos hlead'
    have hfirst : s'.firstStatement = some 0 := h.first'
    rw [hfirst]
    exact decide_eq_true (by omega)
  have hfound := leadingDoc_congr (fun c c' hc => hc.stop.le_iff hpos)
    (fun c c' hc => h.lastEnd.le_iff hc.start) (fun c c' hc => hc.isDoc lead lead' rest)
    h.lexer.comments
  unfold ParseState.doc
  simp only [hstatement, hstatement', Bool.not_true, Bool.and_false, Bool.false_and,
    Bool.false_eq_true, if_false]
  revert hfound
  show Option.Rel _ (leadingDoc s.lexer.comments s.lastEnd s.pos (lead ++ rest))
    (leadingDoc s'.lexer.comments s'.lastEnd s'.pos (lead' ++ rest)) → _
  generalize leadingDoc s.lexer.comments s.lastEnd s.pos (lead ++ rest) = found
  generalize leadingDoc s'.lexer.comments s'.lastEnd s'.pos (lead' ++ rest) = found'
  intro hfound
  cases hfound with
  | none => rfl
  | some hc => exact congrArg some (hc.content lead lead' rest)

/-- Two parsers that go side by side through what two texts end in. -/
def movedPairing (name : String) {lead lead' : List Char} (hlead : lead ≠ []) (hlead' : lead' ≠ [])
    (rest : List Char) : Pairing ⟨name, lead ++ rest⟩ ⟨name, lead' ++ rest⟩ where
  toLikeness := moved (byteLength lead) (byteLength lead')
  reads := Reading.Moved (byteLength lead) (byteLength lead')
  stop_of_start h := h
  le_iff := MovedPlace.le_iff
  token h := h.token
  lastEnd h hp := h.lastEnd.max hp
  length_le h := Nat.le_of_eq (congrArg List.length h.lexer.rest.symm)
  next h := h.next
  atStatement h := h.atStatement
  documents h _ := by
    rw [Parse.leadingDocHere_run, Parse.leadingDocHere_run]
    exact ParseState.doc_moved rest hlead hlead' h
  fragment h := by
    unfold Span.text
    exact congrArg (fun part => String.ofList (part.getD []))
      (sliceBytes_moved lead lead' rest h.start h.stop)
  -- one of the texts may have been found to be a module before
  modules _ _ := True
  modules_self _ := trivial

/-- Whether one of the texts is a module, or parsing it stalled, makes no difference. -/
theorem movedPairing_marked {name : String} {lead lead' : List Char} {hlead : lead ≠ []}
    {hlead' : lead' ≠ []} {rest : List Char} {s s' : ParseState}
    (h : (movedPairing name hlead hlead' rest).States s s') (isModule stalled : Bool) :
    (movedPairing name hlead hlead' rest).States s { s' with isModule, stalled } :=
  ⟨h.reading, h.reports, h.declarations, trivial, h.context⟩

end ApiSurface

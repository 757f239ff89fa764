import ApiSurface.Proofs.QuietProductions
import ApiSurface.Proofs.TermPieces
/-!
The productions for types read the terms of the grammar. A production reads what it does where the
productions within it do, so this follows for all of them by induction on how deep they are nested.
-/
namespace ApiSurface

open Parse

/-! ### What the productions for types read -/

/-- Tokens that end a type. -/
def typeEnds : List TokenKind :=
  [.comma, .greater, .closeBracket, .closeParen, .question, .colon, .semicolon, .equals]

theorem kindAt_end {kind : TokenKind} {qs : List Piece} (h : kind ∈ typeEnds) :
    kindAt (.sign kind :: qs) ∈ typeEnds := h

/-- A term that may stand as a whole type in a context. -/
def TypeTerm.Within (k : ParseContext) (t : TypeTerm) : Prop :=
  ∃ m, t.Fits m ∧ k.depth + m < maxDepth

/-- Tokens that may stand behind a part of a type: those that end the type, some signs, and the rest
of a conditional type where there may be one. -/
inductive Follows (k : ParseContext) (signs : List TokenKind) : List Piece → Prop
  | sign {qs : List Piece} : kindAt qs ∈ typeEnds ++ signs → Follows k signs qs
  | bound {t : TypeTerm} {qs : List Piece} : k.withoutConditionals = false → t.Within k →
      1 ≤ t.rank → Follows k signs (.word "extends" :: (t.pieces ++ .sign .question :: qs))

theorem Follows.mono {k : ParseContext} {signs signs' : List TokenKind} {qs : List Piece}
    (h : Follows k signs qs) (hsigns : signs ⊆ signs') : Follows k signs' qs := by
  cases h with
  | sign hkind =>
    exact .sign (List.append_subset.mpr ⟨List.subset_append_left .., fun _ hsign =>
      List.mem_append_right _ (hsigns hsign)⟩ hkind)
  | bound hflag ht hrank => exact .bound hflag ht hrank

namespace Productions

/-- Productions that read the terms of the grammar from at most `n` tokens. -/
structure ReadsTypes (g : Productions) (n : ℕ) : Prop where
  /-- Where conditional types are not wanted, the type is none. -/
  type : ∀ {t : TypeTerm} {k : ParseContext} {qs : List Piece}, t.Within k →
    (k.withoutConditionals = true → 1 ≤ t.rank) → kindAt qs ∈ typeEnds →
    (t.pieces ++ qs).length ≤ n → g.type.Reads k (t.pieces ++ qs) qs t.Shows
  operandType : ∀ {t : TypeTerm} {m : ℕ} {k : ParseContext} {qs : List Piece}, t.Fits m →
    k.depth + m ≤ maxDepth → 4 ≤ t.rank → Follows k [.ampersand, .bar] qs →
    (t.pieces ++ qs).length ≤ n → g.operandType.Reads k (t.pieces ++ qs) qs t.Shows

namespace ReadsTypes

variable {β : Type} {g : Productions} {n m : ℕ} {k : ParseContext} {t : TypeTerm}
  {ps qs : List Piece}

theorem freeType (hg : g.ReadsTypes n) (ht : t.Within k) (hqs : kindAt qs ∈ typeEnds)
    (hlength : (t.pieces ++ qs).length ≤ n) :
    g.freeType.Reads k (t.pieces ++ qs) qs t.Shows :=
  .settingConditionals (hg.type (k := { k with withoutConditionals := false }) ht
    (fun h => absurd h Bool.false_ne_true) hqs hlength)

/-- A type may stand behind a token that introduces it, or neither of them is there. -/
theorem optionalType (hg : g.ReadsTypes n) {lead : Piece} {condition : Parse Bool}
    {type : Option TypeTerm} (htype : ∀ t ∈ type.toList, t.Within k) (hqs : kindAt qs ∈ typeEnds)
    (hlength : (piecesOfType? lead type ++ qs).length ≤ n)
    (haccept : ∀ ps, condition.Reads k (lead :: ps) ps (· = true))
    (hreject : condition.Reads k qs qs (· = false)) :
    (whenever condition g.freeType).Reads k (piecesOfType? lead type ++ qs) qs
      (Option.Rel TypeTerm.Shows type) := by
  rw [whenever]
  cases type with
  | none => exact hreject.then (.pure .none)
  | some t =>
    rw [piecesOfType?, List.cons_append] at hlength ⊢
    rw [List.length_cons] at hlength
    exact (haccept _).then ((hg.freeType (htype t (List.mem_singleton_self t)) hqs (by omega)).bind
      fun found hfound => .pure (.some hfound))

/-- A type may stand behind a sign. -/
theorem typeAfter (hg : g.ReadsTypes n) {kind : TokenKind} {type : Option TypeTerm}
    (htype : ∀ t ∈ type.toList, t.Within k) (hqs : kindAt qs ∈ typeEnds) (hkind : kindAt qs ≠ kind)
    (hlength : (piecesOfType? (.sign kind) type ++ qs).length ≤ n) :
    (g.typeAfter kind).Reads k (piecesOfType? (.sign kind) type ++ qs) qs
      (Option.Rel TypeTerm.Shows type) :=
  hg.optionalType htype hqs hlength (fun _ => reads_accept) (reads_reject hkind)

/-- A token that may not stand behind a type, whatever the type is a part of. -/
theorem kindAt_ne {signs : List TokenKind} (h : Follows k signs qs) {kind : TokenKind}
    (hkind : kind ∉ .identifier :: typeEnds ++ signs) : kindAt qs ≠ kind := by
  rintro rfl
  cases h with
  | sign h => exact hkind (List.mem_cons_of_mem _ h)
  | bound => exact hkind List.mem_cons_self

theorem typeArgumentsOnLine (hg : g.ReadsTypes n) {args : List TypeTerm}
    (hargs : ∀ t ∈ args, t.Within k) (hqs : kindAt qs ≠ .less)
    (hlength : (angled (args.map TypeTerm.pieces) ++ qs).length ≤ n) :
    g.typeArgumentsOnLine.Reads k (angled (args.map TypeTerm.pieces) ++ qs) qs
      (List.Forall₂ TypeTerm.Shows args) := by
  rw [Productions.typeArgumentsOnLine, reads_isAt, reads_isAfterBreak]
  cases args with
  | nil =>
    have hnot : kindAt (angled ([].map TypeTerm.pieces) ++ qs) = kindAt qs := rfl
    rw [hnot, beq_false_of_ne hqs]
    exact .pure .nil
  | cons t ts =>
    have htokens : angled ((t :: ts).map TypeTerm.pieces) ++ qs =
        .sign .less :: (parted .comma ((t :: ts).map TypeTerm.pieces) ++ .sign .greater :: qs) := by
      simp [angled]
    rw [htokens, List.length_cons] at hlength
    rw [htokens, kindAt_sign]
    have hfirst : ∀ kind ∈ typeStarts, kind ∉ [TokenKind.greater, .endOfFile] := by decide
    have hnext : [TokenKind.comma, .greater] ⊆ typeEnds := by decide
    refine .accept ((reads_listUntil (by decide) (fun u hu rs => ?_)
      fun u hu kind hkind rs hle => ?_).bind fun types htypes => .expect (.pure htypes))
    · obtain ⟨m, hfits, -⟩ := hargs u hu
      exact hfirst _ (hfits.kindAt_mem rs)
    · exact hg.freeType (hargs u hu) (hnext hkind) (by omega)

/-! ### Types that stand alone -/

theorem keywordType {word : String} (hword : word ∈ keywordTypes) (hqs : kindAt qs ≠ .dot) :
    g.wordType.Reads k (.word word :: qs) qs (TypeTerm.keyword word).Shows := by
  have hother : ∀ word ∈ keywordTypes, word ≠ "typeof" ∧ word ≠ "import" ∧ word ≠ "unique" := by
    decide
  obtain ⟨htypeof, himport, hunique⟩ := hother word hword
  rw [wordType]
  refine .still fun start => ?_
  simp only [reads_isAtWord, reads_isAtWords, reads_nextIs, reads_nextIsWord, wordAt_word,
    kindAt_word, valueAt_word, List.tail_cons, beq_false_of_ne htypeof, beq_false_of_ne himport,
    beq_false_of_ne hunique, beq_false_of_ne hqs, List.contains_eq_mem, hword, BEq.rfl,
    decide_true, Bool.not_false, Bool.and_self, Bool.false_and, Bool.false_eq_true, if_true,
    if_false]
  refine reads_takeIdent.bind fun found hfound => .still fun span => .pure ?_
  rw [hfound]
  exact .keyword

theorem referenceType (hg : g.ReadsTypes n) {head : String} {tail : List String}
    {args : List TypeTerm} (hhead : IsTypeName head) (hargs : ∀ t ∈ args, t.Within k)
    (hdot : kindAt qs ≠ .dot) (hless : kindAt qs ≠ .less)
    (hlength : (angled (args.map TypeTerm.pieces) ++ qs).length ≤ n) :
    g.wordType.Reads k (.word head :: (dotted tail ++ (angled (args.map TypeTerm.pieces) ++ qs))) qs
      (TypeTerm.reference head tail args).Shows := by
  have hother : ["typeof", "import", "unique"] ⊆ typeWords := by decide
  obtain ⟨htypeof, himport, hunique⟩ : head ≠ "typeof" ∧ head ≠ "import" ∧ head ≠ "unique" := by
    have hnot : head ∉ ["typeof", "import", "unique"] := fun hmem => hhead.notWord (hother hmem)
    simpa using hnot
  have hargsDot : kindAt (angled (args.map TypeTerm.pieces) ++ qs) ≠ .dot := by
    cases args with
    | nil => exact hdot
    | cons t ts => exact nofun
  rw [wordType]
  refine .still fun start => ?_
  simp only [reads_isAtWord, reads_isAtWords, reads_nextIs, reads_nextIsWord, wordAt_word,
    kindAt_word, valueAt_word, beq_false_of_ne htypeof, beq_false_of_ne himport,
    beq_false_of_ne hunique, List.contains_eq_mem, hhead.notKeyword, BEq.rfl,
    decide_false, Bool.and_false, Bool.false_and, Bool.false_eq_true, if_false]
  exact (reads_entityName hargsDot).bind fun name hname =>
    (hg.typeArgumentsOnLine hargs hless hlength).bind fun types htypes =>
      .still fun span => .pure (.reference hname htypes)

/-- A sign that may be written is taken if it is. -/
theorem acceptMarked {sign : TokenKind} {present : Bool} {f : Bool → Parse β} {R : β → Prop}
    (hsign : kindAt ps ≠ sign) (hf : (f present).Reads k ps qs R) :
    (accept sign >>= f).Reads k (marked sign present ++ ps) qs R := by
  cases present with
  | true => exact .accept hf
  | false => exact .reject hsign hf

/-- Whether a label stands here is told by the tokens behind a word. -/
theorem isAtLabel {isLabel : Bool}
    (h : (accept .question >>= fun _ => isAt .colon).Reads k ps.tail qs (· = isLabel)) :
    (lookAhead do
      advance
      let _ ← accept .question
      isAt .colon).Reads k ps ps (· = isLabel) :=
  .lookAhead (.advance h)

/-- A type in a tuple begins as no label does. -/
theorem notLabel (hfits : t.Fits m) (optional : Bool) {kind : TokenKind}
    (hkind : kind ∈ [.comma, .closeBracket]) :
    let ps := t.pieces ++ (marked .question optional ++ .sign kind :: qs)
    (lookAhead do
      advance
      let _ ← accept .question
      isAt .colon).Reads k ps ps fun isLabel => (kindAt ps == .identifier && isLabel) = false := by
  have hnext : ∀ kind ∈ [TokenKind.comma, .closeBracket], kind ≠ .question ∧ kind ≠ .colon := by
    decide
  obtain ⟨hquestion, hcolon⟩ := hnext kind hkind
  by_cases hword : kindAt (t.pieces ++ (marked .question optional ++ .sign kind :: qs)) =
      .identifier
  · obtain ⟨name, rest, hpieces, -⟩ := hfits.word_of_kindAt hword
    refine Reads.mono (P := (· = false)) ?_ fun isLabel h => by rw [h, Bool.and_false]
    rw [hpieces]
    cases rest with
    | nil =>
      refine isAtLabel (acceptMarked hquestion (tells_isAt.reads.mono fun found h => ?_))
      rw [h, kindAt_sign, beq_false_of_ne hcolon]
    | cons p rest =>
      obtain ⟨hcolon, hquestion, -⟩ := hfits.goesOn hpieces
      refine isAtLabel (.reject hquestion (tells_isAt.reads.mono fun found h => ?_))
      exact h.trans (beq_false_of_ne hcolon)
  · exact Reads.lookAhead_any.mono fun isLabel _ => by rw [beq_false_of_ne hword, Bool.false_and]

theorem tupleItem [Quiet g] (hg : g.ReadsTypes n) {x : ItemTerm} (hx : x.type.Within k)
    {kind : TokenKind} (hkind : kind ∈ [.comma, .closeBracket])
    (hlength : (x.pieces ++ .sign kind :: qs).length ≤ n) :
    g.tupleItem.Reads k (x.pieces ++ .sign kind :: qs) (.sign kind :: qs) x.Shows := by
  obtain ⟨label, optional, rest, type⟩ := x
  have htype : type.Within k := hx
  obtain ⟨m, hfits, -⟩ := hx
  have hfirst (ps : List Piece) : kindAt (type.pieces ++ ps) ≠ .ellipsis :=
    (by decide : ∀ kind ∈ typeStarts, kind ≠ .ellipsis) _ (hfits.kindAt_mem ps)
  have hends : [TokenKind.comma, .closeBracket] ⊆ typeEnds := by decide
  have hnext : ∀ kind ∈ [TokenKind.comma, .closeBracket], kind ≠ .question := by decide
  rw [Productions.tupleItem]
  refine .still fun start => ?_
  cases label with
  | some label =>
    simp only [ItemTerm.pieces, List.append_assoc, List.cons_append, List.length_append,
      List.length_cons] at hlength ⊢
    have hname : TokenKind.identifier ≠ .ellipsis := by decide
    refine acceptMarked hname ?_
    rw [reads_isAtIdentifier]
    have hcolon : kindAt (.sign .colon :: (type.pieces ++ .sign kind :: qs)) ≠ .question :=
      show TokenKind.colon ≠ .question by decide
    refine (isAtLabel (acceptMarked hcolon tells_isAt.reads)).then ?_
    refine reads_identifier.bind fun name hname => acceptMarked hcolon (.expect ?_)
    have hread : g.freeType.Reads k (type.pieces ++ .sign kind :: qs) (.sign kind :: qs)
        type.Shows := by
      refine hg.freeType htype (kindAt_end (hends hkind)) ?_
      rw [List.length_append, List.length_cons]
      omega
    have hshows (span : Span) {found : TypeExpr} (hfound : type.Shows found) :
        ItemTerm.Shows ⟨some label, optional, rest, type⟩
          ⟨span, some name, optional, rest, found⟩ := by
      rw [← hname]
      exact @ItemTerm.Shows.intro (some name) _ _ _ _ _ hfound
    cases rest with
    | true =>
      rw [if_pos rfl, pure_bind]
      exact hread.bind fun found hfound => .still fun span => .pure (hshows span hfound)
    | false =>
      rw [if_neg Bool.false_ne_true]
      exact .reject (hfirst _)
        (hread.bind fun found hfound => .still fun span => .pure (hshows span hfound))
  | none =>
    simp only [ItemTerm.pieces, List.append_assoc, List.length_append] at hlength ⊢
    refine acceptMarked (hfirst _) ?_
    rw [reads_isAtIdentifier]
    refine (notLabel hfits optional hkind).bind fun isLabel hlabel => ?_
    rw [hlabel]
    refine (hg.freeType htype ?_ ?_).bind fun found hfound =>
      acceptMarked (hnext kind hkind) (.still fun span => .pure ?_)
    · cases optional with
      | true => exact kindAt_end (by decide)
      | false => exact kindAt_end (hends hkind)
    · rw [List.length_append, List.length_append]
      omega
    · exact @ItemTerm.Shows.intro none _ _ _ _ _ hfound

theorem tupleType [Quiet g] (hg : g.ReadsTypes n) {items : List ItemTerm}
    (hitems : ∀ x ∈ items, x.type.Within k)
    (hps : ps = parted .comma (items.map ItemTerm.pieces) ++ .sign .closeBracket :: qs)
    (hlength : ps.length ≤ n) :
    g.tupleType.Reads k (.sign .openBracket :: ps) qs (TypeTerm.tuple items).Shows := by
  subst hps
  rw [Productions.tupleType]
  refine .still fun start => .advance ?_
  rw [List.tail_cons]
  have hfirst : ∀ kind ∈ typeStarts, kind ∉ [TokenKind.closeBracket, .endOfFile] := by decide
  refine (reads_listUntil (S := ItemTerm.Shows) (by decide) (fun x hx rs => ?_)
    fun x hx kind hkind rs hle => ?_).bind fun found hfound => .expect (.still fun span => .pure ?_)
  · obtain ⟨m, hfits, -⟩ := hitems x hx
    obtain ⟨label, optional, rest, type⟩ := x
    cases rest
    · cases label
      · simp only [ItemTerm.pieces, marked, Bool.false_eq_true, if_false, List.nil_append,
          List.append_assoc]
        exact hfirst _ (hfits.kindAt_mem _)
      · simp [ItemTerm.pieces, marked]
    · cases label <;> simp [ItemTerm.pieces, marked]
  · exact hg.tupleItem (hitems x hx) hkind (by omega)
  · exact .tuple hfound

theorem standingType [Quiet g] (hg : g.ReadsTypes n) (hfits : t.Fits m)
    (hdepth : k.depth + m ≤ maxDepth) (hrank : t.rank = 6)
    (hqs : Follows k [.ampersand, .bar, .openBracket] qs)
    (hlength : (t.pieces ++ qs).length ≤ n + 1) :
    g.standingType.Reads k (t.pieces ++ qs) qs t.Shows := by
  have hwithin {u : TypeTerm} (hu : u ∈ t.enclosed) : u.Within k := by
    obtain ⟨m', hlt, hu⟩ := hfits.whole hu
    exact ⟨m', hu, by omega⟩
  have hproper := hfits.proper
  rw [Productions.standingType]
  refine .current fun first hfirst => ?_
  have hkind := hfirst.kind
  cases t with
  | keyword word =>
    simp only [TypeTerm.pieces, List.cons_append, List.nil_append, kindAt_word] at hkind ⊢
    simp only [hkind]
    exact keywordType hproper (kindAt_ne hqs (by decide))
  | reference head tail args =>
    simp only [TypeTerm.pieces, List.cons_append, List.append_assoc, kindAt_word,
      piecesOfTypes_eq, List.length_cons, List.length_append] at hkind hlength ⊢
    simp only [hkind]
    refine hg.referenceType hproper.1 (fun u hu => hwithin hu) (kindAt_ne hqs (by decide))
      (kindAt_ne hqs (by decide)) ?_
    rw [List.length_append]
    omega
  | literal value =>
    simp only [TypeTerm.pieces, List.cons_append, List.nil_append, kindAt_string] at hkind ⊢
    simp only [hkind]
    refine .advance (.still fun span => .pure ?_)
    rw [hfirst.value]
    simp only [TypeTerm.pieces, List.cons_append, valueAt_string]
    exact .literal
  | parenthesized inner =>
    simp only [TypeTerm.pieces, List.cons_append, List.nil_append, List.append_assoc, kindAt_sign,
      List.length_cons] at hkind hlength ⊢
    simp only [hkind]
    have hinner := hwithin (List.mem_singleton_self inner)
    exact .advance ((hg.freeType hinner (kindAt_end (by decide)) (by omega)).bind fun type htype =>
      .expect (.still fun span => .pure (.parenthesized htype)))
  | tuple items =>
    simp only [TypeTerm.pieces, List.cons_append, List.nil_append, List.append_assoc, kindAt_sign,
      piecesOfItems_eq, List.length_cons] at hkind hlength ⊢
    simp only [hkind]
    exact hg.tupleType (fun x hx => hwithin (List.mem_map_of_mem hx)) rfl (by omega)
  | _ => exact absurd hrank (by simp [TypeTerm.rank])

/-! ### Suffixes, operators, intersections and unions -/

theorem suffixedType [Quiet g] (hg : g.ReadsTypes n) (hfits : t.Fits m)
    (hdepth : k.depth + m ≤ maxDepth) (hrank : 5 ≤ t.rank) (hqs : Follows k [.ampersand, .bar] qs)
    (hlength : (t.pieces ++ qs).length ≤ n + 1) :
    g.suffixedType.Reads k (t.pieces ++ qs) qs t.Shows := by
  obtain ⟨u, rest, hu, hufits, hsuffixed, hpieces⟩ := hfits.suffixed hrank
  rw [hpieces, List.append_assoc] at hlength ⊢
  have hbracket {ps : List Piece} :
      Follows k [.ampersand, .bar, .openBracket] (.sign .openBracket :: ps) :=
    .sign (show .openBracket ∈ typeEnds ++ _ by decide)
  have hbehind : Follows k [.ampersand, .bar, .openBracket] (rest ++ qs) := by
    cases hsuffixed with
    | refl => exact hqs.mono (by decide)
    | array => exact hbracket
    | indexed => exact hbracket
  have hpos := hufits.length_pos
  rw [Productions.suffixedType]
  refine .still fun start =>
    (hg.standingType hufits hdepth hu hbehind hlength).bind fun type htype => ?_
  -- the type that has been read becomes the whole one by the suffixes that are left
  refine reads_iterate (I := fun type ps => ∃ v rest, v.Shows type ∧ TypeTerm.Suffixed m v rest t ∧
    ps = rest ++ qs ∧ ps.length ≤ n) ?_ ⟨u, rest, htype, hsuffixed, rfl, ?_⟩
  · rintro type _ ⟨v, rest, hv, hsuffixed, rfl, hle⟩
    cases hsuffixed with
    | refl =>
      refine .inl (reads_isAfterBreak.mpr (.reject ?_ (.reject ?_ (.pure ⟨rfl, hv⟩))))
      · exact kindAt_ne hqs (by decide)
      · exact kindAt_ne hqs (by decide)
    | @array v _ rest hsuffixed =>
      simp only [List.cons_append, List.length_cons] at hle ⊢
      refine .inr ⟨rest ++ qs, by omega, reads_isAfterBreak.mpr (.accept (.accept ?_))⟩
      exact .still fun span => .pure ⟨rfl, _, rest, .array hv, hsuffixed, rfl, by omega⟩
    | @indexed v index _ rest hindex hsuffixed =>
      obtain ⟨m', hlt, hindex⟩ := hindex
      have hclose : ∀ kind ∈ typeStarts, kind ≠ .closeBracket := by decide
      simp only [List.cons_append, List.append_assoc, List.length_cons, List.length_append] at hle ⊢
      refine .inr ⟨rest ++ qs, by rw [List.length_append]; omega,
        reads_isAfterBreak.mpr (.accept (.reject (hclose _ (hindex.kindAt_mem _)) ?_))⟩
      have hread : g.freeType.Reads k (index.pieces ++ .sign .closeBracket :: (rest ++ qs))
          (.sign .closeBracket :: (rest ++ qs)) index.Shows := by
        refine hg.freeType ⟨m', hindex, by omega⟩ (kindAt_end (by decide)) ?_
        simp only [List.length_append, List.length_cons]
        omega
      refine hread.bind fun key hkey => .expect (.still fun span =>
        .pure ⟨rfl, _, rest, .indexed hv hkey, hsuffixed, rfl, ?_⟩)
      rw [List.length_append]
      omega
  · rw [List.length_append] at hlength
    omega

theorem typeOperator {op : TypeOperator} (hop : op ≠ .unique) :
    typeOperator?.Reads k (.word op.word :: ps) (.word op.word :: ps) (· = some op) := by
  rw [typeOperator?]
  cases op with
  | keyof => exact reads_isAtWord.mpr (.pure rfl)
  | readonly => exact reads_isAtWord.mpr (reads_isAtWord.mpr (.pure rfl))
  | unique => exact absurd rfl hop

theorem noTypeOperator (hkeyof : wordAt ps "keyof" = false)
    (hreadonly : wordAt ps "readonly" = false) (hunique : wordAt ps "unique" = false) :
    typeOperator?.Reads k ps ps (· = none) := by
  rw [typeOperator?]
  simp only [reads_isAtWord, reads_nextIsWord, hkeyof, hreadonly, hunique, Bool.false_and,
    Bool.false_eq_true, if_false]
  exact .pure rfl

/-- Behind an operator a type starts. -/
theorem operandFollows {p : Piece} (h : kindAt ps ∈ typeStarts) :
    operandFollows.Reads k (p :: ps) (p :: ps) (· = true) := by
  rw [Productions.operandFollows]
  refine .lookAhead (.advance (reads_isAtTypeEnd.mpr (reads_isAtAny.mpr (.pure ?_))))
  rw [List.tail_cons]
  generalize kindAt ps = first at h
  decide +revert

/-- What is read as a bound and turns out to belong to a conditional type is given back. -/
theorem inferBound [Quiet g] (hg : g.ReadsTypes n) {signs : List TokenKind}
    (hqs : Follows k signs qs) (hsigns : .identifier ∉ typeEnds ++ signs)
    (hlength : qs.length ≤ n) : g.inferBound.Reads k qs qs (· = none) := by
  rw [Productions.inferBound]
  cases hqs with
  | sign hkind =>
    have hword : kindAt qs ≠ .identifier := fun h => hsigns (h ▸ hkind)
    exact .attempt qs (.rejectWord (wordAt_of_kindAt hword) (.pure rfl))
  | @bound t rest hflag ht hrank =>
    rw [List.length_cons] at hlength
    have hbound : (withoutConditionals g.type).Reads k (t.pieces ++ .sign .question :: rest)
        (.sign .question :: rest) t.Shows :=
      .settingConditionals (hg.type ht (fun _ => hrank) (kindAt_end (by decide)) (by omega))
    refine .attempt (.sign .question :: rest) (.acceptWord (.get fun s hs =>
      hbound.bind fun found _ => reads_isAt.mpr ?_))
    rw [hs, hflag]
    exact .pure rfl

theorem operatedType [Quiet g] (hg : g.ReadsTypes n) (hfits : t.Fits m)
    (hdepth : k.depth + m ≤ maxDepth) (hrank : 4 ≤ t.rank) (hqs : Follows k [.ampersand, .bar] qs)
    (hlength : (t.pieces ++ qs).length ≤ n + 1) :
    g.operatedType.Reads k (t.pieces ++ qs) qs t.Shows := by
  have hproper := hfits.proper
  rw [Productions.operatedType]
  refine .still fun start => ?_
  by_cases hsuffixed : 5 ≤ t.rank
  · have hwords := hfits.wordAt_operator hsuffixed qs
    refine (noTypeOperator (hwords "keyof" (by decide)) (hwords "readonly" (by decide))
      (hwords "unique" (by decide))).then ?_
    simp only [pure_bind, reads_isAtWord, hwords "infer" (by decide), reads_nextIsIdentifierOnLine,
      Bool.false_and, Bool.false_eq_true, if_false]
    exact hg.suffixedType hfits hdepth hsuffixed hqs hlength
  cases t with
  | operator op operand =>
    obtain ⟨hop, hoperand⟩ := hproper
    have hfollows := (hfits.operand (List.mem_singleton_self operand))
    simp only [TypeTerm.pieces, List.cons_append, List.length_cons] at hlength ⊢
    refine (typeOperator hop).then ((operandFollows (hfollows.kindAt_mem qs)).then ?_)
    rw [if_pos rfl, pure_bind]
    exact .advance ((hg.operandType hfollows hdepth hoperand hqs (by omega)).bind fun type htype =>
      .still fun span => .pure (.operator htype))
  | infer name =>
    simp only [TypeTerm.pieces, List.cons_append, List.nil_append, List.length_cons] at hlength ⊢
    refine (noTypeOperator rfl rfl rfl).then ?_
    simp only [pure_bind, reads_isAtWord, wordAt_word, reads_nextIsIdentifierOnLine, List.tail_cons,
      kindAt_word, BEq.rfl, Bool.and_self, if_true]
    exact .advance (reads_identifier.bind fun found hfound =>
      (hg.inferBound hqs (by decide) (by omega)).then (.still fun span => .pure (hfound ▸ .infer)))
  | _ => exact absurd hrank (by simp_all [TypeTerm.rank])

section SignedList

variable {sign : TokenKind} {part : Parse TypeExpr} {make : List TypeExpr → TypeShape}

/-- A single part stays as it is. -/
theorem signedList_one {P : TypeExpr → Prop} (hps : kindAt ps ≠ sign) (hqs : kindAt qs ≠ sign)
    (hpart : part.Reads k ps qs P) : (signedList sign part make).Reads k ps qs P := by
  rw [signedList]
  refine .still fun start => .reject hps (hpart.bind fun type htype => reads_isAt.mpr ?_)
  rw [beq_false_of_ne hqs]
  exact .pure htype

/-- Several parts are read with a sign between each two. -/
theorem signedList_several {parts : List TypeTerm} (hparts : 2 ≤ parts.length)
    (hps : ∀ t ∈ parts, ∀ rs, kindAt (t.pieces ++ rs) ≠ sign) (hqs : kindAt qs ≠ sign)
    (hpart : ∀ t ∈ parts, ∀ rs, (rs = qs ∨ ∃ rest, rs = .sign sign :: rest) →
      (t.pieces ++ rs).length ≤ (parted sign (parts.map TypeTerm.pieces) ++ qs).length →
      part.Reads k (t.pieces ++ rs) rs t.Shows) :
    (signedList sign part make).Reads k (parted sign (parts.map TypeTerm.pieces) ++ qs) qs
      fun e => ∃ span types, e = ⟨span, make types⟩ ∧ List.Forall₂ TypeTerm.Shows parts types := by
  obtain ⟨t, u, others, rfl⟩ : ∃ t u others, parts = t :: u :: others := by
    match parts, hparts with
    | t :: u :: others, _ => exact ⟨t, u, others, rfl⟩
  have htokens : parted sign ((t :: u :: others).map TypeTerm.pieces) ++ qs =
      t.pieces ++ (led sign ((u :: others).map TypeTerm.pieces) ++ qs) := by
    simp [parted]
  rw [htokens] at hpart ⊢
  rw [signedList]
  refine .still fun start => .reject (hps t List.mem_cons_self _) ?_
  refine (hpart t List.mem_cons_self (led sign ((u :: others).map TypeTerm.pieces) ++ qs)
    (.inr ⟨_, rfl⟩) le_rfl).bind fun first hfirst => reads_isAt.mpr ?_
  have hled : kindAt (led sign ((u :: others).map TypeTerm.pieces) ++ qs) = sign := rfl
  rw [hled, beq_self_eq_true, if_pos rfl]
  refine (reads_led (S := TypeTerm.Shows) hqs fun v hv rs hrs hlt => ?_).bind fun rest hrest =>
    .still fun span => .pure ⟨span, first :: rest, rfl, .cons hfirst hrest⟩
  refine hpart v (List.mem_cons_of_mem t hv) rs hrs (Nat.le_trans (Nat.le_of_lt hlt) ?_)
  exact (List.suffix_append t.pieces _).length_le

end SignedList

theorem intersectionType [Quiet g] (hg : g.ReadsTypes n) (hfits : t.Fits m)
    (hdepth : k.depth + m ≤ maxDepth) (hrank : 3 ≤ t.rank) (hqs : Follows k [.bar] qs)
    (hlength : (t.pieces ++ qs).length ≤ n + 1) :
    g.intersectionType.Reads k (t.pieces ++ qs) qs t.Shows := by
  have hstart : ∀ kind ∈ typeStarts, kind ≠ .ampersand := by decide
  have hnot : kindAt qs ≠ .ampersand := kindAt_ne hqs (by decide)
  rw [Productions.intersectionType]
  by_cases hoperated : 4 ≤ t.rank
  · exact signedList_one (hstart _ (hfits.kindAt_mem qs)) hnot
      (hg.operatedType hfits hdepth hoperated (hqs.mono (by decide)) hlength)
  cases t with
  | intersection parts =>
    obtain ⟨hparts, hranks⟩ := hfits.proper
    rw [TypeTerm.pieces, piecesOfTypes_eq] at hlength ⊢
    refine (signedList_several hparts (fun u hu rs => ?_) hnot fun u hu rs hrs hle => ?_).mono ?_
    · exact hstart _ ((hfits.operand hu).kindAt_mem rs)
    · refine hg.operatedType (hfits.operand hu) hdepth (hranks u hu) ?_ (Nat.le_trans hle hlength)
      rcases hrs with rfl | ⟨rest, rfl⟩
      · exact hqs.mono (by decide)
      · exact .sign (show TokenKind.ampersand ∈ typeEnds ++ _ by decide)
    · rintro _ ⟨span, types, rfl, htypes⟩
      exact .intersection htypes
  | _ => exact absurd hrank (by simp_all [TypeTerm.rank])

theorem unionType [Quiet g] (hg : g.ReadsTypes n) (hfits : t.Fits m)
    (hdepth : k.depth + m ≤ maxDepth) (hrank : 2 ≤ t.rank) (hqs : Follows k [] qs)
    (hlength : (t.pieces ++ qs).length ≤ n + 1) :
    g.unionType.Reads k (t.pieces ++ qs) qs t.Shows := by
  have hstart : ∀ kind ∈ typeStarts, kind ≠ .bar := by decide
  have hnot : kindAt qs ≠ .bar := kindAt_ne hqs (by decide)
  rw [Productions.unionType]
  by_cases hsigned : 3 ≤ t.rank
  · exact signedList_one (hstart _ (hfits.kindAt_mem qs)) hnot
      (hg.intersectionType hfits hdepth hsigned (hqs.mono (by decide)) hlength)
  cases t with
  | union parts =>
    obtain ⟨hparts, hranks⟩ := hfits.proper
    rw [TypeTerm.pieces, piecesOfTypes_eq] at hlength ⊢
    refine (signedList_several hparts (fun u hu rs => ?_) hnot fun u hu rs hrs hle => ?_).mono ?_
    · exact hstart _ ((hfits.operand hu).kindAt_mem rs)
    · refine hg.intersectionType (hfits.operand hu) hdepth (hranks u hu) ?_
        (Nat.le_trans hle hlength)
      rcases hrs with rfl | ⟨rest, rfl⟩
      · exact hqs.mono (by decide)
      · exact .sign (show TokenKind.bar ∈ typeEnds ++ _ by decide)
    · rintro _ ⟨span, types, rfl, htypes⟩
      exact .union htypes
  | _ => exact absurd hrank (by simp_all [TypeTerm.rank])

end ReadsTypes

end Productions

end ApiSurface

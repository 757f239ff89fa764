import ApiSurface.Proofs.ReadTypeTerms
/-!
Whole types: function types, conditional types and what is bound more tightly. Productions that may
occur in themselves often enough read every type of the grammar.
-/
namespace ApiSurface.Productions.ReadsTypes

open Parse

variable {g : Productions} {n m : ℕ} {k : ParseContext} {t : TypeTerm} {ps qs : List Piece}

/-! ### Signatures -/

/-- Where some words for its variance do not stand, a type parameter starts with its name. -/
theorem typeParameter (hg : g.ReadsTypes n) {x : TypeParamTerm} (hx : ∀ t ∈ x.types, t.Within k)
    (hname : x.name ∉ ["const", "in", "out"]) {kind : TokenKind} (hkind : kind ∈ [.comma, .greater])
    (hlength : (x.pieces ++ .sign kind :: qs).length ≤ n) :
    g.typeParameter.Reads k (x.pieces ++ .sign kind :: qs) (.sign kind :: qs) x.Shows := by
  obtain ⟨name, bound, fallback⟩ := x
  have hbound : ∀ t ∈ bound.toList, t.Within k := fun t ht => hx t (List.mem_append_left _ ht)
  have hfallback : ∀ t ∈ fallback.toList, t.Within k := fun t ht =>
    hx t (List.mem_append_right _ ht)
  simp only [TypeParamTerm.pieces, List.cons_append, List.append_assoc,
    List.length_cons] at hlength ⊢
  have hends : [TokenKind.comma, .greater] ⊆ typeEnds := by decide
  have hother : ∀ kind ∈ [TokenKind.comma, .greater], kind ≠ .identifier ∧ kind ≠ .equals := by
    decide
  obtain ⟨hidentifier, hequals⟩ := hother kind hkind
  have hbehind : kindAt (piecesOfType? (.sign .equals) fallback ++ .sign kind :: qs) ∈ typeEnds ∧
      kindAt (piecesOfType? (.sign .equals) fallback ++ .sign kind :: qs) ≠ .identifier := by
    cases fallback with
    | none => exact ⟨hends hkind, hidentifier⟩
    | some t => exact ⟨kindAt_end (by decide), show TokenKind.equals ≠ _ by decide⟩
  rw [Productions.typeParameter, repeatWhile]
  refine (reads_iterate_none ?_).then (reads_identifier.bind fun found hfound => ?_)
  · have hstop : (kindAt (.word name :: (piecesOfType? (.word "extends") bound ++
        (piecesOfType? (.sign .equals) fallback ++ .sign kind :: qs))) == .identifier &&
        ["const", "in", "out"].contains name) = false := by
      rw [List.contains_eq_mem, decide_eq_false hname, Bool.and_false]
    simp only [bind_assoc, reads_isAtWords, valueAt_word, hstop, reads_nextIsIdentifierOnLine,
      Bool.false_and, Bool.false_eq_true, if_false, pure_bind]
    exact .pure rfl
  · refine (hg.optionalType hbound hbehind.1 (by omega) (fun _ => reads_acceptWord)
      (reads_rejectWord (wordAt_of_kindAt hbehind.2))).bind fun limit hlimit => ?_
    have hle := (List.suffix_append (piecesOfType? (.word "extends") bound)
      (piecesOfType? (.sign .equals) fallback ++ .sign kind :: qs)).length_le
    refine (hg.typeAfter hfallback (kindAt_end (hends hkind)) hequals (by omega)).bind
      fun type htype => .pure ?_
    exact hfound ▸ .intro hlimit htype

theorem typeParameters (hg : g.ReadsTypes n) {xs : List TypeParamTerm}
    (hxs : ∀ x ∈ xs, (∀ t ∈ x.types, t.Within k) ∧ x.name ∉ ["const", "in", "out"])
    (hless : kindAt qs ≠ .less)
    (hlength : (angled (xs.map TypeParamTerm.pieces) ++ qs).length ≤ n + 1) :
    g.typeParameters.Reads k (angled (xs.map TypeParamTerm.pieces) ++ qs) qs
      (List.Forall₂ TypeParamTerm.Shows xs) := by
  rw [Productions.typeParameters]
  cases xs with
  | nil => exact .reject hless (.pure .nil)
  | cons x xs =>
    have htokens : angled ((x :: xs).map TypeParamTerm.pieces) ++ qs = .sign .less ::
        (parted .comma ((x :: xs).map TypeParamTerm.pieces) ++ .sign .greater :: qs) := by
      simp [angled]
    rw [htokens, List.length_cons] at hlength
    rw [htokens]
    refine .accept ((reads_listUntil (S := TypeParamTerm.Shows) (by decide) (fun y _ rs => ?_)
      fun y hy kind hkind rs hle => ?_).bind fun found hfound => .expect (.pure hfound))
    · obtain ⟨name, bound, fallback⟩ := y
      rw [TypeParamTerm.pieces]
      exact (by decide : TokenKind.identifier ∉ [TokenKind.greater, .endOfFile])
    · exact hg.typeParameter (hxs y hy).1 (hxs y hy).2 hkind (by omega)

/-- A word before a parameter is none of its modifiers if it is the parameter itself. -/
theorem noModifiers {words : List (String × Modifier)} {mayFollow : TokenKind → Bool}
    (h : kindAt ps = .identifier → mayFollow (kindAt ps.tail) = false) :
    (modifiersOf words mayFollow).Reads k ps ps (· = []) := by
  rw [modifiersOf]
  refine reads_iterate_none (.current fun t ht => ?_)
  split
  · next word m hfound =>
    have hword : t.isWord word = true := (List.find?_eq_some_iff_append.mp hfound).1
    rw [ht.isWord, wordAt, Bool.and_eq_true, beq_iff_eq] at hword
    refine .peek fun after hafter => ?_
    rw [hafter.kind, h hword.1, if_neg Bool.false_ne_true]
    exact .pure rfl
  · exact .pure rfl

theorem noDecorators (h : kindAt ps ≠ .at_) : g.decorators.Reads k ps ps (· = ()) := by
  rw [decorators, repeatWhile]
  refine reads_iterate_none ?_
  rw [bind_assoc]
  exact .reject h (.pure rfl)

/-- A parameter has no decorators, no modifiers and no initializer. -/
theorem parameter (hg : g.ReadsTypes n) {x : ParamTerm} (hx : ∀ t ∈ x.types, t.Within k)
    {kind : TokenKind} (hkind : kind ∈ [.comma, .closeParen])
    (hlength : (x.pieces ++ .sign kind :: qs).length ≤ n + 1) :
    g.parameter.Reads k (x.pieces ++ .sign kind :: qs) (.sign kind :: qs) x.Shows := by
  obtain ⟨name, optional, rest, type⟩ := x
  have htype : ∀ t ∈ type.toList, t.Within k := hx
  have hends : [TokenKind.comma, .closeParen] ⊆ typeEnds := by decide
  have hother : ∀ kind ∈ [TokenKind.comma, .closeParen], kind ≠ .question ∧ kind ≠ .colon ∧
      kind ≠ .equals ∧ goesOnParameter kind = false := by decide
  obtain ⟨hquestion, hcolon, hequals, hmodifier⟩ := hother kind hkind
  -- what may stand behind the name, and behind the question mark
  have hcolonNext : kindAt (piecesOfType? (.sign .colon) type ++ .sign kind :: qs) ≠ .question ∧
      goesOnParameter (kindAt (piecesOfType? (.sign .colon) type ++ .sign kind :: qs)) = false := by
    cases type with
    | none => exact ⟨hquestion, hmodifier⟩
    | some t => exact ⟨show TokenKind.colon ≠ _ by decide, rfl⟩
  have hnext : goesOnParameter (kindAt (marked .question optional ++
      (piecesOfType? (.sign .colon) type ++ .sign kind :: qs))) = false := by
    cases optional with
    | true => rfl
    | false => exact hcolonNext.2
  simp only [ParamTerm.pieces, List.cons_append, List.append_assoc, List.length_append,
    List.length_cons] at hlength ⊢
  rw [Productions.parameter]
  have hname : TokenKind.identifier ≠ .ellipsis := by decide
  refine (noDecorators ?_).then (.still fun start => (noModifiers ?_).then (acceptMarked hname ?_))
  · cases rest with
    | true => exact show TokenKind.ellipsis ≠ _ by decide
    | false => exact show TokenKind.identifier ≠ _ by decide
  · cases rest with
    | true => exact fun h => absurd h (show TokenKind.ellipsis ≠ _ by decide)
    | false => exact fun _ => hnext
  have hplain : [TokenKind.openBrace, .openBracket].contains .identifier = false := rfl
  rw [reads_isAtAny, kindAt_word, hplain]
  refine reads_identifier.bind fun found hfound => acceptMarked hcolonNext.1 ?_
  refine (hg.typeAfter htype (kindAt_end (hends hkind)) hcolon ?_).bind fun result hresult => ?_
  · simp only [List.length_append, List.length_cons]
    omega
  · have hinitial : kindAt (.sign kind :: qs) ≠ .equals := hequals
    refine (reads_never hinitial).then (.still fun span => .pure ?_)
    exact hfound ▸ .intro hresult

theorem parameters (hg : g.ReadsTypes n) {xs : List ParamTerm}
    (hxs : ∀ x ∈ xs, ∀ t ∈ x.types, t.Within k)
    (hlength : (parted .comma (xs.map ParamTerm.pieces) ++ .sign .closeParen :: qs).length ≤ n) :
    g.parameters.Reads k
      (.sign .openParen :: (parted .comma (xs.map ParamTerm.pieces) ++ .sign .closeParen :: qs)) qs
      (List.Forall₂ ParamTerm.Shows xs) := by
  rw [Productions.parameters]
  refine .expect ((reads_listUntil (S := ParamTerm.Shows) (by decide) (fun x _ rs => ?_)
    fun x hx kind hkind rs hle => ?_).bind fun found hfound => .expect (.pure hfound))
  · obtain ⟨name, optional, rest, type⟩ := x
    rw [ParamTerm.pieces]
    cases rest with
    | true => exact (by decide : TokenKind.ellipsis ∉ [TokenKind.closeParen, .endOfFile])
    | false => exact (by decide : TokenKind.identifier ∉ [TokenKind.closeParen, .endOfFile])
  · exact hg.parameter (hxs x hx) hkind (by omega)

/-- The result of a function type is a type and no predicate. -/
theorem resultType (hg : g.ReadsTypes n) (ht : t.Within k) (hqs : kindAt qs ∈ typeEnds)
    (hlength : (t.pieces ++ qs).length ≤ n) :
    g.resultType.Reads k (t.pieces ++ qs) qs t.Shows := by
  have ⟨m, hfits, _⟩ := ht
  have hasserts : wordAt (t.pieces ++ qs) "asserts" = false :=
    hfits.wordAt_start qs "asserts" (by decide)
  have hpredicate : (kindAt (t.pieces ++ qs) == .identifier &&
      wordAt (t.pieces ++ qs).tail "is") = false := by
    by_cases hword : kindAt (t.pieces ++ qs) = .identifier
    · obtain ⟨name, rest, hpieces, -⟩ := hfits.word_of_kindAt hword
      rw [hpieces]
      cases rest with
      | nil => exact wordAt_of_kindAt ((by decide : ∀ kind ∈ typeEnds, kind ≠ .identifier) _ hqs)
      | cons p rest => exact (hfits.goesOn hpieces).wordAt _
    · rw [beq_false_of_ne hword, Bool.false_and]
  rw [Productions.resultType]
  refine .still fun start => ?_
  simp only [reads_isAtWord, hasserts, reads_nextIsIdentifierOnLine, Bool.false_and]
  refine .peek fun after hafter => ?_
  rw [reads_isAtIdentifier]
  simp only [hafter.isWord, hpredicate, Bool.false_and, Bool.false_or, Bool.false_eq_true, if_false]
  exact hg.freeType ht hqs hlength

/-- The tokens of a function type. -/
theorem functionSignature (hg : g.ReadsTypes n) {typeParams : List TypeParamTerm}
    {params : List ParamTerm} {result : TypeTerm}
    (hproper : (TypeTerm.function typeParams params result).Proper)
    (hwithin : ∀ u ∈ (TypeTerm.function typeParams params result).enclosed, u.Within k)
    (hqs : kindAt qs ∈ typeEnds)
    (hlength : ((TypeTerm.function typeParams params result).pieces ++ qs).length ≤ n + 1) :
    g.arrowSignature.Reads k ((TypeTerm.function typeParams params result).pieces ++ qs) qs
      fun signature => ∃ generics inputs type, signature = ⟨generics, inputs, some type⟩ ∧
        List.Forall₂ TypeParamTerm.Shows typeParams generics ∧
        List.Forall₂ ParamTerm.Shows params inputs ∧ result.Shows type := by
  simp only [TypeTerm.enclosed, List.forall_mem_append, List.forall_mem_flatMap,
    List.forall_mem_singleton] at hwithin
  obtain ⟨⟨htypeParams, hparams⟩, hresult⟩ := hwithin
  simp only [TypeTerm.pieces, piecesOfTypeParams_eq, piecesOfParams_eq, List.append_assoc,
    List.cons_append, List.nil_append] at hlength ⊢
  rw [Productions.arrowSignature]
  have hless (ps : List Piece) : kindAt (.sign .openParen :: ps) ≠ .less :=
    show TokenKind.openParen ≠ .less by decide
  refine (hg.typeParameters (fun x hx => ⟨htypeParams x hx, (hproper.1 x hx).2⟩) (hless _)
    hlength).bind fun generics hgenerics => ?_
  simp only [List.length_append, List.length_cons] at hlength
  refine (hg.parameters hparams ?_).bind fun inputs hinputs => .expect
    ((hg.resultType hresult hqs ?_).bind fun type htype =>
      .pure ⟨generics, inputs, type, rfl, hgenerics, hinputs, htype⟩)
  all_goals
    simp only [List.length_append, List.length_cons]
    omega

/-! ### Function and conditional types -/

/-- A function type starts with its type parameters, or with a group that an arrow follows. -/
theorem isAtFunction {typeParams : List TypeParamTerm} {params : List ParamTerm}
    {result : TypeTerm} (hfits : (TypeTerm.function typeParams params result).Fits m) :
    let ps := (TypeTerm.function typeParams params result).pieces ++ qs
    isAtFunctionType.Reads k ps ps (· = true) := by
  rw [isAtFunctionType]
  dsimp only
  simp only [TypeTerm.pieces, piecesOfTypeParams_eq, piecesOfParams_eq, List.append_assoc,
    List.cons_append, List.nil_append]
  cases typeParams with
  | cons x xs => exact reads_isAt.mpr (.pure rfl)
  | nil =>
    refine reads_isAt.mpr (reads_isAt.mpr ?_)
    exact .lookAhead ((reads_skipBalanced hfits.grouped_params.afterGroup_parens).bind
      fun _ _ => tells_isAt.reads)

theorem notAtFunction (hfits : t.Fits m) (hrank : t.rank ≠ 1) (hqs : kindAt qs ≠ .arrow) :
    isAtFunctionType.Reads k (t.pieces ++ qs) (t.pieces ++ qs) (· = false) := by
  obtain ⟨p, rest, hpieces, hstarts⟩ := hfits.starts hrank
  have hless : kindAt (t.pieces ++ qs) ≠ .less := by
    rw [hpieces]
    cases p with
    | word name => exact nofun
    | string value => exact nofun
    | sign kind => rcases hstarts with rfl | rfl <;> exact nofun
  rw [isAtFunctionType, reads_isAt, beq_false_of_ne hless, if_neg Bool.false_ne_true, reads_isAt]
  by_cases hparen : kindAt (t.pieces ++ qs) = .openParen
  · have hgroup : kindAt t.pieces = .openParen := by
      rw [hpieces] at hparen ⊢
      exact hparen
    obtain ⟨rs, hafter, harrow⟩ := hfits.afterGroup hrank hgroup hqs
    rw [hparen]
    refine .lookAhead ((reads_skipBalanced hafter).bind fun _ _ =>
      tells_isAt.reads.mono fun found h => ?_)
    rw [h, beq_false_of_ne harrow]
  · rw [beq_false_of_ne hparen]
    exact .pure rfl

theorem branches (hg : g.ReadsTypes n) {whenTrue whenFalse : TypeTerm} (htrue : whenTrue.Within k)
    (hfalse : whenFalse.Within k) (hqs : kindAt qs ∈ typeEnds)
    (hlength : (whenTrue.pieces ++ .sign .colon :: (whenFalse.pieces ++ qs)).length ≤ n) :
    g.branches.Reads k
      (.sign .question :: (whenTrue.pieces ++ .sign .colon :: (whenFalse.pieces ++ qs))) qs
      fun found => ∃ yes no, found = (some yes, some no) ∧ whenTrue.Shows yes ∧
        whenFalse.Shows no := by
  have hle : (whenFalse.pieces ++ qs).length ≤ n := by
    rw [List.length_append, List.length_cons] at hlength
    omega
  rw [Productions.branches]
  refine .expect ((hg.freeType htrue (kindAt_end (by decide)) hlength).bind fun yes hyes => ?_)
  rw [whenever, bind_assoc]
  refine .expect ?_
  rw [if_pos rfl, bind_assoc]
  exact (hg.freeType hfalse hqs hle).bind fun no hno => .pure ⟨yes, no, rfl, hyes, hno⟩

theorem typeForm [Quiet g] (hg : g.ReadsTypes n) (hfits : t.Fits m)
    (hdepth : k.depth + m ≤ maxDepth) (hconditional : k.withoutConditionals = true → 1 ≤ t.rank)
    (hqs : kindAt qs ∈ typeEnds) (hlength : (t.pieces ++ qs).length ≤ n + 1) :
    g.typeForm.Reads k (t.pieces ++ qs) qs t.Shows := by
  have hwithin {u : TypeTerm} (hu : u ∈ t.enclosed) : u.Within k := by
    obtain ⟨m', hlt, hu⟩ := hfits.whole hu
    exact ⟨m', hu, by omega⟩
  have hends : ∀ kind ∈ typeEnds, kind ≠ .arrow ∧ kind ≠ .identifier := by decide
  obtain ⟨harrow, hidentifier⟩ := hends _ hqs
  rw [Productions.typeForm]
  refine .still fun start => ?_
  by_cases hfunction : t.rank = 1
  · cases t with
    | function typeParams params result =>
      refine (isAtFunction hfits).then ((hg.functionSignature hfits.proper (fun u hu => hwithin hu)
        hqs hlength).bind fun signature hsignature => .still fun span => .pure ?_)
      obtain ⟨generics, inputs, type, rfl, hgenerics, hinputs, htype⟩ := hsignature
      exact .function hgenerics hinputs htype
    | _ => exact absurd hfunction (by simp [TypeTerm.rank])
  refine (notAtFunction hfits hfunction harrow).then ?_
  simp only [reads_isAtWord, reads_nextIsWord, hfits.wordAt_start qs "new" (by decide),
    hfits.wordAt_start qs "abstract" (by decide), Bool.false_and, Bool.or_self, Bool.false_eq_true,
    if_false]
  by_cases hunion : 2 ≤ t.rank
  · have hfollows : Follows k [] qs := .sign (by simpa using hqs)
    refine (hg.unionType hfits hdepth hunion hfollows hlength).bind fun type htype =>
      .get fun s _ => ?_
    simp only [reads_isAfterBreak, reads_isAtWord, wordAt_of_kindAt hidentifier, Bool.not_false,
      Bool.or_true, if_true]
    exact .pure htype
  cases t with
  | conditional check bound whenTrue whenFalse =>
    obtain ⟨hcheck, hbound⟩ := hfits.proper
    have hflag : k.withoutConditionals = false :=
      Bool.eq_false_iff.mpr fun h => absurd (hconditional h) (by simp [TypeTerm.rank])
    have hboundWithin : bound.Within k := hwithin (by simp [TypeTerm.enclosed])
    simp only [TypeTerm.pieces, List.append_assoc, List.cons_append] at hlength ⊢
    refine (hg.unionType (hfits.operand (List.mem_singleton_self check)) hdepth hcheck
      (.bound hflag hboundWithin hbound) hlength).bind fun checked hchecked => .get fun s hs => ?_
    simp only [reads_isAfterBreak, reads_isAtWord, wordAt_word, hs, hflag, BEq.rfl, Bool.not_true,
      Bool.or_self, Bool.false_eq_true, if_false]
    simp only [List.length_append, List.length_cons] at hlength
    refine .advance ?_
    have hlimit : (withoutConditionals g.type).Reads k (bound.pieces ++ .sign .question ::
        (whenTrue.pieces ++ .sign .colon :: (whenFalse.pieces ++ qs)))
        (.sign .question :: (whenTrue.pieces ++ .sign .colon :: (whenFalse.pieces ++ qs)))
        bound.Shows := by
      refine .settingConditionals
        (hg.type hboundWithin (fun _ => hbound) (kindAt_end (by decide)) ?_)
      simp only [List.length_append, List.length_cons]
      omega
    refine hlimit.bind fun limit hlimit => (hg.branches (hwithin (by simp [TypeTerm.enclosed]))
      (hwithin (by simp [TypeTerm.enclosed])) hqs ?_).bind fun found hfound => ?_
    · simp only [List.length_append, List.length_cons]
      omega
    obtain ⟨yes, no, rfl, hyes, hno⟩ := hfound
    exact .still fun span => .pure (.conditional hchecked hlimit hyes hno)
  | _ => exact absurd hunion (by simp_all [TypeTerm.rank])

theorem typeProduction [Quiet g] (hg : g.ReadsTypes n) (ht : t.Within k)
    (hconditional : k.withoutConditionals = true → 1 ≤ t.rank) (hqs : kindAt qs ∈ typeEnds)
    (hlength : (t.pieces ++ qs).length ≤ n + 1) :
    g.typeProduction.Reads k (t.pieces ++ qs) qs t.Shows := by
  obtain ⟨m, hfits, hdepth⟩ := ht
  rw [Productions.typeProduction]
  refine .still fun start => .nested (by omega) (hg.typeForm hfits ?_ hconditional hqs hlength)
  show k.depth + 1 + m ≤ maxDepth
  omega

/-- Productions around ones that read types read types from one token more. -/
theorem around [Quiet g] (hg : g.ReadsTypes n) : g.around.ReadsTypes (n + 1) where
  type ht hconditional hqs hlength := hg.typeProduction ht hconditional hqs hlength
  operandType hfits hdepth hrank hqs hlength := hg.operatedType hfits hdepth hrank hqs hlength

/-- Productions that may occur in themselves `n` levels deep read types of at most `n` tokens. -/
theorem ofDepth (n : ℕ) : (Productions.ofDepth n).ReadsTypes n := by
  induction n with
  | zero =>
    -- a type has at least one token
    have hnone {t : TypeTerm} {m : ℕ} {qs : List Piece} (h : t.Fits m)
        (hlength : (t.pieces ++ qs).length ≤ 0) : False := by
      have hpos := h.length_pos
      rw [List.length_append] at hlength
      omega
    exact ⟨fun ⟨_, hfits, _⟩ _ _ hlength => (hnone hfits hlength).elim,
      fun hfits _ _ _ hlength => (hnone hfits hlength).elim⟩
  | succ n ih => exact ih.around

end ApiSurface.Productions.ReadsTypes

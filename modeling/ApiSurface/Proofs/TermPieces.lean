import ApiSurface.Proofs.TypeTerms
import ApiSurface.Proofs.ReadingPieces
/-!
How the tokens of a type begin and which brackets they open and close.
-/
namespace ApiSurface

/-- A token that a type may begin with. -/
def Piece.StartsType : Piece → Prop
  | .word name => name ∉ ["abstract", "asserts", "extends", "is", "new"]
  | .string _ => True
  | .sign kind => kind = .openParen ∨ kind = .openBracket

/-- The kinds of token that types begin with. -/
def typeStarts : List TokenKind := [.identifier, .string, .openParen, .openBracket, .less]

/-- A token that may stand behind the first word of a type: it makes the word no label and no
parameter of a predicate. -/
def Piece.GoesOn (p : Piece) : Prop := p.kind ≠ .colon ∧ p.kind ≠ .question ∧ p ≠ .word "is"

theorem Piece.GoesOn.wordAt {p : Piece} (h : p.GoesOn) (ps : List Piece) :
    wordAt (p :: ps) "is" = false := by
  cases p with
  | word name =>
    have hne : name ≠ "is" := fun hname => h.2.2 (congrArg Piece.word hname)
    simp [hne]
  | string value => rfl
  | sign kind => exact Bool.and_false _

theorem Piece.StartsType.goesOn {p : Piece} (h : p.StartsType) : p.GoesOn := by
  cases p with
  | word name =>
    refine ⟨nofun, nofun, fun hname => ?_⟩
    obtain rfl := Piece.word.inj hname
    exact h (by decide)
  | string value => exact ⟨nofun, nofun, nofun⟩
  | sign kind => rcases h with rfl | rfl <;> exact ⟨nofun, nofun, nofun⟩

/-- A token that goes on a type behind its first part. -/
def joints : List Piece := [.sign .openBracket, .sign .ampersand, .sign .bar, .word "extends"]

namespace TypeTerm

variable {n : ℕ} {t u : TypeTerm}

/-- Terms that fit are built from terms that do. -/
theorem Fits.rec_parts {P : TypeTerm → Prop} (hstep : ∀ {n t}, t.Fits n → (∀ u ∈ t.operands, P u) →
    (∀ u ∈ t.enclosed, P u) → P t) (h : t.Fits n) : P t := by
  induction h with
  | flat hproper hoperands hflat ihoperands =>
    refine hstep (.flat hproper hoperands hflat) ihoperands fun u hu => ?_
    rw [hflat] at hu
    exact absurd hu List.not_mem_nil
  | nested hproper hoperands henclosed ihoperands ihenclosed =>
    exact hstep (.nested hproper hoperands henclosed) ihoperands ihenclosed

theorem Fits.proper (h : t.Fits n) : t.Proper := by
  cases h <;> assumption

theorem Fits.operand (h : t.Fits n) (hu : u ∈ t.operands) : u.Fits n := by
  cases h with
  | flat _ hoperands => exact hoperands u hu
  | nested _ hoperands => exact hoperands u hu

theorem Fits.whole (h : t.Fits n) (hu : u ∈ t.enclosed) : ∃ m < n, u.Fits m := by
  cases h with
  | flat _ _ hflat =>
    rw [hflat] at hu
    exact absurd hu List.not_mem_nil
  | nested _ _ henclosed => exact ⟨_, Nat.lt_succ_self _, henclosed u hu⟩

/-! ### How types begin -/

/-- The part that a term begins with, if it has no token before it. -/
def leading : TypeTerm → Option TypeTerm
  | .array item => some item
  | .indexed object _ => some object
  | .intersection parts => parts.head?
  | .union parts => parts.head?
  | .conditional check .. => some check
  | _ => none

/-- The part that a term begins with is no function, and is followed by a joint. -/
theorem Proper.leading (h : t.Proper) (hu : t.leading = some u) :
    u ∈ t.operands ∧ 2 ≤ u.rank ∧ ∃ p ∈ joints, ∃ rest, t.pieces = u.pieces ++ p :: rest := by
  have hparts (sign : TokenKind) {parts : List TypeTerm} (hlength : 2 ≤ parts.length)
      (hu : parts.head? = some u) : u ∈ parts ∧ ∃ rest,
        parted sign (piecesOfTypes parts) = u.pieces ++ .sign sign :: rest := by
    obtain _ | ⟨v, _ | ⟨w, parts⟩⟩ := parts
    · exact absurd hlength (by decide)
    · exact absurd hlength (by simp)
    obtain rfl := Option.some.inj hu
    refine ⟨List.mem_cons_self, w.pieces ++ led sign (piecesOfTypes parts), ?_⟩
    simp [piecesOfTypes, parted, led]
  cases t with
  | array item =>
    obtain rfl := Option.some.inj hu
    exact ⟨List.mem_singleton_self _, Nat.le_trans (by decide) h, .sign .openBracket,
      by decide, _, by rw [pieces]⟩
  | indexed object index =>
    obtain rfl := Option.some.inj hu
    exact ⟨List.mem_singleton_self _, Nat.le_trans (by decide) h, .sign .openBracket,
      by decide, _, by rw [pieces, List.append_assoc, List.cons_append]⟩
  | intersection parts =>
    obtain ⟨hlength, hrank⟩ := h
    obtain ⟨hmem, rest, hpieces⟩ := hparts .ampersand hlength hu
    exact ⟨hmem, Nat.le_trans (by decide) (hrank u hmem), .sign .ampersand, by decide, rest,
      by rw [pieces, hpieces]⟩
  | union parts =>
    obtain ⟨hlength, hrank⟩ := h
    obtain ⟨hmem, rest, hpieces⟩ := hparts .bar hlength hu
    exact ⟨hmem, Nat.le_trans (by decide) (hrank u hmem), .sign .bar, by decide, rest,
      by rw [pieces, hpieces]⟩
  | conditional check bound whenTrue whenFalse =>
    obtain rfl := Option.some.inj hu
    exact ⟨List.mem_singleton_self _, h.1, .word "extends", by decide, _,
      by rw [pieces, List.append_assoc, List.append_assoc]; rfl⟩
  | _ => cases hu

/-- A type that begins with a token of its own. -/
theorem Proper.head (h : t.Proper) (hlead : t.leading = none) (hrank : t.rank ≠ 1) :
    ∃ p rest, t.pieces = p :: rest ∧ p.StartsType := by
  -- no word with a meaning at the start of a type is the name of one
  have hname {name : String} (hname : IsTypeName name) : (Piece.word name).StartsType := by
    intro hmem
    have hsub : ["abstract", "asserts", "extends", "is", "new"] ⊆ typeWords := by decide
    exact hname.notWord (hsub hmem)
  cases t with
  | keyword word =>
    have hall : ∀ word ∈ Productions.keywordTypes, (Piece.word word).StartsType := by
      unfold Piece.StartsType
      decide
    exact ⟨_, _, by rw [pieces], hall word h⟩
  | reference head tail args => exact ⟨_, _, by rw [pieces, List.cons_append], hname h.1⟩
  | literal value => exact ⟨.string value, _, by rw [pieces], trivial⟩
  | operator op operand =>
    refine ⟨_, _, by rw [pieces], ?_⟩
    unfold Piece.StartsType
    cases op <;> decide
  | infer name =>
    refine ⟨.word "infer", _, by rw [pieces], ?_⟩
    unfold Piece.StartsType
    decide
  | parenthesized inner => exact ⟨.sign .openParen, _, by rw [pieces, List.cons_append], .inl rfl⟩
  | tuple items => exact ⟨.sign .openBracket, _, by rw [pieces, List.cons_append], .inr rfl⟩
  | intersection parts | union parts =>
    have hlength := h.1
    rw [List.head?_eq_none_iff.mp hlead] at hlength
    exact absurd hlength (by decide)
  | function typeParams params result => exact absurd rfl hrank
  | _ => exact absurd hlead nofun

/-- A type other than a function type begins with a word, a string, a parenthesis or a bracket. -/
theorem Fits.starts (h : t.Fits n) (hrank : t.rank ≠ 1) :
    ∃ p rest, t.pieces = p :: rest ∧ p.StartsType := by
  revert hrank
  refine h.rec_parts (P := fun t => t.rank ≠ 1 → ∃ p rest, t.pieces = p :: rest ∧ p.StartsType)
    fun {n t} h ihoperands _ hrank => ?_
  cases hlead : t.leading with
  | some u =>
    obtain ⟨hmem, hle, p, -, rest, hpieces⟩ := h.proper.leading hlead
    obtain ⟨q, before, hu, hstarts⟩ := ihoperands u hmem (Nat.ne_of_gt hle)
    exact ⟨q, _, by rw [hpieces, hu, List.cons_append], hstarts⟩
  | none => exact h.proper.head hlead hrank

/-- A function type may also begin with its type parameters. -/
theorem Fits.begins (h : t.Fits n) :
    ∃ p rest, t.pieces = p :: rest ∧ (p.StartsType ∨ p = .sign .less) := by
  by_cases hrank : t.rank = 1
  · cases t with
    | function typeParams params result =>
      cases typeParams with
      | nil => exact ⟨.sign .openParen, _, by rw [pieces]; rfl, .inl (.inl rfl)⟩
      | cons x xs => exact ⟨.sign .less, _, by rw [pieces]; rfl, .inr rfl⟩
    | _ => exact absurd hrank (by simp [rank])
  · obtain ⟨p, rest, hpieces, hstarts⟩ := h.starts hrank
    exact ⟨p, rest, hpieces, .inl hstarts⟩

theorem Fits.kindAt_mem (h : t.Fits n) (qs : List Piece) :
    kindAt (t.pieces ++ qs) ∈ typeStarts := by
  obtain ⟨p, rest, hpieces, hstarts | rfl⟩ := h.begins
  all_goals rw [hpieces, List.cons_append]
  · cases p with
    | word name => exact (by decide : TokenKind.identifier ∈ typeStarts)
    | string value => exact (by decide : TokenKind.string ∈ typeStarts)
    | sign kind => rcases hstarts with rfl | rfl <;> simp [typeStarts]
  · exact (by decide : TokenKind.less ∈ typeStarts)

theorem Fits.length_pos (h : t.Fits n) : 0 < t.pieces.length := by
  refine List.length_pos_iff.mpr fun hnil => ?_
  have hmem := h.kindAt_mem []
  rw [hnil] at hmem
  exact absurd hmem (by decide)

theorem Fits.word_of_kindAt (h : t.Fits n) {qs : List Piece}
    (hword : kindAt (t.pieces ++ qs) = .identifier) :
    ∃ name rest, t.pieces = .word name :: rest ∧ (Piece.word name).StartsType := by
  obtain ⟨p, rest, hpieces, hstarts⟩ := h.begins
  rw [hpieces] at hword
  cases p with
  | word name => exact ⟨name, rest, hpieces, hstarts.resolve_right nofun⟩
  | string value => exact absurd hword nofun
  | sign kind =>
    rcases hstarts with (rfl | rfl) | hless
    · exact absurd hword nofun
    · exact absurd hword nofun
    · cases hless
      exact absurd hword nofun

/-- No type begins with a word that introduces something else. -/
theorem Fits.wordAt_start (h : t.Fits n) (qs : List Piece) :
    ∀ word ∈ ["abstract", "asserts", "extends", "is", "new"],
      wordAt (t.pieces ++ qs) word = false := by
  intro word hword
  by_cases hkind : kindAt (t.pieces ++ qs) = .identifier
  · obtain ⟨name, rest, hpieces, hstarts⟩ := h.word_of_kindAt hkind
    have hne : name ≠ word := by
      rintro rfl
      exact hstarts hword
    simp [hpieces, hne]
  · exact wordAt_of_kindAt hkind

/-- Behind the first word of a type goes on what makes it neither a label nor a parameter of a
predicate. -/
theorem Fits.goesOn (h : t.Fits n) {name : String} {p : Piece} {rest : List Piece}
    (hpieces : t.pieces = .word name :: p :: rest) : p.GoesOn := by
  have hsign : ∀ kind ∈ [TokenKind.dot, .less], (Piece.sign kind).GoesOn := by
    unfold Piece.GoesOn
    decide
  revert name p rest
  refine h.rec_parts (P := fun t => ∀ {name : String} {p : Piece} {rest : List Piece},
    t.pieces = .word name :: p :: rest → p.GoesOn)
    fun {n t} h ihoperands _ {name p rest} hpieces => ?_
  cases hlead : t.leading with
  | some u =>
    obtain ⟨hmem, hle, q, hq, after, hu⟩ := h.proper.leading hlead
    obtain ⟨first, before, hfirst, -⟩ := (h.operand hmem).starts (Nat.ne_of_gt hle)
    rw [hu, hfirst, List.cons_append] at hpieces
    obtain ⟨rfl, hrest⟩ := List.cons.inj hpieces
    cases before with
    | nil =>
      obtain ⟨rfl, -⟩ := List.cons.inj hrest
      have hall : ∀ q ∈ joints, q.GoesOn := by
        unfold Piece.GoesOn
        decide
      exact hall q hq
    | cons second before =>
      obtain ⟨rfl, -⟩ := List.cons.inj hrest
      exact ihoperands u hmem hfirst
  | none =>
    cases t with
    | reference head tail args =>
      rw [pieces, List.cons_append] at hpieces
      obtain ⟨-, hrest⟩ := List.cons.inj hpieces
      cases tail with
      | cons name names =>
        obtain ⟨rfl, -⟩ := List.cons.inj hrest
        exact hsign .dot (by decide)
      | nil =>
        cases args with
        | nil => cases hrest
        | cons arg args =>
          obtain ⟨rfl, -⟩ := List.cons.inj hrest
          exact hsign .less (by decide)
    | operator op operand =>
      have hrank : 4 ≤ operand.rank := h.proper.2
      obtain ⟨q, before, hoperand, hstarts⟩ :=
        (h.operand (List.mem_singleton_self operand)).starts (by omega)
      rw [pieces, hoperand] at hpieces
      obtain ⟨rfl, -⟩ := List.cons.inj (List.cons.inj hpieces).2
      exact hstarts.goesOn
    | infer name =>
      rw [pieces] at hpieces
      obtain ⟨rfl, -⟩ := List.cons.inj (List.cons.inj hpieces).2
      refine ⟨by simp [Piece.kind], by simp [Piece.kind], fun his => ?_⟩
      obtain rfl := Piece.word.inj his
      exact IsTypeName.notWord h.proper (by decide)
    | intersection parts | union parts =>
      rw [pieces, List.head?_eq_none_iff.mp hlead] at hpieces
      cases hpieces
    | function typeParams params result =>
      cases typeParams <;> exact absurd hpieces (by simp [pieces, angled, piecesOfTypeParams])
    | keyword | literal | parenthesized | tuple => exact absurd hpieces (by simp [pieces])
    | _ => cases hlead

end TypeTerm

/-! ### Brackets -/

/-- Signs that are no brackets. -/
def plainSigns : List TokenKind :=
  [.dot, .ellipsis, .semicolon, .comma, .less, .greater, .equals, .arrow, .question, .colon, .bar,
    .ampersand]

/-- Tokens that can be written and in which brackets stand in pairs. -/
inductive Grouped : List Piece → Prop
  | nil : Grouped []
  | word {name : String} {ps : List Piece} : IsName name → Grouped ps → Grouped (.word name :: ps)
  | string {value : String} {ps : List Piece} : Grouped ps → Grouped (.string value :: ps)
  | sign {kind : TokenKind} {ps : List Piece} : kind ∈ plainSigns → Grouped ps →
      Grouped (.sign kind :: ps)
  | parens {ps qs : List Piece} : Grouped ps → Grouped qs →
      Grouped (.sign .openParen :: (ps ++ .sign .closeParen :: qs))
  | brackets {ps qs : List Piece} : Grouped ps → Grouped qs →
      Grouped (.sign .openBracket :: (ps ++ .sign .closeBracket :: qs))

namespace Grouped

open Parse (afterGroup)

variable {ps qs : List Piece}

theorem append (hps : Grouped ps) (hqs : Grouped qs) : Grouped (ps ++ qs) := by
  induction hps with
  | nil => exact hqs
  | word hname _ ih => exact .word hname ih
  | string _ ih => exact .string ih
  | sign hkind _ ih => exact .sign hkind ih
  | parens hinner _ _ ih =>
    rw [List.cons_append, List.append_assoc]
    exact .parens hinner ih
  | brackets hinner _ _ ih =>
    rw [List.cons_append, List.append_assoc]
    exact .brackets hinner ih

theorem writable (h : Grouped ps) : ∀ p ∈ ps, p.Writable := by
  induction h with
  | nil => exact nofun
  | word hname _ ih => exact List.forall_mem_cons.mpr ⟨hname, ih⟩
  | string _ ih => exact List.forall_mem_cons.mpr ⟨trivial, ih⟩
  | sign hkind _ ih =>
    have hsigns : plainSigns ⊆ Piece.signs := by decide
    exact List.forall_mem_cons.mpr ⟨hsigns hkind, ih⟩
  | parens _ _ ihinner ih | brackets _ _ ihinner ih =>
    have hopen (kind : TokenKind) (h : kind ∈ Piece.signs) : (Piece.sign kind).Writable := h
    exact List.forall_mem_cons.mpr ⟨hopen _ (by decide), List.forall_mem_append.mpr ⟨ihinner,
      List.forall_mem_cons.mpr ⟨hopen _ (by decide), ih⟩⟩⟩

/-- Where some brackets are open, tokens in which brackets stand in pairs close none of them. -/
theorem afterGroup_append (h : Grouped ps) (depth : ℕ) (qs : List Piece) :
    afterGroup (depth + 1) (ps ++ qs) = afterGroup (depth + 1) qs := by
  induction h generalizing depth qs with
  | nil => rfl
  | word _ _ ih => exact ih depth qs
  | string _ ih => exact ih depth qs
  | @sign kind ps hkind _ ih =>
    have hplain : ∀ kind ∈ plainSigns,
        kind ≠ .endOfFile ∧ kind.opens = false ∧ kind.closes = false := by decide
    obtain ⟨hend, hopens, hcloses⟩ := hplain kind hkind
    have hdepth : Parse.openAfter (depth + 1) (Piece.sign kind).kind = depth + 1 := by
      rw [Piece.kind, Parse.openAfter, hopens, hcloses]
      rfl
    have hkindOf : (Piece.sign kind).kind ≠ .endOfFile := hend
    rw [List.cons_append, afterGroup, if_neg hkindOf, hdepth, if_neg (Nat.succ_ne_zero _), ih]
  | @parens inner rest _ _ ihinner ih =>
    show afterGroup (depth + 1 + 1) (inner ++ .sign .closeParen :: rest ++ qs) = _
    rw [List.append_assoc, ihinner]
    exact ih depth qs
  | @brackets inner rest _ _ ihinner ih =>
    show afterGroup (depth + 1 + 1) (inner ++ .sign .closeBracket :: rest ++ qs) = _
    rw [List.append_assoc, ihinner]
    exact ih depth qs

/-- A group in brackets is passed up to its closing bracket. -/
theorem afterGroup_parens (h : Grouped ps) :
    afterGroup 0 (.sign .openParen :: (ps ++ .sign .closeParen :: qs)) = some qs := by
  show afterGroup 1 (ps ++ .sign .closeParen :: qs) = some qs
  rw [h.afterGroup_append 0]
  rfl

theorem led {sign : TokenKind} {groups : List (List Piece)} (hsign : sign ∈ plainSigns)
    (h : ∀ group ∈ groups, Grouped group) : Grouped (led sign groups) := by
  induction groups with
  | nil => exact nil
  | cons group groups ih =>
    obtain ⟨hgroup, hgroups⟩ := List.forall_mem_cons.mp h
    exact (Grouped.sign hsign hgroup).append (ih hgroups)

theorem parted {sign : TokenKind} {groups : List (List Piece)} (hsign : sign ∈ plainSigns)
    (h : ∀ group ∈ groups, Grouped group) : Grouped (parted sign groups) := by
  cases groups with
  | nil => exact nil
  | cons group groups =>
    obtain ⟨hgroup, hgroups⟩ := List.forall_mem_cons.mp h
    exact hgroup.append (led hsign hgroups)

theorem angled {groups : List (List Piece)} (h : ∀ group ∈ groups, Grouped group) :
    Grouped (angled groups) := by
  rw [ApiSurface.angled]
  split
  · exact .nil
  · exact append (.sign (by decide) (.parted (by decide) h)) (.sign (by decide) .nil)

theorem marked {sign : TokenKind} (hsign : sign ∈ plainSigns) (present : Bool) :
    Grouped (marked sign present) := by
  rw [ApiSurface.marked]
  split
  · exact .sign hsign .nil
  · exact .nil

end Grouped

namespace TypeTerm

variable {n : ℕ} {t : TypeTerm}

/-- The words of the grammar are written as names are. -/
theorem isName_word : ∀ word ∈ "extends" :: "infer" :: "keyof" :: "readonly" :: "unique" ::
    Productions.keywordTypes, IsName word := by
  simp [Productions.keywordTypes, IsName, startsName, continuesName]

theorem grouped_type? {lead : Piece} (hlead : Grouped [lead]) {type : Option TypeTerm}
    (h : ∀ u ∈ type.toList, Grouped u.pieces) : Grouped (piecesOfType? lead type) := by
  cases type with
  | none => exact .nil
  | some u => exact hlead.append (h u (List.mem_singleton_self u))

theorem grouped_item {x : ItemTerm} (hlabel : ∀ label ∈ x.label, IsName label)
    (h : Grouped x.type.pieces) : Grouped x.pieces := by
  obtain ⟨label, optional, rest, type⟩ := x
  cases label
  all_goals simp only [ItemTerm.pieces, List.append_assoc, List.cons_append]
  case some label =>
    exact .append (.marked (by decide) rest) (.word (hlabel label rfl)
      (.append (.marked (by decide) optional) (.sign (by decide) h)))
  case none =>
    exact .append (.marked (by decide) rest) (h.append (.marked (by decide) optional))

theorem grouped_param {x : ParamTerm} (hname : IsName x.name)
    (h : ∀ u ∈ x.types, Grouped u.pieces) : Grouped x.pieces := by
  obtain ⟨name, optional, rest, type⟩ := x
  simp only [ParamTerm.pieces, List.append_assoc, List.cons_append]
  exact .append (.marked (by decide) rest) (.word hname (.append (.marked (by decide) optional)
    (grouped_type? (.sign (by decide) .nil) h)))

theorem grouped_typeParam {x : TypeParamTerm} (hname : IsName x.name)
    (h : ∀ u ∈ x.types, Grouped u.pieces) : Grouped x.pieces := by
  obtain ⟨name, bound, fallback⟩ := x
  obtain ⟨hbound, hfallback⟩ := List.forall_mem_append.mp h
  simp only [TypeParamTerm.pieces, List.cons_append]
  exact .word hname (.append (grouped_type? (.word (isName_word _ (by decide)) .nil) hbound)
    (grouped_type? (.sign (by decide) .nil) hfallback))

theorem grouped_params {params : List ParamTerm} (hnames : ∀ x ∈ params, IsName x.name)
    (h : ∀ x ∈ params, ∀ u ∈ x.types, Grouped u.pieces) :
    Grouped (parted .comma (params.map ParamTerm.pieces)) :=
  .parted (by decide) (List.forall_mem_map.mpr fun x hx => grouped_param (hnames x hx) (h x hx))

/-- A type is written with brackets in pairs. -/
theorem Fits.grouped (h : t.Fits n) : Grouped t.pieces := by
  refine h.rec_parts (P := fun t => Grouped t.pieces) fun {n t} h ihoperands ihenclosed => ?_
  have hproper := h.proper
  have htypes {ts : List TypeTerm} (h : ∀ u ∈ ts, Grouped u.pieces) :
      ∀ group ∈ piecesOfTypes ts, Grouped group := by
    rw [piecesOfTypes_eq]
    exact List.forall_mem_map.mpr h
  cases t
  all_goals
    simp only [operands, enclosed, List.forall_mem_cons, List.not_mem_nil, false_implies,
      implies_true, and_true, List.forall_mem_map] at ihoperands ihenclosed
    simp only [pieces, List.append_assoc, List.cons_append, List.nil_append]
  case keyword word =>
    have hkeyword : word ∈ Productions.keywordTypes := hproper
    exact .word (isName_word word (by simp [hkeyword])) .nil
  case reference head tail args =>
    refine .word hproper.1.isName (.append (.led (by decide) ?_) (.angled (htypes ihenclosed)))
    exact List.forall_mem_map.mpr fun name hname => .word (hproper.2 name hname) .nil
  case literal value => exact .string .nil
  case array item => exact ihoperands.append (.brackets .nil .nil)
  case indexed object index => exact ihoperands.append (.brackets ihenclosed .nil)
  case operator op operand =>
    exact .word (isName_word op.word (by cases op <;> decide)) ihoperands
  case infer name =>
    exact .word (isName_word _ (by decide)) (.word (IsTypeName.isName hproper) .nil)
  case intersection parts => exact .parted (by decide) (htypes ihoperands)
  case union parts => exact .parted (by decide) (htypes ihoperands)
  case parenthesized inner => exact .parens ihenclosed .nil
  case tuple items =>
    rw [piecesOfItems_eq]
    exact .brackets (.parted (by decide) (List.forall_mem_map.mpr fun x hx =>
      grouped_item (hproper x hx) (ihenclosed x hx))) .nil
  case conditional check bound whenTrue whenFalse =>
    obtain ⟨hbound, htrue, hfalse⟩ := ihenclosed
    exact ihoperands.append (.word (isName_word _ (by decide)) (hbound.append (.sign (by decide)
      (htrue.append (.sign (by decide) hfalse)))))
  case function typeParams params result =>
    simp only [List.forall_mem_append, List.forall_mem_flatMap,
      List.forall_mem_singleton] at ihenclosed
    obtain ⟨⟨htypeParams, hparams⟩, hresult⟩ := ihenclosed
    rw [piecesOfTypeParams_eq, piecesOfParams_eq]
    refine .append (.angled (List.forall_mem_map.mpr fun x hx => ?_))
      (.parens (grouped_params hproper.2 hparams) (.sign (by decide) hresult))
    exact grouped_typeParam (hproper.1 x hx).1 (htypeParams x hx)

/-- The parameters of a function type are written with brackets in pairs. -/
theorem Fits.grouped_params {typeParams : List TypeParamTerm} {params : List ParamTerm}
    {result : TypeTerm} (h : (function typeParams params result).Fits n) :
    Grouped (ApiSurface.parted .comma (params.map ParamTerm.pieces)) := by
  refine TypeTerm.grouped_params h.proper.2 fun x hx u hu => ?_
  have hmem : u ∈ (function typeParams params result).enclosed :=
    List.mem_append_left _ (List.mem_append_right _ (List.mem_flatMap.mpr ⟨x, hx, hu⟩))
  obtain ⟨m, -, hfits⟩ := h.whole hmem
  exact hfits.grouped

/-- No arrow follows the group in parentheses that begins a type, unless that is a function type. -/
theorem Fits.afterGroup (h : t.Fits n) (hrank : t.rank ≠ 1) (hparen : kindAt t.pieces = .openParen)
    {qs : List Piece} (hqs : kindAt qs ≠ .arrow) :
    ∃ rs, Parse.afterGroup 0 (t.pieces ++ qs) = some rs ∧ kindAt rs ≠ .arrow := by
  revert hrank hparen qs
  refine h.rec_parts (P := fun t => t.rank ≠ 1 → kindAt t.pieces = .openParen → ∀ {qs},
    kindAt qs ≠ .arrow → ∃ rs, Parse.afterGroup 0 (t.pieces ++ qs) = some rs ∧ kindAt rs ≠ .arrow)
    fun {n t} h ihoperands _ hrank hparen {qs} hqs => ?_
  cases hlead : t.leading with
  | some u =>
    obtain ⟨hmem, hle, p, hp, rest, hpieces⟩ := h.proper.leading hlead
    have hu := Nat.ne_of_gt hle
    obtain ⟨q, before, hfirst, -⟩ := (h.operand hmem).starts hu
    have hjoint : ∀ p ∈ joints, p.kind ≠ .arrow := by decide
    rw [hpieces, hfirst] at hparen
    rw [hpieces, List.append_assoc]
    exact ihoperands u hmem hu (by rw [hfirst]; exact hparen) (hjoint p hp)
  | none =>
    cases t with
    | parenthesized inner =>
      obtain ⟨m, -, hinner⟩ := h.whole (u := inner) (by simp [enclosed])
      refine ⟨qs, ?_, hqs⟩
      simp only [pieces, List.cons_append, List.append_assoc, List.nil_append]
      exact hinner.grouped.afterGroup_parens
    | intersection parts | union parts =>
      rw [pieces, List.head?_eq_none_iff.mp hlead] at hparen
      exact absurd hparen nofun
    | function typeParams params result => exact absurd rfl hrank
    | keyword | reference | literal | operator | infer | tuple =>
      exact absurd hparen (by simp [pieces])
    | _ => exact absurd hlead nofun

/-! ### Suffixes -/

/-- A term that another one becomes by suffixes, and their tokens. -/
inductive Suffixed (n : ℕ) : TypeTerm → List Piece → TypeTerm → Prop
  | refl (t : TypeTerm) : Suffixed n t [] t
  | array {u t : TypeTerm} {rest : List Piece} : Suffixed n (.array u) rest t →
      Suffixed n u (.sign .openBracket :: .sign .closeBracket :: rest) t
  | indexed {u index t : TypeTerm} {rest : List Piece} : (∃ m < n, index.Fits m) →
      Suffixed n (.indexed u index) rest t →
      Suffixed n u (.sign .openBracket :: (index.pieces ++ .sign .closeBracket :: rest)) t

theorem Suffixed.trans {u v t : TypeTerm} {rest after : List Piece} (h : Suffixed n u rest v)
    (h' : Suffixed n v after t) : Suffixed n u (rest ++ after) t := by
  induction h with
  | refl v => exact h'
  | array _ ih => exact .array (ih h')
  | indexed hindex _ ih =>
    rw [List.cons_append, List.append_assoc, List.cons_append]
    exact .indexed hindex (ih h')

/-- A term that is bound as tightly as suffixes are is one that stands alone with suffixes. -/
theorem Fits.suffixed {t : TypeTerm} (h : t.Fits n) (hrank : 5 ≤ t.rank) : ∃ u rest, u.rank = 6 ∧
    u.Fits n ∧ Suffixed n u rest t ∧ t.pieces = u.pieces ++ rest := by
  match t with
  | .array item =>
    obtain ⟨u, rest, hu, hfits, hsuffixed, hpieces⟩ :=
      Fits.suffixed (h.operand (List.mem_singleton_self item)) h.proper
    refine ⟨u, _, hu, hfits, hsuffixed.trans (.array (.refl _)), ?_⟩
    rw [pieces, hpieces, List.append_assoc]
  | .indexed object index =>
    obtain ⟨u, rest, hu, hfits, hsuffixed, hpieces⟩ :=
      Fits.suffixed (h.operand (List.mem_singleton_self object)) h.proper
    have hindex := h.whole (List.mem_singleton_self index)
    refine ⟨u, _, hu, hfits, hsuffixed.trans (.indexed hindex (.refl _)), ?_⟩
    rw [pieces, hpieces, List.append_assoc, List.append_assoc, List.cons_append]
  | .keyword _ | .reference .. | .literal _ | .parenthesized _ | .tuple _ =>
    exact ⟨_, [], rfl, h, .refl _, (List.append_nil _).symm⟩
  | .operator .. | .infer _ | .intersection _ | .union _ | .conditional .. | .function .. =>
    exact absurd hrank (by simp [rank])

/-- A term that is bound as tightly as suffixes are begins with no operator. -/
theorem Fits.wordAt_operator {t : TypeTerm} (h : t.Fits n) (hrank : 5 ≤ t.rank) (qs : List Piece) :
    ∀ word ∈ ["keyof", "readonly", "unique", "infer"], wordAt (t.pieces ++ qs) word = false := by
  intro word hword
  obtain ⟨u, rest, hu, hfits, -, hpieces⟩ := h.suffixed hrank
  rw [hpieces, List.append_assoc]
  cases u with
  | keyword name =>
    have hall : ∀ name ∈ Productions.keywordTypes,
        ∀ word ∈ ["keyof", "readonly", "unique", "infer"], name ≠ word := by decide
    simp [pieces, hall name hfits.proper word hword]
  | reference head tail args =>
    have hsub : ["keyof", "readonly", "unique", "infer"] ⊆ typeWords := by decide
    have hne : head ≠ word := by
      rintro rfl
      exact hfits.proper.1.notWord (hsub hword)
    simp [pieces, hne]
  | literal | parenthesized | tuple => simp [pieces, wordAt]
  | _ => exact absurd hu (by simp [rank])

end TypeTerm
end ApiSurface

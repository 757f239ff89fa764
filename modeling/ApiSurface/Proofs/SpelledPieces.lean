import ApiSurface.Grammar.Parse
import Mathlib.Data.List.Basic
import Mathlib.Data.Nat.Notation
/-!
Tokens and the texts that are written from them. The lexer reads back what was written, as long as
tokens that would run into each other are kept apart by blanks.
-/
namespace ApiSurface

/-- A word that the lexer takes for a name. -/
def IsName (name : String) : Prop :=
  ∃ c cs, name.toList = c :: cs ∧ startsName c = true ∧ ∀ c ∈ cs, continuesName c = true

/-- A token as a grammar knows it: a word, a string by what it denotes, or a sign. -/
inductive Piece where
  | word (name : String)
  | string (value : String)
  | sign (kind : TokenKind)
  deriving DecidableEq, Repr

namespace Piece

def kind : Piece → TokenKind
  | word _ => .identifier
  | string _ => .string
  | sign kind => kind

def value : Piece → String
  | word name => name
  | string value => value
  | sign _ => ""

/-- A character of a string as it is written between double quotes. -/
def escaped (c : Char) : List Char :=
  if c = '"' ∨ c = '\\' then ['\\', c]
  else if c = '\n' then ['\\', 'n']
  else if c = '\r' then ['\\', 'r']
  else [c]

/-- A token as it is written. -/
def text : Piece → List Char
  | word name => name.toList
  | string value => '"' :: value.toList.flatMap escaped ++ ['"']
  | sign kind => (kind.spelling?.getD "").toList

/-- The signs that types and their declarations are written with. -/
def signs : List TokenKind :=
  [.openParen, .closeParen, .openBracket, .closeBracket, .dot, .ellipsis, .semicolon, .comma, .less,
    .greater, .equals, .arrow, .question, .colon, .bar, .ampersand]

/-- What can be written: names, strings and some signs. -/
def Writable : Piece → Prop
  | word name => IsName name
  | string _ => True
  | sign kind => kind ∈ signs

/-- A character that a token would take for its own if it followed directly. -/
def continues : Piece → Char → Bool
  | word _, c => continuesName c
  | string _, _ => false
  | sign .dot, c => c == '.' || c.isDigit
  | sign .equals, c => c == '=' || c == '>'
  | sign .question, c => c == '?' || c == '.'
  | sign .bar, c => c == '|' || c == '='
  | sign .ampersand, c => c == '&' || c == '='
  | sign _, _ => false

end Piece

/-- Blanks that stay on the line. -/
def IsGap (gap : List Char) : Prop := ∀ c ∈ gap, c = ' ' ∨ c = '\t'

/-- A text in which some tokens are written one after the other on a line. -/
inductive Spells : List Piece → List Char → Prop
  | nil {gap : List Char} : IsGap gap → Spells [] gap
  | cons {p : Piece} {ps : List Piece} {gap rest : List Char} : IsGap gap → p.Writable →
      (∀ c ∈ rest.head?, p.continues c = false) → Spells ps rest →
      Spells (p :: ps) (gap ++ p.text ++ rest)

/-- Tokens written with a blank before each. -/
def spaced (ps : List Piece) : List Char := ps.flatMap fun p => ' ' :: p.text

/-- Groups of tokens with a sign before each. -/
def led (sign : TokenKind) (groups : List (List Piece)) : List Piece :=
  groups.flatMap (Piece.sign sign :: ·)

/-- Groups of tokens with a sign between each two. -/
def parted (sign : TokenKind) : List (List Piece) → List Piece
  | [] => []
  | group :: groups => group ++ led sign groups

theorem Piece.not_continues_blank (p : Piece) : p.continues ' ' = false := by
  cases p with
  | word _ => rfl
  | string _ => rfl
  | sign kind => cases kind <;> rfl

/-- Tokens can be written with blanks between them. -/
theorem spells_spaced {ps : List Piece} (h : ∀ p ∈ ps, p.Writable) : Spells ps (spaced ps) := by
  induction ps with
  | nil => exact .nil fun _ hc => nomatch hc
  | cons p ps ih =>
    have hgap : IsGap [' '] := fun c hc => Or.inl (List.mem_singleton.mp hc)
    refine .cons hgap (h p List.mem_cons_self) (fun c hc => ?_)
      (ih fun q hq => h q (List.mem_cons_of_mem p hq))
    cases ps with
    | nil => cases hc
    | cons q qs =>
      obtain rfl : ' ' = c := Option.some.inj hc
      exact p.not_continues_blank

theorem Piece.text_ne_nil {p : Piece} (h : p.Writable) : p.text ≠ [] := by
  cases p with
  | word name =>
    obtain ⟨c, cs, hname, -⟩ := h
    exact ne_of_eq_of_ne hname (List.cons_ne_nil c cs)
  | string value => exact List.cons_ne_nil _ _
  | sign kind =>
    have hall : ∀ kind ∈ signs, (sign kind).text ≠ [] := by decide
    exact hall kind h

/-- A token takes at least one character. -/
theorem Spells.length_le {ps : List Piece} {cs : List Char} (h : Spells ps cs) :
    ps.length ≤ cs.length := by
  induction h with
  | nil => exact Nat.zero_le _
  | cons _ hp _ _ ih =>
    have hpos := List.length_pos_iff.mpr (Piece.text_ne_nil hp)
    simp only [List.length_append, List.length_cons]
    omega

/-! ### Reading what is written -/

/-- A string is read up to its closing quote, with the characters that it was written from. -/
theorem stringBody_escaped (value rest : List Char) : ∃ width,
    stringBody '"' 0 (value.flatMap Piece.escaped ++ '"' :: rest) = ⟨value, width, rest, true⟩ := by
  induction value with
  | nil => exact ⟨1, rfl⟩
  | cons c value ih =>
    obtain ⟨width, hrest⟩ := ih
    rw [List.flatMap_cons, List.append_assoc]
    generalize value.flatMap Piece.escaped ++ '"' :: rest = cs at hrest ⊢
    by_cases hquote : c = '"' ∨ c = '\\'
    · have hread : Escape.read (c :: cs) = ⟨[c], 1⟩ := by
        rcases hquote with rfl | rfl <;> rfl
      rw [Piece.escaped, if_pos hquote]
      simp [stringBody, hread, hrest]
    by_cases hline : c = '\n'
    · simp [Piece.escaped, hline, stringBody, Escape.read, hrest]
    by_cases hreturn : c = '\r'
    · simp [Piece.escaped, hreturn, stringBody, Escape.read, hrest]
    · rw [Piece.escaped, if_neg hquote, if_neg hline, if_neg hreturn]
      obtain ⟨hq, hb⟩ := not_or.mp hquote
      simp [stringBody, hq, hb, hline, hreturn, hrest]

theorem takeWhile_continuesName {cs rest : List Char} (hcs : ∀ c ∈ cs, continuesName c = true)
    (hrest : ∀ c ∈ rest.head?, continuesName c = false) :
    (cs ++ rest).takeWhile continuesName = cs := by
  rw [List.takeWhile_append_of_pos hcs]
  cases rest with
  | nil => simp
  | cons c rest => simp [hrest c rfl]

theorem not_isDigit_of_startsName {c : Char} (h : startsName c = true) : c.isDigit = false := by
  by_contra hdigit
  rw [Bool.not_eq_false, Char.isDigit_iff_toNat] at hdigit
  change 48 ≤ c.toNat ∧ c.toNat ≤ 57 at hdigit
  simp only [startsName, Bool.or_eq_true, beq_iff_eq, decide_eq_true_eq] at h
  rcases h with ((halpha | rfl) | rfl) | hwide
  · have halpha : (decide ('A'.val ≤ c.val ∧ c.val ≤ 'Z'.val) ||
        decide ('a'.val ≤ c.val) && decide (c.val ≤ 'z'.val)) = true := halpha
    simp only [Bool.or_eq_true, Bool.and_eq_true, decide_eq_true_eq, UInt32.le_iff_toNat_le] at halpha
    change (65 ≤ c.toNat ∧ c.toNat ≤ 90) ∨ (97 ≤ c.toNat ∧ c.toNat ≤ 122) at halpha
    omega
  · exact absurd hdigit (by decide)
  · exact absurd hdigit (by decide)
  · omega

/-- A name is none of the characters that begin other tokens. -/
theorem read_of_startsName (pos : ℕ) {c : Char} (hc : startsName c = true) (cs : List Char) :
    Lexeme.read pos c cs = Lexeme.name .identifier [] (c :: cs) := by
  unfold Lexeme.read
  split
  all_goals try exact absurd hc (by decide)
  have hhash : c ≠ '#' := by
    rintro rfl
    exact absurd hc (by decide)
  rw [if_neg (by rw [not_isDigit_of_startsName hc]; exact Bool.false_ne_true),
    if_neg fun h => hhash h.1, if_pos hc]

variable {c : Char} {cs rest : List Char}

/-- A sign is read as it is, unless what follows would change it. -/
theorem read_sign (pos : ℕ) {kind : TokenKind} (hkind : kind ∈ Piece.signs)
    (htext : (Piece.sign kind).text = c :: cs)
    (hrest : ∀ d ∈ rest.head?, (Piece.sign kind).continues d = false) :
    ∃ width, Lexeme.read pos c (cs ++ rest) = ⟨kind, [], width, rest, false, []⟩ := by
  simp only [Piece.signs, List.mem_cons, List.not_mem_nil, or_false] at hkind
  rcases hkind with rfl | rfl | rfl | rfl | rfl | rfl | rfl | rfl | rfl | rfl | rfl | rfl | rfl |
    rfl | rfl | rfl
  all_goals
    simp only [Piece.text, TokenKind.spelling?, Option.getD_some, String.reduceToList,
      List.cons.injEq] at htext
    obtain ⟨rfl, rfl⟩ := htext
  all_goals try exact ⟨_, rfl⟩
  -- what is left are the signs that begin longer ones
  all_goals
    cases rest with
    | nil => exact ⟨_, rfl⟩
    | cons d rest =>
      have hd := hrest d rfl
      simp only [Piece.continues, Bool.or_eq_false_iff, beq_eq_false_iff_ne] at hd
      exact ⟨1, by simp [Lexeme.read, Lexeme.punctuation, hd]⟩

/-- What is written is read back. -/
theorem Piece.read_text (pos : ℕ) {p : Piece} (hp : p.Writable) (htext : p.text = c :: cs)
    (hrest : ∀ d ∈ rest.head?, p.continues d = false) :
    ∃ width, Lexeme.read pos c (cs ++ rest) =
      ⟨p.kind, p.value.toList, width, rest, false, []⟩ := by
  cases p with
  | word name =>
    obtain ⟨d, ds, hname, hd, hds⟩ := hp
    obtain ⟨rfl, rfl⟩ := List.cons.inj (htext.symm.trans hname)
    have hall : ∀ e ∈ c :: cs, continuesName e = true :=
      List.forall_mem_cons.mpr ⟨by rw [continuesName, hd, Bool.true_or], hds⟩
    have hword : (c :: (cs ++ rest)).takeWhile continuesName = c :: cs :=
      takeWhile_continuesName hall hrest
    have hafter : (c :: (cs ++ rest)).drop (c :: cs).length = rest := List.drop_left
    rw [read_of_startsName pos hd, Lexeme.name, hword, List.nil_append, hafter, ← hname]
    exact ⟨_, rfl⟩
  | string value =>
    obtain ⟨rfl, rfl⟩ := List.cons.inj htext
    obtain ⟨width, hbody⟩ := stringBody_escaped value.toList rest
    refine ⟨width + 1, ?_⟩
    show Lexeme.string pos '"' (value.toList.flatMap escaped ++ ['"'] ++ rest) = _
    rw [List.append_assoc, List.singleton_append, Lexeme.string, hbody]
    rfl
  | sign kind => exact read_sign pos hp htext hrest

/-- A character that is no blank, ends no line and starts no comment. -/
def IsSolid (c : Char) : Prop := isLineEnd c = false ∧ c ∉ [' ', '\t', '\x0b', '\x0c', '/']

theorem Piece.isSolid_of_text {p : Piece} (hp : p.Writable) (htext : p.text = c :: cs) :
    IsSolid c := by
  cases p with
  | word name =>
    obtain ⟨d, ds, hname, hd, -⟩ := hp
    obtain ⟨rfl, rfl⟩ := List.cons.inj (htext.symm.trans hname)
    refine ⟨?_, fun hmem => ?_⟩
    · by_contra hend
      rw [Bool.not_eq_false, isLineEnd, Bool.or_eq_true, beq_iff_eq, beq_iff_eq] at hend
      rcases hend with rfl | rfl <;> exact absurd hd (by decide)
    · simp only [List.mem_cons, List.not_mem_nil, or_false] at hmem
      rcases hmem with rfl | rfl | rfl | rfl | rfl <;> exact absurd hd (by decide)
  | string value =>
    obtain ⟨rfl, -⟩ := List.cons.inj htext
    exact ⟨rfl, by decide⟩
  | sign kind =>
    have hall : ∀ kind ∈ signs, (sign kind).text.head?.all
        (fun c => isLineEnd c == false && ([' ', '\t', '\x0b', '\x0c', '/'].contains c) == false) := by decide
    simpa [htext, IsSolid] using hall kind hp

/-- Blanks before a character that is none are passed, and nothing is recorded of them. -/
theorem trivia_gap (pos : ℕ) {gap : List Char} (hgap : IsGap gap)
    (hcs : ∀ c ∈ cs.head?, IsSolid c) :
    ∃ stop, trivia pos 0 (gap ++ cs) = ⟨cs, stop, false, [], []⟩ := by
  induction gap generalizing pos with
  | nil =>
    cases cs with
    | nil => exact ⟨pos, rfl⟩
    | cons c cs =>
      obtain ⟨hend, hblank⟩ := hcs c rfl
      simp only [List.mem_cons, List.not_mem_nil, or_false, not_or] at hblank
      exact ⟨pos, by simp [trivia, hend, hblank]⟩
  | cons d gap ih =>
    have hrest : IsGap gap := fun e he => hgap e (List.mem_cons_of_mem d he)
    obtain ⟨stop, hstop⟩ := ih (pos + d.utf8Size) hrest
    refine ⟨stop, hstop ▸ ?_⟩
    rcases hgap d List.mem_cons_self with rfl | rfl <;> rfl

/-! ### A lexer in front of tokens -/

/-- The kind of the first token, if there is one. -/
def kindAt (ps : List Piece) : TokenKind := (ps.head?.map Piece.kind).getD .endOfFile

/-- The value of the first token, if there is one. -/
def valueAt (ps : List Piece) : String := (ps.head?.map Piece.value).getD ""

/-- A lexer that has read the first of some tokens, the others being left, and has met nothing else
but blanks so far. -/
structure Lexer.At (ps : List Piece) (l : Lexer) : Prop where
  kind : l.token.kind = kindAt ps
  value : l.token.value = valueAt ps
  afterBreak : l.token.afterBreak = false
  rest : Spells ps.tail l.rest
  comments : l.comments = #[]
  problems : l.problems = #[]

/-- The tokens that a text spells are scanned from it. -/
theorem Lexer.scan_at {l : Lexer} {ps : List Piece} (hrest : Spells ps l.rest)
    (hcomments : l.comments = #[]) (hproblems : l.problems = #[]) : l.scan.At ps := by
  unfold Lexer.scan
  generalize htext : l.rest = text at hrest
  cases hrest with
  | nil hgap =>
    obtain ⟨stop, hstop⟩ := trivia_gap l.pos hgap (show ∀ c ∈ [].head?, IsSolid c from nofun)
    rw [List.append_nil] at hstop
    simp only [hstop]
    exact ⟨rfl, rfl, rfl, .nil nofun, hcomments, hproblems⟩
  | @cons p ps gap rest hgap hp hnext hrest =>
    obtain ⟨c, cs, hcs⟩ := List.exists_cons_of_ne_nil (Piece.text_ne_nil hp)
    have hsolid : ∀ d ∈ (c :: (cs ++ rest)).head?, IsSolid d := fun d hd =>
      Option.some.inj hd ▸ Piece.isSolid_of_text hp hcs
    obtain ⟨stop, hstop⟩ := trivia_gap l.pos hgap hsolid
    obtain ⟨width, hread⟩ := Piece.read_text stop hp hcs hnext
    rw [List.append_assoc, hcs, List.cons_append]
    simp only [hstop, hread]
    exact ⟨rfl, String.ofList_toList, rfl, hrest, hcomments, hproblems⟩

end ApiSurface

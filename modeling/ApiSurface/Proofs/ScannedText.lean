import Mathlib.Data.List.TakeWhile
import ApiSurface.Proofs.TokenOrder
/-!
A text is scanned to its end, and what is read from it begins and ends between characters.
-/
namespace ApiSurface

/-! ### Cut points -/

section Cuts

variable {cs mid rest : List Char} {m n : ℕ}

theorem dropBytes_eq_some_iff :
    dropBytes cs n = some rest ↔ ∃ taken, cs = taken ++ rest ∧ byteLength taken = n := by
  constructor
  · intro h
    fun_induction dropBytes cs n with
    | case1 cs => exact ⟨[], Option.some.inj h, rfl⟩
    | case2 => cases h
    | case3 c cs n hle ih =>
      obtain ⟨taken, rfl, htaken⟩ := ih h
      exact ⟨c :: taken, rfl, by rw [byteLength_cons, htaken, Nat.add_sub_cancel' hle]⟩
    | case4 => cases h
  · rintro ⟨taken, rfl, rfl⟩
    exact dropBytes_append taken rest

theorem takeBytes_eq_some_iff {part : List Char} :
    takeBytes cs n = some part ↔ ∃ rest, cs = part ++ rest ∧ byteLength part = n := by
  constructor
  · intro h
    fun_induction takeBytes cs n generalizing part with
    | case1 cs =>
      obtain rfl := Option.some.inj h
      exact ⟨cs, rfl, rfl⟩
    | case2 => cases h
    | case3 c cs n hle ih =>
      obtain ⟨taken, htaken, rfl⟩ := Option.map_eq_some_iff.mp h
      obtain ⟨rest, rfl, hwidth⟩ := ih htaken
      exact ⟨rest, rfl, by rw [byteLength_cons, hwidth, Nat.add_sub_cancel' hle]⟩
    | case4 => cases h
  · rintro ⟨rest, rfl, rfl⟩
    exact takeBytes_append part rest

theorem sliceBytes_eq_some_iff {part : List Char} :
    sliceBytes cs m n = some part ↔
      ∃ before rest, cs = before ++ part ++ rest ∧ byteLength before = m ∧
        m + byteLength part = n := by
  constructor
  · intro h
    unfold sliceBytes at h
    split at h
    · next hle =>
      obtain ⟨mid, hmid, htake⟩ := Option.bind_eq_some_iff.mp h
      obtain ⟨before, rfl, rfl⟩ := dropBytes_eq_some_iff.mp hmid
      obtain ⟨rest, rfl, hwidth⟩ := takeBytes_eq_some_iff.mp htake
      exact ⟨before, rest, (List.append_assoc _ _ _).symm, rfl, by omega⟩
    · cases h
  · rintro ⟨before, rest, rfl, rfl, rfl⟩
    exact sliceBytes_append before part rest

theorem dropBytes_add (h : dropBytes cs m = some mid) (h' : dropBytes mid n = some rest) :
    dropBytes cs (m + n) = some rest := by
  obtain ⟨before, rfl, rfl⟩ := dropBytes_eq_some_iff.mp h
  obtain ⟨taken, rfl, rfl⟩ := dropBytes_eq_some_iff.mp h'
  exact dropBytes_eq_some_iff.mpr
    ⟨before ++ taken, (List.append_assoc _ _ _).symm, byteLength_append _ _⟩

theorem dropBytes_of_leading (h : mid <+: cs) :
    dropBytes cs (byteLength mid) = some (cs.drop mid.length) := by
  obtain ⟨rest, rfl⟩ := h
  rw [dropBytes_append, List.drop_left]

/-- Two cut points bound a slice. -/
theorem sliceBytes_isSome (h : dropBytes cs m = some mid) (h' : dropBytes mid n = some rest) :
    (sliceBytes cs m (m + n)).isSome = true := by
  obtain ⟨before, rfl, rfl⟩ := dropBytes_eq_some_iff.mp h
  obtain ⟨taken, rfl, rfl⟩ := dropBytes_eq_some_iff.mp h'
  rw [← List.append_assoc, sliceBytes_append]
  rfl

theorem sliceBytes_of_dropBytes {part : List Char} (h : dropBytes cs n = some (part ++ rest)) :
    sliceBytes cs n (n + byteLength part) = some part := by
  obtain ⟨before, rfl, rfl⟩ := dropBytes_eq_some_iff.mp h
  rw [← List.append_assoc, sliceBytes_append]

/-- Where a slice starts, a leading slice ends. -/
theorem sliceBytes_isSome_of_start (h : (sliceBytes cs m n).isSome = true) :
    (sliceBytes cs 0 m).isSome = true := by
  obtain ⟨part, hpart⟩ := Option.isSome_iff_exists.mp h
  unfold sliceBytes at hpart
  split at hpart
  · obtain ⟨mid, hmid, -⟩ := Option.bind_eq_some_iff.mp hpart
    have hslice := sliceBytes_isSome (dropBytes_zero cs) hmid
    rwa [Nat.zero_add] at hslice
  · cases hpart

theorem length_lt_of_dropBytes (h : dropBytes cs m = some mid) (h' : dropBytes cs n = some rest)
    (hlt : m < n) : rest.length < mid.length := by
  obtain ⟨before, hbefore, rfl⟩ := dropBytes_eq_some_iff.mp h
  obtain ⟨taken, htaken, rfl⟩ := dropBytes_eq_some_iff.mp h'
  by_contra hle
  have hlength := congrArg List.length (hbefore.symm.trans htaken)
  rw [List.length_append, List.length_append] at hlength
  -- the part that is taken would be a leading part of the one before
  obtain ⟨more, rfl⟩ := List.prefix_of_prefix_length_le ⟨rest, htaken.symm⟩ ⟨mid, hbefore.symm⟩
    (show taken.length ≤ before.length by omega)
  rw [byteLength_append] at hlt
  omega

theorem byteLength_of_dropBytes (h : dropBytes cs n = some rest) :
    byteLength cs = n + byteLength rest := by
  obtain ⟨taken, rfl, htaken⟩ := dropBytes_eq_some_iff.mp h
  rw [byteLength_append, htaken]

theorem dropBytes_cons (c : Char) (cs : List Char) : dropBytes (c :: cs) c.utf8Size = some cs :=
  dropBytes_eq_some_iff.mpr ⟨[c], rfl, Nat.add_zero _⟩

end Cuts

/-! ### Trivia -/

theorem blockBody_leading (cs : List Char) : (blockBody cs).1 <+: cs := by
  induction cs with
  | nil => exact List.nil_prefix
  | cons c cs ih =>
    unfold blockBody
    split
    · next h =>
      obtain ⟨rest, rfl⟩ := List.head?_eq_some_iff.mp h.2
      rw [h.1]
      exact List.prefix_append ['*', '/'] rest
    · exact (List.prefix_cons_inj c).mpr ih

/-- A comment opens with two characters of one byte. -/
theorem byteLength_comment {mark : Char} (hmark : mark.utf8Size = 1) (body : List Char) :
    byteLength ('/' :: mark :: body) = 2 + byteLength body := by
  rw [byteLength_cons, byteLength_cons, hmark, ← Nat.add_assoc]
  rfl

/-- A comment is a part of the source, with its opening and what it says. -/
theorem sliceBytes_comment {source cs body : List Char} {pos : ℕ} (mark : Char)
    (h : dropBytes source pos = some ('/' :: cs)) (hhead : cs.head? = some mark)
    (hmark : mark.utf8Size = 1) (hbody : body <+: cs.drop 1) :
    (sliceBytes source pos (pos + 2 + byteLength body)).isSome = true := by
  obtain ⟨rest, rfl⟩ := List.head?_eq_some_iff.mp hhead
  have hprefix : '/' :: mark :: body <+: '/' :: mark :: rest :=
    (List.prefix_cons_inj _).mpr ((List.prefix_cons_inj _).mpr hbody)
  have hslice := sliceBytes_isSome h (dropBytes_of_leading hprefix)
  rwa [byteLength_comment hmark, ← Nat.add_assoc] at hslice

/-- Trivia end at a cut point of the source, and the comments in them are parts of it. -/
theorem trivia_cut {source : List Char} (pos skip : ℕ) (cs : List Char)
    (h : dropBytes source pos = some cs) :
    dropBytes source (trivia pos skip cs).pos = some (trivia pos skip cs).rest ∧
      ∀ c ∈ (trivia pos skip cs).comments,
        (sliceBytes source c.span.start c.span.stop).isSome = true := by
  induction cs generalizing pos skip with
  | nil => exact ⟨h, fun c hc => absurd hc List.not_mem_nil⟩
  | cons c cs ih =>
    -- whatever is done with a character, reading goes on at the cut point behind it
    have hnext (skip : ℕ) := ih (pos + c.utf8Size) skip (dropBytes_add h (dropBytes_cons c cs))
    cases skip with
    | succ skip => exact hnext skip
    | zero =>
      simp only [trivia]
      split_ifs with hbreak hblank hline hblock
      · exact hnext 0
      · exact hnext 0
      · refine ⟨(hnext _).1, List.forall_mem_cons.mpr ⟨?_, (hnext _).2⟩⟩
        exact sliceBytes_comment '/' (hline.1 ▸ h) hline.2 rfl (List.takeWhile_prefix _)
      on_goal 3 => exact ⟨h, fun c hc => absurd hc List.not_mem_nil⟩
      -- a block comment, closed or not
      all_goals
        refine ⟨(hnext _).1, List.forall_mem_cons.mpr ⟨?_, (hnext _).2⟩⟩
        exact sliceBytes_comment '*' (hblock.1 ▸ h) hblock.2 rfl (blockBody_leading _)

/-! ### Lexemes -/

/-- A string reaches to a cut point, or one byte too far if a backslash ends the whole text. -/
theorem stringBody_cut (quote : Char) (skip : ℕ) (cs : List Char) :
    dropBytes cs (stringBody quote skip cs).width = some (stringBody quote skip cs).rest ∨
      (stringBody quote skip cs).rest = [] ∧
        (stringBody quote skip cs).width = byteLength cs + 1 ∧ cs.getLast? = some '\\' := by
  induction cs generalizing skip with
  | nil => exact Or.inl rfl
  | cons c cs ih =>
    -- a character in front moves the end by its bytes, also an end that is one byte too far
    have hnext (skip n : ℕ) (hn : n = c.utf8Size) :
        dropBytes (c :: cs) ((stringBody quote skip cs).width + n) =
          some (stringBody quote skip cs).rest ∨
        (stringBody quote skip cs).rest = [] ∧
          (stringBody quote skip cs).width + n = byteLength (c :: cs) + 1 ∧
          (c :: cs).getLast? = some '\\' := by
      rw [hn, Nat.add_comm, byteLength_cons]
      rcases ih skip with hcut | ⟨hrest, hwidth, hlast⟩
      · exact Or.inl (dropBytes_add (dropBytes_cons c cs) hcut)
      · exact Or.inr ⟨hrest, by rw [hwidth, Nat.add_assoc], by rw [List.getLast?_cons, hlast]; rfl⟩
    cases skip with
    | succ skip => exact hnext skip _ rfl
    | zero =>
      simp only [stringBody]
      split_ifs with hquote hline hslash hend
      · exact Or.inl (dropBytes_cons c cs)
      · exact Or.inl rfl
      -- the backslash is the last character of the text
      · obtain rfl := List.isEmpty_iff.mp hend
        exact Or.inr ⟨rfl, by rw [hslash]; rfl, by rw [hslash]; rfl⟩
      · exact hnext _ 1 (by rw [hslash]; rfl)
      · exact hnext 0 _ rfl

/-- What a template denotes is followed by its closing mark, if it is closed. -/
theorem templateBody_split (pos skip : ℕ) (nesting : List Nesting) (cs : List Char) :
    ∃ mark, cs = (templateBody pos skip nesting cs).value ++
        (mark ++ (templateBody pos skip nesting cs).rest) ∧
      (templateBody pos skip nesting cs).width =
        byteLength (templateBody pos skip nesting cs).value + byteLength mark := by
  induction cs generalizing pos skip nesting with
  | nil =>
    refine ⟨[], ?_⟩
    unfold templateBody
    dsimp only
    split <;> exact ⟨rfl, rfl⟩
  | cons c cs ih =>
    have hnext (skip : ℕ) (nesting : List Nesting) :
        ∃ mark, c :: cs = ((templateBody (pos + c.utf8Size) skip nesting cs).cons c).value ++
            (mark ++ ((templateBody (pos + c.utf8Size) skip nesting cs).cons c).rest) ∧
          ((templateBody (pos + c.utf8Size) skip nesting cs).cons c).width =
            byteLength ((templateBody (pos + c.utf8Size) skip nesting cs).cons c).value +
              byteLength mark := by
      obtain ⟨mark, hsplit, hwidth⟩ := ih (pos + c.utf8Size) skip nesting
      refine ⟨mark, congrArg (c :: ·) hsplit, ?_⟩
      show (templateBody (pos + c.utf8Size) skip nesting cs).width + c.utf8Size = _
      rw [hwidth, Nat.add_right_comm, Nat.add_comm _ c.utf8Size]
      rfl
    cases skip with
    | succ skip => exact hnext skip nesting
    | zero =>
      rcases nesting with _ | ⟨_ | depth | ⟨quote, start⟩, outer⟩
      · exact ⟨[], rfl, rfl⟩
      · simp only [templateBody]
        split_ifs
        -- only the mark that closes the outermost template is no part of what it denotes
        · exact ⟨[c], rfl, (Nat.zero_add _).symm⟩
        all_goals exact hnext _ _
      · exact hnext _ _
      · simp only [templateBody]
        split_ifs
        all_goals exact hnext _ _

theorem exponentPart_leading (cs : List Char) : exponentPart cs <+: cs := by
  unfold exponentPart
  split
  · next e rest =>
    dsimp only
    split_ifs
    · exact List.nil_prefix
    · rw [List.cons_append, List.prefix_cons_inj]
      split
      · split
        · exact (List.prefix_cons_inj _).mpr (List.takeWhile_prefix _)
        · exact List.takeWhile_prefix _
      · exact List.takeWhile_prefix _
    · exact List.nil_prefix
  · exact List.nil_prefix

/-- One leading part after another. -/
theorem append_leading {xs ys cs : List Char} (h : xs <+: cs) (h' : ys <+: cs.drop xs.length) :
    xs ++ ys <+: cs := by
  obtain ⟨rest, rfl⟩ := h
  rw [List.drop_left] at h'
  exact (List.prefix_append_right_inj xs).mpr h'

theorem numberPart_leading (cs : List Char) : numberPart cs <+: cs := by
  unfold numberPart
  dsimp only
  split
  · next part hpart =>
    split at hpart
    · next r digits =>
      split at hpart
      · obtain rfl := Option.some.inj hpart
        exact (List.prefix_cons_inj _).mpr ((List.prefix_cons_inj _).mpr (List.takeWhile_prefix _))
      · cases hpart
    · cases hpart
  · refine append_leading (append_leading (List.takeWhile_prefix _) ?_) (exponentPart_leading _)
    split
    · next rest hrest =>
      rw [hrest]
      exact (List.prefix_cons_inj _).mpr (List.takeWhile_prefix _)
    · exact List.nil_prefix

namespace Lexeme

/-- A lexeme is a leading part of a text, or a string that a backslash at the end of it leaves
open. -/
def Leads (x : Lexeme) (cs : List Char) : Prop :=
  dropBytes cs x.width = some x.rest ∨
    x.kind = .string ∧ x.rest = [] ∧ x.width = byteLength cs + 1 ∧ cs.getLast? = some '\\'

theorem punctuation_leads (kind : TokenKind) {cs text : List Char} (h : text <+: cs)
    (hwidth : byteLength text = text.length) : (punctuation kind text.length cs).Leads cs := by
  refine Or.inl ?_
  have hcut := dropBytes_of_leading h
  rwa [hwidth] at hcut

theorem utf8Size_of_continuesOperator {c : Char} (h : continuesOperator c = true) :
    c.utf8Size = 1 := by
  have hall : "=&|?*+-".toList.all (·.utf8Size == 1) = true := by decide
  exact eq_of_beq (List.all_eq_true.mp hall c (List.contains_iff_mem.mp h))

theorem byteLength_eq_length {cs : List Char} (h : ∀ c ∈ cs, c.utf8Size = 1) :
    byteLength cs = cs.length := by
  induction cs with
  | nil => rfl
  | cons c cs ih =>
    obtain ⟨hc, hcs⟩ := List.forall_mem_cons.mp h
    rw [byteLength_cons, hc, ih hcs, List.length_cons, Nat.add_comm]

theorem operator_leads {c : Char} (cs : List Char) (h : c.utf8Size = 1) :
    (operator (c :: cs)).Leads (c :: cs) := by
  refine punctuation_leads _ ((List.prefix_cons_inj c).mpr ?_) (byteLength_eq_length ?_)
  · exact (List.take_prefix 3 _).trans (List.takeWhile_prefix _)
  · refine List.forall_mem_cons.mpr ⟨h, fun d hd => utf8Size_of_continuesOperator ?_⟩
    exact List.mem_takeWhile_imp (List.mem_of_mem_take hd)

theorem name_leads (kind : TokenKind) (lead cs : List Char) :
    (name kind lead cs).Leads (lead ++ cs) := by
  have hcut := dropBytes_add (dropBytes_append lead cs)
    (dropBytes_of_leading (List.takeWhile_prefix continuesName))
  rw [← byteLength_append] at hcut
  exact Or.inl hcut

theorem number_leads (cs : List Char) : (number cs).Leads cs := by
  have hcut := dropBytes_of_leading (numberPart_leading cs)
  unfold number
  dsimp only
  split
  · next rest hrest =>
    rw [hrest] at hcut
    exact Or.inl (dropBytes_add hcut (dropBytes_cons 'n' rest))
  · exact Or.inl hcut

theorem string_leads (pos : ℕ) {quote : Char} (cs : List Char) (h : quote.utf8Size = 1) :
    (string pos quote cs).Leads (quote :: cs) := by
  have hquote := dropBytes_cons quote cs
  rw [h] at hquote
  rcases stringBody_cut quote 0 cs with hcut | ⟨hrest, hwidth, hlast⟩
  · refine Or.inl ?_
    show dropBytes _ ((stringBody quote 0 cs).width + 1) = _
    rw [Nat.add_comm]
    exact dropBytes_add hquote hcut
  · refine Or.inr ⟨rfl, hrest, ?_, by rw [List.getLast?_cons, hlast]; rfl⟩
    show (stringBody quote 0 cs).width + 1 = _
    rw [hwidth, byteLength_cons, h, Nat.add_comm 1]

theorem template_leads (pos : ℕ) (cs : List Char) : (template pos cs).Leads ('`' :: cs) := by
  obtain ⟨mark, hsplit, hwidth⟩ := templateBody_split (pos + 1) 0 [.template] cs
  refine Or.inl (dropBytes_eq_some_iff.mpr ⟨'`' :: ((template pos cs).value ++ mark), ?_, ?_⟩)
  · rw [List.cons_append, List.append_assoc]
    exact congrArg _ hsplit
  · show _ = (templateBody (pos + 1) 0 [.template] cs).width + 1
    rw [hwidth, byteLength_cons, byteLength_append, Nat.add_comm]
    rfl

/-- Every lexeme leads its text. -/
theorem read_leads (pos : ℕ) (c : Char) (cs : List Char) : (read pos c cs).Leads (c :: cs) := by
  have hsingle (kind : TokenKind) (hc : c.utf8Size = 1) :
      (punctuation kind 1 (c :: cs)).Leads (c :: cs) :=
    punctuation_leads kind (List.prefix_append [c] cs) hc
  have hpair (kind : TokenKind) {d : Char} (hc : c.utf8Size = 1) (hd : d.utf8Size = 1)
      (hne : d ≠ '\x00') (hnext : cs.headD '\x00' = d) :
      (punctuation kind 2 (c :: cs)).Leads (c :: cs) := by
    cases cs with
    | nil => exact absurd hnext.symm hne
    | cons e rest =>
      obtain rfl : e = d := hnext
      exact punctuation_leads kind (List.prefix_append [c, e] rest)
        (byteLength_eq_length (by simp [hc, hd]))
  unfold read
  dsimp only
  split
  -- what a character begins alone, and then what depends on the next one
  all_goals try first
    | (with_reducible refine hsingle _ ?_); rfl
    | (with_reducible refine operator_leads cs ?_); rfl
    | (with_reducible refine string_leads pos cs ?_); rfl
    | with_reducible exact template_leads pos cs
  all_goals split_ifs
  all_goals try first
    | (with_reducible refine hsingle _ ?_); rfl
    | (with_reducible refine operator_leads cs ?_); rfl
    | with_reducible exact number_leads _
    | exact name_leads _ [] _
    | exact name_leads _ [c] _
    | exact Or.inl (dropBytes_cons c cs)
  · next hdots =>
    have hprefix : '.' :: cs.take 2 <+: '.' :: cs := (List.prefix_cons_inj _).mpr (cs.take_prefix 2)
    rw [hdots] at hprefix
    exact punctuation_leads _ hprefix rfl
  · next hnext => exact hpair _ rfl rfl (by decide) hnext
  · next hnext => exact hpair _ rfl rfl (by decide) hnext.1

theorem read_rest_lt (pos : ℕ) (c : Char) (cs : List Char) :
    (read pos c cs).rest.length < (c :: cs).length := by
  rcases read_leads pos c cs with h | ⟨-, hnil, -⟩
  · exact length_lt_of_dropBytes (dropBytes_zero (c :: cs)) h (read_width_pos pos c cs)
  · rw [hnil]
    exact Nat.succ_pos _

theorem operator_kind (cs : List Char) :
    (operator cs).kind = .step ∨ (operator cs).kind = .operator := by
  unfold operator
  dsimp only [punctuation]
  split_ifs
  · exact Or.inl rfl
  · exact Or.inr rfl

theorem number_kind (cs : List Char) :
    (number cs).kind = .bigInt ∨ (number cs).kind = .number := by
  unfold number
  dsimp only
  split
  · exact Or.inl rfl
  · exact Or.inr rfl

/-- A character inside a text begins no end, and a template begins with its mark. -/
theorem read_kind (pos : ℕ) (c : Char) (cs : List Char) :
    (read pos c cs).kind ≠ .endOfFile ∧ ((read pos c cs).kind = .template → c = '`') := by
  have hoperator (cs : List Char) (c : Char) :
      (operator cs).kind ≠ .endOfFile ∧ ((operator cs).kind = .template → c = '`') := by
    rcases operator_kind cs with h | h <;> rw [h] <;> exact ⟨nofun, nofun⟩
  have hnumber (cs : List Char) (c : Char) :
      (number cs).kind ≠ .endOfFile ∧ ((number cs).kind = .template → c = '`') := by
    rcases number_kind cs with h | h <;> rw [h] <;> exact ⟨nofun, nofun⟩
  unfold read
  dsimp only
  split
  all_goals try split_ifs
  -- operators and numbers choose between two kinds, all others have one
  all_goals first
    | with_reducible exact hoperator _ _
    | with_reducible exact hnumber _ _
    | exact ⟨nofun, fun _ => rfl⟩
    | exact ⟨nofun, nofun⟩

/-- What a template denotes stands behind its mark. -/
theorem read_template (pos : ℕ) {c : Char} {cs : List Char}
    (h : (read pos c cs).kind = .template) :
    c = '`' ∧ ∃ after, cs = (read pos c cs).value ++ after := by
  obtain rfl := (read_kind pos c cs).2 h
  obtain ⟨mark, hsplit, -⟩ := templateBody_split (pos + 1) 0 [.template] cs
  exact ⟨rfl, _, hsplit⟩

end Lexeme

/-- A token is a part of a source, and so is what a template denotes. A string that a backslash at
the end of the source leaves open reaches one byte too far; the end of the text is behind it. -/
structure Token.LiesIn (source : List Char) (t : Token) : Prop where
  part : (sliceBytes source t.span.start t.span.stop).isSome = true ∨
    t.kind = .string ∧ (dropBytes source t.span.start).isSome = true ∧
      t.span.stop = byteLength source + 1 ∨
    t.kind = .endOfFile ∧ t.span = ⟨byteLength source + 1, byteLength source + 1⟩
  template : t.kind = .template → sliceBytes source (t.span.start + 1)
    (t.span.start + 1 + byteLength t.value.toList) = some t.value.toList

/-- A comment is a part of a source, and so is all that stands before it. -/
def Comment.LiesIn (source : List Char) (c : Comment) : Prop :=
  (sliceBytes source c.span.start c.span.stop).isSome = true ∧
    (sliceBytes source 0 c.span.start).isSome = true

/-- After a lexeme, reading goes on at a cut point, or behind a string that takes all that is left
and a byte more. -/
theorem Lexeme.read_liesIn {source cs : List Char} {c : Char} {pos : ℕ}
    (h : dropBytes source pos = some (c :: cs)) (afterBreak : Bool) :
    let x := read pos c cs
    (dropBytes source (pos + x.width) = some x.rest ∨
      x.rest = [] ∧ pos + x.width = byteLength source + 1) ∧
    Token.LiesIn source
      ⟨x.kind, ⟨pos, pos + x.width⟩, String.ofList x.value, afterBreak, x.substitutes⟩ := by
  intro x
  have hvalue (hkind : x.kind = .template) :
      sliceBytes source (pos + 1) (pos + 1 + byteLength (String.ofList x.value).toList) =
        some (String.ofList x.value).toList := by
    obtain ⟨rfl, after, hafter⟩ := read_template _ hkind
    rw [String.toList_ofList]
    exact sliceBytes_of_dropBytes
      (dropBytes_add h ((dropBytes_cons '`' cs).trans (congrArg some hafter)))
  rcases read_leads pos c cs with hx | ⟨hkind, hnil, hwidth, -⟩
  · exact ⟨Or.inl (dropBytes_add h hx), Or.inl (sliceBytes_isSome h hx), hvalue⟩
  · have hstop : pos + x.width = byteLength source + 1 := by
      rw [hwidth, byteLength_of_dropBytes h, Nat.add_assoc]
    exact ⟨Or.inr ⟨hnil, hstop⟩,
      Or.inr (Or.inl ⟨hkind, Option.isSome_of_eq_some h, hstop⟩), hvalue⟩

namespace Lexer

variable {source : List Char} {l : Lexer}

/-- A lexer reads on between two characters of the source, or behind a string that a backslash at
the end of the source leaves open. -/
structure Reads (source : List Char) (l : Lexer) : Prop where
  cut : dropBytes source l.pos = some l.rest ∨ l.rest = [] ∧ l.pos = byteLength source + 1
  comments : ∀ c ∈ l.comments, c.LiesIn source

/-- A first line that names an interpreter is a start of the text. -/
theorem interpreterLine_leads (rest : List Char) :
    (match rest with
      | '#' :: '!' :: _ => rest.takeWhile (· != '\n')
      | _ => []) <+: rest := by
  split
  · exact List.takeWhile_prefix _
  · exact List.nil_prefix

/-- Reading starts between two characters. -/
theorem ofText_cut (source : List Char) :
    dropBytes source (ofText source).pos = some (ofText source).rest := by
  unfold ofText pos
  dsimp only
  split
  · exact dropBytes_add (dropBytes_cons '\uFEFF' _) (dropBytes_of_leading (interpreterLine_leads _))
  · exact dropBytes_add (dropBytes_zero _) (dropBytes_of_leading (interpreterLine_leads _))

theorem ofText_rest_le (source : List Char) : (ofText source).rest.length ≤ source.length := by
  obtain ⟨before, htext, -⟩ := dropBytes_eq_some_iff.mp (ofText_cut source)
  have hlength := congrArg List.length htext
  rw [List.length_append] at hlength
  omega

theorem ofText_reads (source : List Char) : (ofText source).Reads source :=
  ⟨Or.inl (ofText_cut source), fun c hc => absurd hc (Array.not_mem_empty c)⟩

theorem scan_of_nil (h : l.rest = []) :
    l.scan.rest = [] ∧ l.scan.token = ⟨.endOfFile, ⟨l.pos, l.pos⟩, "", false, false⟩ ∧
      l.scan.comments = l.comments ∧ l.scan.problems = l.problems := by
  unfold scan
  rw [h]
  exact ⟨rfl, rfl, rfl, rfl⟩

theorem scan_rest_of_end (h : l.scan.token.kind = .endOfFile) : l.scan.rest = [] := by
  revert h
  unfold scan
  dsimp only
  split
  · exact fun _ => rfl
  · exact fun hkind => absurd hkind (Lexeme.read_kind _ _ _).1

/-- A scan before the end takes a character. -/
theorem scan_rest_lt (h : l.scan.token.kind ≠ .endOfFile) :
    l.scan.rest.length < l.rest.length := by
  have htrivia := trivia_rest_le l.pos 0 l.rest
  revert h
  unfold scan
  dsimp only
  split
  · exact fun hkind => absurd rfl hkind
  · next c cs hrest =>
    rw [hrest] at htrivia
    exact fun _ => Nat.lt_of_lt_of_le (Lexeme.read_rest_lt _ c cs) htrivia

theorem scan_rest_le (l : Lexer) : l.scan.rest.length ≤ l.rest.length := by
  by_cases hkind : l.scan.token.kind = .endOfFile
  · rw [scan_rest_of_end hkind]
    exact Nat.zero_le _
  · exact Nat.le_of_lt (scan_rest_lt hkind)

theorem scan_reads (h : l.Reads source) : l.scan.Reads source ∧ l.scan.token.LiesIn source := by
  rcases h.cut with hcut | ⟨hrest, hpos⟩
  · obtain ⟨htrivia, hcomments⟩ := trivia_cut l.pos 0 l.rest hcut
    have hall : ∀ c ∈ (trivia l.pos 0 l.rest).comments.foldl Array.push l.comments,
        c.LiesIn source := by
      intro c hc
      rw [List.foldl_push_eq_append', Array.mem_append] at hc
      refine hc.elim (h.comments c) fun hnew => ?_
      have hslice := hcomments c (List.mem_toArray.mp hnew)
      exact ⟨hslice, sliceBytes_isSome_of_start hslice⟩
    unfold scan
    dsimp only
    split
    · next hrest =>
      rw [hrest] at htrivia
      have hslice := sliceBytes_isSome htrivia (dropBytes_zero [])
      exact ⟨⟨Or.inl htrivia, hall⟩, ⟨Or.inl hslice, nofun⟩⟩
    · next c cs hrest =>
      rw [hrest] at htrivia
      obtain ⟨hread, htoken⟩ := Lexeme.read_liesIn htrivia (trivia l.pos 0 l.rest).afterBreak
      exact ⟨⟨hread, hall⟩, htoken⟩
  -- behind such a string there is nothing but the end
  · obtain ⟨hrest', htoken, hcomments, -⟩ := scan_of_nil hrest
    have hpos' : l.scan.pos = l.pos := by rw [pos, htoken]
    refine ⟨⟨Or.inr ⟨hrest', hpos'.trans hpos⟩, fun c hc => h.comments c (hcomments ▸ hc)⟩, ?_⟩
    rw [htoken, hpos]
    exact ⟨Or.inr (Or.inr ⟨rfl, rfl⟩), nofun⟩

/-- Nothing of the source is left at the end. -/
theorem le_scan_end (h : l.Reads source) (hkind : l.scan.token.kind = .endOfFile) :
    byteLength source ≤ l.scan.token.span.start := by
  have hend : l.scan.rest = [] ∧ l.scan.pos = l.scan.token.span.start := by
    revert hkind
    unfold scan pos
    dsimp only
    split
    · exact fun _ => ⟨rfl, rfl⟩
    · exact fun hkind => absurd hkind (Lexeme.read_kind _ _ _).1
  rw [← hend.2]
  rcases (scan_reads h).1.cut with hcut | ⟨-, hpos⟩
  · rw [byteLength_of_dropBytes hcut, hend.1]
    exact Nat.le_refl _
  · rw [hpos]
    exact Nat.le_succ _

theorem scanAll_ends (fuel : ℕ) (h : l.Reads source) (hfuel : l.rest.length < fuel) :
    ∃ taken last, (l.scanAll fuel).1 = taken ++ [last] ∧ (∀ t ∈ taken, t.kind ≠ .endOfFile) ∧
      last.kind = .endOfFile ∧ byteLength source ≤ last.span.start := by
  induction fuel generalizing l with
  | zero => exact absurd hfuel (Nat.not_lt_zero _)
  | succ fuel ih =>
    unfold scanAll
    dsimp only
    split
    · next hkind =>
      exact ⟨[], l.scan.token, rfl, List.forall_mem_nil _, hkind, le_scan_end h hkind⟩
    · next hkind =>
      -- a scan before the end takes a character, so what is left fits the smaller bound
      obtain ⟨taken, last, htokens, hinner, hlast⟩ := ih (scan_reads h).1
        (Nat.lt_of_lt_of_le (scan_rest_lt hkind) (Nat.le_of_lt_succ hfuel))
      exact ⟨l.scan.token :: taken, last, by rw [htokens]; rfl,
        List.forall_mem_cons.mpr ⟨hkind, hinner⟩, hlast⟩

theorem scanAll_reads (fuel : ℕ) (h : l.Reads source) :
    (∀ t ∈ (l.scanAll fuel).1, t.LiesIn source) ∧ (l.scanAll fuel).2.Reads source := by
  induction fuel generalizing l with
  | zero => exact ⟨nofun, h⟩
  | succ fuel ih =>
    obtain ⟨hscan, htoken⟩ := scan_reads h
    unfold scanAll
    dsimp only
    split
    · exact ⟨fun t ht => List.mem_singleton.mp ht ▸ htoken, hscan⟩
    · exact ⟨List.forall_mem_cons.mpr ⟨htoken, (ih hscan).1⟩, (ih hscan).2⟩

/-- Every token starts where those before it stop, or later. -/
theorem scanAll_apart (fuel : ℕ) (l : Lexer) :
    (l.scanAll fuel).1.Pairwise fun t u => t.span.stop ≤ u.span.start := by
  induction fuel generalizing l with
  | zero => exact List.Pairwise.nil
  | succ fuel ih =>
    unfold scanAll
    dsimp only
    split
    · exact List.pairwise_singleton _ _
    · exact List.pairwise_cons.mpr ⟨(scanAll_sorted fuel l.scan).1, ih l.scan⟩

end Lexer

namespace Lexed

/-- What scanning a text did: it went from one token to the next up to the end of the text, and
took all it read from inside the text. -/
structure Scans (text : List Char) (x : Lexed) : Prop where
  /-- Scanning starts between two characters. -/
  start : (dropBytes text x.start).isSome = true
  /-- The last token is the first end of the text, and no byte is left there. -/
  ends : ∃ taken last, x.tokens = taken ++ [last] ∧ (∀ t ∈ taken, t.kind ≠ .endOfFile) ∧
    last.kind = .endOfFile ∧ byteLength text ≤ last.span.start
  /-- Before the end, each scan takes at least a byte. -/
  wide : ∀ t ∈ x.tokens, t.kind ≠ .endOfFile → t.span.start < t.span.stop
  /-- Each scan goes on behind those before it. -/
  apart : x.tokens.Pairwise fun t u => t.span.stop ≤ u.span.start
  tokens : ∀ t ∈ x.tokens, t.LiesIn text
  comments : ∀ c ∈ x.comments, c.LiesIn text

theorem scans_lex (text : List Char) : (lex text).Scans text := by
  have hreads := Lexer.ofText_reads text
  obtain ⟨htokens, hlast⟩ := Lexer.scanAll_reads (text.length + 1) hreads
  exact
    { start := Option.isSome_of_eq_some (Lexer.ofText_cut text)
      ends := Lexer.scanAll_ends (text.length + 1) hreads
        (Nat.lt_succ_of_le (Lexer.ofText_rest_le text))
      wide := fun t ht => (Lexer.scanAll_width (text.length + 1) (Lexer.ofText text) t ht).2
      apart := Lexer.scanAll_apart (text.length + 1) (Lexer.ofText text)
      tokens := htokens
      comments := hlast.comments }

/-- The backslash has no character behind it, but counts one. -/
example : (lex ['"', '\\']).tokens.map (·.span) = [⟨0, 3⟩, ⟨3, 3⟩] := by decide +kernel

end Lexed

end ApiSurface

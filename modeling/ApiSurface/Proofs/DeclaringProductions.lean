import ApiSurface.Proofs.DeclaredNames
/-!
What the productions that declare something add to the table of declarations. A production within
itself gives what is claimed as long as it is deeper than there are characters left.
-/
namespace ApiSurface

namespace Parse

variable {α β : Type} {c : Setting} {s s₀ s₁ : ParseState} {name : Ident}

/-- What a parser finds in a state and the state after it are as wanted. -/
def Yields (p : Parse α) (c : Setting) (s : ParseState) (Q : α → ParseState → Prop) : Prop :=
  Q (p c s).1 (p c s).2

theorem Yields.bind {p : Parse α} {f : α → Parse β} {P : α → ParseState → Prop}
    {Q : β → ParseState → Prop} (hp : Yields p c s P)
    (hf : ∀ a s', P a s' → Yields (f a) c s' Q) : Yields (p >>= f) c s Q := hf _ _ hp

theorem Yields.pure {a : α} {Q : α → ParseState → Prop} (h : Q a s) :
    Yields (pure a) c s Q := h

/-- What comes after the body of a declaration. -/
theorem Yields.inBodyOf {p : Parse α} {f : α → Parse β} {i : DeclIndex} {P : α → ParseState → Prop}
    {Q : β → ParseState → Prop} (hp : Yields p c (s.inBody i) P)
    (hf : ∀ a s', P a s' → Yields (f a) c (s'.outOf s) Q) :
    Yields (inBodyOf i p >>= f) c s Q := hf _ _ hp

theorem Yields.mono {p : Parse α} {P Q : α → ParseState → Prop} (hp : Yields p c s P)
    (h : ∀ a s', P a s' → Q a s') : Yields p c s Q := h _ _ hp

theorem Passing.yields {p : Parse α} [hp : Passing p] (hs : s.Ordered) :
    Yields p c s fun _ s' => s.Passes s' := hp.passes c s hs

/-- Passing something that declares nothing. -/
theorem Yields.pass {p : Parse α} [Passing p] {f : α → Parse β} {Q : β → ParseState → Prop}
    (hs : s.Passes s₁) (hf : ∀ a s', s.Passes s' → Yields (f a) c s' Q) :
    Yields (p >>= f) c s₁ Q :=
  hf _ _ (hs.trans (Passing.passes c s₁ hs.ordered))

/-- Passing something that declares nothing after a name is found. -/
theorem Yields.past {p : Parse α} [Passing p] {f : α → Parse β} {Q : β → ParseState → Prop}
    (hs : s.Names s₁ name) (hf : ∀ a s', s.Names s' name → Yields (f a) c s' Q) :
    Yields (p >>= f) c s₁ Q :=
  hf _ _ (hs.andThen (Passing.passes c s₁ hs.passes.ordered))

/-- Looking at tokens without taking any. -/
theorem Yields.look {p : Parse α} [hp : Still p] {f : α → Parse β} {Q : β → ParseState → Prop}
    (hf : ∀ a, Yields (f a) c s Q) : Yields (p >>= f) c s Q := by
  show Yields (f (p c s).1) c (p c s).2 Q
  rw [hp.state]
  exact hf _

/-- A step of a repetition, for claims that do not say whether parsing goes on without end. -/
theorem stepOn_yields {σ : Type} {step : σ → Parse (σ × Bool)} {x : σ}
    {P : σ × Bool → ParseState → Prop} (hstep : Yields (step x) c s P)
    (hstall : ∀ r s, P r s → P r { s with stalled := true }) : Yields (stepOn step x) c s P := by
  unfold stepOn
  refine .look fun before => hstep.bind fun r s' hr => .look fun after => ?_
  dsimp only
  split
  · exact hstall _ _ hr
  · exact hr

/-- Steps repeated while they ask for more, where the first one is known by itself. -/
theorem collect_yields_of_first {step : Parse (List α × Bool)} {I R : List α → ParseState → Prop}
    (hfirst : Yields step c s fun r s' => R r.1 s' ∧ (r.2 = true → I r.1 s'))
    (hstep : ∀ xs s, I xs s → Yields step c s fun r s' =>
      R (xs ++ r.1) s' ∧ (r.2 = true → I (xs ++ r.1) s'))
    (hR : ∀ xs s, R xs s → R xs { s with stalled := true })
    (hI : ∀ xs s, I xs s → I xs { s with stalled := true }) : Yields (collect step) c s R := by
  have hnext (found : Array α) (s : ParseState) (hs : Yields step c s fun r s' =>
      R (found.toList ++ r.1) s' ∧ (r.2 = true → I (found.toList ++ r.1) s')) :
      Yields (stepOn (gather step) found) c s fun r s' =>
        R r.1.toList s' ∧ (r.2 = true → I r.1.toList s') := by
    refine stepOn_yields (hs.bind fun r s' hr => ?_) fun r s' hr =>
      ⟨hR _ _ hr.1, fun hmore => hI _ _ (hr.2 hmore)⟩
    show R (found ++ r.1.toArray).toList s' ∧ (r.2 = true → I (found ++ r.1.toArray).toList s')
    rwa [Array.toList_append]
  have hall (cs : List Char) (found : Array α) (s : ParseState) (hs : Yields step c s fun r s' =>
      R (found.toList ++ r.1) s' ∧ (r.2 = true → I (found.toList ++ r.1) s')) :
      Yields (iterateFrom (gather step) cs found) c s fun found s' => R found.toList s' := by
    induction cs generalizing found s with
    | nil =>
      refine (hnext found s hs).bind fun r s' hr => ?_
      obtain ⟨found', more⟩ := r
      cases more with
      | false => exact hr.1
      | true => exact hR _ _ hr.1
    | cons d cs ih =>
      refine (hnext found s hs).bind fun r s' hr => ?_
      obtain ⟨found', more⟩ := r
      cases more with
      | false => exact hr.1
      | true => exact ih found' s' (hstep _ _ (hr.2 rfl))
  exact hall (' ' :: s.rest) #[] s hfirst

/-- Steps repeated while they ask for more: what each of them finds at the start holds up to its
end, and then from the start on if it asks for more. -/
theorem collect_yields {step : Parse (List α × Bool)} {I R : List α → ParseState → Prop}
    (hstep : ∀ xs s, I xs s → Yields step c s fun r s' =>
      R (xs ++ r.1) s' ∧ (r.2 = true → I (xs ++ r.1) s'))
    (hR : ∀ xs s, R xs s → R xs { s with stalled := true })
    (hI : ∀ xs s, I xs s → I xs { s with stalled := true })
    (h : I [] s) : Yields (collect step) c s R :=
  collect_yields_of_first (hstep [] s h) hstep hR hI

/-! ### Tokens and names -/

variable {f : Token → Parse β} {g : Bool → Parse β} {Q : β → ParseState → Prop}

theorem Yields.current (h : Yields (f s.current) c s Q) : Yields (current >>= f) c s Q := h

theorem Yields.advance {f : Unit → Parse β} (h : Yields (f ()) c (next s) Q) :
    Yields (advance >>= f) c s Q := h

theorem Yields.isAt {kind : TokenKind} (h : Yields (g (s.current.kind == kind)) c s Q) :
    Yields (isAt kind >>= g) c s Q := h

theorem Yields.isAtAny {kinds : List TokenKind}
    (h : Yields (g (kinds.contains s.current.kind)) c s Q) : Yields (isAtAny kinds >>= g) c s Q := h

theorem Yields.isAtWord {word : String} (h : Yields (g (s.current.isWord word)) c s Q) :
    Yields (isAtWord word >>= g) c s Q := h

theorem accept_yields {kind : TokenKind} (hkind : kind ≠ .endOfFile) (hs : s.Ordered) :
    Yields (accept kind) c s fun taken s' => s.Passes s' ∧
      (taken = true → s.pos < s'.pos ∧ s'.ahead < s.ahead) := by
  unfold accept
  refine .isAt ?_
  split
  · next heq =>
    have hcurrent : s.current.kind ≠ .endOfFile := eq_of_beq heq ▸ hkind
    exact ⟨ParseState.next_passes hs, fun _ => ParseState.next_passed hs hcurrent⟩
  · exact ⟨.refl hs, fun htaken => absurd htaken Bool.false_ne_true⟩

theorem expect_yields {kind : TokenKind} (hkind : kind ≠ .endOfFile) (hs : s.Ordered) :
    Yields (expect kind) c s fun taken s' => s.Passes s' ∧
      (taken = true → s.pos < s'.pos ∧ s'.ahead < s.ahead) := by
  unfold expect
  refine .bind (accept_yields hkind hs) fun taken s₁ h => ?_
  split
  · next htaken => exact ⟨h.1, fun _ => h.2 htaken⟩
  · exact .pass h.1 fun _ s₂ h₂ => ⟨h₂, fun htaken => absurd htaken Bool.false_ne_true⟩

theorem takeIdent_yields (hs : s.Ordered) (hkind : s.current.kind ≠ .endOfFile) :
    Yields takeIdent c s fun name s' => s.Names s' name :=
  ParseState.names_next hs hkind s.current.value

theorem report_current (p : Problem) : (report p c s).2.current = s.current := by
  show (if s.diagnostics.back?.any _ then s else _ : ParseState).current = _
  split <;> rfl

theorem identifier_yields (hs : s.Ordered) :
    Yields identifier c s fun name s' => s.Names s' name := by
  unfold identifier
  refine .isAt ?_
  split
  · next heq => exact takeIdent_yields hs fun hend => by rw [hend] at heq; cases heq
  · next hne =>
    -- a name that is missing is empty, at a token that is no word
    have hreport : s.Passes (report .identifierExpected c s).2 := Passing.passes c s hs
    have hcurrent : (report .identifierExpected c s).2.current = s.current := report_current _
    have hpos : (report .identifierExpected c s).2.pos = s.pos := congrArg (·.span.start) hcurrent
    refine ⟨hreport, Nat.le_of_eq hpos.symm, Nat.le_refl _, fun hkind => ?_⟩
    exact absurd (beq_iff_eq.mpr (congrArg Token.kind hcurrent ▸ hkind)) hne

/-! ### The table of declarations -/

theorem declare_opens (hs : s.Tidy) (hfresh : s.Fresh) (hname : s.Names s₁ name) {span : Span}
    {modifiers : Modifiers} {doc : Option String} {shape : DeclarationShape}
    (hlead : 0 < name.span.start ∨
      (⟨name, span, modifiers, doc, shape, s₁.context.parent⟩ : Declaration).MayLead)
    (hlists : shape.ListsNothing) :
    Yields (declare name span modifiers doc shape) c s₁ fun i s' =>
      s₁.Opens s' i ⟨name, span, modifiers, doc, shape, s₁.context.parent⟩ :=
  hs.opens (d := ⟨name, span, modifiers, doc, shape, s₁.context.parent⟩) hfresh hname hlead hlists

/-- A declaration that nothing is declared in. -/
theorem declare_yields (hs : s.Tidy) (hfresh : s.Fresh) (hname : s.Names s₁ name) {span : Span}
    {modifiers : Modifiers} {doc : Option String} {shape : DeclarationShape}
    (hlead : 0 < name.span.start ∨
      (⟨name, span, modifiers, doc, shape, s₁.context.parent⟩ : Declaration).MayLead)
    (hleaf : shape.IsLeaf) :
    Yields (declare name span modifiers doc shape) c s₁ fun i s' =>
      s.Adds s' (fun _ => [i]) ∧ s.Declares s' [.declaration i] ∧
        ∃ d, s'.declarations[i]? = some d ∧ d.shape = shape := by
  refine (declare_opens hs hfresh hname hlead hleaf.listsNothing).mono fun i s' h => ?_
  have hadds := h.adds_self (Declaration.not_isGlobal_of_leaf hleaf)
  have hd : s'.declarations[i]? = some ⟨name, span, modifiers, doc, shape, s₁.context.parent⟩ := by
    rw [h.declarations, ← h.index, Array.getElem?_push_size]
  refine ⟨hadds.after hname.passes, (ParseState.declares_declaration (fun _ => hadds)
    fun n f hf => ?_).after hname.passes, _, hd, rfl⟩
  have hheld := hf i (Nat.le_of_eq h.index) (Array.getElem?_eq_some_iff.mp hd).1
  rw [SourceFile.boundBy_leaf (hheld.trans hd) hleaf]

/-- A declaration that is completed after what is declared in it. -/
theorem complete_yields {s₂ : ParseState} {i : DeclIndex} {d : Declaration}
    (h : s.Opens s₁ i d) {l : ℕ → SourceFile → List DeclIndex} (h' : ∀ n, s₁.Adds s₂ (l n))
    {span : Span} {shape : DeclarationShape}
    (hlead : d.MayLead → ({ d with span, shape } : Declaration).MayLead)
    (hmember : ¬ d.IsMember)
    (hlists : ({ d with span, shape } : Declaration).ListsMembers s₂.declarations)
    (hl : ∀ (n : ℕ) (f : SourceFile), f.declaration? i = some { d with span, shape } →
      (f.boundBy (f.boundIn n) i).Sublist (i :: l n f))
    (hbound : ∀ (n : ℕ) (f : SourceFile), f.declaration? i = some { d with span, shape } →
      ({ d with span, shape } : Declaration).IsGlobal →
        (f.boundBy (f.boundIn n) i).Sublist (l n f)) :
    Yields (complete i span shape) c s₂ fun _ s' => s.Declares s' [.declaration i] :=
  ParseState.declares_declaration (l := fun n f => f.boundBy (f.boundIn n) i)
    (fun n => h.complete (h' n) rfl hlead hmember hlists (hl n) (hbound n))
    fun _ _ _ => List.Sublist.refl _

end Parse

namespace Productions

open Parse ParseState

variable {g : Productions} {c : Setting} {s : ParseState}

theorem ne_end_of_word (hword : s.current.kind = .identifier) : s.current.kind ≠ .endOfFile := by
  rw [hword]
  exact TokenKind.noConfusion

/-- A name after a first word. -/
theorem named_yields (hs : s.Ordered) (hword : s.current.kind = .identifier) :
    Yields identifier c (next s) fun name s' => s.Names s' name ∧ 0 < name.span.start := by
  have hfirst := next_passes hs
  have hpos := Nat.zero_lt_of_lt (next_passed hs (ne_end_of_word hword)).1
  refine (identifier_yields hfirst.ordered).mono fun name s' hname => ⟨hname.after hfirst, ?_⟩
  exact Nat.lt_of_lt_of_le hpos hname.pos_le

/-! ### Modules -/

/-- What statements and modules within themselves declare, as long as fewer than `n` characters
are left. -/
structure Declaring (g : Productions) (n : ℕ) : Prop where
  statements : ∀ (c : Setting) (s : ParseState), s.Tidy → s.ahead < n →
    Yields g.statements c s fun statements s' => s.Declares s' statements
  module : ∀ (c : Setting) (s : ParseState) (start : ℕ) (doc : Option String)
    (modifiers : Modifiers), s.Tidy → s.Ready → s.ahead < n →
    Yields (g.module start doc modifiers) c s fun i s' => s.Declares s' [.declaration i]

variable {n : ℕ}

/-- A module is bound where it is, unless it is a block for the whole program, with what its body
declares. -/
theorem boundBy_module {f : SourceFile} {i : DeclIndex} {d : Declaration} {naming : ModuleNaming}
    {body : Option (List Statement)} (hd : f.declaration? i = some d)
    (hshape : d.shape = .module naming body) (inner : List Statement → List DeclIndex) :
    (f.boundBy inner i).Sublist (i :: (body.map inner).getD []) := by
  rw [SourceFile.boundBy, hd, Option.map_some, hshape]
  dsimp only
  split
  · exact List.sublist_cons_self _ _
  · exact List.Sublist.refl _

theorem boundBy_global {f : SourceFile} {i : DeclIndex} {d : Declaration} {naming : ModuleNaming}
    {body : Option (List Statement)} (hd : f.declaration? i = some d)
    (hshape : d.shape = .module naming body) (hglobal : d.IsGlobal)
    (inner : List Statement → List DeclIndex) :
    (f.boundBy inner i).Sublist ((body.map inner).getD []) := by
  rw [Declaration.IsGlobal, Declaration.naming?, hshape] at hglobal
  rw [SourceFile.boundBy, hd, Option.map_some, hshape]
  dsimp only
  rw [if_pos (Option.some.inj hglobal), List.nil_append]

/-- A module that is completed after its body. -/
theorem complete_module_yields {s₁ s₂ : ParseState} {i : DeclIndex} {d : Declaration}
    (h : s.Opens s₁ i d) {naming : ModuleNaming} (hd : d.shape = .module naming none)
    {body : Option (List Statement)}
    (h' : ∀ m, s₁.Adds s₂ fun f => (body.map (f.boundIn m)).getD []) {span : Span} :
    Yields (complete i span (.module naming body)) c s₂ fun _ s' =>
      s.Declares s' [.declaration i] := by
  have hmember : ¬ d.IsMember := by
    rintro ⟨initial, hshape⟩
    rw [hd] at hshape
    cases hshape
  refine complete_yields h h' (fun hlead => ?_) hmember nofun
    (fun m f hf => boundBy_module hf rfl _) fun m f hf hglobal => boundBy_global hf rfl hglobal _
  simpa [Declaration.MayLead, Declaration.IsNameless, Declaration.IsGlobal, Declaration.naming?, hd,
    DeclarationShape.kindName] using hlead

theorem moduleBody_declares {name : Ident} {s₁ : ParseState} (hg : g.Declaring n) (hs : s.Tidy)
    (hfresh : s.Fresh) (hname : s.Names s₁ name) {naming : ModuleNaming}
    (hlead : 0 < name.span.start ∨ naming = .global) (hahead : s.ahead ≤ n) (start : ℕ)
    (doc : Option String) (modifiers : Modifiers) :
    Yields (g.moduleBody start doc modifiers name naming) c s₁ fun i s' =>
      s.Declares s' [.declaration i] := by
  unfold moduleBody
  refine .bind (declare_opens hs hfresh hname (hlead.imp_right fun hglobal => ?_) trivial)
    fun i s₂ h₂ => ?_
  · exact Or.inr (congrArg some hglobal)
  have hle : s₂.ahead ≤ n := Nat.le_trans h₂.adds.ahead_le
    (Nat.le_trans hname.passes.ahead_le hahead)
  refine .bind (accept_yields (by decide) h₂.adds.tidy.ordered) fun isOpen s₃ h₃ => ?_
  -- both branches go on to complete the declaration
  extract_lets tail
  have htail {body : Option (List Statement)} {s' : ParseState}
      (h : ∀ m, s₂.Adds s' fun f => (body.map (f.boundIn m)).getD []) :
      Yields (tail body) c s' fun i s' => s.Declares s' [.declaration i] := by
    refine .bind (Passing.yields (h 0).tidy.ordered) fun span s₄ h₄ => ?_
    exact .bind (complete_module_yields h₂ rfl fun m => (h m).andThen h₄) fun _ s₅ h₅ =>
      .pure (h₅.after hname.passes)
  split
  · next hopen =>
    -- the brace is taken, so the statements within have a token less
    have hlt := Nat.lt_of_lt_of_le (h₃.2 hopen).2 hle
    refine .inBodyOf (hg.statements _ _ ((h₃.1.tidy h₂.adds.tidy).inBody i) hlt)
      fun statements s₄ h₄ => ?_
    have h₄ := h₄.outOf
    refine .bind (Passing.yields h₄.tidy.ordered) fun _ s₅ h₅ => htail fun m => ?_
    exact ((h₄.andThen h₅).after h₃.1) m
  · exact .pass h₃.1 fun _ s₄ h₄ => htail fun _ => h₄.adds h₂.adds.tidy

theorem moduleProduction_declares (hg : g.Declaring n) (hs : s.Tidy) (hready : s.Ready)
    (hahead : s.ahead ≤ n) (start : ℕ) (doc : Option String) (modifiers : Modifiers) :
    Yields (g.moduleProduction start doc modifiers) c s fun i s' =>
      s.Declares s' [.declaration i] := by
  unfold moduleProduction
  refine .isAt ?_
  split
  · next hstring =>
    have hend : s.current.kind ≠ .endOfFile := by
      rw [eq_of_beq hstring]
      decide
    refine .bind (takeIdent_yields hs.ordered hend) fun name s₁ hname => ?_
    have hlead := hready.start_pos hname
    exact moduleBody_declares hg hs hready.fresh hname (Or.inl hlead) hahead start doc modifiers
  · refine .bind (identifier_yields hs.ordered) fun name s₁ hname => .isAt ?_
    split
    · next hdot =>
      refine .bind (declare_opens hs hready.fresh hname (Or.inl (hready.start_pos hname)) trivial)
        fun i s₂ h₂ => ?_
      have hend : s₂.current.kind ≠ .endOfFile := by
        rw [h₂.current, eq_of_beq hdot]
        decide
      have hnext := next_passes h₂.adds.tidy.ordered
      have hpassed := next_passed h₂.adds.tidy.ordered hend
      -- the dot is taken, so the module within has a token less
      have hlt : (next s₂).ahead < n := Nat.lt_of_lt_of_le hpassed.2
        (Nat.le_trans h₂.adds.ahead_le (Nat.le_trans hname.passes.ahead_le hahead))
      refine .advance ?_
      extract_lets inner
      refine .look fun position => ?_
      have hready := hnext.ready h₂.adds.tidy hpassed.1
      refine .inBodyOf (hg.module _ _ position none inner
        ((hnext.tidy h₂.adds.tidy).inBody i) ⟨hready.fresh, hready.pos_pos⟩ hlt) fun j s₄ h₄ => ?_
      have h₄ := h₄.outOf
      refine .bind (Passing.yields h₄.tidy.ordered) fun span s₅ h₅ => ?_
      have hinner : ∀ m, s₂.Adds s₅ fun f =>
          ((some [Statement.declaration j]).map (f.boundIn m)).getD [] :=
        fun m => ((h₄ m).andThen h₅).after hnext
      exact .bind (complete_module_yields h₂ rfl hinner) fun _ s₆ h₆ =>
        .pure (h₆.after hname.passes)
    · exact moduleBody_declares hg hs hready.fresh hname (Or.inl (hready.start_pos hname)) hahead
        start doc modifiers

/-! ### Other declarations -/

variable [Quiet g]

/-- The name of a function or class after its keyword. Where a word is missing, the keyword is the
place of the name. -/
theorem name_or_keyword_yields {s₁ : ParseState} (hs : s.Ordered)
    (hword : s.current.kind = .identifier) (h₁ : (next s).Passes s₁)
    {tail : Ident → Parse DeclIndex} {Q : DeclIndex → ParseState → Prop}
    (htail : ∀ (name : Ident) (s' : ParseState), s.Names s' name →
      0 < name.span.start ∨ name.text = "default" → Yields (tail name) c s' Q)
    (named : Bool) (modifiers : Modifiers) :
    Yields (if named = true then do
        let name ← identifier
        tail name
      else if (!modifiers.contains .default) = true then do
        let _ ← identifier
        tail ⟨"default", s.current.span⟩
      else tail ⟨"default", s.current.span⟩) c s₁ Q := by
  have hend := ne_end_of_word hword
  have hkeyword := (names_next hs hend "default").andThen h₁
  -- the parser gives up a name that it reports as missing, and takes the keyword's place
  split
  · refine .bind (identifier_yields h₁.ordered) fun name s' hname => ?_
    refine htail name s' ((hname.after h₁).after (next_passes hs)) (Or.inl ?_)
    exact Nat.lt_of_lt_of_le (Nat.zero_lt_of_lt (next_passed hs hend).1)
      (hname.after h₁).pos_le
  · split
    · exact .bind (Passing.yields h₁.ordered) fun _ s' h' =>
        htail _ s' (hkeyword.andThen h') (Or.inr rfl)
    · exact htail _ s₁ hkeyword (Or.inr rfl)

theorem functionDeclaration_declares (hs : s.Tidy) (hword : s.current.kind = .identifier)
    (start : ℕ) (doc : Option String) (modifiers : Modifiers) :
    Yields (g.functionDeclaration start doc modifiers) c s fun i s' =>
      s.Declares s' [.declaration i] := by
  unfold functionDeclaration
  refine .current (.advance (.pass (.refl (next_passes hs.ordered).ordered) fun _ s₁ h₁ =>
    .pass h₁ fun named s₂ h₂ => ?_))
  refine name_or_keyword_yields hs.ordered hword h₂ (fun name s₃ hname hlead => ?_) named modifiers
  refine .past hname fun signature s₄ hname => .past hname fun body s₅ hname =>
    .past hname fun span s₆ hname => ?_
  refine (declare_yields hs (hs.fresh hword) hname ?_ (by trivial)).mono fun i s' h => h.2.1
  exact hlead.imp_right fun hdefault => Or.inl ⟨hdefault, Or.inl rfl⟩

theorem declarator_declares (hs : s.Tidy) (hready : s.Ready)
    (kind : VariableKind) (doc : Option String) (modifiers : Modifiers) :
    Yields (g.declarator kind doc modifiers) c s fun is s' =>
      s.Declares s' (is.map .declaration) := by
  unfold declarator
  refine .pass (.refl hs.ordered) fun _ s₁ h₁ => ?_
  split
  · refine .pass h₁ fun _ s₂ h₂ => .pass h₂ fun _ s₃ h₃ => .pass h₃ fun _ s₄ h₄ => ?_
    exact h₄.declares hs
  · refine .bind (identifier_yields h₁.ordered) fun name s₂ hname => ?_
    refine .past (hname.after h₁) fun _ s₃ hname => .past hname fun type s₄ hname =>
      .past hname fun initial s₅ hname => .past hname fun span s₆ hname => ?_
    have hlead := hready.start_pos hname
    exact .bind (declare_yields hs hready.fresh hname (Or.inl hlead) (by trivial))
      fun i s' h => h.2.1

theorem variableStatement_declares (hs : s.Tidy) (hword : s.current.kind = .identifier)
    (doc : Option String) (modifiers : Modifiers) :
    Yields (g.variableStatement doc modifiers) c s fun is s' =>
      s.Declares s' (is.map .declaration) := by
  have hend := ne_end_of_word hword
  have hfirst := next_passes hs.ordered
  unfold variableStatement
  refine .current (.advance (.bind (P := fun is s' => s.Declares s' (is.map .declaration)) ?_
    fun is s₁ h => .bind (Passing.yields h.tidy.ordered) fun _ s₂ h₂ =>
      .pure (h.andThen h₂)))
  refine collect_yields (I := fun is s' => s.Declares s' (is.map .declaration) ∧ s'.Ready)
    (fun is s₁ h => ?_) (fun _ _ h => h.andThen (.stall h.tidy.ordered))
    (fun _ _ h => ⟨h.1.andThen (.stall h.1.tidy.ordered), h.2.fresh, h.2.pos_pos⟩)
    ⟨hfirst.declares hs, hfirst.ready hs (next_passed hs.ordered hend).1⟩
  refine .bind (declarator_declares h.1.tidy h.2 _ doc modifiers) fun new s₂ hnew => ?_
  refine .bind (accept_yields (by decide) hnew.tidy.ordered) fun more s₃ hmore => ?_
  -- a comma was taken if there is more, so the next name stands behind this one
  have hall := (h.1.append hnew).andThen hmore.1
  rw [← List.map_append] at hall
  exact ⟨hall, fun htaken => ⟨hall, hmore.1.ready hnew.tidy (hmore.2 htaken).1⟩⟩

theorem typeAlias_declares (hs : s.Tidy) (hword : s.current.kind = .identifier)
    (start : ℕ) (doc : Option String) (modifiers : Modifiers) :
    Yields (g.typeAlias start doc modifiers) c s fun i s' => s.Declares s' [.declaration i] := by
  unfold typeAlias
  refine .advance (.bind (named_yields hs.ordered hword) fun name s₁ ⟨hname, hlead⟩ => ?_)
  refine .past hname fun typeParams s₂ hname => .past hname fun _ s₃ hname =>
    .past hname fun type s₄ hname => .past hname fun _ s₅ hname => .past hname fun span s₆ hname =>
    ?_
  exact (declare_yields hs (hs.fresh hword) hname (Or.inl hlead) (by trivial)).mono
    fun i s' h => h.2.1

theorem interfaceDeclaration_declares (hs : s.Tidy) (hword : s.current.kind = .identifier)
    (start : ℕ) (doc : Option String) (modifiers : Modifiers) :
    Yields (g.interfaceDeclaration start doc modifiers) c s fun i s' =>
      s.Declares s' [.declaration i] := by
  unfold interfaceDeclaration
  refine .advance (.bind (named_yields hs.ordered hword) fun name s₁ ⟨hname, hlead⟩ => ?_)
  refine .past hname fun typeParams s₂ hname => .past hname fun extends_ s₃ hname =>
    .past hname fun members s₄ hname => .past hname fun span s₅ hname => ?_
  exact (declare_yields hs (hs.fresh hword) hname (Or.inl hlead) (by trivial)).mono
    fun i s' h => h.2.1

theorem classDeclaration_declares (hs : s.Tidy) (hword : s.current.kind = .identifier)
    (start : ℕ) (doc : Option String) (modifiers : Modifiers) :
    Yields (g.classDeclaration start doc modifiers) c s fun i s' =>
      s.Declares s' [.declaration i] := by
  unfold classDeclaration
  refine .current (.advance (.pass (.refl (next_passes hs.ordered).ordered) fun isWord s₁ h₁ =>
    .pass h₁ fun isHeritage s₂ h₂ => ?_))
  refine name_or_keyword_yields hs.ordered hword h₂ (fun name s₃ hname hlead => ?_)
    (isWord && !isHeritage) modifiers
  refine .past hname fun typeParams s₄ hname => ?_
  refine .bind (P := fun _ s' => s.Names s' name) ?_ fun heritage s₅ hname => ?_
  · refine hname.andThen ((Quiet.iterate (fun heritage => ?_) (none, []) |>.walks c _).passes
      hname.passes.ordered)
    dsimp only
    infer_instance
  · refine .past hname fun members s₆ hname => .past hname fun span s₇ hname => ?_
    refine (declare_yields hs (hs.fresh hword) hname ?_ (by trivial)).mono fun i s' h => h.2.1
    exact hlead.imp_right fun hdefault => Or.inl ⟨hdefault, Or.inr rfl⟩

theorem enumMember_adds (hs : s.Tidy) (hready : s.Ready) :
    Yields g.enumMember c s fun r s' => s.AddsMembers s' r.1 ∧ (r.2 = true → s'.Ready) := by
  unfold enumMember
  refine .isAtAny ?_
  split
  · exact .pure ⟨(Passes.refl hs.ordered).addsMembers hs, fun h => absurd h Bool.false_ne_true⟩
  · next hmore =>
    have hend : s.current.kind ≠ .endOfFile := by
      intro hend
      rw [hend] at hmore
      exact hmore rfl
    refine .pass (.refl hs.ordered) fun doc s₁ h₁ => .pass h₁ fun start s₂ h₂ => .isAtAny ?_
    split
    · next hname =>
      have hend' : s₂.current.kind ≠ .endOfFile := by
        intro hend'
        rw [hend'] at hname
        exact Bool.false_ne_true hname
      refine .bind (takeIdent_yields h₂.ordered hend') fun name s₃ hname => ?_
      refine .past (hname.after h₂) fun initial s₄ hname => .past hname fun span s₅ hname => ?_
      refine .bind (declare_yields hs hready.fresh hname (Or.inl (hready.start_pos hname))
        (by trivial)) fun i s₆ h₆ => ?_
      refine .bind (accept_yields (by decide) h₆.1.tidy.ordered) fun more s₇ h₇ =>
        .pure ⟨⟨h₆.1.andThen h₇.1, fun m hm => ?_⟩, fun htaken => ?_⟩
      · obtain ⟨e, he, hshape⟩ := h₆.2.2
        rw [List.mem_singleton.mp hm, h₇.1.declarations]
        exact ⟨e, he, _, hshape⟩
      · exact h₇.1.ready h₆.1.tidy (h₇.2 htaken).1
    · -- a token that starts no member is passed, so there is one less all the same
      refine .pass h₂ fun _ s₃ h₃ => .advance (.pure ?_)
      have hall := h₃.trans (next_passes h₃.ordered)
      exact ⟨hall.addsMembers hs, fun _ => hall.ready hs (h₃.next_lt hend)⟩

theorem enumDeclaration_declares (hs : s.Tidy) (hword : s.current.kind = .identifier)
    (start : ℕ) (doc : Option String) (modifiers : Modifiers) :
    Yields (g.enumDeclaration start doc modifiers) c s fun i s' =>
      s.Declares s' [.declaration i] := by
  unfold enumDeclaration
  refine .advance (.bind (named_yields hs.ordered hword) fun name s₁ ⟨hname, hlead⟩ => ?_)
  refine .bind (declare_opens hs (hs.fresh hword) hname (Or.inl hlead) rfl) fun i s₂ h₂ => ?_
  have hopen : (s₂.inBody i).Tidy := h₂.adds.tidy.inBody i
  refine .inBodyOf (P := fun members s' => (s₂.inBody i).AddsMembers s' members) ?_
    fun members s₃ h₃ => ?_
  · refine .bind (expect_yields (by decide) hopen.ordered) fun isOpen s₃ h₃ => ?_
    split
    · next htaken =>
      refine .bind (collect_yields
        (I := fun members s' => (s₂.inBody i).AddsMembers s' members ∧ s'.Ready)
        (R := fun members s' => (s₂.inBody i).AddsMembers s' members) (fun members s' h => ?_)
        (fun _ _ h => h.andThen (.stall h.adds.tidy.ordered))
        (fun _ _ h => ⟨h.1.andThen (.stall h.1.adds.tidy.ordered), h.2.fresh, h.2.pos_pos⟩) ?_)
        fun members s₄ h₄ => ?_
      · refine (enumMember_adds h.1.adds.tidy h.2).mono fun r s'' hr => ?_
        have hall := h.1.append hr.1
        exact ⟨hall, fun hmore => ⟨hall, hr.2 hmore⟩⟩
      · exact ⟨h₃.1.addsMembers hopen, h₃.1.ready hopen (h₃.2 htaken).1⟩
      · exact .bind (Passing.yields h₄.adds.tidy.ordered) fun _ s₅ h₅ => .pure (h₄.andThen h₅)
    · exact .pure (h₃.1.addsMembers hopen)
  · have h₃ := h₃.outOf
    refine .bind (Passing.yields h₃.adds.tidy.ordered) fun span s₄ h₄ => ?_
    have h₄ := h₃.andThen h₄
    refine .bind (complete_yields h₂ (fun _ => h₄.adds) (fun h => h) nofun ?_ (fun n f hd => ?_)
      fun _ _ _ hglobal => nomatch hglobal) fun _ s₅ h₅ => .pure (h₅.after hname.passes)
    · intro listed hshape
      obtain rfl := DeclarationShape.enum.inj hshape
      exact h₄.members
    · rw [SourceFile.boundBy, hd]
      exact List.Sublist.refl _

theorem declaration_declares (hg : g.Declaring n) (hs : s.Tidy) (hahead : s.ahead ≤ n)
    (start : ℕ) (doc : Option String) (modifiers : Modifiers) :
    Yields (g.declaration? start doc modifiers) c s fun found s' =>
      s.Declares s' (found.getD []) ∧ (found = none → s.Passes s') := by
  unfold declaration?
  extract_lets one declared
  have hone {p : Parse DeclIndex} {s₁ : ParseState}
      (h : Yields p c s₁ fun i s' => s.Declares s' [.declaration i]) :
      Yields (one p) c s₁ fun found s' =>
        s.Declares s' (found.getD []) ∧ (found = none → s.Passes s') :=
    .bind h fun i s' hi => .pure ⟨hi, nofun⟩
  have hnone {s₁ : ParseState} (h : s.Passes s₁) :
      Yields (pure none) c s₁ fun found s' =>
        s.Declares s' (found.getD []) ∧ (found = none → s.Passes s') :=
    .pure ⟨h.declares hs, fun _ => h⟩
  refine .isAt ?_
  split
  · exact hnone (.refl hs.ordered)
  · next hword =>
    have hword : s.current.kind = .identifier := by simpa using hword
    have hend := ne_end_of_word hword
    have hvariables : Yields declared c s fun found s' =>
        s.Declares s' (found.getD []) ∧ (found = none → s.Passes s') :=
      .bind (variableStatement_declares hs hword doc modifiers) fun is s' h => .pure ⟨h, nofun⟩
    have hmodule : Yields (do
        if ← isBeforeModuleName then
          advance
          one (g.moduleProduction start doc modifiers)
        else return none) c s fun found s' =>
        s.Declares s' (found.getD []) ∧ (found = none → s.Passes s') := by
      refine .look fun isName => ?_
      split
      · have hnext := next_passes hs.ordered
        have hready := hnext.ready hs (next_passed hs.ordered hend).1
        refine .advance (hone ((moduleProduction_declares hg (hnext.tidy hs) hready
          (Nat.le_trans hnext.ahead_le hahead) start doc modifiers).mono fun i s' h => ?_))
        exact h.after hnext
      · exact hnone (.refl hs.ordered)
    -- one case a keyword, in the order of the production
    refine .current ?_
    split
    · exact hone (functionDeclaration_declares hs hword start doc modifiers)
    · exact hvariables
    · exact hvariables
    -- `const` before `enum` is none of a variable
    · refine .look fun t => ?_
      split
      · exact hvariables
      · exact hnone (.refl hs.ordered)
    · refine .look fun isName => ?_
      split
      · exact hone (typeAlias_declares hs hword start doc modifiers)
      · exact hnone (.refl hs.ordered)
    · refine .look fun isName => ?_
      split
      · exact hone (interfaceDeclaration_declares hs hword start doc modifiers)
      · exact hnone (.refl hs.ordered)
    · exact hone (classDeclaration_declares hs hword start doc modifiers)
    · refine .look fun isName => ?_
      split
      · exact hone (enumDeclaration_declares hs hword start doc modifiers)
      · exact hnone (.refl hs.ordered)
    · exact hmodule
    · exact hmodule
    -- `global` is its own name, so it may stand at the very start
    · refine .look fun isBlock => ?_
      split
      · refine .bind (takeIdent_yields hs.ordered hend) fun name s₁ hname => hone ?_
        exact moduleBody_declares hg hs (hs.fresh hword) hname (Or.inr rfl) hahead start doc
          modifiers
      · exact hnone (.refl hs.ordered)
    · exact hnone (.refl hs.ordered)

end Productions

end ApiSurface

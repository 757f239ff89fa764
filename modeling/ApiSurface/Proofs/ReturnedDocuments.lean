import ApiSurface.Proofs.FoundDocuments
import ApiSurface.Proofs.ReturnedTokens
/-!
What a documentation comment says does not depend on the line ends of the text: its lines are cut
without them. So the same documentation is found in a text and in the text with carriage returns.
-/
namespace ApiSurface

/-! ### Lines and searches -/

/-- A carriage return at the end of every piece but the last. -/
def returnPieces : List (List Char) → List (List Char)
  | [] => []
  | [l] => [l]
  | l :: ls => (l ++ ['\r']) :: returnPieces ls

theorem returnPieces_cons (l : List Char) {ls : List (List Char)} (h : ls ≠ []) :
    returnPieces (l :: ls) = (l ++ ['\r']) :: returnPieces ls := by
  cases ls with
  | nil => exact absurd rfl h
  | cons m ls => rfl

theorem piecesAt_withReturns (cs : List Char) :
    piecesAt '\n' (withReturns cs) = returnPieces (piecesAt '\n' cs) := by
  induction cs with
  | nil => rfl
  | cons c cs ih =>
    have hne := piecesAt_ne_nil '\n' cs
    by_cases hfeed : c = '\n'
    · subst hfeed
      rw [withReturns.feed, piecesAt, if_neg (by decide), piecesAt, if_pos rfl, ih, piecesAt,
        if_pos rfl, returnPieces_cons [] hne]
      rfl
    · rw [withReturns.cons hfeed, piecesAt, if_neg hfeed, ih, piecesAt, if_neg hfeed]
      cases hpieces : piecesAt '\n' cs with
      | nil => exact absurd hpieces hne
      | cons l ls => cases ls <;> rfl

theorem notMem_piece {sep c : Char} {cs : List Char} (h : c ∉ cs) :
    ∀ piece ∈ piecesAt sep cs, c ∉ piece := by
  induction cs with
  | nil => simp [piecesAt]
  | cons d cs ih =>
    obtain ⟨hd, hcs⟩ := not_or.mp (List.mem_cons.not.mp h)
    unfold piecesAt
    split
    · exact List.forall_mem_cons.mpr ⟨List.not_mem_nil, ih hcs⟩
    · split
      · exact List.forall_mem_singleton.mpr (List.mem_singleton.not.mpr hd)
      · next l ls hpieces =>
        have hall := ih hcs
        rw [hpieces, List.forall_mem_cons] at hall
        exact List.forall_mem_cons.mpr ⟨List.mem_cons.not.mpr (not_or.mpr ⟨hd, hall.1⟩), hall.2⟩

theorem dropFinalReturn_append (l : List Char) : dropFinalReturn (l ++ ['\r']) = l := by
  simp [dropFinalReturn]

theorem dropFinalReturn_of_notMem {l : List Char} (h : '\r' ∉ l) : dropFinalReturn l = l :=
  if_neg fun hlast => h (List.mem_of_getLast? hlast)

/-- The lines of a text are cut without their ends. -/
theorem linesOf_withReturns {cs : List Char} (h : '\r' ∉ cs) :
    linesOf (withReturns cs) = linesOf cs := by
  have hall := @notMem_piece '\n' _ _ h
  have hends (ls : List (List Char)) (hls : ∀ l ∈ ls, '\r' ∉ l) :
      (returnPieces ls).dropLast.map dropFinalReturn = ls.dropLast.map dropFinalReturn ∧
        (returnPieces ls).getLast? = ls.getLast? := by
    induction ls with
    | nil => exact ⟨rfl, rfl⟩
    | cons l ls ih =>
      obtain ⟨hl, hrest⟩ := List.forall_mem_cons.mp hls
      cases ls with
      | nil => exact ⟨rfl, rfl⟩
      | cons m ls =>
        obtain ⟨ihends, ihlast⟩ := ih hrest
        have hne : returnPieces (m :: ls) ≠ [] := by cases ls <;> exact List.cons_ne_nil _ _
        rw [returnPieces_cons l (List.cons_ne_nil m ls), List.dropLast_cons_of_ne_nil hne,
          List.dropLast_cons_of_ne_nil (List.cons_ne_nil m ls), List.map_cons, List.map_cons,
          dropFinalReturn_append, dropFinalReturn_of_notMem hl, ihends]
        refine ⟨rfl, ?_⟩
        rw [List.getLast?_cons_of_ne_nil hne, ihlast, List.getLast?_cons_cons]
  obtain ⟨hends, hlast⟩ := hends _ hall
  unfold linesOf
  dsimp only
  rw [piecesAt_withReturns, hends, hlast]

theorem count_withReturns (cs : List Char) : (withReturns cs).count '\n' = cs.count '\n' := by
  induction cs with
  | nil => rfl
  | cons c cs ih =>
    by_cases hfeed : c = '\n'
    · subst hfeed
      simp [ih]
    · rw [withReturns.cons hfeed, List.count_cons, List.count_cons, ih]

theorem isPrefixOf_withReturns {pat : List Char} (hpat : '\n' ∉ pat) (hpat' : '\r' ∉ pat)
    (cs : List Char) : pat.isPrefixOf (withReturns cs) = pat.isPrefixOf cs := by
  induction pat generalizing cs with
  | nil => rfl
  | cons p pat ih =>
    obtain ⟨hp, hpat⟩ := not_or.mp (List.mem_cons.not.mp hpat)
    obtain ⟨hp', hpat'⟩ := not_or.mp (List.mem_cons.not.mp hpat')
    cases cs with
    | nil => rfl
    | cons c cs =>
      by_cases hfeed : c = '\n'
      · subst hfeed
        rw [withReturns.feed, List.isPrefixOf, List.isPrefixOf, beq_false_of_ne (Ne.symm hp'),
          beq_false_of_ne (Ne.symm hp), Bool.false_and, Bool.false_and]
      · rw [withReturns.cons hfeed, List.isPrefixOf, List.isPrefixOf, ih hpat hpat']

theorem containsText_withReturns {p : Char} {pat : List Char} (hpat : '\n' ∉ p :: pat)
    (hpat' : '\r' ∉ p :: pat) (cs : List Char) :
    containsText (p :: pat) (withReturns cs) = containsText (p :: pat) cs := by
  have hno {d : Char} (hd : d ∉ p :: pat) (ds : List Char) :
      (p :: pat).isPrefixOf (d :: ds) = false := by
    rw [List.isPrefixOf, beq_false_of_ne (Ne.symm (List.ne_of_not_mem_cons hd)), Bool.false_and]
  induction cs with
  | nil => rfl
  | cons c cs ih =>
    by_cases hfeed : c = '\n'
    · subst hfeed
      rw [withReturns.feed, containsText, containsText, containsText, hno hpat', hno hpat, hno hpat,
        ih, Bool.false_or, Bool.false_or]
    · rw [withReturns.cons hfeed, containsText, containsText, ih, ← withReturns.cons hfeed,
        isPrefixOf_withReturns hpat hpat']

theorem trim_isEmpty (cs : List Char) : (trim cs).isEmpty = cs.all isBlank := by
  have hright (ds : List Char) : trimRight ds = [] ↔ ∀ c ∈ ds, isBlank c = true := by
    unfold trimRight
    rw [List.reverse_eq_nil_iff, List.dropWhile_eq_nil_iff]
    simp only [List.mem_reverse]
  rw [Bool.eq_iff_iff, List.isEmpty_iff, List.all_eq_true, trim, hright]
  constructor
  · intro h
    have hnil : cs.dropWhile isBlank = [] := by
      cases hdrop : cs.dropWhile isBlank with
      | nil => rfl
      | cons c rest =>
        -- the first character that is left is not blank
        have hhead := List.head?_dropWhile_not isBlank cs
        rw [hdrop] at hhead
        have hblank := h c (by rw [trimLeft, hdrop]; exact List.mem_cons_self)
        simp [hblank] at hhead
    exact List.dropWhile_eq_nil_iff.mp hnil
  · exact fun h c hc => h c (List.dropWhile_suffix _ |>.subset hc)

theorem all_isBlank_withReturns (cs : List Char) :
    (withReturns cs).all isBlank = cs.all isBlank := by
  induction cs with
  | nil => rfl
  | cons c cs ih =>
    by_cases hfeed : c = '\n'
    · subst hfeed
      rw [withReturns.feed, List.all_cons, List.all_cons, List.all_cons, ih]
      rfl
    · rw [withReturns.cons hfeed, List.all_cons, List.all_cons, ih]

/-! ### What a comment says -/

theorem withReturns_eq_iff {cs ds : List Char} (hds : '\n' ∉ ds) :
    withReturns cs = ds ↔ cs = ds := by
  constructor
  · rintro rfl
    exact (withReturns.of_notMem ((withReturns.mem_iff (by decide)).not.mp hds)).symm
  · rintro rfl
    exact withReturns.of_notMem hds

theorem closing_suffix_withReturns (cs : List Char) :
    ['*', '/'] <:+ withReturns cs ↔ ['*', '/'] <:+ cs := by
  induction cs with
  | nil => exact Iff.rfl
  | cons c cs ih =>
    by_cases hfeed : c = '\n'
    · subst hfeed
      rw [withReturns.feed, List.suffix_cons_iff, List.suffix_cons_iff, List.suffix_cons_iff, ih]
      simp
    · rw [withReturns.cons hfeed, List.suffix_cons_iff, List.suffix_cons_iff, ih,
        ← withReturns.cons hfeed, eq_comm, withReturns_eq_iff (by decide), eq_comm]

namespace Comment

theorem opensDoc_withReturns (w : List Char) : opensDoc (withReturns w) = opensDoc w := by
  have hempty : (withReturns w != "/**/".toList) = (w != "/**/".toList) := by
    rw [Bool.eq_iff_iff, bne_iff_ne, bne_iff_ne, ne_eq, withReturns_eq_iff (by decide)]
  unfold opensDoc
  rw [isPrefixOf_withReturns (by decide) (by decide), isPrefixOf_withReturns (by decide) (by decide),
    hempty]

/-- Documentation that is closed has something between its marks. -/
theorem inner_of_closed {w : List Char} (hdoc : opensDoc w = true) (hclosed : ['*', '/'] <:+ w) :
    ∃ inner, w = '/' :: '*' :: '*' :: (inner ++ ['*', '/']) := by
  unfold opensDoc at hdoc
  rw [Bool.and_eq_true, Bool.and_eq_true, List.isPrefixOf_iff_prefix, bne_iff_ne] at hdoc
  obtain ⟨⟨⟨rest, rfl⟩, -⟩, hempty⟩ := hdoc
  obtain ⟨front, hfront⟩ := hclosed
  have hmarks : front ++ ['*', '/'] = '/' :: '*' :: '*' :: rest := hfront
  rcases front with _ | ⟨a, _ | ⟨b, _ | ⟨c, inner⟩⟩⟩
  · cases hmarks
  · cases hmarks
  -- only the empty block comment is as short
  · cases hmarks
    exact absurd rfl hempty
  · simp only [List.cons_append, List.cons.injEq] at hmarks
    exact ⟨inner, by rw [hmarks.2.2.2]; rfl⟩

theorem contentOf_closed (inner : List Char) :
    contentOf ('/' :: '*' :: '*' :: (inner ++ ['*', '/'])) =
      trim (joinLines ((linesOf inner).map withoutMargin)) := by
  have hends : ("/**".toList.isPrefixOf ('/' :: '*' :: '*' :: (inner ++ ['*', '/'])) &&
      "*/".toList.isSuffixOf ('/' :: '*' :: '*' :: (inner ++ ['*', '/'])) &&
      decide (5 ≤ byteLength ('/' :: '*' :: '*' :: (inner ++ ['*', '/'])))) = true := by
    rw [Bool.and_eq_true, Bool.and_eq_true, List.isPrefixOf_iff_prefix,
      List.isSuffixOf_iff_suffix, decide_eq_true_iff]
    refine ⟨⟨List.prefix_append ['/', '*', '*'] _, ⟨'/' :: '*' :: '*' :: inner, rfl⟩⟩, ?_⟩
    simp only [byteLength_cons, byteLength_append, byteLength_nil]
    have hsizes : '/'.utf8Size = 1 ∧ '*'.utf8Size = 1 := ⟨rfl, rfl⟩
    omega
  unfold contentOf
  rw [if_pos hends]
  simp [List.dropLast_append_of_ne_nil]

/-- Closed documentation says the same with both line ends. -/
theorem contentOf_withReturns {w : List Char} (hreturn : '\r' ∉ w) (hdoc : opensDoc w = true)
    (hclosed : ['*', '/'] <:+ w) : contentOf (withReturns w) = contentOf w := by
  obtain ⟨inner, rfl⟩ := inner_of_closed hdoc hclosed
  have hinner : '\r' ∉ inner := fun hmem => hreturn (by simp [hmem])
  rw [withReturns.cons (by decide), withReturns.cons (by decide), withReturns.cons (by decide),
    withReturns.append, @withReturns.of_notMem ['*', '/'] (by decide), contentOf_closed,
    contentOf_closed, linesOf_withReturns hinner]

/-- A comment that is not closed is kept as it is written. -/
theorem contentOf_of_open {w : List Char} (hopen : ¬ ['*', '/'] <:+ w) : contentOf w = w := by
  unfold contentOf
  rw [if_neg]
  intro hall
  simp only [Bool.and_eq_true, List.isSuffixOf_iff_suffix] at hall
  exact hopen hall.1.2

/-- The lines of documentation and the tags in it are the same with both line ends, also when it is
not closed. -/
theorem said_withReturns {w : List Char} (hreturn : '\r' ∉ w) (hdoc : opensDoc w = true) :
    linesOf (contentOf (withReturns w)) = linesOf (contentOf w) ∧
      containsText packageTag (contentOf (withReturns w)) = containsText packageTag (contentOf w) ∧
      containsText moduleTag (contentOf (withReturns w)) = containsText moduleTag (contentOf w) := by
  by_cases hclosed : ['*', '/'] <:+ w
  · rw [contentOf_withReturns hreturn hdoc hclosed]
    exact ⟨rfl, rfl, rfl⟩
  · rw [contentOf_of_open hclosed,
      contentOf_of_open ((closing_suffix_withReturns w).not.mpr hclosed)]
    refine ⟨linesOf_withReturns hreturn, ?_, ?_⟩
    · exact containsText_withReturns (p := '@') (by decide) (by decide) w
    · exact containsText_withReturns (p := '@') (by decide) (by decide) w

theorem written_subset (c : Comment) (text : List Char) : c.written text ⊆ text := by
  unfold written
  split
  · cases hslice : sliceBytes text c.span.start c.span.stop with
    | none => exact List.nil_subset _
    | some part =>
      unfold sliceBytes at hslice
      split at hslice
      · obtain ⟨mid, hmid, htake⟩ := Option.bind_eq_some_iff.mp hslice
        obtain ⟨before, rfl, -⟩ := dropBytes_eq_some_iff.mp hmid
        obtain ⟨rest, rfl, -⟩ := takeBytes_eq_some_iff.mp htake
        exact fun d hd => List.mem_append_right _ (List.mem_append_left _ hd)
      · cases hslice
  · exact List.nil_subset _

namespace Alike

variable {text : List Char} {c c' : Comment}

theorem written (h : c.Alike text c') :
    c'.written (withReturns text) = withReturns (c.written text) := by
  unfold Comment.written
  rw [h.start.sliceBytes h.stop]
  by_cases hlt : c.span.start < c.span.stop
  · have hlt' : c'.span.start < c'.span.stop :=
      Nat.lt_of_not_le ((h.stop.le_iff h.start).not.mp (Nat.not_le_of_lt hlt))
    rw [if_pos hlt, if_pos hlt']
    cases sliceBytes text c.span.start c.span.stop <;> rfl
  · have hlt' : ¬ c'.span.start < c'.span.stop :=
      Nat.not_lt.mpr ((h.stop.le_iff h.start).mp (Nat.le_of_not_lt hlt))
    rw [if_neg hlt, if_neg hlt']
    rfl

theorem isDoc (h : c.Alike text c') : c'.isDoc (withReturns text) = c.isDoc text := by
  unfold Comment.isDoc
  rw [h.multiLine, h.written, opensDoc_withReturns]

theorem content (h : c.Alike text c') (hreturn : '\r' ∉ text) (hdoc : c.isDoc text = true)
    (hclosed : c.IsClosed text) : c'.content (withReturns text) = c.content text := by
  obtain ⟨hmulti, hopens⟩ := Bool.and_eq_true_iff.mp hdoc
  unfold Comment.content
  rw [h.written]
  refine congrArg String.ofList ?_
  exact contentOf_withReturns (fun hmem => hreturn (c.written_subset text hmem)) hopens
    (hclosed hmulti)

end Alike

end Comment

/-! ### What documentation is found -/

theorem isDetached_withReturns {text : List Char} {c c' : Comment} (hc : c.Alike text c')
    {others others' : List Comment} (hothers : List.Forall₂ (Comment.Alike text) others others')
    {first first' : Option ℕ} (hfirst : Option.Rel (SamePlace text) first first') :
    isDetached c' others' first' (withReturns text) = isDetached c others first text := by
  have hcount {q q' : ℕ} (hq : SamePlace text q q') :
      ((sliceBytes (withReturns text) c'.span.stop q').getD []).count '\n' =
        ((sliceBytes text c.span.stop q).getD []).count '\n' := by
    rw [hc.stop.sliceBytes hq]
    cases sliceBytes text c.span.stop q with
    | none => rfl
    | some between => exact count_withReturns between
  unfold isDetached
  cases hfirst with
  | none => rfl
  | some hp =>
    dsimp only
    cases hothers with
    | nil => rw [hcount hp]
    | cons hd _ => rw [hcount (hd.start.min hp)]

/-- The documentation of a file is the same with both line ends. -/
theorem fileDoc_withReturns {text : List Char} (hreturn : '\r' ∉ text) {cs cs' : List Comment}
    {first first' : Option ℕ} (hcs : List.Forall₂ (Comment.Alike text) cs cs')
    (hfirst : Option.Rel (SamePlace text) first first') :
    fileDoc cs' first' (withReturns text) = fileDoc cs first text := by
  cases hcs with
  | nil => rfl
  | @cons c c' others others' hc hothers =>
    have hbefore : (trim ((sliceBytes (withReturns text) 0 c'.span.start).getD [])).isEmpty =
        (trim ((sliceBytes text 0 c.span.start).getD [])).isEmpty := by
      rw [(SameRest.start text).place.sliceBytes hc.start, trim_isEmpty, trim_isEmpty]
      cases sliceBytes text 0 c.span.start with
      | none => rfl
      | some before => exact all_isBlank_withReturns before
    rw [fileDoc_cons, fileDoc_cons, hbefore, hc.isDoc, hc.written]
    split
    · rfl
    · next hguard =>
      simp only [Bool.or_eq_true, Bool.not_eq_true', not_or, Bool.not_eq_false] at hguard
      obtain ⟨hlines, hpackage, hmodule⟩ := Comment.said_withReturns
        (fun hmem => hreturn (c.written_subset text hmem)) (Bool.and_eq_true_iff.mp hguard.2).2
      dsimp only
      rw [hlines, hpackage, hmodule, isDetached_withReturns hc hothers hfirst]

section Lists

variable {α β : Type} {R : α → β → Prop} {p : α → Bool} {q : β → Bool} {as : List α} {bs : List β}

theorem forall₂_takeWhile (hpq : ∀ a b, R a b → p a = q b) (h : List.Forall₂ R as bs) :
    List.Forall₂ R (as.takeWhile p) (bs.takeWhile q) := by
  induction h with
  | nil => exact .nil
  | @cons a b as bs hab _ ih =>
    rw [List.takeWhile_cons, List.takeWhile_cons, hpq a b hab]
    split
    · exact .cons hab ih
    · exact .nil

theorem forall₂_find? (hpq : ∀ a b, R a b → p a = q b) (h : List.Forall₂ R as bs) :
    Option.Rel R (as.find? p) (bs.find? q) := by
  induction h with
  | nil => exact .none
  | @cons a b as bs hab _ ih =>
    rw [List.find?_cons, List.find?_cons, hpq a b hab]
    split
    · exact .some hab
    · exact ih

theorem forall₂_getElem? (h : List.Forall₂ R as bs) (i : ℕ) : Option.Rel R as[i]? bs[i]? := by
  induction h generalizing i with
  | nil => exact .none
  | cons hab _ ih =>
    cases i with
    | zero => exact .some hab
    | succ i => exact ih i

theorem forall₂_of_mem {P : α → Prop} {Q : β → Prop} {S : α → β → Prop}
    (hS : ∀ a b, R a b → P a → Q b → S a b) (h : List.Forall₂ R as bs) (hP : ∀ a ∈ as, P a)
    (hQ : ∀ b ∈ bs, Q b) : List.Forall₂ S as bs := by
  induction h with
  | nil => exact .nil
  | cons hab _ ih =>
    obtain ⟨ha, has⟩ := List.forall_mem_cons.mp hP
    obtain ⟨hb, hbs⟩ := List.forall_mem_cons.mp hQ
    exact .cons (hS _ _ hab ha hb) (ih has hbs)

theorem any_eq_of_rel (hpq : ∀ a b, R a b → p a = q b) {x : Option α} {y : Option β}
    (h : Option.Rel R x y) : x.any p = y.any q := by
  cases h with
  | none => rfl
  | some hab => exact hpq _ _ hab

theorem partitionPoint_congr (hpq : ∀ a b, R a b → p a = q b) {xs : Array α} {ys : Array β}
    (h : List.Forall₂ R xs.toList ys.toList) : partitionPoint p xs = partitionPoint q ys := by
  have hsize : xs.size = ys.size := by
    rw [← Array.length_toList, ← Array.length_toList, h.length_eq]
  have hat (i : ℕ) : (xs[i]?).any p = (ys[i]?).any q := by
    rw [← Array.getElem?_toList, ← Array.getElem?_toList]
    exact any_eq_of_rel hpq (forall₂_getElem? h i)
  have hgo (base size : ℕ) :
      partitionPoint.go p xs base size = partitionPoint.go q ys base size := by
    induction size using Nat.strong_induction_on generalizing base with
    | _ size ih =>
      unfold partitionPoint.go
      dsimp only
      rw [hat, hat]
      split
      · exact ih _ (by omega) _
      · rfl
  unfold partitionPoint
  rw [hgo, hsize, Array.isEmpty, Array.isEmpty, hsize]

end Lists

/-- Comments that go together one by one are found together. -/
theorem leadingDoc_congr {R : Comment → Comment → Prop} {cs cs' : Array Comment}
    {start start' p p' : ℕ} {text text' : List Char}
    (hstop : ∀ c c', R c c' → (c.span.stop ≤ p ↔ c'.span.stop ≤ p'))
    (hstart : ∀ c c', R c c' → (start ≤ c.span.start ↔ start' ≤ c'.span.start))
    (hdoc : ∀ c c', R c c' → c.isDoc text = c'.isDoc text')
    (h : List.Forall₂ R cs.toList cs'.toList) :
    Option.Rel R (leadingDoc cs start p text) (leadingDoc cs' start' p' text') := by
  have hpoint : partitionPoint (fun c => decide (c.span.stop ≤ p)) cs =
      partitionPoint (fun c => decide (c.span.stop ≤ p')) cs' :=
    partitionPoint_congr (fun c c' hc => decide_eq_decide.mpr (hstop c c' hc)) h
  have hbefore := List.forall₂_take (partitionPoint (fun c => decide (c.span.stop ≤ p)) cs) h
  have htake := forall₂_takeWhile (p := fun c => decide (start ≤ c.span.start))
    (q := fun c => decide (start' ≤ c.span.start))
    (fun c c' hc => decide_eq_decide.mpr (hstart c c' hc)) (List.forall₂_reverse_iff.mpr hbefore)
  unfold leadingDoc
  dsimp only
  rw [← hpoint, toList_take, toList_take]
  exact forall₂_find? hdoc htake

/-- The same comment is the documentation of what stands at the same place. -/
theorem leadingDoc_withReturns {text : List Char} {cs cs' : Array Comment} {start start' p p' : ℕ}
    (hcs : List.Forall₂ (fun c c' => c.Alike text c' ∧
      (start ≤ c.span.start ↔ start' ≤ c'.span.start)) cs.toList cs'.toList)
    (hp : SamePlace text p p') :
    Option.Rel (Comment.Alike text) (leadingDoc cs start p text)
      (leadingDoc cs' start' p' (withReturns text)) := by
  have hmono {x y : Option Comment} (h : Option.Rel (fun c c' => c.Alike text c' ∧
      (start ≤ c.span.start ↔ start' ≤ c'.span.start)) x y) :
      Option.Rel (Comment.Alike text) x y := by
    cases h with
    | none => exact .none
    | some hc => exact .some hc.1
  exact hmono (leadingDoc_congr (fun c c' hc => hc.1.stop.le_iff hp) (fun c c' hc => hc.2)
    (fun c c' hc => hc.1.isDoc.symm) hcs)

end ApiSurface

import Mathlib.Data.List.Basic
import ApiSurface.FileSystem
/-!
The path that names a place without detours leads to that place, so paths without detours that have
the same steps are one path.
-/
namespace ApiSurface

theorem piecesAt_eq_splitOn (sep : Char) (cs : List Char) : piecesAt sep cs = cs.splitOn sep := by
  induction cs with
  | nil => rfl
  | cons c cs ih =>
    simp only [piecesAt, List.splitOn, List.splitOnP_cons_eq_if_modifyHead, beq_iff_eq] at ih ⊢
    rw [← ih]
    split
    · rfl
    · split
      · next hnil => exact absurd hnil (piecesAt_ne_nil sep cs)
      · next hpieces => rw [hpieces, List.modifyHead_cons]

theorem not_mem_of_mem_piecesAt {sep : Char} {cs piece : List Char} (h : piece ∈ piecesAt sep cs) :
    sep ∉ piece := by
  induction cs generalizing piece with
  | nil => simp_all [piecesAt]
  | cons c cs ih =>
    simp only [piecesAt] at h
    split at h
    · rcases List.mem_cons.mp h with rfl | h
      · exact List.not_mem_nil
      · exact ih h
    · next hc =>
      split at h
      · next hnil => exact absurd hnil (piecesAt_ne_nil sep cs)
      · next first rest hpieces =>
        rcases List.mem_cons.mp h with rfl | h
        · have hfirst := ih (hpieces ▸ List.mem_cons_self)
          simp [hfirst, Ne.symm hc]
        · exact ih (hpieces ▸ List.mem_cons_of_mem _ h)

namespace Path

/-- A text that names a step down. -/
def IsName (n : List Char) : Prop := Component.ofPiece? n = some (.name n) ∧ '/' ∉ n

theorem isName_of_ofPiece {piece n : List Char} (hpiece : '/' ∉ piece)
    (h : Component.ofPiece? piece = some (.name n)) : IsName n := by
  have heq : piece = n := by
    unfold Component.ofPiece? at h
    split at h <;> simp_all
  exact heq ▸ ⟨heq ▸ h, hpiece⟩

theorem isName_of_mem_components {p : Path} {n : List Char} (h : .name n ∈ p.components) :
    IsName n := by
  -- after a root or a dot, the steps are those of the pieces
  have hpieces {cs : List Char} {pieces : List (List Char)} (hsub : pieces ⊆ piecesAt '/' cs)
      (hn : Component.name n ∈ pieces.filterMap Component.ofPiece?) : IsName n := by
    obtain ⟨piece, hpiece, hn⟩ := List.mem_filterMap.mp hn
    exact isName_of_ofPiece (not_mem_of_mem_piecesAt (hsub hpiece)) hn
  unfold components at h
  split at h
  · next rest hchars =>
    rcases List.mem_cons.mp h with h | h
    · cases h
    · exact hpieces (List.Subset.refl _) h
  · split at h
    · next ps heq =>
      rcases List.mem_cons.mp h with h | h
      · cases h
      · exact hpieces (heq ▸ List.subset_cons_self _ _) h
    · exact hpieces (List.Subset.refl _) h

namespace Place

variable {w : Place}

/-- Every step to a place is a name. -/
def Valid (w : Place) : Prop := ∀ n ∈ w.names, IsName n

theorem Valid.step (h : w.Valid) {c : Component} (hc : ∀ n, c = .name n → IsName n) :
    (w.step c).Valid := by
  cases c with
  | root => exact fun n hn => absurd hn List.not_mem_nil
  | here => exact h
  | up => exact fun n hn => h n (List.mem_of_mem_tail hn)
  | name m =>
    intro n hn
    rcases List.mem_cons.mp hn with rfl | hn
    · exact hc n rfl
    · exact h n hn

theorem Valid.foldl (h : w.Valid) {steps : List Component}
    (hsteps : ∀ n, .name n ∈ steps → IsName n) : (steps.foldl Place.step w).Valid := by
  induction steps generalizing w with
  | nil => exact h
  | cons c steps ih =>
    refine ih (h.step fun n hn => hsteps n (hn ▸ List.mem_cons_self)) fun n hn => ?_
    exact hsteps n (List.mem_cons_of_mem _ hn)

/-- The names of a place are the pieces of their text. -/
theorem piecesAt_intercalate {names : List (List Char)} (h : ∀ n ∈ names, IsName n)
    (hnames : names ≠ []) : piecesAt '/' (['/'].intercalate names) = names := by
  rw [piecesAt_eq_splitOn]
  exact List.splitOn_intercalate '/' (fun n hn => (h n hn).2) hnames

theorem filterMap_pieces {names : List (List Char)} (h : ∀ n ∈ names, IsName n) :
    (piecesAt '/' (['/'].intercalate names)).filterMap Component.ofPiece? = names.map .name := by
  by_cases hnames : names = []
  · rw [hnames]
    rfl
  · rw [piecesAt_intercalate h hnames]
    exact List.filterMap_eq_map_iff_forall_eq_some.mpr fun n hn => (h n hn).1

theorem components_path (h : w.Valid) : w.path.components = w.components := by
  obtain ⟨absolute, names⟩ := w
  have hnames : ∀ n ∈ names.reverse, IsName n := fun n hn => h n (List.mem_reverse.mp hn)
  have hpieces := filterMap_pieces hnames
  cases absolute with
  | true => exact congrArg (Component.root :: ·) hpieces
  | false =>
    show Path.components ⟨['/'].intercalate names.reverse⟩ = names.reverse.map .name
    by_cases hnil : names.reverse = []
    · rw [hnil]
      rfl
    have hall := piecesAt_intercalate hnames hnil
    unfold Path.components
    dsimp only
    split
    · next rest hchars =>
      -- a slash at the front would make the first name empty
      rw [hchars] at hall
      have hempty := hnames [] (hall ▸ List.mem_cons_self)
      exact absurd hempty.1 (by decide)
    · split
      · next ps hdot =>
        have hdot := hnames ['.'] (by rw [← hall, hdot]; exact List.mem_cons_self)
        exact absurd hdot.1 (by decide)
      · exact hpieces

/-- The steps straight to a place lead there. -/
theorem foldl_components (w : Place) : w.components.foldl step start = w := by
  have hnames (names : List (List Char)) (v : Place) :
      (names.map Component.name).foldl step v = ⟨v.absolute, names.reverse ++ v.names⟩ := by
    induction names generalizing v with
    | nil => rfl
    | cons n names ih => simp [ih, step]
  obtain ⟨absolute, names⟩ := w
  rw [components, List.foldl_append, hnames, List.reverse_reverse]
  cases absolute <;> simp [step, start]

theorem place_path (h : w.Valid) : w.path.place = w := by
  rw [place, components_path h, foldl_components]

end Place

theorem place_valid (p : Path) : p.place.Valid :=
  Place.Valid.foldl (fun _ hn => absurd hn List.not_mem_nil) fun _ hn => isName_of_mem_components hn

theorem place_normalize (p : Path) : p.normalize.place = p.place := Place.place_path p.place_valid

theorem normalize_eq_iff {p q : Path} : p.normalize = q.normalize ↔ p.place = q.place := by
  constructor
  · intro h
    rw [← place_normalize p, h, place_normalize]
  · exact congrArg Place.path

/-! ### Paths as shown -/

section Shown

variable {names names' : List (List Char)}

theorem intercalate_inj (h : ∀ n ∈ names, IsName n) (h' : ∀ n ∈ names', IsName n)
    (heq : ['/'].intercalate names = ['/'].intercalate names') : names = names' := by
  have hpieces := (Place.filterMap_pieces h).symm.trans (heq ▸ Place.filterMap_pieces h')
  exact List.map_injective_iff.mpr (fun _ _ => Component.name.inj) hpieces

/-- The text of names does not start with a slash. -/
theorem intercalate_ne_slash (h : ∀ n ∈ names, IsName n) (rest : List Char) :
    ['/'].intercalate names ≠ '/' :: rest := by
  intro heq
  by_cases hnil : names = []
  · rw [hnil] at heq
    cases heq
  · have hpieces := Place.piecesAt_intercalate h hnil
    rw [heq] at hpieces
    have hempty := h [] (hpieces ▸ List.mem_cons_self)
    exact absurd hempty.1 (by decide)

variable {w w' : Place} {dir : Path}

theorem absolute_of_isAbsolute (hw : w.Valid) (h : w.path.isAbsolute = true) :
    w.absolute = true := by
  by_contra hrelative
  have hchars : w.path.chars = ['/'].intercalate w.names.reverse := by simp [Place.path, hrelative]
  rw [isAbsolute, hchars, beq_iff_eq] at h
  obtain ⟨rest, hrest⟩ := List.head?_eq_some_iff.mp h
  exact intercalate_ne_slash (fun n hn => hw n (List.mem_reverse.mp hn)) rest hrest

/-- How a place is shown in a directory that is given from the root on: by the names below the
directory, or as it is written. -/
theorem display_path (hw : w.Valid) (habsolute : w.absolute = true) (hdir : dir.isAbsolute = true)
    (hslash : '\\' ∉ w.path.chars) :
    (∃ names : List (List Char), (∀ n ∈ names, IsName n) ∧
        w.path.components = dir.components ++ names.map .name ∧
        w.path.display dir = .ofList (['/'].intercalate names)) ∨
      (∃ rest, w.path.chars = '/' :: rest) ∧ w.path.display dir = .ofList w.path.chars := by
  obtain ⟨ds, hds⟩ : ∃ ds, dir.components = .root :: ds := by
    obtain ⟨chars⟩ := dir
    cases chars with
    | nil => cases hdir
    | cons c rest =>
      obtain rfl : c = '/' := by simpa [isAbsolute] using hdir
      exact ⟨_, rfl⟩
  have hsteps : w.path.components = .root :: w.names.reverse.map .name := by
    rw [Place.components_path hw, Place.components, habsolute]
    rfl
  unfold display
  cases hbelow : w.path.below? dir with
  | none =>
    refine Or.inr ⟨⟨['/'].intercalate w.names.reverse, by simp [Place.path, habsolute]⟩, ?_⟩
    dsimp only
    congr 1
    refine (List.map_congr_left fun c hc => if_neg ?_).trans (List.map_id _)
    rintro rfl
    exact hslash hc
  | some steps =>
    have happend : dir.components ++ steps = w.path.components := by
      unfold below? at hbelow
      dsimp only at hbelow
      split at hbelow
      · next hprefix =>
        rw [← Option.some.inj hbelow]
        exact List.prefix_iff_eq_append.mp (List.isPrefixOf_iff_prefix.mp hprefix)
      · cases hbelow
    have hnames := happend.trans hsteps
    rw [hds, List.cons_append] at hnames
    obtain ⟨above, names, hall, -, rfl⟩ := List.map_eq_append_iff.mp (List.cons.inj hnames).2.symm
    refine Or.inl ⟨names, fun n hn => hw n ?_, happend.symm, ?_⟩
    · rw [← List.mem_reverse, hall]
      exact List.mem_append_right _ hn
    · simp [textOf, Function.comp_def, Component.chars]

/-- Places are shown alike only if they are the same. -/
theorem place_eq_of_display_eq (hw : w.Valid) (hw' : w'.Valid) (habsolute : w.absolute = true)
    (habsolute' : w'.absolute = true) (hdir : dir.isAbsolute = true)
    (hslash : '\\' ∉ w.path.chars) (hslash' : '\\' ∉ w'.path.chars)
    (h : w.path.display dir = w'.path.display dir) : w = w' := by
  have hplace (heq : w.path.components = w'.path.components) : w = w' := by
    rw [← Place.place_path hw, ← Place.place_path hw', place, place, heq]
  rcases display_path hw habsolute hdir hslash with
      ⟨names, hnames, hsteps, hshown⟩ | ⟨⟨rest, hrest⟩, hshown⟩ <;>
    rcases display_path hw' habsolute' hdir hslash' with
      ⟨names', hnames', hsteps', hshown'⟩ | ⟨⟨rest', hrest'⟩, hshown'⟩ <;>
    rw [hshown, hshown', String.ofList_inj] at h
  · exact hplace (by rw [hsteps, hsteps', intercalate_inj hnames hnames' h])
  · exact absurd (h.trans hrest') (intercalate_ne_slash hnames rest')
  · exact absurd (h.symm.trans hrest) (intercalate_ne_slash hnames' rest)
  · exact hplace (congrArg components (congrArg Path.mk h))

end Shown

end Path

end ApiSurface

import Mathlib.Logic.Function.Iterate
import ApiSurface.Proofs.ScannedText
/-!
Scanning only adds to what a lexer has recorded, so going back to a checkpoint undoes any number of
scans, and what is scanned again is recorded once.
-/
namespace ApiSurface.Lexer

/-- From one state of a lexer to another, comments and problems were added. -/
structure Records (l l' : Lexer) : Prop where
  comments : ∃ new, l'.comments = l.comments ++ new
  problems : ∃ new, l'.problems = l.problems ++ new

variable {l l' l'' : Lexer}

theorem Records.refl (l : Lexer) : l.Records l :=
  ⟨⟨#[], Array.append_empty.symm⟩, #[], Array.append_empty.symm⟩

theorem Records.trans (h : l.Records l') (h' : l'.Records l'') : l.Records l'' := by
  obtain ⟨⟨comments, hcomments⟩, problems, hproblems⟩ := h
  obtain ⟨⟨comments', hcomments'⟩, problems', hproblems'⟩ := h'
  exact ⟨⟨comments ++ comments', by rw [hcomments', hcomments, Array.append_assoc]⟩,
    problems ++ problems', by rw [hproblems', hproblems, Array.append_assoc]⟩

theorem scan_records (l : Lexer) : l.Records l.scan := by
  unfold scan
  dsimp only
  simp only [List.foldl_push_eq_append']
  split
  · exact ⟨⟨_, rfl⟩, _, rfl⟩
  · exact ⟨⟨_, rfl⟩, _, Array.append_assoc⟩

theorem iterate_scan_records (k : ℕ) (l : Lexer) : l.Records (scan^[k] l) := by
  induction k generalizing l with
  | zero => exact .refl l
  | succ k ih => exact (scan_records l).trans (ih l.scan)

/-- Going back undoes any number of scans. -/
theorem restore_iterate_scan (k : ℕ) (l : Lexer) : (scan^[k] l).restore l.save = l := by
  obtain ⟨⟨comments, hcomments⟩, problems, hproblems⟩ := iterate_scan_records k l
  unfold restore save
  rw [hcomments, hproblems]
  simp

/-- At the end of a text nothing more is recorded. -/
theorem iterate_scan_of_nil (k : ℕ) (h : l.rest = []) :
    (scan^[k] l).comments = l.comments ∧ (scan^[k] l).problems = l.problems := by
  induction k generalizing l with
  | zero => exact ⟨rfl, rfl⟩
  | succ k ih =>
    obtain ⟨hrest, -, hcomments, hproblems⟩ := scan_of_nil h
    obtain ⟨ihcomments, ihproblems⟩ := ih hrest
    exact ⟨ihcomments.trans hcomments, ihproblems.trans hproblems⟩

/-- However often a lexer scans on at the end, it has recorded what one that stops there has. -/
theorem iterate_scan_of_end (fuel k : ℕ) (l : Lexer) (hfuel : l.rest.length < fuel)
    (hend : (scan^[k] l.scan).token.kind = .endOfFile) :
    (scan^[k] l.scan).comments = (l.scanAll fuel).2.comments ∧
      (scan^[k] l.scan).problems = (l.scanAll fuel).2.problems := by
  induction fuel generalizing k l with
  | zero => exact absurd hfuel (Nat.not_lt_zero _)
  | succ fuel ih =>
    unfold scanAll
    dsimp only
    split
    · next hkind => exact iterate_scan_of_nil k (scan_rest_of_end hkind)
    · next hkind =>
      cases k with
      | zero => exact absurd hend hkind
      | succ k =>
        have hlt := scan_rest_lt hkind
        exact ih k l.scan (by omega) hend

end ApiSurface.Lexer

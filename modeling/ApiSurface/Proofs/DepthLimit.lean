import ApiSurface.Proofs.MarkedTypes
import Mathlib.Data.Fintype.EquivFin
/-!
What the limit of levels does to the types that are described. Under a limit `m`, nothing stands
more than `m + 1` levels inside what a type is described as, and at the last of these levels there
are only texts of parts that are cut off, and `any`. A type that is not cut off anywhere is
described alike under every higher limit.
-/
namespace ApiSurface

namespace Describe

variable {ctx : Context} {n k : ℕ} {a u : TypePart} {v : DocType}

/-- Types described down to some levels. -/
def levels (n : ℕ) : Depth := ⟨typeWithin n, inferredWithin n⟩

/-! ### What is shown under a limit -/

/-- What can stand `k` levels inside what a part is described as, with `n` levels above the last: at
the last level there are only `any` and texts, and the texts anywhere are those of parts at the last
level, and of forms above it that are always shown as written. -/
structure ShownAt (ctx : Context) (n : ℕ) (a : TypePart) (k : ℕ) (v : DocType) : Prop where
  level : k ≤ n
  last : k = n → v = .any ∨ ∃ s, v = .raw s
  text : ∀ s, v = .raw s → ∃ j t, k ≤ j ∧ a.Reaches j (.written t) ∧ s = ctx.textOf t.span ∧
    (j = n ∨ j < n ∧ t.IsShownAsWritten)

theorem ShownAt.outward (h : ShownAt ctx n a (k + 1) v) : ShownAt ctx n a k v where
  level := Nat.le_of_succ_le h.level
  last hk := absurd h.level (by omega)
  text s hs := by
    obtain ⟨j, t, hj, hrest⟩ := h.text s hs
    exact ⟨j, t, Nat.le_of_succ_le hj, hrest⟩

/-- What is shown of a part is shown one level further in the type that it is a part of. -/
theorem ShownAt.inward (h : ShownAt ctx n u k v) (hu : u ∈ a.next) :
    ShownAt ctx (n + 1) a (k + 1) v where
  level := Nat.succ_le_succ h.level
  last hk := h.last (Nat.succ.inj hk)
  text s hs := by
    obtain ⟨j, t, hj, hreaches, htext, hcut⟩ := h.text s hs
    refine ⟨j + 1, t, Nat.succ_le_succ hj, .inside hu hreaches, htext, ?_⟩
    exact hcut.imp (congrArg (· + 1)) (And.imp_left Nat.succ_lt_succ)

/-- A type that can stand `k` levels inside what a part is described as, with all that stands in
it. -/
def AllShown (ctx : Context) (n : ℕ) (a : TypePart) (k : ℕ) (t : DocType) : Prop :=
  ∀ j v, t.Holds j v → ShownAt ctx n a (j + k) v

theorem inherited_allShown (hk : k ≤ n) : Inherited (AllShown ctx n a k) where
  any j v hv := by
    cases hv with
    | here => exact ⟨by omega, fun _ => Or.inl rfl, nofun⟩
    | inside hp hv => cases hp
  part {t p} ht hp j v hv := by
    have hinside := ht (j + 1) v (.inside hp hv)
    rw [Nat.succ_add] at hinside
    exact hinside.outward
  fewer {ts ts'} hts hsub j v hv := by
    cases hv with
    | here =>
      have hall := hts 0 (.union ts) .here
      refine ⟨hall.level, fun hlast => ?_, nofun⟩
      rcases hall.last hlast with h | ⟨s, h⟩ <;> cases h
    | inside hp hv => exact hts _ v (.inside (hsub hp) hv)

/-- A text below all levels is that of the part itself. -/
theorem cut_unlessMarked (id : SymbolId) (ctx : Context) (a : TypePart) :
    UnlessMarked id ctx ((levels 0).describe a) ((levels 0).describe a) (AllShown ctx 0 a 0) := by
  cases a with
  | shown t => exact .pure (inherited_allShown (Nat.le_refl 0)).any
  | written t =>
    apply (UnlessMarked.written t.span).bind
    intro text htext
    refine .pure fun j v hv => ?_
    cases hv with
    | here =>
      refine ⟨Nat.le_refl 0, fun _ => Or.inr ⟨text, rfl⟩, fun s hs => ?_⟩
      obtain rfl := DocType.raw.inj hs
      exact ⟨0, t, Nat.le_refl 0, .here, htext, Or.inl rfl⟩
    | inside hp hv => cases hp

theorem levels_unlessMarked (id : SymbolId) (ctx : Context) (n : ℕ) (a : TypePart) :
    UnlessMarked id ctx ((levels n).describe a) ((levels n).describe a) (AllShown ctx n a 0) := by
  induction n generalizing a with
  | zero => exact cut_unlessMarked id ctx a
  | succ n ih =>
    have hQ : Inherited (AllShown ctx (n + 1) a 1) := inherited_allShown (Nat.le_add_left 1 n)
    have hparts : UnlessMarkedOn id ctx (levels n) (levels n) (AllShown ctx (n + 1) a 1) a.next :=
      fun u hu => (ih u).mono fun t ht j v hv => (ht j v hv).inward hu
    apply (deeper_unlessMarked hQ hparts).mono
    intro r hr j v hv
    rcases hr with hr | hr
    · exact (hr j v hv).outward
    · cases hv with
      | here =>
        refine ⟨Nat.zero_le _, nofun, fun s hs => ?_⟩
        obtain ⟨t, rfl, hform, htext⟩ := hr.text s hs
        exact ⟨0, t, Nat.le_refl 0, .here, htext, Or.inr ⟨Nat.succ_pos n, hform⟩⟩
      | inside hp hv => exact hr.parts _ hp _ v hv

/-! ### What does not depend on the limit -/

/-- Some levels of types, with a way to describe the parts beneath them. -/
def Depth.beneath (by_ : Depth) : ℕ → Depth
  | 0 => by_
  | n + 1 => (by_.beneath n).deeper

theorem levels_beneath (n m : ℕ) : (levels m).beneath n = levels (n + m) := by
  induction n with
  | zero =>
    rw [Nat.zero_add]
    rfl
  | succ n ih =>
    rw [Depth.beneath, ih, Nat.succ_add]
    rfl

theorem ofLimit_eq (limit : ℕ) : Depth.ofLimit limit = (levels 0).beneath (limit + 1) :=
  (levels_beneath (limit + 1) 0).symm

/-- A mark at each part. -/
def marks (e : ExternalSymbol) : Depth := ⟨fun _ => mark e, fun _ => mark e⟩

/-- A description under a limit does not reach a part beyond it: some symbol that is mentioned at
each such part is not mentioned at all. -/
def StaysWithin (limit : ℕ) (a : TypePart) (ctx : Context) (d : Describing) : Prop :=
  ∃ e, Unmarked e.id ((((marks e).beneath (limit + 1)).describe a).runAt ctx d).2

/-- A property that says nothing. -/
theorem inherited_true : Inherited fun _ => True :=
  ⟨trivial, fun _ _ => trivial, fun _ _ => trivial⟩

/-- As long as it leaves no mark, a description goes on alike without the marks. -/
theorem marks_unlessMarked (e : ExternalSymbol) (by_ : Depth) (ctx : Context) (n : ℕ)
    (a : TypePart) :
    UnlessMarked e.id ctx (((marks e).beneath n).describe a) ((by_.beneath n).describe a)
      fun _ => True := by
  induction n generalizing a with
  | zero => cases a <;> exact mark_unlessMarked trivial _
  | succ n ih =>
    apply (deeper_unlessMarked inherited_true fun u _ => ih u).mono
    exact fun _ _ => trivial

/-- Where no part is beneath the levels, it does not matter how such parts are described. -/
theorem shallow_unlessMarked (id : SymbolId) (by_ by' : Depth) (ctx : Context)
    (ha : ∀ u, ¬ a.Reaches n u) :
    UnlessMarked id ctx ((by_.beneath n).describe a) ((by'.beneath n).describe a)
      fun _ => True := by
  induction n generalizing a with
  | zero => exact absurd .here (ha a)
  | succ n ih =>
    have hparts : UnlessMarkedOn id ctx (by_.beneath n) (by'.beneath n) (fun _ => True) a.next :=
      fun u hu => ih fun v hv => ha v (.inside hu hv)
    apply (deeper_unlessMarked inherited_true hparts).mono
    exact fun _ _ => trivial

theorem exists_unmarked (d : Describing) : ∃ id, Unmarked id d := by
  obtain ⟨id, hid⟩ := Infinite.exists_notMem_finset d.walk.externals.keys.toFinset
  exact ⟨id, fun hmem => hid (List.mem_toFinset.mpr hmem)⟩

/-- A description does not reach beyond its limit just if it comes to the same, and leaves the same
known, whatever the parts beyond are described as. -/
theorem staysWithin_iff {limit : ℕ} {d : Describing} :
    StaysWithin limit a ctx d ↔ ∀ by_ : Depth,
      ((by_.beneath (limit + 1)).describe a).runAt ctx d =
        ((Depth.ofLimit limit).describe a).runAt ctx d := by
  constructor
  · rintro ⟨e, he⟩ by_
    have hmarks (by_ : Depth) := (marks_unlessMarked e by_ ctx (limit + 1) a).agrees d he
    rw [hmarks by_, ofLimit_eq, hmarks (levels 0)]
  · intro h
    obtain ⟨id, hid⟩ := exists_unmarked (((Depth.ofLimit limit).describe a).runAt ctx d).2
    refine ⟨⟨id, "", [], none⟩, ?_⟩
    rw [h]
    exact hid

/-- A type with no part beyond a limit stays within it, wherever it is described. -/
theorem staysWithin_of_shallow {limit : ℕ} (ha : ∀ u, ¬ a.Reaches (limit + 1) u) (ctx : Context)
    (d : Describing) : StaysWithin limit a ctx d := by
  rw [staysWithin_iff, ofLimit_eq]
  intro by_
  obtain ⟨id, hid⟩ := exists_unmarked ((((levels 0).beneath (limit + 1)).describe a).runAt ctx d).2
  exact (shallow_unlessMarked id (levels 0) by_ ctx ha).agrees d hid

/-- A limit of levels bounds what a type is described as, and nothing else. Under a limit `m`, no
type stands more than `m + 1` levels inside; at the last of these levels there are only `any` and
texts, and as text only written parts are shown that are cut off there, besides the forms that are
always shown as written. A description that does not reach beyond its limit comes to the same under
every higher limit, and leaves the same known. -/
theorem depthLimit_bounds_output (limit : ℕ) (a : TypePart) (ctx : Context) (d : Describing) :
    (∀ t, (((Depth.ofLimit limit).describe a).runAt ctx d).1 = .ok t →
      ∀ k v, t.Holds k v → ShownAt ctx (limit + 1) a k v) ∧
    (StaysWithin limit a ctx d → ∀ limit', limit ≤ limit' →
      ((Depth.ofLimit limit').describe a).runAt ctx d =
        ((Depth.ofLimit limit).describe a).runAt ctx d) := by
  constructor
  · intro t ht
    exact (levels_unlessMarked "" ctx (limit + 1) a).result d t ht
  · intro h limit' hle
    obtain ⟨m, rfl⟩ := Nat.exists_eq_add_of_le hle
    have hsame := staysWithin_iff.mp h (levels m)
    rw [levels_beneath, Nat.add_right_comm] at hsame
    exact hsame

/-- A context with one file. -/
def contextOf (text : String) : Context :=
  let source : SourceFile := { (default : SourceFile) with text := text.toList }
  let program : Program :=
    { (default : Program) with files := #[{ (default : LoadedFile) with source }] }
  { (default : Context) with program }

/-- The type `string[][]` at the start of a file. -/
def nestedArray : TypePart :=
  .written ⟨⟨0, 10⟩, .array ⟨⟨0, 8⟩, .array ⟨⟨0, 6⟩, .keyword "string"⟩⟩⟩

/-- Two levels cut the innermost type off, and three are as good as any more. -/
theorem nestedArray_limited :
    (((Depth.ofLimit 1).describe nestedArray).runAt (contextOf "string[][]") default).1 =
        .ok (.array false (.array false (.raw "string"))) ∧
      ShownAt (contextOf "string[][]") 2 nestedArray 2 (.raw "string") ∧
      StaysWithin 2 nestedArray (contextOf "string[][]") default ∧
      ((Depth.ofLimit 128).describe nestedArray).runAt (contextOf "string[][]") default =
        ((Depth.ofLimit 2).describe nestedArray).runAt (contextOf "string[][]") default := by
  have hrun : (((Depth.ofLimit 1).describe nestedArray).runAt (contextOf "string[][]") default).1 =
      .ok (.array false (.array false (.raw "string"))) := rfl
  have hholds : (DocType.array false (.array false (.raw "string"))).Holds 2 (.raw "string") :=
    .inside List.mem_cons_self (.inside List.mem_cons_self .here)
  have hshallow : ∀ u, ¬ nestedArray.Reaches 3 u := by
    rintro u (_ | ⟨hlevel, _ | ⟨hlevel', _ | ⟨hlevel'', -⟩⟩⟩)
    obtain rfl := List.mem_singleton.mp hlevel
    obtain rfl := List.mem_singleton.mp hlevel'
    cases hlevel''
  have hstays := staysWithin_of_shallow hshallow (contextOf "string[][]") default
  obtain ⟨hshown, -⟩ := depthLimit_bounds_output 1 nestedArray (contextOf "string[][]") default
  obtain ⟨-, hsame⟩ := depthLimit_bounds_output 2 nestedArray (contextOf "string[][]") default
  exact ⟨hrun, hshown _ hrun 2 _ hholds, hstays, hsame hstays 128 (by decide)⟩

end Describe

end ApiSurface

import ApiSurface.Extraction.Types
import Mathlib.Data.List.Basic
/-!
Types of properties that may be absent. Leaving `undefined` out of a union keeps what the type means
for such a property, and keeps the other members in order; it makes a type that needs no more care
unless nothing but `undefined` is there, or but a union that needs care itself.
-/
namespace ApiSurface

namespace DocType

/-- The alternative that a property has anyway if it may be absent. -/
abbrev undefined : DocType := .intrinsic "undefined"

/-- A type that is neither a union nor a type in parentheses. -/
def IsSingle : DocType → Prop
  | union _ | paren _ => False
  | _ => True

/-- A type has another one among its alternatives. -/
inductive Offers : DocType → DocType → Prop
  | single {a : DocType} : a.IsSingle → Offers a a
  | paren {t a : DocType} : Offers t a → Offers (paren t) a
  | union {ts : List DocType} {t a : DocType} : t ∈ ts → Offers t a → Offers (union ts) a

/-- The members of a union that stay when `undefined` is left out. -/
def kept (ts : List DocType) : List DocType := ts.filter fun t => !t.isIntrinsic "undefined"

/-- Members of a union from which `undefined` is left out: there are two or more, and it is one of
them. -/
def Drops (ts : List DocType) : Prop := 2 ≤ ts.length ∧ undefined ∈ ts

variable {t a : DocType} {ts us : List DocType}

theorem isIntrinsic_iff {name : String} : t.isIntrinsic name = true ↔ t = intrinsic name := by
  cases t with
  | intrinsic value => rw [isIntrinsic, beq_iff_eq, intrinsic.injEq]
  | _ => exact iff_of_false nofun nofun

theorem mem_kept : t ∈ kept ts ↔ t ∈ ts ∧ t ≠ undefined := by
  rw [kept, List.mem_filter, Bool.not_eq_true', ← Bool.not_eq_true, isIntrinsic_iff]

theorem undefined_notMem_kept : undefined ∉ kept ts := fun h => (mem_kept.mp h).2 rfl

/-- A type stays as it is, or it is a union that `undefined` is left out of: then one other member
is the result, or all other members are its members. -/
theorem withoutUndefined_cases (t : DocType) :
    (t.withoutUndefined = t ∧ ∀ ts, t = union ts → ¬ Drops ts) ∨
      ∃ ts, t = union ts ∧ Drops ts ∧ (kept ts = [t.withoutUndefined] ∨
        (kept ts).length ≠ 1 ∧ t.withoutUndefined = union (kept ts)) := by
  unfold withoutUndefined
  split
  · next ts =>
    have hany : ts.any (·.isIntrinsic "undefined") = true ↔ undefined ∈ ts := by
      rw [List.any_eq_true]
      constructor
      · rintro ⟨t, ht, hintrinsic⟩
        obtain rfl := isIntrinsic_iff.mp hintrinsic
        exact ht
      · exact fun h => ⟨undefined, h, isIntrinsic_iff.mpr rfl⟩
    split
    · next hfew =>
      refine Or.inl ⟨rfl, fun us hus hdrops => ?_⟩
      obtain rfl := union.inj hus
      rw [Bool.or_eq_true, decide_eq_true_eq, Bool.not_eq_true', ← Bool.not_eq_true, hany] at hfew
      exact hfew.elim (Nat.not_lt_of_le hdrops.1) fun h => h hdrops.2
    · next hmany =>
      rw [Bool.or_eq_true, decide_eq_true_eq, Bool.not_eq_true', ← Bool.not_eq_true, hany, not_or,
        Nat.not_lt, not_not] at hmany
      refine Or.inr ⟨ts, rfl, hmany, ?_⟩
      split
      · next t heq => exact Or.inl heq
      · next hne =>
        refine Or.inr ⟨fun hlength => ?_, rfl⟩
        obtain ⟨t, heq⟩ := List.length_eq_one_iff.mp hlength
        exact hne t heq
  · next hne => exact Or.inl ⟨rfl, fun ts hts => absurd hts (hne ts)⟩

/-! ### What a type means -/

theorem offers_union : (union ts).Offers a ↔ ∃ t ∈ ts, t.Offers a := by
  constructor
  · intro h
    cases h with
    | single hsingle => exact hsingle.elim
    | union ht h => exact ⟨_, ht, h⟩
  · rintro ⟨t, ht, h⟩
    exact .union ht h

theorem eq_undefined_of_offers (h : undefined.Offers a) : a = undefined := by
  cases h
  rfl

theorem offers_kept : (∃ t ∈ kept ts, t.Offers a) ∨ a = undefined ↔
    (∃ t ∈ ts, t.Offers a) ∨ a = undefined := by
  constructor
  · exact Or.imp_left fun ⟨t, ht, h⟩ => ⟨t, (mem_kept.mp ht).1, h⟩
  · rintro (⟨t, ht, h⟩ | rfl)
    · by_cases hundefined : t = undefined
      · exact Or.inr (eq_undefined_of_offers (hundefined ▸ h))
      · exact Or.inl ⟨t, mem_kept.mpr ⟨ht, hundefined⟩, h⟩
    · exact Or.inr rfl

/-- Together with `undefined`, a type without it has the same alternatives. -/
theorem offers_withoutUndefined (t a : DocType) :
    t.withoutUndefined.Offers a ∨ a = undefined ↔ t.Offers a ∨ a = undefined := by
  rcases t.withoutUndefined_cases with ⟨heq, -⟩ | ⟨ts, rfl, -, hkept | ⟨-, heq⟩⟩
  · rw [heq]
  · rw [offers_union, ← offers_kept, hkept]
    simp
  · rw [heq, offers_union, offers_union, offers_kept]

/-! ### What shape it has -/

/-- A type that needs no more care. If it was made from a union of two or more, it is no union of
fewer; `undefined` is not among its members, unless they all are; and there is no more to leave
out. -/
structure Settled (t : DocType) : Prop where
  plural : ∀ ts us, t = union ts → 2 ≤ ts.length → t.withoutUndefined = union us → 2 ≤ us.length
  alone : ∀ us, t.withoutUndefined = union us → undefined ∈ us → ∀ u ∈ us, u = undefined
  again : t.withoutUndefined.withoutUndefined = t.withoutUndefined

/-- A union of two or more with `undefined`, and with nothing else, or nothing but a union that is
too short or has `undefined` again. -/
def Unsettled (t : DocType) : Prop :=
  ∃ ts, t = union ts ∧ Drops ts ∧ (kept ts = [] ∨
    ∃ us, kept ts = [union us] ∧ (us.length < 2 ∨ undefined ∈ us))

theorem withoutUndefined_eq_self (h : ∀ ts, t = union ts → ¬ Drops ts) :
    t.withoutUndefined = t := by
  rcases t.withoutUndefined_cases with ⟨heq, -⟩ | ⟨ts, hts, hdrops, -⟩
  · exact heq
  · exact absurd hdrops (h ts hts)

theorem withoutUndefined_of_drops (h : Drops ts) : kept ts = [(union ts).withoutUndefined] ∨
    (kept ts).length ≠ 1 ∧ (union ts).withoutUndefined = union (kept ts) := by
  rcases (union ts).withoutUndefined_cases with ⟨-, hnot⟩ | ⟨us, hus, -, hcases⟩
  · exact absurd h (hnot ts rfl)
  · rwa [← union.inj hus] at hcases

/-- Where nothing but `undefined` is there, nothing is left. -/
theorem withoutUndefined_of_kept_eq_nil (h : Drops ts) (hkept : kept ts = []) :
    (union ts).withoutUndefined = union [] := by
  rcases withoutUndefined_of_drops h with hone | ⟨-, heq⟩
  · rw [hkept] at hone
    cases hone
  · rw [heq, hkept]

theorem withoutUndefined_of_kept_eq_singleton (h : Drops ts) (hkept : kept ts = [t]) :
    (union ts).withoutUndefined = t := by
  rcases withoutUndefined_of_drops h with hone | ⟨hlength, -⟩
  · exact (List.singleton_inj.mp (hkept.symm.trans hone)).symm
  · exact absurd (hkept ▸ rfl) hlength

theorem Settled.not_unsettled (h : t.Settled) : ¬ t.Unsettled := by
  rintro ⟨ts, rfl, hdrops, hnone | ⟨us, hone, hus⟩⟩
  · have heq := withoutUndefined_of_kept_eq_nil hdrops hnone
    exact absurd (h.plural ts [] rfl hdrops.1 heq) (by decide)
  · have heq := withoutUndefined_of_kept_eq_singleton hdrops hone
    have hplural := h.plural ts us rfl hdrops.1 heq
    rcases hus with hshort | hmem
    · exact absurd hplural (Nat.not_le_of_lt hshort)
    · -- all members of the union that is left are `undefined`, so leaving them out leaves none
      have hall := h.alone us heq hmem
      have hnone : kept us = [] := List.eq_nil_iff_forall_not_mem.mpr fun u hu =>
        (mem_kept.mp hu).2 (hall u (mem_kept.mp hu).1)
      have hagain := h.again
      rw [heq, withoutUndefined_of_kept_eq_nil ⟨hplural, hmem⟩ hnone] at hagain
      rw [← union.inj hagain] at hmem
      cases hmem

theorem settled_of_not_unsettled (h : ¬ t.Unsettled) : t.Settled := by
  rcases t.withoutUndefined_cases with ⟨heq, hnot⟩ | ⟨ts, rfl, hdrops, hkept | ⟨hlength, heq⟩⟩
  · refine ⟨fun ts us hts hlength hus => ?_, fun us hus hmem u hu => ?_,
      congrArg withoutUndefined heq⟩
    · rw [heq, hts] at hus
      exact union.inj hus ▸ hlength
    · have hshort : ¬ 2 ≤ us.length := fun hlong => hnot us (heq ▸ hus) ⟨hlong, hmem⟩
      have hone : us.length = 1 := by
        have hpos := List.length_pos_of_mem hmem
        omega
      obtain ⟨v, rfl⟩ := List.length_eq_one_iff.mp hone
      exact (List.mem_singleton.mp hu).trans (List.mem_singleton.mp hmem).symm
  · have hunion (us : List DocType) (hus : (union ts).withoutUndefined = union us) :
        2 ≤ us.length ∧ undefined ∉ us := by
      rw [hus] at hkept
      constructor
      · by_contra hshort
        exact h ⟨ts, rfl, hdrops, Or.inr ⟨us, hkept, Or.inl (Nat.lt_of_not_le hshort)⟩⟩
      · exact fun hmem => h ⟨ts, rfl, hdrops, Or.inr ⟨us, hkept, Or.inr hmem⟩⟩
    refine ⟨fun _ us _ _ hus => (hunion us hus).1, fun us hus hmem => ?_, ?_⟩
    · exact absurd hmem (hunion us hus).2
    · exact withoutUndefined_eq_self fun us hus hdrops => (hunion us hus).2 hdrops.2
  · have hlong : 2 ≤ (kept ts).length := by
      have hne : (kept ts).length ≠ 0 := fun hzero =>
        h ⟨ts, rfl, hdrops, Or.inl (List.length_eq_zero_iff.mp hzero)⟩
      omega
    refine ⟨fun _ us _ _ hus => ?_, fun us hus hmem => ?_, ?_⟩
    · exact union.inj (heq.symm.trans hus) ▸ hlong
    · rw [← union.inj (heq.symm.trans hus)] at hmem
      exact absurd hmem undefined_notMem_kept
    · rw [heq]
      refine withoutUndefined_eq_self fun us hus hdrops => ?_
      exact undefined_notMem_kept (union.inj hus ▸ hdrops.2)

/-- Leaving `undefined` out of a type keeps what it means together with `undefined`. The type stays
as it is, or one other member of a union is left, or all others are in order. It is settled then,
exactly unless in the union there was nothing else, or nothing but a union that is too short or has
`undefined` itself. -/
theorem withoutUndefined_keeps (t : DocType) :
    (∀ a, t.withoutUndefined.Offers a ∨ a = undefined ↔ t.Offers a ∨ a = undefined) ∧
      (t.withoutUndefined = t ∨ ∃ ts, t = union ts ∧
        (kept ts = [t.withoutUndefined] ∨ t.withoutUndefined = union (kept ts))) ∧
      (t.Settled ↔ ¬ t.Unsettled) := by
  refine ⟨t.offers_withoutUndefined, ?_, Settled.not_unsettled, settled_of_not_unsettled⟩
  rcases t.withoutUndefined_cases with ⟨heq, -⟩ | ⟨ts, hts, -, hkept | ⟨-, heq⟩⟩
  · exact Or.inl heq
  · exact Or.inr ⟨ts, hts, Or.inl hkept⟩
  · exact Or.inr ⟨ts, hts, Or.inr heq⟩

/-- A union of `undefined` only becomes a union of nothing. -/
theorem withoutUndefined_leaves_nothing :
    (union [undefined, undefined]).withoutUndefined = union [] ∧
      ¬ (union [undefined, undefined]).Settled :=
  ⟨rfl, fun h => absurd (h.plural _ _ rfl (by decide) rfl) (by decide)⟩

end DocType

end ApiSurface

import ApiSurface.Grammar.File
import ApiSurface.Inference
import Mathlib.Data.List.Basic
/-!
Values of enum members. What a member is worth is said by rules for the initializer at its position,
which look back at the members before it; the values that are counted along the list are those,
except that a name that leads into another enum is read by its last part alone.
-/
namespace ApiSurface

/-- A name for a member of an enum: written bare, or behind the name of the enum. -/
def EntityName.NamesMemberOf (n : EntityName) (owner : String) : Prop :=
  n.tail = [] ∨ n.head.text = owner ∧ n.tail.length = 1

/-- The first member with a name stands at a position before another one. -/
structure FirstBefore (members : List (String × Option Expr)) (k : ℕ) (name : String) (j : ℕ)
    (initial : Option Expr) : Prop where
  before : j < k
  named : members[j]? = some (name, initial)
  first : ∀ i < j, ∀ other, members[i]? ≠ some (name, other)

/-- What an initializer, or a missing one, is worth at a position among the members of an enum. The
names that are read stand for members before it. -/
inductive EnumValue.At (reads : EntityName → Prop) (members : List (String × Option Expr)) :
    ℕ → Option Expr → EnumValue → Prop
  | zero : EnumValue.At reads members 0 none (.number 0.0)
  | succ {k : ℕ} {name : String} {initial : Option Expr} {x : Float} :
      members[k]? = some (name, initial) → EnumValue.At reads members k initial (.number x) →
        EnumValue.At reads members (k + 1) none (.number (x + 1.0))
  | string {k : ℕ} {span : Span} {text : String} :
      EnumValue.At reads members k (some ⟨span, .string text⟩) (.string text)
  | number {k : ℕ} {span : Span} {x : Float} :
      EnumValue.At reads members k (some ⟨span, .number x⟩) (.number x)
  | plus {k : ℕ} {span : Span} {operand : Expr} {x : Float} :
      EnumValue.At reads members k (some operand) (.number x) →
        EnumValue.At reads members k (some ⟨span, .unary "+" operand⟩) (.number x)
  | minus {k : ℕ} {span : Span} {operand : Expr} {x : Float} :
      EnumValue.At reads members k (some operand) (.number x) →
        EnumValue.At reads members k (some ⟨span, .unary "-" operand⟩) (.number (-x))
  | name {k j : ℕ} {span : Span} {n : EntityName} {initial : Option Expr} {v : EnumValue} :
      reads n → FirstBefore members k n.last.text j initial →
        EnumValue.At reads members j initial v →
          EnumValue.At reads members k (some ⟨span, .entity n⟩) v

/-- What the member at a position is worth. -/
def EnumValue.OfMember (reads : EntityName → Prop) (members : List (String × Option Expr)) (k : ℕ)
    (v : EnumValue) : Prop :=
  ∃ name initial, members[k]? = some (name, initial) ∧ EnumValue.At reads members k initial v

variable {members : List (String × Option Expr)} {k : ℕ} {v : EnumValue}

/-! ### The list of values -/

theorem enumValuesAfter_length (known : List (String × Option EnumValue))
    (next : Option EnumValue) (members : List (String × Option Expr)) :
    (enumValuesAfter known next members).length = members.length := by
  induction members generalizing known next with
  | nil => rfl
  | cons m members ih => exact congrArg Nat.succ (ih _ _)

theorem enumValues_length (members : List (String × Option Expr)) :
    (enumValues members).length = members.length := enumValuesAfter_length _ _ members

/-- The members by their names, with their values. -/
def enumTable (members : List (String × Option Expr)) : List (String × Option EnumValue) :=
  (members.map Prod.fst).zip (enumValues members)

/-- Each value comes from those before it: the first one is given for a missing initializer, any
other goes on from the value before. -/
theorem enumValuesAfter_getElem? (known : List (String × Option EnumValue))
    (next : Option EnumValue) {name : String} {initial : Option Expr}
    (hk : members[k]? = some (name, initial)) :
    (enumValuesAfter known next members)[k]? = some (match initial with
      | none => if k = 0 then next
        else EnumValue.successor? (enumValuesAfter known next members)[k - 1]?.join
      | some e => e.constant? (known ++
        ((members.map Prod.fst).zip (enumValuesAfter known next members)).take k)) := by
  induction members generalizing known next k with
  | nil => cases hk
  | cons m members ih =>
    obtain ⟨first, firstInitial⟩ := m
    cases k with
    | zero =>
      obtain ⟨rfl, rfl⟩ := Prod.mk.inj (Option.some.inj hk)
      cases firstInitial with
      | none => rfl
      | some e =>
        rw [List.take_zero, List.append_nil]
        rfl
    | succ k =>
      unfold enumValuesAfter
      dsimp only
      rw [List.getElem?_cons_succ, ih _ _ hk]
      cases initial with
      | some e =>
        dsimp only
        rw [List.map_cons, List.zip_cons_cons, List.take_succ_cons, List.append_assoc,
          List.singleton_append]
      | none =>
        dsimp only
        rw [if_neg (Nat.succ_ne_zero k), Nat.succ_sub_one]
        cases k with
        | zero => rfl
        | succ k => rfl

theorem enumValues_getElem? {name : String} {initial : Option Expr}
    (hk : members[k]? = some (name, initial)) :
    (enumValues members)[k]? = some (match initial with
      | none => if k = 0 then some (.number 0.0)
        else EnumValue.successor? (enumValues members)[k - 1]?.join
      | some e => e.constant? ((enumTable members).take k)) :=
  enumValuesAfter_getElem? [] _ hk

theorem enumTable_getElem? {j : ℕ} {name : String} {value : Option EnumValue} :
    (enumTable members)[j]? = some (name, value) ↔
      (∃ initial, members[j]? = some (name, initial)) ∧ (enumValues members)[j]? = some value := by
  rw [enumTable, List.getElem?_zip_eq_some, List.getElem?_map]
  simp

/-- A name is looked up at the first place that has it. -/
theorem lookup_eq_some_iff_first {α : Type} {table : List (String × α)} {name : String} {a : α} :
    table.lookup name = some a ↔
      ∃ j : ℕ, table[j]? = some (name, a) ∧ ∀ i < j, ∀ b, table[i]? ≠ some (name, b) := by
  induction table with
  | nil => simp
  | cons entry table ih =>
    obtain ⟨other, b⟩ := entry
    by_cases hname : name = other
    · subst hname
      rw [List.lookup_cons_self]
      constructor
      · intro h
        have hfirst : some (name, b) = some (name, a) :=
          congrArg (fun v => some (name, v)) (Option.some.inj h)
        exact ⟨0, hfirst, fun i hi => absurd hi (Nat.not_lt_zero i)⟩
      · rintro ⟨j, hj, hfirst⟩
        cases j with
        | zero => exact congrArg some (Prod.mk.inj (Option.some.inj hj)).2
        | succ j => exact absurd rfl (hfirst 0 (Nat.succ_pos j) b)
    · rw [List.lookup_cons, beq_false_of_ne hname]
      dsimp only
      rw [ih]
      constructor
      · rintro ⟨j, hj, hfirst⟩
        refine ⟨j + 1, hj, fun i hi c => ?_⟩
        cases i with
        | zero => exact fun h => hname (Prod.mk.inj (Option.some.inj h)).1.symm
        | succ i => exact hfirst i (Nat.lt_of_succ_lt_succ hi) c
      · rintro ⟨j, hj, hfirst⟩
        cases j with
        | zero => exact absurd (Prod.mk.inj (Option.some.inj hj)).1.symm hname
        | succ j => exact ⟨j, hj, fun i hi c => hfirst (i + 1) (Nat.succ_lt_succ hi) c⟩

theorem exists_enumTable {j : ℕ} {name : String} {initial : Option Expr}
    (hj : members[j]? = some (name, initial)) :
    ∃ value, (enumTable members)[j]? = some (name, value) := by
  have hlt : j < (enumValues members).length := by
    rw [enumValues_length]
    exact (List.getElem?_eq_some_iff.mp hj).1
  exact ⟨_, enumTable_getElem?.mpr ⟨⟨initial, hj⟩, List.getElem?_eq_getElem hlt⟩⟩

/-- A name stands for the value of the first member before that has it. -/
theorem lookup_enumTable {name : String} :
    (((enumTable members).take k).lookup name).join = some v ↔
      ∃ j initial, FirstBefore members k name j initial ∧
        (enumValues members)[j]? = some (some v) := by
  rw [Option.join_eq_some_iff, lookup_eq_some_iff_first]
  constructor
  · rintro ⟨j, hj, hfirst⟩
    rw [List.getElem?_take] at hj
    split at hj
    · next hlt =>
      obtain ⟨⟨initial, hinitial⟩, hvalue⟩ := enumTable_getElem?.mp hj
      refine ⟨j, initial, ⟨hlt, hinitial, fun i hi other hother => ?_⟩, hvalue⟩
      obtain ⟨value, hvalue⟩ := exists_enumTable hother
      refine hfirst i hi value ?_
      rw [List.getElem?_take_of_lt (Nat.lt_trans hi hlt), hvalue]
    · cases hj
  · rintro ⟨j, initial, h, hvalue⟩
    refine ⟨j, ?_, fun i hi value hother => ?_⟩
    · rw [List.getElem?_take_of_lt h.before]
      exact enumTable_getElem?.mpr ⟨⟨initial, h.named⟩, hvalue⟩
    · rw [List.getElem?_take_of_lt (Nat.lt_trans hi h.before)] at hother
      obtain ⟨⟨other, hother⟩, -⟩ := enumTable_getElem?.mp hother
      exact h.first i hi other hother

/-! ### Values by the rules -/

theorem EnumValue.signed?_eq_some_iff {op : String} {w : EnumValue} :
    w.signed? op = some v ↔ ∃ x, w = .number x ∧
      (op = "+" ∧ v = .number x ∨ op = "-" ∧ v = .number (-x)) := by
  cases w with
  | string text => simp [signed?]
  | number x =>
    unfold signed?
    dsimp only
    constructor
    · intro h
      refine ⟨x, rfl, ?_⟩
      split at h
      · next hop => exact Or.inr ⟨hop, (Option.some.inj h).symm⟩
      · split at h
        · next hop => exact Or.inl ⟨hop, (Option.some.inj h).symm⟩
        · cases h
    · rintro ⟨y, hy, ⟨rfl, rfl⟩ | ⟨rfl, rfl⟩⟩
      · rw [EnumValue.number.inj hy]
        rfl
      · rw [EnumValue.number.inj hy]
        rfl

theorem successor?_eq_some_iff {values : List (Option EnumValue)} :
    EnumValue.successor? values[k]?.join = some v ↔
      ∃ x, values[k]? = some (some (.number x)) ∧ v = .number (x + 1.0) := by
  simp only [← Option.join_eq_some_iff]
  cases values[k]?.join with
  | none => exact iff_of_false nofun nofun
  | some w =>
    cases w with
    | string text => exact iff_of_false nofun nofun
    | number x =>
      constructor
      · intro h
        exact ⟨x, rfl, (Option.some.inj h).symm⟩
      · rintro ⟨y, hy, rfl⟩
        rw [EnumValue.number.inj (Option.some.inj hy)]
        rfl

/-- Any name. -/
def EntityName.IsAny (_ : EntityName) : Prop := True

/-- What an initializer comes to is what it is worth, if that holds of the members before. -/
theorem constant?_eq_some_iff
    (hbefore : ∀ j < k, ∀ name initial v, members[j]? = some (name, initial) →
      ((enumValues members)[j]? = some (some v) ↔
        EnumValue.At EntityName.IsAny members j initial v)) :
    ∀ (e : Expr) (v : EnumValue), e.constant? ((enumTable members).take k) = some v ↔
      EnumValue.At EntityName.IsAny members k (some e) v
  | ⟨span, .string text⟩, v => by
    rw [Expr.constant?, constantShape?, Option.some_inj]
    constructor
    · rintro rfl
      exact .string
    · rintro ⟨⟩
      rfl
  | ⟨span, .number x⟩, v => by
    rw [Expr.constant?, constantShape?, Option.some_inj]
    constructor
    · rintro rfl
      exact .number
    · rintro ⟨⟩
      rfl
  | ⟨span, .unary op operand⟩, v => by
    rw [Expr.constant?, constantShape?, Option.bind_eq_some_iff]
    constructor
    · rintro ⟨w, hw, hsigned⟩
      obtain ⟨x, rfl, ⟨rfl, rfl⟩ | ⟨rfl, rfl⟩⟩ := EnumValue.signed?_eq_some_iff.mp hsigned
      · exact .plus ((constant?_eq_some_iff hbefore operand _).mp hw)
      · exact .minus ((constant?_eq_some_iff hbefore operand _).mp hw)
    · intro h
      cases h with
      | @plus _ _ _ x hx =>
        exact ⟨_, (constant?_eq_some_iff hbefore operand _).mpr hx,
          EnumValue.signed?_eq_some_iff.mpr ⟨x, rfl, Or.inl ⟨rfl, rfl⟩⟩⟩
      | @minus _ _ _ x hx =>
        exact ⟨_, (constant?_eq_some_iff hbefore operand _).mpr hx,
          EnumValue.signed?_eq_some_iff.mpr ⟨x, rfl, Or.inr ⟨rfl, rfl⟩⟩⟩
  | ⟨span, .entity n⟩, v => by
    rw [Expr.constant?, constantShape?, lookup_enumTable]
    constructor
    · rintro ⟨j, initial, hfirst, hvalue⟩
      exact .name trivial hfirst ((hbefore j hfirst.before _ _ v hfirst.named).mp hvalue)
    · intro h
      cases h with
      | name _ hfirst hvalue =>
        exact ⟨_, _, hfirst, (hbefore _ hfirst.before _ _ v hfirst.named).mpr hvalue⟩
  | ⟨_, .bigInt _⟩, v | ⟨_, .template _⟩, v | ⟨_, .true⟩, v | ⟨_, .false⟩, v | ⟨_, .null⟩, v
  | ⟨_, .array _⟩, v | ⟨_, .object _⟩, v | ⟨_, .new _⟩, v | ⟨_, .asserted _ _⟩, v
  | ⟨_, .asConst _⟩, v | ⟨_, .function _ _ _ _⟩, v | ⟨_, .unknown⟩, v => by
    rw [Expr.constant?, constantShape?]
    · exact iff_of_false nofun nofun
    all_goals nofun

/-- The members are worth what the rules say, each name being read by its last part. -/
theorem enumValues_eq_some_iff (members : List (String × Option Expr)) (k : ℕ) (v : EnumValue) :
    (enumValues members)[k]? = some (some v) ↔ EnumValue.OfMember EntityName.IsAny members k v := by
  induction k using Nat.strongRecOn generalizing v with
  | _ k ih =>
  have hbefore : ∀ j < k, ∀ name initial v, members[j]? = some (name, initial) →
      ((enumValues members)[j]? = some (some v) ↔
        EnumValue.At EntityName.IsAny members j initial v) := by
    intro j hj name initial v hmember
    rw [ih j hj v]
    constructor
    · rintro ⟨name', initial', hmember', hvalue⟩
      obtain ⟨rfl, rfl⟩ := Prod.mk.inj (Option.some.inj (hmember.symm.trans hmember'))
      exact hvalue
    · exact fun hvalue => ⟨name, initial, hmember, hvalue⟩
  have hat {name : String} {initial : Option Expr} (hmember : members[k]? = some (name, initial)) :
      (enumValues members)[k]? = some (some v) ↔
        EnumValue.At EntityName.IsAny members k initial v := by
    rw [enumValues_getElem? hmember, Option.some_inj]
    cases initial with
    | some e => exact constant?_eq_some_iff hbefore e v
    | none =>
      cases k with
      | zero =>
        constructor
        · intro h
          obtain rfl := Option.some.inj h
          exact .zero
        · rintro ⟨⟩
          rfl
      | succ k =>
        rw [if_neg (Nat.succ_ne_zero k), Nat.succ_sub_one, successor?_eq_some_iff]
        constructor
        · rintro ⟨x, hx, rfl⟩
          obtain ⟨name, initial, hbefore, hvalue⟩ := (ih k (Nat.lt_succ_self k) _).mp hx
          exact .succ hbefore hvalue
        · intro h
          cases h with
          | @succ _ name initial x hbefore hvalue =>
            exact ⟨x, (ih k (Nat.lt_succ_self k) _).mpr ⟨name, initial, hbefore, hvalue⟩, rfl⟩
  constructor
  · intro h
    have hlt : k < members.length := by
      rw [← enumValues_length]
      exact (List.getElem?_eq_some_iff.mp h).1
    have hmember := List.getElem?_eq_getElem hlt
    exact ⟨_, _, hmember, (hat hmember).mp h⟩
  · rintro ⟨name, initial, hmember, hvalue⟩
    exact (hat hmember).mpr hvalue

/-! ### Names that lead elsewhere -/

/-- A name under signs, which take the value that it stands for to that of the whole. -/
inductive Expr.Signed (n : EntityName) (v : EnumValue) : Expr → EnumValue → Prop
  | name {span : Span} : Expr.Signed n v ⟨span, .entity n⟩ v
  | plus {span : Span} {operand : Expr} {x : Float} : Expr.Signed n v operand (.number x) →
      Expr.Signed n v ⟨span, .unary "+" operand⟩ (.number x)
  | minus {span : Span} {operand : Expr} {x : Float} : Expr.Signed n v operand (.number x) →
      Expr.Signed n v ⟨span, .unary "-" operand⟩ (.number (-x))

/-- An initializer of a member is a name, under signs perhaps, that is neither bare nor behind the
name of the enum, although its last part names a member before, with a value that the signs apply
to. -/
def EnumStrays (owner : String) (members : List (String × Option Expr)) : Prop :=
  ∃ k name e n v w j initial, members[k]? = some (name, some e) ∧ Expr.Signed n v e w ∧
    ¬ n.NamesMemberOf owner ∧ FirstBefore members k n.last.text j initial ∧
      EnumValue.At (·.NamesMemberOf owner) members j initial v

namespace EnumValue.At

variable {reads reads' : EntityName → Prop} {initial : Option Expr}

theorem mono (h : EnumValue.At reads members k initial v) (hreads : ∀ n, reads n → reads' n) :
    EnumValue.At reads' members k initial v := by
  induction h with
  | zero => exact .zero
  | succ hmember _ ih => exact .succ hmember ih
  | string => exact .string
  | number => exact .number
  | plus _ ih => exact .plus ih
  | minus _ ih => exact .minus ih
  | name hn hfirst _ ih => exact .name (hreads _ hn) hfirst ih

theorem operand {span : Span} {op : String} {e : Expr}
    (h : EnumValue.At reads members k (some ⟨span, .unary op e⟩) v) :
    ∃ x, EnumValue.At reads members k (some e) (.number x) := by
  cases h with
  | plus h => exact ⟨_, h⟩
  | minus h => exact ⟨_, h⟩

/-- Only a name that is read is worth something, whatever signs are before it. -/
theorem reads_of_signed {n : EntityName} {w : EnumValue} {e : Expr} (hsigned : Expr.Signed n w e v)
    {u : EnumValue} (h : EnumValue.At reads members k (some e) u) : reads n := by
  induction hsigned generalizing u with
  | name =>
    cases h with
    | name hn _ _ => exact hn
  | plus _ ih | minus _ ih =>
    obtain ⟨x, hoperand⟩ := h.operand
    exact ih hoperand

/-- A name that is read is worth what it stands for, under the signs before it. -/
theorem of_signed {n : EntityName} {w : EnumValue} {e : Expr} {j : ℕ}
    (hsigned : Expr.Signed n w e v) (hn : reads n)
    (hfirst : FirstBefore members k n.last.text j initial)
    (h : EnumValue.At reads members j initial w) : EnumValue.At reads members k (some e) v := by
  induction hsigned with
  | name => exact .name hn hfirst h
  | plus _ ih => exact .plus ih
  | minus _ ih => exact .minus ih

/-- Where no name leads elsewhere, what is read by the last part of names is read as said. -/
theorem strict {owner : String} (hstrays : ¬ EnumStrays owner members)
    (h : EnumValue.At EntityName.IsAny members k initial v)
    (hposition : ∀ e, initial = some e → ∃ name whole w, members[k]? = some (name, some whole) ∧
      ∀ n u, Expr.Signed n u e v → Expr.Signed n u whole w) :
    EnumValue.At (·.NamesMemberOf owner) members k initial v := by
  induction h with
  | zero => exact .zero
  | @succ k name initial x hmember _ ih =>
    refine .succ hmember (ih ?_)
    rintro e rfl
    exact ⟨name, e, _, hmember, fun _ _ hsigned => hsigned⟩
  | string => exact .string
  | number => exact .number
  | plus _ ih =>
    refine .plus (ih fun e he => ?_)
    obtain rfl := Option.some.inj he
    obtain ⟨name, whole, w, hmember, hwhole⟩ := hposition _ rfl
    exact ⟨name, whole, w, hmember, fun n u hsigned => hwhole n u hsigned.plus⟩
  | minus _ ih =>
    refine .minus (ih fun e he => ?_)
    obtain rfl := Option.some.inj he
    obtain ⟨name, whole, w, hmember, hwhole⟩ := hposition _ rfl
    exact ⟨name, whole, w, hmember, fun n u hsigned => hwhole n u hsigned.minus⟩
  | @name k j span n initial v _ hfirst _ ih =>
    have hvalue : EnumValue.At (·.NamesMemberOf owner) members j initial v := by
      refine ih ?_
      rintro e rfl
      exact ⟨_, e, _, hfirst.named, fun _ _ hsigned => hsigned⟩
    refine .name ?_ hfirst hvalue
    by_contra hn
    obtain ⟨name, whole, w, hmember, hwhole⟩ := hposition _ rfl
    have hsigned := hwhole n v .name
    exact hstrays ⟨k, name, whole, n, v, w, j, initial, hmember, hsigned, hn, hfirst, hvalue⟩

end EnumValue.At

/-- The members of an enum; of any other declaration none. -/
def Declaration.enumMembers (d : Declaration) : List DeclIndex :=
  match d.shape with
  | .enum members => members
  | _ => []

namespace SourceFile

/-- Each member of an enum has one value or none. It is what the rules say where each name is read
by its last part; where names are read that are bare or behind the name of the enum, it is what the
rules say exactly unless a name leads elsewhere, but ends like a member before. -/
theorem enumValues_by_rules (f : SourceFile) (d : Declaration) :
    (f.enumValues d.enumMembers).length = d.enumMembers.length ∧
      (∀ k v, (f.enumValues d.enumMembers)[k]? = some (some v) ↔
        EnumValue.OfMember EntityName.IsAny (d.enumMembers.map f.enumMember) k v) ∧
      ((∀ k v, (f.enumValues d.enumMembers)[k]? = some (some v) ↔
          EnumValue.OfMember (·.NamesMemberOf d.name.text) (d.enumMembers.map f.enumMember) k v) ↔
        ¬ EnumStrays d.name.text (d.enumMembers.map f.enumMember)) := by
  have hvalues := enumValues_eq_some_iff (d.enumMembers.map f.enumMember)
  refine ⟨(enumValues_length _).trans (List.length_map _), hvalues, ?_⟩
  constructor
  · rintro hstrict ⟨k, name, e, n, v, w, j, initial, hmember, hsigned, hn, hfirst, hvalue⟩
    have hany : EnumValue.At EntityName.IsAny (d.enumMembers.map f.enumMember) k (some e) w :=
      .of_signed hsigned trivial hfirst (hvalue.mono fun _ _ => trivial)
    obtain ⟨name', initial', hmember', hstrict⟩ :=
      (hstrict k w).mp ((hvalues k w).mpr ⟨name, some e, hmember, hany⟩)
    obtain ⟨-, rfl⟩ := Prod.mk.inj (Option.some.inj (hmember.symm.trans hmember'))
    exact hn (EnumValue.At.reads_of_signed hsigned hstrict)
  · intro hstrays k v
    refine (hvalues k v).trans (exists_congr fun name => exists_congr fun initial =>
      and_congr_right fun hmember => ⟨fun h => h.strict hstrays ?_, fun h => h.mono ?_⟩)
    · rintro e rfl
      exact ⟨name, e, v, hmember, fun _ _ hsigned => hsigned⟩
    · exact fun _ _ => trivial

/-- A file with the members `A` and `B = O.A`. -/
def foreignMembers : SourceFile :=
  { (default : SourceFile) with
    declarations := #[
      ⟨⟨"A", default⟩, default, [], none, .enumMember none, some 2⟩,
      ⟨⟨"B", default⟩, default, [], none, .enumMember (some ⟨default,
        .entity ⟨⟨"O", default⟩, [⟨"A", default⟩], default⟩⟩), some 2⟩] }

/-- The enum that holds them. -/
def foreignEnum : Declaration := ⟨⟨"E", default⟩, default, [], none, .enum [0, 1], none⟩

/-- A member of another enum is taken for the one of its name in this enum. -/
theorem enumValues_foreign_name :
    foreignMembers.enumValues foreignEnum.enumMembers = [some (.number 0.0), some (.number 0.0)] ∧
      ¬ ∃ v, EnumValue.OfMember (·.NamesMemberOf foreignEnum.name.text)
        (foreignEnum.enumMembers.map foreignMembers.enumMember) 1 v := by
  refine ⟨rfl, ?_⟩
  rintro ⟨v, name, initial, hmember, hvalue⟩
  obtain ⟨-, rfl⟩ := Prod.mk.inj (Option.some.inj hmember)
  have hsigned : Expr.Signed _ v ⟨default, .entity ⟨⟨"O", default⟩, [⟨"A", default⟩], default⟩⟩ v :=
    .name
  rcases EnumValue.At.reads_of_signed hsigned hvalue with hbare | ⟨howner, -⟩
  · cases hbare
  · exact absurd howner (by decide)

end SourceFile

end ApiSurface

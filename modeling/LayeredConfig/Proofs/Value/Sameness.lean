import LayeredConfig.Value.Atom
import Mathlib.Tactic.Ring

/-!
# Keys that are the same

Keys are the same if they mean the same.  What a scalar means is its worth: for a number of any kind
how often it holds the least positive double, for a moment its place in time, and so on.  Only a
double that is no number has no worth.  So sameness is symmetric and transitive, across all
kinds of numbers.

* `Double.units_eq_iff` — finite doubles of the same size are the same, or both zero.
* `Atom.same_iff` — scalars are the same if they have the same worth.
* `Key.same_comm`, `Key.same_trans` — sameness of keys.
-/

namespace LayeredConfig

/-! ## The size of a double -/

namespace Double

variable (x y : Double)

theorem fractionField_lt : x.fractionField < fractionSize :=
  Nat.mod_lt _ (by decide)

theorem mantissa_lt : x.mantissa < 2 * fractionSize := by
  have h := x.fractionField_lt
  rw [mantissa]
  split <;> omega

/-- A double is made up of its sign, its exponent and its fraction. -/
theorem bits_eq_fields : x.bits.toNat =
    (if x.isNegative then signWeight else 0) + x.exponentField * fractionSize +
      x.fractionField := by
  have hlt : x.bits.toNat < 2 ^ 64 := x.bits.toNat_lt
  rw [exponentField, fractionField]
  split
  · rename_i hsign
    have hle : signWeight ≤ x.bits.toNat := of_decide_eq_true hsign
    simp only [signWeight, fractionSize] at hle ⊢
    omega
  · rename_i hsign
    have hgt : ¬ signWeight ≤ x.bits.toNat := fun hle => hsign (decide_eq_true hle)
    simp only [signWeight, fractionSize] at hgt ⊢
    omega

variable {x y}

theorem eq_of_fields (hsign : x.isNegative = y.isNegative)
    (hexponent : x.exponentField = y.exponentField)
    (hfraction : x.fractionField = y.fractionField) : x = y := by
  have hbits : x.bits.toNat = y.bits.toNat := by
    rw [bits_eq_fields x, bits_eq_fields y, hsign, hexponent, hfraction]
  obtain ⟨bits⟩ := x
  obtain ⟨bits'⟩ := y
  exact congrArg Double.mk (UInt64.toNat_inj.1 hbits)

variable (x y)

/-- The power of two that says how many units make up one. -/
def unitPlaces : Nat := 1074

/-- How often a finite double holds the least positive one. -/
def magnitude : Nat :=
  x.mantissa * 2 ^ (x.exponentField - 1)

/-- The magnitude with the sign. -/
def units : Int :=
  if x.isNegative then -(x.magnitude : Int) else x.magnitude

variable {x y}

theorem isZero_iff : x.isZero = true ↔ x.magnitude = 0 := by
  have hpos : 0 < fractionSize := by decide
  rw [isZero, magnitude, mantissa, Bool.and_eq_true, decide_eq_true_eq, decide_eq_true_eq]
  by_cases h : x.exponentField = 0
  · simp [h]
  · simp [h]
    omega

/-- The exponents of doubles of the same magnitude count the same. -/
theorem exponentField_pred_le (h : x.magnitude = y.magnitude) :
    y.exponentField - 1 ≤ x.exponentField - 1 := by
  by_contra hlt
  rw [not_le] at hlt
  obtain ⟨d, hd⟩ := Nat.exists_eq_add_of_lt hlt
  have hy : fractionSize ≤ y.mantissa := by
    rw [mantissa, if_neg (by omega)]
    omega
  have hsplit : x.mantissa = y.mantissa * 2 ^ d * 2 := by
    have hpow : 0 < 2 ^ (x.exponentField - 1) := Nat.two_pow_pos _
    refine Nat.eq_of_mul_eq_mul_right hpow ?_
    rw [magnitude, magnitude, hd] at h
    rw [h]
    ring
  have hgrow : y.mantissa * 1 ≤ y.mantissa * 2 ^ d := Nat.mul_le_mul_left _ Nat.one_le_two_pow
  have hx := x.mantissa_lt
  omega

/-- Doubles of the same magnitude have the same fields but for the sign. -/
theorem fields_eq_of_magnitude (h : x.magnitude = y.magnitude) :
    x.exponentField = y.exponentField ∧ x.fractionField = y.fractionField := by
  have hexponent : x.exponentField - 1 = y.exponentField - 1 :=
    le_antisymm (exponentField_pred_le h.symm) (exponentField_pred_le h)
  have hmantissa : x.mantissa = y.mantissa := by
    rw [magnitude, magnitude, hexponent] at h
    exact Nat.eq_of_mul_eq_mul_right (Nat.two_pow_pos _) h
  -- the two exponents that count the same have mantissas below and above the size of a fraction
  have hx := x.fractionField_lt
  have hy := y.fractionField_lt
  rw [mantissa, mantissa] at hmantissa
  split at hmantissa <;> split at hmantissa <;> omega

theorem natAbs_units : x.units.natAbs = x.magnitude := by
  rw [units]
  split <;> simp

/-- Doubles with the same units are the same, or both zero. -/
theorem units_eq_iff : x.units = y.units ↔ x = y ∨ x.isZero = true ∧ y.isZero = true := by
  rw [isZero_iff, isZero_iff]
  constructor
  · intro h
    have hmagnitude : x.magnitude = y.magnitude := by
      rw [← natAbs_units, ← natAbs_units, h]
    by_cases hzero : x.magnitude = 0
    · exact Or.inr ⟨hzero, hmagnitude ▸ hzero⟩
    · obtain ⟨hexponent, hfraction⟩ := fields_eq_of_magnitude hmagnitude
      refine Or.inl (eq_of_fields ?_ hexponent hfraction)
      rw [units, units, hmagnitude] at h
      rw [hmagnitude] at hzero
      cases hx : x.isNegative <;> cases hy : y.isNegative <;> simp [hx, hy] at h ⊢ <;> omega
  · rintro (rfl | ⟨hx, hy⟩)
    · rfl
    · rw [units, units, hx, hy]
      simp

/-- Powers of two on both sides of an equation may be gathered. -/
theorem mul_two_pow_sub_eq_iff (s n : Int) (k m : Nat) :
    s * 2 ^ (k - m) = n * 2 ^ (m - k) ↔ s * 2 ^ k = n * 2 ^ m := by
  have hpow : (2 ^ min k m : Int) ≠ 0 := pow_ne_zero _ two_ne_zero
  have hk : (2 ^ k : Int) = 2 ^ (k - m) * 2 ^ min k m := by rw [← pow_add]; congr 1; omega
  have hm : (2 ^ m : Int) = 2 ^ (m - k) * 2 ^ min k m := by rw [← pow_add]; congr 1; omega
  rw [hk, hm, ← mul_assoc, ← mul_assoc]
  exact (mul_left_inj' hpow).symm

theorem cast_pow2 (e : Int) : (pow2 e : Int) = 2 ^ e.toNat := by
  rw [pow2, Nat.pow_eq, Nat.cast_pow]
  rfl

/-- A double is a whole number if it is finite and has as many units. -/
theorem isInt_iff {n : Int} :
    x.isInt n = true ↔ x.exponentField ≠ 2047 ∧ x.units = n * 2 ^ unitPlaces := by
  have hfinite : (!x.isNaN && !x.isInfinite) = true ↔ x.exponentField ≠ 2047 := by
    simp [isNaN, isInfinite]
    tauto
  have hplaces : unitPlaces = 1074 := rfl
  have hexponent : x.exponent = ((x.exponentField - 1 : Nat) : Int) - unitPlaces := by
    rw [exponent]
    split <;> omega
  have hup : x.exponent.toNat = (x.exponentField - 1) - unitPlaces := by omega
  have hdown : (-x.exponent).toNat = unitPlaces - (x.exponentField - 1) := by omega
  have hunits : x.units = (if x.isNegative then -(x.mantissa : Int) else x.mantissa) *
      2 ^ (x.exponentField - 1) := by
    rw [units, magnitude]
    split <;> push_cast <;> ring
  rw [isInt, Bool.and_eq_true, hfinite, decide_eq_true_eq, cast_pow2, cast_pow2, hup, hdown, hunits,
    mul_two_pow_sub_eq_iff]

end Double

/-! ## What a scalar means -/

/-- What a scalar means as a key. -/
inductive Worth where
  /-- A number, by the units that it has. -/
  | number (units : Int)
  /-- A number beyond all others. -/
  | infinite (negative : Bool)
  /-- A moment, by what the clock says and whether it knows its distance from universal time. -/
  | moment (aware : Bool) (micros : Int)
  /-- A function, by its number. -/
  | function (id : Nat)
  /-- Anything else means itself. -/
  | other (a : Atom)

/-- What a whole number means. -/
def Worth.ofInt (n : Int) : Worth :=
  .number (n * 2 ^ Double.unitPlaces)

@[simp] theorem Worth.ofInt_inj {n m : Int} : ofInt n = ofInt m ↔ n = m := by
  have hpow : (2 ^ Double.unitPlaces : Int) ≠ 0 := pow_ne_zero _ two_ne_zero
  rw [ofInt, ofInt, number.injEq, mul_left_inj' hpow]

/-- What a double means; one that is no number means nothing. -/
def Double.worth? (x : Double) : Option Worth :=
  if x.exponentField = 2047 then
    if x.fractionField = 0 then some (.infinite x.isNegative) else none
  else some (.number x.units)

/-- What a scalar means as a key, if anything. -/
def Atom.worth? : Atom → Option Worth
  | bool b => some (.ofInt (if b then 1 else 0))
  | int n => some (.ofInt n)
  | float x => x.worth?
  | datetime t => some (.moment t.offset.isSome t.toMicros)
  | fn f => some (.function f.id)
  | a => some (.other a)

namespace Double

variable {x y : Double}

theorem isInt_iff_worth? {n : Int} : x.isInt n = true ↔ x.worth? = some (.ofInt n) := by
  rw [isInt_iff, worth?, Worth.ofInt]
  split
  · split <;> simp [*]
  · simp [*]

theorem isNaN_iff : x.isNaN = true ↔ x.worth? = none := by
  rw [isNaN, worth?, Bool.and_eq_true, decide_eq_true_eq, decide_eq_true_eq]
  split <;> simp [*]

/-- A double means a number, finite or not, or nothing. -/
theorem worth?_cases (x : Double) : x.worth? = none ∨ (∃ b, x.worth? = some (.infinite b)) ∨
    ∃ n, x.worth? = some (.number n) := by
  rw [worth?]
  split
  · split
    · exact Or.inr (Or.inl ⟨_, rfl⟩)
    · exact Or.inl rfl
  · exact Or.inr (Or.inr ⟨_, rfl⟩)

/-- Doubles that mean something mean the same if they are the same, or both zero. -/
theorem worth?_eq_iff (hx : x.worth? ≠ none) :
    x.worth? = y.worth? ↔ x = y ∨ x.isZero = true ∧ y.isZero = true := by
  have hfinite : ∀ z : Double, z.isZero = true → z.worth? = some (.number z.units) := by
    intro z hz
    rw [isZero, Bool.and_eq_true, decide_eq_true_eq] at hz
    rw [worth?, if_neg (by omega)]
  constructor
  · intro h
    by_cases hspecial : x.exponentField = 2047
    · have hfraction : x.fractionField = 0 := by
        by_contra hne
        exact hx (by rw [worth?, if_pos hspecial, if_neg hne])
      rw [worth?, worth?, if_pos hspecial, if_pos hfraction] at h
      split at h
      · split at h
        · rename_i hexponent' hfraction'
          have hsign : x.isNegative = y.isNegative := by simpa using h
          exact Or.inl (eq_of_fields hsign (hspecial.trans hexponent'.symm)
            (hfraction.trans hfraction'.symm))
        · cases h
      · cases h
    · rw [worth?, worth?, if_neg hspecial] at h
      split at h
      · split at h <;> cases h
      · exact units_eq_iff.1 (by simpa using h)
  · rintro (rfl | hzero)
    · rfl
    · rw [hfinite x hzero.1, hfinite y hzero.2, units_eq_iff.2 (Or.inr hzero)]

theorem sameNumber_iff : x.sameNumber y = true ↔ x.worth? = y.worth? ∧ x.worth? ≠ none := by
  rw [sameNumber, Bool.and_eq_true, Bool.and_eq_true, Bool.or_eq_true, Bool.and_eq_true,
    decide_eq_true_eq, Bool.not_eq_true', Bool.not_eq_true', Bool.eq_false_iff, Bool.eq_false_iff,
    ne_eq, ne_eq, isNaN_iff, isNaN_iff]
  constructor
  · rintro ⟨⟨hx, -⟩, h⟩
    exact ⟨(worth?_eq_iff hx).2 h, hx⟩
  · rintro ⟨h, hx⟩
    exact ⟨⟨hx, h ▸ hx⟩, (worth?_eq_iff hx).1 h⟩

@[simp] theorem worth?_ne_other (a : Atom) : x.worth? ≠ some (.other a) := by
  rcases x.worth?_cases with h | ⟨_, h⟩ | ⟨_, h⟩ <;> simp [h]

@[simp] theorem worth?_ne_moment (aware : Bool) (micros : Int) :
    x.worth? ≠ some (.moment aware micros) := by
  rcases x.worth?_cases with h | ⟨_, h⟩ | ⟨_, h⟩ <;> simp [h]

@[simp] theorem worth?_ne_function (id : Nat) : x.worth? ≠ some (.function id) := by
  rcases x.worth?_cases with h | ⟨_, h⟩ | ⟨_, h⟩ <;> simp [h]

end Double

namespace Atom

/-- Scalars are the same if they have the same worth. -/
theorem same_iff {a b : Atom} : a.same b = true ↔ a.worth? = b.worth? ∧ a.worth? ≠ none := by
  have hflip : ∀ (x : Double) (w : Worth), some w = x.worth? ↔ x.worth? = some w :=
    fun _ _ => eq_comm
  cases a <;> cases b <;>
    simp [same, worth?, toInt?, Double.isInt_iff_worth?, Double.sameNumber_iff, DateTime.same,
      hflip]
  case bool.bool b c => cases b <;> cases c <;> simp
  case int.bool n b => exact eq_comm
  case float.bool x b =>
    intro h
    simp [h]
  case float.int x n =>
    intro h
    simp [h]
  -- a number on one side only
  all_goals simp [Worth.ofInt]

theorem same_comm (a b : Atom) : a.same b = b.same a := by
  rw [Bool.eq_iff_iff, same_iff, same_iff]
  constructor <;> exact fun ⟨h, hne⟩ => ⟨h.symm, h ▸ hne⟩

theorem same_trans {a b c : Atom} (hab : a.same b = true) (hbc : b.same c = true) :
    a.same c = true := by
  rw [same_iff] at hab hbc ⊢
  exact ⟨hab.1.trans hbc.1, hab.2⟩

end Atom

namespace Key

/-! ## Keys -/

mutual

theorem same_comm : (k l : Key) → k.same l = l.same k
  | atom a, atom b => a.same_comm b
  | tuple ks, tuple ls => sameAll_comm ks ls
  | atom _, tuple _ => rfl
  | tuple _, atom _ => rfl

theorem sameAll_comm : (ks ls : List Key) → sameAll ks ls = sameAll ls ks
  | [], [] => rfl
  | [], _ :: _ => rfl
  | _ :: _, [] => rfl
  | k :: ks, l :: ls => by rw [sameAll, sameAll, same_comm k l, sameAll_comm ks ls]

end

mutual

/-- Keys that are the same as one key are the same. -/
theorem same_trans : {k l m : Key} → k.same l = true → l.same m = true → k.same m = true
  | atom _, atom _, atom _, hkl, hlm => Atom.same_trans hkl hlm
  | tuple _, tuple _, tuple _, hkl, hlm => sameAll_trans hkl hlm

theorem sameAll_trans : {ks ls ms : List Key} → sameAll ks ls = true → sameAll ls ms = true →
    sameAll ks ms = true
  | [], [], [], _, _ => rfl
  | k :: ks, l :: ls, m :: ms, hkl, hlm => by
    rw [sameAll, Bool.and_eq_true] at hkl hlm ⊢
    exact ⟨same_trans hkl.1 hlm.1, sameAll_trans hkl.2 hlm.2⟩

end

end Key

end LayeredConfig

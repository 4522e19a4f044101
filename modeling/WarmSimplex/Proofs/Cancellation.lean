import Mathlib
import WarmSimplex.Scalar

/-!
# Cancellation

Elimination is meant to leave zeros in the column that it clears. With rounding it is not clear that it
does: a row is divided by its entry in the column, and a multiple of the quotient is subtracted from the
other rows. What is needed for this to cancel is put down as laws of the arithmetic here. They allow that
nothing is left but an undefined value, which arises where numbers have become infinite.

The laws hold of exact numbers with a tolerance that is not negative. They hold of binary64 numbers with
any tolerance: a finite number other than zero goes into itself exactly once, zero and the infinities
into themselves an undefined number of times, and a number times one is that number.
-/

namespace WarmSimplex

namespace Scalar

variable {α : Type} [Scalar α]

/-- The scalar is a zero, or undefined. -/
def Blank (a : α) : Prop := (a == 0) = true ∨ isNaN a = true

/-- The arithmetic cancels: multiples, quotients and differences of blanks are blank, and so is a number
less as many times itself as a number above the tolerance goes into itself. Products with zero and one
are exact, and nothing undefined is less than anything. -/
structure Cancels (tolerance : α) : Prop where
  zero : Blank (0 : α)
  mul : ∀ c a : α, Blank a → Blank (c * a)
  div : ∀ a c : α, Blank a → Blank (a / c)
  sub : ∀ a b : α, Blank a → Blank b → Blank (a - b)
  cancel : ∀ c a : α, tolerance < a → Blank (c - c * (a / a))
  one_sub_zero : (1 : α) - 1 * 0 = 1
  one_sub_one : Blank ((1 : α) - 1 * 1)
  not_lt : ∀ a b : α, isNaN a = true → ¬a < b

/-- Exact arithmetic cancels. -/
theorem cancels_rat {tolerance : ℚ} (h : 0 ≤ tolerance) : Cancels tolerance := by
  have hblank : ∀ a : ℚ, Blank a ↔ a = 0 := fun a => by simp [Blank, isNaN]
  constructor
  case zero => exact (hblank 0).mpr rfl
  case mul =>
    intro c a ha
    rw [hblank] at ha ⊢
    rw [ha, mul_zero]
  case div =>
    intro a c ha
    rw [hblank] at ha ⊢
    rw [ha, zero_div]
  case sub =>
    intro a b ha hb
    rw [hblank] at ha hb ⊢
    rw [ha, hb, sub_zero]
  case cancel =>
    intro c a ha
    rw [hblank, div_self (h.trans_lt ha).ne', mul_one, sub_self]
  case one_sub_zero => exact (congrArg (1 - ·) (mul_zero 1)).trans (sub_zero (1 : ℚ))
  case one_sub_one => exact (hblank _).mpr ((congrArg (1 - ·) (mul_one 1)).trans (sub_self (1 : ℚ)))
  case not_lt => exact fun a b ha => absurd ha Bool.false_ne_true

end Scalar

/-! ## Binary64 numbers -/

namespace Binary64

open Float.Model (Format UnpackedFloat totalExponent)
open Float.Model.UnpackedFloat

section Rounding

variable {spec : Format} {m : ℕ} {e : ℤ}

/-- Each zero that is written after the last digit moves the leading one up by a place. -/
theorem log2_mul_two_pow (hm : 0 < m) (k : ℕ) : (m * 2 ^ k).log2 = m.log2 + k := by
  induction k with
  | zero => rw [pow_zero, mul_one, add_zero]
  | succ k ih => rw [pow_succ', mul_left_comm, Nat.log2_two_mul (by positivity), ih, add_assoc]

/-- The leading digit stays where it is when zeros are written after the last one. -/
theorem totalExponent_mul_two_pow (hm : 0 < m) (e : ℤ) (k : ℕ) :
    totalExponent (m * 2 ^ k) (e - k) = totalExponent m e := by
  rw [totalExponent, totalExponent, log2_mul_two_pow hm, Nat.cast_add]
  ring

/-- Shifting out zeros leaves nothing over. -/
theorem shiftRight_exact (m k : ℕ) :
    (⟨m * 2 ^ k, false, false⟩ : ExtendedMantissa) >>> k = ⟨m, false, false⟩ := by
  induction k generalizing m with
  | zero => rw [pow_zero, mul_one]; rfl
  | succ k ih =>
    rw [pow_succ', ← mul_assoc]
    refine (congrArg ExtendedMantissa.shiftRightOne (ih (m * 2))).trans ?_
    simp [ExtendedMantissa.shiftRightOne]

/-- A number of the format comes back to its own exponent when zeros are written after it. -/
theorem shiftToTargetExponent_exact (hm : 0 < m) (he : spec.targetExponent (totalExponent m e) = e)
    (k : ℕ) : shiftToTargetExponent spec (m * 2 ^ k) (e - k) .exact = (⟨m, false, false⟩, e) := by
  rw [shiftToTargetExponent, totalExponent_mul_two_pow hm, he, shiftToExponent, sub_sub_cancel,
    Int.toNat_natCast, sub_add_cancel]
  exact congrArg (·, e) (shiftRight_exact m k)

/-- Rounding gives back a number of the format that has zeros written after it. -/
theorem roundWithAccuracy_exact (hm : 0 < m) (he : spec.targetExponent (totalExponent m e) = e)
    (s : Sign) (k : ℕ) : roundWithAccuracy spec s (m * 2 ^ k) (e - k) .exact = .finite s m e hm := by
  have hagain := shiftToTargetExponent_exact hm he 0
  rw [pow_zero, mul_one, Nat.cast_zero, sub_zero] at hagain
  have hkeep : (⟨m, false, false⟩ : ExtendedMantissa).roundedMantissa = m := rfl
  simp only [roundWithAccuracy, shiftToTargetExponent_exact hm he, hkeep, hagain, hm.ne', ↓reduceDIte]

end Rounding

/-! ### Numbers of the format -/

/-- A number of the format: a mantissa of at most 53 bits at an exponent in range, with the leading bit
set but for the smallest exponent. -/
def Canonical : UnpackedFloat → Prop
  | .finite _ m e _ => m < 2 ^ 53 ∧ -1074 ≤ e ∧ e ≤ 971 ∧ (2 ^ 52 ≤ m ∨ e = -1074)
  | .infinity _ | .zero _ | .notANumber => True

/-- A number is held with 53 bits, or with the smallest exponent if it is too small for that. -/
theorem targetExponent_eq (t : ℤ) : Format.binary64.targetExponent t = max (t - 53) (-1074) := rfl

/-- A number of the format has the exponent that rounding aims at. -/
theorem Canonical.targetExponent {s : Sign} {m : ℕ} {e : ℤ} {hm : 0 < m}
    (h : Canonical (.finite s m e hm)) : Format.binary64.targetExponent (totalExponent m e) = e := by
  obtain ⟨hhigh, hlow, -, hlead⟩ := h
  have hlog := (Nat.log2_lt hm.ne').mpr hhigh
  rw [targetExponent_eq, totalExponent]
  rcases hlead with hlead | rfl
  · have hlog' := (Nat.le_log2 hm.ne').mpr hlead
    omega
  · omega

/-- The leading bit of a mantissa is not stored with it. -/
theorem toNat_append_one (f : BitVec 52) : (1#1 ++ f).toNat = 2 ^ 52 + f.toNat := by
  rw [BitVec.toNat_append, ← Nat.shiftLeft_add_eq_or_of_lt f.isLt, Nat.shiftLeft_eq,
    BitVec.toNat_one Nat.one_pos, Nat.one_mul]

/-- Every binary64 number is one of the format. -/
theorem canonical_unpack (b : BitVec 64) : Canonical (unpack .binary64 b) := by
  fun_cases unpack .binary64 b
  case case1 | case2 | case3 => trivial
  case case4 f x e _ _ _ hx _ =>
    have hf : f.toNat < 2 ^ 52 := f.isLt
    have he : e = -1075 := congrArg (fun x : BitVec 11 => (x.toNat : ℤ) - 1075) hx
    exact ⟨by omega, by omega, by omega, .inr (by omega)⟩
  case case5 f x e _ _ hx hne =>
    have hf : f.toNat < 2 ^ 52 := f.isLt
    have hmantissa : (1#1 ++ f).toNat = 2 ^ 52 + f.toNat := toNat_append_one f
    have he : e = (x.toNat : ℤ) - 1075 := rfl
    have hzero : x.toNat ≠ 0 := fun h => hne (BitVec.eq_of_toNat_eq h)
    have hones : x.toNat ≠ 2047 := fun h => hx (BitVec.eq_of_toNat_eq h)
    have hx : x.toNat < 2048 := x.isLt
    rw [Canonical, hmantissa]
    exact ⟨by omega, by omega, by omega, .inl (by omega)⟩

/-! ### Packing -/

/-- The sign is read back as it was put in. -/
@[simp]
theorem unpackSign_packComponents {spec : Format} {s : Sign} {x f} :
    unpackSign (packComponents spec s x f) = s.toBitVec := by
  ext i hi
  obtain rfl : i = 0 := by omega
  simp [unpackSign, packComponents, BitVec.getElem_append, BitVec.getLsbD_append]

/-- A sign is stored in one bit without loss. -/
@[simp]
theorem ofBitVec_toBitVec (s : Sign) : Sign.ofBitVec s.toBitVec = s := by
  cases s <;> rfl

/-- With an exponent between the lowest and the highest one, the leading bit is put in front of what is
stored. -/
theorem unpack_normal (s : Sign) {x : BitVec 11} (f : BitVec 52) (hzero : x ≠ 0#11)
    (hones : x ≠ -1#11) : unpack .binary64 (packComponents .binary64 s x f) =
      .finite s (1#1 ++ f).toNat ((x.toNat : ℤ) - 1075)
        (toNat_append_one f ▸ Nat.add_pos_left (by decide) _) := by
  simp only [unpack, unpackSign_packComponents, unpackExponent_packComponents,
    unpackMantissa_packComponents, ofBitVec_toBitVec, hzero, hones, ↓reduceIte]
  rfl

/-- With the lowest exponent, the mantissa is what is stored. -/
theorem unpack_subnormal (s : Sign) {f : BitVec 52} (hf : 0 < f.toNat) :
    unpack .binary64 (packComponents .binary64 s 0#11 f) = .finite s f.toNat (-1074) hf := by
  have hf : f ≠ 0#52 := fun h => hf.ne' (congrArg BitVec.toNat h)
  have hx : (0#11) ≠ -1#11 := by decide
  simp only [unpack, unpackSign_packComponents, unpackExponent_packComponents,
    unpackMantissa_packComponents, ofBitVec_toBitVec, hf, hx, ↓reduceIte, ↓reduceDIte]
  rfl

/-- The exponent is stored as a natural number, which is below that of the infinities. -/
theorem pack_finite (s : Sign) {m x : ℕ} (hm : 0 < m) (hx : x < 2047) :
    pack .binary64 (.finite s m ((x : ℤ) - 1075) hm) =
      if m.log2 + 1 = 53 then packComponents .binary64 s (BitVec.ofNat 11 x) (BitVec.ofNat 52 m)
      else packComponents .binary64 s 0#11 (BitVec.ofNat 52 m) := by
  have hstored : ((x : ℤ) - 1075 + (1023 : ℕ) + (52 : ℕ)).toNat = x := by omega
  have hbelow : ¬2 ^ 11 ≤ ((x : ℤ) - 1075 + (1023 : ℕ) + (52 : ℕ)).toNat + 1 := by omega
  refine (if_neg hbelow).trans ?_
  exact congrArg (fun x => if m.log2 + 1 = 53 then
    packComponents .binary64 s (BitVec.ofNat 11 x) (BitVec.ofNat 52 m) else _) hstored

/-- Numbers of the format come back as they were. -/
theorem Canonical.unpack_pack {a : UnpackedFloat} (h : Canonical a) :
    unpack .binary64 (pack .binary64 a) = a := by
  cases a with
  | notANumber => rfl
  | zero s | infinity s => cases s <;> rfl
  | finite s m e hm =>
    obtain ⟨hhigh, hlow, htop, hlead⟩ := h
    obtain ⟨x, rfl⟩ : ∃ x : ℕ, e = x - 1075 := ⟨(e + 1075).toNat, by omega⟩
    rw [pack_finite s hm (by omega)]
    by_cases hnormal : 2 ^ 52 ≤ m
    · have hlog : m.log2 = 52 := (Nat.log2_eq_iff hm.ne').mpr ⟨hnormal, hhigh⟩
      have hx : (BitVec.ofNat 11 x).toNat = x := Nat.mod_eq_of_lt (by omega)
      have hother : ∀ y : BitVec 11, y.toNat ≠ x → BitVec.ofNat 11 x ≠ y :=
        fun y hy h => hy (h ▸ hx)
      have hmantissa : (1#1 ++ BitVec.ofNat 52 m).toNat = m := by
        rw [toNat_append_one, BitVec.toNat_ofNat]
        omega
      rw [if_pos (by rw [hlog]), unpack_normal s _ (hother _ ?lowest) (hother _ ?highest)]
      · simp only [hx, hmantissa]
      case lowest => exact (show 0 < x by omega).ne
      case highest => exact (show x < 2047 by omega).ne'
    · have hlog := (Nat.log2_lt hm.ne').mpr (not_le.mp hnormal)
      have hf : (BitVec.ofNat 52 m).toNat = m := Nat.mod_eq_of_lt (by omega)
      have he : (x : ℤ) - 1075 = -1074 := hlead.resolve_left hnormal
      rw [if_neg (by omega), unpack_subnormal s (hf.symm ▸ hm)]
      simp only [hf, he]

/-! ### Multiplying and dividing -/

/-- The number one has the leading bit set, which stands 52 places up. -/
def one : UnpackedFloat := .finite .positive (2 ^ 52) (-52) (by decide)

/-- One is a number of the format. -/
theorem canonical_one : Canonical one := ⟨by decide, by decide, by decide, .inl le_rfl⟩

/-- A number of the format times one is that number. -/
theorem Canonical.mul_one {a : UnpackedFloat} (h : Canonical a) : mul .binary64 a one = a := by
  have hsign : ∀ s : Sign, s * .positive = s := by rintro (_ | _) <;> rfl
  cases a with
  | notANumber => rfl
  | zero s => exact congrArg UnpackedFloat.zero (hsign s)
  | infinity s => exact congrArg UnpackedFloat.infinity (hsign s)
  | finite s m e hm =>
    simp only [mul, one, hsign]
    exact roundWithAccuracy_exact hm h.targetExponent s 52

/-- The quotient is made with 54 bits, of which rounding shifts out the last, a zero. -/
theorem div_same_finite {s : Sign} {m : ℕ} {e : ℤ} (hm : 0 < m) :
    div .binary64 (.finite s m e hm) (.finite s m e hm) = one := by
  have hcore : divCore .binary64 m e m e = (2 ^ 52 * 2 ^ 1, -52 - ((1 : ℕ) : ℤ), .exact) := by
    have htarget : min (0 : ℤ) (Format.binary64.targetExponent 0) = -53 := by decide
    rw [divCore, sub_self, sub_self, htarget]
    simp [accuracyOfFraction, Nat.shiftLeft_eq, hm]
  have hsign : s / s = .positive := by cases s <;> rfl
  simp only [div, hcore, hsign]
  exact roundWithAccuracy_exact _ canonical_one.targetExponent _ 1

/-- Only finite numbers other than zero go into themselves. -/
theorem div_same (a : UnpackedFloat) : div .binary64 a a = .notANumber ∨ div .binary64 a a = one := by
  cases a with
  | notANumber | zero | infinity => exact .inl rfl
  | finite => exact .inr (div_same_finite _)

/-! ### What cancels -/

/-- A zero, or undefined. -/
def Vanishes : UnpackedFloat → Prop
  | .zero _ | .notANumber => True
  | .infinity _ | .finite .. => False

section Vanishes

variable {a b : UnpackedFloat}

/-- Zeros and the undefined value are numbers of the format. -/
theorem Vanishes.canonical (h : Vanishes a) : Canonical a := by
  cases a with
  | zero | notANumber => trivial
  | infinity | finite => exact h.elim

/-- Multiples of what vanishes vanish: an infinity times zero is undefined. -/
theorem Vanishes.mul (c : UnpackedFloat) (h : Vanishes a) : Vanishes (mul .binary64 c a) := by
  cases a with
  | zero | notANumber => cases c <;> trivial
  | infinity | finite => exact h.elim

/-- Quotients of what vanishes vanish: a zero divided by a zero is undefined. -/
theorem Vanishes.div (h : Vanishes a) (c : UnpackedFloat) : Vanishes (div .binary64 a c) := by
  cases a with
  | zero | notANumber => cases c <;> trivial
  | infinity | finite => exact h.elim

/-- A multiple of the undefined value is undefined. -/
theorem mul_notANumber (c : UnpackedFloat) : mul .binary64 c .notANumber = .notANumber := by
  cases c <;> rfl

/-- A number less the undefined value is undefined. -/
theorem sub_notANumber (c : UnpackedFloat) : sub .binary64 c .notANumber = .notANumber := by
  cases c <;> rfl

/-- A number less itself is a zero, or undefined if the number is infinite. -/
theorem sub_same (a : UnpackedFloat) : Vanishes (sub .binary64 a a) := by
  cases a with
  | notANumber => trivial
  | zero s | infinity s => cases s <;> trivial
  | finite s m e hm =>
    simp only [sub, Int.sub_self]
    trivial

/-- Differences of what vanishes vanish, whatever the signs of the zeros are. -/
theorem Vanishes.sub (ha : Vanishes a) (hb : Vanishes b) : Vanishes (sub .binary64 a b) := by
  cases a with
  | notANumber => trivial
  | zero s =>
    cases b with
    | notANumber => trivial
    | zero t => cases s <;> cases t <;> trivial
    | infinity | finite => exact hb.elim
  | infinity | finite => exact ha.elim

end Vanishes

/-- What a binary64 number stands for. -/
def value (a : Float) : UnpackedFloat := a.toModel.unpack

/-- Every binary64 number stands for one of the format. -/
theorem canonical_value (a : Float) : Canonical (value a) := canonical_unpack _

/-- A binary64 number is blank if it stands for a zero or for the undefined value. -/
theorem blank_iff (a : Float) : Scalar.Blank a ↔ Vanishes (value a) := by
  have hzero : value 0 = .zero .positive := rfl
  show (value a).beq (value 0) = true ∨ (value a).isNaN = true ↔ _
  rw [hzero]
  cases value a with
  | notANumber => simp [isNaN, Vanishes]
  | zero s => simp [UnpackedFloat.beq, UnpackedFloat.compare, Vanishes]
  | infinity s | finite s =>
    cases s <;> simp [UnpackedFloat.beq, UnpackedFloat.compare, isNaN, Vanishes]

/-- A product that is a number of the format is what the rounded product stands for. -/
theorem value_mul (a b : Float) (h : Canonical (mul .binary64 (value a) (value b))) :
    value (a * b) = mul .binary64 (value a) (value b) := h.unpack_pack

/-- So is a quotient. -/
theorem value_div (a b : Float) (h : Canonical (div .binary64 (value a) (value b))) :
    value (a / b) = div .binary64 (value a) (value b) := h.unpack_pack

/-- So is a difference. -/
theorem value_sub (a b : Float) (h : Canonical (sub .binary64 (value a) (value b))) :
    value (a - b) = sub .binary64 (value a) (value b) := h.unpack_pack

/-- A number less as many times itself as any number goes into itself is zero or undefined. -/
theorem vanishes_cancel (c a : Float) : Vanishes (value (c - c * (a / a))) := by
  -- An undefined quotient leaves nothing defined; otherwise the product is the number itself.
  rcases div_same (value a) with hundefined | hone
  · have hquotient : value (a / a) = .notANumber :=
      (value_div a a (hundefined ▸ trivial)).trans hundefined
    have hmul : mul .binary64 (value c) (value (a / a)) = .notANumber := by
      rw [hquotient, mul_notANumber]
    have hproduct : value (c * (a / a)) = .notANumber := (value_mul c _ (hmul ▸ trivial)).trans hmul
    have hsub : sub .binary64 (value c) (value (c * (a / a))) = .notANumber := by
      rw [hproduct, sub_notANumber]
    rw [value_sub c _ (hsub ▸ trivial), hsub]
    trivial
  · have hquotient : value (a / a) = one := (value_div a a (hone ▸ canonical_one)).trans hone
    have hmul : mul .binary64 (value c) (value (a / a)) = value c := by
      rw [hquotient, (canonical_value c).mul_one]
    have hproduct : value (c * (a / a)) = value c :=
      (value_mul c _ (hmul.symm ▸ canonical_value c)).trans hmul
    have hsub : Vanishes (sub .binary64 (value c) (value (c * (a / a)))) := by
      rw [hproduct]
      exact sub_same (value c)
    rw [value_sub c _ hsub.canonical]
    exact hsub

/-- Nothing undefined is less than anything. -/
theorem not_lt_of_isNaN {a : Float} (h : a.isNaN = true) (b : Float) : ¬a < b := by
  intro hlt
  have hcompare : (value a).compare (value b) = some .lt := eq_of_beq (of_decide_eq_true hlt)
  change (value a).isNaN = true at h
  cases hvalue : value a with
  | notANumber => rw [hvalue, UnpackedFloat.compare] at hcompare; cases hcompare
  | infinity | zero | finite => rw [hvalue] at h; cases h

end Binary64

namespace Scalar

open Binary64

/-- Binary64 arithmetic cancels. -/
theorem cancels_float (tolerance : Float) : Cancels tolerance := by
  constructor
  case zero => exact .inl rfl
  case mul =>
    intro c a ha
    have hmul := ((blank_iff a).mp ha).mul (value c)
    exact (blank_iff _).mpr ((value_mul c a hmul.canonical).symm ▸ hmul)
  case div =>
    intro a c ha
    have hdiv := ((blank_iff a).mp ha).div (value c)
    exact (blank_iff _).mpr ((value_div a c hdiv.canonical).symm ▸ hdiv)
  case sub =>
    intro a b ha hb
    have hsub := ((blank_iff a).mp ha).sub ((blank_iff b).mp hb)
    exact (blank_iff _).mpr ((value_sub a b hsub.canonical).symm ▸ hsub)
  case cancel => exact fun c a _ => (blank_iff _).mpr (vanishes_cancel c a)
  case one_sub_zero => rfl
  case one_sub_one => exact .inl rfl
  case not_lt => exact fun a b ha => not_lt_of_isNaN ha b

end Scalar

end WarmSimplex

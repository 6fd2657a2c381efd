/-
Widening a floating-point number.

A finite number of the 32-bit format is a significand of at most 24 bits times a power of two, and
the 64-bit format has room for both: rounding to it divides without a remainder. So the wide pattern
denotes the number that the narrow one denotes, its sign included, also where the narrow one is
subnormal. Infinities and NaNs keep their kind and their sign.
-/
import Mathlib.Algebra.Order.Field.Power
import Mathlib.Data.Rat.Cast.Order
import Mathlib.Tactic.FieldSimp
import Mathlib.Tactic.Positivity
import Mathlib.Tactic.Ring
import PackedIR.Binary.Arith

set_option autoImplicit false

namespace PackedIR.Binary

/-- Both stand for the same number with the same sign. NaNs may differ in their payload. -/
inductive Datum.Same : Datum → Datum → Prop where
  | nan (negative : Bool) (payload payload' : Nat) :
      Same (.nan negative payload) (.nan negative payload')
  | infinite (negative : Bool) : Same (.infinite negative) (.infinite negative)
  | finite (negative : Bool) {m m' : Nat} {e e' : Int} (h : (m : ℚ) * 2 ^ e = m' * 2 ^ e') :
      Same (.finite negative m e) (.finite negative m' e')

theorem Datum.Same.refl (d : Datum) : d.Same d := by
  cases d with
  | nan negative payload => exact .nan negative payload payload
  | infinite negative => exact .infinite negative
  | finite negative m e => exact .finite negative rfl

/-! ## Quotients -/

/-- Scaling multiplies the quotient by the power of two. -/
theorem scale_spec (num : Nat) {den : Nat} (hden : 0 < den) (e : Int) :
    0 < (scale num den e).2 ∧
      ((scale num den e).1 : ℚ) = num / den * 2 ^ e * (scale num den e).2 := by
  have hq : (den : ℚ) ≠ 0 := by exact_mod_cast hden.ne'
  unfold scale
  split
  · rename_i he
    refine ⟨hden, ?_⟩
    have hpow : (2 : ℚ) ^ e = ((2 ^ e.toNat : Nat) : ℚ) := by
      conv_lhs => rw [← Int.toNat_of_nonneg he]
      rw [zpow_natCast]
      norm_cast
    rw [hpow]
    simp only [Nat.pow_eq, Nat.cast_mul]
    field_simp
  · rename_i he
    refine ⟨Nat.mul_pos hden (Nat.two_pow_pos _), ?_⟩
    have hpow : (2 : ℚ) ^ e = (((2 ^ (-e).toNat : Nat) : ℚ))⁻¹ := by
      have hneg : e = -((-e).toNat : Int) := by omega
      conv_lhs => rw [hneg]
      rw [zpow_neg, zpow_natCast]
      norm_cast
    rw [hpow]
    simp only [Nat.pow_eq, Nat.cast_mul]
    field_simp

theorem roundDivEven_of_eq_mul {num den q : Nat} (hden : 0 < den) (h : num = q * den) :
    roundDivEven num den = q := by
  subst h
  unfold roundDivEven
  simp only [Nat.mul_mod_left, Nat.mul_div_cancel q hden]
  rw [if_pos (by omega)]

theorem log2_mul_two_pow {m : Nat} (hm : 0 < m) (k : Nat) : (m * 2 ^ k).log2 = m.log2 + k := by
  have hlow := Nat.log2_self_le hm.ne'
  have hhigh : m < 2 ^ (m.log2 + 1) := Nat.lt_log2_self
  have hpos := Nat.two_pow_pos k
  rw [Nat.log2_eq_iff (Nat.mul_pos hm hpos).ne', show m.log2 + k + 1 = m.log2 + 1 + k by omega,
    Nat.pow_add, Nat.pow_add 2 (m.log2 + 1)]
  exact ⟨Nat.mul_le_mul_right _ hlow, Nat.mul_lt_mul_of_pos_right hhigh hpos⟩

/-- The leading bit of a scaled number is that of the number, moved. -/
theorem floorLog2_scale {m : Nat} (hm : 0 < m) (e : Int) :
    floorLog2 (scale m 1 e).1 (scale m 1 e).2 = m.log2 + e := by
  obtain ⟨hden, hquot⟩ := scale_spec m Nat.one_pos e
  have hlog : ((scale m 1 e).1.log2 : Int) - (scale m 1 e).2.log2 = m.log2 + e := by
    have hone : Nat.log2 1 = 0 := by decide
    unfold scale
    split
    · simp only [Nat.pow_eq, log2_mul_two_pow hm, hone]
      omega
    · simp only [Nat.pow_eq, log2_mul_two_pow Nat.one_pos, hone]
      omega
  generalize scale m 1 e = q at *
  unfold floorLog2
  rw [hlog]
  -- Moved back, the number is at least one, so the first guess is not too large.
  have hscaled := scale_spec q.1 hden (-(m.log2 + e))
  dsimp only
  rw [if_neg]
  intro hlt
  have hdenq : ((q.2 : Nat) : ℚ) ≠ 0 := by exact_mod_cast hden.ne'
  have hlow : ((2 : ℚ) ^ (m.log2 : Int)) ≤ m := by
    rw [zpow_natCast]
    exact_mod_cast Nat.log2_self_le hm.ne'
  have hone : (1 : ℚ) ≤ q.1 / q.2 * 2 ^ (-((m.log2 : Int) + e)) := by
    rw [hquot, Nat.cast_one, div_one, mul_div_assoc, div_self hdenq, mul_one, mul_assoc,
      ← zpow_add₀ two_ne_zero, show e + -((m.log2 : Int) + e) = -(m.log2 : Int) by ring, zpow_neg,
      ← div_eq_mul_inv]
    exact (one_le_div₀ (by positivity)).mpr hlow
  have hlt' : ((scale q.1 q.2 (-(m.log2 + e))).1 : ℚ) < (scale q.1 q.2 (-(m.log2 + e))).2 := by
    exact_mod_cast hlt
  rw [hscaled.2] at hlt'
  have hpos : (0 : ℚ) < (scale q.1 q.2 (-(m.log2 + e))).2 := by exact_mod_cast hscaled.1
  exact absurd hlt' (not_lt.mpr (le_mul_of_one_le_left hpos.le hone))

/-! ## Patterns -/

namespace Format

variable {f : Format} {negative : Bool}

/-- A pattern is read by its sign and its magnitude. -/
theorem decode_withSign {magnitude : Nat} (h : magnitude < f.signBit) :
    f.decode (f.withSign negative magnitude) =
      if magnitude / 2 ^ f.fraction = 2 ^ f.exponent - 1 then
        if magnitude % 2 ^ f.fraction = 0 then .infinite negative
        else .nan negative (magnitude % 2 ^ f.fraction)
      else if magnitude / 2 ^ f.fraction = 0 then
        .finite negative (magnitude % 2 ^ f.fraction) f.minUnit
      else .finite negative (2 ^ f.fraction + magnitude % 2 ^ f.fraction)
        (f.minUnit + (magnitude / 2 ^ f.fraction - 1 : Nat)) := by
  have hsign : f.signBit = 2 ^ f.fraction * 2 ^ f.exponent := Nat.pow_add ..
  have hfraction := Nat.two_pow_pos f.fraction
  have hexponent : magnitude / 2 ^ f.fraction < 2 ^ f.exponent :=
    Nat.div_lt_of_lt_mul (by rwa [← hsign])
  have hpos : 0 < f.signBit := Nat.two_pow_pos _
  unfold decode
  simp only [Nat.pow_eq]
  have hbit : (f.withSign negative magnitude / f.signBit % 2 == 1) = negative := by
    unfold withSign
    cases negative with
    | true => simp [Nat.add_div_left _ hpos, Nat.div_eq_of_lt h]
    | false => simp [Nat.div_eq_of_lt h]
  have hdiv : f.withSign negative magnitude / 2 ^ f.fraction % 2 ^ f.exponent =
      magnitude / 2 ^ f.fraction := by
    unfold withSign
    cases negative with
    | true => simp [hsign, Nat.mul_add_div hfraction, Nat.mod_eq_of_lt hexponent]
    | false => simp [Nat.mod_eq_of_lt hexponent]
  have hmod : f.withSign negative magnitude % 2 ^ f.fraction = magnitude % 2 ^ f.fraction := by
    unfold withSign
    cases negative with
    | true => simp [hsign]
    | false => simp
  rw [hbit, hdiv, hmod]

theorem infinityBits_add_lt {fraction : Nat} (h : fraction < 2 ^ f.fraction) :
    f.infinityBits + fraction < f.signBit := by
  have hpos := Nat.two_pow_pos f.exponent
  calc f.infinityBits + fraction < (2 ^ f.exponent - 1) * 2 ^ f.fraction + 2 ^ f.fraction :=
        Nat.add_lt_add_left h _
    _ = (2 ^ f.exponent - 1 + 1) * 2 ^ f.fraction := (Nat.succ_mul _ _).symm
    _ = f.signBit := by
        rw [Nat.sub_add_cancel hpos, Nat.mul_comm, ← Nat.pow_add]
        rfl

theorem decode_infinity : f.decode (f.infinity negative) = .infinite negative := by
  have hfraction := Nat.two_pow_pos f.fraction
  have hlt : f.infinityBits < f.signBit := infinityBits_add_lt hfraction
  unfold infinity
  rw [decode_withSign hlt]
  simp [infinityBits]

theorem decode_quiet {payload : Nat} (hf : 0 < f.fraction) (h : payload < 2 ^ f.fraction) :
    ∃ payload', f.decode (f.quiet negative payload) = .nan negative payload' := by
  have hquiet : f.quietBit < 2 ^ f.fraction := Nat.pow_lt_pow_right Nat.one_lt_two (by omega)
  have hlt : payload ||| f.quietBit < 2 ^ f.fraction := Nat.or_lt_two_pow h hquiet
  have hpos : 0 < payload ||| f.quietBit :=
    Nat.lt_of_lt_of_le (Nat.two_pow_pos _) Nat.right_le_or
  refine ⟨payload ||| f.quietBit, ?_⟩
  unfold quiet
  rw [decode_withSign (infinityBits_add_lt hlt)]
  have hfraction := Nat.two_pow_pos f.fraction
  simp [infinityBits, Nat.mul_add_div hfraction, Nat.mul_comm _ (2 ^ f.fraction),
    Nat.div_eq_of_lt hlt, Nat.mod_eq_of_lt hlt, hpos.ne']

/-- A full significand is read back with its unit. -/
theorem decode_normal {units m : Nat} (hlow : 2 ^ f.fraction ≤ m) (hhigh : m < 2 ^ (f.fraction + 1))
    (hunits : units + 1 < 2 ^ f.exponent - 1) :
    f.decode (f.withSign negative (units * 2 ^ f.fraction + m)) =
      .finite negative m (f.minUnit + units) := by
  have hfraction := Nat.two_pow_pos f.fraction
  obtain ⟨rest, rfl⟩ := Nat.exists_eq_add_of_le hlow
  have hrest : rest < 2 ^ f.fraction := by
    rw [Nat.pow_succ] at hhigh
    omega
  have hmagnitude : units * 2 ^ f.fraction + (2 ^ f.fraction + rest) =
      2 ^ f.fraction * (units + 1) + rest := by ring
  have hsign : 2 ^ f.fraction * (units + 1) + rest < f.signBit := by
    have hle : units + 1 + 1 ≤ 2 ^ f.exponent := by omega
    calc 2 ^ f.fraction * (units + 1) + rest < 2 ^ f.fraction * (units + 1 + 1) := by
          rw [Nat.mul_succ _ (units + 1)]
          omega
      _ ≤ 2 ^ f.fraction * 2 ^ f.exponent := Nat.mul_le_mul_left _ hle
      _ = f.signBit := (Nat.pow_add ..).symm
  rw [hmagnitude, decode_withSign hsign]
  simp only [Nat.mul_add_div hfraction, Nat.mul_add_mod, Nat.div_eq_of_lt hrest,
    Nat.mod_eq_of_lt hrest, Nat.add_zero]
  rw [if_neg (by omega), if_neg (by omega), Nat.add_sub_cancel]

/-- A full significand is far enough from infinity. -/
theorem min_infinityBits {units m : Nat} (hhigh : m < 2 ^ (f.fraction + 1))
    (hunits : units + 1 < 2 ^ f.exponent - 1) :
    min (units * 2 ^ f.fraction + m) f.infinityBits = units * 2 ^ f.fraction + m := by
  apply Nat.min_eq_left
  calc units * 2 ^ f.fraction + m ≤ units * 2 ^ f.fraction + 2 * 2 ^ f.fraction := by
        rw [Nat.pow_succ] at hhigh
        omega
    _ = (units + 2) * 2 ^ f.fraction := (Nat.add_mul ..).symm
    _ ≤ (2 ^ f.exponent - 1) * 2 ^ f.fraction := Nat.mul_le_mul_right _ (by omega)

/-- A significand that fits is represented exactly if its unit is in range. -/
theorem decode_roundScaled {m : Nat} {e : Int} (hm : m < 2 ^ (f.fraction + 1))
    (hlow : f.minUnit + f.fraction ≤ e) (hhigh : e + 2 < f.minUnit + (2 ^ f.exponent : Nat))
    (hexponent : 0 < f.exponent) :
    (Datum.finite negative m e).Same (f.decode (f.roundScaled negative m e)) := by
  unfold roundScaled
  rcases Nat.eq_zero_or_pos m with rfl | hpos
  · have hzero : (scale 0 1 e).1 = 0 := by
      unfold scale
      split <;> simp
    have hmax : 1 < 2 ^ f.exponent := Nat.one_lt_two_pow hexponent.ne'
    dsimp only
    rw [hzero, round, if_pos rfl, decode_withSign (Nat.two_pow_pos _), Nat.zero_div,
      if_neg (by omega), if_pos rfl]
    exact .finite negative (by simp)
  · obtain ⟨hden, hquot⟩ := scale_spec m Nat.one_pos e
    have hlog := floorLog2_scale hpos e
    have hfull : m.log2 ≤ f.fraction := Nat.le_of_lt_succ ((Nat.log2_lt hpos.ne').mpr hm)
    have hnum : (scale m 1 e).1 ≠ 0 := by
      unfold scale
      split
      · exact (Nat.mul_pos hpos (Nat.two_pow_pos _)).ne'
      · exact hpos.ne'
    generalize scale m 1 e = q at *
    -- The unit puts the leading bit of the significand in front of the fraction.
    obtain ⟨unit, hunit⟩ : ∃ unit : Int, unit = m.log2 + e - f.fraction := ⟨_, rfl⟩
    have hmax : max (floorLog2 q.1 q.2 - f.fraction) f.minUnit = unit := by omega
    obtain ⟨hden', hquot'⟩ := scale_spec q.1 hden (-unit)
    have hshift : e + -unit = ((f.fraction - m.log2 : Nat) : Int) := by omega
    have hwhole : (scale q.1 q.2 (-unit)).1 =
        m * 2 ^ (f.fraction - m.log2) * (scale q.1 q.2 (-unit)).2 := by
      have hdenq : ((q.2 : Nat) : ℚ) ≠ 0 := by exact_mod_cast hden.ne'
      rw [hquot, Nat.cast_one, div_one, mul_div_assoc, div_self hdenq, mul_one,
        mul_assoc (m : ℚ), ← zpow_add₀ two_ne_zero, hshift, zpow_natCast] at hquot'
      exact_mod_cast hquot'
    have hlead : 2 ^ f.fraction ≤ m * 2 ^ (f.fraction - m.log2) := by
      calc 2 ^ f.fraction = 2 ^ m.log2 * 2 ^ (f.fraction - m.log2) := by
            rw [← Nat.pow_add, Nat.add_sub_cancel' hfull]
        _ ≤ m * 2 ^ (f.fraction - m.log2) :=
            Nat.mul_le_mul_right _ (Nat.log2_self_le hpos.ne')
    have hbound : m * 2 ^ (f.fraction - m.log2) < 2 ^ (f.fraction + 1) := by
      calc m * 2 ^ (f.fraction - m.log2) < 2 ^ (m.log2 + 1) * 2 ^ (f.fraction - m.log2) :=
            Nat.mul_lt_mul_of_pos_right Nat.lt_log2_self (Nat.two_pow_pos _)
        _ = 2 ^ (f.fraction + 1) := by
            rw [← Nat.pow_add]
            congr 1
            omega
    have hunits : (unit - f.minUnit).toNat + 1 < 2 ^ f.exponent - 1 := by omega
    dsimp only
    rw [round, if_neg hnum, hmax]
    dsimp only
    rw [roundDivEven_of_eq_mul hden' hwhole, Nat.pow_eq, min_infinityBits hbound hunits,
      decode_normal hlead hbound hunits]
    apply Datum.Same.finite
    have hback : f.minUnit + ((unit - f.minUnit).toNat : Int) = unit := by omega
    rw [hback, Nat.cast_mul, Nat.cast_pow, Nat.cast_ofNat, mul_assoc, ← zpow_natCast,
      ← zpow_add₀ two_ne_zero, ← hshift]
    congr 2
    omega

/-- Significands and units are bounded by the widths of the two fields. -/
theorem decode_eq_finite {bits m : Nat} {e : Int} (h : f.decode bits = .finite negative m e) :
    m < 2 ^ (f.fraction + 1) ∧ f.minUnit ≤ e ∧ e + 2 < f.minUnit + (2 ^ f.exponent : Nat) ∨
      m < 2 ^ f.fraction ∧ e = f.minUnit := by
  have hfraction : bits % 2 ^ f.fraction < 2 ^ f.fraction := Nat.mod_lt _ (Nat.two_pow_pos _)
  have hexponent : bits / 2 ^ f.fraction % 2 ^ f.exponent < 2 ^ f.exponent :=
    Nat.mod_lt _ (Nat.two_pow_pos _)
  unfold decode at h
  simp only [Nat.pow_eq] at h
  split at h
  · split at h <;> cases h
  · split at h
    · cases h
      exact .inr ⟨hfraction, rfl⟩
    · cases h
      left
      rw [Nat.pow_succ]
      omega

theorem decode_eq_nan {bits payload : Nat} (h : f.decode bits = .nan negative payload) :
    payload < 2 ^ f.fraction := by
  unfold decode at h
  simp only [Nat.pow_eq] at h
  split at h
  · split at h
    · cases h
    · cases h
      exact Nat.mod_lt _ (Nat.two_pow_pos _)
  · split at h <;> cases h

end Format

/-! ## From 32 to 64 bits -/

/-- Widening keeps the number. -/
theorem convert_single_double (bits : Nat) :
    (single.decode bits).Same (double.decode (convert single double bits)) := by
  unfold convert
  rw [if_neg (by decide)]
  cases hdatum : single.decode bits with
  | nan negative payload =>
    have hpayload : payload < 2 ^ 23 := Format.decode_eq_nan hdatum
    have hwide : payload * 2 ^ 29 < 2 ^ double.fraction := by
      change payload * 2 ^ 29 < 2 ^ 52
      omega
    dsimp only
    rw [if_pos (by decide)]
    obtain ⟨payload', hread⟩ :
        ∃ payload', double.decode (double.quiet negative (payload * 2 ^ 29)) =
          .nan negative payload' := Format.decode_quiet (by decide) hwide
    exact hread ▸ .nan negative payload payload'
  | infinite negative =>
    dsimp only
    rw [Format.decode_infinity]
    exact .infinite negative
  | finite negative m e =>
    -- Even the smallest number of the narrow format is a normal one of the wide format.
    have hnarrow : single.minUnit = -149 := rfl
    have hwide : double.minUnit = -1074 := rfl
    have hbounds : m < 2 ^ 24 ∧ -149 ≤ e ∧ e < 105 := by
      have hfields := Format.decode_eq_finite hdatum
      rw [hnarrow] at hfields
      change _ < 2 ^ 24 ∧ _ ∧ _ < -149 + ((2 ^ 8 : Nat) : Int) ∨ _ < 2 ^ 23 ∧ _ at hfields
      omega
    obtain ⟨hm, hlow, hhigh⟩ := hbounds
    apply Format.decode_roundScaled
    · exact Nat.lt_of_lt_of_le hm (by decide)
    · change double.minUnit + 52 ≤ e
      omega
    · change e + 2 < double.minUnit + ((2 ^ 11 : Nat) : Int)
      omega
    · decide

end PackedIR.Binary

import Mathlib
import IntegerPrograms.Proofs.Comparison

/-!
Sums of doubles. Two significands are added exactly, at the smaller of their exponents, and the sum
is rounded to a double. Rounding passes over no other double, so the rounded sum compares with a
double as the exact one does. Hence adding what is not negative makes no double smaller.
-/

set_option autoImplicit false

namespace IntegerPrograms

open Float.Model (Format UnpackedFloat totalExponent)
open Float.Model.UnpackedFloat

def scaled (m : ℕ) (e : ℤ) : ℚ := m * 2 ^ e

/-- The significands and exponents of doubles. A significand has 53 bits, or fewer at the least
exponent. -/
structure Representable (m : ℕ) (e : ℤ) : Prop where
  lt : m < 2 ^ 53
  least : -1074 ≤ e
  normal : 2 ^ 52 ≤ m ∨ e = -1074

/-- A double that `x` may be rounded to: no other lies between the two. -/
structure RoundsTo (x : ℚ) (m : ℕ) (e : ℤ) : Prop extends Representable m e where
  le_of_le : ∀ {n f}, Representable n f → scaled n f ≤ x → scaled n f ≤ scaled m e
  le_of_ge : ∀ {n f}, Representable n f → x ≤ scaled n f → scaled m e ≤ scaled n f

section Values

variable {m n r k : ℕ} {e f t : ℤ} {x : ℚ}

theorem scaled_mul_two_pow (m k : ℕ) (e : ℤ) : scaled (m * 2 ^ k) e = scaled m (e + k) := by
  rw [scaled, scaled, zpow_add₀ two_ne_zero, zpow_natCast]
  push_cast
  ring

theorem scaled_le_scaled : scaled m e ≤ scaled n e ↔ m ≤ n := by
  rw [scaled, scaled, mul_le_mul_iff_left₀ (zpow_pos two_pos e), Nat.cast_le]

theorem scaled_lt_scaled : scaled m e < scaled n e ↔ m < n := by
  rw [← not_le, scaled_le_scaled, not_le]

theorem scaled_mono (h : e ≤ f) : scaled m e ≤ scaled m f :=
  mul_le_mul_of_nonneg_left (zpow_le_zpow_right₀ one_le_two h) (Nat.cast_nonneg m)

theorem scaled_two_pow (k : ℕ) (e : ℤ) : scaled (2 ^ k) e = 2 ^ (k + e) := by
  rw [scaled, zpow_add₀ two_ne_zero, zpow_natCast]
  push_cast
  rfl

theorem scaled_two_pow_le (hm : 0 < m) (h : k + f ≤ m.log2 + e) :
    scaled (2 ^ k) f ≤ scaled m e :=
  calc scaled (2 ^ k) f = 2 ^ (k + f) := scaled_two_pow k f
    _ ≤ 2 ^ (m.log2 + e) := zpow_le_zpow_right₀ one_le_two h
    _ = scaled (2 ^ m.log2) e := (scaled_two_pow m.log2 e).symm
    _ ≤ scaled m e := scaled_le_scaled.2 (Nat.log2_self_le hm.ne')

theorem scaled_le_two_pow (h : m.log2 + 1 + e ≤ k + f) : scaled m e ≤ scaled (2 ^ k) f :=
  calc scaled m e ≤ scaled (2 ^ (m.log2 + 1)) e := scaled_le_scaled.2 Nat.lt_log2_self.le
    _ = 2 ^ ((m.log2 + 1 : ℕ) + e) := scaled_two_pow _ e
    _ ≤ 2 ^ (k + f) := zpow_le_zpow_right₀ one_le_two (by push_cast; exact h)
    _ = scaled (2 ^ k) f := (scaled_two_pow k f).symm

theorem Representable.scaled_lt (hn : Representable n f) (h : f < e) (hm : 2 ^ 52 ≤ m) :
    scaled n f < scaled m e :=
  calc scaled n f < scaled (2 ^ 52 * 2 ^ 1) f := scaled_lt_scaled.2 hn.lt
    _ = scaled (2 ^ 52) (f + 1) := scaled_mul_two_pow (2 ^ 52) 1 f
    _ ≤ scaled (2 ^ 52) e := scaled_mono h
    _ ≤ scaled m e := scaled_le_scaled.2 hm

/-- Doubles that are not negative are ordered by exponent, then by significand. -/
theorem Representable.lex_of_scaled_le (hm : Representable m e) (hn : Representable n f)
    (h : scaled m e ≤ scaled n f) : e < f ∨ e = f ∧ m ≤ n := by
  rcases lt_trichotomy e f with hlt | rfl | hgt
  · exact .inl hlt
  · exact .inr ⟨rfl, scaled_le_scaled.1 h⟩
  · have hbits : 2 ^ 52 ≤ m := hm.normal.resolve_right (hn.least.trans_lt hgt).ne'
    exact absurd h (hn.scaled_lt hgt hbits).not_ge

/-- A value that is rounded to a whole number of units is rounded to a double, if the unit is the
one of its size. A carry into one bit too many changes the unit. -/
theorem exists_roundsTo (hleast : -1074 ≤ t) (hnormal : scaled (2 ^ 52) t ≤ x ∨ t = -1074)
    (hlt : x ≤ scaled (2 ^ 53) t) (hlow : ∀ n : ℕ, scaled n t ≤ x → n ≤ r)
    (hhigh : ∀ n : ℕ, x ≤ scaled n t → r ≤ n) :
    (r < 2 ^ 53 ∧ RoundsTo x r t) ∨ (r = 2 ^ 53 ∧ RoundsTo x (2 ^ 52) (t + 1)) := by
  have hbits : 2 ^ 52 ≤ r ∨ t = -1074 := hnormal.imp_left (hlow _)
  have habove {n : ℕ} {f : ℤ} (hn : Representable n f) (h : scaled n f ≤ x) :
      scaled n f ≤ scaled r t := by
    rcases lt_or_ge f t with hf | hf
    · exact (hn.scaled_lt hf (hbits.resolve_right (hn.least.trans_lt hf).ne')).le
    · obtain ⟨k, rfl⟩ := Int.exists_add_of_le hf
      rw [← scaled_mul_two_pow] at h ⊢
      exact scaled_le_scaled.2 (hlow _ h)
  have hbelow {n : ℕ} {f : ℤ} (hn : Representable n f) (h : x ≤ scaled n f) :
      scaled r t ≤ scaled n f := by
    rcases lt_or_ge f t with hf | hf
    · have hx := hnormal.resolve_right (hn.least.trans_lt hf).ne'
      exact absurd (hx.trans h) (hn.scaled_lt hf le_rfl).not_ge
    · obtain ⟨k, rfl⟩ := Int.exists_add_of_le hf
      rw [← scaled_mul_two_pow] at h ⊢
      exact scaled_le_scaled.2 (hhigh _ h)
  rcases (hhigh _ hlt).lt_or_eq with hr | rfl
  · exact .inl ⟨hr, ⟨hr, hleast, hbits⟩, habove, hbelow⟩
  · have hcarry : scaled (2 ^ 53) t = scaled (2 ^ 52) (t + 1) := scaled_mul_two_pow (2 ^ 52) 1 t
    rw [hcarry] at habove hbelow
    exact .inr ⟨rfl, ⟨by decide, by omega, .inl le_rfl⟩, habove, hbelow⟩

end Values

section Rounding

variable {m n k : ℕ}

theorem mantissa_shiftRight (em : ExtendedMantissa) (k : ℕ) :
    (em >>> k).mantissa = em.mantissa / 2 ^ k := by
  induction k with
  | zero => exact (Nat.div_one _).symm
  | succ k ih =>
    change (em >>> k).mantissa / 2 = _
    rw [ih, Nat.div_div_eq_div_mul, pow_succ]

theorem shiftRight_of_dvd (h : 2 ^ k ∣ m) :
    (⟨m, false, false⟩ : ExtendedMantissa) >>> k = ⟨m / 2 ^ k, false, false⟩ := by
  induction k with
  | zero => rw [pow_zero, Nat.div_one]; rfl
  | succ k ih =>
    change ((⟨m, false, false⟩ : ExtendedMantissa) >>> k).shiftRightOne = _
    obtain ⟨q, rfl⟩ := h
    have hq : 2 ^ (k + 1) * q = 2 ^ k * (2 * q) := by rw [pow_succ, mul_assoc]
    rw [ih ⟨2 * q, hq⟩, Nat.mul_div_cancel_left _ (Nat.two_pow_pos _), hq,
      Nat.mul_div_cancel_left _ (Nat.two_pow_pos _)]
    simp [ExtendedMantissa.shiftRightOne]

def shifted (m k : ℕ) : ℕ := ((⟨m, false, false⟩ : ExtendedMantissa) >>> k).roundedMantissa

theorem roundedMantissa_bounds (em : ExtendedMantissa) :
    em.mantissa ≤ em.roundedMantissa ∧ em.roundedMantissa ≤ em.mantissa + 1 := by
  obtain ⟨m, r, s⟩ := em
  cases r <;> cases s <;>
    simp [ExtendedMantissa.roundedMantissa, ExtendedMantissa.accuracy,
      Accuracy.roundToNearestEven]
  omega

theorem le_shifted (h : n * 2 ^ k ≤ m) : n ≤ shifted m k := by
  have hround := (roundedMantissa_bounds ((⟨m, false, false⟩ : ExtendedMantissa) >>> k)).1
  rw [mantissa_shiftRight] at hround
  exact ((Nat.le_div_iff_mul_le (Nat.two_pow_pos k)).2 h).trans hround

theorem shifted_le (h : m ≤ n * 2 ^ k) : shifted m k ≤ n := by
  rcases h.lt_or_eq with hlt | rfl
  · have hfloor : m / 2 ^ k < n := (Nat.div_lt_iff_lt_mul (Nat.two_pow_pos k)).2 hlt
    have hround := (roundedMantissa_bounds ((⟨m, false, false⟩ : ExtendedMantissa) >>> k)).2
    rw [mantissa_shiftRight] at hround
    exact hround.trans hfloor
  · rw [shifted, shiftRight_of_dvd (Nat.dvd_mul_left _ n), Nat.mul_div_cancel _ (Nat.two_pow_pos k)]
    exact le_rfl

theorem targetExponent_eq (m : ℕ) (e : ℤ) :
    Format.binary64.targetExponent (totalExponent m e) = max (m.log2 + e - 52) (-1074) := by
  have hmin : Format.binary64.minExponent = -1074 := by decide
  have hbits : Format.binary64.mantissaBits = 53 := by decide
  rw [Format.targetExponent, totalExponent, hmin, hbits]
  push_cast
  congr 1
  ring

theorem shiftToTargetExponent_eq {m k : ℕ} {e t : ℤ} (ht : max (m.log2 + e - 52) (-1074) = t)
    (hk : e + k = t) : shiftToTargetExponent Format.binary64 m e .exact =
      ((⟨m, false, false⟩ : ExtendedMantissa) >>> k, t) := by
  have hshift : (t - e).toNat = k := by omega
  rw [shiftToTargetExponent, targetExponent_eq, ht, shiftToExponent, hshift, hk]
  rfl

theorem roundWithAccuracy_eq {s : Sign} {m : ℕ} {e t f : ℤ} {em em' : ExtendedMantissa}
    (hfirst : shiftToTargetExponent Format.binary64 m e .exact = (em, t))
    (hsecond : shiftToTargetExponent Format.binary64 em.roundedMantissa t .exact = (em', f))
    (hpos : 0 < em'.mantissa) :
    roundWithAccuracy Format.binary64 s m e .exact = .finite s em'.mantissa f hpos := by
  simp only [roundWithAccuracy, hfirst, hsecond, dif_neg hpos.ne']

theorem Representable.target {m : ℕ} {e : ℤ} (h : Representable m e) :
    max (m.log2 + e - 52) (-1074) = e := by
  have hleast := h.least
  rcases m.eq_zero_or_pos with rfl | hpos
  · have := h.normal.resolve_left (by decide)
    simp [this]
  have hlog : m.log2 < 53 := (Nat.log2_lt hpos.ne').2 h.lt
  rcases h.normal with hbits | rfl
  · have : 52 ≤ m.log2 := (Nat.le_log2 hpos.ne').2 hbits
    omega
  · omega

theorem roundWithAccuracy_roundsTo {s : Sign} {m k : ℕ} {e t : ℤ} (hm : 0 < m)
    (hleast : -1074 ≤ e) (ht : max (m.log2 + e - 52) (-1074) = t) (hk : e + k = t) :
    ∃ r f, ∃ h : 0 < r, roundWithAccuracy Format.binary64 s m e .exact = .finite s r f h ∧
      RoundsTo (scaled m e) r f := by
  have hunits (n : ℕ) : scaled n t = scaled (n * 2 ^ k) e := by rw [scaled_mul_two_pow, hk]
  have hlow (n : ℕ) (h : scaled n t ≤ scaled m e) : n ≤ shifted m k := by
    rw [hunits] at h
    exact le_shifted (scaled_le_scaled.1 h)
  have hhigh (n : ℕ) (h : scaled m e ≤ scaled n t) : shifted m k ≤ n := by
    rw [hunits] at h
    exact shifted_le (scaled_le_scaled.1 h)
  have hnormal : scaled (2 ^ 52) t ≤ scaled m e ∨ t = -1074 := by
    rcases max_choice (m.log2 + e - 52) (-1074) with hmax | hmax
    · exact .inl (scaled_two_pow_le hm (by omega))
    · exact .inr (ht.symm.trans hmax)
  have hpos : 0 < shifted m k := hlow 1 <| by
    rcases hnormal with hbits | rfl
    · exact (scaled_le_scaled.2 (by decide)).trans hbits
    · obtain rfl : k = 0 := by omega
      rw [hunits]
      exact scaled_le_scaled.2 hm
  have hfirst := shiftToTargetExponent_eq ht hk
  rcases exists_roundsTo (by omega) hnormal (scaled_le_two_pow (by omega)) hlow hhigh with
    ⟨_, hto⟩ | ⟨hcarry, hto⟩
  · have hsecond := shiftToTargetExponent_eq (k := 0) hto.target (by simp)
    exact ⟨_, _, hpos, roundWithAccuracy_eq hfirst hsecond hpos, hto⟩
  · have htarget : max (((2 ^ 53).log2 : ℤ) + t - 52) (-1074) = t + 1 := by
      rw [Nat.log2_two_pow]
      omega
    have hsecond : shiftToTargetExponent Format.binary64 (shifted m k) t .exact =
        (⟨2 ^ 52, false, false⟩, t + 1) := by
      rw [hcarry, shiftToTargetExponent_eq htarget rfl,
        shiftRight_of_dvd (pow_dvd_pow 2 (by decide))]
      rfl
    exact ⟨_, _, by decide, roundWithAccuracy_eq hfirst hsecond (by decide), hto⟩

theorem scaled_shiftLeft (m k : ℕ) (e : ℤ) : scaled (m <<< k) (e - k) = scaled m e := by
  rw [Nat.shiftLeft_eq, scaled_mul_two_pow, Int.sub_add_cancel]

theorem log2_shiftLeft {m : ℕ} (hm : 0 < m) (k : ℕ) : (m <<< k).log2 = m.log2 + k := by
  induction k with
  | zero => rfl
  | succ k ih =>
    rw [Nat.shiftLeft_succ, Nat.log2_two_mul, ih, add_assoc]
    rw [Nat.shiftLeft_eq]
    positivity

theorem round_roundsTo (s : Sign) {m : ℕ} {e : ℤ} (hm : 0 < m) (hleast : -1074 ≤ e) :
    ∃ r f, ∃ h : 0 < r, UnpackedFloat.round Format.binary64 s m e = .finite s r f h ∧
      RoundsTo (scaled m e) r f := by
  rw [UnpackedFloat.round, targetExponent_eq, decreaseExponent]
  generalize ht : max (m.log2 + e - 52) (-1074) = t
  have hpos : 0 < m <<< (e - t).toNat := by
    rw [Nat.shiftLeft_eq]
    positivity
  rw [← scaled_shiftLeft m (e - t).toNat e]
  exact roundWithAccuracy_roundsTo (t := t) (k := (t - e).toNat) hpos (by omega)
    (by rw [log2_shiftLeft hm]; omega) (by omega)

end Rounding

section Packing

variable {s : Sign} {m : ℕ} {e : ℤ}

/-- What is read back of a result that is stored as a double. -/
def stored (f : UnpackedFloat) : UnpackedFloat :=
  unpack Format.binary64 (pack Format.binary64 f)

theorem stored_unpack (v : Float) : stored v.toModel.unpack = v.toModel.unpack := by
  rw [stored, Float.Model.unpack, pack_unpack_of_valid v.toModel.valid]

theorem toNat_one_append (v : BitVec 52) : (1#1 ++ v).toNat = 2 ^ 52 + v.toNat := by
  rw [BitVec.toNat_append, ← Nat.shiftLeft_add_eq_or_of_lt v.isLt]
  rfl

theorem representable_of_unpack {b : BitVec Format.binary64.numBits} {h : 0 < m}
    (hb : unpack Format.binary64 b = .finite s m e h) : Representable m e ∧ e ≤ 971 := by
  have hbias : Format.binary64.exponentBias = 1023 := by decide
  have hmantissa : (unpackMantissa b).toNat < 2 ^ 52 := (unpackMantissa b).isLt
  have hexponent : (unpackExponent b).toNat < 2 ^ 11 := (unpackExponent b).isLt
  simp only [unpack, hbias] at hb
  split at hb
  · split at hb <;> cases hb
  next hfinite =>
    have hlt : (unpackExponent b).toNat ≠ 2047 := fun h => hfinite (BitVec.eq_of_toNat_eq h)
    split at hb
    next hzero =>
      split at hb
      · cases hb
      · cases hb
        rw [hzero]
        exact ⟨⟨by omega, by decide, .inr (by decide)⟩, by decide⟩
    next hnonzero =>
      have hpos : (unpackExponent b).toNat ≠ 0 := fun h => hnonzero (BitVec.eq_of_toNat_eq h)
      cases hb
      rw [toNat_one_append]
      exact ⟨⟨by omega, by omega, .inl (by omega)⟩, by omega⟩

theorem unpack_normal (s : Sign) {x : BitVec 11} {v : BitVec 52} (h : 0 < m)
    (hm : 2 ^ 52 + v.toNat = m) (he : (x.toNat : ℤ) - 1075 = e) (hinf : x.toNat ≠ 2047)
    (hsub : x.toNat ≠ 0) :
    unpack Format.binary64 (packComponents Format.binary64 s x v) = .finite s m e h := by
  have hbias : Format.binary64.exponentBias = 1023 := by decide
  have hinf' : x ≠ -1#11 := fun h => hinf (congrArg BitVec.toNat h)
  have hsub' : x ≠ 0#11 := fun h => hsub (congrArg BitVec.toNat h)
  subst hm he
  simp only [unpack, unpackMantissa_packComponents, unpackExponent_packComponents,
    unpackSign_packComponents, Sign.ofBitVec_toBitVec, if_neg hinf', if_neg hsub', hbias,
    toNat_one_append]
  rfl

theorem unpack_subnormal (s : Sign) {v : BitVec 52} (h : 0 < m) (hm : v.toNat = m) :
    unpack Format.binary64 (packComponents Format.binary64 s 0#11 v) = .finite s m (-1074) h := by
  have hv : v ≠ 0#52 := fun h' => h.ne' (hm.symm.trans (congrArg BitVec.toNat h'))
  subst hm
  simp only [unpack, unpackMantissa_packComponents, unpackExponent_packComponents,
    unpackSign_packComponents, Sign.ofBitVec_toBitVec, dif_neg hv]
  rfl

theorem pack_finite (s : Sign) (e : ℤ) (h : 0 < m) : pack Format.binary64 (.finite s m e h) =
    if 2 ^ 11 ≤ (e + 1023 + 52).toNat + 1 then packedInfinity Format.binary64 s
    else if m.log2 + 1 = 53 then
      packComponents Format.binary64 s (BitVec.ofNat 11 (e + 1023 + 52).toNat) (BitVec.ofNat 52 m)
    else packComponents Format.binary64 s 0#11 (BitVec.ofNat 52 m) := rfl

theorem stored_of_le (s : Sign) (h : 0 < m) (hm : Representable m e) (he : e ≤ 971) :
    stored (.finite s m e h) = .finite s m e h := by
  have hlt := hm.lt
  have hleast := hm.least
  have hlog : m.log2 + 1 = 53 ↔ 2 ^ 52 ≤ m := by
    rw [← Nat.le_log2 h.ne']
    have : m.log2 < 53 := (Nat.log2_lt h.ne').2 hlt
    omega
  rw [stored, pack_finite, if_neg (by omega)]
  split
  next hall =>
    have hbits := hlog.1 hall
    have hexponent : (BitVec.ofNat 11 (e + 1023 + 52).toNat).toNat = (e + 1023 + 52).toNat := by
      rw [BitVec.toNat_ofNat, Nat.mod_eq_of_lt (by omega)]
    refine unpack_normal s h ?_ ?_ ?_ ?_
    · rw [BitVec.toNat_ofNat]
      omega
    all_goals
      rw [hexponent]
      omega
  next hnot =>
    obtain rfl := hm.normal.resolve_left (hnot ∘ hlog.2)
    exact unpack_subnormal s h (by rw [BitVec.toNat_ofNat]; omega)

theorem stored_of_lt (s : Sign) (h : 0 < m) (he : 971 < e) :
    stored (.finite s m e h) = .infinity s := by
  rw [stored, pack_finite, if_pos (by omega)]
  cases s <;> rfl

theorem stored_round (s : Sign) (hm : 0 < m) (hleast : -1074 ≤ e) :
    ∃ r f, ∃ h : 0 < r, RoundsTo (scaled m e) r f ∧
      stored (UnpackedFloat.round Format.binary64 s m e) =
        if f ≤ 971 then .finite s r f h else .infinity s := by
  obtain ⟨r, f, h, hround, hto⟩ := round_roundsTo s hm hleast
  refine ⟨r, f, h, hto, ?_⟩
  rw [hround]
  split
  next hle => exact stored_of_le s h hto.toRepresentable hle
  next hlt => exact stored_of_lt s h (not_le.1 hlt)

end Packing

section Sums

variable {m n M N : ℕ} {e f E : ℤ}

theorem finite_le_iff {s s' : Sign} (hm : 0 < m) (hn : 0 < n) :
    (UnpackedFloat.finite s m e hm).le (.finite s' n f hn) = true ↔
      rank (.finite s m e hm) ≤ rank (.finite s' n f hn) := by
  rw [UnpackedFloat.le, compare_finite, ← compare_le_iff_le]
  cases compare (rank (.finite s m e hm)) (rank (.finite s' n f hn)) <;> simp

theorem positive_le_round (h : 0 < m) (hm : Representable m e) (hM : 0 < M) (hE : -1074 ≤ E)
    (hle : scaled m e ≤ scaled M E) : (UnpackedFloat.finite .positive m e h).le
      (stored (UnpackedFloat.round Format.binary64 .positive M E)) = true := by
  obtain ⟨r, f, hr, hto, heq⟩ := stored_round .positive hM hE
  have hlex := hm.lex_of_scaled_le hto.toRepresentable (hto.le_of_le hm hle)
  rw [heq]
  split
  · rw [finite_le_iff, rank, rank]
    simpa [Prod.Lex.toLex_le_toLex] using hlex
  · rfl

/-- A negative sum does not overflow, since it is not below the double that it is compared with. -/
theorem negative_le_round (h : 0 < m) (hm : Representable m e) (he : e ≤ 971) (hM : 0 < M)
    (hE : -1074 ≤ E) (hle : scaled M E ≤ scaled m e) : (UnpackedFloat.finite .negative m e h).le
      (stored (UnpackedFloat.round Format.binary64 .negative M E)) = true := by
  obtain ⟨r, f, hr, hto, heq⟩ := stored_round .negative hM hE
  have hlex := hto.lex_of_scaled_le hm (hto.le_of_ge hm hle)
  have hf : f ≤ 971 := by omega
  rw [heq, if_pos hf, finite_le_iff, rank, rank]
  simpa [Prod.Lex.toLex_le_toLex, eq_comm] using hlex

theorem negative_le_round_positive (h : 0 < m) (hM : 0 < M) (hE : -1074 ≤ E) :
    (UnpackedFloat.finite .negative m e h).le
      (stored (UnpackedFloat.round Format.binary64 .positive M E)) = true := by
  obtain ⟨r, f, hr, hto, heq⟩ := stored_round .positive hM hE
  rw [heq]
  split <;> rfl

theorem normalize_zero (e : ℤ) (s : Sign) :
    UnpackedFloat.normalize Format.binary64 0 e s = .zero s := rfl

theorem normalize_natCast (hm : 0 < m) (e : ℤ) (s : Sign) :
    UnpackedFloat.normalize Format.binary64 m e s =
      UnpackedFloat.round Format.binary64 .positive m e := by
  rw [UnpackedFloat.normalize, compare_gt_iff_gt.2 (Nat.cast_pos.2 hm)]
  rfl

theorem normalize_neg_natCast (hm : 0 < m) (e : ℤ) (s : Sign) :
    UnpackedFloat.normalize Format.binary64 (-m) e s =
      UnpackedFloat.round Format.binary64 .negative m e := by
  rw [UnpackedFloat.normalize, compare_lt_iff_lt.2 (neg_neg_of_pos (Nat.cast_pos.2 hm)), neg_neg]
  rfl

theorem finite_le_normalize (s : Sign) (h : 0 < m) (hm : Representable m e) (he : e ≤ 971)
    (hE : -1074 ≤ E) (hvalue : scaled M E = scaled m e) (hN : 0 < N) :
    (UnpackedFloat.finite s m e h).le
      (stored (UnpackedFloat.normalize Format.binary64 (s.apply M + N) E .positive)) = true := by
  cases s with
  | positive =>
    have hsum : Sign.positive.apply M + N = (M + N : ℕ) := rfl
    rw [hsum, normalize_natCast (Nat.add_pos_right M hN)]
    refine positive_le_round h hm (Nat.add_pos_right M hN) hE ?_
    rw [← hvalue, scaled_le_scaled]
    exact Nat.le_add_right M N
  | negative =>
    change (UnpackedFloat.finite .negative m e h).le
      (stored (UnpackedFloat.normalize Format.binary64 (-M + N) E .positive)) = true
    rcases lt_trichotomy M N with hlt | rfl | hgt
    · have hsum : -(M : ℤ) + N = (N - M : ℕ) := by omega
      rw [hsum, normalize_natCast (Nat.sub_pos_of_lt hlt)]
      exact negative_le_round_positive h (Nat.sub_pos_of_lt hlt) hE
    · rw [neg_add_cancel, normalize_zero]
      rfl
    · have hsum : -(M : ℤ) + N = -(M - N : ℕ) := by omega
      rw [hsum, normalize_neg_natCast (Nat.sub_pos_of_lt hgt)]
      refine negative_le_round h hm he (Nat.sub_pos_of_lt hgt) hE ?_
      rw [← hvalue, scaled_le_scaled]
      exact Nat.sub_le M N

theorem add_finite (s : Sign) (hm : 0 < m) (hn : 0 < n) :
    UnpackedFloat.add Format.binary64 (.finite s m e hm) (.finite .positive n f hn) =
      UnpackedFloat.normalize Format.binary64
        (s.apply (m <<< (e - min e f).toNat : ℕ) + (n <<< (f - min e f).toNat : ℕ)) (min e f)
        .positive := rfl

theorem finite_le_add (s : Sign) (h : 0 < m) (hn : 0 < n) (hm : Representable m e) (he : e ≤ 971)
    (hf : -1074 ≤ f) : (UnpackedFloat.finite s m e h).le
      (stored (UnpackedFloat.add Format.binary64 (.finite s m e h) (.finite .positive n f hn)))
        = true := by
  rw [add_finite]
  refine finite_le_normalize s h hm he (le_min hm.least hf) ?_ ?_
  · have hshift := scaled_shiftLeft m (e - min e f).toNat e
    rwa [Int.toNat_of_nonneg (Int.sub_nonneg.2 (min_le_left e f)), Int.sub_sub_self] at hshift
  · rw [Nat.shiftLeft_eq]
    positivity

theorem le_self_of_not_isNaN {x : UnpackedFloat} (h : x.isNaN = false) : x.le x = true := by
  cases x with
  | notANumber => cases h
  | infinity s => cases s <;> rfl
  | zero s => rfl
  | finite s m e hm => exact (finite_le_iff hm hm).2 le_rfl

theorem le_stored_add {x y : UnpackedFloat} (hx : stored x = x) (hy : stored y = y)
    (hnumber : x.isNaN = false) (hfinite : y.isFinite = true)
    (hnonneg : (UnpackedFloat.zero .positive).le y = true) :
    x.le (stored (UnpackedFloat.add Format.binary64 x y)) = true := by
  have hsame (h : UnpackedFloat.add Format.binary64 x y = x) :
      x.le (stored (UnpackedFloat.add Format.binary64 x y)) = true := by
    rw [h, hx]
    exact le_self_of_not_isNaN hnumber
  cases y with
  | notANumber | infinity => cases hfinite
  | zero s =>
    cases x with
    | notANumber => cases hnumber
    | infinity => exact hsame rfl
    | zero s' => cases s <;> cases s' <;> rfl
    | finite => exact hsame rfl
  | finite s n f hn =>
    cases s with
    | negative => cases hnonneg
    | positive =>
      cases x with
      | notANumber => cases hnumber
      | infinity => exact hsame rfl
      | zero s' =>
        change (UnpackedFloat.zero s').le (stored (.finite .positive n f hn)) = true
        rw [hy]
        rfl
      | finite s' m e h =>
        obtain ⟨hm, he⟩ := representable_of_unpack hx
        exact finite_le_add s' h hn hm he (representable_of_unpack hy).1.least

/-- Adding what is not negative makes no double smaller. -/
theorem le_add_of_nonneg {a v : Float} (ha : a.isNaN = false) (hv : v.isFinite = true)
    (h : 0 ≤ v) : a ≤ a + v :=
  le_iff_unpack.2 (le_stored_add (stored_unpack a) (stored_unpack v) ha hv (le_iff_unpack.1 h))

end Sums

end IntegerPrograms

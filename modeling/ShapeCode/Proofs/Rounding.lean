import Mathlib.Algebra.Group.Nat.Defs
import ShapeCode.Layout

set_option autoImplicit false

/-!
# Rounding up to an alignment

`Word.alignUp` clears low bits of a sum.  For an alignment that is a power of two this
is the arithmetic `Word.roundUp`: the least multiple at or after a number
(`alignUp_eq_ok_iff`).  Every alignment of a shape is one, two, four or eight
(`IsAlign`), for which rounding up is within reach of linear arithmetic.
-/

namespace ShapeCode.Word

/-! ## Multiples -/

/-- The least multiple of `align` at or after `n`. -/
def roundUp (n align : Nat) : Nat := (n + align - 1) / align * align

theorem dvd_roundUp (n align : Nat) : align ∣ roundUp n align := Nat.dvd_mul_left _ _

/-- A multiple lies at or behind the one that a number is rounded up to exactly if it
does at or behind the number. -/
theorem roundUp_le_iff {n align m : Nat} (hpos : 0 < align) (hm : align ∣ m) :
    roundUp n align ≤ m ↔ n ≤ m := by
  obtain ⟨k, rfl⟩ := hm
  rw [roundUp, Nat.mul_comm align k, Nat.mul_le_mul_right_iff hpos,
    Nat.div_le_iff_le_mul_add_pred hpos, Nat.mul_comm align k]
  omega

theorem le_roundUp_of_pos {n align : Nat} (hpos : 0 < align) : n ≤ roundUp n align :=
  (roundUp_le_iff hpos (dvd_roundUp n align)).1 (Nat.le_refl _)

theorem roundUp_lt_add {n align : Nat} (hpos : 0 < align) :
    roundUp n align < n + align := by
  have hle : roundUp n align ≤ n + align - 1 := Nat.div_mul_le_self _ _
  omega

theorem roundUp_mono {n m align : Nat} (h : n ≤ m) :
    roundUp n align ≤ roundUp m align := by
  unfold roundUp
  exact Nat.mul_le_mul_right _ (Nat.div_le_div_right (by omega))

/-! ## Clearing low bits -/

theorem isPowerOfTwo_iff {n : Nat} : isPowerOfTwo n = true ↔ ∃ k, n = 2 ^ k := by
  have h := Nat.ne_zero_and_sub_one_eq_zero_iff_isPowerOfTwo (n := n)
  unfold Nat.isPowerOfTwo at h
  rw [← h]
  simp [isPowerOfTwo]

/-- Keeping the bits from `k` on rounds down to a multiple of two to the `k`. -/
theorem and_limit_sub {x k : Nat} (hx : x < limit) (hk : k ≤ 64) :
    x &&& (limit - 2 ^ k) = x / 2 ^ k * 2 ^ k := by
  have hpos : 0 < 2 ^ k := Nat.two_pow_pos k
  have hle : 2 ^ k ≤ 2 ^ 64 := Nat.pow_le_pow_right (by omega) hk
  have hmask : limit - 2 ^ k = 2 ^ 64 - ((2 ^ k - 1) + 1) := by
    unfold limit
    omega
  rw [hmask]
  apply Nat.eq_of_testBit_eq
  intro i
  rw [Nat.testBit_and, Nat.testBit_two_pow_sub_succ (by omega), Nat.testBit_two_pow_sub_one,
    Nat.testBit_mul_two_pow, Nat.testBit_div_two_pow]
  by_cases hi : i < 64
  · by_cases hik : i < k
    · simp [hik, Nat.not_le.2 hik]
    · simp [hi, hik, Nat.le_of_not_lt hik]
  · have hbit : x.testBit i = false := by
      apply Nat.testBit_lt_two_pow
      calc x < 2 ^ 64 := hx
        _ ≤ 2 ^ i := Nat.pow_le_pow_right (by omega) (by omega)
    by_cases hik : k ≤ i
    · simp [hi, hik, hbit]
    · simp [hi, hik]

/-- What rounding up answers, and when it does. -/
theorem alignUp_eq_ok_iff {n align m : Nat} :
    alignUp n align = .ok m ↔
      isPowerOfTwo align = true ∧ n + align < limit ∧ m = roundUp n align := by
  unfold alignUp
  by_cases hp : isPowerOfTwo align = true
  · rw [if_pos hp]
    obtain ⟨k, rfl⟩ := isPowerOfTwo_iff.1 hp
    have hpos : 0 < 2 ^ k := Nat.two_pow_pos k
    by_cases hsum : n + 2 ^ k < limit
    · have hk : k ≤ 64 := by
        apply Nat.le_of_not_lt
        intro hlt
        have : 2 ^ 64 ≤ 2 ^ k := Nat.pow_le_pow_right (by omega) (Nat.le_of_lt hlt)
        unfold limit at hsum
        omega
      have hadd : add n (2 ^ k) = .ok (n + 2 ^ k) := add_eq_ok_iff.2 ⟨hsum, rfl⟩
      have hand := and_limit_sub (x := n + 2 ^ k - 1) (k := k) (by omega) hk
      rw [hadd]
      simp only [hand, roundUp, hp, hsum, true_and]
      constructor
      · intro h
        exact (Except.ok.inj h).symm
      · rintro rfl
        rfl
    · have hadd : add n (2 ^ k) = .error .addOverflow := by
        unfold add
        rw [if_neg hsum]
      rw [hadd]
      simp [hsum]
  · rw [if_neg hp]
    simp [hp]

theorem alignUp_eq_error {n align : Nat} {f : Fault} (h : alignUp n align = .error f) :
    f = .addOverflow ∨ isPowerOfTwo align = false := by
  unfold alignUp at h
  split at h
  · split at h
    · rename_i hadd
      obtain rfl := Except.error.inj h
      exact .inl (add_eq_error hadd)
    · cases h
  · rename_i hp
    exact .inr (Bool.eq_false_iff.2 hp)

/-! ## The alignments of shapes -/

/-- The alignments that shapes have. -/
def IsAlign (align : Nat) : Prop := align = 1 ∨ align = 2 ∨ align = 4 ∨ align = 8

instance : DecidablePred IsAlign :=
  fun _ => inferInstanceAs (Decidable (_ ∨ _ ∨ _ ∨ _))

theorem IsAlign.isPowerOfTwo {align : Nat} (h : IsAlign align) :
    isPowerOfTwo align = true := by
  rcases h with rfl | rfl | rfl | rfl <;> decide

theorem IsAlign.max {a b : Nat} (ha : IsAlign a) (hb : IsAlign b) : IsAlign (max a b) := by
  unfold IsAlign at *
  omega

theorem IsAlign.le {align : Nat} (h : IsAlign align) : align ≤ 8 := by
  unfold IsAlign at h
  omega

theorem IsAlign.pos {align : Nat} (h : IsAlign align) : 0 < align := by
  unfold IsAlign at h
  omega

/-- Of two alignments of shapes the smaller divides the larger. -/
theorem IsAlign.dvd_of_le {a b : Nat} (ha : IsAlign a) (hb : IsAlign b)
    (h : a ≤ b) : a ∣ b := by
  rcases ha with rfl | rfl | rfl | rfl <;> rcases hb with rfl | rfl | rfl | rfl <;> omega

theorem IsAlign.alignUp_error {n align : Nat} {f : Fault} (ha : IsAlign align)
    (h : alignUp n align = .error f) : f = .addOverflow := by
  rcases alignUp_eq_error h with h | h
  · exact h
  · rw [ha.isPowerOfTwo] at h
    cases h

theorem le_roundUp {n align : Nat} (h : IsAlign align) : n ≤ roundUp n align :=
  le_roundUp_of_pos h.pos

theorem roundUp_lt {n align : Nat} (h : IsAlign align) : roundUp n align < n + align :=
  roundUp_lt_add h.pos

theorem roundUp_of_dvd {n align : Nat} (h : IsAlign align) (hn : align ∣ n) :
    roundUp n align = n :=
  Nat.le_antisymm ((roundUp_le_iff h.pos hn).2 (Nat.le_refl _)) (le_roundUp h)

/-- Rounding up commutes with a shift by a multiple of the alignment. -/
theorem roundUp_add {base n align : Nat} (h : IsAlign align) (hb : align ∣ base) :
    roundUp (base + n) align = base + roundUp n align := by
  unfold roundUp
  rcases h with rfl | rfl | rfl | rfl <;> omega

end ShapeCode.Word

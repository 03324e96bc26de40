import Osymandias.Usize

/-!
# What `align_down` and `align_up` compute

Over every 64-bit address and alignment. `align_up` adds and subtracts with
saturation, so the top of the address range is treated apart: there the sum
sticks at `usize::MAX`, and the subtraction of one then takes away an address
that the sum never reached.
-/

namespace Osymandias

/-- `align_down(addr, align)` panics exactly when `align` is no power of two,
and otherwise is the greatest multiple of `align` up to `addr`. -/
structure AlignsDown (addr align : Nat) : Prop where
  panics : (∃ msg, alignDown addr align = .error (.panic msg)) ↔ ¬ align.isPowerOfTwo
  greatest : align.isPowerOfTwo →
    ∃ r, alignDown addr align = .ok r ∧ IsGreatest {n | align ∣ n ∧ n ≤ addr} r

/-- `align_up(addr, align)` panics exactly when `align` is no power of two,
and otherwise is at least `addr` and the least multiple of `align` from `addr`
on, whenever 64 bits hold such a multiple. -/
structure AlignsUp (addr align : Nat) : Prop where
  panics : (∃ msg, alignUp addr align = .error (.panic msg)) ↔ ¬ align.isPowerOfTwo
  least : align.isPowerOfTwo → (∃ n, n < 2 ^ 64 ∧ align ∣ n ∧ addr ≤ n) →
    ∃ r, alignUp addr align = .ok r ∧ addr ≤ r ∧ IsLeast {n | align ∣ n ∧ addr ≤ n} r

/-! ## Multiples -/

theorem isLeast_multiple {a d r : Nat} (hdvd : d ∣ r) (hle : a ≤ r) (hlt : r < a + d) :
    IsLeast {n | d ∣ n ∧ a ≤ n} r := by
  refine ⟨⟨hdvd, hle⟩, ?_⟩
  intro n hn
  obtain ⟨⟨c, rfl⟩, han⟩ := hn
  obtain ⟨q, rfl⟩ := hdvd
  have hqc : d * q < d * (c + 1) := by
    rw [Nat.mul_succ]
    omega
  exact Nat.mul_le_mul_left d (Nat.lt_succ_iff.mp (Nat.lt_of_mul_lt_mul_left hqc))

theorem isGreatest_multiple (a d : Nat) : IsGreatest {n | d ∣ n ∧ n ≤ a} (d * (a / d)) := by
  refine ⟨⟨Dvd.intro _ rfl, Nat.mul_div_le a d⟩, ?_⟩
  intro n hn
  obtain ⟨⟨c, rfl⟩, hca⟩ := hn
  by_cases hd : d = 0
  · subst hd
    simp
  · exact Nat.mul_le_mul_left d ((Nat.le_div_iff_mul_le (Nat.pos_of_ne_zero hd)).mpr (by rwa [Nat.mul_comm]))

theorem usize_split {k : Nat} (hk : k < 64) : 2 ^ 64 = 2 ^ k * 2 ^ (64 - k) := by
  rw [← pow_add, Nat.add_sub_cancel' (by omega)]

/-- From `2 ^ 64 - 2 ^ k + 1` on, the next multiple of `2 ^ k` is `2 ^ 64`. -/
theorem add_le_of_multiple_fits {addr k n : Nat} (hk : k < 64) (hn : n < 2 ^ 64) (hdvd : 2 ^ k ∣ n)
    (hle : addr ≤ n) :
    addr + 2 ^ k ≤ 2 ^ 64 := by
  obtain ⟨c, rfl⟩ := hdvd
  have hsplit := usize_split hk
  rw [hsplit] at hn
  have hc : c + 1 ≤ 2 ^ (64 - k) := Nat.lt_of_mul_lt_mul_left hn
  have hmul := Nat.mul_le_mul_left (2 ^ k) hc
  rw [← hsplit, Nat.mul_succ] at hmul
  omega

/-! ## `align_up` at the top of the range -/

/-- Where the sum reaches `2 ^ 64`, `align_up` rounds `usize::MAX - 1` down,
whatever the address was. -/
theorem alignUp_saturated {addr k : Nat} (hk : k < 64) (h : 2 ^ 64 ≤ addr + 2 ^ k) :
    alignUp addr (2 ^ k) = .ok (if k = 0 then 2 ^ 64 - 2 else 2 ^ 64 - 2 ^ k) := by
  have hsat : saturatingAdd addr (2 ^ k) = 2 ^ 64 - 1 := Nat.min_eq_right (by unfold usizeMax; omega)
  rw [alignUp, hsat, saturatingSub, alignDown_two_pow _ (by omega), Nat.mod_eq_of_lt (by decide)]
  by_cases h0 : k = 0
  · subst h0
    rfl
  · rw [if_neg h0]
    have hsplit := usize_split hk
    have hq : 0 < 2 ^ (64 - k) := Nat.two_pow_pos _
    have h2 : 2 ^ 1 ≤ 2 ^ k := Nat.pow_le_pow_right (by decide) (by omega)
    have hmul : 2 ^ k * (2 ^ (64 - k) - 1) = 2 ^ 64 - 2 ^ k := by
      rw [Nat.mul_sub_one, ← hsplit]
    have hdiv : (2 ^ 64 - 1 - 1) / 2 ^ k = 2 ^ (64 - k) - 1 := by
      apply Nat.div_eq_of_lt_le
      · rw [Nat.mul_comm, hmul]
        omega
      · rw [Nat.sub_add_cancel hq, Nat.mul_comm, ← hsplit]
        decide
    rw [hdiv, hmul]

theorem alignUp_isLeast {addr k : Nat} (hk : k < 64) (h : addr + 2 ^ k ≤ 2 ^ 64)
    (htop : ¬ (k = 0 ∧ addr = usizeMax)) :
    ∃ r, alignUp addr (2 ^ k) = .ok r ∧ r < 2 ^ 64 ∧ IsLeast {n | 2 ^ k ∣ n ∧ addr ≤ n} r := by
  by_cases hlt : addr + 2 ^ k < 2 ^ 64
  · obtain ⟨r, hr, hdvd, hle, hup⟩ := alignUp_two_pow hlt
    exact ⟨r, hr, by omega, isLeast_multiple hdvd hle hup⟩
  · have hpos : 0 < 2 ^ k := Nat.two_pow_pos k
    have hk0 : k ≠ 0 := by
      intro h0
      subst h0
      exact htop ⟨rfl, by unfold usizeMax; omega⟩
    have hr := alignUp_saturated hk (Nat.not_lt.mp hlt)
    rw [if_neg hk0] at hr
    have hdvd : 2 ^ k ∣ 2 ^ 64 - 2 ^ k := by
      rw [usize_split hk, ← Nat.mul_sub_one]
      exact Dvd.intro _ rfl
    exact ⟨_, hr, by omega, isLeast_multiple hdvd (by omega) (by omega)⟩

/-- The documentation's *always at least `addr`*, and when it holds. -/
theorem le_alignUp_iff {addr k : Nat} (haddr : addr < 2 ^ 64) (hk : k < 64) :
    (∃ r, alignUp addr (2 ^ k) = .ok r ∧ addr ≤ r) ↔
      addr + 2 ^ k ≤ 2 ^ 64 ∧ ¬ (k = 0 ∧ addr = usizeMax) := by
  constructor
  · intro h
    obtain ⟨r, hr, hle⟩ := h
    have hpow : 2 ^ k < 2 ^ 64 := Nat.pow_lt_pow_right (by decide) hk
    by_cases hlt : addr + 2 ^ k < 2 ^ 64
    · refine ⟨hlt.le, ?_⟩
      intro htop
      rw [htop.1, htop.2] at hlt
      exact absurd hlt (by decide)
    · rw [alignUp_saturated hk (Nat.not_lt.mp hlt)] at hr
      have hval := Except.ok.inj hr
      by_cases hk0 : k = 0
      · subst hk0
        rw [if_pos rfl] at hval
        omega
      · rw [if_neg hk0] at hval
        exact ⟨by omega, fun htop => hk0 htop.1⟩
  · intro h
    obtain ⟨r, hr, -, hleast⟩ := alignUp_isLeast hk h.1 h.2
    exact ⟨r, hr, hleast.1.2⟩

/-! ## The helpers over the whole range -/

theorem alignDown_panics_iff (addr align : Nat) :
    (∃ msg, alignDown addr align = .error (.panic msg)) ↔ ¬ align.isPowerOfTwo := by
  unfold alignDown
  by_cases h : align.isPowerOfTwo
  · simp [h]
  · simp [h]

theorem alignsDown {addr align : Nat} (haddr : addr < 2 ^ 64) (halign : align < 2 ^ 64) :
    AlignsDown addr align := by
  refine ⟨alignDown_panics_iff addr align, ?_⟩
  intro hpow
  obtain ⟨k, rfl⟩ := hpow
  have hk := pow_lt_usize halign
  refine ⟨_, alignDown_two_pow addr (by omega), ?_⟩
  rw [Nat.mod_eq_of_lt haddr]
  exact isGreatest_multiple addr (2 ^ k)

theorem alignsUp_iff {addr align : Nat} (haddr : addr < 2 ^ 64) (halign : align < 2 ^ 64) :
    AlignsUp addr align ↔ ¬ (align = 1 ∧ addr = usizeMax) := by
  constructor
  · intro h htop
    obtain ⟨rfl, rfl⟩ := htop
    obtain ⟨r, hr, hle, -⟩ := h.least (isPowerOfTwo_two_pow 0) ⟨usizeMax, by decide, one_dvd _, Nat.le_refl _⟩
    exact ((le_alignUp_iff haddr (show 0 < 64 by decide)).mp ⟨r, hr, hle⟩).2 ⟨rfl, rfl⟩
  · intro htop
    refine ⟨alignDown_panics_iff _ align, ?_⟩
    intro hpow hfits
    obtain ⟨k, rfl⟩ := hpow
    obtain ⟨n, hn, hdvd, hle⟩ := hfits
    have hk := pow_lt_usize halign
    have hk0 : ¬ (k = 0 ∧ addr = usizeMax) := by
      intro h
      exact htop ⟨by rw [h.1], h.2⟩
    obtain ⟨r, hr, -, hleast⟩ := alignUp_isLeast hk (add_le_of_multiple_fits hk hn hdvd hle) hk0
    exact ⟨r, hr, hleast.1.2, hleast⟩

/-- **The alignment helpers.** On 64-bit arguments they compute the nearest
multiple below and above, except for one pair: `align_up(usize::MAX, 1)`. -/
theorem alignment_exact {addr align : Nat} (haddr : addr < 2 ^ 64) (halign : align < 2 ^ 64) :
    (AlignsDown addr align ∧ AlignsUp addr align) ↔ ¬ (align = 1 ∧ addr = usizeMax) := by
  rw [alignsUp_iff haddr halign]
  exact and_iff_right (alignsDown haddr halign)

theorem alignment_exact_page : AlignsDown 0xABCDAB 4096 ∧ AlignsUp 0xABCDAB 4096 :=
  (alignment_exact (by decide) (by decide)).mpr (by decide)

/-- `usize::MAX` is its own least multiple of one, and `align_up` returns the
address below it. -/
theorem alignUp_max_one : alignUp usizeMax 1 = .ok (usizeMax - 1) ∧ ¬ AlignsUp usizeMax 1 := by
  have hr : alignUp usizeMax 1 = .ok (usizeMax - 1) := alignUp_saturated (show 0 < 64 by decide) (by decide)
  refine ⟨hr, ?_⟩
  intro h
  obtain ⟨r, hr', hle, -⟩ := h.least (isPowerOfTwo_two_pow 0) ⟨usizeMax, by decide, one_dvd _, Nat.le_refl _⟩
  rw [hr] at hr'
  rw [← Except.ok.inj hr'] at hle
  exact absurd hle (by decide)

end Osymandias

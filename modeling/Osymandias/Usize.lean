import Osymandias.Fuel

/-!
# `usize` arithmetic, alignment helpers and layouts

A 64-bit `usize` is a natural number below `2 ^ 64`. The plain operators panic
on overflow, as they do in the dev and test profiles; the saturating and
checked ones are the standard library's, and so is `Layout`. `align_down` and
`align_up` are `allocator/util.rs`. Where it matters that the kernel is also
built with `--release`, an operator takes the `Profile`.
-/

namespace Osymandias

open Fuel

def usizeMax : Nat := 2 ^ 64 - 1

def usizeAdd (a b : Nat) : Except Fault Nat :=
  if a + b ≤ usizeMax then .ok (a + b) else .error (.panic "attempt to add with overflow")

def usizeSub (a b : Nat) : Except Fault Nat :=
  if b ≤ a then .ok (a - b) else .error (.panic "attempt to subtract with overflow")

def usizeMul (a b : Nat) : Except Fault Nat :=
  if a * b ≤ usizeMax then .ok (a * b) else .error (.panic "attempt to multiply with overflow")

inductive Profile where
  | dev
  | release
  deriving DecidableEq, Repr

/-- The exact result `n` of an operator on `w`-bit integers, as the profile has it. -/
def Profile.fit (profile : Profile) (w n : Nat) (msg : String) : Except Fault Nat :=
  match profile with
  | .dev => if n < 2 ^ w then .ok n else .error (.panic msg)
  | .release => .ok (n % 2 ^ w)

def Profile.add (profile : Profile) (w a b : Nat) : Except Fault Nat :=
  profile.fit w (a + b) "attempt to add with overflow"

def Profile.mul (profile : Profile) (w a b : Nat) : Except Fault Nat :=
  profile.fit w (a * b) "attempt to multiply with overflow"

def Profile.u64Add (profile : Profile) (a b : UInt64) : Except Fault UInt64 :=
  (profile.add 64 a.toNat b.toNat).map UInt64.ofNat

def Profile.u64Mul (profile : Profile) (a b : UInt64) : Except Fault UInt64 :=
  (profile.mul 64 a.toNat b.toNat).map UInt64.ofNat

def Profile.u64Sub (profile : Profile) (a b : UInt64) : Except Fault UInt64 :=
  match profile with
  | .dev => if b ≤ a then .ok (a - b) else .error (.panic "attempt to subtract with overflow")
  | .release => .ok (a - b)

def saturatingAdd (a b : Nat) : Nat := min (a + b) usizeMax

def saturatingSub (a b : Nat) : Nat := a - b

def usizeNot (a : Nat) : Nat := usizeMax ^^^ a

/-- `a << 1`: the top bit is lost, no overflow check is made. -/
def usizeShl1 (a : Nat) : Nat := (a <<< 1) % 2 ^ 64

def checkedNextPowerOfTwo (n : Nat) : Option Nat :=
  if 2 ^ Nat.clog 2 n ≤ usizeMax then some (2 ^ Nat.clog 2 n) else none

def unwrap {α : Type} : Option α → Except Fault α
  | some a => .ok a
  | none => .error (.panic "called `Option::unwrap()` on a `None` value")

def alignDown (addr align : Nat) : Except Fault Nat :=
  if ¬ align.isPowerOfTwo then .error (.panic "aligment must be a power of two")
  else .ok (addr &&& usizeNot (saturatingSub align 1))

def alignUp (addr align : Nat) : Except Fault Nat :=
  alignDown (saturatingSub (saturatingAdd addr align) 1) align

/-! ## Layouts -/

structure Layout where
  size : Nat
  align : Nat
  align_pow : align.isPowerOfTwo
  align_le : align ≤ usizeMax
  size_le : size ≤ usizeMax - (align - 1)
  deriving DecidableEq

def Layout.fromSizeAlign (size align : Nat) : Option Layout :=
  if ha : align.isPowerOfTwo ∧ align ≤ usizeMax then
    if hs : size ≤ usizeMax - (align - 1) then some ⟨size, align, ha.1, ha.2, hs⟩ else none
  else none

inductive AllocErr where
  | exhausted (request : Layout)
  | unsupported (details : String)
  deriving DecidableEq

/-! ## Profiles -/

theorem Profile.fit_eq (profile : Profile) {w n : Nat} (h : n < 2 ^ w) (msg : String) :
    profile.fit w n msg = .ok n := by
  cases profile with
  | dev => exact if_pos h
  | release => exact congrArg Except.ok (Nat.mod_eq_of_lt h)

theorem Profile.fit_ok {profile : Profile} {w n m : Nat} {msg : String} (h : profile.fit w n msg = .ok m)
    (hfit : profile = .dev ∨ n < 2 ^ w) : m = n ∧ n < 2 ^ w := by
  have hlt : n < 2 ^ w := by
    rcases hfit with rfl | hlt
    · by_contra hge
      cases (if_neg hge).symm.trans h
    · exact hlt
  rw [profile.fit_eq hlt] at h
  cases h
  exact ⟨rfl, hlt⟩

theorem Profile.fit_lt {profile : Profile} {w n r : Nat} {msg : String} (h : profile.fit w n msg = .ok r) :
    r < 2 ^ w := by
  cases profile with
  | dev => exact (Profile.fit_ok h (.inl rfl)).1 ▸ (Profile.fit_ok h (.inl rfl)).2
  | release =>
    cases h
    exact Nat.mod_lt _ (Nat.two_pow_pos w)

theorem Profile.u64Add_ok {profile : Profile} {a b c : UInt64} (h : profile.u64Add a b = .ok c)
    (hfit : profile = .dev ∨ a.toNat + b.toNat < 2 ^ 64) : c.toNat = a.toNat + b.toNat := by
  obtain ⟨n, hn, rfl⟩ := map_ok h
  obtain ⟨rfl, hlt⟩ := Profile.fit_ok hn hfit
  exact UInt64.toNat_ofNat_of_lt' hlt

theorem Profile.u64Sub_of_le (profile : Profile) {a b : UInt64} (h : b ≤ a) : profile.u64Sub a b = .ok (a - b) := by
  cases profile with
  | dev => exact if_pos h
  | release => rfl

theorem Profile.u64Sub_ok {profile : Profile} {a b c : UInt64} (h : profile.u64Sub a b = .ok c) : c = a - b := by
  cases profile with
  | dev =>
    by_cases hle : b ≤ a
    · exact (Except.ok.inj ((if_pos hle).symm.trans h)).symm
    · cases (if_neg hle).symm.trans h
  | release => exact (Except.ok.inj h).symm

theorem Profile.fit_ne_outOfFuel (profile : Profile) (w n : Nat) (msg : String) :
    profile.fit w n msg ≠ .error .outOfFuel := by
  unfold Profile.fit
  cases profile with
  | dev => by_cases h : n < 2 ^ w <;> simp [h]
  | release => simp

/-! ## Powers of two -/

theorem isPowerOfTwo_two_pow (k : Nat) : (2 ^ k).isPowerOfTwo := ⟨k, rfl⟩

theorem pow_lt_usize {k : Nat} (h : 2 ^ k < 2 ^ 64) : k < 64 :=
  (Nat.pow_lt_pow_iff_right (by decide)).mp h

theorem Layout.align_eq_two_pow (layout : Layout) : ∃ k, layout.align = 2 ^ k ∧ k ≤ 63 := by
  obtain ⟨k, hk⟩ := layout.align_pow
  have hle := layout.align_le
  unfold usizeMax at hle
  exact ⟨k, hk, Nat.lt_succ_iff.mp (pow_lt_usize (by omega))⟩

theorem isLeast_two_pow_clog (n : Nat) : IsLeast {p | p.isPowerOfTwo ∧ n ≤ p} (2 ^ Nat.clog 2 n) := by
  refine ⟨⟨isPowerOfTwo_two_pow _, Nat.le_pow_clog (by decide) n⟩, ?_⟩
  intro p hp
  obtain ⟨⟨k, rfl⟩, hle⟩ := hp
  exact Nat.pow_le_pow_right (by decide) (Nat.clog_le_of_le_pow hle)

theorem checkedNextPowerOfTwo_eq_none {n : Nat} (h : 2 ^ 63 < n) : checkedNextPowerOfTwo n = none := by
  have hclog : 63 < Nat.clog 2 n := (Nat.lt_clog_iff_pow_lt (by decide)).mpr h
  have hpow : 2 ^ 64 ≤ 2 ^ Nat.clog 2 n := Nat.pow_le_pow_right (by decide) hclog
  rw [checkedNextPowerOfTwo, if_neg (by unfold usizeMax; omega)]

theorem checkedNextPowerOfTwo_eq {n : Nat} (h : n ≤ 2 ^ 63) :
    checkedNextPowerOfTwo n = some (2 ^ Nat.clog 2 n) := by
  have hle : 2 ^ Nat.clog 2 n ≤ 2 ^ 63 :=
    Nat.pow_le_pow_right (by decide) (Nat.clog_le_of_le_pow h)
  have h63 : (2 : Nat) ^ 63 ≤ usizeMax := by decide
  rw [checkedNextPowerOfTwo, if_pos (hle.trans h63)]

theorem clog_bounds {n : Nat} (h : 2 ≤ n) : ∃ k, Nat.clog 2 n = k + 1 ∧ 2 ^ k < n ∧ n ≤ 2 ^ (k + 1) := by
  have hpos := Nat.clog_pos (b := 2) (by decide) (show 1 < n by omega)
  obtain ⟨k, hk⟩ : ∃ k, Nat.clog 2 n = k + 1 := ⟨Nat.clog 2 n - 1, by omega⟩
  refine ⟨k, hk, ?_, ?_⟩
  · have := Nat.pow_pred_clog_lt_self (b := 2) (by decide) (show 1 < n by omega)
    rwa [hk] at this
  · have := Nat.le_pow_clog (b := 2) (by decide) n
    rwa [hk] at this

/-! ## Alignment -/

theorem and_usizeNot (a : Nat) {k : Nat} (hk : k ≤ 64) :
    a &&& usizeNot (2 ^ k - 1) = 2 ^ k * (a % 2 ^ 64 / 2 ^ k) := by
  apply Nat.eq_of_testBit_eq
  intro i
  rw [Nat.testBit_and, usizeNot, usizeMax, Nat.testBit_xor, Nat.testBit_two_pow_sub_one,
    Nat.testBit_two_pow_sub_one, Nat.testBit_two_pow_mul, Nat.testBit_div_two_pow, Nat.testBit_mod_two_pow]
  by_cases hki : k ≤ i
  · by_cases h64 : i < 64
    · simp [h64, hki, Nat.not_lt.mpr hki, Nat.sub_add_cancel hki]
    · simp [h64, hki, Nat.not_lt.mpr hki, Nat.sub_add_cancel hki]
  · simp [hki, show i < k by omega, show i < 64 by omega]

theorem alignDown_two_pow (addr : Nat) {k : Nat} (hk : k ≤ 64) :
    alignDown addr (2 ^ k) = .ok (2 ^ k * (addr % 2 ^ 64 / 2 ^ k)) := by
  rw [alignDown, if_neg (not_not.mpr (isPowerOfTwo_two_pow k)), saturatingSub, and_usizeNot addr hk]

theorem alignDown_dvd (addr : Nat) {k : Nat} (hk : k ≤ 64) :
    ∃ r, alignDown addr (2 ^ k) = .ok r ∧ 2 ^ k ∣ r ∧ r < 2 ^ 64 := by
  refine ⟨_, alignDown_two_pow addr hk, Dvd.intro _ rfl, ?_⟩
  have := Nat.mul_div_le (addr % 2 ^ 64) (2 ^ k)
  have := Nat.mod_lt addr (Nat.two_pow_pos 64)
  omega

theorem alignUp_two_pow {addr k : Nat} (h : addr + 2 ^ k < 2 ^ 64) :
    ∃ r, alignUp addr (2 ^ k) = .ok r ∧ 2 ^ k ∣ r ∧ addr ≤ r ∧ r < addr + 2 ^ k := by
  have hpos : 0 < 2 ^ k := Nat.two_pow_pos k
  have hk : k < 64 := pow_lt_usize (by omega)
  have hsat : saturatingAdd addr (2 ^ k) = addr + 2 ^ k := Nat.min_eq_left (by unfold usizeMax; omega)
  refine ⟨2 ^ k * ((addr + 2 ^ k - 1) / 2 ^ k), ?_, Dvd.intro _ rfl, ?_, ?_⟩
  · rw [alignUp, hsat, saturatingSub, alignDown_two_pow _ (by omega), Nat.mod_eq_of_lt (by omega)]
  · have := Nat.div_add_mod (addr + 2 ^ k - 1) (2 ^ k)
    have := Nat.mod_lt (addr + 2 ^ k - 1) hpos
    omega
  · have := Nat.mul_div_le (addr + 2 ^ k - 1) (2 ^ k)
    omega

theorem alignUp_self {addr k : Nat} (h : addr + 2 ^ k < 2 ^ 64) (hd : 2 ^ k ∣ addr) :
    alignUp addr (2 ^ k) = .ok addr := by
  obtain ⟨r, hr, ⟨q, rfl⟩, hle, hlt⟩ := alignUp_two_pow h
  obtain ⟨c, rfl⟩ := hd
  have hcq : c ≤ q := Nat.le_of_mul_le_mul_left hle (Nat.two_pow_pos k)
  have hqc : q < c + 1 := Nat.lt_of_mul_lt_mul_left (a := 2 ^ k) (by rw [Nat.mul_succ]; exact hlt)
  rw [hr, show q = c by omega]

end Osymandias

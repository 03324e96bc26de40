import Osymandias.Process

/-!
# The system timer

`pi/src/timer.rs`. The counter has 64 bits and is read in two halves, the upper
first. A read of a device register is a function of the state of the hardware,
which it changes; the drivers are written for any such registers.
-/

namespace Osymandias

open Fuel

namespace Timer

structure Registers (σ : Type) where
  CLO : σ → UInt32 × σ
  CHI : σ → UInt32 × σ

section
variable {σ : Type} (R : Registers σ) (profile : Profile)

def read (s : σ) : UInt64 × σ :=
  let (hi, s₁) := R.CHI s
  let (lo, s₂) := R.CLO s₁
  (hi.toUInt64 <<< 32 ||| lo.toUInt64, s₂)

def currentTime (s : σ) : UInt64 × σ := read R s

/-- `while deadline > current_time() {}` -/
def spinUntil (deadline : UInt64) : Nat → σ → Except Fault σ
  | 0, _ => .error .outOfFuel
  | fuel + 1, s =>
    let (now, s') := currentTime R s
    if deadline > now then spinUntil deadline fuel s' else .ok s'

def spinSleepUs (fuel : Nat) (us : UInt64) (s : σ) : Except Fault σ := do
  let (now, s₁) := currentTime R s
  let deadline ← profile.u64Add now us
  spinUntil R deadline fuel s₁

def spinSleepMs (fuel : Nat) (ms : UInt64) (s : σ) : Except Fault σ := do
  let us ← profile.u64Mul ms 1000
  spinSleepUs R profile fuel us s

end

/-! ## Words and halves -/

def upper (v : UInt64) : UInt32 := (v >>> 32).toUInt32

def lower (v : UInt64) : UInt32 := v.toUInt32

theorem toNat_upper (v : UInt64) : (upper v).toNat = v.toNat / 2 ^ 32 := by
  have h : v.toNat / 2 ^ 32 < 2 ^ 32 := by
    have := v.toNat_lt
    omega
  simp only [upper, UInt64.toNat_toUInt32, UInt64.toNat_shiftRight, Nat.shiftRight_eq_div_pow]
  exact Nat.mod_eq_of_lt h

theorem toNat_lower (v : UInt64) : (lower v).toNat = v.toNat % 2 ^ 32 := UInt64.toNat_toUInt32 v

theorem toNat_halves (hi lo : UInt32) :
    (hi.toUInt64 <<< 32 ||| lo.toUInt64).toNat = hi.toNat * 2 ^ 32 + lo.toNat := by
  have hhi := hi.toNat_lt
  have hlo := lo.toNat_lt
  have hlt : hi.toNat <<< 32 < 2 ^ 64 := by
    rw [Nat.shiftLeft_eq]
    omega
  simp only [UInt64.toNat_or, UInt64.toNat_shiftLeft, UInt32.toNat_toUInt64, UInt64.toNat_ofNat]
  rw [Nat.mod_eq_of_lt hlt, Nat.shiftLeft_eq, Nat.mul_comm, Nat.two_pow_add_eq_or_of_lt hlo]

/-! ## Spinning -/

section
variable {σ : Type} {R : Registers σ} {profile : Profile} {s s' : σ}

/-- The spin loop. It ends with a reading that is not before the deadline, and
keeps what the reads of the timer keep. -/
theorem spinUntil_spec {P : σ → Prop} (hread : ∀ s, P s → P (currentTime R s).2) {deadline : UInt64} :
    ∀ {fuel : Nat} {s : σ}, P s → spinUntil R deadline fuel s = .ok s' →
      ∃ s₁, P s₁ ∧ s' = (currentTime R s₁).2 ∧ deadline ≤ (currentTime R s₁).1
  | 0, _, _, h => by cases h
  | fuel + 1, s, hs, h => by
    unfold spinUntil at h
    by_cases hd : deadline > (currentTime R s).1
    · exact spinUntil_spec hread (hread s hs) ((if_pos hd).symm.trans h)
    · cases (if_neg hd).symm.trans h
      exact ⟨s, hs, rfl, UInt64.not_lt.mp hd⟩

theorem spinSleepUs_ok {fuel : Nat} {us : UInt64} (h : spinSleepUs R profile fuel us s = .ok s') :
    ∃ deadline, profile.u64Add (currentTime R s).1 us = .ok deadline ∧
      spinUntil R deadline fuel (currentTime R s).2 = .ok s' := bind_ok h

theorem spinSleepUs_keeps {P : σ → Prop} (hread : ∀ s, P s → P (currentTime R s).2) {fuel : Nat} {us : UInt64}
    (hs : P s) (h : spinSleepUs R profile fuel us s = .ok s') : P s' := by
  obtain ⟨deadline, -, h⟩ := spinSleepUs_ok h
  obtain ⟨s₁, hs₁, rfl, -⟩ := spinUntil_spec hread (hread s hs) h
  exact hread s₁ hs₁

end

end Timer

/-! ## The counter -/

/-- The value of the counter at each access of a register, whatever passes between them. -/
structure Counter where
  value : Nat → UInt64
  advances : ∀ n, value n ≤ value (n + 1)

namespace Counter

variable (C : Counter)

def registers : Timer.Registers Nat where
  CHI n := (Timer.upper (C.value n), n + 1)
  CLO n := (Timer.lower (C.value n), n + 1)

def reading (n : Nat) : UInt64 := (Timer.currentTime C.registers n).1

def Consistent (n : Nat) : Prop := C.value n ≤ C.reading n ∧ C.reading n ≤ C.value (n + 1)

/-- The lower half does not wrap between the two accesses. -/
def Steady (n : Nat) : Prop := Timer.lower (C.value n) ≤ Timer.lower (C.value (n + 1))

theorem currentTime_eq (n : Nat) : Timer.currentTime C.registers n = (C.reading n, n + 2) := rfl

theorem toNat_reading (n : Nat) :
    (C.reading n).toNat = (C.value n).toNat / 2 ^ 32 * 2 ^ 32 + (C.value (n + 1)).toNat % 2 ^ 32 := by
  rw [← Timer.toNat_upper, ← Timer.toNat_lower]
  exact Timer.toNat_halves _ _

variable {C}

theorem value_mono {m n : Nat} (h : m ≤ n) : C.value m ≤ C.value n := by
  induction h with
  | refl => exact UInt64.le_refl _
  | step _ ih => exact UInt64.le_trans ih (C.advances _)

theorem reading_le (n : Nat) : C.reading n ≤ C.value (n + 1) := by
  have h := UInt64.le_iff_toNat_le.mp (C.advances n)
  rw [UInt64.le_iff_toNat_le, toNat_reading]
  omega

theorem le_reading_iff (n : Nat) : C.value n ≤ C.reading n ↔ C.Steady n := by
  unfold Steady
  rw [UInt64.le_iff_toNat_le, UInt32.le_iff_toNat_le, Timer.toNat_lower, Timer.toNat_lower, toNat_reading]
  omega

theorem consistent_iff (n : Nat) : C.Consistent n ↔ C.Steady n := by
  unfold Consistent
  rw [le_reading_iff]
  exact and_iff_left (reading_le n)

theorem reading_mono {m n : Nat} (h : m + 2 ≤ n) (hn : C.Steady n) : C.reading m ≤ C.reading n :=
  UInt64.le_trans (reading_le m) (UInt64.le_trans (value_mono (by omega)) ((le_reading_iff n).mpr hn))

theorem spinSleepUs_advances {profile : Profile} {fuel n n' : Nat} {us : UInt64}
    (h : Timer.spinSleepUs C.registers profile fuel us n = .ok n') (hn : C.Steady n)
    (hfit : profile = .dev ∨ (C.value (n + 1)).toNat + us.toNat < 2 ^ 64) :
    ∃ last, n + 3 ≤ last ∧ n' = last + 1 ∧ (C.value n).toNat + us.toNat ≤ (C.value last).toNat := by
  obtain ⟨deadline, hadd, h⟩ := Timer.spinSleepUs_ok h
  have hle := UInt64.le_iff_toNat_le.mp (reading_le (C := C) n)
  have hd : deadline.toNat = (C.reading n).toNat + us.toNat := by
    apply Profile.u64Add_ok (a := C.reading n) hadd
    exact hfit.imp_right fun hlt => by omega
  obtain ⟨k, hk, rfl, hdk⟩ := Timer.spinUntil_spec (R := C.registers) (P := fun k => n + 2 ≤ k)
    (fun k hk => Nat.le_trans hk (Nat.le_add_right k 2)) (Nat.le_refl (n + 2)) h
  refine ⟨k + 1, by omega, rfl, ?_⟩
  have hstart := UInt64.le_iff_toNat_le.mp ((le_reading_iff n).mpr hn)
  have hlast := UInt64.le_iff_toNat_le.mp (UInt64.le_trans hdk (reading_le k))
  omega

/-- The timer of the environment is the counter: its read `k` starts with access `pos k`. -/
structure Drives {S : Sig} (C : Counter) (E : Env S) (pos : Nat → Nat) : Prop where
  ticks : ∀ k, E.ticks k = C.reading (pos k)
  later : ∀ k, pos k + 2 ≤ pos (k + 1)

theorem Drives.lt {S : Sig} {E : Env S} {pos : Nat → Nat} (h : C.Drives E pos) {j k : Nat} (hjk : j < k) :
    pos j + 2 ≤ pos k := by
  induction hjk with
  | refl => exact h.later j
  | @step k _ ih => exact Nat.le_trans ih (Nat.le_trans (Nat.le_add_right _ 2) (h.later k))

theorem Drives.sleepReady {S : Sig} {E : Env S} {pos : Nat → Nat} (h : C.Drives E pos) {w : World E.Rest} {k : Nat}
    (hk : k < w.reads) (hw : C.Steady (pos w.reads)) (us : UInt64) (p : Process S) :
    E.ticks k ≤ E.ticks w.reads ∧ ∃ r, sleepReady E us (E.ticks k) p w = .ok r := by
  have hle : E.ticks k ≤ E.ticks w.reads := by
    rw [h.ticks, h.ticks]
    exact reading_mono (h.lt hk) hw
  refine ⟨hle, ?_⟩
  simp only [Osymandias.sleepReady, Env.timerRead, E.profile.u64Sub_of_le hle, bind, Except.bind]
  split
  · exact ⟨_, rfl⟩
  · exact ⟨_, rfl⟩

/-- A kernel whose timer is the counter, read at every second access. -/
def env (C : Counter) (profile : Profile) : Env bareSig :=
  { bareEnv with profile := profile, ticks := fun k => C.reading (2 * k) }

theorem env_drives (C : Counter) (profile : Profile) : C.Drives (C.env profile) (2 * ·) :=
  ⟨fun _ => rfl, fun k => Nat.le_of_eq (Nat.mul_succ 2 k).symm⟩

end Counter

/-- **Timer reads, exactly.** A read returns a value between those of the counter at
its two accesses if and only if the lower half does not wrap between them. Where
the reads of a run are such, they never decrease; `spin_sleep_us` does not return
before the counter has advanced, unless its deadline wraps in a release build;
and the sleep system call's subtraction never underflows. -/
theorem timer_reads (S : Sig) (C : Counter) :
    (∀ n, C.Consistent n ↔ C.Steady n) ∧
    (∀ m n, m + 2 ≤ n → C.Steady n → C.reading m ≤ C.reading n) ∧
    (∀ profile fuel us n n', Timer.spinSleepUs C.registers profile fuel us n = .ok n' → C.Steady n →
      (profile = .dev ∨ (C.value (n + 1)).toNat + us.toNat < 2 ^ 64) →
      ∃ last, n + 3 ≤ last ∧ n' = last + 1 ∧ (C.value n).toNat + us.toNat ≤ (C.value last).toNat) ∧
    ∀ (E : Env S) (pos : Nat → Nat), C.Drives E pos → ∀ (w : World E.Rest) (k : Nat), k < w.reads →
      C.Steady (pos w.reads) →
      ∀ us p, E.ticks k ≤ E.ticks w.reads ∧ ∃ r, sleepReady E us (E.ticks k) p w = .ok r := by
  refine ⟨Counter.consistent_iff, fun m n => Counter.reading_mono, ?_, ?_⟩
  · intro profile fuel us n n' h hn hfit
    exact Counter.spinSleepUs_advances h hn hfit
  · intro E pos hd w k hk hw us p
    exact hd.sleepReady hk hw us p

/-- The counter that passes from `2 ^ 32 - 1` to `2 ^ 32` behind the first access. -/
def wrapping : Counter where
  value n := if n = 0 then 0xffffffff else 0x100000000
  advances n := by
    cases n with
    | zero => decide
    | succ n => exact UInt64.le_refl _

theorem timer_reads_env : ∃ r,
    sleepReady (wrapping.env .dev) 5 ((wrapping.env .dev).ticks 0) ⟨.zero, 0, .ready⟩ ⟨1, ()⟩ = .ok r :=
  ((timer_reads _ wrapping).2.2.2 _ _ (wrapping.env_drives .dev) ⟨1, ()⟩ 0 (by decide)
    (by unfold Counter.Steady; decide) 5 ⟨.zero, 0, .ready⟩).2

theorem timer_read_torn : ¬ ∀ (C : Counter) (n : Nat), C.Consistent n := by
  intro h
  have hread : wrapping.reading 0 = 0 := by decide
  have hle := (h wrapping 0).1
  rw [hread] at hle
  exact absurd hle (by decide)

end Osymandias

import Osymandias.MiniUart

/-!
# Waiting for the UART

`wait_for_byte` and `flush` see the hardware as two sequences, the readings of
the timer and those of the line status register. The first is to give up no
earlier than the timeout, the second to end when the transmitter is idle.
-/

namespace Osymandias

open Fuel

/-- What the timer and the status register will show, reading after reading. -/
structure Readings where
  timer : Nat → UInt64
  lsr : Nat → UInt32
  nondecreasing : ∀ n, timer n ≤ timer (n + 1)

structure Cursor where
  timer : Nat
  lsr : Nat
  deriving DecidableEq, Repr

namespace Readings

variable (D : Readings)

/-- The counter stands still while its halves are read. -/
def registers : MiniUart.Registers Cursor where
  CHI s := (Timer.upper (D.timer s.timer), s)
  CLO s := (Timer.lower (D.timer s.timer), { s with timer := s.timer + 1 })
  LSR s := (D.lsr s.lsr, { s with lsr := s.lsr + 1 })
  readIo s := (0, s)
  writeIo _ s := s

theorem currentTime_eq (s : Cursor) :
    Timer.currentTime D.registers.toRegisters s = (D.timer s.timer, { s with timer := s.timer + 1 }) := by
  refine Prod.ext (UInt64.toNat_inj.mp ?_) rfl
  refine (Timer.toNat_halves _ _).trans ?_
  rw [Timer.toNat_upper, Timer.toNat_lower]
  exact Nat.div_add_mod' _ _

theorem hasByte_eq (s : Cursor) :
    MiniUart.hasByte D.registers s =
      (D.lsr s.lsr &&& LsrStatus.dataReady.bits != 0, { s with lsr := s.lsr + 1 }) := rfl

end Readings

def LsrStatus.SetIn (status : LsrStatus) (lsr : UInt32) : Prop := lsr &&& status.bits ≠ 0

/-! ## The read timeout -/

/-- A call of `wait_for_byte` with the timeout set returns `Ok` only behind a
status that had `DataReady` set, and `Err` only when the timeout has passed. -/
def HonoursTimeout (profile : Profile) (ms : UInt32) (D : Readings) : Prop :=
  ∀ (u : MiniUart) (fuel : Nat) (result : Except Unit Unit) (s : Cursor),
    (u.setReadTimeout ms).waitForByte D.registers profile fuel ⟨0, 0⟩ = .ok (result, s) →
    (result = .ok () → ∃ last, s.lsr = last + 1 ∧ LsrStatus.dataReady.SetIn (D.lsr last)) ∧
    (result = .error () → ∃ last, s.timer = last + 1 ∧
      1000 * ms.toNat ≤ (D.timer last).toNat - (D.timer 0).toNat)

theorem Profile.u32Mul_ok {profile : Profile} {a b c : UInt32} (h : profile.u32Mul a b = .ok c)
    (hfit : profile = .dev ∨ a.toNat * b.toNat < 2 ^ 32) : c.toNat = a.toNat * b.toNat := by
  obtain ⟨n, hn, rfl⟩ := map_ok h
  obtain ⟨rfl, hlt⟩ := Profile.fit_ok hn hfit
  exact UInt32.toNat_ofNat_of_lt' hlt

theorem honoursTimeout {profile : Profile} {ms : UInt32} {D : Readings}
    (hfit : profile = .dev ∨ 1000 * ms.toNat < 2 ^ 32 ∧ (D.timer 0).toNat + 1000 * ms.toNat < 2 ^ 64) :
    HonoursTimeout profile ms D := by
  intro u fuel result s h
  have hspec := MiniUart.waitForByte_spec (P := fun _ => True) (fun _ h => h) (fun _ h => h) trivial h
  cases result with
  | ok =>
    refine ⟨fun _ => ?_, nofun⟩
    obtain ⟨s₁, -, hb⟩ := hspec
    rw [Readings.hasByte_eq] at hb
    obtain ⟨hbit, rfl⟩ := Prod.mk.inj hb
    exact ⟨s₁.lsr, rfl, bne_iff_ne.mp hbit⟩
  | error =>
    refine ⟨nofun, fun _ => ?_⟩
    obtain ⟨ms', us, deadline, s₁, hms, hus, hd, -, rfl, hle⟩ := hspec
    cases hms
    simp only [D.currentTime_eq] at hd hle ⊢
    have hmul := Profile.u32Mul_ok hus (hfit.imp_right fun h => by rw [Nat.mul_comm]; exact h.1)
    have h1000 : (1000 : UInt32).toNat = 1000 := rfl
    have hus64 : us.toUInt64.toNat = us.toNat := UInt32.toNat_toUInt64 us
    have hadd := Profile.u64Add_ok hd (hfit.imp_right fun h => by rw [hus64, hmul, h1000, Nat.mul_comm]; exact h.2)
    refine ⟨s₁.timer, rfl, ?_⟩
    have hlast := UInt64.le_iff_toNat_le.mp hle
    rw [hadd, hus64, hmul, h1000] at hlast
    omega

/-- The timer shows `t₀` once and `t₁` from then on, and no byte comes. -/
def Readings.silent (t₀ t₁ : UInt64) (h : t₀ ≤ t₁) : Readings where
  timer n := if n = 0 then t₀ else t₁
  lsr _ := 0
  nondecreasing n := by
    cases n with
    | zero => exact h
    | succ n => exact UInt64.le_refl _

def releaseDeadline (ms : UInt32) (t₀ : UInt64) : UInt64 :=
  UInt64.ofNat ((t₀.toNat + (UInt32.ofNat (ms.toNat * 1000 % 2 ^ 32)).toUInt64.toNat) % 2 ^ 64)

theorem toNat_releaseDeadline (ms : UInt32) (t₀ : UInt64) :
    (releaseDeadline ms t₀).toNat = (t₀.toNat + ms.toNat * 1000 % 2 ^ 32) % 2 ^ 64 := by
  rw [releaseDeadline, UInt64.toNat_ofNat', Nat.mod_mod, UInt32.toNat_toUInt64, UInt32.toNat_ofNat', Nat.mod_mod]

theorem Profile.u32Mul_release (a b : UInt32) :
    Profile.release.u32Mul a b = .ok (UInt32.ofNat (a.toNat * b.toNat % 2 ^ 32)) := rfl

theorem Profile.u64Add_release (a b : UInt64) :
    Profile.release.u64Add a b = .ok (UInt64.ofNat ((a.toNat + b.toNat) % 2 ^ 64)) := rfl

theorem release_times_out {ms : UInt32} {t₀ t₁ : UInt64} (h : t₀ ≤ t₁) (hd : releaseDeadline ms t₀ ≤ t₁)
    (u : MiniUart) :
    (u.setReadTimeout ms).waitForByte (Readings.silent t₀ t₁ h).registers .release 1 ⟨0, 0⟩ =
      .ok (.error (), ⟨2, 0⟩) := by
  simp only [MiniUart.waitForByte, MiniUart.setReadTimeout, Profile.u32Mul_release, Profile.u64Add_release,
    Readings.currentTime_eq, bind, Except.bind, MiniUart.waitUntil]
  exact if_neg (UInt64.not_lt.mpr hd)

theorem not_honoursTimeout {ms : UInt32} {t₀ t₁ : UInt64} (h : t₀ ≤ t₁) (hd : releaseDeadline ms t₀ ≤ t₁)
    (hearly : t₁.toNat - t₀.toNat < 1000 * ms.toNat) : ¬ HonoursTimeout .release ms (.silent t₀ t₁ h) := by
  intro hh
  obtain ⟨last, hlast, hle⟩ := (hh ⟨none⟩ 1 _ _ (release_times_out h hd ⟨none⟩)).2 rfl
  cases hlast
  exact absurd hle (Nat.not_le.mpr hearly)

/-- **The read timeout, exactly.** It is honoured whatever the hardware shows after
its first reading if and only if the build checks overflow, or neither the
timeout in microseconds wraps 32 bits nor the deadline wraps 64. -/
theorem honoursTimeout_iff (profile : Profile) (ms : UInt32) (t₀ : UInt64) :
    (∀ D : Readings, D.timer 0 = t₀ → HonoursTimeout profile ms D) ↔
      profile = .dev ∨ 1000 * ms.toNat < 2 ^ 32 ∧ t₀.toNat + 1000 * ms.toNat < 2 ^ 64 := by
  constructor
  · intro hall
    cases profile with
    | dev => exact .inl rfl
    | release =>
      refine .inr ?_
      by_contra hwrap
      have hd := toNat_releaseDeadline ms t₀
      have ht := t₀.toNat_lt
      have hus : ms.toNat * 1000 % 2 ^ 32 < 2 ^ 32 := Nat.mod_lt _ (by decide)
      by_cases hle : t₀ ≤ releaseDeadline ms t₀
      · refine not_honoursTimeout hle (UInt64.le_refl _) ?_ (hall _ rfl)
        have hmod : (releaseDeadline ms t₀).toNat ≤ t₀.toNat + ms.toNat * 1000 % 2 ^ 32 := hd ▸ Nat.mod_le _ _
        rw [UInt64.le_iff_toNat_le] at hle
        by_cases hprod : 1000 * ms.toNat < 2 ^ 32
        · rw [Nat.mul_comm ms.toNat, Nat.mod_eq_of_lt hprod] at hd
          omega
        · omega
      · have hlt := UInt64.not_le.mp hle
        refine not_honoursTimeout (UInt64.le_refl t₀) (UInt64.le_of_lt hlt) ?_ (hall _ rfl)
        rw [UInt64.lt_iff_toNat_lt, hd] at hlt
        omega
  · rintro hfit D rfl
    exact honoursTimeout hfit

/-- 4294968 ms, more than an hour, are 704 µs in 32 bits. -/
theorem timeout_cut_short : ¬ ∀ (profile : Profile) (ms : UInt32) (D : Readings), HonoursTimeout profile ms D := by
  intro h
  exact @not_honoursTimeout 4294968 0 704 (by decide) (by decide) (by decide) (h _ _ _)

/-! ## Flushing -/

/-- `flush` reads the status up to the first that has `TxIdle` set, and returns. -/
def FlushEnds (profile : Profile) (D : Readings) : Prop :=
  ∀ n, LsrStatus.txIdle.SetIn (D.lsr n) → (∀ k < n, ¬ LsrStatus.txIdle.SetIn (D.lsr k)) →
    Ensures (fun fuel => MiniUart.flush D.registers profile fuel ⟨0, 0⟩) fun s => s.lsr = n + 1

theorem and_txIdle_ne_one (lsr : UInt32) : lsr &&& LsrStatus.txIdle.bits ≠ 1 := by
  intro h
  have hn := congrArg UInt32.toNat h
  rw [UInt32.toNat_and] at hn
  have hodd : (lsr.toNat &&& LsrStatus.txIdle.bits.toNat) % 2 = 1 := by
    rw [hn]
    rfl
  rw [Nat.and_mod_two_eq_one] at hodd
  cases hodd.2

theorem flush_ne_ok {σ : Type} {R : MiniUart.Registers σ} {profile : Profile} :
    ∀ (fuel : Nat) (s s' : σ), MiniUart.flush R profile fuel s ≠ .ok s' := by
  intro fuel s s' h
  obtain ⟨s₁, -, hb⟩ := MiniUart.spinWhile_spec (P := fun _ => True) (fun _ h => h) (fun _ h => h) trivial h
  have hbusy : ((R.LSR s₁).1 &&& LsrStatus.txIdle.bits != 1) = false := congrArg Prod.fst hb
  exact and_txIdle_ne_one _ (bne_eq_false_iff_eq.mp hbusy)

theorem not_flushEnds_of_first {profile : Profile} {D : Readings} {n : Nat} (hn : LsrStatus.txIdle.SetIn (D.lsr n))
    (hfirst : ∀ k < n, ¬ LsrStatus.txIdle.SetIn (D.lsr k)) : ¬ FlushEnds profile D := by
  intro h
  obtain ⟨bound, hb⟩ := h n hn hfirst
  obtain ⟨s, hs, -⟩ := hb bound (Nat.le_refl bound)
  exact flush_ne_ok bound _ s hs

/-- **`flush` never returns.** Its loop waits for a status that, masked with `TxIdle`,
is 1, and none is: whatever the hardware shows, an idle transmitter does not end it. -/
theorem not_flushEnds {profile : Profile} {D : Readings} (hidle : ∃ n, LsrStatus.txIdle.SetIn (D.lsr n)) :
    ¬ FlushEnds profile D := by
  classical
  exact not_flushEnds_of_first (Nat.find_spec hidle) fun k hk => Nat.find_min hidle hk

def Readings.idle : Readings := ⟨fun _ => 0, fun _ => 64, fun _ => UInt64.le_refl _⟩

theorem idle_not_flushEnds : ¬ FlushEnds .release Readings.idle :=
  not_flushEnds ⟨0, by unfold LsrStatus.SetIn; decide⟩

theorem flushing_fails : ¬ ∀ (profile : Profile) (D : Readings),
    (∃ n, LsrStatus.txIdle.SetIn (D.lsr n)) → FlushEnds profile D := by
  intro h
  have hidle : LsrStatus.txIdle.SetIn (Readings.idle.lsr 0) := by
    unfold LsrStatus.SetIn
    decide
  exact not_flushEnds_of_first hidle (fun k hk => absurd hk (Nat.not_lt_zero k))
    (h .release Readings.idle ⟨0, hidle⟩)

end Osymandias

import Osymandias.LineEnds
import Osymandias.Timer

/-!
# The mini UART

`pi/src/uart.rs`. The driver polls the line status register, and spins on the
system timer between two polls. Its setup is left out.
-/

namespace Osymandias

open Fuel

def Profile.u32Mul (profile : Profile) (a b : UInt32) : Except Fault UInt32 :=
  (profile.mul 32 a.toNat b.toNat).map UInt32.ofNat

inductive LsrStatus where
  | dataReady
  | txAvailable
  | txIdle
  deriving DecidableEq, Repr

def LsrStatus.bits : LsrStatus → UInt32
  | dataReady => 1
  | txAvailable => (1 : UInt32) <<< 5
  | txIdle => (1 : UInt32) <<< 6

theorem or_mask_and_mask (a m : UInt32) : (a ||| m) &&& m = m := by
  rw [← UInt32.toBitVec_inj]
  ext i hi
  simp +contextual

theorem and_not_mask_and_mask (a m : UInt32) : a &&& ~~~m &&& m = 0 := by
  rw [UInt32.and_assoc, UInt32.and_comm (~~~m) m, UInt32.and_not_self, UInt32.and_zero]

inductive ErrorKind where
  | timedOut
  deriving DecidableEq, Repr

structure IoError where
  kind : ErrorKind
  message : String
  deriving DecidableEq, Repr

structure MiniUart where
  timeout : Option UInt32
  deriving DecidableEq, Repr

namespace MiniUart

structure Registers (σ : Type) extends Timer.Registers σ where
  readIo : σ → UInt32 × σ
  writeIo : UInt32 → σ → σ
  LSR : σ → UInt32 × σ

def setReadTimeout (_self : MiniUart) (milliseconds : UInt32) : MiniUart := { timeout := some milliseconds }

section
variable {σ : Type} (R : Registers σ) (profile : Profile)

/-- `while busy() { timer::spin_sleep_us(10); }` -/
def spinWhile (busy : σ → Bool × σ) : Nat → σ → Except Fault σ
  | 0, _ => .error .outOfFuel
  | fuel + 1, s =>
    match busy s with
    | (true, s₁) => do
      let s₂ ← Timer.spinSleepUs R.toRegisters profile (fuel + 1) 10 s₁
      spinWhile busy fuel s₂
    | (false, s₁) => .ok s₁

def writeFifoFull (s : σ) : Bool × σ :=
  let (lsr, s') := R.LSR s
  (lsr &&& LsrStatus.txAvailable.bits == 0, s')

def writeByte (fuel : Nat) (byte : UInt8) (s : σ) : Except Fault σ := do
  let s₁ ← spinWhile R profile (writeFifoFull R) fuel s
  return R.writeIo byte.toUInt32 s₁

def hasByte (s : σ) : Bool × σ :=
  let (lsr, s') := R.LSR s
  (lsr &&& LsrStatus.dataReady.bits != 0, s')

def noByte (s : σ) : Bool × σ :=
  let (b, s') := hasByte R s
  (!b, s')

def waitUntil (deadline : UInt64) : Nat → σ → Except Fault (Except Unit Unit × σ)
  | 0, _ => .error .outOfFuel
  | fuel + 1, s =>
    let (now, s₁) := Timer.currentTime R.toRegisters s
    if deadline > now then
      match hasByte R s₁ with
      | (true, s₂) => .ok (.ok (), s₂)
      | (false, s₂) => do
        let s₃ ← Timer.spinSleepUs R.toRegisters profile (fuel + 1) 10 s₂
        waitUntil deadline fuel s₃
    else .ok (.error (), s₁)

def waitForByte (self : MiniUart) (fuel : Nat) (s : σ) : Except Fault (Except Unit Unit × σ) :=
  match self.timeout with
  | some milliseconds => do
    let microseconds ← profile.u32Mul milliseconds 1000
    let (now, s₁) := Timer.currentTime R.toRegisters s
    let deadline ← profile.u64Add now microseconds.toUInt64
    waitUntil R profile deadline fuel s₁
  | none => do
    let s' ← spinWhile R profile (noByte R) fuel s
    return (.ok (), s')

def readByte (fuel : Nat) (s : σ) : Except Fault (UInt8 × σ) := do
  let s₁ ← spinWhile R profile (noByte R) fuel s
  let (io, s₂) := R.readIo s₁
  return (io.toUInt8, s₂)

/-- `while n < buf.len() && self.has_byte() { buf[n] = self.read_byte(); n += 1; }` -/
def readLoop : Nat → List UInt8 → Nat → σ → Except Fault (Nat × List UInt8 × σ)
  | 0, _, _, _ => .error .outOfFuel
  | fuel + 1, buf, n, s =>
    if n < buf.length then
      match hasByte R s with
      | (true, s₁) => do
        let (byte, s₂) ← readByte R profile (fuel + 1) s₁
        readLoop fuel (buf.set n byte) (n + 1) s₂
      | (false, s₁) => .ok (n, buf, s₁)
    else .ok (n, buf, s)

def read (self : MiniUart) (fuel : Nat) (buf : List UInt8) (s : σ) :
    Except Fault (Except IoError Nat × List UInt8 × σ) := do
  let (result, s₁) ← self.waitForByte R profile fuel s
  match result with
  | .error () => return (.error ⟨.timedOut, "uart: read timeout"⟩, buf, s₁)
  | .ok () =>
    let (n, buf', s₂) ← readLoop R profile fuel buf 0 s₁
    return (.ok n, buf', s₂)

def writeAll (fuel : Nat) : List UInt8 → σ → Except Fault σ
  | [], s => .ok s
  | b :: bytes, s => do
    let s' ← writeByte R profile fuel b s
    writeAll fuel bytes s'

def write (fuel : Nat) (buf : List UInt8) (s : σ) : Except Fault (Nat × σ) := do
  let s' ← writeAll R profile fuel buf s
  return (buf.length, s')

def writeStr (fuel : Nat) (text : List UInt8) (s : σ) : Except Fault σ :=
  writeAll R profile fuel (LineEnds.crlf text) s

def flush (fuel : Nat) (s : σ) : Except Fault σ :=
  spinWhile R profile (fun s => let (lsr, s') := R.LSR s; (lsr &&& LsrStatus.txIdle.bits != 1, s')) fuel s

end

/-! ## The loops

`P` is what every read of the timer and of the status register keeps. -/

section
variable {σ : Type} {R : Registers σ} {profile : Profile} {P : σ → Prop}
variable (htime : ∀ s, P s → P (Timer.currentTime R.toRegisters s).2)
include htime

theorem spinWhile_spec {busy : σ → Bool × σ} (hbusy : ∀ s, P s → P (busy s).2) :
    ∀ {fuel : Nat} {s s' : σ}, P s → spinWhile R profile busy fuel s = .ok s' → ∃ s₁, P s₁ ∧ busy s₁ = (false, s')
  | 0, _, _, _, h => by cases h
  | fuel + 1, s, s', hs, h => by
    unfold spinWhile at h
    have hkeep := hbusy s hs
    rcases hb : busy s with ⟨b, s₁⟩
    rw [hb] at h hkeep
    cases b with
    | true =>
      obtain ⟨s₂, hspin, h⟩ := bind_ok h
      exact spinWhile_spec hbusy (Timer.spinSleepUs_keeps htime hkeep hspin) h
    | false =>
      cases h
      exact ⟨s, hs, hb⟩

variable (hlsr : ∀ s, P s → P (R.LSR s).2)
include hlsr

theorem spinWhile_noByte {fuel : Nat} {s s' : σ} (hs : P s) (h : spinWhile R profile (noByte R) fuel s = .ok s') :
    ∃ s₁, P s₁ ∧ hasByte R s₁ = (true, s') := by
  obtain ⟨s₁, hs₁, hb⟩ := spinWhile_spec htime hlsr hs h
  refine ⟨s₁, hs₁, ?_⟩
  rcases hh : hasByte R s₁ with ⟨b, s₂⟩
  simp only [noByte, hh] at hb
  cases b with
  | true =>
    cases hb
    rfl
  | false => cases hb

theorem waitUntil_spec {deadline : UInt64} : ∀ {fuel : Nat} {s s' : σ} {result : Except Unit Unit}, P s →
    waitUntil R profile deadline fuel s = .ok (result, s') →
    ∃ s₁, P s₁ ∧ match result with
      | .ok () => hasByte R s₁ = (true, s')
      | .error () => s' = (Timer.currentTime R.toRegisters s₁).2 ∧ deadline ≤ (Timer.currentTime R.toRegisters s₁).1
  | 0, _, _, _, _, h => by cases h
  | fuel + 1, s, s', result, hs, h => by
    unfold waitUntil at h
    have hnow := htime s hs
    rcases ht : Timer.currentTime R.toRegisters s with ⟨now, s₁⟩
    simp only [ht] at h hnow
    by_cases hd : deadline > now
    · rw [if_pos hd] at h
      have hkeep := hlsr s₁ hnow
      rcases hb : hasByte R s₁ with ⟨b, s₂⟩
      have hs₂ : (R.LSR s₁).2 = s₂ := congrArg Prod.snd hb
      rw [hs₂] at hkeep
      rw [hb] at h
      cases b with
      | true =>
        cases h
        exact ⟨s₁, hnow, hb⟩
      | false =>
        obtain ⟨s₃, hspin, h⟩ := bind_ok h
        exact waitUntil_spec (Timer.spinSleepUs_keeps htime hkeep hspin) h
    · rw [if_neg hd] at h
      cases h
      exact ⟨s, hs, by rw [ht], by rw [ht]; exact UInt64.not_lt.mp hd⟩

/-- `wait_for_byte`. It ends behind a poll that found a byte, or, with a timeout,
behind a reading that is not before the deadline it computed. -/
theorem waitForByte_spec {self : MiniUart} {fuel : Nat} {s s' : σ} {result : Except Unit Unit} (hs : P s)
    (h : self.waitForByte R profile fuel s = .ok (result, s')) :
    match result with
    | .ok () => ∃ s₁, P s₁ ∧ hasByte R s₁ = (true, s')
    | .error () => ∃ ms us deadline s₁, self.timeout = some ms ∧ profile.u32Mul ms 1000 = .ok us ∧
        profile.u64Add (Timer.currentTime R.toRegisters s).1 us.toUInt64 = .ok deadline ∧ P s₁ ∧
        s' = (Timer.currentTime R.toRegisters s₁).2 ∧ deadline ≤ (Timer.currentTime R.toRegisters s₁).1 := by
  unfold waitForByte at h
  cases ht : self.timeout with
  | some ms =>
    rw [ht] at h
    obtain ⟨us, hus, h⟩ := bind_ok h
    obtain ⟨deadline, hd, h⟩ := bind_ok h
    obtain ⟨s₁, hs₁, hr⟩ := waitUntil_spec htime hlsr (htime s hs) h
    cases result with
    | ok => exact ⟨s₁, hs₁, hr⟩
    | error => exact ⟨ms, us, deadline, s₁, rfl, hus, hd, hs₁, hr⟩
  | none =>
    rw [ht] at h
    obtain ⟨s₁, hw, h⟩ := bind_ok h
    cases h
    exact spinWhile_noByte htime hlsr hs hw

end

end MiniUart

end Osymandias

import Osymandias.MiniUart

/-!
# Writing to a FIFO

The transmitter of the mini UART is a FIFO of a few bytes: between the accesses
of the registers the line takes bytes out of it, `TxAvailable` tells whether it
has room, and a byte written into it while it has none is lost. What a console
prints is what its calls wrote, byte after byte.
-/

namespace Osymandias

open Fuel LineEnds

/-- What the line does before each access: how many bytes it takes, and the bits
that the driver does not rely on. -/
structure Wire where
  capacity : Nat
  drains : Nat → Nat
  clock : Nat → UInt32
  noise : Nat → UInt32

structure Transmitter (W : Wire) where
  accesses : Nat
  queue : List UInt8
  sent : List UInt8
  dropped : List UInt8
  fits : queue.length ≤ W.capacity

namespace Transmitter

variable {W : Wire}

def start (W : Wire) : Transmitter W := ⟨0, [], [], [], Nat.zero_le _⟩

def tick (s : Transmitter W) : Transmitter W where
  accesses := s.accesses + 1
  queue := s.queue.drop (W.drains s.accesses)
  sent := s.sent ++ s.queue.take (W.drains s.accesses)
  dropped := s.dropped
  fits := by
    have := s.fits
    rw [List.length_drop]
    omega

def push (s : Transmitter W) (b : UInt8) : Transmitter W :=
  if h : s.queue.length < W.capacity then
    ⟨s.accesses, s.queue ++ [b], s.sent, s.dropped, by simpa using h⟩
  else { s with dropped := s.dropped ++ [b] }

def status (s : Transmitter W) : UInt32 :=
  if s.queue.length < W.capacity then W.noise s.accesses ||| 32 else W.noise s.accesses &&& ~~~32

def accepted (s : Transmitter W) : List UInt8 := s.sent ++ s.queue

end Transmitter

def Wire.registers (W : Wire) : MiniUart.Registers (Transmitter W) where
  CLO s := (W.clock s.accesses, s.tick)
  CHI s := (W.clock s.accesses, s.tick)
  LSR s := (s.tick.status, s.tick)
  readIo s := (W.noise s.accesses, s.tick)
  writeIo v s := s.tick.push v.toUInt8

/-! ## Accesses -/

section
variable {W : Wire} {s s' : Transmitter W}

theorem writeFifoFull_eq (s : Transmitter W) : MiniUart.writeFifoFull W.registers s =
    (decide (¬ s.tick.queue.length < W.capacity), s.tick) := by
  simp only [MiniUart.writeFifoFull, Wire.registers, LsrStatus.bits, Transmitter.status]
  have hbit : (1 : UInt32) <<< 5 = 32 := by decide
  by_cases hq : s.tick.queue.length < W.capacity
  · rw [if_pos hq, hbit, or_mask_and_mask]
    simp [hq]
  · rw [if_neg hq, hbit, and_not_mask_and_mask]
    simp [hq]

/-- Nothing was written between the two states: bytes may have left. -/
structure Drained (s s' : Transmitter W) : Prop where
  accepted : s'.accepted = s.accepted
  dropped : s'.dropped = s.dropped

theorem Drained.refl (s : Transmitter W) : Drained s s := ⟨rfl, rfl⟩

theorem Drained.tick (h : Drained s s') : Drained s s'.tick := by
  refine ⟨?_, h.dropped⟩
  rw [← h.accepted]
  simp only [Transmitter.accepted, Transmitter.tick, List.append_assoc, List.take_append_drop]

theorem Drained.time {s₀ : Transmitter W} (s : Transmitter W) (h : Drained s₀ s) :
    Drained s₀ (Timer.currentTime W.registers.toRegisters s).2 := h.tick.tick

theorem Drained.full {s₀ : Transmitter W} (s : Transmitter W) (h : Drained s₀ s) :
    Drained s₀ (MiniUart.writeFifoFull W.registers s).2 := h.tick

theorem push_of_room {b : UInt8} (h : s.queue.length < W.capacity) :
    (s.push b).accepted = s.accepted ++ [b] ∧ (s.push b).dropped = s.dropped := by
  unfold Transmitter.push
  rw [dif_pos h]
  exact ⟨(List.append_assoc ..).symm, rfl⟩

theorem tick_room (h : s.queue.length < W.capacity) : s.tick.queue.length < W.capacity := by
  simp only [Transmitter.tick, List.length_drop]
  omega

/-! ## Calls -/

variable {profile : Profile} {fuel : Nat}

theorem writeByte_accepted {b : UInt8} (h : MiniUart.writeByte W.registers profile fuel b s = .ok s') :
    s'.accepted = s.accepted ++ [b] ∧ s'.dropped = s.dropped := by
  obtain ⟨s₁, hspin, h⟩ := bind_ok h
  obtain ⟨s₀, hd, hfull⟩ := MiniUart.spinWhile_spec (P := Drained s) Drained.time Drained.full
    (Drained.refl s) hspin
  rw [writeFifoFull_eq] at hfull
  obtain ⟨hroom, rfl⟩ := Prod.mk.inj hfull
  have hroom' : s₀.tick.queue.length < W.capacity := by simpa using hroom
  cases h
  have hio : W.registers.writeIo b.toUInt32 s₀.tick = s₀.tick.tick.push b := by
    simp only [Wire.registers, UInt8.toUInt8_toUInt32]
  obtain ⟨hacc, hdrop⟩ := push_of_room (b := b) (tick_room hroom')
  have hd' := hd.tick.tick
  rw [hio]
  exact ⟨by rw [hacc, hd'.accepted], by rw [hdrop, hd'.dropped]⟩

theorem writeAll_accepted : ∀ {bytes : List UInt8} {s s' : Transmitter W},
    MiniUart.writeAll W.registers profile fuel bytes s = .ok s' →
    s'.accepted = s.accepted ++ bytes ∧ s'.dropped = s.dropped
  | [], s, s', h => by
    cases h
    simp
  | b :: bytes, s, s', h => by
    obtain ⟨s₁, hb, h⟩ := bind_ok h
    obtain ⟨hacc, hdrop⟩ := writeByte_accepted hb
    obtain ⟨hacc', hdrop'⟩ := writeAll_accepted h
    rw [hacc', hdrop', hacc, hdrop, List.append_assoc]
    exact ⟨rfl, rfl⟩

end

/-! ## Runs -/

/-- The calls that write: `write_byte`, `io::Write::write` and `fmt::Write::write_str`. -/
inductive WriteCall where
  | writeByte (byte : UInt8)
  | write (buf : List UInt8)
  | writeStr (text : List UInt8)

namespace WriteCall

def run {σ : Type} (R : MiniUart.Registers σ) (profile : Profile) (fuel : Nat) : WriteCall → σ → Except Fault σ
  | .writeByte byte, s => MiniUart.writeByte R profile fuel byte s
  | .write buf, s => (MiniUart.write R profile fuel buf s).map Prod.snd
  | .writeStr text, s => MiniUart.writeStr R profile fuel text s

/-- What a call puts on the line: a line feed of a text gets a carriage return before it. -/
def bytes : WriteCall → List UInt8
  | .writeByte byte => [byte]
  | .write buf => buf
  | .writeStr text => crlf text

theorem run_eq {σ : Type} (R : MiniUart.Registers σ) (profile : Profile) (fuel : Nat) (c : WriteCall) (s : σ) :
    c.run R profile fuel s = MiniUart.writeAll R profile fuel c.bytes s := by
  cases c with
  | writeByte byte =>
    simp only [run, bytes, MiniUart.writeAll]
    exact (bind_pure _).symm
  | write buf =>
    simp only [run, bytes, MiniUart.write]
    cases MiniUart.writeAll R profile fuel buf s <;> rfl
  | writeStr text => rfl

end WriteCall

/-- Any calls that write, with any accesses of the other registers between them. -/
inductive Writes (W : Wire) (profile : Profile) : Transmitter W → List WriteCall → Transmitter W → Prop
  | done {s : Transmitter W} : Writes W profile s [] s
  | access {s s' : Transmitter W} {calls : List WriteCall} (h : Writes W profile s.tick calls s') :
      Writes W profile s calls s'
  | call {s s₁ s' : Transmitter W} {c : WriteCall} {calls : List WriteCall} {fuel : Nat}
      (hcall : c.run W.registers profile fuel s = .ok s₁) (h : Writes W profile s₁ calls s') :
      Writes W profile s (c :: calls) s'

theorem Writes.accepted {W : Wire} {profile : Profile} {s s' : Transmitter W} {calls : List WriteCall}
    (h : Writes W profile s calls s') :
    s'.accepted = s.accepted ++ calls.flatMap WriteCall.bytes ∧ s'.dropped = s.dropped := by
  induction h with
  | done => simp
  | @access s s' calls _ ih =>
    have hd := (Drained.refl s).tick
    rw [ih.1, ih.2, hd.accepted, hd.dropped]
    exact ⟨rfl, rfl⟩
  | call hcall _ ih =>
    rw [WriteCall.run_eq] at hcall
    obtain ⟨hacc, hdrop⟩ := writeAll_accepted hcall
    rw [ih.1, ih.2, hacc, hdrop, List.flatMap_cons, List.append_assoc]
    exact ⟨rfl, rfl⟩

/-! ## Texts -/

theorem flatMap_writeStr (texts : List (List UInt8)) :
    (texts.map WriteCall.writeStr).flatMap WriteCall.bytes = crlf texts.flatten := by
  induction texts with
  | nil => rfl
  | cons text texts ih =>
    rw [List.map_cons, List.flatMap_cons, ih, List.flatten_cons]
    exact (crlf_append text texts.flatten).symm

/-- **Writes lose and duplicate nothing.** However slowly the line takes them, what
it has taken and what waits in the FIFO is what the calls of a run wrote, in
order, and no byte was written into a full FIFO. Of texts alone, the terminal
can tell what they were. -/
theorem writes_lossless {W : Wire} {profile : Profile} {calls : List WriteCall} {s : Transmitter W}
    (h : Writes W profile (Transmitter.start W) calls s) :
    s.sent ++ s.queue = calls.flatMap WriteCall.bytes ∧ s.dropped = [] ∧ s.queue.length ≤ W.capacity ∧
    ∀ texts : List (List UInt8), calls = texts.map WriteCall.writeStr → lf (s.sent ++ s.queue) = texts.flatten := by
  obtain ⟨hacc, hdrop⟩ := h.accepted
  have hbytes : s.sent ++ s.queue = calls.flatMap WriteCall.bytes := hacc
  refine ⟨hbytes, hdrop, s.fits, ?_⟩
  rintro texts rfl
  rw [hbytes, flatMap_writeStr, lf_crlf]

def slowWire : Wire := ⟨1, fun n => if n % 3 = 2 then 1 else 0, fun n => UInt32.ofNat n, fun _ => 0⟩

def slowWireWritten : Transmitter slowWire := ⟨11, [10], [72, 13], [], Nat.le_refl _⟩

theorem slowWire_writes : (WriteCall.writeStr [72, 10]).run slowWire.registers .dev 6 (Transmitter.start slowWire) =
    .ok slowWireWritten := by
  rfl

theorem writes_lossless_slow : lf (slowWireWritten.sent ++ slowWireWritten.queue) = [72, 10] :=
  (writes_lossless (.call slowWire_writes .done)).2.2.2 [[72, 10]] rfl

end Osymandias

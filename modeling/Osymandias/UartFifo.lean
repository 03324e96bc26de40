import Osymandias.MiniUart

/-!
# Reading from a FIFO

The receiver of the mini UART is a FIFO: bytes arrive between the accesses of
the registers, `DataReady` tells whether one waits, and a read of `IO` takes the
first. What `read` stores, call after call, is what was taken.
-/

namespace Osymandias

open Fuel

/-- What the line does at each access: the bytes that arrive before it, and the
bits that the driver does not rely on. -/
structure Line where
  arrivals : Nat → List UInt8
  clock : Nat → UInt32
  noise : Nat → UInt32

/-- The receiver: what waits in it is what has arrived and was not taken. -/
structure Fifo (L : Line) where
  accesses : Nat
  queue : List UInt8
  taken : List UInt8
  inOrder : taken ++ queue = (List.range accesses).flatMap L.arrivals

namespace Fifo

variable {L : Line}

def start (L : Line) : Fifo L := ⟨0, [], [], rfl⟩

def tick (s : Fifo L) : Fifo L where
  accesses := s.accesses + 1
  queue := s.queue ++ L.arrivals s.accesses
  taken := s.taken
  inOrder := by
    rw [← List.append_assoc, s.inOrder, List.range_succ, List.flatMap_append, List.flatMap_singleton]

def pop (s : Fifo L) : Option (UInt8 × Fifo L) :=
  match h : s.queue with
  | [] => none
  | b :: queue => some (b, ⟨s.accesses, queue, s.taken ++ [b], by rw [← s.inOrder, h, List.append_assoc]; rfl⟩)

def status (s : Fifo L) : UInt32 :=
  if s.queue = [] then L.noise s.accesses &&& ~~~1 else L.noise s.accesses ||| 1

end Fifo

def ioWord (noise : UInt32) (b : UInt8) : UInt32 := UInt32.ofNat (noise.toNat / 256 * 256 + b.toNat)

def Line.registers (L : Line) : MiniUart.Registers (Fifo L) where
  CLO s := (L.clock s.accesses, s.tick)
  CHI s := (L.clock s.accesses, s.tick)
  LSR s := (s.tick.status, s.tick)
  readIo s :=
    match s.tick.pop with
    | some (b, s') => (ioWord (L.noise s.accesses) b, s')
    | none => (L.noise s.accesses, s.tick)
  writeIo _ s := s.tick

/-! ## Accesses -/

section
variable {L : Line} {s s' : Fifo L}

theorem toUInt8_ioWord (noise : UInt32) (b : UInt8) : (ioWord noise b).toUInt8 = b := by
  have hb := b.toNat_lt
  have hlt : noise.toNat / 256 * 256 + b.toNat < 2 ^ 32 := by
    have := noise.toNat_lt
    omega
  rw [← UInt8.toNat_inj, UInt32.toNat_toUInt8, ioWord, UInt32.toNat_ofNat_of_lt' hlt]
  omega

theorem hasByte_eq (s : Fifo L) : MiniUart.hasByte L.registers s = (decide (s.tick.queue ≠ []), s.tick) := by
  simp only [MiniUart.hasByte, Line.registers, LsrStatus.bits, Fifo.status]
  by_cases hq : s.tick.queue = []
  · rw [if_pos hq, and_not_mask_and_mask]
    simp [hq]
  · rw [if_neg hq]
    simp [hq, or_mask_and_mask]

/-- Nothing was taken between the two states: bytes may have arrived. -/
structure Waited (s s' : Fifo L) : Prop where
  taken : s'.taken = s.taken
  queue : s.queue <+: s'.queue

theorem Waited.refl (s : Fifo L) : Waited s s := ⟨rfl, List.prefix_refl _⟩

theorem Waited.tick (h : Waited s s') : Waited s s'.tick :=
  ⟨h.taken, h.queue.trans (List.prefix_append _ _)⟩

theorem Waited.trans {s₁ : Fifo L} (h : Waited s s₁) (h' : Waited s₁ s') : Waited s s' :=
  ⟨h'.taken.trans h.taken, h.queue.trans h'.queue⟩

theorem Waited.ne_nil (h : Waited s s') (hs : s.queue ≠ []) : s'.queue ≠ [] := by
  intro he
  have hp := h.queue
  rw [he] at hp
  exact hs (List.prefix_nil.mp hp)

theorem readIo_of_ne_nil (h : s.queue ≠ []) :
    ∃ b s', L.registers.readIo s = (ioWord (L.noise s.accesses) b, s') ∧ s'.taken = s.taken ++ [b] := by
  have hne : s.tick.queue ≠ [] := (Waited.refl s).tick.ne_nil h
  obtain ⟨b, queue, hq⟩ := List.exists_cons_of_ne_nil hne
  have hp : ∃ s', s.tick.pop = some (b, s') ∧ s'.taken = s.taken ++ [b] := by
    unfold Fifo.pop
    split
    · exact absurd ‹_› hne
    · rename_i b' queue' h'
      cases hq.symm.trans h'
      exact ⟨_, rfl, rfl⟩
  obtain ⟨s', hp, ht⟩ := hp
  refine ⟨b, s', ?_, ht⟩
  simp only [Line.registers, hp]

/-! ## Calls -/

variable {profile : Profile} {fuel : Nat}

theorem Waited.time {s₀ : Fifo L} (s : Fifo L) (h : Waited s₀ s) :
    Waited s₀ (Timer.currentTime L.registers.toRegisters s).2 := h.tick.tick

theorem Waited.lsr {s₀ : Fifo L} (s : Fifo L) (h : Waited s₀ s) : Waited s₀ (L.registers.LSR s).2 := h.tick

theorem waited_of_hasByte {s₁ : Fifo L} (hw : Waited s s₁) (hb : MiniUart.hasByte L.registers s₁ = (true, s')) :
    Waited s s' ∧ s'.queue ≠ [] := by
  rw [hasByte_eq] at hb
  obtain ⟨hq, rfl⟩ := Prod.mk.inj hb
  exact ⟨hw.tick, of_decide_eq_true hq⟩

theorem waitForByte_waited {u : MiniUart} {result : Except Unit Unit}
    (h : u.waitForByte L.registers profile fuel s = .ok (result, s')) :
    Waited s s' ∧ (result = .ok () → s'.queue ≠ []) := by
  have hspec := MiniUart.waitForByte_spec (P := Waited s) Waited.time Waited.lsr (Waited.refl s) h
  cases result with
  | ok =>
    obtain ⟨s₁, hw, hb⟩ := hspec
    obtain ⟨hw', hq⟩ := waited_of_hasByte hw hb
    exact ⟨hw', fun _ => hq⟩
  | error =>
    obtain ⟨-, -, -, s₁, -, -, -, hw, rfl, -⟩ := hspec
    exact ⟨hw.time, nofun⟩

theorem readByte_taken {byte : UInt8} (h : MiniUart.readByte L.registers profile fuel s = .ok (byte, s')) :
    s'.taken = s.taken ++ [byte] := by
  obtain ⟨s₁, hspin, h⟩ := bind_ok h
  obtain ⟨s₀, hw, hb⟩ := MiniUart.spinWhile_noByte (P := Waited s) Waited.time Waited.lsr (Waited.refl s) hspin
  obtain ⟨hw₁, hq⟩ := waited_of_hasByte hw hb
  obtain ⟨b, s₂, hio, ht⟩ := readIo_of_ne_nil hq
  simp only [hio, toUInt8_ioWord] at h
  cases h
  rw [ht, hw₁.taken]

/-- The read loop. It stores what it takes behind the bytes already stored. -/
theorem readLoop_spec : ∀ {fuel n n' : Nat} {buf buf' : List UInt8} {s s' : Fifo L}, n ≤ buf.length →
    MiniUart.readLoop L.registers profile fuel buf n s = .ok (n', buf', s') →
    n ≤ n' ∧ n' ≤ buf.length ∧ buf'.length = buf.length ∧
    (∃ bytes, s'.taken = s.taken ++ bytes ∧ buf'.take n' = buf.take n ++ bytes) ∧
    (n < buf.length → s.queue ≠ [] → n < n')
  | 0, _, _, _, _, _, _, _, h => by cases h
  | fuel + 1, n, n', buf, buf', s, s', hn, h => by
    unfold MiniUart.readLoop at h
    by_cases hlt : n < buf.length
    · rw [if_pos hlt, hasByte_eq] at h
      by_cases hq : s.tick.queue ≠ []
      · rw [decide_eq_true hq] at h
        obtain ⟨⟨byte, s₂⟩, hr, h⟩ := bind_ok h
        have hlen : (buf.set n byte).length = buf.length := List.length_set
        obtain ⟨hle, hle', hb, ⟨bytes, ht, hs⟩, -⟩ := readLoop_spec (by omega) h
        have htake : (buf.set n byte).take (n + 1) = buf.take n ++ [byte] := by
          rw [List.take_succ_eq_append_getElem (by omega), List.getElem_set_self,
            List.take_set_of_le (Nat.le_refl n)]
        refine ⟨by omega, by omega, hb.trans hlen, ⟨byte :: bytes, ?_, ?_⟩, fun _ _ => by omega⟩
        · rw [ht, readByte_taken hr]
          simp [Fifo.tick]
        · rw [hs, htake, List.append_assoc]
          rfl
      · rw [decide_eq_false hq] at h
        cases h
        refine ⟨Nat.le_refl n, hn, rfl, ⟨[], by simp [Fifo.tick], by simp⟩, fun _ hs => ?_⟩
        exact absurd ((Waited.refl s).tick.ne_nil hs) hq
    · rw [if_neg hlt] at h
      cases h
      exact ⟨Nat.le_refl n, hn, rfl, ⟨[], by simp, by simp⟩, fun hlt' => absurd hlt' hlt⟩

end

structure ReadCall (L : Line) where
  buf : List UInt8
  before : Fifo L
  result : Except IoError Nat
  stored : List UInt8
  after : Fifo L

namespace ReadCall

variable {L : Line}

/-- The first `n` positions of the buffer, if the call returned `Ok(n)`. -/
def delivered (c : ReadCall L) : List UInt8 :=
  match c.result with
  | .ok n => c.stored.take n
  | .error _ => []

structure Exact (c : ReadCall L) : Prop where
  taken : c.after.taken = c.before.taken ++ c.delivered
  error : ∀ e, c.result = .error e → e.kind = .timedOut ∧ c.after.taken = c.before.taken
  fits : ∀ n, c.result = .ok n → n ≤ c.buf.length
  progress : ∀ n, c.result = .ok n → c.buf ≠ [] → 1 ≤ n

end ReadCall

theorem read_exact {L : Line} {profile : Profile} {u : MiniUart} {fuel : Nat} {buf stored : List UInt8}
    {s s' : Fifo L} {result : Except IoError Nat}
    (h : u.read L.registers profile fuel buf s = .ok (result, stored, s')) :
    (⟨buf, s, result, stored, s'⟩ : ReadCall L).Exact := by
  obtain ⟨⟨waited, s₁⟩, hw, h⟩ := bind_ok h
  obtain ⟨hw₁, hq⟩ := waitForByte_waited hw
  cases waited with
  | error =>
    cases h
    refine ⟨?_, fun e he => ?_, nofun, nofun⟩
    · rw [hw₁.taken]
      exact (List.append_nil _).symm
    · cases he
      exact ⟨rfl, hw₁.taken⟩
  | ok =>
    obtain ⟨⟨n, buf', s₂⟩, hl, h⟩ := bind_ok h
    cases h
    obtain ⟨-, hle, -, ⟨bytes, ht, hs⟩, hpos⟩ := readLoop_spec (Nat.zero_le _) hl
    refine ⟨?_, nofun, fun k hk => ?_, fun k hk hb => ?_⟩
    · rw [ht, hw₁.taken]
      exact congrArg (s.taken ++ ·) hs.symm
    · cases hk
      exact hle
    · cases hk
      exact hpos (List.length_pos_of_ne_nil hb) (hq rfl)

/-! ## Runs -/

/-- Any calls of `read`, with timeouts set between them. -/
inductive Reads (L : Line) (profile : Profile) : MiniUart → Fifo L → List (ReadCall L) → Fifo L → Prop
  | done {u : MiniUart} {s : Fifo L} : Reads L profile u s [] s
  | setReadTimeout {u : MiniUart} {s s' : Fifo L} {calls : List (ReadCall L)} (ms : UInt32)
      (h : Reads L profile (u.setReadTimeout ms) s calls s') : Reads L profile u s calls s'
  | read {u : MiniUart} {s s₁ s' : Fifo L} {calls : List (ReadCall L)} {fuel : Nat} {buf stored : List UInt8}
      {result : Except IoError Nat} (hcall : u.read L.registers profile fuel buf s = .ok (result, stored, s₁))
      (h : Reads L profile u s₁ calls s') : Reads L profile u s (⟨buf, s, result, stored, s₁⟩ :: calls) s'

theorem Reads.exact {L : Line} {profile : Profile} {u : MiniUart} {s s' : Fifo L} {calls : List (ReadCall L)}
    (h : Reads L profile u s calls s') :
    s'.taken = s.taken ++ calls.flatMap ReadCall.delivered ∧ ∀ c ∈ calls, c.Exact := by
  induction h with
  | done => simp
  | setReadTimeout ms _ ih => exact ih
  | read hcall _ ih =>
    have hexact := read_exact hcall
    refine ⟨?_, List.forall_mem_cons.mpr ⟨hexact, ih.2⟩⟩
    rw [ih.1, hexact.taken, List.append_assoc]
    rfl

/-- **Reads lose and duplicate nothing.** Whatever arrives and whenever, what the
calls of a run deliver is what they take from the FIFO, which is what has arrived
but for the bytes that still wait in it. -/
theorem reads_lossless {L : Line} {profile : Profile} {u : MiniUart} {calls : List (ReadCall L)} {s : Fifo L}
    (h : Reads L profile u (Fifo.start L) calls s) :
    calls.flatMap ReadCall.delivered = s.taken ∧ s.taken ++ s.queue = (List.range s.accesses).flatMap L.arrivals ∧
    ∀ c ∈ calls, c.Exact := by
  obtain ⟨ht, hexact⟩ := h.exact
  exact ⟨ht.symm, s.inOrder, hexact⟩

def twoBytes : Line := ⟨fun n => if n = 0 then [65, 66] else [], fun _ => 0, fun _ => 0⟩

def twoBytesRead : Fifo twoBytes := ⟨8, [], [65, 66], by decide⟩

theorem twoBytes_read : (⟨none⟩ : MiniUart).read twoBytes.registers .release 4 [0, 0, 0] (Fifo.start twoBytes) =
    .ok (.ok 2, [65, 66, 0], twoBytesRead) := rfl

theorem reads_lossless_two : List.take 2 [65, 66, 0] = twoBytesRead.taken :=
  (reads_lossless (.read twoBytes_read .done)).1

end Osymandias

import Osymandias.Fuel

/-!
# GPIO pins

`pi/src/gpio.rs`. A handle on a pin says in its type what the pin was set up
for. The registers come in banks, whose indices are checked; every write is
logged, since what a device does depends on it and not on what the register
holds afterwards.
-/

namespace Osymandias

open Fuel

inductive Bank where
  | FSEL
  | SET
  | CLR
  | LEV
  | PUD
  | PUDCLK
  deriving DecidableEq, Repr

def Bank.len : Bank → Nat
  | FSEL => 6
  | SET => 2
  | CLR => 2
  | LEV => 2
  | PUD => 1
  | PUDCLK => 2

structure Write where
  bank : Bank
  index : Nat
  val : BitVec 32
  deriving DecidableEq, Repr

namespace Gpio

structure Registers where
  word : Bank → Nat → BitVec 32
  log : List Write

namespace Registers

def index (bank : Bank) (i : Nat) : Except Fault Unit :=
  if i < bank.len then .ok ()
  else
    .error (.panic ("index out of bounds: the len is " ++ toString bank.len ++
      " but the index is " ++ toString i))

def read (self : Registers) (bank : Bank) (i : Nat) : Except Fault (BitVec 32) := do
  index bank i
  return self.word bank i

def write (self : Registers) (bank : Bank) (i : Nat) (val : BitVec 32) : Except Fault Registers := do
  index bank i
  return ⟨fun b j => if b = bank ∧ j = i then val else self.word b j, self.log ++ [⟨bank, i, val⟩]⟩

def orMask (self : Registers) (bank : Bank) (i : Nat) (mask : BitVec 32) : Except Fault Registers := do
  let initVal ← self.read bank i
  self.write bank i (initVal ||| mask)

end Registers

inductive PinState where
  | uninitialized
  | input
  | output
  | alt
  deriving DecidableEq, Repr

end Gpio

open Gpio

structure Gpio (state : PinState) where
  pin : UInt8
  pin_le : pin ≤ 53
  deriving DecidableEq

namespace Gpio

inductive Function where
  | input
  | output
  | alt0
  | alt1
  | alt2
  | alt3
  | alt4
  | alt5
  deriving DecidableEq, Repr

def Function.bits : Function → BitVec 32
  | input => 0b000
  | output => 0b001
  | alt0 => 0b100
  | alt1 => 0b101
  | alt2 => 0b110
  | alt3 => 0b111
  | alt4 => 0b011
  | alt5 => 0b010

section
variable {state : PinState}

def transition {state' : PinState} (self : Gpio state) : Gpio state' := ⟨self.pin, self.pin_le⟩

def pinIndex (self : Gpio state) : Nat := self.pin.toNat / 32

def pinMask (self : Gpio state) : BitVec 32 := 1#32 <<< (self.pin.toNat % 32)

end

def new (pin : UInt8) : Except Fault (Gpio .uninitialized) :=
  if h : pin > 53 then .error (.panic ("Gpio::new(): pin " ++ toString pin ++ " exceeds maximum of 53"))
  else .ok ⟨pin, UInt8.not_lt.mp h⟩

def fselRegIndex (self : Gpio .uninitialized) : Nat := self.pin.toNat / 10

def fselRegShift (self : Gpio .uninitialized) : Nat := self.pin.toNat % 10 * 3

def fselSetFunctionBits (reg bits : BitVec 32) (shift : Nat) : BitVec 32 :=
  let mask := ~~~(0b111#32 <<< shift)
  reg &&& mask ||| bits <<< shift

def writeFsel (self : Gpio .uninitialized) (function : Function) (s : Registers) : Except Fault Registers := do
  let val ← s.read .FSEL self.fselRegIndex
  s.write .FSEL self.fselRegIndex (fselSetFunctionBits val function.bits self.fselRegShift)

def intoAlt (self : Gpio .uninitialized) (function : Function) (s : Registers) :
    Except Fault (Gpio .alt × Registers) := do
  let s' ← self.writeFsel function s
  return (self.transition, s')

def intoOutput (self : Gpio .uninitialized) (s : Registers) : Except Fault (Gpio .output × Registers) := do
  let (gpio, s') ← self.intoAlt .output s
  return (gpio.transition, s')

def intoInput (self : Gpio .uninitialized) (s : Registers) : Except Fault (Gpio .input × Registers) := do
  let (gpio, s') ← self.intoAlt .input s
  return (gpio.transition, s')

def set (self : Gpio .output) (s : Registers) : Except Fault Registers :=
  s.write .SET self.pinIndex self.pinMask

def clear (self : Gpio .output) (s : Registers) : Except Fault Registers :=
  s.write .CLR self.pinIndex self.pinMask

def level (self : Gpio .input) (s : Registers) : Except Fault Bool := do
  let lev ← s.read .LEV self.pinIndex
  return lev &&& self.pinMask == 0

def disablePullUpDown (self : Gpio .alt) (s : Registers) : Except Fault Registers := do
  let s₁ ← s.write .PUD 0 0
  -- here and below the source spins for 150 cycles
  let s₂ ← s₁.orMask .PUDCLK 0 self.pinMask
  s₂.write .PUDCLK 0 0

end Gpio

/-! ## Pins and bits -/

namespace Gpio

variable {state : PinState}

theorem toNat_pin_le {pin : UInt8} (h : pin ≤ 53) : pin.toNat ≤ 53 := UInt8.le_iff_toNat_le.mp h

theorem pinIndex_lt (g : Gpio state) : g.pinIndex < 2 := by
  have := toNat_pin_le g.pin_le
  unfold pinIndex
  omega

theorem getLsbD_pinMask (g : Gpio state) (i : Nat) : g.pinMask.getLsbD i = decide (i = g.pin.toNat % 32) := by
  have hlt : g.pin.toNat % 32 < 32 := Nat.mod_lt _ (by decide)
  unfold pinMask
  rw [BitVec.getLsbD_shiftLeft]
  by_cases hi : i = g.pin.toNat % 32
  · subst hi
    simp [hlt]
  · simp [hi]
    omega

theorem Registers.index_eq {bank : Bank} {i : Nat} (h : i < bank.len) : index bank i = .ok () := if_pos h

theorem Registers.read_eq {bank : Bank} {i : Nat} (h : i < bank.len) (s : Registers) :
    s.read bank i = .ok (s.word bank i) := by
  unfold Registers.read
  rw [index_eq h]
  rfl

theorem Registers.write_eq {bank : Bank} {i : Nat} (h : i < bank.len) (s : Registers) (val : BitVec 32) :
    s.write bank i val =
      .ok ⟨fun b j => if b = bank ∧ j = i then val else s.word b j, s.log ++ [⟨bank, i, val⟩]⟩ := by
  unfold Registers.write
  rw [index_eq h]
  rfl

/-! ## What the operations owe -/

/-- A single write to the pin's word of the bank, of which no bit but the pin's is set. -/
def WritesPin (bank : Bank) (g : Gpio state) (s : Registers) (o : Except Fault Registers) : Prop :=
  ∃ s' val, o = .ok s' ∧ s'.log = s.log ++ [⟨bank, g.pin.toNat / 32, val⟩] ∧
    ∀ i, val.getLsbD i = decide (i = g.pin.toNat % 32)

def ReadsLevel (g : Gpio .uninitialized) (s : Registers) : Prop :=
  level g.transition s = .ok ((s.word .LEV (g.pin.toNat / 32)).getLsbD (g.pin.toNat % 32))

/-- `disable_pull_up_down` asserts the pin's clock, in the pin's word, and no clock
that was not asserted; the other word is not written. -/
def DisablesPull (g : Gpio .uninitialized) (s : Registers) : Prop :=
  ∃ s' writes, disablePullUpDown g.transition s = .ok s' ∧ s'.log = s.log ++ writes ∧
    (∃ val, ⟨.PUDCLK, g.pin.toNat / 32, val⟩ ∈ writes ∧ val.getLsbD (g.pin.toNat % 32) = true) ∧
    ∀ i val, ⟨.PUDCLK, i, val⟩ ∈ writes → i = g.pin.toNat / 32 ∧
      ∀ k, val.getLsbD k = true → k = g.pin.toNat % 32 ∨ (s.word .PUDCLK i).getLsbD k = true

/-- The operations touch their own pin, and no other. -/
structure OwnPin (g : Gpio .uninitialized) (s : Registers) : Prop where
  set : WritesPin .SET g s (set g.transition s)
  clear : WritesPin .CLR g s (clear g.transition s)
  level : ReadsLevel g s
  disable : DisablesPull g s

section
variable (g : Gpio .uninitialized) (s : Registers)

theorem writesPin {bank : Bank} (h : bank.len = 2) : WritesPin bank g s (s.write bank g.pinIndex g.pinMask) := by
  have hlt : g.pinIndex < bank.len := by
    rw [h]
    exact pinIndex_lt g
  exact ⟨_, _, Registers.write_eq hlt s g.pinMask, rfl, getLsbD_pinMask g⟩

/-- `level` returns the opposite. -/
theorem level_eq : level g.transition s = .ok !(s.word .LEV (g.pin.toNat / 32)).getLsbD (g.pin.toNat % 32) := by
  have hread : s.read .LEV (transition g : Gpio .input).pinIndex = .ok (s.word .LEV (g.pin.toNat / 32)) :=
    Registers.read_eq (pinIndex_lt g) s
  unfold level
  rw [hread]
  refine congrArg Except.ok (Bool.eq_iff_iff.mpr ?_)
  rw [beq_iff_eq, Bool.not_eq_true', BitVec.ofNat_eq_ofNat, BitVec.zero_iff_eq_false]
  constructor
  · intro hzero
    have hbit := hzero (g.pin.toNat % 32)
    rw [BitVec.getLsbD_and] at hbit
    simpa [getLsbD_pinMask, transition] using hbit
  · intro hbit i
    rw [BitVec.getLsbD_and, getLsbD_pinMask]
    by_cases hi : i = g.pin.toNat % 32
    · rw [hi, hbit]
      rfl
    · simp [hi, transition]

theorem not_readsLevel : ¬ ReadsLevel g s := by
  unfold ReadsLevel
  rw [level_eq]
  intro h
  cases hb : (s.word .LEV (g.pin.toNat / 32)).getLsbD (g.pin.toNat % 32) <;> rw [hb] at h <;> cases h

def pullWrites (clock : BitVec 32) : List Write := [⟨.PUD, 0, 0⟩, ⟨.PUDCLK, 0, clock⟩, ⟨.PUDCLK, 0, 0⟩]

theorem mem_pullWrites {clock val : BitVec 32} {i : Nat} :
    ⟨.PUDCLK, i, val⟩ ∈ pullWrites clock ↔ i = 0 ∧ (val = clock ∨ val = 0) := by
  simp only [pullWrites, List.mem_cons, Write.mk.injEq, reduceCtorEq, true_and, false_and, false_or,
    List.not_mem_nil, or_false, and_or_left]

theorem disablePullUpDown_eq : ∃ s', disablePullUpDown g.transition s = .ok s' ∧
    s'.log = s.log ++ pullWrites (s.word .PUDCLK 0 ||| g.pinMask) := by
  have hpud : 0 < Bank.PUD.len := by decide
  have hclk : 0 < Bank.PUDCLK.len := by decide
  simp only [disablePullUpDown, Registers.orMask, Registers.write_eq hpud, Registers.write_eq hclk,
    Registers.read_eq hclk, bind, Except.bind]
  refine ⟨_, rfl, ?_⟩
  simp [transition, pinMask, pullWrites]

theorem disablesPull_iff : DisablesPull g s ↔ g.pin < 32 := by
  obtain ⟨s', hs, hlog⟩ := disablePullUpDown_eq g s
  have hpin : g.pin < 32 ↔ g.pin.toNat / 32 = 0 := by
    rw [UInt8.lt_iff_toNat_lt, Nat.div_eq_zero_iff_lt (by decide)]
    rfl
  rw [hpin]
  constructor
  · rintro ⟨s'', writes, hs', hlog', ⟨val, hmem, -⟩, -⟩
    cases hs.symm.trans hs'
    rw [List.append_cancel_left (hlog'.symm.trans hlog), mem_pullWrites] at hmem
    exact hmem.1
  · intro h0
    refine ⟨s', _, hs, hlog, ⟨_, mem_pullWrites.mpr ⟨h0, .inl rfl⟩, ?_⟩, fun i val hmem => ?_⟩
    · rw [BitVec.getLsbD_or, getLsbD_pinMask, decide_eq_true rfl, Bool.or_true]
    · obtain ⟨rfl, hval⟩ := mem_pullWrites.mp hmem
      refine ⟨h0.symm, fun k hk => ?_⟩
      rcases hval with rfl | rfl
      · rw [BitVec.getLsbD_or, getLsbD_pinMask, Bool.or_eq_true, decide_eq_true_eq] at hk
        exact hk.symm
      · rw [BitVec.ofNat_eq_ofNat, BitVec.getLsbD_zero] at hk
        cases hk

end

/-- **The operations of a pin.** `set` and `clear` do what they should for every pin,
`disable_pull_up_down` for those of the first bank alone, and `level` for none. -/
theorem not_ownPin (g : Gpio .uninitialized) (s : Registers) :
    ¬ OwnPin g s ∧ WritesPin .SET g s (set g.transition s) ∧ WritesPin .CLR g s (clear g.transition s) ∧
    ¬ ReadsLevel g s ∧ (DisablesPull g s ↔ g.pin < 32) :=
  ⟨fun h => not_readsLevel g s h.level, writesPin g s rfl, writesPin g s rfl,
    not_readsLevel g s, disablesPull_iff g s⟩

def Registers.zero : Registers := ⟨fun _ _ => 0, []⟩

theorem low_pin_read_high : level (⟨16, by decide⟩ : Gpio .input) Registers.zero = .ok true := by decide

theorem own_pin_fails : ¬ ∀ (g : Gpio .uninitialized) (s : Registers), OwnPin g s := by
  intro h
  have hlevel := (h ⟨16, by decide⟩ Registers.zero).level
  cases low_pin_read_high.symm.trans hlevel

end Gpio

end Osymandias

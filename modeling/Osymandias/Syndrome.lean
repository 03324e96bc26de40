import Osymandias.Fuel

/-!
# Exception syndromes

`traps/syndrome.rs`. The class of an exception, the top six bits of `ESR`,
selects its `Syndrome`. The two classes of each kind of abort, one for the
lower exception levels and one for the current, should decode alike.
-/

namespace Osymandias.Traps

inductive Fault where
  | addressSize
  | translation
  | accessFlag
  | permission
  | alignment
  | tlbConflict
  | other (code : UInt8)
  deriving DecidableEq, Repr

def exceptionClass (val : UInt32) : UInt8 := (val >>> 26).toUInt8

def level (val : UInt32) : UInt8 := (val &&& 0x3).toUInt8

namespace Fault

def faultCode (val : UInt32) : UInt8 := ((val >>> 2) &&& 0xf).toUInt8

def instructionAbortFault (val : UInt32) : Fault :=
  match faultCode val with
  | 0b0000 => addressSize
  | 0b0001 => translation
  | 0b0010 => accessFlag
  | 0b0011 => permission
  | 0b1100 => tlbConflict
  | code => other code

def dataAbortFault (val : UInt32) : Fault :=
  match faultCode val with
  | 0b0000 => addressSize
  | 0b0001 => translation
  | 0b0010 => accessFlag
  | 0b0011 => permission
  | 0b1000 => alignment
  | 0b1100 => tlbConflict
  | code => other code

def «from» (val : UInt32) : Except Fuel.Fault Fault :=
  match exceptionClass val with
  | 0b100000 | 0b100001 => .ok (instructionAbortFault val)
  -- the second pattern is written `100101`, without the `0b`: as a `u8` it is 5
  | 0b100100 | 5 => .ok (dataAbortFault val)
  | cls => .error (.panic ("no fault for given exception class " ++ toString cls))

end Fault

inductive Syndrome where
  | unknown
  | wfiWfe
  | mcrMrc
  | mcrrMrrc
  | ldcStc
  | simdFp
  | vmrs
  | mrrc
  | illegalExecutionState
  | svc (imm : UInt16)
  | hvc (imm : UInt16)
  | smc (imm : UInt16)
  | msrMrsSystem
  | instructionAbort (kind : Fault) (level : UInt8)
  | pcAlignmentFault
  | dataAbort (kind : Fault) (level : UInt8)
  | spAlignmentFault
  | trappedFpu
  | sError
  | breakpoint
  | step
  | watchpoint
  | brk (imm : UInt16)
  | other (esr : UInt32)
  deriving DecidableEq, Repr

def Syndrome.from (esr : UInt32) : Except Fuel.Fault Syndrome :=
  match exceptionClass esr with
  | 0b000000 => .ok .unknown
  | 0b000001 => .ok .wfiWfe
  | 0b000011 | 0b000101 => .ok .mcrMrc
  | 0b000100 => .ok .mcrrMrrc
  | 0b000110 => .ok .ldcStc
  | 0b000111 => .ok .simdFp
  | 0b001000 => .ok .vmrs
  | 0b001100 => .ok .mrrc
  | 0b001110 => .ok .illegalExecutionState
  | 0b010101 => .ok (.svc esr.toUInt16)
  | 0b010110 => .ok (.hvc esr.toUInt16)
  | 0b010111 => .ok (.smc esr.toUInt16)
  | 0b011000 => .ok .msrMrsSystem
  | 0b100000 | 0b100001 => do return .instructionAbort (← Fault.from esr) (Traps.level esr)
  | 0b100010 => .ok .pcAlignmentFault
  | 0b100100 | 0b100101 => do return .dataAbort (← Fault.from esr) (Traps.level esr)
  | 0b100110 => .ok .spAlignmentFault
  | 0b101100 => .ok .trappedFpu
  | 0b101111 => .ok .sError
  | 0b110000 | 0b110001 => .ok .breakpoint
  | 0b110010 | 0b110011 => .ok .step
  | 0b110100 | 0b110101 => .ok .watchpoint
  | 0b111100 => .ok (.brk esr.toUInt16)
  | _ => .ok (.other esr)

/-! ## Aborts -/

inductive Abort where
  | instruction
  | data
  deriving DecidableEq, Repr

namespace Abort

def classes : Abort → List UInt8
  -- from a lower level, and from the current one
  | instruction => [0b100000, 0b100001]
  | data => [0b100100, 0b100101]

def syndrome : Abort → Fault → UInt8 → Syndrome
  | instruction, kind, level => .instructionAbort kind level
  | data, kind, level => .dataAbort kind level

/-- The fault that bits 5 to 2 tell. -/
def kind : Abort → Nat → Fault
  | _, 0b0000 => .addressSize
  | _, 0b0001 => .translation
  | _, 0b0010 => .accessFlag
  | _, 0b0011 => .permission
  | data, 0b1000 => .alignment
  | _, 0b1100 => .tlbConflict
  | _, code => .other (UInt8.ofNat code)

end Abort

/-- The `ESR` with another class, and the same 26 bits of syndrome. -/
def withClass (esr : UInt32) (cls : UInt8) : UInt32 := UInt32.ofNat (cls.toNat * 2 ^ 26 + esr.toNat % 2 ^ 26)

/-- The `ESR` decodes as it should. `kinds` tells the fault of an abort from bits 5 to 2. -/
structure DecodesWell (kinds : Abort → Nat → Fault) (esr : UInt32) : Prop where
  returns : ∃ s, Syndrome.from esr = .ok s
  accepts : ∀ a : Abort, exceptionClass esr ∈ a.classes → ∃ kind, Fault.from esr = .ok kind
  alike : ∀ a : Abort, exceptionClass esr ∈ a.classes → ∀ cls ∈ a.classes,
    Syndrome.from (withClass esr cls) = Syndrome.from esr
  bits : ∀ a : Abort, exceptionClass esr ∈ a.classes →
    Syndrome.from esr = .ok (a.syndrome (kinds a (esr.toNat / 4 % 16)) (UInt8.ofNat (esr.toNat % 4)))

section
variable {esr : UInt32}

theorem toNat_exceptionClass (esr : UInt32) : (exceptionClass esr).toNat = esr.toNat / 2 ^ 26 := by
  have h : esr.toNat / 2 ^ 26 < 256 := by
    have := esr.toNat_lt
    omega
  simp only [exceptionClass, UInt32.toNat_toUInt8, UInt32.toNat_shiftRight, Nat.shiftRight_eq_div_pow]
  exact Nat.mod_eq_of_lt h

theorem toNat_withClass {cls : UInt8} (h : cls.toNat < 64) (esr : UInt32) :
    (withClass esr cls).toNat = cls.toNat * 2 ^ 26 + esr.toNat % 2 ^ 26 := by
  have hlow := Nat.mod_lt esr.toNat (y := 2 ^ 26) (by decide)
  unfold withClass
  rw [UInt32.toNat_ofNat']
  exact Nat.mod_eq_of_lt (by omega)

theorem exceptionClass_withClass {cls : UInt8} (h : cls.toNat < 64) (esr : UInt32) :
    exceptionClass (withClass esr cls) = cls := by
  have hlow := Nat.mod_lt esr.toNat (y := 2 ^ 26) (by decide)
  rw [← UInt8.toNat_inj, toNat_exceptionClass, toNat_withClass h]
  omega

theorem bits_withClass {cls : UInt8} (h : cls.toNat < 64) (esr : UInt32) :
    (withClass esr cls).toNat / 4 % 16 = esr.toNat / 4 % 16 ∧ (withClass esr cls).toNat % 4 = esr.toNat % 4 := by
  rw [toNat_withClass h]
  omega

theorem faultCode_eq (val : UInt32) : Fault.faultCode val = UInt8.ofNat (val.toNat / 4 % 16) := by
  rw [← UInt8.toNat_inj]
  simp only [Fault.faultCode, UInt32.toNat_toUInt8, UInt32.toNat_and, UInt32.toNat_shiftRight,
    Nat.shiftRight_eq_div_pow, UInt8.toNat_ofNat']
  exact congrArg (· % 2 ^ 8) (Nat.and_two_pow_sub_one_eq_mod (val.toNat / 4) 4)

theorem level_eq (val : UInt32) : level val = UInt8.ofNat (val.toNat % 4) := by
  rw [← UInt8.toNat_inj]
  simp only [level, UInt32.toNat_toUInt8, UInt32.toNat_and, UInt8.toNat_ofNat']
  exact congrArg (· % 2 ^ 8) (Nat.and_two_pow_sub_one_eq_mod val.toNat 2)

/-! ## The branches -/

def Abort.fault : Abort → UInt32 → Fault
  | instruction => Fault.instructionAbortFault
  | data => Fault.dataAbortFault

theorem Abort.fault_of_code {n : Nat} (hn : n < 16) {val : UInt32} (h : Fault.faultCode val = UInt8.ofNat n)
    (a : Abort) : a.fault val = a.kind n := by
  cases a with
  | instruction =>
    simp only [Abort.fault, Fault.instructionAbortFault, h]
    interval_cases n <;> rfl
  | data =>
    simp only [Abort.fault, Fault.dataAbortFault, h]
    interval_cases n <;> rfl

theorem Abort.fault_eq (a : Abort) (val : UInt32) : a.fault val = a.kind (val.toNat / 4 % 16) :=
  a.fault_of_code (Nat.mod_lt _ (by decide)) (faultCode_eq val)

theorem syndrome_abort {a : Abort} (h : exceptionClass esr ∈ a.classes) :
    Syndrome.from esr = (Fault.from esr).map fun kind => a.syndrome kind (level esr) := by
  have hbind : ∀ k : Fault → Syndrome, (do return k (← Fault.from esr)) = (Fault.from esr).map k := by
    intro k
    cases Fault.from esr <;> rfl
  cases a with
  | instruction =>
    rcases List.mem_pair.mp h with he | he
    · simp only [Syndrome.from, he, hbind, Abort.syndrome]
    · simp only [Syndrome.from, he, hbind, Abort.syndrome]
  | data =>
    rcases List.mem_pair.mp h with he | he
    · simp only [Syndrome.from, he, hbind, Abort.syndrome]
    · simp only [Syndrome.from, he, hbind, Abort.syndrome]

/-- The one abort class that `Fault::from` misses. -/
theorem from_current_data (h : exceptionClass esr = 0b100101) :
    Fault.from esr = .error (.panic "no fault for given exception class 37") := by
  unfold Fault.from
  rw [h]
  rfl

theorem syndrome_current_data (h : exceptionClass esr = 0b100101) :
    Syndrome.from esr = .error (.panic "no fault for given exception class 37") := by
  rw [syndrome_abort (a := .data) (by rw [h]; decide), from_current_data h]
  rfl

theorem from_abort {a : Abort} (h : exceptionClass esr ∈ a.classes) (hc : exceptionClass esr ≠ 0b100101) :
    Fault.from esr = .ok (a.fault esr) := by
  unfold Fault.from
  cases a with
  | instruction =>
    rcases List.mem_pair.mp h with he | he
    · rw [he]; rfl
    · rw [he]; rfl
  | data =>
    rcases List.mem_pair.mp h with he | he
    · rw [he]; rfl
    · exact absurd he hc

theorem syndrome_returns (hc : exceptionClass esr ≠ 0b100101) : ∃ s, Syndrome.from esr = .ok s := by
  have habort : ∀ a : Abort, exceptionClass esr ∈ a.classes → ∃ s, Syndrome.from esr = .ok s := by
    intro a ha
    rw [syndrome_abort ha, from_abort ha hc]
    exact ⟨_, rfl⟩
  by_cases hi : exceptionClass esr ∈ Abort.instruction.classes
  · exact habort .instruction hi
  by_cases hd : exceptionClass esr ∈ Abort.data.classes
  · exact habort .data hd
  simp only [Abort.classes, List.mem_pair, not_or] at hi hd
  unfold Syndrome.from
  -- every branch but the four of the aborts returns at once
  split
  all_goals first
    | exact ⟨_, rfl⟩
    | exact absurd ‹_› hi.1
    | exact absurd ‹_› hi.2
    | exact absurd ‹_› hd.1
    | exact absurd ‹_› hd.2

theorem syndrome_bits {a : Abort} (h : exceptionClass esr ∈ a.classes) (hc : exceptionClass esr ≠ 0b100101) :
    Syndrome.from esr = .ok (a.syndrome (a.kind (esr.toNat / 4 % 16)) (UInt8.ofNat (esr.toNat % 4))) := by
  rw [syndrome_abort h, from_abort h hc, level_eq, a.fault_eq]
  rfl

end

/-- **Decoding, exactly.** An `ESR` decodes as it should if and only if its class is
neither of those of data aborts: of the two `Fault::from` accepts the first, and
panics on the second. -/
theorem decodesWell_iff (esr : UInt32) :
    DecodesWell Abort.kind esr ↔ exceptionClass esr ≠ 0b100100 ∧ exceptionClass esr ≠ 0b100101 := by
  refine ⟨fun h => ⟨fun hc => ?_, fun hc => ?_⟩, fun h => ?_⟩
  · have hmem : exceptionClass esr ∈ Abort.data.classes := by
      rw [hc]
      decide
    have halike := h.alike .data hmem 0b100101 (by decide)
    obtain ⟨s, hs⟩ := h.returns
    rw [syndrome_current_data (exceptionClass_withClass (by decide) esr), hs] at halike
    cases halike
  · obtain ⟨s, hs⟩ := h.returns
    rw [syndrome_current_data hc] at hs
    cases hs
  · have hcls : ∀ a : Abort, exceptionClass esr ∈ a.classes → a = .instruction := by
      intro a ha
      cases a with
      | instruction => rfl
      | data =>
        rcases List.mem_pair.mp ha with he | he
        · exact absurd he h.1
        · exact absurd he h.2
    refine ⟨syndrome_returns h.2, fun a ha => ⟨_, from_abort ha h.2⟩, fun a ha cls hm => ?_,
      fun a ha => syndrome_bits ha h.2⟩
    obtain rfl := hcls a ha
    have hlt : cls.toNat < 64 := by
      rcases List.mem_pair.mp hm with rfl | rfl <;> decide
    have hw := exceptionClass_withClass hlt esr
    have hne : cls ≠ 0b100101 := by
      rcases List.mem_pair.mp hm with rfl | rfl <;> decide
    have hbits := bits_withClass hlt esr
    rw [syndrome_bits (a := .instruction) (hw.symm ▸ hm) (hw.symm ▸ hne), syndrome_bits ha h.2, hbits.1, hbits.2]

/-- A data abort in the kernel itself makes the handler panic. -/
theorem decoding_fails : ¬ ∃ kinds, ∀ esr, DecodesWell kinds esr := by
  rintro ⟨kinds, h⟩
  obtain ⟨s, hs⟩ := (h 0x94000000).returns
  rw [syndrome_current_data (by decide)] at hs
  cases hs

end Osymandias.Traps

import Osymandias.Gpio

/-!
# Selecting the functions of the pins

Ten pins share a word of `FSEL`, three bits each, and every selection reads
and rewrites the whole word. Over any sequence of `Gpio::new` and `into_alt`,
`into_output` or `into_input`, each pin nevertheless ends with the function
last selected for it.
-/

namespace Osymandias.Gpio

open Fuel

inductive Mode where
  | alt (function : Function)
  | output
  | input
  deriving DecidableEq, Repr

def Mode.function : Mode → Function
  | alt function => function
  | output => .output
  | input => .input

/-- `Gpio::new(pin)`, followed by one of `into_alt`, `into_output` and `into_input`. -/
structure Config where
  pin : UInt8
  pin_le : pin ≤ 53
  mode : Mode

def configure (s : Registers) (c : Config) : Except Fault Registers := do
  let gpio ← new c.pin
  match c.mode with
  | .alt function =>
    let (_, s') ← gpio.intoAlt function s
    return s'
  | .output =>
    let (_, s') ← gpio.intoOutput s
    return s'
  | .input =>
    let (_, s') ← gpio.intoInput s
    return s'

def configureAll (s : Registers) (cs : List Config) : Except Fault Registers := cs.foldlM configure s

def lastFunction (p : Nat) (cs : List Config) : Option Function :=
  (cs.filter fun c => c.pin.toNat = p).getLast?.map fun c => c.mode.function

/-- The three bits of `FSEL` that are the `p`-th pin's. -/
def Registers.field (s : Registers) (p : Nat) : BitVec 3 := (s.word .FSEL (p / 10)).extractLsb' (p % 10 * 3) 3

def Function.code (f : Function) : BitVec 3 := f.bits.setWidth 3

/-- Each of the sixty fields holds the last function selected for its pin, and
what it held before where there is none. Nothing else has changed. -/
structure Selects (s : Registers) (cs : List Config) (s' : Registers) : Prop where
  field : ∀ p, p < 60 → s'.field p = ((lastFunction p cs).map Function.code).getD (s.field p)
  outside : ∀ r i, 30 ≤ i → (s'.word .FSEL r).getLsbD i = (s.word .FSEL r).getLsbD i
  elsewhere : ∀ bank r, bank ≠ .FSEL ∨ 6 ≤ r → s'.word bank r = s.word bank r

/-! ## One selection -/

theorem getLsbD_of_lt_eight {b : BitVec 32} (hb : b.toNat < 8) {i : Nat} (hi : 3 ≤ i) : b.getLsbD i = false := by
  have hpow : 2 ^ 3 ≤ 2 ^ i := Nat.pow_le_pow_right (by decide) hi
  exact Nat.testBit_lt_two_pow (by omega)

theorem Function.bits_lt (f : Function) : f.bits.toNat < 8 := by
  cases f <;> decide

theorem getLsbD_seven (i : Nat) : (0b111#32).getLsbD i = decide (i < 3) := by
  have h : (0b111#32).getLsbD i = (2 ^ 3 - 1).testBit i := rfl
  rw [h, Nat.testBit_two_pow_sub_one]

theorem getLsbD_fselSetFunctionBits (reg : BitVec 32) (f : Function) {shift : Nat} (h : shift + 3 ≤ 32) (i : Nat) :
    (fselSetFunctionBits reg f.bits shift).getLsbD i =
      if shift ≤ i ∧ i < shift + 3 then f.bits.getLsbD (i - shift) else reg.getLsbD i := by
  unfold fselSetFunctionBits
  rw [BitVec.getLsbD_or, BitVec.getLsbD_and, BitVec.getLsbD_not, BitVec.getLsbD_shiftLeft, BitVec.getLsbD_shiftLeft,
    getLsbD_seven]
  by_cases hin : shift ≤ i ∧ i < shift + 3
  · have h3 : i - shift < 3 := by omega
    have h32 : i < 32 := by omega
    simp [hin, h3, h32, Nat.not_lt.mpr hin.1]
  · rw [if_neg hin]
    by_cases hlt : i < shift
    · by_cases h32 : i < 32
      · simp [hlt, h32]
      · simp [h32, BitVec.getLsbD_of_ge reg i (by omega)]
    · have h3 : 3 ≤ i - shift := by omega
      rw [getLsbD_of_lt_eight f.bits_lt h3]
      by_cases h32 : i < 32
      · simp [h32, Nat.not_lt.mpr h3]
      · simp [h32, BitVec.getLsbD_of_ge reg i (by omega)]

theorem fselRegIndex_lt (g : Gpio .uninitialized) : g.fselRegIndex < 6 := by
  have h := toNat_pin_le g.pin_le
  unfold fselRegIndex
  omega

theorem writeFsel_eq (g : Gpio .uninitialized) (f : Function) (s : Registers) : ∃ s', g.writeFsel f s = .ok s' ∧
    ∀ bank r i, (s'.word bank r).getLsbD i =
      if bank = .FSEL ∧ i < 30 ∧ g.pin.toNat = 10 * r + i / 3 then f.bits.getLsbD (i % 3)
      else (s.word bank r).getLsbD i := by
  unfold writeFsel
  rw [Registers.read_eq (fselRegIndex_lt g)]
  refine ⟨_, Registers.write_eq (fselRegIndex_lt g) s _, ?_⟩
  intro bank r i
  have hshift : g.fselRegShift + 3 ≤ 32 := by
    unfold fselRegShift
    omega
  by_cases hword : bank = .FSEL ∧ r = g.fselRegIndex
  · obtain ⟨rfl, rfl⟩ := hword
    have hfield : (g.fselRegShift ≤ i ∧ i < g.fselRegShift + 3) ↔
        i < 30 ∧ g.pin.toNat = 10 * g.fselRegIndex + i / 3 := by
      unfold fselRegShift fselRegIndex
      omega
    simp only [and_self, if_true, true_and]
    rw [getLsbD_fselSetFunctionBits _ _ hshift, if_congr hfield rfl rfl]
    by_cases hin : i < 30 ∧ g.pin.toNat = 10 * g.fselRegIndex + i / 3
    · have hmod : i - g.fselRegShift = i % 3 := by
        unfold fselRegShift fselRegIndex at *
        omega
      rw [hmod]
    · rw [if_neg hin, if_neg hin]
  · have hother : ¬ (bank = .FSEL ∧ i < 30 ∧ g.pin.toNat = 10 * r + i / 3) := by
      intro h
      apply hword
      refine ⟨h.1, ?_⟩
      unfold fselRegIndex
      omega
    rw [if_neg hother]
    exact congrArg (fun w : BitVec 32 => w.getLsbD i) (if_neg hword)

theorem intoAlt_eq {g : Gpio .uninitialized} {f : Function} {s s' : Registers} (h : g.writeFsel f s = .ok s') :
    g.intoAlt f s = .ok (g.transition, s') := by
  unfold intoAlt
  rw [h]
  rfl

theorem configure_eq (c : Config) (s : Registers) : ∃ s', configure s c = .ok s' ∧
    ∀ bank r i, (s'.word bank r).getLsbD i =
      if bank = .FSEL ∧ i < 30 ∧ c.pin.toNat = 10 * r + i / 3 then c.mode.function.bits.getLsbD (i % 3)
      else (s.word bank r).getLsbD i := by
  obtain ⟨s', hs', hbit⟩ := writeFsel_eq ⟨c.pin, c.pin_le⟩ c.mode.function s
  refine ⟨s', ?_, hbit⟩
  have hnew : new c.pin = .ok ⟨c.pin, c.pin_le⟩ := dif_neg (UInt8.not_lt.mpr c.pin_le)
  have halt := intoAlt_eq hs'
  unfold configure
  rw [hnew]
  cases hm : c.mode with
  | alt f =>
    rw [hm, Mode.function] at halt
    simp only [bind, Except.bind, halt]
    rfl
  | output =>
    rw [hm, Mode.function] at halt
    simp only [bind, Except.bind, intoOutput, halt]
    rfl
  | input =>
    rw [hm, Mode.function] at halt
    simp only [bind, Except.bind, intoInput, halt]
    rfl

/-! ## A run -/

theorem lastFunction_cons (p : Nat) (c : Config) (cs : List Config) : lastFunction p (c :: cs) =
    (lastFunction p cs).or (if c.pin.toNat = p then some c.mode.function else none) := by
  unfold lastFunction
  by_cases h : c.pin.toNat = p
  · rw [List.filter_cons_of_pos (by simp [h]), if_pos h, List.getLast?_cons]
    cases (cs.filter fun c => c.pin.toNat = p).getLast? with
    | none => rfl
    | some d => rfl
  · rw [List.filter_cons_of_neg (by simp [h]), if_neg h, Option.or_none]

theorem lastFunction_eq_none {p : Nat} (hp : 53 < p) (cs : List Config) : lastFunction p cs = none := by
  have hnil : (cs.filter fun c => c.pin.toNat = p) = [] := by
    rw [List.filter_eq_nil_iff]
    intro c _
    have h := toNat_pin_le c.pin_le
    rw [decide_eq_true_eq]
    omega
  unfold lastFunction
  rw [hnil]
  rfl

theorem lastFunction_swap (p : Nat) {c c' : Config} (h : c.pin ≠ c'.pin) (post : List Config) :
    ∀ pre, lastFunction p (pre ++ c' :: c :: post) = lastFunction p (pre ++ c :: c' :: post)
  | [] => by
    rw [List.nil_append, List.nil_append, lastFunction_cons, lastFunction_cons, lastFunction_cons,
      lastFunction_cons, Option.or_assoc, Option.or_assoc]
    by_cases hc : c.pin.toNat = p
    · have hc' : c'.pin.toNat ≠ p := fun hp => h (UInt8.toNat_inj.mp (hc.trans hp.symm))
      rw [if_pos hc, if_neg hc', Option.or_none, Option.none_or]
    · rw [if_neg hc, Option.or_none, Option.none_or]
  | d :: pre => by
    rw [List.cons_append, List.cons_append, lastFunction_cons, lastFunction_cons, lastFunction_swap p h post pre]

/-- A bit of a field is the function's; the others stay as they were. -/
theorem configureAll_bit : ∀ (cs : List Config) (s : Registers), ∃ s', configureAll s cs = .ok s' ∧
    ∀ bank r i, (s'.word bank r).getLsbD i =
      if bank = .FSEL ∧ i < 30 then
        ((lastFunction (10 * r + i / 3) cs).map fun f => f.bits.getLsbD (i % 3)).getD ((s.word bank r).getLsbD i)
      else (s.word bank r).getLsbD i
  | [], s => ⟨s, rfl, fun bank r i => by simp [lastFunction]⟩
  | c :: cs, s => by
    obtain ⟨s₁, hs₁, hbit₁⟩ := configure_eq c s
    obtain ⟨s₂, hs₂, hbit₂⟩ := configureAll_bit cs s₁
    refine ⟨s₂, ?_, ?_⟩
    · unfold configureAll
      rw [List.foldlM_cons, hs₁]
      exact hs₂
    · intro bank r i
      rw [hbit₂, hbit₁]
      by_cases hin : bank = .FSEL ∧ i < 30
      · rw [if_pos hin, if_pos hin, lastFunction_cons]
        -- the functions selected later decide; where there is none, `c` does, if it is about this pin
        cases lastFunction (10 * r + i / 3) cs with
        | some f => rfl
        | none =>
          by_cases hpin : c.pin.toNat = 10 * r + i / 3
          · simp [hin, hpin]
          · simp [hpin]
      · have hnot : ¬ (bank = .FSEL ∧ i < 30 ∧ c.pin.toNat = 10 * r + i / 3) := fun h => hin ⟨h.1, h.2.1⟩
        rw [if_neg hin, if_neg hin, if_neg hnot]

theorem configureAll_selects (s : Registers) (cs : List Config) :
    ∃ s', configureAll s cs = .ok s' ∧ Selects s cs s' := by
  obtain ⟨s', hs', hbit⟩ := configureAll_bit cs s
  refine ⟨s', hs', ?_, ?_, ?_⟩
  · intro p hp
    apply BitVec.eq_of_getLsbD_eq
    intro i hi
    have hfield : p % 10 * 3 + i < 30 := by omega
    have hpin : 10 * (p / 10) + (p % 10 * 3 + i) / 3 = p := by omega
    have hmod : (p % 10 * 3 + i) % 3 = i := by omega
    unfold Registers.field
    rw [BitVec.getLsbD_extractLsb', hbit, if_pos ⟨rfl, hfield⟩, hpin, hmod]
    cases lastFunction p cs with
    | some f => simp [Function.code, hi]
    | none => simp [hi]
  · intro r i hi
    rw [hbit, if_neg (fun h => by omega)]
  · intro bank r h
    apply BitVec.eq_of_getLsbD_eq
    intro i hi
    rw [hbit]
    by_cases hin : bank = .FSEL ∧ i < 30
    · have hr : 6 ≤ r := h.resolve_left (not_not.mpr hin.1)
      rw [if_pos hin, lastFunction_eq_none (by omega)]
      rfl
    · rw [if_neg hin]

/-- What the words hold depends on the last function of each pin alone. -/
theorem configureAll_congr {s s' : Registers} {cs cs' : List Config} (hs' : configureAll s cs = .ok s')
    (h : ∀ p, lastFunction p cs' = lastFunction p cs) :
    ∃ s'', configureAll s cs' = .ok s'' ∧ s''.word = s'.word := by
  obtain ⟨t, ht, hbit⟩ := configureAll_bit cs s
  obtain ⟨t', ht', hbit'⟩ := configureAll_bit cs' s
  cases hs'.symm.trans ht
  refine ⟨t', ht', ?_⟩
  funext bank r
  apply BitVec.eq_of_getLsbD_eq
  intro i _
  rw [hbit', hbit, h]

/-- **Function selection is per pin.** A run never leaves the banks, each pin ends
with its last function, and exchanging two neighbouring configurations of
distinct pins anywhere in it leaves the same words. -/
theorem configureAll_per_pin (s : Registers) (cs : List Config) :
    ∃ s', configureAll s cs = .ok s' ∧ Selects s cs s' ∧
      ∀ pre c c' post, cs = pre ++ c :: c' :: post → c.pin ≠ c'.pin →
        ∃ s'', configureAll s (pre ++ c' :: c :: post) = .ok s'' ∧ s''.word = s'.word := by
  obtain ⟨s', hs', hsel⟩ := configureAll_selects s cs
  refine ⟨s', hs', hsel, ?_⟩
  intro pre c c' post hcs hne
  subst hcs
  exact configureAll_congr hs' fun p => lastFunction_swap p hne post pre

/-- Pins 14 and 15 share a word; the second selection of pin 14 wins. -/
example : (configureAll Registers.zero [⟨14, by decide, .output⟩, ⟨15, by decide, .alt .alt5⟩,
    ⟨14, by decide, .alt .alt0⟩]).map (fun s => s.word .FSEL 1) = .ok (0b010100#32 <<< 12) := by decide

end Osymandias.Gpio

import Osymandias.Timer

/-!
# Interrupts

`pi/src/interrupt.rs`, and the part of `pi/src/timer.rs` that asks for an
interrupt. Enabling and disabling write a single bit, and it is the controller
that leaves the others alone. A match of the timer is a comparison with the
lower half of the counter, latched until it is cleared.
-/

namespace Osymandias

open Fuel

inductive Interrupt where
  | timer1
  | timer3
  | usb
  | gpio0
  | gpio1
  | gpio2
  | gpio3
  | uart
  deriving DecidableEq, Repr

def Interrupt.debug : Interrupt → String
  | timer1 => "Timer1"
  | timer3 => "Timer3"
  | usb => "Usb"
  | gpio0 => "Gpio0"
  | gpio1 => "Gpio1"
  | gpio2 => "Gpio2"
  | gpio3 => "Gpio3"
  | uart => "Uart"

def Interrupt.toU8 : Interrupt → UInt8
  | timer1 => 1
  | timer3 => 3
  | usb => 9
  | gpio0 => 49
  | gpio1 => 50
  | gpio2 => 51
  | gpio3 => 52
  | uart => 57

namespace Controller

structure Registers (σ : Type) where
  readIrqPending : Fin 2 → σ → UInt32 × σ
  writeEnableIrqs : Fin 2 → UInt32 → σ → σ
  writeDisableIrqs : Fin 2 → UInt32 → σ → σ

def indexAndOffset (irqno : UInt8) : Nat × Nat := (irqno.toNat / 32, irqno.toNat % 32)

def word (index : Nat) : Except Fault (Fin 2) :=
  if h : index < 2 then .ok ⟨index, h⟩
  else .error (.panic ("index out of bounds: the len is 2 but the index is " ++ toString index))

section
variable {σ : Type} (R : Registers σ)

def enable (int : Interrupt) (s : σ) : Except Fault σ := do
  let (index, offset) := indexAndOffset int.toU8
  let i ← word index
  return R.writeEnableIrqs i ((1 : UInt32) <<< UInt32.ofNat offset) s

def disable (int : Interrupt) (s : σ) : Except Fault σ := do
  let (index, offset) := indexAndOffset int.toU8
  let i ← word index
  return R.writeDisableIrqs i ((1 : UInt32) <<< UInt32.ofNat offset) s

def isPending (int : Interrupt) (s : σ) : Except Fault (Bool × σ) := do
  let (index, offset) := indexAndOffset int.toU8
  let i ← word index
  let (pending, s') := R.readIrqPending i s
  return (pending &&& (1 : UInt32) <<< UInt32.ofNat offset != 0, s')

end

/-! ## The controller -/

/-- Which interrupts are enabled, and which lines are up: a bit each. -/
structure Lines where
  enabled : Fin 2 → UInt32
  raised : Fin 2 → UInt32

def Lines.registers : Registers Lines where
  readIrqPending i s := (s.raised i &&& s.enabled i, s)
  writeEnableIrqs i v s := { s with enabled := Function.update s.enabled i (s.enabled i ||| v) }
  writeDisableIrqs i v s := { s with enabled := Function.update s.enabled i (s.enabled i &&& ~~~v) }

def bit (words : Fin 2 → UInt32) (n : Fin 64) : Bool :=
  (words ⟨n.val / 32, by omega⟩).toBitVec.getLsbD (n.val % 32)

def line (int : Interrupt) : Fin 64 := ⟨int.toU8.toNat, by cases int <;> decide⟩

inductive Op where
  | enable (int : Interrupt)
  | disable (int : Interrupt)
  deriving DecidableEq, Repr

def Op.run (s : Lines) : Op → Except Fault Lines
  | .enable int => Controller.enable Lines.registers int s
  | .disable int => Controller.disable Lines.registers int s

/-- What the operations leave of a bit: the last one on it decides. -/
def Op.leaves (n : Fin 64) (b : Bool) : Op → Bool
  | .enable int => if line int = n then true else b
  | .disable int => if line int = n then false else b

theorem getLsbD_one_shl {k i : Nat} (hk : k < 32) (hi : i < 32) :
    ((1 : UInt32) <<< UInt32.ofNat k).toBitVec.getLsbD i = decide (i = k) := by
  have hshift : ((UInt32.ofNat k).toBitVec % 32).toNat = k := by
    rw [BitVec.toNat_umod, UInt32.toNat_toBitVec, UInt32.toNat_ofNat_of_lt' (by simp only [UInt32.size]; omega),
      show (32 : BitVec 32).toNat = 32 from rfl, Nat.mod_eq_of_lt hk]
  rw [UInt32.toBitVec_shiftLeft, BitVec.shiftLeft_eq', hshift, BitVec.getLsbD_shiftLeft,
    show (1 : UInt32).toBitVec = 1#32 from rfl, BitVec.getLsbD_one]
  by_cases hik : i = k
  · simp [hik, hk]
  · have hne : i < k ∨ i - k ≠ 0 := by omega
    rcases hne with hlt | hne <;> simp [*]

theorem word_line (int : Interrupt) : word (indexAndOffset int.toU8).1 = .ok ⟨(line int).val / 32, by omega⟩ :=
  dif_pos (show (line int).val / 32 < 2 by omega)

theorem bit_update (words : Fin 2 → UInt32) (n m : Fin 64) (v : UInt32) (b : Bool)
    (hv : v.toBitVec.getLsbD (n.val % 32) =
      if m.val % 32 = n.val % 32 then b else (words ⟨m.val / 32, by omega⟩).toBitVec.getLsbD (n.val % 32)) :
    bit (Function.update words ⟨m.val / 32, by omega⟩ v) n = if m = n then b else bit words n := by
  unfold bit
  by_cases hw : (⟨n.val / 32, by omega⟩ : Fin 2) = ⟨m.val / 32, by omega⟩
  · have hdiv : n.val / 32 = m.val / 32 := congrArg Fin.val hw
    rw [hw, Function.update_self, hv]
    have hiff : m.val % 32 = n.val % 32 ↔ m = n := by
      rw [Fin.ext_iff]
      omega
    simp only [hiff]
  · have hne : m ≠ n := by
      rintro rfl
      exact hw rfl
    rw [Function.update_of_ne hw, if_neg hne]

def wordOf (int : Interrupt) : Fin 2 := ⟨(line int).val / 32, by omega⟩

def mask (int : Interrupt) : UInt32 := (1 : UInt32) <<< UInt32.ofNat ((line int).val % 32)

theorem getLsbD_mask (int : Interrupt) (n : Fin 64) :
    (mask int).toBitVec.getLsbD (n.val % 32) = decide (n.val % 32 = (line int).val % 32) :=
  getLsbD_one_shl (Nat.mod_lt _ (by decide)) (Nat.mod_lt _ (by decide))

theorem enable_eq (int : Interrupt) (s : Lines) : enable Lines.registers int s =
    .ok { s with enabled := Function.update s.enabled (wordOf int) (s.enabled (wordOf int) ||| mask int) } := by
  simp only [enable, word_line, bind, Except.bind]
  rfl

theorem disable_eq (int : Interrupt) (s : Lines) : disable Lines.registers int s =
    .ok { s with enabled := Function.update s.enabled (wordOf int) (s.enabled (wordOf int) &&& ~~~mask int) } := by
  simp only [disable, word_line, bind, Except.bind]
  rfl

theorem isPending_eq (int : Interrupt) (s : Lines) : isPending Lines.registers int s =
    .ok (s.raised (wordOf int) &&& s.enabled (wordOf int) &&& mask int != 0, s) := by
  simp only [isPending, word_line, bind, Except.bind]
  rfl

theorem Op.run_spec (op : Op) (s : Lines) :
    ∃ s', op.run s = .ok s' ∧ s'.raised = s.raised ∧ ∀ n, bit s'.enabled n = op.leaves n (bit s.enabled n) := by
  cases op with
  | enable int =>
    refine ⟨_, enable_eq int s, rfl, ?_⟩
    intro n
    refine bit_update s.enabled n (line int) _ true ?_
    rw [UInt32.toBitVec_or, BitVec.getLsbD_or, getLsbD_mask]
    by_cases hn : (line int).val % 32 = n.val % 32
    · simp [hn]
    · simp [hn, Ne.symm hn, wordOf]
  | disable int =>
    refine ⟨_, disable_eq int s, rfl, ?_⟩
    intro n
    refine bit_update s.enabled n (line int) _ false ?_
    rw [UInt32.toBitVec_and, UInt32.toBitVec_not, BitVec.getLsbD_and, BitVec.getLsbD_not, getLsbD_mask]
    have hlt : n.val % 32 < 32 := Nat.mod_lt _ (by decide)
    by_cases hn : (line int).val % 32 = n.val % 32
    · simp [hn]
    · simp [hn, Ne.symm hn, wordOf, hlt]

theorem isPending_spec (int : Interrupt) (s : Lines) :
    isPending Lines.registers int s = .ok (bit s.raised (line int) && bit s.enabled (line int), s) := by
  rw [isPending_eq]
  congr 2
  have hbits : ∀ i : Nat, i < 32 →
      (s.raised (wordOf int) &&& s.enabled (wordOf int) &&& mask int).toBitVec.getLsbD i =
      ((s.raised (wordOf int)).toBitVec.getLsbD i && (s.enabled (wordOf int)).toBitVec.getLsbD i &&
        decide (i = (line int).val % 32)) := by
    intro i hi
    rw [UInt32.toBitVec_and, UInt32.toBitVec_and, BitVec.getLsbD_and, BitVec.getLsbD_and, mask,
      getLsbD_one_shl (Nat.mod_lt _ (by decide)) hi]
  have hlt : (line int).val % 32 < 32 := Nat.mod_lt _ (by decide)
  by_cases hup : (bit s.raised (line int) && bit s.enabled (line int)) = true
  · rw [hup, bne_iff_ne]
    intro hzero
    have hbit := hbits _ hlt
    rw [hzero] at hbit
    simp only [UInt32.toBitVec_zero, BitVec.getLsbD_zero, decide_true, Bool.and_true] at hbit
    exact absurd (hbit.trans hup) (by simp)
  · rw [Bool.eq_false_iff.mpr hup, bne_eq_false_iff_eq]
    apply UInt32.toBitVec_inj.mp
    apply BitVec.eq_of_getLsbD_eq
    intro i hi
    rw [hbits i hi]
    by_cases hik : i = (line int).val % 32
    · subst hik
      simpa [bit, wordOf] using hup
    · simp [hik]

theorem isPending_timer1 {σ : Type} (R : Registers σ) (s : σ) : isPending R .timer1 s =
    .ok ((R.readIrqPending 0 s).1 &&& (1 : UInt32) <<< UInt32.ofNat 1 != 0, (R.readIrqPending 0 s).2) := rfl

/-! ## Any operations -/

def runAll (s : Lines) (ops : List Op) : Except Fault Lines := ops.foldlM Op.run s

/-- **Enabling and disabling.** Whatever the operations and their order, none of
them panics, the last one on an interrupt decides whether it is enabled, one
that no operation was on stays as it was, and `is_pending` tells of each
interrupt whether its line is up and it is enabled. -/
theorem runAll_spec (s : Lines) (ops : List Op) :
    ∃ s', runAll s ops = .ok s' ∧
      (∀ n, bit s'.enabled n = ops.foldl (fun b op => op.leaves n b) (bit s.enabled n)) ∧
      ∀ int, isPending Lines.registers int s' =
        .ok (bit s.raised (line int) &&
          ops.foldl (fun b op => op.leaves (line int) b) (bit s.enabled (line int)), s') := by
  have hrun : ∀ (ops : List Op) (s : Lines), ∃ s', runAll s ops = .ok s' ∧ s'.raised = s.raised ∧
      ∀ n, bit s'.enabled n = ops.foldl (fun b op => op.leaves n b) (bit s.enabled n) := by
    intro ops
    induction ops with
    | nil => exact fun s => ⟨s, rfl, rfl, fun _ => rfl⟩
    | cons op ops ih =>
      intro s
      obtain ⟨s₁, h₁, hraised₁, hbits₁⟩ := op.run_spec s
      obtain ⟨s₂, h₂, hraised₂, hbits₂⟩ := ih s₁
      refine ⟨s₂, ?_, hraised₂.trans hraised₁, ?_⟩
      · rw [runAll, List.foldlM_cons, h₁]
        exact h₂
      · intro n
        rw [hbits₂, hbits₁]
        rfl
  obtain ⟨s', h, hraised, hbits⟩ := hrun ops s
  refine ⟨s', h, hbits, ?_⟩
  intro int
  rw [isPending_spec, hraised, hbits]

end Controller

/-! ## The match of the timer -/

namespace Timer

structure TickRegisters (σ : Type) extends Registers σ where
  writeCS : UInt32 → σ → σ
  writeCOMPARE : Fin 4 → UInt32 → σ → σ

def TICK : UInt32 := 2 * 1000 * 1000

def tickIn {σ : Type} (R : TickRegisters σ) (us : UInt32) (s : σ) : σ :=
  let (lo, s₁) := R.CLO s
  let future := lo + us
  -- clear the timer 1 match detect status
  let s₂ := R.writeCS ((1 : UInt32) <<< 1) s₁
  -- set the compare value for timer 1
  R.writeCOMPARE 1 future s₂

/-- The counter, in microseconds, and timer 1: its compare value, and whether it
has matched since that was last cleared. -/
structure Match where
  now : Nat
  compare : UInt32
  detected : Bool
  accesses : Nat

namespace Match

def microsecond (b : Match) : Match :=
  { b with now := b.now + 1, detected := b.detected || (b.now + 1) % 2 ^ 32 == b.compare.toNat }

def elapse : Nat → Match → Match
  | 0, b => b
  | k + 1, b => elapse k b.microsecond

def access (delay : Nat → Nat) (b : Match) : Match :=
  { elapse (delay b.accesses) b with accesses := b.accesses + 1 }

def registers (delay : Nat → Nat) : TickRegisters Match where
  CLO b := (UInt32.ofNat (b.access delay).now, b.access delay)
  CHI b := (UInt32.ofNat ((b.access delay).now / 2 ^ 32), b.access delay)
  writeCS v b := { b.access delay with detected := (b.access delay).detected && v &&& 2 == 0 }
  writeCOMPARE i v b := if i = 1 then { b.access delay with compare := v } else b.access delay

theorem elapse_spec : ∀ (k : Nat) (b : Match), (elapse k b).now = b.now + k ∧ (elapse k b).compare = b.compare ∧
    (elapse k b).accesses = b.accesses ∧
    ((elapse k b).detected = true ↔
      b.detected = true ∨ ∃ t, b.now < t ∧ t ≤ b.now + k ∧ t % 2 ^ 32 = b.compare.toNat)
  | 0, b => by
    refine ⟨rfl, rfl, rfl, ?_⟩
    constructor
    · exact .inl
    · rintro (h | ⟨t, hlt, hle, -⟩)
      · exact h
      · omega
  | k + 1, b => by
    obtain ⟨hnow, hcmp, hacc, hdet⟩ := elapse_spec k b.microsecond
    refine ⟨?_, hcmp, hacc, ?_⟩
    · rw [elapse, hnow]
      simp only [microsecond]
      omega
    · rw [elapse, hdet]
      simp only [microsecond, Bool.or_eq_true, beq_iff_eq]
      constructor
      · rintro ((h | h) | ⟨t, hlt, hle, ht⟩)
        · exact .inl h
        · exact .inr ⟨b.now + 1, by omega, by omega, h⟩
        · exact .inr ⟨t, by omega, by omega, ht⟩
      · rintro (h | ⟨t, hlt, hle, ht⟩)
        · exact .inl (.inl h)
        · by_cases hfirst : t = b.now + 1
          · exact .inl (.inr (hfirst ▸ ht))
          · exact .inr ⟨t, by omega, by omega, ht⟩

section
variable {delay : Nat → Nat} {us : UInt32} {b b' : Match}

/-! ## One call of `tick_in` -/

def readAt (delay : Nat → Nat) (b : Match) : Nat := b.now + delay b.accesses

def clearedAt (delay : Nat → Nat) (b : Match) : Nat := readAt delay b + delay (b.accesses + 1)

def setAt (delay : Nat → Nat) (b : Match) : Nat := clearedAt delay b + delay (b.accesses + 2)

theorem toNat_future (n : Nat) (us : UInt32) : (UInt32.ofNat n + us).toNat = (n + us.toNat) % 2 ^ 32 := by
  rw [UInt32.toNat_add, UInt32.toNat_ofNat']
  omega

variable (delay us b) in
theorem tickIn_spec : (tickIn (registers delay) us b).now = setAt delay b ∧
    (tickIn (registers delay) us b).compare.toNat = (readAt delay b + us.toNat) % 2 ^ 32 ∧
    ((tickIn (registers delay) us b).detected = true ↔
      ∃ t, clearedAt delay b < t ∧ t ≤ setAt delay b ∧ t % 2 ^ 32 = b.compare.toNat) := by
  -- the states behind the three accesses
  obtain ⟨hnow₁, hcmp₁, hacc₁, -⟩ := elapse_spec (delay b.accesses) b
  let b₁ : Match := b.access delay
  have hb₁ : b₁.now = readAt delay b ∧ b₁.compare = b.compare ∧ b₁.accesses = b.accesses + 1 := ⟨hnow₁, hcmp₁, rfl⟩
  obtain ⟨hnow₂, hcmp₂, -, -⟩ := elapse_spec (delay b₁.accesses) b₁
  let b₂ : Match := (registers delay).writeCS ((1 : UInt32) <<< 1) b₁
  have hcleared : b₂.detected = false := Bool.and_false _
  have hb₂ : b₂.now = clearedAt delay b ∧ b₂.compare = b.compare ∧ b₂.accesses = b.accesses + 2 := by
    refine ⟨?_, hcmp₂.trans hb₁.2.1, ?_⟩
    · exact hnow₂.trans (by rw [hb₁.1, hb₁.2.2]; rfl)
    · exact congrArg (· + 1) hb₁.2.2
  obtain ⟨hnow₃, -, -, hdet₃⟩ := elapse_spec (delay b₂.accesses) b₂
  have hset : b₂.now + delay b₂.accesses = setAt delay b := by rw [hb₂.1, hb₂.2.2]; rfl
  refine ⟨hnow₃.trans hset, ?_, ?_⟩
  · have hfuture : (tickIn (registers delay) us b).compare = UInt32.ofNat b₁.now + us := rfl
    rw [hfuture, toNat_future, hb₁.1]
  · refine Iff.trans (show _ ↔ (elapse (delay b₂.accesses) b₂).detected = true from Iff.rfl) (hdet₃.trans ?_)
    rw [hcleared, hset, hb₂.1, hb₂.2.1]
    simp

structure Armed (deadline : Nat) (b : Match) : Prop where
  clear : b.detected = false
  ahead : b.now < deadline
  next : deadline < b.now + 2 ^ 32
  compare : deadline % 2 ^ 32 = b.compare.toNat

/-- The compare value is set before its time has passed, and the old one has no
match between the two writes. -/
def OnTime (delay : Nat → Nat) (us : UInt32) (b : Match) : Prop :=
  setAt delay b < readAt delay b + us.toNat ∧
    ∀ t, clearedAt delay b < t → t ≤ setAt delay b → t % 2 ^ 32 ≠ b.compare.toNat

theorem tickIn_armed (h : OnTime delay us b) :
    Armed (readAt delay b + us.toNat) (tickIn (registers delay) us b) := by
  obtain ⟨hnow, hcmp, hdet⟩ := tickIn_spec delay us b
  obtain ⟨hset, hold⟩ := h
  have hle : readAt delay b ≤ setAt delay b := by
    unfold setAt clearedAt
    omega
  have hus := us.toNat_lt
  refine ⟨?_, by rw [hnow]; exact hset, by rw [hnow]; omega, hcmp.symm⟩
  rw [← Bool.not_eq_true, hdet]
  rintro ⟨t, hlt, hle', ht⟩
  exact hold t hlt hle' ht

theorem Armed.elapse {deadline : Nat} (h : Armed deadline b) (k : Nat) :
    ((elapse k b).detected = true ↔ deadline ≤ b.now + k) ∧
      (b.now + k < deadline → Armed deadline (elapse k b)) := by
  obtain ⟨hnow, hcmp, -, hdet⟩ := elapse_spec k b
  have hahead := h.ahead
  have hnext := h.next
  have hcompare := h.compare
  have hiff : (Match.elapse k b).detected = true ↔ deadline ≤ b.now + k := by
    rw [hdet, h.clear]
    constructor
    · rintro (hf | ⟨t, hlt, hle, ht⟩)
      · cases hf
      · -- the compare value has one match in a turn of the lower half
        omega
    · intro hle
      exact .inr ⟨deadline, hahead, hle, hcompare⟩
  refine ⟨hiff, ?_⟩
  intro hlt
  refine ⟨?_, by omega, by omega, by rw [hcmp]; exact hcompare⟩
  rw [← Bool.not_eq_true, hiff]
  omega

end

/-! ## Tick after tick -/

section
variable {delay : Nat → Nat} {b b' : Match} {taken : List Nat}

def Due (taken : List Nat) (b : Match) : Prop :=
  ∃ deadline, (∀ t ∈ taken, t + TICK.toNat ≤ deadline) ∧
    ((Armed deadline b ∧ deadline ≤ b.now + TICK.toNat) ∨ (b.detected = true ∧ deadline ≤ b.now))

theorem elapse_detected (h : b.detected = true) (k : Nat) : (elapse k b).detected = true :=
  (elapse_spec k b).2.2.2.mpr (.inl h)

theorem Due.elapse (h : Due taken b) (k : Nat) : Due taken (elapse k b) := by
  obtain ⟨deadline, hlate, ⟨harmed, hnear⟩ | ⟨hdet, hpast⟩⟩ := h
  · have hnow := (elapse_spec k b).1
    refine ⟨deadline, hlate, ?_⟩
    by_cases hk : b.now + k < deadline
    · exact .inl ⟨(harmed.elapse k).2 hk, by omega⟩
    · exact .inr ⟨(harmed.elapse k).1.mpr (by omega), by omega⟩
  · have hnow := (elapse_spec k b).1
    exact ⟨deadline, hlate, .inr ⟨elapse_detected hdet k, by omega⟩⟩

theorem Due.now (h : Due taken b) (hdet : b.detected = true) : ∀ t ∈ taken, t + TICK.toNat ≤ b.now := by
  obtain ⟨deadline, hlate, ⟨harmed, -⟩ | ⟨-, hpast⟩⟩ := h
  · rw [harmed.clear] at hdet
    cases hdet
  · intro t ht
    exact Nat.le_trans (hlate t ht) hpast

theorem Due.irq (h : Due taken b) (hdet : b.detected = true) {k : Nat}
    (htime : OnTime delay TICK (Match.elapse k b)) :
    Due (taken ++ [b.now]) (tickIn (registers delay) TICK (Match.elapse k b)) := by
  have hnow := (elapse_spec k b).1
  have hset := (tickIn_spec delay TICK (Match.elapse k b)).1
  have hread : b.now ≤ readAt delay (Match.elapse k b) := by
    unfold readAt
    omega
  refine ⟨readAt delay (Match.elapse k b) + TICK.toNat, ?_, .inl ⟨tickIn_armed htime, ?_⟩⟩
  · intro t ht
    rcases List.mem_append.mp ht with ht | ht
    · have hlate := h.now hdet t ht
      omega
    · rw [List.mem_singleton.mp ht]
      omega
  · rw [hset]
    unfold setAt clearedAt
    omega

end

end Match

end Timer

end Osymandias

import Osymandias.Aarch64

/-!
# AArch64 before the kernel

The instructions of start-up code: branches, system registers of every
exception level, and the `eret` that lowers the level. A program is a list of
labelled blocks in the order of the source. The machine stops at an access to a
register of a higher level, at a store that is not aligned, as there is no
translation yet, and at one into the program.
-/

namespace Aarch64.Reset

inductive SysReg where
  | MPIDR_EL1 | CurrentEL | CPACR_EL1 | SCTLR_EL1 | VBAR_EL1
  | SP_EL1 | CNTHCTL_EL2 | CNTVOFF_EL2 | HCR_EL2 | CPTR_EL2 | SPSR_EL2 | ELR_EL2
  | SCR_EL3 | SPSR_EL3 | ELR_EL3
  deriving DecidableEq, Repr

/-- The lowest exception level that may access a register. -/
def SysReg.level : SysReg → Nat
  | .MPIDR_EL1 | .CurrentEL | .CPACR_EL1 | .SCTLR_EL1 | .VBAR_EL1 => 1
  | .SP_EL1 | .CNTHCTL_EL2 | .CNTVOFF_EL2 | .HCR_EL2 | .CPTR_EL2 | .SPSR_EL2 | .ELR_EL2 => 2
  | .SCR_EL3 | .SPSR_EL3 | .ELR_EL3 => 3

/-- `msr s none` moves from `xzr`, `strPost n off` is `str xzr, [n], #off`, and
`ldr d l` loads the value of a symbol from the literal pool. -/
inductive Instr (L : Type) where
  | mrs (d : Fin 31) (s : SysReg)
  | msr (s : SysReg) (n : Option (Fin 31))
  | and (d n : Fin 31) (imm : BitVec 64)
  | orr (d n : Fin 31) (imm : BitVec 64)
  | lsr (d n : Fin 31) (shift : Nat)
  | sub (d n : Fin 31) (imm : BitVec 64)
  | mov (d : Fin 31) (imm : BitVec 64)
  | movk (d : Fin 31) (imm : BitVec 64) (shift : Nat)
  | movSp (n : Fin 31)
  | adr (d : Fin 31) (l : L)
  | ldr (d : Fin 31) (l : L)
  | strPost (n : Fin 31) (off : BitVec 64)
  | cmp (n : Fin 31) (imm : BitVec 64)
  | b (l : L)
  | beq (l : L)
  | bne (l : L)
  | cbz (n : Fin 31) (l : L)
  | cbnz (n : Fin 31) (l : L)
  | bl (l : L)
  | eret
  | wfe

inductive Level where
  | el0 | el1 | el2 | el3
  deriving DecidableEq, Repr

def Level.num : Level → Nat
  | .el0 => 0
  | .el1 => 1
  | .el2 => 2
  | .el3 => 3

theorem Level.one_le_num : ∀ {el : Level}, el ≠ .el0 → 1 ≤ el.num
  | .el0, h => absurd rfl h
  | .el1, _ | .el2, _ | .el3, _ => Nat.succ_pos _

def Level.ofBits (v : BitVec 2) : Level :=
  match v.toNat with
  | 0 => .el0
  | 1 => .el1
  | 2 => .el2
  | _ => .el3

inductive Pc where
  | at (i : Nat)
  | outside (a : Addr)
  deriving DecidableEq

/-- `daif` masks exceptions, and `spSel` tells whether `sp` is that of the
exception level or that of level 0. -/
structure State where
  pc : Pc
  el : Level
  spSel : Bool
  daif : BitVec 4
  z : Bool
  x : Fin 31 → BitVec 64
  sys : SysReg → BitVec 64
  sp : Level → Addr
  mem : Addr → UInt8

namespace State

def bank (s : State) : Level := if s.spSel then s.el else .el0

def setX (s : State) (d : Fin 31) (v : BitVec 64) : State := { s with x := Function.update s.x d v }

def next (s : State) : State :=
  { s with pc := match s.pc with
    | .at i => .at (i + 1)
    | .outside a => .outside a }

def goto (s : State) (pc : Pc) : State := { s with pc }

def readSys (s : State) : SysReg → BitVec 64
  | .CurrentEL => BitVec.ofNat 64 s.el.num <<< 2
  | .SP_EL1 => s.sp .el1
  | r => s.sys r

def writeSys (s : State) (r : SysReg) (v : BitVec 64) : State :=
  match r with
  | .SP_EL1 => { s with sp := Function.update s.sp .el1 v }
  | r => { s with sys := Function.update s.sys r v }

end State

/-- A program, where it is loaded, and the values of the symbols that it does not define. -/
structure Image (L : Type) where
  blocks : List (L × List (Instr L))
  base : Addr
  sym : L → BitVec 64

namespace Image

variable {L : Type} (p : Image L)

def code : List (Instr L) := p.blocks.flatMap Prod.snd

section
variable [DecidableEq L]

def position : List (L × List (Instr L)) → Nat → L → Option Nat
  | [], _, _ => none
  | (l', is) :: bs, i, l => if l' = l then some i else position bs (i + is.length) l

def pos (l : L) : Option Nat := position p.blocks 0 l

def pcOf (l : L) : Pc :=
  match p.pos l with
  | some i => .at i
  | none => .outside (p.sym l)

def value (l : L) : BitVec 64 :=
  match p.pos l with
  | some i => p.base + .ofNat 64 (4 * i)
  | none => p.sym l

end

def locate (a : Addr) : Pc :=
  let d := (a - p.base).toNat
  if d % 4 = 0 ∧ d / 4 < p.code.length then .at (d / 4) else .outside a

def holds (a : Addr) : Prop := (a - p.base).toNat < 4 * p.code.length

instance (a : Addr) : Decidable (p.holds a) := inferInstanceAs (Decidable (_ < _))

/-- `eret` takes the level, the stack pointer's selection and the masks from the
saved program status. -/
def ret (s : State) (spsr elr : BitVec 64) : State :=
  { s with
    pc := p.locate elr
    el := .ofBits (spsr.extractLsb' 2 2)
    spSel := spsr.getLsbD 0
    daif := spsr.extractLsb' 6 4 }

variable [DecidableEq L]

def exec (s : State) : Instr L → Option State
  | .mrs d r => if r.level ≤ s.el.num then some (s.setX d (s.readSys r)).next else none
  | .msr r n => if r.level ≤ s.el.num then some (s.writeSys r (n.elim 0 s.x)).next else none
  | .and d n imm => some (s.setX d (s.x n &&& imm)).next
  | .orr d n imm => some (s.setX d (s.x n ||| imm)).next
  | .lsr d n shift => some (s.setX d (s.x n >>> shift)).next
  | .sub d n imm => some (s.setX d (s.x n - imm)).next
  | .mov d imm => some (s.setX d imm).next
  | .movk d imm shift => some (s.setX d (s.x d &&& ~~~(0xffff#64 <<< shift) ||| imm <<< shift)).next
  | .movSp n => some { s with sp := Function.update s.sp s.bank (s.x n) }.next
  | .adr d l | .ldr d l => some (s.setX d (p.value l)).next
  | .strPost n off =>
    if 8 ∣ (s.x n).toNat ∧ ∀ a ∈ Bytes.cells (s.x n) 8, ¬ p.holds a then
      some ({ s with mem := Bytes.write s.mem (s.x n) 8 0 }.setX n (s.x n + off)).next
    else none
  | .cmp n imm => some { s with z := s.x n == imm }.next
  | .b l => some (s.goto (p.pcOf l))
  | .beq l => some (if s.z then s.goto (p.pcOf l) else s.next)
  | .bne l => some (if s.z then s.next else s.goto (p.pcOf l))
  | .cbz n l => some (if s.x n = 0 then s.goto (p.pcOf l) else s.next)
  | .cbnz n l => some (if s.x n = 0 then s.next else s.goto (p.pcOf l))
  | .bl l => match s.pc with
    | .at i => some ((s.setX 30 (p.base + .ofNat 64 (4 * (i + 1)))).goto (p.pcOf l))
    | .outside _ => none
  | .eret => match s.el with
    | .el2 => some (p.ret s (s.sys .SPSR_EL2) (s.sys .ELR_EL2))
    | .el3 => some (p.ret s (s.sys .SPSR_EL3) (s.sys .ELR_EL3))
    | _ => none
  | .wfe => some s.next

/-- Outside the program the machine is left alone. -/
def step (s : State) : Option State :=
  match s.pc with
  | .at i => (p.code[i]?).bind (p.exec s)
  | .outside _ => some s

def run : Nat → State → Option State
  | 0, s => some s
  | n + 1, s => (p.step s).bind (run n)

/-! ## Runs -/

variable {p} {s s' : State}

theorem run_add : ∀ (n k : Nat) (s : State), p.run (n + k) s = (p.run n s).bind (p.run k)
  | 0, k, s => by
    rw [Nat.zero_add]
    rfl
  | n + 1, k, s => by
    rw [Nat.succ_add, run, run, Option.bind_assoc]
    congr 1
    funext s'
    exact run_add n k s'

theorem run_trans {n k : Nat} {s'' : State} (h₁ : p.run n s = some s') (h₂ : p.run k s' = some s'') :
    p.run (n + k) s = some s'' := by
  rw [run_add, h₁]
  exact h₂

theorem run_snoc {n : Nat} {s'' : State} (h₁ : p.run n s = some s') (h₂ : p.step s' = some s'') :
    p.run (n + 1) s = some s'' :=
  run_trans h₁ (by rw [run, h₂, Option.bind_some, run])

theorem run_step {n : Nat} (h₁ : p.step s = some s') : p.run (n + 1) s = p.run n s' := by
  rw [run, h₁]
  rfl

theorem step_at {i : Nat} {ins : Instr L} (hpc : s.pc = .at i) (hi : p.code[i]? = some ins) :
    p.step s = p.exec s ins := by
  rw [step, hpc]
  simp only [hi, Option.bind_some]

theorem step_cmp {i : Nat} {n : Fin 31} {imm : BitVec 64} (hpc : s.pc = .at i)
    (hi : p.code[i]? = some (.cmp n imm)) : p.step s = some { s with pc := .at (i + 1), z := s.x n == imm } := by
  rw [step_at hpc hi, exec, State.next]
  simp only [hpc]

theorem run_outside {a : Addr} (h : s.pc = .outside a) : ∀ n, p.run n s = some s
  | 0 => rfl
  | n + 1 => by
    have hstep : p.step s = some s := by rw [step, h]
    rw [run_step hstep]
    exact run_outside h n

theorem run_le {n k : Nat} (hle : n ≤ k) (h : p.run n s = some s') : p.run k s = p.run (k - n) s' := by
  obtain ⟨j, rfl⟩ := Nat.exists_eq_add_of_le hle
  rw [run_add, h, Nat.add_sub_cancel_left]
  rfl

theorem runs_inside {n : Nat} (h : p.run n s = some s')
    (hin : ∀ k s'', p.run k s' = some s'' → ∃ i, s''.pc = .at i) {k : Nat} {s'' : State}
    (h'' : p.run k s = some s'') : ∃ i, s''.pc = .at i := by
  obtain hk | hk := Nat.le_total n k
  · rw [run_le hk h] at h''
    exact hin (k - n) s'' h''
  · match hpc : s''.pc with
    | .at i => exact ⟨i, rfl⟩
    | .outside a =>
      rw [run_le hk h'', run_outside hpc] at h
      obtain ⟨i, hi⟩ := hin 0 s' rfl
      cases h
      exact absurd (hpc.symm.trans hi) nofun

theorem run_outside_unique {n k : Nat} {s'' : State} {a b : Addr} (h₁ : p.run n s = some s')
    (ha : s'.pc = .outside a) (h₂ : p.run k s = some s'') (hb : s''.pc = .outside b) : s'' = s' := by
  obtain hle | hle := Nat.le_total n k
  · rw [run_le hle h₁, run_outside ha] at h₂
    exact (Option.some.inj h₂).symm
  · rw [run_le hle h₂, run_outside hb] at h₁
    exact Option.some.inj h₁

theorem run_isSome {n : Nat} {a : Addr} (h : p.run n s = some s') (ha : s'.pc = .outside a) (k : Nat) :
    (p.run k s).isSome := by
  obtain hk | hk := Nat.le_total n k
  · rw [run_le hk h, run_outside ha]
    rfl
  · obtain ⟨j, rfl⟩ := Nat.exists_eq_add_of_le hk
    rw [run_add] at h
    obtain ⟨s₁, h₁, -⟩ := Option.bind_eq_some_iff.mp h
    rw [h₁]
    rfl

theorem run_invariant {I : State → Prop} (hstep : ∀ s, I s → ∃ s', p.step s = some s' ∧ I s') :
    ∀ (n : Nat) {s : State}, I s → ∃ s', p.run n s = some s' ∧ I s'
  | 0, s, hs => ⟨s, rfl, hs⟩
  | n + 1, s, hs => by
    obtain ⟨s₁, h₁, hs₁⟩ := hstep s hs
    obtain ⟨s', h', hs'⟩ := run_invariant hstep n hs₁
    exact ⟨s', by rw [run_step h₁, h'], hs'⟩

theorem run_preserves {I : State → Prop} (hstep : ∀ s s', I s → p.step s = some s' → I s') :
    ∀ {n : Nat} {s s' : State}, p.run n s = some s' → I s → I s'
  | 0, s, s', h, hs => by
    cases h
    exact hs
  | n + 1, s, s', h, hs => by
    obtain ⟨s₁, h₁, h'⟩ := Option.bind_eq_some_iff.mp h
    exact run_preserves hstep h' (hstep s s₁ hs h₁)

omit [DecidableEq L] in
theorem locate_at {i : Nat} (hi : i < p.code.length) (hlen : 4 * p.code.length ≤ 2 ^ 64) :
    p.locate (p.base + .ofNat 64 (4 * i)) = .at i := by
  have hd : (p.base + BitVec.ofNat 64 (4 * i) - p.base).toNat = 4 * i := by
    rw [add_sub_cancel_left, BitVec.toNat_ofNat]
    exact Nat.mod_eq_of_lt (by omega)
  simp only [locate, hd]
  rw [if_pos ⟨by omega, by omega⟩]
  congr 1
  omega

/-! ## A loop that waits -/

/-- `wfe; b halt` at `i`. -/
structure HaltLoop (p : Image L) (i : Nat) (halt : L) : Prop where
  wfe : p.code[i]? = some .wfe
  b : p.code[i + 1]? = some (.b halt)
  halt_at : p.pcOf halt = .at i

theorem HaltLoop.step {i : Nat} {halt : L} (h : p.HaltLoop i halt) (hpc : s.pc = .at i ∨ s.pc = .at (i + 1)) :
    ∃ s', p.step s = some s' ∧ (s'.pc = .at i ∨ s'.pc = .at (i + 1)) ∧ s' = s.goto s'.pc := by
  obtain hpc | hpc := hpc
  · exact ⟨s.next, step_at hpc h.wfe, .inr (by rw [State.next, hpc]), rfl⟩
  · exact ⟨s.goto (.at i), by rw [step_at hpc h.b, exec, h.halt_at], .inl rfl, rfl⟩

/-! ## A loop that clears memory -/

/-- `cbz x2, go; str xzr, [x1], #8; sub x2, x2, #8; cbnz x2, loop` at `i`. -/
structure ZeroLoop (p : Image L) (i : Nat) (loop go : L) : Prop where
  cbz : p.code[i]? = some (.cbz 2 go)
  str : p.code[i + 1]? = some (.strPost 1 8)
  sub : p.code[i + 2]? = some (.sub 2 2 8)
  cbnz : p.code[i + 3]? = some (.cbnz 2 loop)
  loop_at : p.pcOf loop = .at i
  go_at : p.pcOf go = .at (i + 4)

def zeroed (m : Addr → UInt8) (a : Addr) (n : Nat) : Addr → UInt8 := fun b => if (b - a).toNat < n then 0 else m b

theorem write_zero (m : Addr → UInt8) (a : Addr) {n : Nat} (hn : n ≤ 2 ^ 64) :
    Bytes.write m a n 0 = zeroed m a n := by
  have hmem : ∀ (n : Nat) (a : Addr) {b : Addr}, b ∈ Bytes.cells a n → Bytes.write m a n 0 b = 0 := by
    intro n
    induction n with
    | zero => intro a b hb; cases hb
    | succ n ih =>
      intro a b hb
      by_cases hba : b = a
      · simp [Bytes.write, hba]
      · simp only [Bytes.write, if_neg hba]
        exact ih (a + 1) ((List.mem_cons.mp hb).resolve_left hba)
  funext b
  unfold zeroed
  by_cases hb : (b - a).toNat < n
  · rw [if_pos hb]
    exact hmem n a ((Bytes.mem_cells_bv hn).mpr hb)
  · rw [if_neg hb]
    exact Bytes.write_of_not_mem m n a 0 fun h => hb ((Bytes.mem_cells_bv hn).mp h)

theorem toNat_sub_eight (v : BitVec 64) : (v - 8).toNat = (v.toNat + (2 ^ 64 - 8)) % 2 ^ 64 := by
  rw [BitVec.toNat_sub, Nat.add_comm]
  rfl

theorem toNat_sub_add_eight (a b : Addr) : (b - (a + 8)).toNat = ((b - a).toNat + (2 ^ 64 - 8)) % 2 ^ 64 := by
  rw [← sub_sub, toNat_sub_eight]

theorem zeroed_zeroed (m : Addr → UInt8) (a : Addr) {n : Nat} (hn : n + 8 < 2 ^ 64) :
    zeroed (zeroed m a 8) (a + 8) n = zeroed m a (n + 8) := by
  funext b
  have hd := toNat_sub_add_eight a b
  have hlt := (b - a).isLt
  unfold zeroed
  rw [hd]
  by_cases h8 : (b - a).toNat < 8
  · rw [if_pos h8, if_pos (show (b - a).toNat < n + 8 by omega), ite_self]
  · rw [if_neg h8]
    by_cases hn' : (b - a).toNat < n + 8
    · rw [if_pos hn', if_pos (by omega)]
    · rw [if_neg hn', if_neg (by omega)]

/-- The words of the range at `a` are aligned and no part of the program. -/
structure Clearable (p : Image L) (a : Addr) (n : Nat) : Prop where
  aligned : 8 ∣ a.toNat
  apart : ∀ b : Addr, (b - a).toNat < n → ¬ p.holds b

section
omit [DecidableEq L]

theorem Clearable.mono {a : Addr} {n k : Nat} (h : p.Clearable a n) (hle : k ≤ n) : p.Clearable a k :=
  ⟨h.aligned, fun b hb => h.apart b (by omega)⟩

theorem Clearable.tail {a : Addr} {n : Nat} (h : p.Clearable a (n + 8)) (hn : n + 8 < 2 ^ 64) :
    p.Clearable (a + 8) n := by
  have ha := h.aligned
  constructor
  case aligned =>
    have h8 : (a + 8).toNat = (a.toNat + 8) % 2 ^ 64 := BitVec.toNat_add ..
    omega
  case apart =>
    intro b hb
    have hlt := (b - a).isLt
    rw [toNat_sub_add_eight] at hb
    exact h.apart b (by omega)

theorem Clearable.store {a : Addr} (h : p.Clearable a 8) :
    8 ∣ a.toNat ∧ ∀ b ∈ Bytes.cells a 8, ¬ p.holds b :=
  ⟨h.aligned, fun b hb => h.apart b ((Bytes.mem_cells_bv (by decide)).mp hb)⟩

end

section
variable {i : Nat} {loop go : L}

theorem ZeroLoop.turn (h : p.ZeroLoop i loop go) (hpc : s.pc = .at i) (hx : s.x 2 ≠ 0)
    (hdata : p.Clearable (s.x 1) 8) :
    ∃ s', p.run 4 s = some s' ∧ s'.x 1 = s.x 1 + 8 ∧ s'.x 2 = s.x 2 - 8 ∧ (∀ r, r ≠ 1 → r ≠ 2 → s'.x r = s.x r) ∧
      s' = { s with
        pc := if s.x 2 - 8 = 0 then .at (i + 4) else .at i, x := s'.x, mem := zeroed s.mem (s.x 1) 8 } := by
  obtain ⟨pc, el, spSel, daif, z, x, sys, sp, mem⟩ := s
  subst hpc
  have hcbz : p.step ⟨.at i, el, spSel, daif, z, x, sys, sp, mem⟩ =
      some ⟨.at (i + 1), el, spSel, daif, z, x, sys, sp, mem⟩ := by
    rw [step_at rfl h.cbz, exec, if_neg hx]
    rfl
  have hstr : p.step ⟨.at (i + 1), el, spSel, daif, z, x, sys, sp, mem⟩ =
      some ⟨.at (i + 2), el, spSel, daif, z, Function.update x 1 (x 1 + 8), sys, sp,
        Bytes.write mem (x 1) 8 0⟩ := by
    rw [step_at rfl h.str, exec, if_pos hdata.store]
    rfl
  have hx1 : Function.update x 1 (x 1 + 8) 2 = x 2 := Function.update_of_ne (by decide) ..
  rw [run_step hcbz, run_step hstr, run_step (step_at rfl h.sub), run_step (step_at rfl h.cbnz)]
  refine ⟨_, rfl, ?_, ?_, ?_, ?_⟩
  all_goals
    simp only [State.setX, State.next, State.goto, h.loop_at, write_zero mem (x 1) (show 8 ≤ 2 ^ 64 by decide)]
  · split <;> simp
  · split <;> simp
  · intro r h₁ h₂
    split <;> simp [h₁, h₂]
  · simp only [Function.update_self, hx1]
    split <;> rfl

theorem ZeroLoop.zeroes (h : p.ZeroLoop i loop go) : ∀ (k : Nat) {s : State}, s.pc = .at i → (s.x 2).toNat = 8 * k →
    p.Clearable (s.x 1) (8 * k) → ∃ n s', p.run n s = some s' ∧ (∀ r, r ≠ 1 → r ≠ 2 → s'.x r = s.x r) ∧
      s' = { s with pc := .at (i + 4), x := s'.x, mem := zeroed s.mem (s.x 1) (8 * k) }
  | 0, s, hpc, hx, _ => by
    have hx0 : s.x 2 = 0 := BitVec.eq_of_toNat_eq hx
    have hstep : p.step s = some (s.goto (.at (i + 4))) := by
      rw [step_at hpc h.cbz, exec, if_pos hx0, h.go_at]
    have hmem : zeroed s.mem (s.x 1) (8 * 0) = s.mem := funext fun _ => if_neg (Nat.not_lt_zero _)
    refine ⟨1, s.goto (.at (i + 4)), by rw [run_step hstep, run], fun _ _ _ => rfl, ?_⟩
    rw [hmem]
    rfl
  | k + 1, s, hpc, hx, hdata => by
    have hlt := (s.x 2).isLt
    have hx8 : (s.x 2 - 8).toNat = 8 * k := by
      rw [toNat_sub_eight]
      omega
    have hne : s.x 2 ≠ 0 := fun e => absurd (hx.symm.trans (congrArg BitVec.toNat e)) (Nat.succ_ne_zero _)
    obtain ⟨s₁, h₁, hx1, hx2, hkeep, hs₁⟩ := h.turn hpc hne (hdata.mono (by omega))
    by_cases hk : k = 0
    · subst hk
      have hx0 : s.x 2 - 8 = 0 := BitVec.eq_of_toNat_eq hx8
      rw [if_pos hx0] at hs₁
      exact ⟨4, s₁, h₁, hkeep, hs₁⟩
    · have hx0 : s.x 2 - 8 ≠ 0 := fun e => hk (by rw [e] at hx8; exact by simpa using hx8.symm)
      rw [if_neg hx0] at hs₁
      have hpc₁ : s₁.pc = .at i := by rw [hs₁]
      have hdata₁ : p.Clearable (s₁.x 1) (8 * k) := by
        rw [hx1]
        exact hdata.tail (show 8 * k + 8 < 2 ^ 64 by omega)
      obtain ⟨n, s', hrun, hkeep', hs'⟩ := h.zeroes k hpc₁ (hx2 ▸ hx8) hdata₁
      have hmem : zeroed s₁.mem (s₁.x 1) (8 * k) = zeroed s.mem (s.x 1) (8 * (k + 1)) := by
        rw [hx1, hs₁]
        exact zeroed_zeroed s.mem (s.x 1) (by omega)
      refine ⟨4 + n, s', run_trans h₁ hrun, fun r hr₁ hr₂ => (hkeep' r hr₁ hr₂).trans (hkeep r hr₁ hr₂), ?_⟩
      rw [hmem] at hs'
      rw [hs', hs₁]

/-- A count that is not of whole words passes by zero, and the loop is never left. -/
theorem ZeroLoop.spins (h : p.ZeroLoop i loop go) (hpc : s.pc = .at i) (hx : ¬ 8 ∣ (s.x 2).toNat) {n : Nat}
    (hrun : p.run n s = some s') : ∃ j < 4, s'.pc = .at (i + j) := by
  have hstep : ∀ s s' : State, ((∃ j < 4, s.pc = .at (i + j)) ∧ ¬ 8 ∣ (s.x 2).toNat) → p.step s = some s' →
      (∃ j < 4, s'.pc = .at (i + j)) ∧ ¬ 8 ∣ (s'.x 2).toNat := by
    rintro s s' ⟨⟨j, hj, hpc⟩, hx⟩ hs
    have hne : s.x 2 ≠ 0 := fun e => hx (e ▸ Nat.dvd_zero 8)
    match j with
    | 0 =>
      rw [step_at hpc h.cbz, exec, if_neg hne] at hs
      cases hs
      refine ⟨⟨1, by decide, ?_⟩, hx⟩
      rw [State.next, hpc]
    | 1 =>
      rw [step_at hpc h.str, exec] at hs
      obtain ⟨-, hs⟩ := Option.ite_none_right_eq_some.mp hs
      cases hs
      refine ⟨⟨2, by decide, ?_⟩, ?_⟩
      · simp only [State.setX, State.next, hpc]
      · simpa [State.setX, State.next] using hx
    | 2 =>
      rw [step_at hpc h.sub, exec] at hs
      cases hs
      refine ⟨⟨3, by decide, ?_⟩, ?_⟩
      · simp only [State.setX, State.next, hpc]
      · simp only [State.setX, State.next, Function.update_self, toNat_sub_eight]
        omega
    | 3 =>
      rw [step_at hpc h.cbnz, exec, if_neg hne, h.loop_at] at hs
      cases hs
      exact ⟨⟨0, by decide, rfl⟩, hx⟩
  exact (run_preserves hstep hrun ⟨⟨0, by decide, hpc⟩, hx⟩).1

end

end Image

end Aarch64.Reset

import Osymandias.Reset

/-!
# From reset to `kmain`

`_start` of the kernel's `ext/init.S` and of the bootloader's: all cores but one
wait, and that one enters `kmain` with a stack below the image and with its
zero-initialised data cleared. The kernel's also leaves the exception levels
above EL1.
-/

namespace Osymandias.Boot

open Aarch64.Reset Aarch64.Reset.Image
open Aarch64 (Addr)

/-! ## Into `kmain` -/

section
variable {L : Type} [DecidableEq L] {p : Image L} {s s' : State}

/-- `mrs x1, MPIDR_EL1; and x1, x1, #3; cbz x1, setup` where the image starts, and the loop after it. -/
structure Cores (p : Image L) (setup halt : L) : Prop where
  mrs : p.code[0]? = some (.mrs 1 .MPIDR_EL1)
  and : p.code[1]? = some (.and 1 1 3)
  cbz : p.code[2]? = some (.cbz 1 setup)
  halt : p.HaltLoop 3 halt
  setup_at : p.pcOf setup = .at 5

/-- What the linker script does for the data to clear: it aligns them, and puts them behind the code. -/
structure Linked (p : Image L) (start length : L) : Prop where
  aligned : 8 ∣ (p.value start).toNat
  behind : 4 * p.code.length ≤ (p.value start - p.base).toNat
  fits : (p.value start - p.base).toNat + (p.value length).toNat ≤ 2 ^ 64

theorem Linked.clearable {start length : L} (h : Linked p start length) :
    p.Clearable (p.value start) (p.value length).toNat := by
  refine ⟨h.aligned, fun b hb hcode => ?_⟩
  have hd : b - p.base = b - p.value start + (p.value start - p.base) := (sub_add_sub_cancel ..).symm
  have hbehind := h.behind
  have hfits := h.fits
  rw [holds, hd, BitVec.toNat_add, Nat.mod_eq_of_lt (by omega)] at hcode
  omega

/-- `ldr x1, =start; ldr x2, =length`, the loop that clears, and `bl kmain` at `i`. -/
structure Entry (p : Image L) (i : Nat) (start length loop go kmain : L) : Prop where
  start : p.code[i]? = some (.ldr 1 start)
  length : p.code[i + 1]? = some (.ldr 2 length)
  loop : p.ZeroLoop (i + 2) loop go
  bl : p.code[i + 6]? = some (.bl kmain)

theorem Cores.first {setup halt : L} (h : Cores p setup halt) (hpc : s.pc = .at 0) (hel : s.el ≠ .el0) :
    ∃ s', p.run 2 s = some s' ∧ s'.x 1 = s.sys .MPIDR_EL1 &&& 3 ∧ s' = { s with pc := .at 2, x := s'.x } := by
  obtain ⟨pc, el, spSel, daif, z, x, sys, sp, mem⟩ := s
  subst hpc
  have hmrs : p.step ⟨.at 0, el, spSel, daif, z, x, sys, sp, mem⟩ =
      some ⟨.at 1, el, spSel, daif, z, Function.update x 1 (sys .MPIDR_EL1), sys, sp, mem⟩ := by
    rw [step_at rfl h.mrs]
    exact if_pos (Level.one_le_num hel)
  rw [run_step hmrs, run_step (step_at rfl h.and)]
  exact ⟨_, rfl, by simp [State.setX, State.next], rfl⟩

theorem Cores.setup {setup halt : L} (h : Cores p setup halt) (hpc : s.pc = .at 0) (hel : s.el ≠ .el0)
    (hcore : s.sys .MPIDR_EL1 &&& 3 = 0) :
    ∃ s', p.run 3 s = some s' ∧ s' = { s with pc := .at 5, x := s'.x } := by
  obtain ⟨s₁, hrun, hx, hs₁⟩ := h.first hpc hel
  have hstep : p.step s₁ = some (s₁.goto (.at 5)) := by
    rw [step_at (by rw [hs₁]) h.cbz, exec, if_pos (hx.trans hcore), h.setup_at]
  refine ⟨s₁.goto (.at 5), run_snoc hrun hstep, ?_⟩
  rw [hs₁]
  rfl

def Checked (s s' : State) : Prop :=
  s'.pc = .at 0 ∨ (s'.pc = .at 1 ∧ s'.x 1 = s.sys .MPIDR_EL1) ∨
    (s'.pc = .at 2 ∧ s'.x 1 = s.sys .MPIDR_EL1 &&& 3) ∨ s'.pc = .at 3 ∨ s'.pc = .at 4

theorem Cores.waits {setup halt : L} (h : Cores p setup halt) (hpc : s.pc = .at 0) (hel : s.el ≠ .el0)
    (hcore : s.sys .MPIDR_EL1 &&& 3 ≠ 0) (n : Nat) :
    ∃ s', p.run n s = some s' ∧ (∃ i < 5, s'.pc = .at i) ∧ s' = { s with pc := s'.pc, x := s'.x } := by
  have hstep : ∀ s', (Checked s s' ∧ s' = { s with pc := s'.pc, x := s'.x }) →
      ∃ s'', p.step s' = some s'' ∧ Checked s s'' ∧ s'' = { s with pc := s''.pc, x := s''.x } := by
    rintro ⟨pc, el, spSel, daif, z, x, sys, sp, mem⟩ ⟨hat, hs'⟩
    cases hs'
    obtain hat | ⟨hat, hx⟩ | ⟨hat, hx⟩ | hat | hat := hat <;> cases hat
    · rw [step_at rfl h.mrs]
      refine ⟨_, if_pos (Level.one_le_num hel), .inr (.inl ⟨rfl, ?_⟩), rfl⟩
      simp [State.setX, State.next, State.readSys]
    · refine ⟨_, step_at rfl h.and, .inr (.inr (.inl ⟨rfl, ?_⟩)), rfl⟩
      simp [State.setX, State.next, ← hx]
    · have hne : x 1 ≠ 0 := fun e => hcore (hx.symm.trans e)
      rw [step_at rfl h.cbz]
      exact ⟨_, congrArg some (if_neg hne), .inr (.inr (.inr (.inl rfl))), rfl⟩
    · obtain ⟨s', hs, hat, hs'⟩ := h.halt.step (s := { s with pc := .at 3, x := x }) (.inl rfl)
      exact ⟨s', hs, .inr (.inr (.inr hat)), by rw [hs']; rfl⟩
    · obtain ⟨s', hs, hat, hs'⟩ := h.halt.step (s := { s with pc := .at 4, x := x }) (.inr rfl)
      exact ⟨s', hs, .inr (.inr (.inr hat)), by rw [hs']; rfl⟩
  obtain ⟨s', hrun, hat, hs'⟩ := run_invariant (p := p) hstep n ⟨.inl hpc, rfl⟩
  refine ⟨s', hrun, ?_, hs'⟩
  obtain hat | ⟨hat, -⟩ | ⟨hat, -⟩ | hat | hat := hat
  all_goals exact ⟨_, by decide, hat⟩

section
variable {i : Nat} {start length loop go kmain : L}

theorem Entry.loads (h : Entry p i start length loop go kmain) (hpc : s.pc = .at i) :
    ∃ s', p.run 2 s = some s' ∧ s'.x 1 = p.value start ∧ s'.x 2 = p.value length ∧
      s' = { s with pc := .at (i + 2), x := s'.x } := by
  obtain ⟨pc, el, spSel, daif, z, x, sys, sp, mem⟩ := s
  subst hpc
  rw [run_step (step_at rfl h.start), run_step (step_at rfl h.length)]
  exact ⟨_, rfl, by simp [State.setX, State.next], by simp [State.setX, State.next], rfl⟩

theorem Entry.enters (h : Entry p i start length loop go kmain) (hdata : Linked p start length)
    (hpc : s.pc = .at i) (hlen : 8 ∣ (p.value length).toNat) :
    ∃ n s', p.run n s = some s' ∧ s'.x 30 = p.base + .ofNat 64 (4 * (i + 7)) ∧
      s' = { s with
        pc := p.pcOf kmain, x := s'.x, mem := zeroed s.mem (p.value start) (p.value length).toNat } := by
  obtain ⟨s₁, h₁, hx1, hx2, hs₁⟩ := h.loads hpc
  have hpc₁ : s₁.pc = .at (i + 2) := by rw [hs₁]
  obtain ⟨k, hk⟩ := hlen
  obtain ⟨n, s₂, h₂, -, hs₂⟩ := h.loop.zeroes k hpc₁ (by rw [hx2, hk]) (by rw [hx1, ← hk]; exact hdata.clearable)
  have hbl : p.step s₂ = some ((s₂.setX 30 (p.base + .ofNat 64 (4 * (i + 7)))).goto (p.pcOf kmain)) := by
    rw [step_at (by rw [hs₂]) h.bl, exec, hs₂]
  refine ⟨2 + n + 1, _, run_snoc (run_trans h₁ h₂) hbl, by simp [State.setX, State.goto], ?_⟩
  rw [hs₂, hx1, ← hk, hs₁]
  rfl

theorem Entry.spins (h : Entry p i start length loop go kmain) (hpc : s.pc = .at i)
    (hlen : ¬ 8 ∣ (p.value length).toNat) {n : Nat} (hrun : p.run n s = some s') : ∃ j, s'.pc = .at j := by
  obtain ⟨s₁, h₁, -, hx2, hs₁⟩ := h.loads hpc
  have hpc₁ : s₁.pc = .at (i + 2) := by rw [hs₁]
  refine runs_inside h₁ (fun k s₂ h₂ => ?_) hrun
  obtain ⟨j, -, hj⟩ := h.loop.spins hpc₁ (by rwa [hx2]) h₂
  exact ⟨i + 2 + j, hj⟩

theorem Entry.enters_iff (h : Entry p i start length loop go kmain) (hdata : Linked p start length) {a : Addr}
    (ha : p.pcOf kmain = .outside a) {n : Nat} (hrun : p.run n s = some s') (hpc : s'.pc = .at i) :
    ((∃ k s'', p.run k s = some s'' ∧ s''.pc = .outside a) ↔ 8 ∣ (p.value length).toNat) ∧
    ∀ k s'', p.run k s = some s'' → s''.pc = .outside a →
      (∀ k, (p.run k s).isSome) ∧ s''.x 30 = p.base + .ofNat 64 (4 * (i + 7)) ∧
      s'' = { s' with
        pc := .outside a, x := s''.x, mem := zeroed s'.mem (p.value start) (p.value length).toNat } := by
  by_cases hlen : 8 ∣ (p.value length).toNat
  · obtain ⟨k, s₁, h₁, hlr, hs₁⟩ := h.enters hdata hpc hlen
    have hout : s₁.pc = .outside a := by rw [hs₁, ha]
    refine ⟨iff_of_true ⟨n + k, s₁, run_trans hrun h₁, hout⟩ hlen, ?_⟩
    intro k' s'' h'' hout'
    refine ⟨run_isSome h'' hout', ?_⟩
    cases run_outside_unique (run_trans hrun h₁) hout h'' hout'
    exact ⟨hlr, ha ▸ hs₁⟩
  · have hnot : ∀ k s'', p.run k s = some s'' → s''.pc ≠ .outside a := by
      intro k s'' h'' hout
      obtain ⟨j, hj⟩ := runs_inside hrun (fun _ _ => h.spins hpc hlen) h''
      exact absurd (hout.symm.trans hj) nofun
    exact ⟨iff_of_false (fun ⟨k, s'', h'', hout⟩ => hnot k s'' h'' hout) hlen,
      fun k s'' h'' hout => absurd hout (hnot k s'' h'')⟩

end

end

/-! ## The bootloader -/

def atReset (el : Level) (core : BitVec 64) : State where
  pc := .at 0
  el := el
  spSel := true
  daif := 0
  z := false
  x i := .ofNat 64 (100 + i)
  sys := fun
    | .MPIDR_EL1 => 0x80000000 ||| core
    | .CPACR_EL1 => 0x5
    | _ => 0x7
  sp _ := 0x1000
  mem a := .ofNat a.toNat

namespace Loader

/-- `one` to `four` are the numbered labels. -/
inductive Label where
  | start | one | two | three | four | kmain | bssStart | bssLength
  deriving DecidableEq, Repr

open Label

def blocks : List (Label × List (Instr Label)) :=
  [(start,
    [.mrs 1 .MPIDR_EL1,
     .and 1 1 3,
     .cbz 1 two]),
   (one,
    [.wfe,
     .b one]),
   (two,
    [.ldr 1 start,
     .movSp 1,
     .ldr 1 bssStart,
     .ldr 2 bssLength]),
   (three,
    [.cbz 2 four,
     .strPost 1 8,
     .sub 2 2 8,
     .cbnz 2 three]),
   (four,
    [.bl kmain,
     .b one])]

def image (base : Addr) (sym : Label → BitVec 64) : Image Label := ⟨blocks, base, sym⟩

section
variable (base : Addr) (sym : Label → BitVec 64) {s s' : State}

theorem cores : Cores (image base sym) two one := ⟨rfl, rfl, rfl, ⟨rfl, rfl, rfl⟩, rfl⟩

theorem entry : Entry (image base sym) 7 bssStart bssLength three four kmain :=
  ⟨rfl, rfl, ⟨rfl, rfl, rfl, rfl, rfl, rfl⟩, rfl⟩

theorem sets_stack (hpc : s.pc = .at 5) : ∃ s', (image base sym).run 2 s = some s' ∧
    s' = { s with pc := .at 7, x := s'.x, sp := Function.update s.sp s.bank base } := by
  obtain ⟨pc, el, spSel, daif, z, x, sys, sp, mem⟩ := s
  subst hpc
  have hbase : base + .ofNat 64 (4 * 0) = base := BitVec.add_zero base
  have hrun : ∀ a, a = (image base sym).value start →
      (image base sym).run 2 ⟨.at 5, el, spSel, daif, z, x, sys, sp, mem⟩ = some ⟨.at 7, el, spSel, daif, z,
        Function.update x 1 a, sys, Function.update sp (if spSel then el else .el0) a, mem⟩ := by
    rintro a rfl
    rfl
  rw [hrun base hbase.symm]
  exact ⟨_, rfl, rfl⟩

theorem loader_enters (hdata : Linked (image base sym) bssStart bssLength) (hpc : s.pc = .at 0) (hel : s.el ≠ .el0)
    (hcore : s.sys .MPIDR_EL1 &&& 3 = 0) :
    ((∃ n s', (image base sym).run n s = some s' ∧ s'.pc = .outside (sym kmain)) ↔ 8 ∣ (sym bssLength).toNat) ∧
    ∀ n s', (image base sym).run n s = some s' → s'.pc = .outside (sym kmain) →
      (∀ n, ((image base sym).run n s).isSome) ∧ s' = { s with
        pc := .outside (sym kmain), x := s'.x, sp := Function.update s.sp s.bank base
        mem := zeroed s.mem (sym bssStart) (sym bssLength).toNat } ∧
      s'.x 30 = base + .ofNat 64 (4 * 14) := by
  obtain ⟨s₁, h₁, hs₁⟩ := (cores base sym).setup hpc hel hcore
  have hpc₁ : s₁.pc = .at 5 := by rw [hs₁]
  obtain ⟨s₂, h₂, hs₂⟩ := sets_stack base sym hpc₁
  have hpc₂ : s₂.pc = .at 7 := by rw [hs₂]
  obtain ⟨hiff, hin⟩ := (entry base sym).enters_iff hdata rfl (run_trans h₁ h₂) hpc₂
  refine ⟨hiff, fun k s' hrun hout => ?_⟩
  obtain ⟨hsome, hlr, hs'⟩ := hin k s' hrun hout
  refine ⟨hsome, ?_, hlr⟩
  rw [hs', hs₂, hs₁]
  rfl

def symbols : Label → BitVec 64
  | .kmain => 0x4000400
  | .bssStart => 0x4010000
  | .bssLength => 40
  | _ => 0

theorem loader_enters_el2 : ∃ n s', (image 0x4000000 symbols).run n (atReset .el2 0) = some s' ∧
    s'.pc = .outside 0x4000400 :=
  (loader_enters 0x4000000 symbols ⟨by decide, by decide, by decide⟩ rfl (by decide) (by decide)).1.mpr (by decide)

end

end Loader

/-! ## The kernel -/

inductive Label where
  | start | halt | setup | switchToEl2 | switchToEl1 | setStack | zeroBss | zeroBssLoop | goKmain
  | kmain | vectors | bssStart | bssLength
  deriving DecidableEq, Repr

open Label

def blocks : List (Label × List (Instr Label)) :=
  [(start,
    [.mrs 1 .MPIDR_EL1,
     .and 1 1 3,
     .cbz 1 setup]),
   (halt,
    [.wfe,
     .b halt]),
   (setup,
    [.adr 1 start,
     .mrs 0 .CurrentEL,
     .and 0 0 0b1100,
     .lsr 0 0 2]),
   (switchToEl2,
    [.cmp 0 3,
     .bne switchToEl1,
     .mov 2 0x5b1,
     .msr .SCR_EL3 (some 2),
     .mov 2 0x3c9,
     .msr .SPSR_EL3 (some 2),
     .adr 2 switchToEl1,
     .msr .ELR_EL3 (some 2),
     .eret]),
   (switchToEl1,
    [.cmp 0 1,
     .beq setStack,
     .msr .SP_EL1 (some 1),
     .mrs 0 .CNTHCTL_EL2,
     .orr 0 0 0b11,
     .msr .CNTHCTL_EL2 (some 0),
     .msr .CNTVOFF_EL2 none,
     .mov 0 (1 <<< 31),
     .orr 0 0 (1 <<< 1),
     .msr .HCR_EL2 (some 0),
     .mrs 0 .HCR_EL2,
     .msr .CPTR_EL2 none,
     .mrs 0 .CPACR_EL1,
     .orr 0 0 (0b11 <<< 20),
     .msr .CPACR_EL1 (some 0),
     .mov 2 0x0800,
     .movk 2 0x30d0 16,
     .msr .SCTLR_EL1 (some 2),
     .adr 2 vectors,
     .msr .VBAR_EL1 (some 2),
     .mov 2 0x3c5,
     .msr .SPSR_EL2 (some 2),
     .adr 2 setStack,
     .msr .ELR_EL2 (some 2),
     .eret]),
   (setStack,
    [.movSp 1]),
   (zeroBss,
    [.ldr 1 bssStart,
     .ldr 2 bssLength]),
   (zeroBssLoop,
    [.cbz 2 goKmain,
     .strPost 1 8,
     .sub 2 2 8,
     .cbnz 2 zeroBssLoop]),
   (goKmain,
    [.bl kmain,
     .b halt])]

def image (base : Addr) (sym : Label → BitVec 64) : Image Label := ⟨blocks, base, sym⟩

/-- The system registers as the kernel sets them on its way down to EL1. -/
structure Lowered (sym : Label → BitVec 64) (sys sys' : SysReg → BitVec 64) : Prop where
  vbar : sys' .VBAR_EL1 = sym vectors
  sctlr : sys' .SCTLR_EL1 = 0x30d00800
  hcr : sys' .HCR_EL2 = 1 <<< 31 ||| 1 <<< 1
  cptr : sys' .CPTR_EL2 = 0
  cpacr : sys' .CPACR_EL1 = sys .CPACR_EL1 ||| 0b11 <<< 20
  cnthctl : sys' .CNTHCTL_EL2 = sys .CNTHCTL_EL2 ||| 0b11
  cntvoff : sys' .CNTVOFF_EL2 = 0

/-- What the kernel sets up before it clears its data. -/
structure SetUp (base : Addr) (sym : Label → BitVec 64) (s s' : State) : Prop where
  el : s'.el = .el1
  sp : s'.sp s'.bank = base
  kept : s.el = .el1 → s'.sys = s.sys ∧ s'.daif = s.daif ∧ s'.spSel = s.spSel
  lowered : s.el ≠ .el1 → Lowered sym s.sys s'.sys ∧ s'.daif = 0b1111 ∧ s'.spSel = true

section
variable (base : Addr) (sym : Label → BitVec 64) {s s' : State}

theorem cores : Cores (image base sym) setup halt := ⟨rfl, rfl, rfl, ⟨rfl, rfl, rfl⟩, rfl⟩

theorem entry : Entry (image base sym) 44 bssStart bssLength zeroBssLoop goKmain kmain :=
  ⟨rfl, rfl, ⟨rfl, rfl, rfl, rfl, rfl, rfl⟩, rfl⟩

theorem ret_to {i : Nat} (hi : i < 52) (v : BitVec 64) :
    (image base sym).ret s v (base + .ofNat 64 (4 * i)) =
      { s with
        pc := .at i, el := .ofBits (v.extractLsb' 2 2), spSel := v.getLsbD 0, daif := v.extractLsb' 6 4 } := by
  have hat : (image base sym).locate (base + .ofNat 64 (4 * i)) = .at i :=
    locate_at hi (show 4 * 52 ≤ 2 ^ 64 by decide)
  rw [ret, hat]

theorem level_bits (el : Level) : (BitVec.ofNat 64 el.num <<< 2 &&& 0b1100) >>> 2 = .ofNat 64 el.num := by
  cases el <;> decide

theorem reads_level (hpc : s.pc = .at 5) (hel : s.el ≠ .el0) : ∃ s', (image base sym).run 4 s = some s' ∧
    s'.x 0 = .ofNat 64 s.el.num ∧ s'.x 1 = base ∧ s' = { s with pc := .at 9, x := s'.x } := by
  obtain ⟨pc, el, spSel, daif, z, x, sys, sp, mem⟩ := s
  subst hpc
  cases el with
  | el0 => exact absurd rfl hel
  | el1 => exact ⟨_, rfl, level_bits .el1, BitVec.add_zero base, rfl⟩
  | el2 => exact ⟨_, rfl, level_bits .el2, BitVec.add_zero base, rfl⟩
  | el3 => exact ⟨_, rfl, level_bits .el3, BitVec.add_zero base, rfl⟩

theorem stays_below_el3 (hpc : s.pc = .at 9) (hx : s.x 0 ≠ 3) :
    (image base sym).run 2 s = some { s with pc := .at 18, z := false } := by
  have hz : (s.x 0 == 3) = false := beq_false_of_ne hx
  have hcmp : (image base sym).step s = some { s with pc := .at 10, z := s.x 0 == 3 } := step_cmp hpc rfl
  rw [run_step hcmp, hz]
  rfl

theorem leaves_el3 (hpc : s.pc = .at 9) (hel : s.el = .el3) (hx : s.x 0 = 3) :
    ∃ s', (image base sym).run 9 s = some s' ∧ (∀ r : SysReg, r.level < 3 → s'.sys r = s.sys r) ∧
      s'.x 0 = 3 ∧ s'.x 1 = s.x 1 ∧
      s' = { s with
        pc := .at 18, el := .el2, spSel := true, daif := 0b1111, z := true, x := s'.x, sys := s'.sys } := by
  have hz : (s.x 0 == 3) = true := beq_iff_eq.mpr hx
  have hcmp : (image base sym).step s = some { s with pc := .at 10, z := s.x 0 == 3 } := step_cmp hpc rfl
  obtain ⟨pc, el, spSel, daif, z, x, sys, sp, mem⟩ := s
  subst hpc hel
  rw [run_step hcmp, hz]
  have hset : ∃ s₁, (image base sym).run 7 ⟨.at 10, .el3, spSel, daif, true, x, sys, sp, mem⟩ = some s₁ ∧
      s₁.sys .SPSR_EL3 = 0x3c9 ∧ s₁.sys .ELR_EL3 = base + .ofNat 64 (4 * 18) ∧
      (∀ r : SysReg, r.level < 3 → s₁.sys r = sys r) ∧ s₁.x 0 = x 0 ∧ s₁.x 1 = x 1 ∧
      s₁ = ⟨.at 17, .el3, spSel, daif, true, s₁.x, s₁.sys, sp, mem⟩ :=
    ⟨_, rfl, rfl, rfl, fun r h => by cases r <;> first | rfl | exact absurd h (by decide), rfl, rfl, rfl⟩
  obtain ⟨s₁, h₁, hspsr, helr, hsys, hx0, hx1, hs₁⟩ := hset
  have heret : (image base sym).step s₁ = some ((image base sym).ret s₁ 0x3c9 (base + .ofNat 64 (4 * 18))) := by
    rw [step_at (by rw [hs₁]) rfl, exec, ← hspsr, ← helr, hs₁]
  rw [ret_to base sym (by decide)] at heret
  refine ⟨_, run_snoc h₁ heret, hsys, hx0.trans hx, hx1, ?_⟩
  rw [hs₁]
  rfl

theorem stays_in_el1 (hpc : s.pc = .at 18) (hx : s.x 0 = 1) :
    (image base sym).run 2 s = some { s with pc := .at 43, z := true } := by
  have hz : (s.x 0 == 1) = true := beq_iff_eq.mpr hx
  have hcmp : (image base sym).step s = some { s with pc := .at 19, z := s.x 0 == 1 } := step_cmp hpc rfl
  rw [run_step hcmp, hz]
  rfl

theorem sctlr_value : (0x0800 &&& ~~~(0xffff#64 <<< 16) ||| 0x30d0 <<< 16 : BitVec 64) = 0x30d00800 := by decide

theorem leaves_el2 (hpc : s.pc = .at 18) (hel : s.el = .el2) (hx : s.x 0 ≠ 1) :
    ∃ s', (image base sym).run 25 s = some s' ∧ Lowered sym s.sys s'.sys ∧ s'.x 1 = s.x 1 ∧
      s' = { s with
        pc := .at 43, el := .el1, spSel := true, daif := 0b1111, z := false, x := s'.x, sys := s'.sys
        sp := Function.update s.sp .el1 (s.x 1) } := by
  have hz : (s.x 0 == 1) = false := beq_false_of_ne hx
  have hcmp : (image base sym).step s = some { s with pc := .at 19, z := s.x 0 == 1 } := step_cmp hpc rfl
  obtain ⟨pc, el, spSel, daif, z, x, sys, sp, mem⟩ := s
  subst hpc hel
  rw [run_step hcmp, hz]
  have hset : ∃ s₁, (image base sym).run 23 ⟨.at 19, .el2, spSel, daif, false, x, sys, sp, mem⟩ = some s₁ ∧
      s₁.sys .SPSR_EL2 = 0x3c5 ∧ s₁.sys .ELR_EL2 = base + .ofNat 64 (4 * 43) ∧
      Lowered sym sys s₁.sys ∧ s₁.x 1 = x 1 ∧
      s₁ = ⟨.at 42, .el2, spSel, daif, false, s₁.x, s₁.sys, Function.update sp .el1 (x 1), mem⟩ :=
    ⟨_, rfl, rfl, rfl, ⟨rfl, sctlr_value, rfl, rfl, rfl, rfl, rfl⟩, rfl, rfl⟩
  obtain ⟨s₁, h₁, hspsr, helr, hlow, hx1, hs₁⟩ := hset
  have heret : (image base sym).step s₁ = some ((image base sym).ret s₁ 0x3c5 (base + .ofNat 64 (4 * 43))) := by
    rw [step_at (by rw [hs₁]) rfl, exec, ← hspsr, ← helr, hs₁]
  rw [ret_to base sym (by decide)] at heret
  refine ⟨_, run_snoc h₁ heret, hlow, hx1, ?_⟩
  rw [hs₁]
  rfl

theorem sets_stack (hpc : s.pc = .at 43) :
    (image base sym).run 1 s = some { s with pc := .at 44, sp := Function.update s.sp s.bank (s.x 1) } := by
  obtain ⟨pc, el, spSel, daif, z, x, sys, sp, mem⟩ := s
  subst hpc
  rfl

theorem Lowered.of_kept {sys sys₁ sys' : SysReg → BitVec 64} (h : Lowered sym sys₁ sys')
    (hsys : ∀ r : SysReg, r.level < 3 → sys₁ r = sys r) : Lowered sym sys sys' where
  vbar := h.vbar
  sctlr := h.sctlr
  hcr := h.hcr
  cptr := h.cptr
  cpacr := by rw [h.cpacr, hsys _ (by decide)]
  cnthctl := by rw [h.cnthctl, hsys _ (by decide)]
  cntvoff := h.cntvoff

theorem sets_up_above {s₁ : State} (hs : s.el ≠ .el1) (hpc : s₁.pc = .at 18) (hel : s₁.el = .el2) (hx : s₁.x 0 ≠ 1)
    (hx1 : s₁.x 1 = base) (hsys : ∀ r : SysReg, r.level < 3 → s₁.sys r = s.sys r) (hmem : s₁.mem = s.mem) :
    ∃ s', (image base sym).run 26 s₁ = some s' ∧ s'.pc = .at 44 ∧ s'.mem = s.mem ∧ SetUp base sym s s' := by
  obtain ⟨s₂, h₂, hlow, hx1', hs₂⟩ := leaves_el2 base sym hpc hel hx
  have hpc₂ : s₂.pc = .at 43 := by rw [hs₂]
  refine ⟨_, run_trans h₂ (sets_stack base sym hpc₂), rfl, by rw [hs₂, ← hmem], ?_⟩
  constructor
  case el => rw [hs₂]
  case sp => exact (Function.update_self ..).trans (hx1'.trans hx1)
  case kept => exact fun e => absurd e hs
  case lowered =>
    refine fun _ => ⟨hlow.of_kept sym hsys, ?_, ?_⟩
    · rw [hs₂]
    · rw [hs₂]

theorem sets_up (hpc : s.pc = .at 5) (hel : s.el ≠ .el0) :
    ∃ n s', (image base sym).run n s = some s' ∧ s'.pc = .at 44 ∧ s'.mem = s.mem ∧ SetUp base sym s s' := by
  obtain ⟨s₁, h₁, hx0, hx1, hs₁⟩ := reads_level base sym hpc hel
  have hpc₁ : s₁.pc = .at 9 := by rw [hs₁]
  have hel₁ : s₁.el = s.el := by rw [hs₁]
  match h : s.el with
  | .el0 => exact absurd h hel
  | .el1 =>
    rw [h] at hx0
    have h₂ := stays_below_el3 base sym hpc₁ (by rw [hx0]; decide)
    have h₃ := stays_in_el1 base sym (s := { s₁ with pc := .at 18, z := false }) rfl hx0
    refine ⟨_, _, run_trans (run_trans (run_trans h₁ h₂) h₃) (sets_stack base sym rfl), rfl, by rw [hs₁], ?_⟩
    constructor
    case el => exact hel₁.trans h
    case sp => exact (Function.update_self ..).trans hx1
    case kept =>
      intro _
      rw [hs₁]
      exact ⟨rfl, rfl, rfl⟩
    case lowered => exact fun e => absurd h e
  | .el2 =>
    rw [h] at hx0
    have h₂ := stays_below_el3 base sym hpc₁ (by rw [hx0]; decide)
    have hpc₂ : ({ s₁ with pc := .at 18, z := false } : State).pc = .at 18 := rfl
    obtain ⟨s', h₃, hpc', hup⟩ := sets_up_above base sym (s := s) (by rw [h]; decide) hpc₂ (hel₁.trans h)
      (by rw [hx0]; decide) hx1 (fun r _ => by rw [hs₁]) (by rw [hs₁])
    exact ⟨_, s', run_trans (run_trans h₁ h₂) h₃, hpc', hup⟩
  | .el3 =>
    rw [h] at hx0
    obtain ⟨s₂, h₂, hsys, hx0', hx1', hs₂⟩ := leaves_el3 base sym hpc₁ (hel₁.trans h) hx0
    obtain ⟨s', h₃, hpc', hup⟩ := sets_up_above base sym (s := s) (by rw [h]; decide)
      (by rw [hs₂]) (by rw [hs₂]) (by rw [hx0']; decide) (hx1'.trans hx1)
      (fun r hr => by rw [hsys r hr, hs₁]) (by rw [hs₂, hs₁])
    exact ⟨_, s', run_trans (run_trans h₁ h₂) h₃, hpc', hup⟩

/-- **The first core enters `kmain` just if the data to clear are whole words.** -/
theorem kernel_enters (hdata : Linked (image base sym) bssStart bssLength) (hpc : s.pc = .at 0) (hel : s.el ≠ .el0)
    (hcore : s.sys .MPIDR_EL1 &&& 3 = 0) :
    ((∃ n s', (image base sym).run n s = some s' ∧ s'.pc = .outside (sym kmain)) ↔ 8 ∣ (sym bssLength).toNat) ∧
    ∀ n s', (image base sym).run n s = some s' → s'.pc = .outside (sym kmain) →
      (∀ n, ((image base sym).run n s).isSome) ∧ SetUp base sym s s' ∧
      s'.mem = zeroed s.mem (sym bssStart) (sym bssLength).toNat ∧
      s'.x 30 = base + .ofNat 64 (4 * 51) := by
  obtain ⟨s₁, h₁, hs₁⟩ := (cores base sym).setup hpc hel hcore
  have hpc₁ : s₁.pc = .at 5 := by rw [hs₁]
  obtain ⟨n, s₂, h₂, hpc₂, hmem, hup⟩ := sets_up base sym hpc₁ (by rwa [hs₁])
  obtain ⟨hiff, hin⟩ := (entry base sym).enters_iff hdata rfl (run_trans h₁ h₂) hpc₂
  refine ⟨hiff, fun k s' hrun hout => ?_⟩
  obtain ⟨hsome, hlr, hs'⟩ := hin k s' hrun hout
  refine ⟨hsome, ?_, ?_, hlr⟩
  · rw [hs₁] at hup
    rw [hs']
    exact ⟨hup.el, hup.sp, hup.kept, hup.lowered⟩
  · rw [hs', hmem, hs₁]
    rfl

def symbols : Label → BitVec 64
  | .kmain => 0x80200
  | .vectors => 0x80800
  | .bssStart => 0x90000
  | .bssLength => 24
  | _ => 0

theorem kernel_enters_el3 : ∃ n s', (image 0x80000 symbols).run n (atReset .el3 0) = some s' ∧
    s'.pc = .outside 0x80200 :=
  (kernel_enters 0x80000 symbols ⟨by decide, by decide, by decide⟩ rfl (by decide) (by decide)).1.mpr (by decide)

theorem other_cores_wait (lsym : Loader.Label → BitVec 64) (hpc : s.pc = .at 0) (hel : s.el ≠ .el0)
    (hcore : s.sys .MPIDR_EL1 &&& 3 ≠ 0) (n : Nat) :
    (∃ s', (image base sym).run n s = some s' ∧ (∃ i < 5, s'.pc = .at i) ∧
      s' = { s with pc := s'.pc, x := s'.x }) ∧
    ∃ s', (Loader.image base lsym).run n s = some s' ∧ (∃ i < 5, s'.pc = .at i) ∧
      s' = { s with pc := s'.pc, x := s'.x } :=
  ⟨(cores base sym).waits hpc hel hcore n, (Loader.cores base lsym).waits hpc hel hcore n⟩

theorem other_cores_wait_el2 : ∃ s', (image 0x80000 symbols).run 1000 (atReset .el2 2) = some s' ∧
    (∃ i < 5, s'.pc = .at i) ∧ s' = { atReset .el2 2 with pc := s'.pc, x := s'.x } :=
  (other_cores_wait 0x80000 symbols (fun _ => 0) rfl (by decide) (by decide) 1000).1

end

end Osymandias.Boot

import Osymandias.Aarch64
import Osymandias.TrapFrame

/-!
# Trap entry and exit

The exception vectors of `ext/init.S` and the frame they build, which
`traps/trap_frame.rs` names field by field. Entry pushes the frame in three
parts (the vector's own pair, 272 bytes, 512 bytes) and calls
`handle_exception` with its address; exit takes every register back from it.
-/

namespace Osymandias

open Aarch64

/-! ## The vectors -/

def TrapFrame.fieldOf : Reg → Option Field
  | .x i => some (.x i)
  | .q i => some (.q i)
  | .sys .ELR_EL1 => some .elr
  | .sys .SPSR_EL1 => some .spsr
  | .sys .SP_EL0 => some .sp
  | .sys .TPIDR_EL0 => some .tpidr
  | .sys .ESR_EL1 => none

abbrev lr : Reg := .x 30

/-- `HANDLER(source, kind)` down to its call of `context_save`. -/
def handlerEntry (source kind : Nat) : List Instr :=
  [.stpPre lr (.x 0) .sp (-16), .mov 0 source, .movk 0 kind 16, .bl 0]

/-- `context_save` down to its call of `handle_exception`. -/
def contextSave : List Instr :=
  [.add .sp .sp (-272),
   .str (.x 29) .sp 256,
   .stp (.x 27) (.x 28) .sp 240,
   .stp (.x 25) (.x 26) .sp 224,
   .stp (.x 23) (.x 24) .sp 208,
   .stp (.x 21) (.x 22) .sp 192,
   .stp (.x 19) (.x 20) .sp 176,
   .stp (.x 17) (.x 18) .sp 160,
   .stp (.x 15) (.x 16) .sp 144,
   .stp (.x 13) (.x 14) .sp 128,
   .stp (.x 11) (.x 12) .sp 112,
   .stp (.x 9) (.x 10) .sp 96,
   .stp (.x 7) (.x 8) .sp 80,
   .stp (.x 5) (.x 6) .sp 64,
   .stp (.x 3) (.x 4) .sp 48,
   .stp (.x 1) (.x 2) .sp 32,
   .stp (.q 30) (.q 31) .sp 0,
   .add .sp .sp (-512),
   .stp (.q 28) (.q 29) .sp 480,
   .stp (.q 26) (.q 27) .sp 448,
   .stp (.q 24) (.q 25) .sp 416,
   .stp (.q 22) (.q 23) .sp 384,
   .stp (.q 20) (.q 21) .sp 352,
   .stp (.q 18) (.q 19) .sp 320,
   .stp (.q 16) (.q 17) .sp 288,
   .stp (.q 14) (.q 15) .sp 256,
   .stp (.q 12) (.q 13) .sp 224,
   .stp (.q 10) (.q 11) .sp 192,
   .stp (.q 8) (.q 9) .sp 160,
   .stp (.q 6) (.q 7) .sp 128,
   .stp (.q 4) (.q 4) .sp 96,
   .stp (.q 2) (.q 3) .sp 64,
   .stp (.q 0) (.q 1) .sp 32,
   .mrs 3 .ELR_EL1,
   .mrs 4 .SPSR_EL1,
   .mrs 5 .SP_EL0,
   .mrs 6 .TPIDR_EL0,
   .stp (.x 5) (.x 6) .sp 16,
   .stp (.x 3) (.x 4) .sp 0,
   .mrs 1 .ESR_EL1,
   .add (.x 2) .sp 0,
   .add .sp .sp (-16),
   .str lr .sp 0]

def contextRestore : List Instr :=
  [.ldp (.x 5) (.x 6) (.x 0) 16,
   .ldp (.x 3) (.x 4) (.x 0) 0,
   .msr .ELR_EL1 3,
   .msr .SPSR_EL1 4,
   .msr .SP_EL0 5,
   .msr .TPIDR_EL0 6,
   .ldp (.q 28) (.q 29) (.x 0) 480,
   .ldp (.q 26) (.q 27) (.x 0) 448,
   .ldp (.q 24) (.q 25) (.x 0) 416,
   .ldp (.q 22) (.q 23) (.x 0) 384,
   .ldp (.q 20) (.q 21) (.x 0) 352,
   .ldp (.q 18) (.q 19) (.x 0) 320,
   .ldp (.q 16) (.q 17) (.x 0) 288,
   .ldp (.q 14) (.q 15) (.x 0) 256,
   .ldp (.q 12) (.q 13) (.x 0) 224,
   .ldp (.q 10) (.q 11) (.x 0) 192,
   .ldp (.q 8) (.q 9) (.x 0) 160,
   .ldp (.q 6) (.q 7) (.x 0) 128,
   .ldp (.q 4) (.q 5) (.x 0) 96,
   .ldp (.q 2) (.q 3) (.x 0) 64,
   .ldp (.q 0) (.q 1) (.x 0) 32,
   .add (.x 0) (.x 0) 512,
   .ldr (.x 29) (.x 0) 256,
   .ldp (.x 27) (.x 28) (.x 0) 240,
   .ldp (.x 25) (.x 26) (.x 0) 224,
   .ldp (.x 23) (.x 24) (.x 0) 208,
   .ldp (.x 21) (.x 22) (.x 0) 192,
   .ldp (.x 19) (.x 20) (.x 0) 176,
   .ldp (.x 17) (.x 18) (.x 0) 160,
   .ldp (.x 15) (.x 16) (.x 0) 144,
   .ldp (.x 13) (.x 14) (.x 0) 128,
   .ldp (.x 11) (.x 12) (.x 0) 112,
   .ldp (.x 9) (.x 10) (.x 0) 96,
   .ldp (.x 7) (.x 8) (.x 0) 80,
   .ldp (.x 5) (.x 6) (.x 0) 64,
   .ldp (.x 3) (.x 4) (.x 0) 48,
   .ldp (.x 1) (.x 2) (.x 0) 32,
   .ldp (.q 30) (.q 31) (.x 0) 0,
   .add (.x 0) (.x 0) (-512)]

def contextSaveExit : List Instr := [.ldr lr .sp 0, .add .sp .sp 800]

def handlerExit : List Instr := [.ldpPost lr (.x 0) .sp 16]

section
variable (link : Nat → Addr)

/-- From the vector to the first instruction of `handle_exception`. -/
def enter (source kind : Nat) (m : Machine) : Machine :=
  m.run link (handlerEntry source kind ++ contextSave ++ [.bl 1])

def leave (m : Machine) : Option Machine := do
  let m₁ ← (m.run link ([.add (.x 0) .sp 16, .bl 2] ++ contextRestore)).ret link 2
  let m₂ ← (m₁.run link contextSaveExit).ret link 0
  return m₂.run link handlerExit

/-- `handle_exception` gives the stack back as it got it: the frame, and the
link register that `context_save` stored below it. -/
def KeepsFrame (handleException : Machine → Machine) (m : Machine) : Prop :=
  (handleException m).sp = m.sp ∧ ∀ a ∈ Bytes.cells m.sp 816, (handleException m).mem a = m.mem a

def FrameHolds (m₀ m : Machine) : Prop :=
  ∀ r f, TrapFrame.fieldOf r = some f →
    ∃ o : Nat, TrapFrame.offset f = some o ∧ m.load r (m.x 2 + .ofNat 64 o) = m₀.reg r

def Restored (m₀ m : Machine) : Prop :=
  (∀ r f, TrapFrame.fieldOf r = some f → m.reg r = m₀.reg r) ∧ m.sp = m₀.sp

def RoundTrips (source kind : Nat) (handleException : Machine → Machine) (m : Machine) : Prop :=
  FrameHolds m (enter link source kind m) ∧
  ∃ m', leave link (handleException (enter link source kind m)) = some m' ∧ Restored m m'

end

/-! ## The symbolic run -/

def saved : List Reg :=
  (List.finRange 31).map .x ++ (List.finRange 32).map .q ++
    [.sys .ELR_EL1, .sys .SPSR_EL1, .sys .SP_EL0, .sys .TPIDR_EL0]

theorem mem_saved {r : Reg} {f : TrapFrame.Field} (h : TrapFrame.fieldOf r = some f) : r ∈ saved := by
  cases r with
  | x i => simp [saved]
  | q i => simp [saved]
  | sys s => cases s <;> simp [saved, TrapFrame.fieldOf] at h ⊢

/-- What the frame has in a register's place: `stp q4, q4` puts `q4` in the place of `q5`. -/
def kept (r : Reg) : Val := if r = .q 5 then .init (.q 4) else .init r

def symEnter (source kind : Nat) : Option Sym :=
  (Sym.start saved).run (handlerEntry source kind ++ contextSave ++ [.bl 1])

def symLeave (σ : Sym) : Option Sym := do
  let σ₁ ← (σ.havoc 816).run ([.add (.x 0) .sp 16, .bl 2] ++ contextRestore)
  let σ₂ ← σ₁.ret 2
  let σ₃ ← σ₂.run contextSaveExit
  let σ₄ ← σ₃.ret 0
  σ₄.run handlerExit

def FrameKept (σ : Sym) : Prop :=
  σ.sp = -816 ∧ σ.reg (.x 2) = some (.addr (-800)) ∧
  ∀ r ∈ saved, ∃ f ∈ TrapFrame.fieldOf r, ∃ o ∈ TrapFrame.offset f, σ.load r (-800 + o) = some (kept r)

def RegsKept (σ : Sym) : Prop := σ.sp = 0 ∧ ∀ r ∈ saved, σ.reg r = some (kept r)

instance (σ : Sym) : Decidable (FrameKept σ) := inferInstanceAs (Decidable (_ ∧ _ ∧ _))

instance (σ : Sym) : Decidable (RegsKept σ) := inferInstanceAs (Decidable (_ ∧ _))

theorem symEnter_eq (source kind : Nat) : symEnter source kind = symEnter 0 0 := by
  simp only [symEnter, handlerEntry, List.cons_append, List.nil_append, Sym.run, List.foldlM_cons, Sym.exec]

theorem sym_ok : ∃ σ ∈ symEnter 0 0, FrameKept σ ∧ ∃ σ' ∈ symLeave σ, RegsKept σ' := by decide +kernel

/-! ## The round trip -/

section
variable {link : Nat → Addr} {source kind : Nat} {handleException : Machine → Machine} {m : Machine}

theorem eval_kept (h : m.q 4 = m.q 5) (r : Reg) : (kept r).eval link m = (m.reg r).toNat := by
  unfold kept
  split
  · rename_i hr
    subst hr
    exact congrArg BitVec.toNat h
  · rfl

theorem trap_spec (hk : KeepsFrame handleException (enter link source kind m)) :
    (∀ r f, TrapFrame.fieldOf r = some f → ∃ o : Nat, TrapFrame.offset f = some o ∧
      ((enter link source kind m).load r ((enter link source kind m).x 2 + .ofNat 64 o)).toNat =
        (kept r).eval link m) ∧
    ∃ m', leave link (handleException (enter link source kind m)) = some m' ∧ m'.sp = m.sp ∧
      ∀ r f, TrapFrame.fieldOf r = some f → (m'.reg r).toNat = (kept r).eval link m := by
  obtain ⟨σ, hσ, ⟨hsp, hx2, hframe⟩, σ', hσ', hsp', hregs⟩ := sym_ok
  have hrun : (Sym.start saved).run (handlerEntry source kind ++ contextSave ++ [.bl 1]) = some σ := by
    rw [← symEnter, symEnter_eq]
    exact hσ
  have hh : σ.Holds link m (enter link source kind m) := by
    rw [enter]
    exact (Sym.holds_start saved).run hrun
  generalize enter link source kind m = m₁ at hk hh ⊢
  have htf : m₁.x 2 = spAt m (-800) := hh.base (show σ.base (.x 2) = some (-800) by rw [Sym.base, hx2])
  refine ⟨fun r f hf => ?_, ?_⟩
  · obtain ⟨f', hf', o, ho, hload⟩ := hframe r (mem_saved hf)
    cases hf.symm.trans hf'
    refine ⟨o, ho, ?_⟩
    rw [htf, ← BitVec.ofInt_natCast, spAt_add]
    exact hh.load hload
  · -- the symbolic run of the exit, call by call
    obtain ⟨σ₁, h₁, hσ'⟩ := Option.bind_eq_some_iff.mp hσ'
    obtain ⟨σ₂, h₂, hσ'⟩ := Option.bind_eq_some_iff.mp hσ'
    obtain ⟨σ₃, h₃, hσ'⟩ := Option.bind_eq_some_iff.mp hσ'
    obtain ⟨σ₄, h₄, h₅⟩ := Option.bind_eq_some_iff.mp hσ'
    obtain ⟨hret₁, hh₂⟩ := ((hh.havoc (by decide) hk.1 hk.2).run h₁).ret h₂
    obtain ⟨hret₂, hh₄⟩ := (hh₂.run h₃).ret h₄
    have hh₅ := hh₄.run h₅
    refine ⟨_, ?_, ?_, fun r f hf => hh₅.reg (hregs r (mem_saved hf))⟩
    · simp only [leave, hret₁, hret₂, bind, Option.bind, pure]
    · rw [hh₅.sp_eq, hsp', spAt]
      simp

/-- **The round trip.** Whatever the registers and the stack at the vector,
every register is stored in its field and given back exactly when `q4` and `q5`
are equal: the frame has `q4` in the place of `q5`. -/
theorem trap_round_trip_iff (hk : KeepsFrame handleException (enter link source kind m)) :
    RoundTrips link source kind handleException m ↔ m.q 4 = m.q 5 := by
  obtain ⟨hframe, m', hleave, hsp, hregs⟩ := trap_spec hk
  constructor
  · rintro ⟨hholds, -⟩
    obtain ⟨o, ho, hload⟩ := hframe (.q 5) (.q 5) rfl
    obtain ⟨o', ho', hload'⟩ := hholds (.q 5) (.q 5) rfl
    cases ho.symm.trans ho'
    rw [hload'] at hload
    exact (BitVec.eq_of_toNat_eq hload).symm
  · intro hq
    refine ⟨fun r f hf => ?_, m', hleave, fun r f hf => ?_, hsp⟩
    · obtain ⟨o, ho, hload⟩ := hframe r f hf
      exact ⟨o, ho, BitVec.eq_of_toNat_eq (hload.trans (eval_kept hq r))⟩
    · exact BitVec.eq_of_toNat_eq ((hregs r f hf).trans (eval_kept hq r))

theorem trap_restores (hk : KeepsFrame handleException (enter link source kind m)) :
    ∃ m', leave link (handleException (enter link source kind m)) = some m' ∧ m'.sp = m.sp ∧ m'.q 5 = m.q 4 ∧
      ∀ r f, TrapFrame.fieldOf r = some f → r ≠ .q 5 → m'.reg r = m.reg r := by
  obtain ⟨-, m', hleave, hsp, hregs⟩ := trap_spec hk
  refine ⟨m', hleave, hsp, BitVec.eq_of_toNat_eq (hregs (.q 5) (.q 5) rfl), fun r f hf hne => ?_⟩
  refine BitVec.eq_of_toNat_eq ((hregs r f hf).trans ?_)
  rw [kept, if_neg hne]
  rfl

end

theorem keepsFrame_id (m : Machine) : KeepsFrame id m := ⟨rfl, fun _ _ => rfl⟩

/-- Each register with a number of its own. -/
def regNumber : Reg → Nat
  | .x i => 100 + i
  | .q i => 200 + i
  | .sys .ELR_EL1 => 300
  | .sys .SPSR_EL1 => 301
  | .sys .SP_EL0 => 302
  | .sys .TPIDR_EL0 => 303
  | .sys .ESR_EL1 => 304

def numberedMachine : Machine := ⟨fun r => .ofNat _ (regNumber r), 0x80000, fun a => .ofNat a.toNat⟩

def callSites (i : Nat) : Addr := .ofNat 64 (0x80010 + 0x100 * i)

theorem trap_round_trip_numbered :
    RoundTrips callSites 2 0 id (numberedMachine.set (.q 5) (numberedMachine.q 4)) :=
  (trap_round_trip_iff (keepsFrame_id _)).mpr rfl

def zeroMachine : Machine := ⟨fun _ => 0, 0x80000, fun _ => 0⟩

def oneInQ5 : Machine := zeroMachine.set (.q 5) (.ofNat _ 1)

theorem trap_loses_q5 : ¬ RoundTrips callSites 2 0 id oneInQ5 := by
  rintro ⟨-, m', hleave, hrestored, -⟩
  have hk : KeepsFrame id (enter callSites 2 0 oneInQ5) := keepsFrame_id _
  obtain ⟨m'', hleave', -, hq5, -⟩ := trap_restores hk
  cases hleave.symm.trans hleave'
  have hone : m'.q 5 = 1 := hrestored (.q 5) (.q 5) rfl
  have hzero : oneInQ5.q 4 = 0 := rfl
  rw [hone, hzero] at hq5
  exact absurd hq5 (by decide)

end Osymandias

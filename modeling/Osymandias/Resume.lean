import Osymandias.Context

/-!
# Frames in memory

What `handle_exception` gets and gives back is a `TrapFrame` behind a pointer.
`context_save` fills it from the registers, `context_restore` fills the
registers from it, whoever's frame it then is.
-/

namespace Osymandias

open Aarch64

def TrapFrame.reg (tf : TrapFrame) : (r : Reg) → BitVec (8 * r.bytes)
  | .x i => (tf.x i).toBitVec
  | .q i => tf.q i
  | .sys .ELR_EL1 => tf.elr.toBitVec
  | .sys .SPSR_EL1 => tf.spsr.toBitVec
  | .sys .SP_EL0 => tf.sp.toBitVec
  | .sys .TPIDR_EL0 => tf.tpidr.toBitVec
  | .sys .ESR_EL1 => 0

def TrapFrame.fieldAt (a : Addr) (f : Field) : Addr := a + .ofNat 64 ((TrapFrame.offset f).getD 0)

/-- The frame that a `&mut TrapFrame` with the address `a` refers to. -/
def readFrame (m : Machine) (a : Addr) : TrapFrame where
  elr := ⟨m.load (.sys .ELR_EL1) (TrapFrame.fieldAt a .elr)⟩
  spsr := ⟨m.load (.sys .SPSR_EL1) (TrapFrame.fieldAt a .spsr)⟩
  sp := ⟨m.load (.sys .SP_EL0) (TrapFrame.fieldAt a .sp)⟩
  tpidr := ⟨m.load (.sys .TPIDR_EL0) (TrapFrame.fieldAt a .tpidr)⟩
  q i := m.load (.q i) (TrapFrame.fieldAt a (.q i))
  x i := ⟨m.load (.x i) (TrapFrame.fieldAt a (.x i))⟩
  reserved := ⟨m.load (.x 0) (TrapFrame.fieldAt a .reserved)⟩

section
variable {m : Machine}

theorem readFrame_congr {m' : Machine} (h : m.mem = m'.mem) (a : Addr) : readFrame m a = readFrame m' a := by
  simp only [readFrame, Machine.load, h]

theorem readFrame_reg {r : Reg} {f : TrapFrame.Field} (h : TrapFrame.fieldOf r = some f) (a : Addr) :
    (readFrame m a).reg r = m.load r (TrapFrame.fieldAt a f) := by
  cases r with
  | x i => cases h; rfl
  | q i => cases h; rfl
  | sys s => cases s <;> cases h <;> rfl

end

/-! ## The way out -/

def frameSym : Sym :=
  ⟨[], -816, ⟨-816, 8, .link 0⟩ :: saved.map fun r =>
    ⟨-800 + ((TrapFrame.fieldOf r).bind TrapFrame.offset).getD 0, r.bytes, .init r⟩⟩

def RegsTaken (σ : Sym) : Prop := σ.sp = 0 ∧ ∀ r ∈ saved, σ.reg r = some (.init r)

instance (σ : Sym) : Decidable (RegsTaken σ) := inferInstanceAs (Decidable (_ ∧ _))

theorem frameSym_ok : ∃ σ ∈ symLeave frameSym, RegsTaken σ := by decide +kernel

theorem saved_fieldOf {r : Reg} (h : r ∈ saved) : ∃ f, TrapFrame.fieldOf r = some f := by
  simp only [saved, List.mem_append, List.mem_map, List.mem_finRange, true_and, List.mem_cons, List.not_mem_nil,
    or_false] at h
  obtain (⟨i, rfl⟩ | ⟨i, rfl⟩) | rfl | rfl | rfl | rfl := h <;> exact ⟨_, rfl⟩

section
variable {link : Nat → Addr} {m : Machine}

def ownerOf (m : Machine) : Machine := ⟨(readFrame m (m.sp + 16)).reg, m.sp + 816, m.mem⟩

theorem offset_isSome (f : TrapFrame.Field) : (TrapFrame.offset f).isSome := by
  cases f with
  | q i => revert i; decide +kernel
  | x i => revert i; decide +kernel
  | elr | spsr | sp | tpidr | reserved => decide +kernel

theorem frameSym_holds (hlr : m.load (.x 30) m.sp = link 0) : frameSym.Holds link (ownerOf m) m := by
  refine ⟨?_, by simp [frameSym], ?_⟩
  · simp only [frameSym, spAt, ownerOf]
    bv_omega
  · simp only [frameSym]
    refine List.forall_mem_cons.mpr ⟨?_, ?_⟩
    · have hsp : spAt (ownerOf m) (-816) = m.sp := by
        simp only [spAt, ownerOf]
        bv_omega
      rw [hsp]
      exact (toNat_load (.x 30) m.sp).symm.trans (congrArg BitVec.toNat hlr)
    · intro s hs
      obtain ⟨r, hr, rfl⟩ := List.mem_map.mp hs
      obtain ⟨f, hf⟩ := saved_fieldOf hr
      obtain ⟨o, ho⟩ := Option.isSome_iff_exists.mp (offset_isSome f)
      have hat : spAt (ownerOf m) (-800 + (o : Int)) = TrapFrame.fieldAt (m.sp + 16) f := by
        have hbase : spAt (ownerOf m) (-800) = m.sp + 16 := by
          simp only [spAt, ownerOf]
          bv_omega
        rw [← spAt_add, hbase, TrapFrame.fieldAt, ho, Option.getD_some, BitVec.ofInt_natCast]
      simp only [hf, Option.bind_some, ho, Option.getD_some, hat]
      rw [← toNat_load]
      exact congrArg BitVec.toNat (readFrame_reg hf (m.sp + 16)).symm

theorem symLeave_holds {m₀ : Machine} {σ σ' : Sym} (hh : σ.Holds link m₀ m) (h : symLeave σ = some σ') :
    ∃ m', leave link m = some m' ∧ σ'.Holds link m₀ m' := by
  obtain ⟨σ₁, h₁, h⟩ := Option.bind_eq_some_iff.mp h
  obtain ⟨σ₂, h₂, h⟩ := Option.bind_eq_some_iff.mp h
  obtain ⟨σ₃, h₃, h⟩ := Option.bind_eq_some_iff.mp h
  obtain ⟨σ₄, h₄, h₅⟩ := Option.bind_eq_some_iff.mp h
  obtain ⟨hret₁, hh₂⟩ := ((hh.havoc (n := 816) (by decide) rfl fun _ _ => rfl).run h₁).ret h₂
  obtain ⟨hret₂, hh₄⟩ := (hh₂.run h₃).ret h₄
  refine ⟨_, ?_, hh₄.run h₅⟩
  simp only [leave, hret₁, hret₂, bind, Option.bind, pure]

/-- The way out. With the link register of `context_save` below it, whatever
frame is on the stack is the registers' content afterwards. -/
theorem leave_takes (hlr : m.load (.x 30) m.sp = link 0) :
    ∃ m', leave link m = some m' ∧ m'.sp = m.sp + 816 ∧
      ∀ r f, TrapFrame.fieldOf r = some f → m'.reg r = (readFrame m (m.sp + 16)).reg r := by
  obtain ⟨σ', hσ', hsp, hregs⟩ := frameSym_ok
  obtain ⟨m', hleave, hh⟩ := symLeave_holds (frameSym_holds hlr) hσ'
  refine ⟨m', hleave, ?_, ?_⟩
  · rw [hh.sp_eq, hsp]
    simp [spAt, ownerOf]
  · intro r f hf
    exact BitVec.eq_of_toNat_eq (hh.reg (hregs r (mem_saved hf)))

/-! ## The way in -/

variable {source kind : Nat}

/-- What else the symbolic run of the entry tells: where the stack pointer is,
what is below the frame, and two arguments of `handle_exception`. -/
def ArgsPassed (σ : Sym) : Prop :=
  σ.sp = -816 ∧ σ.load (.x 30) (-816) = some (.link 0) ∧ σ.reg (.x 1) = some (.init (.sys .ESR_EL1)) ∧
    σ.reg (.x 2) = some (.addr (-800))

instance (σ : Sym) : Decidable (ArgsPassed σ) := inferInstanceAs (Decidable (_ ∧ _ ∧ _ ∧ _))

def symArgs (source kind : Nat) : Option Sym :=
  (Sym.start (.sys .ESR_EL1 :: saved)).run (handlerEntry source kind ++ contextSave ++ [.bl 1])

theorem symArgs_eq (source kind : Nat) : symArgs source kind = symArgs 0 0 := by
  simp only [symArgs, handlerEntry, List.cons_append, List.nil_append, Sym.run, List.foldlM_cons, Sym.exec]

theorem symArgs_ok : ∃ σ ∈ symArgs 0 0, ArgsPassed σ := by decide +kernel

theorem x_eq_sys {m₁ : Machine} {i : Fin 31} {s : SysReg} (h : (m₁.reg (.x i)).toNat = (m.reg (.sys s)).toNat) :
    m₁.x i = m.reg (.sys s) := BitVec.eq_of_toNat_eq h

variable (link m source kind) in
theorem enter_args : (enter link source kind m).sp = spAt m (-816) ∧
    (enter link source kind m).load (.x 30) (spAt m (-816)) = link 0 ∧
    (enter link source kind m).x 1 = m.reg (.sys .ESR_EL1) ∧ (enter link source kind m).x 2 = spAt m (-800) := by
  obtain ⟨σ, hσ, hsp, hlr, hx1, hx2⟩ := symArgs_ok
  have hrun : (Sym.start (.sys .ESR_EL1 :: saved)).run (handlerEntry source kind ++ contextSave ++ [.bl 1]) =
      some σ := by
    rw [← symArgs, symArgs_eq]
    exact hσ
  have hh : σ.Holds link m (enter link source kind m) := by
    rw [enter]
    exact (Sym.holds_start _).run hrun
  generalize enter link source kind m = m₁ at hh ⊢
  refine ⟨?_, ?_, ?_, ?_⟩
  · rw [hh.sp_eq, hsp]
  · exact BitVec.eq_of_toNat_eq (hh.load hlr)
  · exact x_eq_sys (hh.reg hx1)
  · exact hh.base (show σ.base (.x 2) = some (-800) by rw [Sym.base, hx2])

/-- What the frame of an interrupted process has for a register. -/
def frameReg (m : Machine) (r : Reg) : BitVec (8 * r.bytes) :=
  if h : r = .q 5 then h ▸ m.reg (.q 4) else m.reg r

def entryFrame (link : Nat → Addr) (source kind : Nat) (m : Machine) : TrapFrame :=
  readFrame (enter link source kind m) ((enter link source kind m).x 2)

theorem entryFrame_reg {r : Reg} {f : TrapFrame.Field} (hf : TrapFrame.fieldOf r = some f) :
    (entryFrame link source kind m).reg r = frameReg m r := by
  obtain ⟨hframe, -⟩ := trap_spec (keepsFrame_id (enter link source kind m))
  obtain ⟨o, ho, hload⟩ := hframe r f hf
  rw [entryFrame, readFrame_reg hf, TrapFrame.fieldAt, ho, Option.getD_some]
  apply BitVec.eq_of_toNat_eq
  rw [hload]
  unfold kept frameReg
  by_cases hr : r = .q 5
  · subst hr
    rfl
  · rw [if_neg hr, dif_neg hr]
    rfl

/-! ## The first argument -/

/-- What `HANDLER(source, kind)` puts into `x0`, where an `Info` is passed: its
two halfwords from the bottom. -/
def infoWord (source kind : Nat) : BitVec 64 :=
  BitVec.ofNat 64 source &&& ~~~(0xffff#64 <<< 16) ||| BitVec.ofNat 64 kind <<< 16

theorem enter_eq : enter link source kind m =
    (m.run link [.stpPre lr (.x 0) .sp (-16), .mov 0 source, .movk 0 kind 16]).run link
      (.bl 0 :: (contextSave ++ [.bl 1])) := by
  simp only [enter, handlerEntry, Machine.run, List.cons_append, List.nil_append, List.foldl_cons, List.foldl_nil]

theorem enter_info : (enter link source kind m).x 0 = infoWord source kind := by
  have hrest : ∀ i ∈ Instr.bl 0 :: (contextSave ++ [.bl 1]), Reg.x 0 ∉ Instr.writes i := by decide
  rw [enter_eq, run_x hrest, Machine.run, List.foldl_cons, List.foldl_cons, List.foldl_cons, List.foldl_nil,
    exec_movk_x, exec_mov_x, infoWord]

end

end Osymandias

import Osymandias.Bytes

/-!
# Straight-line AArch64

The instructions of a context switch: register moves, loads and stores of
general and vector registers, system registers. Addresses wrap around. A
symbolic run follows what is known of the registers and of the words stored at
fixed distances from the stack pointer, and is sound for every machine.
-/

namespace Aarch64

abbrev Addr := BitVec 64

inductive SysReg where
  | ELR_EL1 | SPSR_EL1 | SP_EL0 | TPIDR_EL0 | ESR_EL1
  deriving DecidableEq, Repr

-- named, so that a register number is the same term in every module
instance neZero_x : NeZero 31 := ⟨by decide⟩

instance neZero_q : NeZero 32 := ⟨by decide⟩

inductive Reg where
  | x (i : Fin 31)
  | q (i : Fin 32)
  | sys (s : SysReg)
  deriving DecidableEq, Repr

def Reg.bytes : Reg → Nat
  | .q _ => 16
  | _ => 8

structure Machine where
  reg : (r : Reg) → BitVec (8 * r.bytes)
  sp : Addr
  mem : Addr → UInt8

inductive Base where
  | sp
  | x (i : Fin 31)
  deriving DecidableEq, Repr

/-- `stpPre` is `stp t₁, t₂, [n, #off]!` and `ldpPost` is `ldp t₁, t₂, [n], #off`.
`bl n` is the `n`-th branch with link of the program: only its effect on the
link register is an instruction's, the transfer of control is the caller's. -/
inductive Instr where
  | mov (d : Fin 31) (imm : Nat)
  | movk (d : Fin 31) (imm shift : Nat)
  | add (d n : Base) (imm : Int)
  | mrs (d : Fin 31) (s : SysReg)
  | msr (s : SysReg) (n : Fin 31)
  | str (t : Reg) (n : Base) (off : Int)
  | ldr (t : Reg) (n : Base) (off : Int)
  | stp (t₁ t₂ : Reg) (n : Base) (off : Int)
  | ldp (t₁ t₂ : Reg) (n : Base) (off : Int)
  | stpPre (t₁ t₂ : Reg) (n : Base) (off : Int)
  | ldpPost (t₁ t₂ : Reg) (n : Base) (off : Int)
  | bl (n : Nat)
  deriving DecidableEq, Repr

namespace Machine

def set (m : Machine) (r : Reg) (v : BitVec (8 * r.bytes)) : Machine :=
  { m with reg := Function.update m.reg r v }

def x (m : Machine) (i : Fin 31) : BitVec 64 := m.reg (.x i)

def q (m : Machine) (i : Fin 32) : BitVec 128 := m.reg (.q i)

def base (m : Machine) : Base → Addr
  | .sp => m.sp
  | .x i => m.x i

def setBase (m : Machine) : Base → Addr → Machine
  | .sp, a => { m with sp := a }
  | .x i, a => m.set (.x i) a

def load (m : Machine) (r : Reg) (a : Addr) : BitVec (8 * r.bytes) := .ofNat _ (Bytes.read m.mem a r.bytes)

def store (m : Machine) (r : Reg) (a : Addr) : Machine :=
  { m with mem := Bytes.write m.mem a r.bytes (m.reg r).toNat }

def storePair (m : Machine) (t₁ t₂ : Reg) (a : Addr) : Machine :=
  (m.store t₁ a).store t₂ (a + .ofInt 64 t₁.bytes)

def loadPair (m : Machine) (t₁ t₂ : Reg) (a : Addr) : Machine :=
  (m.set t₁ (m.load t₁ a)).set t₂ (m.load t₂ (a + .ofInt 64 t₁.bytes))

def addr (m : Machine) (n : Base) (off : Int) : Addr := m.base n + .ofInt 64 off

def exec (link : Nat → Addr) (m : Machine) : Instr → Machine
  | .mov d imm => m.set (.x d) (.ofNat 64 imm)
  | .movk d imm shift => m.set (.x d) (m.x d &&& ~~~(0xffff#64 <<< shift) ||| BitVec.ofNat 64 imm <<< shift)
  | .add d n imm => m.setBase d (m.addr n imm)
  | .mrs d s => m.set (.x d) (m.reg (.sys s))
  | .msr s n => m.set (.sys s) (m.reg (.x n))
  | .str t n off => m.store t (m.addr n off)
  | .ldr t n off => m.set t (m.load t (m.addr n off))
  | .stp t₁ t₂ n off => m.storePair t₁ t₂ (m.addr n off)
  | .ldp t₁ t₂ n off => m.loadPair t₁ t₂ (m.addr n off)
  | .stpPre t₁ t₂ n off => (m.storePair t₁ t₂ (m.addr n off)).setBase n (m.addr n off)
  | .ldpPost t₁ t₂ n off => (m.loadPair t₁ t₂ (m.base n)).setBase n (m.addr n off)
  | .bl n => m.set (.x 30) (link n)

def run (link : Nat → Addr) (m : Machine) (is : List Instr) : Machine := is.foldl (exec link) m

/-- `ret`: control goes back behind the `n`-th branch, if the link register says so. -/
def ret (link : Nat → Addr) (n : Nat) (m : Machine) : Option Machine :=
  if m.x 30 = link n then some m else none

end Machine

/-! ## Symbolic values -/

/-- A value known by where it comes from: a register at the start, the stack
pointer at the start moved by `k`, the address behind a branch. -/
inductive Val where
  | init (r : Reg)
  | addr (k : Int)
  | link (n : Nat)
  deriving DecidableEq, Repr

structure Slot where
  off : Int
  bytes : Nat
  val : Val
  deriving DecidableEq, Repr

def Slot.Apart (s : Slot) (k : Int) (n : Nat) : Prop :=
  (s.off + s.bytes ≤ k ∧ k + n ≤ s.off + 2 ^ 64) ∨ (k + n ≤ s.off ∧ s.off + s.bytes ≤ k + 2 ^ 64)

instance (s : Slot) (k : Int) (n : Nat) : Decidable (s.Apart k n) := inferInstanceAs (Decidable (_ ∨ _))

structure Sym where
  regs : List (Reg × Val)
  sp : Int
  slots : List Slot
  deriving Repr

namespace Sym

def reg (σ : Sym) (r : Reg) : Option Val := (σ.regs.find? fun p => p.1 = r).map Prod.snd

def set (σ : Sym) (r : Reg) (v : Option Val) : Sym :=
  let rest := σ.regs.filter fun p => p.1 ≠ r
  { σ with regs := match v with
    | some v => (r, v) :: rest
    | none => rest }

def base (σ : Sym) : Base → Option Int
  | .sp => some σ.sp
  | .x i => match σ.reg (.x i) with
    | some (.addr k) => some k
    | _ => none

def load (σ : Sym) (r : Reg) (k : Int) : Option Val :=
  (σ.slots.find? fun s => s.off = k ∧ s.bytes = r.bytes).map Slot.val

def store (σ : Sym) (r : Reg) (k : Int) : Sym :=
  let rest := σ.slots.filter fun s => s.Apart k r.bytes
  { σ with slots := match σ.reg r with
    | some v => ⟨k, r.bytes, v⟩ :: rest
    | none => rest }

def setBase (σ : Sym) : Base → Int → Sym
  | .sp, k => { σ with sp := k }
  | .x i, k => σ.set (.x i) (some (.addr k))

def storePair (σ : Sym) (t₁ t₂ : Reg) (k : Int) : Sym := (σ.store t₁ k).store t₂ (k + t₁.bytes)

def loadPair (σ : Sym) (t₁ t₂ : Reg) (k : Int) : Sym :=
  (σ.set t₁ (σ.load t₁ k)).set t₂ (σ.load t₂ (k + t₁.bytes))

def exec (σ : Sym) : Instr → Option Sym
  | .mov d _ | .movk d _ _ => some (σ.set (.x d) none)
  | .add d n imm => (σ.base n).map fun k => σ.setBase d (k + imm)
  | .mrs d s => some (σ.set (.x d) (σ.reg (.sys s)))
  | .msr s n => some (σ.set (.sys s) (σ.reg (.x n)))
  | .str t n off => (σ.base n).map fun k => σ.store t (k + off)
  | .ldr t n off => (σ.base n).map fun k => σ.set t (σ.load t (k + off))
  | .stp t₁ t₂ n off => (σ.base n).map fun k => σ.storePair t₁ t₂ (k + off)
  | .ldp t₁ t₂ n off => (σ.base n).map fun k => σ.loadPair t₁ t₂ (k + off)
  | .stpPre t₁ t₂ n off => (σ.base n).map fun k => (σ.storePair t₁ t₂ (k + off)).setBase n (k + off)
  | .ldpPost t₁ t₂ n off => (σ.base n).map fun k => (σ.loadPair t₁ t₂ k).setBase n (k + off)
  | .bl n => some (σ.set (.x 30) (some (.link n)))

def run (σ : Sym) (is : List Instr) : Option Sym := is.foldlM exec σ

def ret (σ : Sym) (n : Nat) : Option Sym := if σ.reg (.x 30) = some (.link n) then some σ else none

def havoc (σ : Sym) (n : Nat) : Sym :=
  { σ with regs := [], slots := σ.slots.filter fun s => σ.sp ≤ s.off ∧ s.off + s.bytes ≤ σ.sp + n }

def start (rs : List Reg) : Sym := ⟨rs.map fun r => (r, .init r), 0, []⟩

end Sym

/-! ## Soundness -/

section
variable (link : Nat → Addr) (m₀ : Machine)

def spAt (k : Int) : Addr := m₀.sp + .ofInt 64 k

def Val.eval : Val → Nat
  | .init r => (m₀.reg r).toNat
  | .addr k => (spAt m₀ k).toNat
  | .link n => (link n).toNat

/-- What `σ` says is true of `m`, in a run that began in `m₀`. -/
structure Sym.Holds (σ : Sym) (m : Machine) : Prop where
  sp_eq : m.sp = spAt m₀ σ.sp
  reg_eq : ∀ p ∈ σ.regs, (m.reg p.1).toNat = p.2.eval link m₀
  slot_eq : ∀ s ∈ σ.slots, Bytes.read m.mem (spAt m₀ s.off) s.bytes = s.val.eval link m₀

end

section
variable {link : Nat → Addr} {m₀ m : Machine} {σ : Sym}

theorem spAt_add (k j : Int) : spAt m₀ k + .ofInt 64 j = spAt m₀ (k + j) := by
  rw [spAt, spAt, BitVec.add_assoc, ← BitVec.ofInt_add]

theorem Slot.Apart.disjoint {s : Slot} {k : Int} {n : Nat} (h : s.Apart k n) (m₀ : Machine) :
    ∀ c ∈ Bytes.cells (spAt m₀ s.off) s.bytes, c ∉ Bytes.cells (spAt m₀ k) n := by
  intro c hc hc'
  have hn : s.bytes ≤ 2 ^ 64 ∧ n ≤ 2 ^ 64 := by unfold Slot.Apart at h; omega
  rw [Bytes.mem_cells_bv hn.1] at hc
  rw [Bytes.mem_cells_bv hn.2] at hc'
  have hsum : spAt m₀ s.off + .ofInt 64 (c - spAt m₀ s.off).toNat =
      spAt m₀ k + .ofInt 64 (c - spAt m₀ k).toNat := by
    simp only [BitVec.ofInt_natCast, BitVec.ofNat_toNat, BitVec.setWidth_eq]
    ring
  generalize (c - spAt m₀ s.off).toNat = i at *
  generalize (c - spAt m₀ k).toNat = j at *
  rw [spAt_add, spAt_add, spAt, spAt, BitVec.add_right_inj] at hsum
  have := congrArg BitVec.toNat hsum
  simp only [BitVec.toNat_ofInt] at this
  unfold Slot.Apart at h
  omega

@[simp] theorem Machine.set_self (m : Machine) (r : Reg) (v : BitVec (8 * r.bytes)) : (m.set r v).reg r = v :=
  Function.update_self ..

theorem Machine.set_of_ne (m : Machine) {r r' : Reg} (v : BitVec (8 * r.bytes)) (h : r' ≠ r) :
    (m.set r v).reg r' = m.reg r' := Function.update_of_ne h ..

theorem Reg.bytes_le (r : Reg) : r.bytes ≤ 2 ^ 64 := by
  cases r <;> simp [Reg.bytes]

theorem pow_bytes (r : Reg) : 256 ^ r.bytes = 2 ^ (8 * r.bytes) := by
  rw [Nat.pow_mul]

theorem toNat_load (r : Reg) (a : Addr) : (m.load r a).toNat = Bytes.read m.mem a r.bytes := by
  rw [Machine.load, BitVec.toNat_ofNat, ← pow_bytes]
  exact Nat.mod_eq_of_lt (Bytes.read_lt m.mem _ a)

namespace Sym

theorem mem_of_reg {r : Reg} {v : Val} (h : σ.reg r = some v) : (r, v) ∈ σ.regs := by
  obtain ⟨p, hp, rfl⟩ := Option.map_eq_some_iff.mp h
  have hr : p.1 = r := by simpa using List.find?_some hp
  exact hr ▸ List.mem_of_find?_eq_some hp

theorem Holds.reg (hh : σ.Holds link m₀ m) {r : Reg} {v : Val} (h : σ.reg r = some v) :
    (m.reg r).toNat = v.eval link m₀ := hh.reg_eq _ (mem_of_reg h)

theorem Holds.base (hh : σ.Holds link m₀ m) {n : Base} {k : Int} (h : σ.base n = some k) :
    m.base n = spAt m₀ k := by
  cases n with
  | sp =>
    cases h
    exact hh.sp_eq
  | x i =>
    simp only [Sym.base] at h
    split at h
    · rename_i hr
      cases h
      exact BitVec.eq_of_toNat_eq (hh.reg hr)
    · cases h

theorem Holds.addr (hh : σ.Holds link m₀ m) {n : Base} {k : Int} (h : σ.base n = some k) (off : Int) :
    m.addr n off = spAt m₀ (k + off) := by
  rw [Machine.addr, hh.base h, spAt_add]

theorem Holds.load (hh : σ.Holds link m₀ m) {r : Reg} {k : Int} {v : Val} (h : σ.load r k = some v) :
    (m.load r (spAt m₀ k)).toNat = v.eval link m₀ := by
  obtain ⟨s, hs, rfl⟩ := Option.map_eq_some_iff.mp h
  have hk := List.find?_some hs
  simp only [decide_eq_true_eq] at hk
  rw [toNat_load, ← hk.1, ← hk.2]
  exact hh.slot_eq s (List.mem_of_find?_eq_some hs)

theorem Holds.set (hh : σ.Holds link m₀ m) {r : Reg} {o : Option Val} {w : BitVec (8 * r.bytes)}
    (ho : ∀ v, o = some v → w.toNat = v.eval link m₀) : (σ.set r o).Holds link m₀ (m.set r w) := by
  have hrest : ∀ p ∈ σ.regs.filter fun p => p.1 ≠ r, ((m.set r w).reg p.1).toNat = p.2.eval link m₀ := by
    intro p hp
    obtain ⟨hp, hne⟩ := List.mem_filter.mp hp
    rw [m.set_of_ne w (by simpa using hne)]
    exact hh.reg_eq p hp
  refine ⟨hh.sp_eq, ?_, hh.slot_eq⟩
  cases o with
  | none => exact hrest
  | some v =>
    refine List.forall_mem_cons.mpr ⟨?_, hrest⟩
    rw [m.set_self]
    exact ho v rfl

theorem Holds.setBase (hh : σ.Holds link m₀ m) (n : Base) (k : Int) :
    (σ.setBase n k).Holds link m₀ (m.setBase n (spAt m₀ k)) := by
  cases n with
  | sp => exact ⟨rfl, hh.reg_eq, hh.slot_eq⟩
  | x i => exact hh.set (o := some (.addr k)) fun v hv => by cases hv; rfl

theorem Holds.store (hh : σ.Holds link m₀ m) (r : Reg) (k : Int) :
    (σ.store r k).Holds link m₀ (m.store r (spAt m₀ k)) := by
  have hrest : ∀ s ∈ σ.slots.filter fun s => s.Apart k r.bytes,
      Bytes.read (m.store r (spAt m₀ k)).mem (spAt m₀ s.off) s.bytes = s.val.eval link m₀ := by
    intro s hs
    obtain ⟨hs, hap⟩ := List.mem_filter.mp hs
    have hdis := (of_decide_eq_true hap).disjoint m₀
    exact (Bytes.read_write_of_disjoint m.mem _ hdis).trans (hh.slot_eq s hs)
  refine ⟨hh.sp_eq, hh.reg_eq, ?_⟩
  cases hr : σ.reg r with
  | none => simpa only [Sym.store, hr] using hrest
  | some v =>
    simp only [Sym.store, hr]
    refine List.forall_mem_cons.mpr ⟨?_, hrest⟩
    simp only [Machine.store]
    rw [Bytes.read_write_self _ _ _ _ (Bytes.nodup_cells_bv _ _ r.bytes_le), pow_bytes,
      Nat.mod_eq_of_lt (m.reg r).isLt]
    exact hh.reg hr

theorem Holds.storePair (hh : σ.Holds link m₀ m) (t₁ t₂ : Reg) (k : Int) :
    (σ.storePair t₁ t₂ k).Holds link m₀ (m.storePair t₁ t₂ (spAt m₀ k)) := by
  rw [Machine.storePair, spAt_add]
  exact (hh.store t₁ k).store t₂ _

theorem Holds.loadPair (hh : σ.Holds link m₀ m) (t₁ t₂ : Reg) (k : Int) :
    (σ.loadPair t₁ t₂ k).Holds link m₀ (m.loadPair t₁ t₂ (spAt m₀ k)) := by
  rw [Machine.loadPair, spAt_add]
  exact (hh.set fun v hv => hh.load hv).set fun v hv => hh.load hv

/-- One instruction. -/
theorem Holds.exec (hh : σ.Holds link m₀ m) {i : Instr} {σ' : Sym} (h : σ.exec i = some σ') :
    σ'.Holds link m₀ (m.exec link i) := by
  cases i with
  | mov d imm => cases h; exact hh.set (by simp)
  | movk d imm shift => cases h; exact hh.set (by simp)
  | mrs d s => cases h; exact hh.set fun _ hv => hh.reg hv
  | msr s n => cases h; exact hh.set fun _ hv => hh.reg hv
  | bl n => cases h; exact hh.set fun _ hv => by cases hv; rfl
  | add d n imm =>
    obtain ⟨k, hk, rfl⟩ := Option.map_eq_some_iff.mp h
    rw [Machine.exec, hh.addr hk]
    exact hh.setBase d _
  | str t n off =>
    obtain ⟨k, hk, rfl⟩ := Option.map_eq_some_iff.mp h
    rw [Machine.exec, hh.addr hk]
    exact hh.store t _
  | ldr t n off =>
    obtain ⟨k, hk, rfl⟩ := Option.map_eq_some_iff.mp h
    rw [Machine.exec, hh.addr hk]
    exact hh.set fun _ hv => hh.load hv
  | stp t₁ t₂ n off =>
    obtain ⟨k, hk, rfl⟩ := Option.map_eq_some_iff.mp h
    rw [Machine.exec, hh.addr hk]
    exact hh.storePair t₁ t₂ _
  | ldp t₁ t₂ n off =>
    obtain ⟨k, hk, rfl⟩ := Option.map_eq_some_iff.mp h
    rw [Machine.exec, hh.addr hk]
    exact hh.loadPair t₁ t₂ _
  | stpPre t₁ t₂ n off =>
    obtain ⟨k, hk, rfl⟩ := Option.map_eq_some_iff.mp h
    rw [Machine.exec, hh.addr hk]
    exact (hh.storePair t₁ t₂ _).setBase n _
  | ldpPost t₁ t₂ n off =>
    obtain ⟨k, hk, rfl⟩ := Option.map_eq_some_iff.mp h
    rw [Machine.exec, hh.addr hk, hh.base hk]
    exact (hh.loadPair t₁ t₂ _).setBase n _

/-- A straight line of instructions. -/
theorem Holds.run : ∀ {is : List Instr} {σ σ' : Sym} {m : Machine}, σ.Holds link m₀ m → σ.run is = some σ' →
    σ'.Holds link m₀ (m.run link is)
  | [], σ, σ', m, hh, h => by cases h; exact hh
  | i :: is, σ, σ', m, hh, h => by
    rw [Sym.run, List.foldlM_cons] at h
    obtain ⟨σ₁, h₁, h₂⟩ := Option.bind_eq_some_iff.mp h
    exact (hh.exec h₁).run h₂

theorem Holds.ret (hh : σ.Holds link m₀ m) {n : Nat} {σ' : Sym} (h : σ.ret n = some σ') :
    m.ret link n = some m ∧ σ'.Holds link m₀ m := by
  unfold Sym.ret at h
  split at h
  · rename_i hr
    cases h
    exact ⟨if_pos (BitVec.eq_of_toNat_eq (hh.reg hr)), hh⟩
  · cases h

theorem Holds.havoc (hh : σ.Holds link m₀ m) {n : Nat} {m' : Machine} (hn : n ≤ 2 ^ 64) (hsp : m'.sp = m.sp)
    (hmem : ∀ a ∈ Bytes.cells m.sp n, m'.mem a = m.mem a) : (σ.havoc n).Holds link m₀ m' := by
  refine ⟨hsp.trans hh.sp_eq, by simp [Sym.havoc], fun s hs => ?_⟩
  obtain ⟨hs, hin⟩ := List.mem_filter.mp hs
  obtain ⟨hlo, hhi⟩ := of_decide_eq_true hin
  rw [← hh.slot_eq s hs]
  refine Bytes.read_congr _ _ fun c hc => hmem c ?_
  -- the distance of a cell of the slot from the stack pointer is less than `n`
  rw [hh.sp_eq, Bytes.mem_cells_bv hn]
  rw [Bytes.mem_cells_bv (by omega)] at hc
  have hdist : c - spAt m₀ σ.sp = .ofInt 64 (s.off - σ.sp + (c - spAt m₀ s.off).toNat) := by
    rw [BitVec.ofInt_add, Int.sub_eq_add_neg, BitVec.ofInt_add, BitVec.ofInt_neg, BitVec.ofInt_natCast,
      BitVec.ofNat_toNat, BitVec.setWidth_eq, spAt, spAt]
    ring
  rw [hdist, BitVec.toNat_ofInt]
  omega

theorem holds_start (rs : List Reg) : (start rs).Holds link m₀ m₀ := by
  refine ⟨by simp [start, spAt], fun p hp => ?_, by simp [start]⟩
  obtain ⟨r, -, rfl⟩ := List.mem_map.mp hp
  rfl

end Sym

end

/-! ## Registers kept -/

def Base.regs : Base → List Reg
  | .sp => []
  | .x i => [.x i]

def Instr.writes : Instr → List Reg
  | .mov d _ | .movk d _ _ | .mrs d _ => [.x d]
  | .msr s _ => [.sys s]
  | .add d _ _ => Base.regs d
  | .str _ _ _ | .stp _ _ _ _ => []
  | .ldr t _ _ => [t]
  | .ldp t₁ t₂ _ _ => [t₁, t₂]
  | .stpPre _ _ n _ => Base.regs n
  | .ldpPost t₁ t₂ n _ => t₁ :: t₂ :: Base.regs n
  | .bl _ => [.x 30]

section
variable {link : Nat → Addr} {m : Machine}

theorem setBase_reg {r : Reg} {n : Base} (h : r ∉ Base.regs n) (a : Addr) : (m.setBase n a).reg r = m.reg r := by
  cases n with
  | sp => rfl
  | x i => exact m.set_of_ne _ (by simpa [Base.regs] using h)

theorem loadPair_reg {r t₁ t₂ : Reg} (h₁ : r ≠ t₁) (h₂ : r ≠ t₂) (a : Addr) :
    (m.loadPair t₁ t₂ a).reg r = m.reg r := by
  rw [Machine.loadPair, Machine.set_of_ne _ _ h₂, Machine.set_of_ne _ _ h₁]

theorem exec_reg {r : Reg} {i : Instr} (h : r ∉ Instr.writes i) : (m.exec link i).reg r = m.reg r := by
  cases i with
  | mov | movk | mrs | msr | ldr | bl => exact m.set_of_ne _ (by simpa [Instr.writes] using h)
  | str | stp => rfl
  | add d n imm => exact setBase_reg h _
  | stpPre t₁ t₂ n off => exact setBase_reg (m := m.storePair t₁ t₂ _) h _
  | ldp t₁ t₂ n off =>
    simp only [Instr.writes, List.mem_cons, List.not_mem_nil, or_false, not_or] at h
    exact loadPair_reg h.1 h.2 _
  | ldpPost t₁ t₂ n off =>
    simp only [Instr.writes, List.mem_cons, not_or] at h
    exact (setBase_reg (m := m.loadPair t₁ t₂ _) h.2.2 _).trans (loadPair_reg h.1 h.2.1 _)

theorem run_reg {r : Reg} : ∀ {is : List Instr} {m : Machine}, (∀ i ∈ is, r ∉ Instr.writes i) →
    (m.run link is).reg r = m.reg r
  | [], _, _ => rfl
  | i :: is, m, h => by
    rw [Machine.run, List.foldl_cons]
    exact (run_reg fun j hj => h j (List.mem_cons_of_mem i hj)).trans (exec_reg (h i List.mem_cons_self))

theorem exec_mov_x (d : Fin 31) (imm : Nat) : (m.exec link (.mov d imm)).x d = .ofNat 64 imm := m.set_self ..

theorem exec_movk_x (d : Fin 31) (imm shift : Nat) : (m.exec link (.movk d imm shift)).x d =
    m.x d &&& ~~~(0xffff#64 <<< shift) ||| BitVec.ofNat 64 imm <<< shift := m.set_self ..

theorem run_x {i : Fin 31} {is : List Instr} (h : ∀ j ∈ is, Reg.x i ∉ Instr.writes j) :
    (m.run link is).x i = m.x i :=
  run_reg h

/-! ## Memory and stack pointer kept -/

def Instr.isStore : Instr → Bool
  | .str _ _ _ | .stp _ _ _ _ | .stpPre _ _ _ _ => true
  | _ => false

def Instr.sparesSp : Instr → Bool
  | .add d n _ => d != .sp && n != .sp
  | .str _ n _ | .ldr _ n _ | .stp _ _ n _ | .ldp _ _ n _ | .stpPre _ _ n _ | .ldpPost _ _ n _ => n != .sp
  | _ => true

def Machine.withSp (m : Machine) (a : Addr) : Machine := { m with sp := a }

theorem setBase_mem (n : Base) (a : Addr) : (m.setBase n a).mem = m.mem := by
  cases n <;> rfl

theorem exec_mem {i : Instr} (h : i.isStore = false) : (m.exec link i).mem = m.mem := by
  cases i with
  | str | stp | stpPre => cases h
  | add d n imm => exact setBase_mem d _
  | ldpPost t₁ t₂ n off => exact setBase_mem n _
  | _ => rfl

theorem run_mem : ∀ {is : List Instr} {m : Machine}, (∀ i ∈ is, i.isStore = false) → (m.run link is).mem = m.mem
  | [], _, _ => rfl
  | i :: is, m, h => by
    rw [Machine.run, List.foldl_cons]
    exact (run_mem fun j hj => h j (List.mem_cons_of_mem i hj)).trans (exec_mem (h i List.mem_cons_self))

theorem exec_withSp {i : Instr} (h : i.sparesSp = true) (a : Addr) :
    (m.withSp a).exec link i = (m.exec link i).withSp a := by
  cases i with
  | add d n imm =>
    cases d with
    | sp => cases h
    | x i =>
      cases n with
      | sp => cases h
      | x j => rfl
  | str t n off | ldr t n off | stp t₁ t₂ n off | ldp t₁ t₂ n off | stpPre t₁ t₂ n off | ldpPost t₁ t₂ n off =>
    cases n with
    | sp => cases h
    | x j => rfl
  | _ => rfl

theorem run_withSp (a : Addr) : ∀ {is : List Instr} {m : Machine}, (∀ i ∈ is, i.sparesSp = true) →
    (m.withSp a).run link is = (m.run link is).withSp a
  | [], _, _ => rfl
  | i :: is, m, h => by
    rw [Machine.run, Machine.run, List.foldl_cons, List.foldl_cons, exec_withSp (h i List.mem_cons_self)]
    exact run_withSp a fun j hj => h j (List.mem_cons_of_mem i hj)

end

end Aarch64

import Osymandias.Multitasking
import Osymandias.ProcessMemory

/-!
# The first process

`GlobalScheduler::start` makes two processes, puts them in the queue, and with
a few instructions of its own gives the processor to the first one, through the
`context_restore` of `ext/init.S`.
-/

namespace Osymandias

open Aarch64 Fuel Tiling

/-! ## The queue at the start -/

section
variable {S : Sig}

def TrapFrame.load (m : Memory) (a : Nat) : TrapFrame where
  elr := .ofNat (readField m a .elr)
  spsr := .ofNat (readField m a .spsr)
  sp := .ofNat (readField m a .sp)
  tpidr := .ofNat (readField m a .tpidr)
  q i := .ofNat 128 (readField m a (.q i))
  x i := .ofNat (readField m a (.x i))
  reserved := .ofNat (readField m a .reserved)

def ProcessMemory.view (p : ProcessMemory) (m : Memory) : Process S :=
  ⟨TrapFrame.load m p.trapFrame, .ofNat p.stack, .ready⟩

/-- `add` writes the id into the frame in memory. Without an id the process is dropped. -/
def addProcess (fuel : Nat) (scheduler : Scheduler S) (s : System) (p : ProcessMemory) :
    Except Fault (Scheduler S × System) :=
  match scheduler.add (p.view s.mem) with
  | (some pid, scheduler) =>
    .ok (scheduler, s.withMem (TrapFrame.writeField s.mem p.trapFrame .tpidr pid.toNat))
  | (none, scheduler) => do
    let s ← p.drop fuel s
    return (scheduler, s)

def start (fuel : Nat) (shell₁ shell₂ : UInt64) (scheduler : Option (Scheduler S)) (s : System) :
    Except Fault (Nat × ProcessMemory × ProcessMemory × Scheduler S × System) := do
  let scheduler := scheduler.getD .new
  let (p₁, s) ← newProcess fuel shell₁ s
  let (p₂, s) ← newProcess fuel shell₂ s
  let tf := p₁.trapFrame
  let (scheduler, s) ← addProcess fuel scheduler s p₁
  let (scheduler, s) ← addProcess fuel scheduler s p₂
  return (tf, p₁, p₂, scheduler, s)

end

/-- The instructions of `start`, up to its `eret`; `ldr x0, =_start` is a move. -/
def startAsm (link : Nat → Addr) (startAddr tf : Addr) (m : Machine) : Option Machine := do
  let m ← ((m.set (.x 0) tf).run link (.bl 0 :: contextRestore)).ret link 0
  return m.run link [.mov 0 startAddr.toNat, .add .sp (.x 0) 0, .mov 0 0]

/-! ## Taking a frame -/

def restoreSym : Sym :=
  ⟨[(.x 0, .addr 0), (.x 30, .link 0)], 0, saved.map fun r =>
    ⟨((TrapFrame.fieldOf r).bind TrapFrame.offset).getD 0, r.bytes, .init r⟩⟩

def FrameTaken (σ : Sym) : Prop :=
  σ.reg (.x 30) = some (.link 0) ∧ ∀ r ∈ saved, r ≠ .x 0 → r ≠ .x 30 → σ.reg r = some (.init r)

instance (σ : Sym) : Decidable (FrameTaken σ) := inferInstanceAs (Decidable (_ ∧ _))

theorem restoreSym_ok : ∃ σ ∈ restoreSym.run contextRestore, FrameTaken σ := by decide +kernel

theorem contextRestore_spares : ∀ i ∈ contextRestore, i.sparesSp = true ∧ i.isStore = false := by decide

section
variable {link : Nat → Addr} {m : Machine} {a : Addr}

def frameOwner (m : Machine) (a : Addr) : Machine := ⟨(readFrame m a).reg, a, m.mem⟩

theorem restoreSym_holds (h0 : m.x 0 = a) (h30 : m.x 30 = link 0) :
    restoreSym.Holds link (frameOwner m a) (m.withSp a) := by
  have hbase : ∀ o : Nat, spAt (frameOwner m a) o = a + .ofNat 64 o := fun o => by
    rw [spAt, BitVec.ofInt_natCast]
    rfl
  refine ⟨(BitVec.add_zero a).symm, ?_, ?_⟩
  · intro p hp
    simp only [restoreSym, List.mem_cons, List.not_mem_nil, or_false] at hp
    rcases hp with rfl | rfl
    · exact congrArg BitVec.toNat (h0.trans (BitVec.add_zero a).symm)
    · exact congrArg BitVec.toNat h30
  · intro s hs
    obtain ⟨r, hr, rfl⟩ := List.mem_map.mp hs
    obtain ⟨f, hf⟩ := saved_fieldOf hr
    simp only [hf, Option.bind_some, hbase]
    rw [show (m.withSp a).mem = m.mem from rfl, ← toNat_load]
    exact congrArg BitVec.toNat (readFrame_reg hf a).symm

theorem x_eq_link {σ : Sym} {m₀ m₁ : Machine} {i : Fin 31} {n : Nat} (hh : σ.Holds link m₀ m₁)
    (h : σ.reg (.x i) = some (.link n)) : m₁.x i = link n := BitVec.eq_of_toNat_eq (hh.reg h)

theorem contextRestore_takes (h0 : m.x 0 = a) (h30 : m.x 30 = link 0) :
    ∃ m', m.run link contextRestore = m' ∧ m'.sp = m.sp ∧ m'.mem = m.mem ∧ m'.x 30 = link 0 ∧
      ∀ r f, TrapFrame.fieldOf r = some f → r ≠ .x 0 → r ≠ .x 30 → m'.reg r = (readFrame m a).reg r := by
  have hspares := fun i hi => (contextRestore_spares i hi).1
  obtain ⟨σ, hσ, hlr, hregs⟩ := restoreSym_ok
  have hh := (restoreSym_holds h0 h30).run hσ
  have hsp : (m.withSp m.sp).run link contextRestore = _ := run_withSp m.sp hspares
  have hmem : (m.run link contextRestore).mem = m.mem := run_mem fun i hi => (contextRestore_spares i hi).2
  rw [run_withSp a hspares] at hh
  rw [show m.withSp m.sp = m from rfl] at hsp
  generalize m.run link contextRestore = m' at *
  have hx : (m'.withSp a).x 30 = link 0 := x_eq_link hh hlr
  refine ⟨m', rfl, by rw [hsp]; rfl, hmem, hx, ?_⟩
  intro r f hf hr0 hr30
  exact BitVec.eq_of_toNat_eq (hh.reg (hregs r (mem_saved hf) hr0 hr30))

theorem run_cons (i : Instr) (is : List Instr) : m.run link (i :: is) = (m.exec link i).run link is := rfl

variable (link m a) in
/-- The processor changes hands. The registers are those of the frame, but
for `x0`, which is cleared, and the link register. The kernel's stack is empty. -/
theorem startAsm_takes (startAddr : Addr) :
    ∃ m', startAsm link startAddr a m = some m' ∧ m'.sp = startAddr ∧ m'.mem = m.mem ∧ m'.x 0 = 0 ∧
      m'.x 30 = link 0 ∧ ∀ r f, TrapFrame.fieldOf r = some f → r ≠ .x 0 → r ≠ .x 30 →
        m'.reg r = (readFrame m a).reg r := by
  obtain ⟨m₁, hm₁⟩ : ∃ m₁, m₁ = (m.set (.x 0) a).set (.x 30) (link 0) := ⟨_, rfl⟩
  have h0 : m₁.x 0 = a := by
    rw [hm₁]
    exact (Machine.set_of_ne _ _ (show Reg.x 0 ≠ .x 30 by decide)).trans (Machine.set_self ..)
  have h30 : m₁.x 30 = link 0 := by
    rw [hm₁]
    exact Machine.set_self ..
  have hmem₁ : m₁.mem = m.mem := by rw [hm₁]; rfl
  obtain ⟨m₂, hm₂, -, hmem₂, hlr, hregs⟩ := contextRestore_takes h0 h30
  have hrun : (m.set (.x 0) a).run link (.bl 0 :: contextRestore) = m₂ := by
    rw [run_cons, ← hm₂, hm₁]
    rfl
  obtain ⟨m', hm'⟩ : ∃ m', m' = m₂.run link [.mov 0 startAddr.toNat, .add .sp (.x 0) 0, .mov 0 0] := ⟨_, rfl⟩
  have hkept : ∀ r : Reg, r ≠ .x 0 → m'.reg r = m₂.reg r := by
    intro r hr
    rw [hm']
    exact run_reg (by simp [Instr.writes, Base.regs, hr])
  refine ⟨m', ?_, ?_, ?_, ?_, (hkept (.x 30) (by decide)).trans hlr, ?_⟩
  · rw [startAsm, hrun, Machine.ret, if_pos hlr, hm']
    rfl
  · rw [hm']
    have hx0 : (m₂.exec link (.mov 0 startAddr.toNat)).x 0 = startAddr := by
      rw [exec_mov_x, BitVec.ofNat_toNat, BitVec.setWidth_eq]
    exact (BitVec.add_zero _).trans hx0
  · rw [hm']
    exact hmem₂.trans hmem₁
  · rw [hm']
    exact Machine.set_self ..
  · intro r f hf hr0 hr30
    rw [hkept r hr0, hregs r f hf hr0 hr30, readFrame_congr hmem₁]

end

/-! ## Frames in memory -/

namespace TrapFrame

variable {m mem : Memory} {a : Nat} {tf : TrapFrame}

theorem readField_congr (h : ∀ x, a ≤ x → x < a + 800 → m x = mem x) (f : Field) :
    readField m a f = readField mem a f := by
  obtain ⟨o, -, hp, hle⟩ := place_spec a f
  apply Bytes.read_congr
  intro x hx
  rw [Bytes.mem_cells] at hx
  exact h x (by omega) (by omega)

theorem load_eq (h : ∀ f, readField m a f = tf.get f) : load m a = tf := by
  obtain ⟨elr, spsr, sp, tpidr, q, x, reserved⟩ := tf
  simp only [load, h, get, UInt64.ofNat_toNat, BitVec.ofNat_toNat, BitVec.setWidth_eq]

theorem get_eq_reg {r : Reg} {f : Field} (hf : fieldOf r = some f) (tf : TrapFrame) :
    r.bytes = f.size ∧ tf.get f = (tf.reg r).toNat := by
  cases r with
  | x i => cases hf; exact ⟨rfl, rfl⟩
  | q i => cases hf; exact ⟨rfl, rfl⟩
  | sys s => cases s <;> cases hf <;> exact ⟨rfl, rfl⟩

theorem readFrame_view {cpu : Machine} (hmem : ∀ x, cpu.mem x = mem x.toNat) (ha : a + 800 ≤ 2 ^ 64)
    (h : ∀ f, readField mem a f = tf.get f) {r : Reg} {f : Field} (hf : fieldOf r = some f) :
    (readFrame cpu (.ofNat 64 a)).reg r = tf.reg r := by
  obtain ⟨o, ho, hp, hle⟩ := place_spec a f
  obtain ⟨hbytes, hget⟩ := get_eq_reg hf tf
  have hat : fieldAt (.ofNat 64 a) f = .ofNat 64 (place a f) := by
    rw [fieldAt, ho, Option.getD_some, hp, BitVec.ofNat_add]
  apply BitVec.eq_of_toNat_eq
  rw [readFrame_reg hf, toNat_load, hat, ← hget, hbytes, Bytes.read_view hmem (by omega), ← h f]
  rfl

end TrapFrame

/-! ## The start -/

def startFrame (p : ProcessMemory) (fnPtr : UInt64) : TrapFrame :=
  { newFrame p fnPtr with tpidr := 1 }

section
variable {S : Sig} {profile : Profile} {mem₀ : Memory} {endAddr fuel : Nat} {s s' : System}
  {p p₁ p₂ : ProcessMemory} {fnPtr shell₁ shell₂ : UInt64}

theorem startFrame_get {m : Memory} (h : ∀ f, TrapFrame.readField m p.trapFrame f = (newFrame p fnPtr).get f) :
    ∀ f, TrapFrame.readField (TrapFrame.writeField m p.trapFrame .tpidr 1) p.trapFrame f =
      (startFrame p fnPtr).get f := by
  intro f
  by_cases hf : f = .tpidr
  · subst hf
    rw [TrapFrame.readField_self]
    rfl
  · rw [TrapFrame.readField_of_ne _ _ _ hf, h]
    cases f with
    | tpidr => exact absurd rfl hf
    | _ => rfl

def tagged (m : Memory) (p₁ p₂ : ProcessMemory) : Memory :=
  TrapFrame.writeField (TrapFrame.writeField m p₁.trapFrame .tpidr 1) p₂.trapFrame .tpidr 1

def startQueue (m : Memory) (p₁ p₂ : ProcessMemory) : Scheduler S :=
  ((Scheduler.new.add (p₁.view m)).2.add (p₂.view (TrapFrame.writeField m p₁.trapFrame .tpidr 1))).2

theorem start_eq {s₁ s₂ : System} (h₁ : newProcess fuel shell₁ s = .ok (p₁, s₁))
    (h₂ : newProcess fuel shell₂ s₁ = .ok (p₂, s₂)) : start fuel shell₁ shell₂ (none : Option (Scheduler S)) s =
      .ok (p₁.trapFrame, p₁, p₂, startQueue s₂.mem p₁ p₂, s₂.withMem (tagged s₂.mem p₁ p₂)) := by
  rw [start, h₁]
  simp only [bind, Except.bind, h₂]
  rfl

theorem start_cases {tf : Nat} {scheduler : Scheduler S}
    (h : start fuel shell₁ shell₂ none s = .ok (tf, p₁, p₂, scheduler, s')) :
    ∃ s₁ s₂, newProcess fuel shell₁ s = .ok (p₁, s₁) ∧ newProcess fuel shell₂ s₁ = .ok (p₂, s₂) ∧
      tf = p₁.trapFrame ∧ scheduler = startQueue s₂.mem p₁ p₂ ∧ s' = s₂.withMem (tagged s₂.mem p₁ p₂) := by
  have hstart := h
  obtain ⟨⟨q₁, s₁⟩, h₁, h⟩ := bind_ok h
  obtain ⟨⟨q₂, s₂⟩, h₂, -⟩ := bind_ok h
  rw [start_eq h₁ h₂] at hstart
  cases hstart
  exact ⟨s₁, s₂, h₁, h₂, rfl, rfl, rfl⟩

theorem tagged_outside {m : Memory} {x : Nat} (h₁ : ¬ p₁.frameLive.Requested x) (h₂ : ¬ p₂.frameLive.Requested x) :
    tagged m p₁ p₂ x = m x :=
  (TrapFrame.writeField_outside _ _ _ h₂).trans (TrapFrame.writeField_outside _ _ _ h₁)

structure Started (m : Memory) (p₁ p₂ : ProcessMemory) (shell₁ shell₂ : UInt64) : Prop where
  stack : ∀ x, p₁.stackLive.Requested x ∨ p₂.stackLive.Requested x → m x = 0
  frame₁ : ∀ f, TrapFrame.readField m p₁.trapFrame f = (startFrame p₁ shell₁).get f
  frame₂ : ∀ f, TrapFrame.readField m p₂.trapFrame f = (startFrame p₂ shell₂).get f

theorem start_memory {s₁ s₂ : System} (hrun : ProcRun profile mem₀ endAddr [] s)
    (h₁ : newProcess fuel shell₁ s = .ok (p₁, s₁)) (h₂ : newProcess fuel shell₂ s₁ = .ok (p₂, s₂)) :
    Started (tagged s₂.mem p₁ p₂) p₁ p₂ shell₁ shell₂ ∧
      (∀ f, TrapFrame.readField s₂.mem p₁.trapFrame f = (newFrame p₁ shell₁).get f) ∧
      ∀ f, TrapFrame.readField (TrapFrame.writeField s₂.mem p₁.trapFrame .tpidr 1) p₂.trapFrame f =
        (newFrame p₂ shell₂).get f := by
  have hrun₁ : ProcRun profile mem₀ endAddr [p₁] s₁ := hrun.spawn h₁
  have hrun₂ : ProcRun profile mem₀ endAddr [p₁, p₂] s₂ := hrun₁.spawn h₂
  obtain ⟨_, _, _, -, ho⟩ := hrun.owned
  obtain ⟨_, _, _, -, ho₁⟩ := hrun₁.owned
  obtain ⟨_, _, _, -, ho₂⟩ := hrun₂.owned
  obtain ⟨_, hreached⟩ := ho.reached
  obtain ⟨_, hreached₁⟩ := ho₁.reached
  obtain ⟨-, -, -, hzero₁, hframe₁⟩ := newProcess_spec hreached h₁
  obtain ⟨-, -, hsame, hzero₂, hframe₂⟩ := newProcess_spec hreached₁ h₂
  have hsame₁ : ∀ l ∈ p₁.lives, ∀ x, l.Requested x → s₂.mem x = s₁.mem x := by
    intro l hl
    exact hsame l (ho₁.live l (by simpa using hl))
  have hapart := ho₂.apart
  have hpair : [p₁.frameLive, p₁.stackLive, p₂.frameLive, p₂.stackLive].Pairwise
      fun l l' => ∀ x, ¬ (l.Requested x ∧ l'.Requested x) := hapart
  simp only [List.pairwise_cons, List.mem_cons, List.not_mem_nil, or_false, forall_eq_or_imp, forall_eq] at hpair
  obtain ⟨⟨hf₁s₁, hf₁f₂, hf₁s₂⟩, ⟨hs₁f₂, -⟩, hf₂s₂, -⟩ := hpair
  have hother : ∀ f, TrapFrame.readField (TrapFrame.writeField s₂.mem p₁.trapFrame .tpidr 1) p₂.trapFrame f =
      (newFrame p₂ shell₂).get f := by
    intro f
    rw [← hframe₂ f]
    exact TrapFrame.readField_congr (fun x hlo hhi => TrapFrame.writeField_outside _ _ _ fun hx =>
      hf₁f₂ x ⟨hx, hlo, hhi⟩) f
  have hkept : ∀ f, TrapFrame.readField s₂.mem p₁.trapFrame f = (newFrame p₁ shell₁).get f := by
    intro f
    rw [← hframe₁ f]
    exact TrapFrame.readField_congr (fun x hlo hhi => hsame₁ p₁.frameLive (by simp [ProcessMemory.lives]) x
      ⟨hlo, hhi⟩) f
  refine ⟨⟨?_, ?_, startFrame_get hother⟩, hkept, hother⟩
  · rintro x (hx | hx)
    · rw [tagged_outside (fun h => hf₁s₁ x ⟨h, hx⟩) fun h => hs₁f₂ x ⟨hx, h⟩,
        hsame₁ _ (by simp [ProcessMemory.lives]) x hx]
      exact hzero₁ x hx
    · rw [tagged_outside (fun h => hf₁s₂ x ⟨h, hx⟩) fun h => hf₂s₂ x ⟨h, hx⟩]
      exact hzero₂ x hx
  · intro f
    rw [← startFrame_get hkept f]
    exact TrapFrame.readField_congr (fun x hlo hhi => TrapFrame.writeField_outside _ _ _ fun hx =>
      hf₁f₂ x ⟨⟨hlo, hhi⟩, hx⟩) f

def startProcess (p : ProcessMemory) (fnPtr : UInt64) : Process S :=
  ⟨startFrame p fnPtr, .ofNat p.stack, .ready⟩

theorem stacks_ne (hrun : ProcRun profile mem₀ endAddr [p₁, p₂] s) :
    UInt64.ofNat p₁.stack ≠ UInt64.ofNat p₂.stack := by
  intro heq
  obtain ⟨start, e, fuel, hmap, ho⟩ := hrun.owned
  obtain ⟨-, he⟩ := memoryMap_some hmap
  have hin := ho.within (by omega)
  have hapart := ho.apart
  have h₁ := (hin p₁.stackLive (by simp [ProcessMemory.lives])).2.2.2
  have h₂ := (hin p₂.stackLive (by simp [ProcessMemory.lives])).2.2.2
  have hsize : p₁.stackLive.layout.size = 2 ^ 20 ∧ p₂.stackLive.layout.size = 2 ^ 20 := ⟨rfl, rfl⟩
  have hstack : p₁.stack = p₂.stack := by
    have := congrArg UInt64.toNat heq
    rw [UInt64.toNat_ofNat', UInt64.toNat_ofNat'] at this
    have hptr : p₁.stackLive.ptr = p₁.stack ∧ p₂.stackLive.ptr = p₂.stack := ⟨rfl, rfl⟩
    omega
  have hpair : [p₁.frameLive, p₁.stackLive, p₂.frameLive, p₂.stackLive].Pairwise
      fun l l' => ∀ x, ¬ (l.Requested x ∧ l'.Requested x) := hapart
  simp only [List.pairwise_cons, List.mem_cons, List.not_mem_nil, or_false, forall_eq_or_imp, forall_eq] at hpair
  obtain ⟨-, ⟨-, hs₁s₂⟩, -⟩ := hpair
  have hsame : p₂.stackLive.Requested p₁.stack := by
    rw [hstack]
    exact ⟨le_rfl, by rw [hsize.2]; exact Nat.lt_add_of_pos_right (by decide)⟩
  exact hs₁s₂ p₁.stack ⟨⟨le_rfl, by rw [hsize.1]; exact Nat.lt_add_of_pos_right (by decide)⟩, hsame⟩

theorem start_queue {tf : Nat} {scheduler : Scheduler S} (hrun : ProcRun profile mem₀ endAddr [] s)
    (h : start fuel shell₁ shell₂ none s = .ok (tf, p₁, p₂, scheduler, s')) :
    tf = p₁.trapFrame ∧ ProcRun profile mem₀ endAddr [p₁, p₂] s' ∧ Started s'.mem p₁ p₂ shell₁ shell₂ ∧
      scheduler = ⟨[startProcess p₁ shell₁, startProcess p₂ shell₂], some 1, some 1⟩ ∧
      ∃ m, scheduler = startQueue m p₁ p₂ := by
  obtain ⟨s₁, s₂, h₁, h₂, rfl, rfl, rfl⟩ := start_cases h
  obtain ⟨hstarted, hframe₁, hframe₂⟩ := start_memory hrun h₁ h₂
  have hrun₂ : ProcRun profile mem₀ endAddr [p₁, p₂] s₂ := (hrun.spawn h₁).spawn h₂
  obtain ⟨start, e, fuel₀, -, ho⟩ := hrun₂.owned
  refine ⟨rfl, hrun₂.scribble ?_, hstarted, ?_, _, rfl⟩
  · intro x hx
    exact tagged_outside (hx _ (ho.live _ (by simp [ProcessMemory.lives])))
      (hx _ (ho.live _ (by simp [ProcessMemory.lives])))
  · have hload₁ := TrapFrame.load_eq hframe₁
    have hload₂ := TrapFrame.load_eq hframe₂
    simp only [startQueue, Scheduler.add, Scheduler.new, ProcessMemory.view, hload₁, hload₂]
    rfl

end

theorem reachable_of_adds {S : Sig} {E : Env S} {P : Traps.Platform E} {link : Nat → Addr}
    (m : Machine) (w : World E.Rest) {v₁ v₂ : Process S} (h₁ : v₁.state = .ready) (h₂ : v₂.state = .ready)
    (hne : v₁.stack ≠ v₂.stack) :
    ∃ origin, Multitasking.Reachable P link ⟨m, ((Scheduler.new.add v₁).2.add v₂).2, w, origin⟩ := by
  let σ₀ : Multitasking.System E := ⟨m, .new, w, fun _ => .added .zero⟩
  have hfresh₁ : Multitasking.Fresh σ₀ v₁ := ⟨h₁, by simp [σ₀, Scheduler.new]⟩
  have hfresh₂ : Multitasking.Fresh (σ₀.added v₁) v₂ := by
    refine ⟨h₂, ?_⟩
    intro q hq
    have hq' : q = { v₁ with trapFrame := { v₁.trapFrame with tpidr := 1 } } := by
      simpa [σ₀, Multitasking.System.added, Scheduler.add, Scheduler.new] using hq
    rw [hq']
    exact hne
  exact ⟨((σ₀.added v₁).added v₂).origin, σ₀, rfl,
    (Relation.ReflTransGen.single (.add hfresh₁)).tail (.add hfresh₂)⟩

/-- **The kernel comes up.** When `start` has made its two processes, both wait in
the queue with zeroed stacks of their own, and the processor is in the first: at
its entry point, in user mode, with the top of its stack, thread id 1 and every
other register zero, the link register aside. The kernel's stack is empty, and
the system is one of those in which every exception resumes a process as it was. -/
theorem start_enters {S : Sig} {E : Env S} (P : Traps.Platform E) (w : World E.Rest) (link : Nat → Addr)
    (startAddr : Addr) {mem₀ : Memory} {endAddr fuel tf : Nat} {s s' : System}
    {p₁ p₂ : ProcessMemory} {shell₁ shell₂ : UInt64} {scheduler : Scheduler S} {m : Machine}
    (hrun : ProcRun E.profile mem₀ endAddr [] s)
    (h : start fuel shell₁ shell₂ none s = .ok (tf, p₁, p₂, scheduler, s')) (hmem : ∀ a, m.mem a = s'.mem a.toNat) :
    ProcRun E.profile mem₀ endAddr [p₁, p₂] s' ∧ Started s'.mem p₁ p₂ shell₁ shell₂ ∧
      scheduler.processes = [startProcess p₁ shell₁, startProcess p₂ shell₂] ∧
      ∃ m', startAsm link startAddr (.ofNat 64 tf) m = some m' ∧ m'.sp = startAddr ∧ m'.mem = m.mem ∧
        m'.x 30 = link 0 ∧
        (∀ r f, TrapFrame.fieldOf r = some f → r ≠ .x 30 → m'.reg r = (startFrame p₁ shell₁).reg r) ∧
        ∃ origin, Multitasking.Reachable P link ⟨m', scheduler, w, origin⟩ := by
  obtain ⟨rfl, hrun', hstarted, hsched, m₁, hadds⟩ := start_queue hrun h
  obtain ⟨m', hasm, hsp, hkept, hx0, hlr, hregs⟩ := startAsm_takes link m (.ofNat 64 p₁.trapFrame) startAddr
  obtain ⟨start, e, fuel₀, hmap, ho⟩ := hrun'.owned
  obtain ⟨-, he⟩ := memoryMap_some hmap
  have hin := ho.within (by omega)
  refine ⟨hrun', hstarted, by rw [hsched], m', hasm, hsp, hkept, hlr, ?_, ?_⟩
  · intro r f hf hr30
    by_cases hr0 : r = .x 0
    · subst hr0
      exact hx0
    · have hframe := (hin p₁.frameLive (by simp [ProcessMemory.lives])).2.2.2
      have hle : p₁.trapFrame + 800 ≤ e := hframe
      rw [hregs r f hf hr0 hr30]
      exact TrapFrame.readFrame_view hmem (by omega) hstarted.frame₁ hf
  · rw [hadds]
    exact reachable_of_adds m' w rfl rfl (stacks_ne hrun')

/-! Two shells on the machine of 944 MiB. -/

theorem coreMem_room_two : ((allocate Stack.SIZE 16 (divideAll [⟨0xa0000, 0x3af60000⟩])).bind fun r₁ =>
    (allocate 1024 16 (divideAll r₁.2)).bind fun r₂ => (allocate Stack.SIZE 16 (divideAll r₂.2)).bind fun r₃ =>
      allocate 1024 16 (divideAll r₃.2)).isSome = true := by decide +kernel

theorem coreMem_starts (shell₁ shell₂ : UInt64) : ∃ a fuel r, ProcRun .release coreMem 0xa0000 [] ⟨a, []⟩ ∧
    start fuel shell₁ shell₂ (none : Option (Scheduler bareSig)) ⟨a, []⟩ = .ok r := by
  obtain ⟨a, hrun, P, hm, hfree⟩ := coreMem_boots
  obtain ⟨r, hroom⟩ := Option.isSome_iff_exists.mp coreMem_room_two
  obtain ⟨⟨p₁, bs₁⟩, hstack₁, hroom⟩ := Option.bind_eq_some_iff.mp hroom
  obtain ⟨⟨q₁, bs₂⟩, hframe₁, hroom⟩ := Option.bind_eq_some_iff.mp hroom
  obtain ⟨⟨p₂, bs₃⟩, hstack₂, hframe₂⟩ := Option.bind_eq_some_iff.mp hroom
  rw [← hfree] at hstack₁
  let fuel := total P.free + total (divideAll bs₁) + total (divideAll bs₂) + total (divideAll bs₃) + 2
  obtain ⟨s₁, P₁, hnew₁, hm₁, hfree₁⟩ := hm.newProcess shell₁ hstack₁ hframe₁ (show _ ≤ fuel by omega)
    (show _ ≤ fuel by omega)
  rw [← hfree₁] at hstack₂
  obtain ⟨s₂, P₂, hnew₂, -, -⟩ := hm₁.newProcess shell₂ hstack₂ hframe₂ (show _ ≤ fuel by rw [hfree₁]; omega)
    (show _ ≤ fuel by omega)
  exact ⟨a, fuel, _, hrun, start_eq hnew₁ hnew₂⟩

theorem start_enters_two : ∃ a fuel tf p₁ p₂ sched s', start fuel 0x80400 0x80800 none ⟨a, []⟩ =
    .ok (tf, p₁, p₂, (sched : Scheduler bareSig), s') ∧
    sched.processes = [startProcess p₁ 0x80400, startProcess p₂ 0x80800] ∧
    ∃ m', startAsm callSites 0x80000 (.ofNat 64 tf) ⟨fun _ => 0, 0x7f000, fun a => s'.mem a.toNat⟩ = some m' ∧
      m'.reg (.sys .ELR_EL1) = 0x80400 := by
  obtain ⟨a, fuel, ⟨tf, p₁, p₂, sched, s'⟩, hrun, h⟩ := coreMem_starts 0x80400 0x80800
  obtain ⟨-, -, hq, m', hasm, -, -, -, hregs, -⟩ := start_enters Multitasking.timerPlatform bareWorld
    callSites 0x80000 hrun h (m := ⟨fun _ => 0, 0x7f000, fun a => s'.mem a.toNat⟩) fun _ => rfl
  exact ⟨a, fuel, tf, p₁, p₂, sched, s', h, hq, m', hasm, hregs _ _ rfl (by decide)⟩

end Osymandias

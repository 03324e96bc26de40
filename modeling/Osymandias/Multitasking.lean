import Osymandias.Resume
import Osymandias.Traps

/-!
# Processes on one processor

The vectors of `ext/init.S`, `handle_exception` and the scheduler together. An
exception saves the registers of the running process in a frame, the handler
may put another process's frame in its place, and the way out takes whatever is
there. A process is known by its stack, and the history that the code does not
have tells for each process how it last came off the processor.
-/

namespace Osymandias.Multitasking

open Aarch64 Fuel RoundRobin

/-- How a process last came off the processor: not yet on it, or by the
exception at a vector, with the machine as the vector found it. -/
inductive Origin where
  | added (tf : TrapFrame)
  | trapped (source kind : Fin 4) (m : Machine)

def Origin.reg : Origin → (r : Reg) → BitVec (8 * r.bytes)
  | .added tf => tf.reg
  | .trapped _ _ m => frameReg m

structure System {S : Sig} (E : Env S) where
  cpu : Machine
  scheduler : Scheduler S
  world : World E.Rest
  origin : UInt64 → Origin

/-- The `kind` of an `Info` passed in a register: its upper halfword. -/
def kindOf (info : BitVec 64) : Option Traps.Kind :=
  match info.toNat / 2 ^ 16 % 2 ^ 16 with
  | 0 => some .synchronous
  | 1 => some .irq
  | 2 => some .fiq
  | 3 => some .sError
  | _ => none

def esrOf (x1 : BitVec 64) : UInt32 := (UInt64.ofBitVec x1).toUInt32

section
variable {S : Sig} {E : Env S} (P : Traps.Platform E) (link : Nat → Addr)

/-- A compiled `handle_exception` that was entered in `m₁` returns in `m₂`: its
stack is given back with the frame `tf'` in its place. -/
def Gives (m₁ m₂ : Machine) (tf' : TrapFrame) : Prop :=
  m₂.sp = m₁.sp ∧ m₂.load (.x 30) m₂.sp = m₁.load (.x 30) m₁.sp ∧ readFrame m₂ (m₁.x 2) = tf'

def System.recorded (σ : System E) (source kind : Fin 4) : UInt64 → Origin :=
  match σ.scheduler.processes with
  | [] => σ.origin
  | cur :: _ => Function.update σ.origin cur.stack (.trapped source kind σ.cpu)

/-- An exception through the vector `HANDLER(source, kind)`, to its `eret`. -/
def Trap (fuel : Nat) (source kind : Fin 4) (σ σ' : System E) : Prop :=
  let m₁ := enter link source kind σ.cpu
  ∃ k tf' m₂, kindOf (m₁.x 0) = some k ∧
    Traps.handleException P fuel k (esrOf (m₁.x 1)) (readFrame m₁ (m₁.x 2)) (some σ.scheduler) σ.world =
      .ok (tf', some σ'.scheduler, σ'.world) ∧
    Gives m₁ m₂ tf' ∧ leave link m₂ = some σ'.cpu ∧ σ'.origin = σ.recorded source kind

def Fresh (σ : System E) (p : Process S) : Prop :=
  p.state = .ready ∧ ∀ q ∈ σ.scheduler.processes, q.stack ≠ p.stack

def System.added (σ : System E) (p : Process S) : System E :=
  let (id, scheduler) := σ.scheduler.add p
  { σ with
    scheduler := scheduler
    origin := Function.update σ.origin p.stack (.added { p.trapFrame with tpidr := id.getD 0 }) }

/-- The steps of the system. Between exceptions the running process may do what
it likes to the processor. -/
inductive Step : System E → System E → Prop where
  | run {σ : System E} {m : Machine} {w : World E.Rest} : Step σ { σ with cpu := m, world := w }
  | trap {σ σ' : System E} {fuel : Nat} {source kind : Fin 4} : Trap P link fuel source kind σ σ' → Step σ σ'
  | add {σ : System E} {p : Process S} : Fresh σ p → Step σ (σ.added p)

def Reachable (σ : System E) : Prop :=
  ∃ σ₀, σ₀.scheduler = .new ∧ Relation.ReflTransGen (Step P link) σ₀ σ

end

/-! ## Off the processor and on it -/

section
variable {S : Sig} {E : Env S}

def kindAt : Fin 4 → Traps.Kind
  | 0 => .synchronous
  | 1 => .irq
  | 2 => .fiq
  | 3 => .sError

def asked (m : Machine) : Nat := (UInt64.ofBitVec (m.x 0)).toUInt32.toNat

/-- How a process that came off the processor is kept: with its registers, and
as the exception left it, ready after an interrupt and asleep after a system call. -/
def Suspended (o : Origin) (p : Process S) : Prop :=
  (∀ r f, TrapFrame.fieldOf r = some f → p.trapFrame.reg r = o.reg r) ∧
  match o with
  | .added _ => p.state = .ready
  | .trapped _ kind m => (kindAt kind = .irq ∧ p.state = .ready) ∨
      (kindAt kind = .synchronous ∧ ∃ us t₀, p.state = .waiting (.sleep us t₀) ∧ us.toNat = 1000 * asked m)

/-- How a process comes back: with the registers it had, but for the two in
which `sleep` answers. -/
def Resumed (o : Origin) (m' : Machine) : Prop :=
  match o with
  | .added _ => ∀ r f, TrapFrame.fieldOf r = some f → m'.reg r = o.reg r
  | .trapped _ kind m =>
    (kindAt kind = .irq ∧ ∀ r f, TrapFrame.fieldOf r = some f → m'.reg r = o.reg r) ∨
    (kindAt kind = .synchronous ∧ (∀ r f, TrapFrame.fieldOf r = some f → r ≠ .x 0 → r ≠ .x 7 → m'.reg r = o.reg r) ∧
      m'.x 7 = 0 ∧ asked m ≤ (m'.x 0).toNat)

structure Inv (σ : System E) : Prop where
  currentId : σ.scheduler.currentId = some 1
  ownStacks : (σ.scheduler.processes.map Process.stack).Nodup
  suspended : ∀ p ∈ σ.scheduler.processes.tail, Suspended (σ.origin p.stack) p

end

/-! ## Through the vector -/

section
variable {link : Nat → Addr} {m m₂ m' : Machine} {tf' : TrapFrame} {source kind : Fin 4}

theorem kindOf_enter : kindOf ((enter link source kind m).x 0) = some (kindAt kind) := by
  rw [enter_info]
  revert source kind
  decide

theorem leave_gives (hg : Gives (enter link source kind m) m₂ tf') (h : leave link m₂ = some m') :
    m'.sp = m.sp ∧ ∀ r f, TrapFrame.fieldOf r = some f → m'.reg r = tf'.reg r := by
  obtain ⟨hsp, hlr, hframe⟩ := hg
  obtain ⟨hsp₁, hlr₁, -, hx2⟩ := enter_args link m source kind
  have hlr' : m₂.load (.x 30) m₂.sp = link 0 := by rw [hlr, hsp₁, hlr₁]
  have hat : m₂.sp + 16 = (enter link source kind m).x 2 := by
    rw [hsp, hsp₁, hx2, spAt, spAt]
    bv_omega
  obtain ⟨m'', hleave, hsp'', hregs⟩ := leave_takes hlr'
  cases h.symm.trans hleave
  refine ⟨?_, ?_⟩
  · rw [hsp'', hsp, hsp₁, spAt]
    bv_omega
  · intro r f hf
    rw [hregs r f hf, hat, hframe]

end

/-! ## A switch between suspended processes -/

section
variable {S : Sig} {E : Env S}

def Quiet (p : Process S) : Prop := p.state = .ready ∨ ∃ us t₀, p.state = .waiting (.sleep us t₀)

theorem Suspended.quiet {o : Origin} {p : Process S} (h : Suspended o p) : Quiet p := by
  cases o with
  | added tf => exact .inl h.2
  | trapped source kind m =>
    rcases h.2 with ⟨-, hready⟩ | ⟨-, us, t₀, hwait, -⟩
    · exact .inl hready
    · exact .inr ⟨us, t₀, hwait⟩

theorem Quiet.eq_of_poll {p p' : Process S} {w w' : World E.Rest} (h : Quiet p)
    (hr : p.isReady E w = .ok (false, p', w')) : p' = p := by
  rcases h with hready | ⟨us, t₀, hwait⟩
  · rw [Process.isReady_of_ready hready] at hr
    cases hr
  · exact (Process.isReady_sleep hwait hr).2.1 rfl

def SameQuiet (b p : Process S) : Prop := p = b ∧ Quiet b

theorem SameQuiet.poll {b p p' : Process S} {w w' : World E.Rest} (h : SameQuiet b p)
    (hr : p.isReady E w = .ok (false, p', w')) : SameQuiet b p' := by
  obtain ⟨rfl, hq⟩ := h
  exact ⟨hq.eq_of_poll hr, hq⟩

theorem sameQuiet_refl {q : List (Process S)} (h : ∀ p ∈ q, Quiet p) : List.Forall₂ SameQuiet q q :=
  List.forall₂_same.mpr fun p hp => ⟨rfl, h p hp⟩

theorem eq_of_sameQuiet {q q' : List (Process S)} (h : List.Forall₂ SameQuiet q q') : q' = q := by
  induction h with
  | nil => rfl
  | cons hab _ ih => rw [hab.1, ih]

theorem switchAt_quiet {s s' : Scheduler S} {w w' : World E.Rest} {fuel k : Nat} {st : State S} {tf tf' : TrapFrame}
    {id : Id} {cur : Process S} {rest : List (Process S)} (hq : s.processes = cur :: rest)
    (h : s.switchAt E fuel st tf w = .ok (some (k, id), tf', s', w'))
    (hquiet : ∀ p ∈ rest ++ [Scheduler.saved cur st tf], Quiet p) :
    ∃ e p ps w₁, (rest ++ [Scheduler.saved cur st tf]).rotate k = e :: ps ∧ s'.processes = p :: ps ∧
      tf' = p.trapFrame ∧ e.isReady E w₁ = .ok (true, p, w') := by
  obtain ⟨e, es, a, p, ps, w₁, hrot, hs, htf, -, hps, ⟨rfl, -⟩, hr⟩ := Scheduler.switchAt_keeps
    (R := SameQuiet) (fun _ _ _ _ _ hb hpoll => hb.poll hpoll) h hq (sameQuiet_refl hquiet)
  rw [eq_of_sameQuiet hps] at hs
  exact ⟨_, p, es, w₁, hrot, hs, htf, hr⟩

theorem isReady_stack {p p' : Process S} {w w' : World E.Rest} {r : Bool} (hq : Quiet p)
    (hr : p.isReady E w = .ok (r, p', w')) : p'.stack = p.stack := by
  rcases hq with hready | ⟨us, t₀, hwait⟩
  · rw [Process.isReady_of_ready hready] at hr
    cases hr
    rfl
  · rw [Process.isReady_sleep_eq hwait] at hr
    obtain ⟨elapsed, -, hr⟩ := Fuel.map_ok hr
    by_cases hus : us < elapsed
    · rw [if_pos hus] at hr
      cases hr
      rfl
    · rw [if_neg hus] at hr
      cases hr
      rfl

theorem reg_of_x {tf tf' : TrapFrame} (h : tf' = { tf with x := tf'.x })
    (hx : ∀ i, i ≠ 0 → i ≠ 7 → tf'.x i = tf.x i)
    {r : Reg} (h0 : r ≠ .x 0) (h7 : r ≠ .x 7) : tf'.reg r = tf.reg r := by
  cases r with
  | x i => exact congrArg UInt64.toBitVec (hx i (fun e => h0 (e ▸ rfl)) fun e => h7 (e ▸ rfl))
  | q i => rw [h]; rfl
  | sys s => rw [h]; cases s <;> rfl

theorem Suspended.resumes {o : Origin} {p p' : Process S} {w w' : World E.Rest} {m' : Machine} (h : Suspended o p)
    (hr : p.isReady E w = .ok (true, p', w'))
    (hregs : ∀ r f, TrapFrame.fieldOf r = some f → m'.reg r = p'.trapFrame.reg r) : Resumed o m' := by
  have hready : p.state = .ready → ∀ r f, TrapFrame.fieldOf r = some f → m'.reg r = o.reg r := by
    intro hst r f hf
    rw [Process.isReady_of_ready hst] at hr
    cases hr
    rw [hregs r f hf, h.1 r f hf]
  cases o with
  | added tf => exact hready h.2
  | trapped source kind m =>
    rcases h.2 with ⟨hkind, hst⟩ | ⟨hkind, us, t₀, hwait, hus⟩
    · exact .inl ⟨hkind, hready hst⟩
    · obtain ⟨-, hms, hx7, hx, htf⟩ := wakes_of_poll hwait hus hr
      refine .inr ⟨hkind, fun r f hf h0 h7 => ?_, ?_, ?_⟩
      · rw [hregs r f hf, reg_of_x htf hx h0 h7, h.1 r f hf]
      · rw [Machine.x, hregs (.x 7) _ rfl]
        exact congrArg UInt64.toBitVec hx7
      · rw [Machine.x, hregs (.x 0) _ rfl]
        exact hms

end

/-! ## One exception -/

section
variable {S : Sig} {E : Env S} {P : Traps.Platform E} {link : Nat → Addr} {fuel : Nat}
  {source kind : Fin 4} {σ σ' : System E}

def LeftIn (kind : Fin 4) (m : Machine) (st : State S) : Prop :=
  (kindAt kind = .irq ∧ st = .ready) ∨
    (kindAt kind = .synchronous ∧ ∃ us t₀, st = .waiting (.sleep us t₀) ∧ us.toNat = 1000 * asked m)

theorem LeftIn.suspended {m : Machine} {st : State S} (h : LeftIn kind m st) (cur : Process S) :
    Suspended (.trapped source kind m) (Scheduler.saved cur st (entryFrame link source kind m)) := by
  refine ⟨fun r f hf => entryFrame_reg hf, ?_⟩
  rcases h with ⟨hk, rfl⟩ | ⟨hk, us, t₀, rfl, hus⟩
  · exact .inl ⟨hk, rfl⟩
  · exact .inr ⟨hk, us, t₀, rfl, hus⟩

theorem entryFrame_x0 (m : Machine) : (entryFrame link source kind m).x 0 = UInt64.ofBitVec (m.x 0) := by
  have h : (entryFrame link source kind m).reg (.x 0) = _ := entryFrame_reg rfl
  rw [frameReg, dif_neg (by simp)] at h
  exact UInt64.toBitVec_inj.mp h

/-- What an exception can do. It ends with the frame `tf'` in the registers:
one that a switch from the frame of the entry returned, or that frame itself
past the breakpoint. -/
theorem Trap.cases (h : Trap P link fuel source kind σ σ') :
    ∃ tf', σ'.origin = σ.recorded source kind ∧ σ'.cpu.sp = σ.cpu.sp ∧
      (∀ r f, TrapFrame.fieldOf r = some f → σ'.cpu.reg r = tf'.reg r) ∧
      ((∃ r w w₁ st, σ.scheduler.switchAt E fuel st (entryFrame link source kind σ.cpu) w =
          .ok (r, tf', σ'.scheduler, w₁) ∧ LeftIn kind σ.cpu st) ∨
        (kindAt kind = .synchronous ∧ σ'.scheduler = σ.scheduler ∧
          ∃ imm elr, Traps.Syndrome.from (esrOf (σ.cpu.reg (.sys .ESR_EL1))) = .ok (.brk imm) ∧
            E.profile.u64Add (entryFrame link source kind σ.cpu).elr 4 = .ok elr ∧
            tf' = { entryFrame link source kind σ.cpu with elr := elr })) := by
  obtain ⟨k, tf', m₂, hk, hhandle, hgives, hleave, horigin⟩ := h
  obtain ⟨-, -, hx1, -⟩ := enter_args link σ.cpu source kind
  rw [kindOf_enter] at hk
  cases hk
  obtain ⟨hsp, hregs⟩ := leave_gives hgives hleave
  refine ⟨tf', horigin, hsp, hregs, ?_⟩
  obtain ⟨imm, elr, hkind, hbrk, -, hadd, htf, hg⟩ | ⟨num, hkind, -, hcall⟩ | ⟨w₁, hkind, -, hirq⟩ :=
    Traps.handleException_cases hhandle
  · refine .inr ⟨hkind, Option.some.inj hg, imm, elr, ?_, hadd, htf⟩
    rw [← hx1]
    exact hbrk
  · cases Traps.handleSyscall_num hcall
    obtain ⟨us, r, s', hus, hg, hat⟩ := handleSyscall_sleep hcall
    cases hg
    refine .inl ⟨r, _, _, _, hat, .inr ⟨hkind, us, _, rfl, ?_⟩⟩
    rw [hus, asked, ← entryFrame_x0]
    rfl
  · obtain ⟨r, s', w₂, hg, -, hat⟩ := Traps.switch_of_handleIrq hirq
    cases hg
    exact .inl ⟨r, w₁, w₂, .ready, hat, .inl ⟨hkind, rfl⟩⟩

theorem saved_stack (cur : Process S) (st : State S) (tf : TrapFrame) :
    (Scheduler.saved cur st tf).stack = cur.stack := rfl

theorem recorded_of_ne {cur : Process S} {rest : List (Process S)} (hq : σ.scheduler.processes = cur :: rest)
    {b : UInt64} (hne : b ≠ cur.stack) : σ.recorded source kind b = σ.origin b := by
  simp only [System.recorded, hq, Function.update_of_ne hne]

theorem recorded_self {cur : Process S} {rest : List (Process S)} (hq : σ.scheduler.processes = cur :: rest) :
    σ.recorded source kind cur.stack = .trapped source kind σ.cpu := by
  simp only [System.recorded, hq, Function.update_self]

theorem Inv.rest_suspended (hσ : Inv σ) {cur : Process S} {rest : List (Process S)}
    (hq : σ.scheduler.processes = cur :: rest) :
    ∀ p ∈ rest, p.stack ≠ cur.stack ∧ Suspended (σ.recorded source kind p.stack) p := by
  intro p hp
  have hstacks := hσ.ownStacks
  have hsusp := hσ.suspended
  rw [hq, List.map_cons, List.nodup_cons] at hstacks
  rw [hq, List.tail_cons] at hsusp
  have hne : p.stack ≠ cur.stack := fun e => hstacks.1 (e ▸ List.mem_map_of_mem hp)
  refine ⟨hne, ?_⟩
  rw [recorded_of_ne hq hne]
  exact hsusp p hp

theorem Inv.switched (hσ : Inv σ) {cur : Process S} {rest : List (Process S)}
    (hq : σ.scheduler.processes = cur :: rest)
    {r : Option (Nat × Id)} {w w₁ : World E.Rest} {st : State S} {tf tf' : TrapFrame} {s' : Scheduler S}
    {m' : Machine} (hout : Suspended (.trapped source kind σ.cpu) (Scheduler.saved cur st tf))
    (hat : σ.scheduler.switchAt E fuel st tf w = .ok (r, tf', s', w₁))
    (hregs : ∀ r f, TrapFrame.fieldOf r = some f → m'.reg r = tf'.reg r) :
    ∃ k p ps, s'.processes = p :: ps ∧
      (p :: ps).map Process.stack = ((rest ++ [cur]).map Process.stack).rotate k ∧
      (∀ q ∈ ps, Suspended (σ.recorded source kind q.stack) q) ∧ Resumed (σ.recorded source kind p.stack) m' := by
  have hall : ∀ p ∈ rest ++ [Scheduler.saved cur st tf], Suspended (σ.recorded source kind p.stack) p := by
    intro p hp
    rcases List.mem_append.mp hp with hp | hp
    · exact (hσ.rest_suspended hq p hp).2
    · rw [List.mem_singleton.mp hp, saved_stack, recorded_self hq]
      exact hout
  obtain ⟨hnil, -⟩ | ⟨_, _, k, p₁, _, _, _, _, rfl, -⟩ := Scheduler.switchAt_cases hat
  · cases hq.symm.trans hnil
  obtain ⟨e, p, ps, w₂, hrot, hs, htf, hr⟩ := switchAt_quiet hq hat fun p hp => (hall p hp).quiet
  have hmem : ∀ q ∈ e :: ps, q ∈ rest ++ [Scheduler.saved cur st tf] := by
    intro q hmem
    rw [← hrot] at hmem
    exact List.mem_rotate.mp hmem
  have he := hall e (hmem e List.mem_cons_self)
  have hstack := isReady_stack he.quiet hr
  refine ⟨k, p, ps, hs, ?_, fun q hmemq => hall q (hmem q (List.mem_cons_of_mem e hmemq)), ?_⟩
  · have hmap := congrArg (List.map Process.stack) hrot
    rw [List.map_rotate, List.map_append, List.map_cons] at hmap
    rw [List.map_cons, hstack, List.map_append]
    exact hmap.symm
  · rw [hstack]
    subst htf
    exact he.resumes hr hregs

/-! ## Every reachable state -/

theorem Inv.trap (hσ : Inv σ) (h : Trap P link fuel source kind σ σ') : Inv σ' := by
  obtain ⟨tf', horigin, -, hregs, ⟨r, w, w₁, st, hat, hleft⟩ | ⟨-, hsched, -⟩⟩ := h.cases
  · cases hq : σ.scheduler.processes with
    | nil =>
      obtain ⟨-, -, -, hs, -⟩ | ⟨_, _, _, _, _, _, _, hq', -⟩ := Scheduler.switchAt_cases hat
      · refine ⟨?_, ?_, ?_⟩
        · rw [hs]; exact hσ.currentId
        · rw [hs]; exact hσ.ownStacks
        · rw [hs, hq]; simp
      · cases hq.symm.trans hq'
    | cons cur rest =>
      obtain ⟨k, p, ps, hs, hstacks, hps, -⟩ := hσ.switched hq (hleft.suspended cur) hat hregs
      have hown := hσ.ownStacks
      rw [hq] at hown
      refine ⟨?_, ?_, ?_⟩
      · obtain ⟨-, -, -, hs', -⟩ | ⟨_, _, _, _, _, _, _, -, -, -, hs', -⟩ := Scheduler.switchAt_cases hat
        · rw [hs']; exact hσ.currentId
        · rw [hs']; exact hσ.currentId
      · rw [hs, hstacks, List.nodup_rotate]
        exact (((List.perm_append_singleton cur rest).map Process.stack).nodup_iff).mpr hown
      · rw [hs, List.tail_cons, horigin]
        exact hps
  · refine ⟨by rw [hsched]; exact hσ.currentId, by rw [hsched]; exact hσ.ownStacks, ?_⟩
    rw [hsched, horigin]
    cases hq : σ.scheduler.processes with
    | nil => simp
    | cons cur rest =>
      intro p hp
      exact (hσ.rest_suspended hq p hp).2

theorem added_eq (h : σ.scheduler.currentId = some 1) (p : Process S) : σ.added p =
    { σ with
      scheduler := { σ.scheduler with
        lastId := some 1, processes := σ.scheduler.processes ++ [Config.firstId p] }
      origin := Function.update σ.origin p.stack (.added (Config.firstId p).trapFrame) } := by
  simp [System.added, Scheduler.add, h, Config.firstId]

theorem Inv.added (hσ : Inv σ) {p : Process S} (hp : Fresh σ p) : Inv (σ.added p) := by
  rw [added_eq hσ.currentId]
  refine ⟨hσ.currentId, ?_, ?_⟩
  · rw [List.map_append, List.nodup_append]
    refine ⟨hσ.ownStacks, by simp, ?_⟩
    intro b hb c hc
    obtain ⟨q, hq, rfl⟩ := List.mem_map.mp hb
    rw [List.map_singleton, List.mem_singleton] at hc
    rw [hc]
    exact hp.2 q hq
  · intro q hq
    have hq' := List.mem_of_mem_tail hq
    rcases List.mem_append.mp hq' with hold | hnew
    · simp only [Function.update_of_ne (hp.2 q hold)]
      refine hσ.suspended q ?_
      cases hs : σ.scheduler.processes with
      | nil => rw [hs] at hold; cases hold
      | cons cur rest =>
        simp only [hs, List.cons_append, List.tail_cons, List.mem_append, List.mem_singleton] at hq ⊢
        rcases hq with hq | hq
        · exact hq
        · have hstack : q.stack = p.stack := by rw [hq]; rfl
          exact absurd hstack (hp.2 q hold)
    · rw [List.mem_singleton.mp hnew]
      simp only [Config.firstId, Function.update_self]
      exact ⟨fun _ _ _ => rfl, hp.1⟩

theorem Inv.step (hσ : Inv σ) (h : Step P link σ σ') : Inv σ' := by
  cases h with
  | run => exact ⟨hσ.currentId, hσ.ownStacks, hσ.suspended⟩
  | trap h => exact hσ.trap h
  | add hp => exact hσ.added hp

theorem Reachable.inv (h : Reachable P link σ) : Inv σ := by
  obtain ⟨σ₀, hnew, hrun⟩ := h
  induction hrun with
  | refl => exact ⟨by rw [hnew]; rfl, by rw [hnew]; exact .nil, by rw [hnew]; simp [Scheduler.new]⟩
  | tail _ hstep ih => exact ih.step hstep

/-- **Every process has the processor to itself.** In every reachable state, when
a timer interrupt or a system call returns, the queue has been turned, and the
process at its front goes on with the registers it had when it last came off
the processor, or was added with: all of them after an interrupt, all but `x0`
and `x7` after `sleep`, which has put there a zero and at least the time asked
for. (`frameReg` has `q4` for `q5`.) The kernel's stack pointer is as before. -/
theorem trap_resumes (hσ : Reachable P link σ) (h : Trap P link fuel source kind σ σ')
    (hkind : kindAt kind = .irq ∨ Traps.exceptionClass (esrOf (σ.cpu.reg (.sys .ESR_EL1))) = 0b010101)
    {cur : Process S} {rest : List (Process S)} (hq : σ.scheduler.processes = cur :: rest) :
    σ'.origin = Function.update σ.origin cur.stack (.trapped source kind σ.cpu) ∧ σ'.cpu.sp = σ.cpu.sp ∧
      ∃ k p ps, σ'.scheduler.processes = p :: ps ∧
        (p :: ps).map Process.stack = ((rest ++ [cur]).map Process.stack).rotate k ∧
        Resumed (σ'.origin p.stack) σ'.cpu := by
  obtain ⟨tf', horigin, hsp, hregs, ⟨r, w, w₁, st, hat, hleft⟩ | ⟨hk, -, imm, elr, hbrk, -⟩⟩ := h.cases
  · obtain ⟨k, p, ps, hs, hstacks, -, hresumed⟩ := hσ.inv.switched hq (hleft.suspended cur) hat hregs
    refine ⟨?_, hsp, k, p, ps, hs, hstacks, ?_⟩
    · rw [horigin, System.recorded, hq]
    · rw [horigin]
      exact hresumed
  · rcases hkind with hk' | hsvc
    · cases hk.symm.trans hk'
    · rw [Traps.syndrome_svc hsvc] at hbrk
      cases hbrk

end

/-! A processor with one process, and an interrupt controller with the timer's interrupt pending. -/

def timerPlatform : Traps.Platform bareEnv where
  shell := .ok
  controller := ⟨fun _ w => (2, w), fun _ _ w => w, fun _ _ w => w⟩
  timer := ⟨⟨fun w => (0, w), fun w => (0, w)⟩, fun _ w => w, fun _ _ w => w⟩
  debug _ := ""

def noProcess : System bareEnv := ⟨zeroMachine, .new, bareWorld, fun _ => .added .zero⟩

def oneProcess : System bareEnv := noProcess.added (bareProcess 1)

theorem oneProcess_reachable : Reachable timerPlatform callSites oneProcess :=
  ⟨noProcess, rfl, .tail .refl (.add ⟨rfl, by simp [noProcess, Scheduler.new]⟩)⟩

theorem gives_self (m : Machine) : Gives m m (readFrame m (m.x 2)) := ⟨rfl, rfl, rfl⟩

theorem oneProcess_interrupted (tf : TrapFrame) :
    Traps.handleException timerPlatform 1 .irq (esrOf 0) tf (some oneProcess.scheduler) oneProcess.world =
      .ok (tf, some ⟨[⟨tf, 1, .ready⟩], some 1, some 1⟩, bareWorld) := by
  rw [Traps.handleException_irq (by decide)]
  rfl

theorem oneProcess_traps : ∃ σ', Trap timerPlatform callSites 1 2 1 oneProcess σ' := by
  obtain ⟨hsp, hlr, hx1, -⟩ := enter_args callSites zeroMachine (2 : Fin 4) (1 : Fin 4)
  obtain ⟨m', hleave, -, -⟩ := leave_takes ((congrArg _ hsp).trans hlr)
  have hesr : esrOf ((enter callSites (2 : Fin 4) (1 : Fin 4) zeroMachine).x 1) = esrOf 0 := congrArg esrOf hx1
  have hhandle := oneProcess_interrupted (entryFrame callSites (2 : Fin 4) (1 : Fin 4) zeroMachine)
  rw [← hesr] at hhandle
  exact ⟨⟨m', _, _, oneProcess.recorded 2 1⟩, .irq, _, _, kindOf_enter, hhandle, gives_self _, hleave, rfl⟩

theorem trap_resumes_one : ∃ σ', Trap timerPlatform callSites 1 2 1 oneProcess σ' ∧
    ∃ p ps, σ'.scheduler.processes = p :: ps ∧ Resumed (σ'.origin p.stack) σ'.cpu := by
  obtain ⟨σ', h⟩ := oneProcess_traps
  obtain ⟨-, -, k, p, ps, hs, -, hresumed⟩ := trap_resumes oneProcess_reachable h (.inl rfl)
    (show oneProcess.scheduler.processes = [Config.firstId (bareProcess 1)] from rfl)
  exact ⟨σ', h, p, ps, hs, hresumed⟩

end Osymandias.Multitasking

import Osymandias.Interrupts
import Osymandias.Syndrome
import Osymandias.Syscall

/-!
# Exceptions

`handle_exception` of `traps/mod.rs` and `traps/irq.rs`. The syndrome is decoded
before the kind of the exception is looked at, also for an interrupt, which
leaves an old `ESR` in place.
-/

namespace Osymandias.Traps

inductive Kind where
  | synchronous
  | irq
  | fiq
  | sError
  deriving DecidableEq, Repr

/-- What the handler reaches: the shell, the registers of the interrupt controller
and of the timer, and the `Debug` text of a syndrome. -/
structure Platform {S : Sig} (E : Env S) where
  shell : World E.Rest → Except Fuel.Fault (World E.Rest)
  controller : Controller.Registers (World E.Rest)
  timer : Timer.TickRegisters (World E.Rest)
  debug : Syndrome → String

section
variable {S : Sig} {E : Env S} (P : Platform E)

def handleIrq (fuel : Nat) (interrupt : Interrupt) (tf : TrapFrame) (g : GlobalScheduler S) (w : World E.Rest) :
    Except Fuel.Fault (TrapFrame × GlobalScheduler S × World E.Rest) :=
  match interrupt with
  | .timer1 => do
    let (_, tf', g', w') ← g.switch E fuel .ready tf w
    return (tf', g', Timer.tickIn P.timer Timer.TICK w')
  | interrupt => .error (.panic ("unexpected interrupt: " ++ interrupt.debug))

def handleException (fuel : Nat) (kind : Kind) (esr : UInt32) (tf : TrapFrame)
    (g : GlobalScheduler S) (w : World E.Rest) :
    Except Fuel.Fault (TrapFrame × GlobalScheduler S × World E.Rest) := do
  let syndrome ← Syndrome.from esr
  match kind, syndrome with
  | .synchronous, .brk _ =>
    let w' ← P.shell w
    let elr ← E.profile.u64Add tf.elr 4
    return ({ tf with elr := elr }, g, w')
  | .synchronous, .svc x => handleSyscall E fuel x tf g w
  | .irq, _ =>
    let (pending, w') ← Controller.isPending P.controller .timer1 w
    if pending then handleIrq P fuel .timer1 tf g w' else .error (.panic "unexpected interrupt")
  | _, syndrome => .error (.panic ("unexpected syndrome: " ++ P.debug syndrome))

end

section
variable {S : Sig} {E : Env S} {P : Platform E} {fuel : Nat} {esr esr' : UInt32} {tf : TrapFrame}
  {g : GlobalScheduler S} {w : World E.Rest}

theorem syndrome_svc (h : exceptionClass esr = 0b010101) : Syndrome.from esr = .ok (.svc esr.toUInt16) := by
  unfold Syndrome.from
  rw [h]
  rfl

theorem handleException_irq (h : exceptionClass esr ≠ 0b100101) :
    handleException P fuel .irq esr tf g w = (do
      let (pending, w') ← Controller.isPending P.controller .timer1 w
      if pending then handleIrq P fuel .timer1 tf g w' else .error (.panic "unexpected interrupt")) := by
  obtain ⟨s, hs⟩ := syndrome_returns h
  unfold handleException
  rw [hs]
  rfl

/-- A data abort of the kernel is fatal to the handler, and so is any exception
that finds its class in the `ESR`. -/
theorem handleException_current_data (h : exceptionClass esr = 0b100101) (kind : Kind) :
    handleException P fuel kind esr tf g w = .error (.panic "no fault for given exception class 37") := by
  unfold handleException
  rw [syndrome_current_data h]
  rfl

/-- Interrupts and old syndromes. What the `ESR` still holds has no part in how an
interrupt is handled, unless it is the class that is not decoded. -/
theorem irq_ignores_esr (h : exceptionClass esr ≠ 0b100101) (h' : exceptionClass esr' ≠ 0b100101) :
    handleException P fuel .irq esr tf g w = handleException P fuel .irq esr' tf g w := by
  rw [handleException_irq h, handleException_irq h']

/-- What `handle_exception` can do, where it returns. -/
theorem handleException_cases {kind : Kind} {tf' : TrapFrame} {g' : GlobalScheduler S} {w' : World E.Rest}
    (h : handleException P fuel kind esr tf g w = .ok (tf', g', w')) :
    (∃ imm elr, kind = .synchronous ∧ Syndrome.from esr = .ok (.brk imm) ∧ P.shell w = .ok w' ∧
      E.profile.u64Add tf.elr 4 = .ok elr ∧ tf' = { tf with elr := elr } ∧ g' = g) ∨
    (∃ num, kind = .synchronous ∧ Syndrome.from esr = .ok (.svc num) ∧
      handleSyscall E fuel num tf g w = .ok (tf', g', w')) ∨
    (∃ w₁, kind = .irq ∧ Controller.isPending P.controller .timer1 w = .ok (true, w₁) ∧
      handleIrq P fuel .timer1 tf g w₁ = .ok (tf', g', w')) := by
  obtain ⟨s, hs, h⟩ := Fuel.bind_ok h
  cases kind with
  | synchronous =>
    cases s with
    | brk imm =>
      obtain ⟨w₁, hshell, h⟩ := Fuel.bind_ok h
      obtain ⟨elr, hadd, h⟩ := Fuel.bind_ok h
      cases h
      exact .inl ⟨imm, elr, rfl, hs, hshell, hadd, rfl, rfl⟩
    | svc num => exact .inr (.inl ⟨num, rfl, hs, h⟩)
    | _ => cases h
  | irq =>
    obtain ⟨⟨pending, w₁⟩, hp, h⟩ := Fuel.bind_ok h
    cases pending with
    | true => exact .inr (.inr ⟨w₁, rfl, hp, h⟩)
    | false => cases h
  | fiq => cases s <;> cases h
  | sError => cases s <;> cases h

theorem switch_of_handleIrq {tf' : TrapFrame} {s : Scheduler S} {g' : GlobalScheduler S} {w' : World E.Rest}
    (h : handleIrq P fuel .timer1 tf (some s) w = .ok (tf', g', w')) :
    ∃ r s' w₁, g' = some s' ∧ w' = Timer.tickIn P.timer Timer.TICK w₁ ∧
      s.switchAt E fuel .ready tf w = .ok (r, tf', s', w₁) := by
  obtain ⟨⟨id, tf₁, g₁, w₁⟩, hg, h⟩ := Fuel.bind_ok h
  obtain ⟨⟨id', tf₂, s₁, w₂⟩, hs, hg⟩ := Fuel.bind_ok hg
  cases hg
  cases h
  obtain ⟨r, -, hat⟩ := Scheduler.switch_ok hs
  exact ⟨r, s₁, w₁, rfl, rfl, hat⟩

theorem handleSyscall_num {num : UInt16} {tf' : TrapFrame} {g' : GlobalScheduler S} {w' : World E.Rest}
    (h : handleSyscall E fuel num tf g w = .ok (tf', g', w')) : num = 1 := by
  by_contra hne
  rw [handleSyscall, if_neg hne] at h
  cases h

end

end Osymandias.Traps

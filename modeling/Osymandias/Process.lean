import Osymandias.TrapFrame
import Osymandias.Usize

/-!
# Processes and their poll functions

`process/process.rs` and `process/state.rs`. A boxed closure is its code and
what it captured; calling it may change the captures, the process it is given
and the rest of the world. The one closure of the kernel is that of
`traps/syscall.rs`, and has its own constructor; any other is a parameter.
-/

namespace Osymandias

open Fuel

structure Sig where
  Code : Type
  Captures : Code → Type

inductive EventPollFn (S : Sig) where
  | sleep (us startTime : UInt64)
  | other (code : S.Code) (captures : S.Captures code)

inductive State (S : Sig) where
  | ready
  | waiting (f : EventPollFn S)
  | running

structure Process (S : Sig) where
  trapFrame : TrapFrame
  stack : UInt64
  state : State S

/-- What poll functions see and change besides their process: how often the
system timer has been read, and everything else. -/
structure World (R : Type) where
  reads : Nat
  rest : R

/-- What is not the scheduler's: the build, the timer, the other poll functions,
and what happens while the processor waits for an interrupt. None of it takes a
read of the timer back. -/
structure Env (S : Sig) where
  profile : Profile
  Rest : Type
  ticks : Nat → UInt64
  call : (c : S.Code) → S.Captures c → Process S → World Rest →
    Except Fault (Bool × S.Captures c × Process S × World Rest)
  wfi : World Rest → World Rest
  call_reads : ∀ c x p w b x' p' w', call c x p w = .ok (b, x', p', w') → w.reads ≤ w'.reads
  wfi_reads : ∀ w, w.reads ≤ (wfi w).reads

section
variable {S : Sig} (E : Env S)

def Env.timerRead (w : World E.Rest) : UInt64 × World E.Rest := (E.ticks w.reads, { w with reads := w.reads + 1 })

def sleepReady (us startTime : UInt64) (process : Process S) (w : World E.Rest) :
    Except Fault (Bool × Process S × World E.Rest) := do
  let (now, w') := E.timerRead w
  let elapsed ← E.profile.u64Sub now startTime
  if elapsed > us then
    return (true, { process with trapFrame := (process.trapFrame.setX 0 (elapsed / 1000)).setX 7 0 }, w')
  else
    return (false, process, w')

def EventPollFn.call (f : EventPollFn S) (process : Process S) (w : World E.Rest) :
    Except Fault (Bool × EventPollFn S × Process S × World E.Rest) :=
  match f with
  | .sleep us startTime => do
    let (b, process', w') ← sleepReady E us startTime process w
    return (b, .sleep us startTime, process', w')
  | .other code captures => do
    let (b, captures', process', w') ← E.call code captures process w
    return (b, .other code captures', process', w')

def Process.isReady (self : Process S) (w : World E.Rest) : Except Fault (Bool × Process S × World E.Rest) :=
  match self.state with
  | .ready => .ok (true, { self with state := .ready }, w)
  | .running => .ok (false, { self with state := .running }, w)
  | .waiting f => do
    -- the closure runs on the process with its state replaced
    let (b, f', self', w') ← f.call E { self with state := .ready } w
    if b then return (true, self', w')
    else return (false, { self' with state := .waiting f' }, w')

end

/-! ## What a poll can do -/

def EventPollFn.Same {S : Sig} : EventPollFn S → EventPollFn S → Prop
  | .sleep us t, .sleep us' t' => us = us' ∧ t = t'
  | .other c _, .other c' _ => c = c'
  | _, _ => False

section
variable {S : Sig} {E : Env S}

theorem EventPollFn.Same.refl (f : EventPollFn S) : f.Same f := by
  cases f with
  | sleep us t => exact ⟨rfl, rfl⟩
  | other c x => rfl

theorem EventPollFn.Same.trans {f g h : EventPollFn S} (h₁ : f.Same g) (h₂ : g.Same h) : f.Same h := by
  cases f <;> cases g <;> cases h <;> simp_all [EventPollFn.Same]

theorem EventPollFn.call_cases {f f' : EventPollFn S} {p p' : Process S} {w w' : World E.Rest} {b : Bool}
    (h : f.call E p w = .ok (b, f', p', w')) : f.Same f' ∧ w.reads ≤ w'.reads := by
  cases f with
  | sleep us t =>
    obtain ⟨⟨b₁, p₁, w₁⟩, hs, h⟩ := bind_ok h
    cases h
    obtain ⟨elapsed, -, hs⟩ := bind_ok hs
    by_cases hus : elapsed > us
    · rw [if_pos hus] at hs
      cases hs
      exact ⟨.refl _, Nat.le_succ _⟩
    · rw [if_neg hus] at hs
      cases hs
      exact ⟨.refl _, Nat.le_succ _⟩
  | other c x =>
    obtain ⟨⟨b₁, x', p₁, w₁⟩, hc, h⟩ := bind_ok h
    cases h
    exact ⟨rfl, E.call_reads _ _ _ _ _ _ _ _ hc⟩

/-- What `is_ready` can do. -/
theorem Process.isReady_cases {p p' : Process S} {w w' : World E.Rest} {r : Bool}
    (h : p.isReady E w = .ok (r, p', w')) :
    (p.state = .ready ∧ r = true ∧ p' = p ∧ w' = w) ∨ (p.state = .running ∧ r = false ∧ p' = p ∧ w' = w) ∨
    ∃ f f' p₁, p.state = .waiting f ∧ f.call E { p with state := .ready } w = .ok (r, f', p₁, w') ∧
      p' = if r then p₁ else { p₁ with state := .waiting f' } := by
  obtain ⟨tf, stack, state⟩ := p
  cases state with
  | ready => cases h; exact .inl ⟨rfl, rfl, rfl, rfl⟩
  | running => cases h; exact .inr (.inl ⟨rfl, rfl, rfl, rfl⟩)
  | waiting f =>
    obtain ⟨⟨b, f', p₁, w₁⟩, hc, h⟩ := bind_ok h
    cases b <;> cases h <;> exact .inr (.inr ⟨f, f', _, rfl, hc, rfl⟩)

theorem Process.isReady_reads {p p' : Process S} {w w' : World E.Rest} {r : Bool}
    (h : p.isReady E w = .ok (r, p', w')) : w.reads ≤ w'.reads := by
  obtain ⟨-, -, -, rfl⟩ | ⟨-, -, -, rfl⟩ | ⟨f, f', p₁, -, hc, -⟩ := Process.isReady_cases h
  · exact Nat.le_refl _
  · exact Nat.le_refl _
  · exact (EventPollFn.call_cases hc).2

theorem Process.isReady_of_ready {p : Process S} (h : p.state = .ready) (w : World E.Rest) :
    p.isReady E w = .ok (true, p, w) := by
  obtain ⟨tf, stack, state⟩ := p
  cases h
  rfl

/-- Nothing happened to the process, or it still waits on the same poll function. -/
def StillWaiting (p p' : Process S) : Prop :=
  p' = p ∨ ∃ f f', p.state = .waiting f ∧ p'.state = .waiting f' ∧ f.Same f'

theorem StillWaiting.poll {p p₁ p₂ : Process S} {w w' : World E.Rest} (h : StillWaiting p p₁)
    (hr : p₁.isReady E w = .ok (false, p₂, w')) : StillWaiting p p₂ := by
  obtain ⟨-, hr, -⟩ | ⟨-, -, rfl, -⟩ | ⟨f, f', p', hf, hc, rfl⟩ := Process.isReady_cases hr
  · cases hr
  · exact h
  · have hsame := (EventPollFn.call_cases hc).1
    rcases h with rfl | ⟨g, f₁, hg, hf₁, hgf⟩
    · exact .inr ⟨f, f', hf, rfl, hsame⟩
    · cases hf.symm.trans hf₁
      exact .inr ⟨g, f', hg, rfl, hgf.trans hsame⟩

end

/-! A kernel with no poll function but `sleep`'s, whose timer advances five milliseconds at each read. -/

def bareSig : Sig := ⟨Empty, fun _ => Unit⟩

def bareEnv : Env bareSig where
  profile := .release
  Rest := Unit
  ticks n := UInt64.ofNat (min (5000 * n) (2 ^ 64 - 1))
  call c := c.elim
  wfi := id
  call_reads c := c.elim
  wfi_reads _ := Nat.le_refl _

def bareWorld : World bareEnv.Rest := ⟨0, ()⟩

end Osymandias

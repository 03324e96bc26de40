import Osymandias.Multitasking

/-!
# Exceptions end

`switch` blocks until there is a process to switch to. After an interrupt there
is one: the process that was interrupted. After `sleep` there may be none, and
whether the call ends is up to the timer.
-/

namespace Osymandias.Progress

open Fuel RoundRobin Multitasking

section
variable {S : Sig} (E : Env S)

def Monotone : Prop := ∀ m n, m ≤ n → E.ticks m ≤ E.ticks n

/-- A process that a poll at `w`, or later, can be made on: ready, or asleep
since a time that the timer has reached. -/
def Punctual (w : World E.Rest) (p : Process S) : Prop :=
  p.state = .ready ∨ ∃ us t₀, p.state = .waiting (.sleep us t₀) ∧ t₀ ≤ E.ticks w.reads

end

/-! ## Polls of punctual processes -/

section
variable {S : Sig} {E : Env S} {p : Process S} {v w : World E.Rest}

theorem Punctual.quiet (h : Punctual E w p) : Quiet p := by
  rcases h with hready | ⟨us, t₀, hwait, -⟩
  · exact .inl hready
  · exact .inr ⟨us, t₀, hwait⟩

theorem Punctual.later (hmono : Monotone E) (h : Punctual E w p) (hle : w.reads ≤ v.reads) : Punctual E v p := by
  rcases h with hready | ⟨us, t₀, hwait, ht⟩
  · exact .inl hready
  · exact .inr ⟨us, t₀, hwait, UInt64.le_trans ht (hmono _ _ hle)⟩

theorem Punctual.poll (hmono : Monotone E) (h : Punctual E w p) (hle : w.reads ≤ v.reads) :
    ∃ r p' v', p.isReady E v = .ok (r, p', v') ∧ w.reads ≤ v'.reads := by
  have hpoll : ∃ r p' v', p.isReady E v = .ok (r, p', v') := by
    rcases h.later hmono hle with hready | ⟨us, t₀, hwait, ht⟩
    · exact ⟨_, _, _, Process.isReady_of_ready hready v⟩
    · exact Process.isReady_sleep_total hwait ht
  obtain ⟨r, p', v', hr⟩ := hpoll
  exact ⟨r, p', v', hr, Nat.le_trans hle (Process.isReady_reads hr)⟩

section
variable {s s' : Scheduler S} {w' : World E.Rest} {fuel : Nat} {st : State S} {tf tf' : TrapFrame} {cur : Process S}
  {rest : List (Process S)}

theorem forall_saved {Q : Process S → Prop} (hrest : ∀ p ∈ rest, Q p) (hcur : Q (Scheduler.saved cur st tf)) :
    ∀ p ∈ rest ++ [Scheduler.saved cur st tf], Q p := by
  intro p hp
  rcases List.mem_append.mp hp with hp | hp
  · exact hrest p hp
  · rw [List.mem_singleton.mp hp]
    exact hcur

theorem switchAt_punctual (hmono : Monotone E) {r : Option (Nat × Id)} (hq : s.processes = cur :: rest)
    (hrest : ∀ p ∈ rest, Punctual E w p) (hcur : Punctual E w (Scheduler.saved cur st tf))
    (h : s.switchAt E fuel st tf w = .ok (r, tf', s', w')) :
    w.reads ≤ w'.reads ∧ ∀ p ∈ s'.processes.tail, Punctual E w' p := by
  obtain ⟨hnil, -⟩ | ⟨_, _, k, _, _, _, _, -, rfl, -⟩ := Scheduler.switchAt_cases h
  · cases hq.symm.trans hnil
  have hall := forall_saved hrest hcur
  obtain ⟨e, p, ps, w₁, hrot, hs, -, -⟩ := switchAt_quiet hq h fun p hp => (hall p hp).quiet
  obtain ⟨_, _, _, _, _, w₂, -, -, -, -, -, -, hw₂, hr⟩ := Scheduler.switchAt_forall₂ (R := fun _ _ => True)
    (I := fun v => w.reads ≤ v.reads) (fun _ _ _ _ _ _ _ _ => trivial)
    (fun _ _ _ _ _ hv hr => Nat.le_trans hv (Process.isReady_reads hr))
    (fun v hv => Nat.le_trans hv (E.wfi_reads v)) h hq (Nat.le_refl _)
    (sameQuiet_refl (fun p hp => (hall p hp).quiet) |>.imp
      fun _ _ _ => trivial)
  have hle := Nat.le_trans hw₂ (Process.isReady_reads hr)
  refine ⟨hle, ?_⟩
  intro p' hp'
  rw [hs, List.tail_cons] at hp'
  have hmem : p' ∈ (rest ++ [Scheduler.saved cur st tf]).rotate k := by
    rw [hrot]
    exact List.mem_cons_of_mem e hp'
  exact (hall p' (List.mem_rotate.mp hmem)).later hmono hle

end

end

/-! ## Runs of the kernel -/

section
variable {S : Sig} {E : Env S} (P : Traps.Platform E)

/-- What the handler calls does not take a read of the timer back. -/
structure Forward : Prop where
  shell : ∀ w w', P.shell w = .ok w' → w.reads ≤ w'.reads
  readIrqPending : ∀ i w, w.reads ≤ (P.controller.readIrqPending i w).2.reads
  tickIn : ∀ us w, w.reads ≤ (Timer.tickIn P.timer us w).reads

inductive Step : Scheduler S × World E.Rest → Scheduler S × World E.Rest → Prop where
  | exception {s s' : Scheduler S} {w w' : World E.Rest} {fuel : Nat} {kind : Traps.Kind} {esr : UInt32}
    {tf tf' : TrapFrame} :
    Traps.handleException P fuel kind esr tf (some s) w = .ok (tf', some s', w') → Step (s, w) (s', w')
  | elapse {s : Scheduler S} {w w' : World E.Rest} : w.reads ≤ w'.reads → Step (s, w) (s, w')
  | add {s : Scheduler S} {w : World E.Rest} {p : Process S} : p.state = .ready → Step (s, w) ((s.add p).2, w)

def Reachable (s : Scheduler S) (w : World E.Rest) : Prop :=
  ∃ w₀, Relation.ReflTransGen (Step P) (.new, w₀) (s, w)

end

section
variable {S : Sig} {E : Env S} {P : Traps.Platform E} {fuel : Nat} {esr : UInt32}
  {s s' : Scheduler S} {w w' : World E.Rest} {tf tf' : TrapFrame}

theorem Forward.pending (hP : Forward P) {pending : Bool} {w₁ : World E.Rest}
    (h : Controller.isPending P.controller .timer1 w = .ok (pending, w₁)) : w.reads ≤ w₁.reads := by
  rw [Controller.isPending_timer1] at h
  cases h
  exact hP.readIrqPending 0 w

def Inv (s : Scheduler S) (w : World E.Rest) : Prop := ∀ p ∈ s.processes.tail, Punctual E w p

theorem Inv.later (hmono : Monotone E) (h : Inv s w) (hle : w.reads ≤ w'.reads) : Inv s w' :=
  fun p hp => (h p hp).later hmono hle

theorem Inv.rest (h : Inv s w) {cur : Process S} {rest : List (Process S)} (hq : s.processes = cur :: rest) :
    ∀ p ∈ rest, Punctual E w p := by
  intro p hp
  refine h p ?_
  rw [hq]
  exact hp

theorem Inv.switchAt (hmono : Monotone E) (h : Inv s w) {st : State S} {r : Option (Nat × Id)}
    (hst : ∀ cur, Punctual E w (Scheduler.saved cur st tf))
    (hat : s.switchAt E fuel st tf w = .ok (r, tf', s', w')) :
    Inv s' w' := by
  cases hq : s.processes with
  | nil =>
    obtain ⟨-, -, -, rfl, rfl⟩ | ⟨_, _, _, _, _, _, _, hq', -⟩ := Scheduler.switchAt_cases hat
    · exact h
    · cases hq.symm.trans hq'
  | cons cur rest => exact (switchAt_punctual hmono hq (h.rest hq) (hst cur) hat).2

theorem punctual_sleep (hmono : Monotone E) (us : UInt64) (cur : Process S) : Punctual E (E.timerRead w).2
    (Scheduler.saved cur (.waiting (.sleep us (E.ticks w.reads))) tf) :=
  .inr ⟨us, _, rfl, hmono _ _ (Nat.le_succ _)⟩

theorem Inv.exception (hmono : Monotone E) (hP : Forward P) (h : Inv s w) {kind : Traps.Kind}
    (hx : Traps.handleException P fuel kind esr tf (some s) w = .ok (tf', some s', w')) : Inv s' w' := by
  obtain ⟨imm, elr, -, -, hshell, -, -, hg⟩ | ⟨num, -, -, hcall⟩ | ⟨w₁, -, hpending, hirq⟩ :=
    Traps.handleException_cases hx
  · cases hg
    exact h.later hmono (hP.shell w w' hshell)
  · cases Traps.handleSyscall_num hcall
    obtain ⟨us, r, s₁, -, hg, hat⟩ := handleSyscall_sleep hcall
    cases hg
    exact (h.later hmono (Nat.le_succ w.reads)).switchAt hmono (punctual_sleep hmono us) hat
  · obtain ⟨r, s₁, w₂, hg, rfl, hat⟩ := Traps.switch_of_handleIrq hirq
    cases hg
    have hreads := hP.pending hpending
    exact ((h.later hmono hreads).switchAt hmono (fun _ => .inl rfl) hat).later hmono (hP.tickIn _ w₂)

theorem Inv.added (h : Inv s w) {p : Process S} (hp : p.state = .ready) : Inv (s.add p).2 w := by
  intro q hq
  unfold Scheduler.add at hq
  cases hid : s.currentId with
  | none => simp only [hid] at hq; exact h q hq
  | some prev =>
    simp only [hid] at hq
    cases hs : s.processes with
    | nil => simp [hs] at hq
    | cons cur rest =>
      rw [hs, List.cons_append, List.tail_cons] at hq
      rcases List.mem_append.mp hq with hq | hq
      · exact h.rest hs q hq
      · rw [List.mem_singleton.mp hq]
        exact .inl hp

theorem Reachable.inv (hmono : Monotone E) (hP : Forward P) (h : Reachable P s w) : Inv s w := by
  obtain ⟨w₀, hrun⟩ := h
  have hall : ∀ k, Relation.ReflTransGen (Step P) (.new, w₀) k → Inv k.1 k.2 := by
    intro k hk
    induction hk with
    | refl => simp [Inv, Scheduler.new]
    | tail _ hstep ih =>
      cases hstep with
      | exception hx => exact ih.exception hmono hP hx
      | elapse hle => exact ih.later hmono hle
      | add hp => exact ih.added hp
  exact hall _ hrun

/-! ## Interrupts and calls end -/

end

end Osymandias.Progress

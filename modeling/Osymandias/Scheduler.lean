import Osymandias.Process
import Osymandias.RoundRobin

/-!
# The scheduler

`process/scheduler.rs`. The queue's front is the running process. A switch
saves it at the back and polls the others in turn; the first that is ready
becomes the front.
-/

namespace Osymandias

open Fuel RoundRobin

abbrev Id := UInt64

def u64CheckedAdd (a b : UInt64) : Option UInt64 := if a.toNat + b.toNat < 2 ^ 64 then some (a + b) else none

structure Scheduler (S : Sig) where
  processes : List (Process S)
  currentId : Option Id
  lastId : Option Id

namespace Scheduler

section
variable {S : Sig}

def new : Scheduler S := ⟨[], some 1, none⟩

def current (self : Scheduler S) : Option (Process S) := self.processes.head?

def add (self : Scheduler S) (process : Process S) : Option Id × Scheduler S :=
  match self.currentId with
  | some prev =>
    -- a local variable, not the field: the next id is dropped
    let _currentId := u64CheckedAdd prev 1
    let process' := { process with trapFrame := { process.trapFrame with tpidr := prev } }
    (some prev, { self with lastId := some prev, processes := self.processes ++ [process'] })
  | none => (none, self)

variable (E : Env S)

/-- Besides the process that is now at the front, the index it was found at. -/
def next (self : Scheduler S) (w : World E.Rest) :
    Except Fault (Option (Nat × Process S) × Scheduler S × World E.Rest) := do
  let (index, processes, w') ← position (Process.isReady E) self.processes w
  match index with
  | none => return (none, { self with processes }, w')
  | some index =>
    let back := processes.take index
    let self' := { self with processes := processes.drop index ++ back }
    return (self'.current.map (index, ·), self', w')

def waitNext : Nat → Scheduler S → World E.Rest → Except Fault ((Nat × Process S) × Scheduler S × World E.Rest)
  | 0, _, _ => .error .outOfFuel
  | fuel + 1, self, w => do
    match ← self.next E w with
    | (some next, self', w') => return (next, self', w')
    | (none, self', w') => waitNext fuel self' (E.wfi w')

def saved (cur : Process S) (newState : State S) (tf : TrapFrame) : Process S :=
  { cur with trapFrame := tf, state := newState }

/-- `switch`, which also tells the index that its last search found. -/
def switchAt (fuel : Nat) (self : Scheduler S) (newState : State S) (tf : TrapFrame) (w : World E.Rest) :
    Except Fault (Option (Nat × Id) × TrapFrame × Scheduler S × World E.Rest) :=
  match self.processes with
  | [] => .ok (none, tf, self, w)
  | cur :: rest => do
    let ((k, next), self', w') ← waitNext E fuel { self with processes := rest ++ [saved cur newState tf] } w
    let tf' := next.trapFrame
    return (some (k, tf'.tpidr), tf', self', w')

def switch (fuel : Nat) (self : Scheduler S) (newState : State S) (tf : TrapFrame) (w : World E.Rest) :
    Except Fault (Option Id × TrapFrame × Scheduler S × World E.Rest) := do
  let (r, tf', self', w') ← self.switchAt E fuel newState tf w
  return (r.map Prod.snd, tf', self', w')

end

/-! ## What a switch can do -/

section
variable {S : Sig} {E : Env S} {s s' : Scheduler S} {w w' : World E.Rest}

theorem next_cases {o : Option (Nat × Process S)} (h : s.next E w = .ok (o, s', w')) :
    (o = none ∧ Pass (Process.isReady E) s.processes w s'.processes w' ∧
      s' = { s with processes := s'.processes }) ∨
    ∃ k p ps, o = some (k, p) ∧ s' = { s with processes := p :: ps } ∧
      Finds (Process.isReady E) s.processes w k (p :: ps) w' := by
  obtain ⟨⟨i, ps, w₁⟩, hp, h⟩ := bind_ok h
  cases i with
  | none =>
    cases h
    obtain ⟨-, hpass⟩ | ⟨_, _, _, _, _, _, hi, -⟩ := position_cases hp
    · exact .inl ⟨rfl, hpass, rfl⟩
    · cases hi
  | some k =>
    have hf := finds_of_position hp
    obtain ⟨p, ps', hq⟩ := hf.front
    rw [hq] at hf
    cases h
    refine .inr ⟨k, p, ps', ?_, ?_, hf⟩
    · simp only [current, hq, List.head?_cons, Option.map_some]
    · rw [hq]

theorem waitNext_cases : ∀ {fuel : Nat} {s s' : Scheduler S} {w w' : World E.Rest} {k : Nat} {p : Process S},
    waitNext E fuel s w = .ok ((k, p), s', w') →
    ∃ q w₁ ps, Passes (Process.isReady E) E.wfi s.processes w q w₁ ∧
      Finds (Process.isReady E) q w₁ k (p :: ps) w' ∧ s' = { s with processes := p :: ps }
  | 0, _, _, _, _, _, _, h => by cases h
  | fuel + 1, s, s', w, w', k, p, h => by
    rw [waitNext] at h
    obtain ⟨⟨o, s₁, w₁⟩, hn, h⟩ := bind_ok h
    rcases next_cases hn with ⟨rfl, hpass, hs₁⟩ | ⟨k', p', ps, rfl, rfl, hf⟩
    · obtain ⟨q, w₂, ps, hpasses, hf, hs'⟩ := waitNext_cases (show waitNext E fuel s₁ (E.wfi w₁) = _ from h)
      refine ⟨q, w₂, ps, .step hpass hpasses, hf, ?_⟩
      rw [hs', hs₁]
    · cases h
      exact ⟨s.processes, w, ps, .refl, hf, rfl⟩

/-- What `switch` can do. With no process, nothing. Otherwise the running one
is saved at the back, and behind any number of fruitless passes a search finds
the process whose frame is returned. -/
theorem switchAt_cases {fuel : Nat} {st : State S} {tf tf' : TrapFrame} {r : Option (Nat × Id)}
    (h : s.switchAt E fuel st tf w = .ok (r, tf', s', w')) :
    (s.processes = [] ∧ r = none ∧ tf' = tf ∧ s' = s ∧ w' = w) ∨
    ∃ cur rest k p ps q w₁, s.processes = cur :: rest ∧ r = some (k, p.trapFrame.tpidr) ∧ tf' = p.trapFrame ∧
      s' = { s with processes := p :: ps } ∧
      Passes (Process.isReady E) E.wfi (rest ++ [saved cur st tf]) w q w₁ ∧
      Finds (Process.isReady E) q w₁ k (p :: ps) w' := by
  unfold switchAt at h
  split at h
  · rename_i hq
    cases h
    exact .inl ⟨hq, rfl, rfl, rfl, rfl⟩
  · rename_i cur rest hq
    obtain ⟨⟨⟨k, p⟩, s₁, w₁⟩, hn, h⟩ := bind_ok h
    obtain ⟨q, w₂, ps, hpasses, hf, rfl⟩ := waitNext_cases hn
    cases h
    exact .inr ⟨cur, rest, k, p, ps, q, w₂, hq, rfl, rfl, rfl, hpasses, hf⟩

theorem switch_ok {fuel : Nat} {st : State S} {tf tf' : TrapFrame} {r : Option Id}
    (h : s.switch E fuel st tf w = .ok (r, tf', s', w')) :
    ∃ r', r = r'.map Prod.snd ∧ s.switchAt E fuel st tf w = .ok (r', tf', s', w') := by
  obtain ⟨⟨r', tf₁, s₁, w₁⟩, hs, h⟩ := bind_ok h
  cases h
  exact ⟨r', rfl, hs⟩

theorem switchAt_none {fuel : Nat} {st : State S} {tf tf' : TrapFrame}
    (h : s.switchAt E fuel st tf w = .ok (none, tf', s', w')) : s' = s ∧ w' = w := by
  obtain ⟨-, -, -, hs, hw⟩ | ⟨_, _, _, _, _, _, _, -, hr, -⟩ := switchAt_cases h
  · exact ⟨hs, hw⟩
  · cases hr

/-- The process selected, and the others, related to entries `es` of the queue. -/
theorem switchAt_forall₂ {β : Type} {R : β → Process S → Prop} {I : World E.Rest → Prop}
    (keep : ∀ b p v p' v', I v → R b p → p.isReady E v = .ok (false, p', v') → R b p')
    (world : ∀ p v r p' v', I v → Process.isReady E p v = .ok (r, p', v') → I v') (hwfi : ∀ v, I v → I (E.wfi v))
    {fuel k : Nat} {st : State S} {tf tf' : TrapFrame} {id : Id} {cur : Process S} {rest : List (Process S)}
    {es : List β} (h : s.switchAt E fuel st tf w = .ok (some (k, id), tf', s', w'))
    (hq : s.processes = cur :: rest) (hw : I w) (hes : List.Forall₂ R es (rest ++ [saved cur st tf])) :
    ∃ e es' a p ps w₁, es.rotate k = e :: es' ∧ s'.processes = p :: ps ∧ tf' = p.trapFrame ∧ id = tf'.tpidr ∧
      List.Forall₂ R es' ps ∧ R e a ∧ I w₁ ∧ a.isReady E w₁ = .ok (true, p, w') := by
  obtain ⟨hnil, -⟩ | ⟨cur', rest', k', p, ps, q, w₁, hq', hr, rfl, rfl, hpasses, hf⟩ := switchAt_cases h
  · cases hq.symm.trans hnil
  · cases hq.symm.trans hq'
    cases hr
    obtain ⟨hes₁, hw₁⟩ := hpasses.forall₂ keep world hwfi hw hes
    obtain ⟨e, es', a, p', ps', w₂, hrot, hp, hes', he, hw₂, ha⟩ := hf.forall₂ keep world hw₁ hes₁
    cases hp
    exact ⟨e, es', a, p, ps, w₂, hrot, rfl, rfl, rfl, hes', he, hw₂, ha⟩

theorem switchAt_keeps {β : Type} {R : β → Process S → Prop}
    (keep : ∀ b p v p' v', R b p → Process.isReady E p v = .ok (false, p', v') → R b p')
    {fuel k : Nat} {st : State S} {tf tf' : TrapFrame} {id : Id} {cur : Process S} {rest : List (Process S)}
    {es : List β} (h : s.switchAt E fuel st tf w = .ok (some (k, id), tf', s', w'))
    (hq : s.processes = cur :: rest) (hes : List.Forall₂ R es (rest ++ [saved cur st tf])) :
    ∃ e es' a p ps w₁, es.rotate k = e :: es' ∧ s'.processes = p :: ps ∧ tf' = p.trapFrame ∧ id = tf'.tpidr ∧
      List.Forall₂ R es' ps ∧ R e a ∧ a.isReady E w₁ = .ok (true, p, w') := by
  obtain ⟨e, es', a, p, ps, w₁, hrot, hs, htf, hid, hes', he, -, ha⟩ := switchAt_forall₂ (I := fun _ => True)
    (fun b p v p' v' _ => keep b p v p' v') (fun _ _ _ _ _ _ _ => trivial) (fun _ _ => trivial) h hq trivial hes
  exact ⟨e, es', a, p, ps, w₁, hrot, hs, htf, hid, hes', he, ha⟩

end

end Scheduler

end Osymandias

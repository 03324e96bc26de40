import Osymandias.Usize

/-!
# The mutex

`mutex.rs`. A `Mutex` is a flag and an owner word beside the data. `this` is the
constant 0, and `unlock` clears the flag only. A system is one mutex and the
guards that are alive; its contexts preempt one another between calls, so a run
is any sequence of calls. A call of `lock` is taken one turn of its loop at a
time.
-/

namespace Osymandias

open Fuel

structure Mutex (T : Type) where
  data : T
  lock : Bool
  owner : Nat
  deriving DecidableEq, Repr

structure MutexGuard where
  deriving DecidableEq, Repr

namespace Mutex

section
variable {T : Type}

def new (val : T) : Mutex T := ⟨val, false, usizeMax⟩

def tryLock (self : Mutex T) : Option MutexGuard × Mutex T :=
  let this := 0
  if !self.lock || self.owner == this then (some ⟨⟩, { self with lock := true, owner := this }) else (none, self)

def lockLoop : Nat → Mutex T → Except Fault (MutexGuard × Mutex T)
  | 0, _ => .error .outOfFuel
  | fuel + 1, self =>
    match self.tryLock with
    | (some guard, self') => .ok (guard, self')
    | (none, self') => lockLoop fuel self'

def unlock (self : Mutex T) : Mutex T := { self with lock := false }

end

end Mutex

def MutexGuard.drop {T : Type} (_self : MutexGuard) (lock : Mutex T) : Mutex T := lock.unlock

namespace Mutex

/-! ## Systems -/

structure System (T : Type) where
  mutex : Mutex T
  -- the context of each guard that is alive
  guards : List Nat
  deriving DecidableEq, Repr

inductive Call where
  | tryLock (context : Nat)
  | lock (context : Nat)
  | drop (context : Nat)
  deriving DecidableEq, Repr

def Call.Acquires : Call → Prop
  | .tryLock _ | .lock _ => True
  | .drop _ => False

inductive Reply where
  | guard
  | none
  | dropped
  deriving DecidableEq, Repr

section
variable {T : Type}

def System.new (val : T) : System T := ⟨Mutex.new val, []⟩

def System.attempt (s : System T) (context : Nat) : Reply × System T :=
  match s.mutex.tryLock with
  | (some _, m) => (.guard, ⟨m, context :: s.guards⟩)
  | (none, m) => (.none, ⟨m, s.guards⟩)

/-- One call, or one turn of the loop of `lock`: a reply of `none` then means that
the call goes on waiting. Only a context that holds a guard can drop one. -/
def System.call (s : System T) : Call → Option (Reply × System T)
  | .tryLock context | .lock context => some (s.attempt context)
  | .drop context =>
    if context ∈ s.guards then some (.dropped, ⟨MutexGuard.drop ⟨⟩ s.mutex, s.guards.erase context⟩) else none

structure Event (T : Type) where
  before : System T
  call : Call
  reply : Reply

/-- `Run val h s`: from `Mutex::new(val)` the events `h`, the latest first, lead to `s`. -/
inductive Run (val : T) : List (Event T) → System T → Prop where
  | new : Run val [] (System.new val)
  | call {h : List (Event T)} {s s' : System T} {c : Call} {r : Reply} :
    Run val h s → s.call c = some (r, s') → Run val (⟨s, c, r⟩ :: h) s'

/-! ## Exclusion -/

structure Exclusive (s : System T) : Prop where
  unique : s.guards.length ≤ 1
  flag : s.mutex.lock = true ↔ s.guards ≠ []

def Event.Refuses (e : Event T) : Prop := e.call.Acquires → e.before.guards ≠ [] → e.reply = .none

/-- Exclusion. It holds in every state of the run, and every call along it is answered so. -/
def Excludes (h : List (Event T)) (s : System T) : Prop :=
  Exclusive s ∧ ∀ e ∈ h, Exclusive e.before ∧ e.Refuses

def NeverNested (h : List (Event T)) : Prop := ∀ e ∈ h, e.call.Acquires → e.before.guards = []

/-! ## One call -/

theorem tryLock_of_open {m : Mutex T} (h : m.lock = true → m.owner = 0) :
    m.tryLock = (some ⟨⟩, { m with lock := true, owner := 0 }) := by
  unfold tryLock
  cases hl : m.lock with
  | false => simp
  | true => simp [h hl]

def Open (s : System T) : Prop := s.mutex.lock = true → s.mutex.owner = 0

theorem call_cases {s s' : System T} {c : Call} {r : Reply} (ho : Open s) (h : s.call c = some (r, s')) :
    (c.Acquires ∧ r = .guard ∧ s'.mutex = { s.mutex with lock := true, owner := 0 } ∧
      ∃ context, s'.guards = context :: s.guards) ∨
    (¬ c.Acquires ∧ s'.mutex = { s.mutex with lock := false } ∧
      ∃ context ∈ s.guards, s'.guards = s.guards.erase context) := by
  have ha : ∀ context, s.attempt context =
      (.guard, ⟨{ s.mutex with lock := true, owner := 0 }, context :: s.guards⟩) := by
    intro context
    unfold System.attempt
    rw [tryLock_of_open ho]
  cases c with
  | tryLock context =>
    simp only [System.call, ha, Option.some.injEq, Prod.mk.injEq] at h
    obtain ⟨rfl, rfl⟩ := h
    exact .inl ⟨trivial, rfl, rfl, context, rfl⟩
  | lock context =>
    simp only [System.call, ha, Option.some.injEq, Prod.mk.injEq] at h
    obtain ⟨rfl, rfl⟩ := h
    exact .inl ⟨trivial, rfl, rfl, context, rfl⟩
  | drop context =>
    unfold System.call at h
    by_cases hc : context ∈ s.guards
    · simp only [hc, if_true, Option.some.injEq, Prod.mk.injEq] at h
      obtain ⟨rfl, rfl⟩ := h
      exact .inr ⟨id, rfl, context, hc, rfl⟩
    · simp only [hc, if_false] at h
      cases h

theorem call_open {s s' : System T} {c : Call} {r : Reply} (ho : Open s) (h : s.call c = some (r, s')) :
    Open s' := by
  rcases call_cases ho h with ⟨-, -, hm, -⟩ | ⟨-, hm, -⟩
  · intro _
    rw [hm]
  · intro hl
    rw [hm] at hl
    cases hl

theorem call_exclusive {s s' : System T} {c : Call} {r : Reply} (ho : Open s) (hx : Exclusive s)
    (h : s.call c = some (r, s')) : Exclusive s' ↔ (c.Acquires → s.guards = []) := by
  rcases call_cases ho h with ⟨hc, -, hm, context, hg⟩ | ⟨hc, hm, context, hin, hg⟩
  · constructor
    · intro hx' _
      have hl := hx'.unique
      rw [hg, List.length_cons] at hl
      exact List.eq_nil_of_length_eq_zero (by omega)
    · intro hn
      refine ⟨?_, ?_⟩
      · rw [hg, hn hc]
        simp
      · rw [hm, hg]
        simp
  · -- the guard that goes is the only one, so the flag goes down with it
    have hs : s.guards = [context] := by
      obtain ⟨x, hx1⟩ := List.length_eq_one_iff.mp
        (Nat.le_antisymm hx.unique (List.length_pos_of_mem hin))
      rw [hx1] at hin ⊢
      rw [List.mem_singleton.mp hin]
    have he : s'.guards = [] := by rw [hg, hs, List.erase_cons_head]
    constructor
    · intro _ ha
      exact absurd ha hc
    · intro _
      refine ⟨?_, ?_⟩
      · rw [he]
        simp
      · rw [hm, he]
        simp

/-! ## Whole runs -/

theorem Run.open {val : T} {h : List (Event T)} {s : System T} (hr : Run val h s) : Open s := by
  induction hr with
  | new => intro hl; cases hl
  | call _ hc ih => exact call_open ih hc

/-- No call ever waits. In every state of every run an attempt succeeds, whoever holds a guard. -/
theorem Run.tryLock_succeeds {val : T} {h : List (Event T)} {s : System T} (hr : Run val h s) :
    s.mutex.tryLock = (some ⟨⟩, { s.mutex with lock := true, owner := 0 }) :=
  tryLock_of_open hr.open

theorem Run.lockLoop_returns {val : T} {h : List (Event T)} {s : System T} (hr : Run val h s) (fuel : Nat) :
    s.mutex.lockLoop (fuel + 1) = .ok (⟨⟩, { s.mutex with lock := true, owner := 0 }) := by
  unfold lockLoop
  rw [hr.tryLock_succeeds]

theorem new_exclusive (val : T) : Exclusive (System.new val) := by
  refine ⟨Nat.zero_le 1, ?_⟩
  simp [System.new, Mutex.new]

/-- **Exclusion, exactly.** A run keeps exclusion if and only if none of its calls
tries to acquire the mutex while a guard is alive. -/
theorem excludes_iff_neverNested {val : T} {h : List (Event T)} {s : System T} (hr : Run val h s) :
    Excludes h s ↔ NeverNested h := by
  induction hr with
  | new =>
    constructor
    · intro _ e he
      cases he
    · intro _
      refine ⟨new_exclusive val, fun e he => ?_⟩
      cases he
  | @call h s s' c r hr hc ih =>
    constructor
    · rintro ⟨hx', hall⟩
      have hx := (hall _ List.mem_cons_self).1
      have hrest := ih.mp ⟨hx, fun e he => hall e (List.mem_cons_of_mem _ he)⟩
      intro e he
      rcases List.mem_cons.mp he with rfl | he
      · exact (call_exclusive hr.open hx hc).mp hx'
      · exact hrest e he
    · intro hn
      obtain ⟨hx, hall⟩ := ih.mpr fun e he => hn e (List.mem_cons_of_mem _ he)
      have hnew := hn _ List.mem_cons_self
      refine ⟨(call_exclusive hr.open hx hc).mpr hnew, fun e he => ?_⟩
      rcases List.mem_cons.mp he with rfl | he
      · exact ⟨hx, fun ha hg => absurd (hnew ha) hg⟩
      · exact hall e he

end

/-! ## Two runs -/

def heldOnce : System Unit := ⟨⟨(), true, 0⟩, [1]⟩

def heldTwice : System Unit := ⟨⟨(), true, 0⟩, [2, 1]⟩

theorem lock_then_tryLock :
    Run () [⟨heldOnce, .tryLock 2, .guard⟩, ⟨System.new (), .lock 1, .guard⟩] heldTwice := by
  refine .call (.call .new ?_) ?_
  · rfl
  · rfl

theorem exclusion_fails : ¬ ∀ (h : List (Event Unit)) (s : System Unit), Run () h s → Excludes h s := by
  intro hall
  have hx := (hall _ _ lock_then_tryLock).1.unique
  exact absurd hx (by decide)

theorem lock_then_drop_excludes :
    Excludes [⟨heldOnce, .drop 1, .dropped⟩, ⟨System.new (), .lock 1, .guard⟩] ⟨⟨(), false, 0⟩, []⟩ := by
  have hr : Run () [⟨heldOnce, .drop 1, .dropped⟩, ⟨System.new (), .lock 1, .guard⟩] ⟨⟨(), false, 0⟩, []⟩ := by
    refine .call (.call .new ?_) ?_
    · rfl
    · rfl
  apply (excludes_iff_neverNested hr).mpr
  intro e he ha
  rcases List.mem_cons.mp he with rfl | he
  · exact absurd ha id
  · rw [List.mem_singleton.mp he]
    rfl

end Mutex

end Osymandias

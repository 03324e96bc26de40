import Osymandias.SchedulerRun

/-!
# The sleep system call

`traps/syscall.rs`. The caller is switched out waiting on a closure that
compares the timer with its value at the call. Whatever else runs meanwhile,
the caller is selected again only by a poll that found the time had passed.
-/

namespace Osymandias

open Fuel RoundRobin

section
variable {S : Sig} (E : Env S)

abbrev GlobalScheduler (S : Sig) := Option (Scheduler S)

def GlobalScheduler.switch (fuel : Nat) (self : GlobalScheduler S) (newState : State S) (tf : TrapFrame)
    (w : World E.Rest) : Except Fault (Option Id × TrapFrame × GlobalScheduler S × World E.Rest) :=
  match self with
  | none => .error (.panic "scheduler uninitialized")
  | some scheduler => do
    let (id, tf', scheduler', w') ← scheduler.switch E fuel newState tf w
    return (id, tf', some scheduler', w')

def sleep (fuel : Nat) (ms : UInt32) (tf : TrapFrame) (g : GlobalScheduler S) (w : World E.Rest) :
    Except Fault (TrapFrame × GlobalScheduler S × World E.Rest) := do
  let us ← E.profile.u64Mul ms.toUInt64 1000
  let (startTime, w₁) := E.timerRead w
  let (_, tf', g', w₂) ← g.switch E fuel (.waiting (.sleep us startTime)) tf w₁
  return (tf', g', w₂)

def handleSyscall (fuel : Nat) (num : UInt16) (tf : TrapFrame) (g : GlobalScheduler S) (w : World E.Rest) :
    Except Fault (TrapFrame × GlobalScheduler S × World E.Rest) :=
  if num = 1 then sleep E fuel (tf.x 0).toUInt32 tf g w
  else .error (.panic ("not yet implemented: unknown syscall: " ++ toString num))

end

/-! ## The closure -/

section
variable {S : Sig} {E : Env S} {p p' : Process S} {us t₀ : UInt64} {w w' : World E.Rest} {r : Bool}

/-- A poll of a sleeping process. It reads the timer once. Unless more than
`us` have passed it changes nothing else. -/
theorem Process.isReady_sleep_eq (hp : p.state = .waiting (.sleep us t₀)) :
    p.isReady E w = (E.profile.u64Sub (E.ticks w.reads) t₀).map fun elapsed =>
      if us < elapsed then
        (true, ⟨(p.trapFrame.setX 0 (elapsed / 1000)).setX 7 0, p.stack, .ready⟩, (E.timerRead w).2)
      else (false, p, (E.timerRead w).2) := by
  obtain ⟨tf, stack, state⟩ := p
  cases hp
  simp only [Process.isReady, EventPollFn.call, sleepReady, Env.timerRead, bind, Except.bind]
  cases E.profile.u64Sub (E.ticks w.reads) t₀ with
  | error e => rfl
  | ok elapsed =>
    by_cases hus : us < elapsed
    · simp only [Except.map, hus, if_true]
      rfl
    · simp only [Except.map, hus, if_false]
      rfl

theorem Process.isReady_sleep (hp : p.state = .waiting (.sleep us t₀)) (h : p.isReady E w = .ok (r, p', w')) :
    (r = true ↔ us < E.ticks w.reads - t₀) ∧ (r = false → p' = p) ∧ w' = (E.timerRead w).2 ∧
    (r = true → p'.trapFrame = (p.trapFrame.setX 0 ((E.ticks w.reads - t₀) / 1000)).setX 7 0) := by
  rw [Process.isReady_sleep_eq hp] at h
  obtain ⟨elapsed, hsub, h⟩ := map_ok h
  cases Profile.u64Sub_ok hsub
  by_cases hus : us < E.ticks w.reads - t₀
  · rw [if_pos hus] at h
    cases h
    exact ⟨iff_of_true rfl hus, by simp, rfl, fun _ => rfl⟩
  · rw [if_neg hus] at h
    cases h
    exact ⟨iff_of_false Bool.false_ne_true hus, fun _ => rfl, rfl, by simp⟩

theorem Process.isReady_sleep_total (hp : p.state = .waiting (.sleep us t₀)) (hle : t₀ ≤ E.ticks w.reads) :
    ∃ r p' w', p.isReady E w = .ok (r, p', w') := by
  rw [Process.isReady_sleep_eq hp, E.profile.u64Sub_of_le hle]
  exact ⟨_, _, _, rfl⟩

end

/-! ## Sleeping processes -/

/-- The process `p`, asleep from `t₀` for `ms`, was given the frame `tf'` by its
last poll, made between the worlds `w` and `w'`. The poll read a time more than
`ms` after `t₀`, which the frame tells in `x0`. -/
def Woke {S : Sig} (E : Env S) (p : Process S) (tf' : TrapFrame) (ms : Nat) (t₀ : UInt64) (w w' : World E.Rest) :
    Prop :=
  ∃ v p', w.reads ≤ v.reads ∧ p.isReady E v = .ok (true, p', w') ∧ tf' = p'.trapFrame ∧
    1000 * ms < (E.ticks v.reads).toNat - t₀.toNat ∧
    (tf'.x 0).toNat = ((E.ticks v.reads).toNat - t₀.toNat) / 1000 ∧ ms ≤ (tf'.x 0).toNat ∧ tf'.x 7 = 0 ∧
    (∀ i, i ≠ 0 → i ≠ 7 → tf'.x i = p.trapFrame.x i) ∧ tf' = { p.trapFrame with x := tf'.x }

section
variable {S : Sig} {E : Env S}

theorem lt_elapsed_iff {us t₀ t : UInt64} {ms : Nat} (hus : us.toNat = 1000 * ms) (hle : t₀ ≤ t) :
    us < t - t₀ ↔ 1000 * ms < t.toNat - t₀.toNat := by
  rw [UInt64.lt_iff_toNat_lt, UInt64.toNat_sub_of_le _ _ hle, hus]

theorem wakes_of_poll {p p' : Process S} {us t₀ : UInt64} {v w' : World E.Rest} {ms : Nat}
    (hp : p.state = .waiting (.sleep us t₀)) (hus : us.toNat = 1000 * ms)
    (h : p.isReady E v = .ok (true, p', w')) :
    (p'.trapFrame.x 0).toNat = (E.ticks v.reads - t₀).toNat / 1000 ∧ ms ≤ (p'.trapFrame.x 0).toNat ∧
      p'.trapFrame.x 7 = 0 ∧ (∀ i, i ≠ 0 → i ≠ 7 → p'.trapFrame.x i = p.trapFrame.x i) ∧
      p'.trapFrame = { p.trapFrame with x := p'.trapFrame.x } := by
  obtain ⟨hiff, -, -, htf⟩ := Process.isReady_sleep hp h
  have hlt := UInt64.lt_iff_toNat_lt.mp (hiff.mp rfl)
  have hx0 : (p'.trapFrame.x 0).toNat = (E.ticks v.reads - t₀).toNat / 1000 := by
    rw [htf rfl, TrapFrame.setX_of_ne _ _ (by decide), TrapFrame.setX_self, UInt64.toNat_div]
    rfl
  refine ⟨hx0, by omega, ?_, fun i h0 h7 => ?_, ?_⟩
  · rw [htf rfl, TrapFrame.setX_self]
  · rw [htf rfl, TrapFrame.setX_of_ne _ _ h7, TrapFrame.setX_of_ne _ _ h0]
  · rw [htf rfl]
    rfl

theorem woke_of_poll {p p' : Process S} {us t₀ : UInt64} {v w w' : World E.Rest} {ms : Nat}
    (hp : p.state = .waiting (.sleep us t₀)) (hus : us.toNat = 1000 * ms) (hle : t₀ ≤ E.ticks v.reads)
    (hw : w.reads ≤ v.reads) (h : p.isReady E v = .ok (true, p', w')) : Woke E p p'.trapFrame ms t₀ w w' := by
  obtain ⟨hx0, hms, hx7, hx, htf⟩ := wakes_of_poll hp hus h
  have hlt := (lt_elapsed_iff hus hle).mp ((Process.isReady_sleep hp h).1.mp rfl)
  rw [UInt64.toNat_sub_of_le _ _ hle] at hx0
  exact ⟨v, p', hw, h, rfl, hlt, hx0, hms, hx7, hx, htf⟩

def Keeps (a : Nat) (p : Process S) (es : List (Entry S)) (ps : List (Process S)) : Prop :=
  List.Forall₂ (fun e q => e.name = a → q = p) es ps

/-- A switch past a sleeping process, or to it. -/
theorem switch_asleep {s s' : Scheduler S} {w w' : World E.Rest} {fuel k a ms : Nat} {st : State S}
    {tf tf' : TrapFrame} {id : Id} {cur p : Process S} {rest : List (Process S)} {es : List (Entry S)}
    {us t₀ : UInt64} (hp : p.state = .waiting (.sleep us t₀)) (hus : us.toNat = 1000 * ms)
    (h : s.switchAt E fuel st tf w = .ok (some (k, id), tf', s', w')) (hq : s.processes = cur :: rest)
    (hes : Keeps a p es (rest ++ [Scheduler.saved cur st tf])) :
    ∃ e es', es.rotate k = e :: es' ∧ w.reads ≤ w'.reads ∧
      (e.name = a → (∀ n, w.reads ≤ n → t₀ ≤ E.ticks n) → Woke E p tf' ms t₀ w w') ∧
      (e.name ≠ a → Keeps a p (e :: es') s'.processes) := by
  obtain ⟨e, es', b, p', ps, w₁, hrot, hs, htf, -, hps, hb, hw₁, hr⟩ := Scheduler.switchAt_forall₂
    (R := fun (e : Entry S) q => e.name = a → q = p) (I := fun v => w.reads ≤ v.reads)
    (fun e q v q' v' _ hq hr he => by
      cases hq he
      exact (Process.isReady_sleep hp hr).2.1 rfl)
    (fun _ _ _ _ _ hv hr => Nat.le_trans hv (Process.isReady_reads hr))
    (fun v hv => Nat.le_trans hv (E.wfi_reads v)) h hq (Nat.le_refl _) hes
  refine ⟨e, es', hrot, Nat.le_trans hw₁ (Process.isReady_reads hr), fun he hle => ?_, fun he => ?_⟩
  · cases hb he
    rw [htf]
    exact woke_of_poll hp hus (hle _ hw₁) hw₁ hr
  · rw [hs]
    exact .cons (fun he' => absurd he' he) hps

theorem keeps_of_absent {a : Nat} {p : Process S} : ∀ {es : List (Entry S)} {ps : List (Process S)},
    es.length = ps.length → (∀ e ∈ es, e.name ≠ a) → Keeps a p es ps
  | [], [], _, _ => .nil
  | e :: es, q :: ps, hlen, hne =>
    .cons (fun he => absurd he (hne e (by simp)))
      (keeps_of_absent (by simpa using hlen) fun e' he' => hne e' (by simp [he']))
  | [], _ :: _, hlen, _ => nomatch hlen
  | _ :: _, [], hlen, _ => nomatch hlen

/-! ## Until it wakes -/

open Config

/-- Steps during which `a` is never at the front. -/
inductive Sleeps (a : Nat) : Config E → Config E → Prop where
  | refl {c : Config E} : ¬ c.NamedAt a 0 → Sleeps a c c
  | step {c c' c'' : Config E} : Sleeps a c c' → Step c' c'' → ¬ c''.NamedAt a 0 → Sleeps a c c''

section
variable {c c' : Config E} {a : Nat} {p : Process S}

structure Asleep (a : Nat) (p : Process S) (c : Config E) : Prop where
  inv : c.Inv
  given : a < c.count
  keeps : Keeps a p c.entries c.sched.processes

theorem namedAt_zero {e : Entry S} {es : List (Entry S)} (h : c.entries = e :: es) :
    c.NamedAt a 0 ↔ e.name = a := by
  simp [NamedAt, h]

theorem Config.Inv.keeps_saved (hc : c.Inv) {e : Entry S} {es : List (Entry S)} {cur : Process S}
    {rest : List (Process S)} (he : c.entries = e :: es) (hq : c.sched.processes = cur :: rest) {st : State S}
    {tf : TrapFrame} : Keeps e.name (Scheduler.saved cur st tf) (c.switchedOut st tf)
      (rest ++ [Scheduler.saved cur st tf]) := by
  have hlen := hc.tracked.length_eq
  have hnames := hc.names
  rw [he, hq] at hlen
  rw [he, List.map_cons, List.nodup_cons] at hnames
  simp only [switchedOut, he, hq]
  refine List.rel_append (keeps_of_absent (by simpa using hlen) fun e' he' hname => hnames.1 ?_)
    (.cons (fun _ => rfl) .nil)
  exact hname ▸ List.mem_map_of_mem he'

theorem Asleep.added (hc : Asleep a p c) (q : Process S) : Asleep a p (c.added q) := by
  have hinv := hc.inv
  have hgiven := hc.given
  refine ⟨hinv.added q, ?_, ?_⟩
  · rw [added_eq hinv.currentId]
    exact Nat.lt_succ_of_lt hgiven
  · rw [added_eq hinv.currentId]
    refine List.rel_append hc.keeps (.cons (fun he => ?_) .nil)
    simp only at he
    omega

section
variable {fuel k ms : Nat} {st : State S} {tf tf' : TrapFrame} {id : Id} {s : Scheduler S} {w : World E.Rest}
  {us t₀ : UInt64}

theorem Asleep.switch (hc : Asleep a p c) (hp : p.state = .waiting (.sleep us t₀)) (hus : us.toNat = 1000 * ms)
    (hfront : ¬ c.NamedAt a 0) (h : c.sched.switchAt E fuel st tf c.world = .ok (some (k, id), tf', s, w)) :
    c.world.reads ≤ w.reads ∧
    ((c.switched st tf (some (k, id)) s w).NamedAt a 0 → (∀ n, c.world.reads ≤ n → t₀ ≤ E.ticks n) →
      Woke E p tf' ms t₀ c.world w) ∧
    (¬ (c.switched st tf (some (k, id)) s w).NamedAt a 0 → Asleep a p (c.switched st tf (some (k, id)) s w)) := by
  obtain ⟨cur, rest, hq, -⟩ := switchAt_nonempty h
  obtain ⟨e, es, he, -⟩ := hc.inv.entries_cons hq
  have hkeeps := hc.keeps
  rw [he, hq] at hkeeps
  obtain ⟨-, hes⟩ := List.forall₂_cons.mp hkeeps
  have hne : e.name ≠ a := fun hname => hfront ((namedAt_zero he).mpr hname)
  have hout : c.switchedOut st tf = es ++ [⟨e.name, Scheduler.saved cur st tf⟩] := by
    simp only [switchedOut, he, hq]
  have hout' : Keeps a p (c.switchedOut st tf) (rest ++ [Scheduler.saved cur st tf]) := by
    rw [hout]
    exact List.rel_append hes (.cons (fun hname => absurd hname hne) .nil)
  obtain ⟨e', es', hrot, hreads, hwoke, hkeep⟩ := switch_asleep hp hus h hq hout'
  have hentries : (c.switched st tf (some (k, id)) s w).entries = e' :: es' := hrot
  refine ⟨hreads, fun hz => hwoke ((namedAt_zero hentries).mp hz),
    fun hz => ⟨hc.inv.step (.switch h), hc.given, ?_⟩⟩
  rw [hentries]
  exact hkeep fun hname => hz ((namedAt_zero hentries).mpr hname)

end

theorem Asleep.step {us t₀ : UInt64} {ms : Nat} (hc : Asleep a p c) (hp : p.state = .waiting (.sleep us t₀))
    (hus : us.toNat = 1000 * ms) (hfront : ¬ c.NamedAt a 0) (h : Step c c') (hfront' : ¬ c'.NamedAt a 0) :
    Asleep a p c' ∧ c.world.reads ≤ c'.world.reads := by
  cases h with
  | add q => exact ⟨hc.added q, Nat.le_refl _⟩
  | elapse hw => exact ⟨⟨hc.inv.step (.elapse hw), hc.given, hc.keeps⟩, hw⟩
  | @switch fuel st tf tf' r s w h =>
    cases r with
    | none =>
      obtain ⟨rfl, rfl⟩ := Scheduler.switchAt_none h
      exact ⟨hc, Nat.le_refl _⟩
    | some t =>
      obtain ⟨hreads, -, hasleep⟩ := hc.switch hp hus hfront h
      exact ⟨hasleep hfront', hreads⟩

theorem Sleeps.front (h : Sleeps a c c') : ¬ c'.NamedAt a 0 := by
  cases h with
  | refl hf => exact hf
  | step _ _ hf => exact hf

theorem Sleeps.start (h : Sleeps a c c') : ¬ c.NamedAt a 0 := by
  induction h with
  | refl hf => exact hf
  | step _ _ _ ih => exact ih

theorem Asleep.sleeps {us t₀ : UInt64} {ms : Nat} (hc : Asleep a p c) (hp : p.state = .waiting (.sleep us t₀))
    (hus : us.toNat = 1000 * ms) (h : Sleeps a c c') : Asleep a p c' ∧ c.world.reads ≤ c'.world.reads := by
  induction h with
  | refl _ => exact ⟨hc, Nat.le_refl _⟩
  | step hs hstep hf ih =>
    obtain ⟨hc', hreads⟩ := ih
    obtain ⟨hc'', hreads'⟩ := hc'.step hp hus hs.front hstep hf
    exact ⟨hc'', Nat.le_trans hreads hreads'⟩

end

/-! ## The call -/

theorem u64Mul_thousand (profile : Profile) (ms : UInt32) :
    ∃ us, profile.u64Mul ms.toUInt64 1000 = .ok us ∧ us.toNat = 1000 * ms.toNat := by
  have hlt := ms.toNat_lt
  have h64 : ms.toUInt64.toNat = ms.toNat := UInt32.toNat_toUInt64 ms
  have hthousand : (1000 : UInt64).toNat = 1000 := rfl
  refine ⟨UInt64.ofNat (ms.toNat * 1000), ?_, ?_⟩
  · rw [Profile.u64Mul, Profile.mul, h64, hthousand, Profile.fit_eq profile (by omega)]
    rfl
  · rw [UInt64.toNat_ofNat_of_lt' (show ms.toNat * 1000 < 2 ^ 64 by omega), Nat.mul_comm]

theorem handleSyscall_sleep {fuel : Nat} {tf tf' : TrapFrame} {s : Scheduler S} {g : GlobalScheduler S}
    {w w' : World E.Rest} (h : handleSyscall E fuel 1 tf (some s) w = .ok (tf', g, w')) :
    ∃ us r s', us.toNat = 1000 * (tf.x 0).toUInt32.toNat ∧ g = some s' ∧
      s.switchAt E fuel (.waiting (.sleep us (E.ticks w.reads))) tf (E.timerRead w).2 = .ok (r, tf', s', w') := by
  obtain ⟨us, hmul, hus⟩ := u64Mul_thousand E.profile (tf.x 0).toUInt32
  rw [handleSyscall, if_pos rfl] at h
  obtain ⟨us', hmul', h⟩ := bind_ok h
  cases hmul.symm.trans hmul'
  obtain ⟨⟨id, tf₁, g₁, w₁⟩, hg, h⟩ := bind_ok h
  obtain ⟨⟨id', tf₂, s₁, w₂⟩, hs, hg⟩ := bind_ok hg
  cases hg
  cases h
  obtain ⟨r, -, hat⟩ := Scheduler.switch_ok hs
  exact ⟨us, r, s₁, hus, rfl, hat⟩

/-- **Sleep.** The running process `e.name` calls `sleep` in a reachable
configuration. Should the switch of the call select it again, or any later
switch, with any steps of the others in between, then its last poll read a time
more than `ms` after the call, and it gets its own frame with the elapsed
milliseconds in `x0` and zero in `x7`. Until then its polls return, and are true
only from that time on. -/
theorem run_sleep_wakes (hmono : ∀ m n, m ≤ n → E.ticks m ≤ E.ticks n) {c : Config E} (hc : c.Reachable)
    {e : Entry S} {es : List (Entry S)} (he : c.entries = e :: es) {fuel : Nat} {tf tf₀ : TrapFrame}
    {g : GlobalScheduler S} {w₀ : World E.Rest}
    (hcall : handleSyscall E fuel 1 tf (some c.sched) c.world = .ok (tf₀, g, w₀)) :
    ∃ us k id s₀ p, us.toNat = 1000 * (tf.x 0).toUInt32.toNat ∧ g = some s₀ ∧ p.trapFrame = tf ∧
      p.state = .waiting (.sleep us (E.ticks c.world.reads)) ∧
      c.sched.switchAt E fuel p.state tf (E.timerRead c.world).2 = .ok (some (k, id), tf₀, s₀, w₀) ∧
      ((c.switched p.state tf (some (k, id)) s₀ w₀).NamedAt e.name 0 →
        Woke E p tf₀ (tf.x 0).toUInt32.toNat (E.ticks c.world.reads) (E.timerRead c.world).2 w₀) ∧
      ∀ c₁, Sleeps e.name (c.switched p.state tf (some (k, id)) s₀ w₀) c₁ →
        (∀ v, c₁.world.reads ≤ v.reads → ∃ r p' v', p.isReady E v = .ok (r, p', v') ∧
          (r = true ↔ 1000 * (tf.x 0).toUInt32.toNat < (E.ticks v.reads).toNat - (E.ticks c.world.reads).toNat)) ∧
        ∀ fuel₁ st tf₁ k₁ id₁ tf₂ s₂ w₂,
          c₁.sched.switchAt E fuel₁ st tf₁ c₁.world = .ok (some (k₁, id₁), tf₂, s₂, w₂) →
          (c₁.switched st tf₁ (some (k₁, id₁)) s₂ w₂).NamedAt e.name 0 →
          Woke E p tf₂ (tf.x 0).toUInt32.toNat (E.ticks c.world.reads) c₁.world w₂ := by
  obtain ⟨us, r, s₀, hus, rfl, hat⟩ := handleSyscall_sleep hcall
  have hinv := hc.inv
  -- the queue has the caller at its front
  obtain ⟨hnil, -⟩ | ⟨cur, rest, k, q, ps, _, _, hq, rfl, -⟩ := Scheduler.switchAt_cases hat
  · have hlen := hinv.tracked.length_eq
    rw [he, hnil] at hlen
    cases hlen
  let st : State S := .waiting (.sleep us (E.ticks c.world.reads))
  have hp : (Scheduler.saved cur st tf).state = .waiting (.sleep us (E.ticks c.world.reads)) := rfl
  obtain ⟨e', es', hrot, hreads, hwoke, hkeep⟩ := switch_asleep hp hus hat hq (hinv.keeps_saved he hq)
  have hentries : (c.switched st tf (some (k, q.trapFrame.tpidr)) s₀ w₀).entries = e' :: es' := hrot
  refine ⟨us, k, q.trapFrame.tpidr, s₀, Scheduler.saved cur st tf, hus, rfl, rfl, hp, hat,
    fun hz => hwoke ((namedAt_zero hentries).mp hz) fun n hn => hmono _ _ (Nat.le_of_succ_le hn), fun c₁ hs => ?_⟩
  have hasleep : Asleep e.name (Scheduler.saved cur st tf)
      (c.switched st tf (some (k, q.trapFrame.tpidr)) s₀ w₀) := by
    refine ⟨?_, hinv.fresh e (by simp [he]), ?_⟩
    · have hread : Step c { c with world := (E.timerRead c.world).2 } := .elapse (Nat.le_succ _)
      exact (hinv.step hread).step (.switch (c := { c with world := (E.timerRead c.world).2 }) hat)
    · rw [hentries]
      exact hkeep fun hname => hs.start ((namedAt_zero hentries).mpr hname)
  obtain ⟨hc₁, hreads₁⟩ := hasleep.sleeps hp hus hs
  have hle : ∀ n, c₁.world.reads ≤ n → E.ticks c.world.reads ≤ E.ticks n := by
    intro n hn
    refine hmono _ _ ?_
    have : c.world.reads + 1 ≤ w₀.reads := hreads
    have : w₀.reads ≤ c₁.world.reads := hreads₁
    omega
  refine ⟨fun v hv => ?_, fun fuel₁ st₁ tf₁ k₁ id₁ tf₂ s₂ w₂ h hz => ?_⟩
  · obtain ⟨r, p', v', hr⟩ := Process.isReady_sleep_total hp (hle _ hv)
    exact ⟨r, p', v', hr, (Process.isReady_sleep hp hr).1.trans (lt_elapsed_iff hus (hle _ hv))⟩
  · exact (hc₁.switch hp hus hs.front h).2.1 hz hle

end

theorem bareEnv_ticks_mono (m n : Nat) (h : m ≤ n) : bareEnv.ticks m ≤ bareEnv.ticks n := by
  have hlt : ∀ n, min (5000 * n) (2 ^ 64 - 1) < 2 ^ 64 := fun n => by omega
  simp only [bareEnv, UInt64.le_iff_toNat_le, UInt64.toNat_ofNat_of_lt' (hlt _)]
  omega

def sleepFrame : TrapFrame := { TrapFrame.zero.setX 0 3 with tpidr := 1 }

theorem run_sleep_wakes_two : ∃ tf₀ s₀ w₀ tf₂ s₂ w₂ p,
    handleSyscall bareEnv 1 1 sleepFrame (some twoProcesses.sched) bareWorld = .ok (tf₀, some s₀, w₀) ∧
    s₀.switchAt bareEnv 1 .ready tf₀ w₀ = .ok (some (0, 1), tf₂, s₂, w₂) ∧ p.trapFrame = sleepFrame ∧
    Woke bareEnv p tf₂ 3 0 w₀ w₂ := by
  obtain ⟨us, k, id, s₀, p, hus, hg, htf, hp, hat, -, hwakes⟩ :=
    run_sleep_wakes bareEnv_ticks_mono twoProcesses_reachable rfl
      (show handleSyscall bareEnv 1 1 sleepFrame (some twoProcesses.sched) twoProcesses.world =
        .ok (_, _, _) from rfl)
  cases hg
  have hus' : us = 3000 := UInt64.toNat_inj.mp hus
  rw [hp, hus'] at hat hwakes
  have hk : some (k, id) = some (0, 1) :=
    congrArg Prod.fst (Except.ok.inj (hat.symm.trans (b := .ok (some (0, 1), _)) rfl))
  cases hk
  obtain ⟨-, hwoke⟩ := hwakes _ (.refl (by unfold Config.NamedAt; decide))
  exact ⟨_, _, _, _, _, _, p, rfl, rfl, htf,
    hwoke 1 .ready { numberedFrame 200 with tpidr := 1 } 0 1 _ _ _ rfl rfl⟩

end Osymandias

import Osymandias.SchedulerRun

/-!
# What the scheduler guarantees

The queue is only ever turned, each process gets its own frame back, and a
ready process is reached in its turn. Ids are another matter.
-/

namespace Osymandias

open Fuel RoundRobin

/-! ## The queue is turned -/

section
variable {S : Sig} {E : Env S} {s s' : Scheduler S} {w w' : World E.Rest} {fuel : Nat} {st : State S}
  {tf tf' : TrapFrame} {cur : Process S} {rest : List (Process S)}

/-- **Rotation.** From a queue with a running process, a switch that returns has
made fruitless passes over the others and the saved one, and then a last pass,
in which `is_ready` was false of the processes before the selected one and true
of that. The queue is the old one turned to it: each process is there, in the
same cyclic order, changed by its own polls only, and all but the selected one
wait on the poll function they waited on. -/
theorem switch_rotation {r : Option Id} (hq : s.processes = cur :: rest)
    (h : s.switch E fuel st tf w = .ok (r, tf', s', w')) :
    ∃ q w₁ pre a post pre' w₂ p,
      Passes (Process.isReady E) E.wfi (rest ++ [Scheduler.saved cur st tf]) w q w₁ ∧
      q = pre ++ a :: post ∧ Pass (Process.isReady E) pre w₁ pre' w₂ ∧ a.isReady E w₂ = .ok (true, p, w') ∧
      s'.processes = p :: (post ++ pre') ∧ tf' = p.trapFrame ∧ r = some p.trapFrame.tpidr ∧
      List.Forall₂ (Polled (Process.isReady E)) ((rest ++ [Scheduler.saved cur st tf]).rotate pre.length)
        s'.processes ∧
      List.Forall₂ StillWaiting ((rest ++ [Scheduler.saved cur st tf]).rotate pre.length).tail
        s'.processes.tail := by
  obtain ⟨r', rfl, h'⟩ := Scheduler.switch_ok h
  obtain ⟨hnil, -⟩ | ⟨cur', rest', k, p, ps, q, w₁, hq', rfl, htf, hs, hpasses, hf⟩ := Scheduler.switchAt_cases h'
  · cases hq.symm.trans hnil
  cases hq.symm.trans hq'
  obtain ⟨e, es, -, p₁, ps₁, -, hrot, hs₁, -, -, hps₁, -⟩ := Scheduler.switchAt_keeps (R := StillWaiting)
    (fun _ _ _ _ _ hw hr => hw.poll hr) h' hq (List.forall₂_same.mpr fun _ _ => .inl rfl)
  obtain ⟨e₂, es₂, b, p₂, ps₂, w₂, hrot₂, hs₂, -, -, hps₂, hb, hr⟩ := Scheduler.switchAt_keeps
    (R := Polled (Process.isReady E)) (fun _ _ _ _ _ hp hr => hp.poll hr) h' hq
    (List.forall₂_same.mpr fun _ _ => .refl)
  generalize hk : p :: ps = q' at hf
  obtain @⟨pre, pre', post, a, a', _, w₃, _, hpass, ha⟩ := hf
  cases hk
  refine ⟨_, _, pre, a, post, pre', w₃, p, hpasses, rfl, hpass, ha, by rw [hs], htf, rfl, ?_, ?_⟩
  · rw [hrot₂, hs₂]
    exact .cons (hb.poll hr) hps₂
  · rw [hrot, hs₁]
    exact hps₁

end

theorem switch_rotation_two : ∃ tf s w,
    twoProcesses.sched.switch bareEnv 1 .ready .zero bareWorld = .ok (some 1, tf, s, w) ∧
    s.processes.map Process.stack = [2, 1] ∧ ∃ p ps, s.processes = p :: ps ∧ tf = p.trapFrame := by
  obtain ⟨_, _, _, _, _, _, _, p, -, -, -, -, hs, htf, -⟩ := switch_rotation (s := twoProcesses.sched) rfl
    (show twoProcesses.sched.switch bareEnv 1 .ready .zero bareWorld = .ok (some 1, _, _, _) from rfl)
  exact ⟨_, _, _, rfl, rfl, p, _, hs, htf⟩

/-! ## Isolation -/

theorem Process.polled_of_ready {S : Sig} {E : Env S} {p p' : Process S} (h : Polled (Process.isReady E) p p')
    (hp : p.state = .ready) : p' = p := by
  induction h with
  | refl => rfl
  | tail _ hpoll ih =>
    obtain ⟨r, w, w', hr⟩ := hpoll
    rw [ih, Process.isReady_of_ready hp] at hr
    cases hr
    rfl

section
variable {S : Sig} {E : Env S} {c : Config E}

/-- **Isolation.** In every reachable configuration, when a switch returns after
selecting a process, the frame it returns is that of the process as its last
switch out, or `add`, stored it, but for what its own polls did; a process
stored as ready gets just the stored frame. Every other process of the queue is
what it was, and what was stored of it, but for its own polls. -/
theorem switch_isolation {fuel : Nat} {st : State S} {tf tf' : TrapFrame} {id : Id} {s : Scheduler S}
    {w : World E.Rest} (hc : c.Reachable) (h : c.sched.switch E fuel st tf c.world = .ok (some id, tf', s, w)) :
    ∃ k cur rest e es p ps, c.sched.processes = cur :: rest ∧
      c.sched.switchAt E fuel st tf c.world = .ok (some (k, id), tf', s, w) ∧
      (c.switched st tf (some (k, id)) s w).entries = e :: es ∧ s.processes = p :: ps ∧ tf' = p.trapFrame ∧
      Polled (Process.isReady E) e.image p ∧ (e.image.state = .ready → tf' = e.image.trapFrame) ∧
      List.Forall₂ (fun e p => Polled (Process.isReady E) e.image p) es ps ∧
      List.Forall₂ (Polled (Process.isReady E)) ((rest ++ [Scheduler.saved cur st tf]).rotate k) s.processes := by
  obtain ⟨r, hr, hat⟩ := Scheduler.switch_ok h
  obtain ⟨⟨k, id'⟩, rfl, hid⟩ := Option.map_eq_some_iff.mp hr.symm
  cases hid
  obtain ⟨cur, rest, hq, -⟩ := Config.switchAt_nonempty hat
  obtain ⟨e, es, p, ps, hrot, hs, htf, -, hep, heps⟩ := hc.inv.switchAt hat
  obtain ⟨b, bs, a, p', ps', w', hrot', hs', -, -, hps', hb, ha⟩ := Scheduler.switchAt_keeps
    (R := Polled (Process.isReady E)) (fun _ _ _ _ _ hp hr => hp.poll hr) hat hq
    (List.forall₂_same.mpr fun _ _ => .refl)
  refine ⟨k, cur, rest, e, es, p, ps, hq, hat, hrot, hs, htf, hep, fun hready => ?_, heps, ?_⟩
  · rw [htf, Process.polled_of_ready hep hready]
  · rw [hrot', hs']
    exact .cons (hb.poll ha) hps'

theorem switch_isolation_two : ∃ tf s w,
    twoProcesses.sched.switch bareEnv 1 .ready (numberedFrame 900) twoProcesses.world = .ok (some 1, tf, s, w) ∧
    tf = { numberedFrame 200 with tpidr := 1 } ∧
    ∃ k e es, (twoProcesses.switched .ready (numberedFrame 900) (some (k, 1)) s w).entries = e :: es ∧
      (e.image.state = .ready → tf = e.image.trapFrame) ∧
      es.map (fun e => e.image.trapFrame) = [numberedFrame 900] := by
  obtain ⟨k, _, _, e, es, _, _, -, hat, he, -, -, -, hready, -⟩ := switch_isolation twoProcesses_reachable
    (show twoProcesses.sched.switch bareEnv 1 .ready (numberedFrame 900) twoProcesses.world =
      .ok (some 1, _, _, _) from rfl)
  have hk : some (k, (1 : Id)) = some (0, 1) :=
    congrArg Prod.fst (Except.ok.inj (hat.symm.trans (b := .ok (some (0, 1), _)) rfl))
  cases hk
  refine ⟨_, _, _, rfl, rfl, 0, e, es, he, hready, ?_⟩
  cases he
  rfl

/-! ## Ids -/

def FreshIds (c : Config E) : Prop :=
  (c.adds.map Prod.fst).Nodup ∧ ∀ a ∈ c.adds, a.2.trapFrame.tpidr = a.1

/-- **Ids are fresh exactly while there is one.** Every `add` returns the first
id: the counter is never advanced. -/
theorem run_freshIds_iff (hc : c.Reachable) : FreshIds c ↔ c.count ≤ 1 := by
  have hinv := hc.inv
  have hids : c.adds.map Prod.fst = List.replicate c.count 1 := by
    rw [List.eq_replicate_iff]
    refine ⟨by simp [hinv.adds_length], fun id hid => ?_⟩
    obtain ⟨a, ha, rfl⟩ := List.mem_map.mp hid
    exact (hinv.adds a ha).1
  rw [FreshIds, hids, List.nodup_replicate]
  apply and_iff_left
  intro a ha
  obtain ⟨h₁, h₂⟩ := hinv.adds a ha
  rw [h₁, h₂]

theorem run_freshIds_one : FreshIds ((Config.new bareWorld).added (bareProcess 1)) :=
  (run_freshIds_iff ⟨bareWorld, .tail .refl (.add (bareProcess 1))⟩).mpr le_rfl

theorem run_two_adds_clash : twoProcesses.Reachable ∧ twoProcesses.adds.map Prod.fst = [1, 1] ∧
    ¬ FreshIds twoProcesses := by
  refine ⟨twoProcesses_reachable, rfl, fun h => ?_⟩
  have hnodup : [(1 : Id), 1].Nodup := h.1
  simp at hnodup

/-! ## Turns -/

/-- Additions and `n` switches, each made while `a` was not yet at the front. -/
inductive Bypasses (a : Nat) : Nat → Config E → Config E → Prop where
  | refl {c : Config E} : Bypasses a 0 c c
  | add {n : Nat} {c c' : Config E} (p : Process S) : Bypasses a n c c' → Bypasses a n c (c'.added p)
  | elapse {n : Nat} {c c' : Config E} {w : World E.Rest} :
    Bypasses a n c c' → c'.world.reads ≤ w.reads → Bypasses a n c { c' with world := w }
  | switch {n fuel k : Nat} {c c' : Config E} {st : State S} {tf tf' : TrapFrame} {id : Id} {s : Scheduler S}
    {w : World E.Rest} :
    Bypasses a n c c' → ¬ c'.NamedAt a 0 →
    c'.sched.switchAt E fuel st tf c'.world = .ok (some (k, id), tf', s, w) →
    Bypasses a (n + 1) c (c'.switched st tf (some (k, id)) s w)

theorem Bypasses.inv {a n : Nat} {c c' : Config E} (h : Bypasses a n c c') (hc : c.Inv) : c'.Inv := by
  induction h with
  | refl => exact hc
  | add p _ ih => exact (ih hc).added p
  | elapse _ hw ih => exact (ih hc).step (.elapse hw)
  | switch _ _ hs ih => exact (ih hc).step (.switch hs)

theorem Config.Inv.switch_nearer {fuel k a j : Nat} {st : State S} {tf tf' : TrapFrame} {id : Id} {s : Scheduler S}
    {w : World E.Rest} {p : Process S} (hc : c.Inv)
    (h : c.sched.switchAt E fuel st tf c.world = .ok (some (k, id), tf', s, w)) (hname : c.NamedAt a (j + 1))
    (hp : c.sched.processes[j + 1]? = some p) (hready : p.state = .ready) :
    (c.switched st tf (some (k, id)) s w).NamedAt a (j - k) ∧ s.processes[j - k]? = some p := by
  obtain ⟨-, hr, -⟩ | ⟨cur, rest, k', p', ps, q, w₁, hq, hr, -, rfl, hpasses, hf⟩ := Scheduler.switchAt_cases h
  · cases hr
  cases hr
  have halways : ∀ w, p.isReady E w = .ok (true, p, w) := Process.isReady_of_ready hready
  rw [hq, List.getElem?_cons_succ] at hp
  obtain ⟨hjlt, -⟩ := List.getElem?_eq_some_iff.mp hp
  -- nobody is found behind it, and no pass is fruitless
  have hp' : (rest ++ [Scheduler.saved cur st tf])[j]? = some p := by rwa [List.getElem?_append_left hjlt]
  obtain ⟨rfl, rfl⟩ := hpasses.eq_of_mem halways (List.mem_of_getElem? hp')
  obtain ⟨hkj, hfound⟩ := hf.of_ready halways hp'
  refine ⟨?_, hfound⟩
  obtain ⟨e, es, he, hes⟩ := hc.entries_cons hq
  have hlen := hes.length_eq
  rw [NamedAt, he, List.getElem?_cons_succ] at hname
  simp only [NamedAt, switched, switchedOut, he, hq]
  rw [List.getElem?_rotate (by simp; omega), Nat.sub_add_cancel hkj, Nat.mod_eq_of_lt (by simp; omega),
    List.getElem?_append_left (by omega)]
  exact hname

theorem Bypasses.nearer {a i n : Nat} {p : Process S} {c' : Config E} (h : Bypasses a n c c') (hc : c.Inv)
    (hname : c.NamedAt a i) (hp : c.sched.processes[i]? = some p) (hready : p.state = .ready) :
    ∃ j, c'.NamedAt a j ∧ c'.sched.processes[j]? = some p ∧ j + n ≤ i := by
  induction h with
  | refl => exact ⟨i, hname, hp, le_rfl⟩
  | add p' hb ih =>
    obtain ⟨j, hname', hp', hle⟩ := ih hc hname hp
    refine ⟨j, ?_, ?_, hle⟩
    · rw [Config.added_eq (hb.inv hc).currentId, Config.NamedAt]
      rw [Config.NamedAt] at hname'
      obtain ⟨e, he, -⟩ := Option.map_eq_some_iff.mp hname'
      obtain ⟨hlt, -⟩ := List.getElem?_eq_some_iff.mp he
      rw [List.getElem?_append_left hlt]
      exact hname'
    · rw [Config.added_eq (hb.inv hc).currentId]
      obtain ⟨hlt, -⟩ := List.getElem?_eq_some_iff.mp hp'
      rw [List.getElem?_append_left hlt]
      exact hp'
  | elapse _ _ ih => exact ih hc hname hp
  | switch hb hfront hs ih =>
    obtain ⟨j, hname', hp', hle⟩ := ih hc hname hp
    cases j with
    | zero => exact absurd hname' hfront
    | succ j =>
      obtain ⟨hname'', hp''⟩ := (hb.inv hc).switch_nearer hs hname' hp' hready
      exact ⟨_, hname'', hp'', by omega⟩

/-- **Bounded bypass.** While a ready process is not at the front, every switch
brings it at least one place nearer: after `n` of them it is at an index `j`
with `j + n ≤ i`, still as it was, and the next one leaves it at a smaller
index. So `i` switches are enough. -/
theorem run_bounded_bypass {a i : Nat} {p : Process S} (hc : c.Reachable) (hname : c.NamedAt a i)
    (hp : c.sched.processes[i]? = some p) (hready : p.state = .ready) :
    ∀ n c', Bypasses a n c c' → ∃ j, c'.NamedAt a j ∧ (∀ j', c'.NamedAt a j' → j' = j) ∧
      c'.sched.processes[j]? = some p ∧ j + n ≤ i ∧
      (0 < j → ∀ fuel st tf k id tf' s w, c'.sched.switchAt E fuel st tf c'.world = .ok (some (k, id), tf', s, w) →
        ∃ j', (c'.switched st tf (some (k, id)) s w).NamedAt a j' ∧ j' < j) := by
  intro n c' h
  have hinv' := h.inv hc.inv
  obtain ⟨j, hname', hp', hle⟩ := h.nearer hc.inv hname hp hready
  refine ⟨j, hname', fun j' hj' => hinv'.namedAt_inj hj' hname', hp', hle, ?_⟩
  intro hpos fuel st tf k id tf' s w hs
  cases j with
  | zero => exact absurd hpos (Nat.lt_irrefl 0)
  | succ j =>
    obtain ⟨hname'', -⟩ := hinv'.switch_nearer hs hname' hp' hready
    exact ⟨j - k, hname'', by omega⟩

theorem run_bounded_bypass_two : ∃ c', Bypasses 1 1 twoProcesses c' ∧ ∃ j, c'.NamedAt 1 j ∧ j + 1 ≤ 1 := by
  have hb : Bypasses 1 1 twoProcesses _ := .switch .refl (by unfold Config.NamedAt; decide)
    (show twoProcesses.sched.switchAt bareEnv 1 .ready .zero bareWorld = .ok (some (_, _), _, _, _) from rfl)
  obtain ⟨j, hname, -, -, hle, -⟩ := run_bounded_bypass twoProcesses_reachable (i := 1) rfl rfl rfl 1 _ hb
  exact ⟨_, hb, j, hname, hle⟩

end

end Osymandias

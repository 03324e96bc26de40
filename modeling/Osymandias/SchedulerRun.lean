import Osymandias.Scheduler

/-!
# Runs of the scheduler

A run adds processes and switches between them in any order. A configuration
is the scheduler, the world, and a history that the code does not have: a name
for each process of the queue and the process as `add` or the switch that last
switched it out stored it. Names follow the index that each search reports.
-/

namespace Osymandias

open Fuel RoundRobin

structure Entry (S : Sig) where
  name : Nat
  image : Process S

structure Config {S : Sig} (E : Env S) where
  sched : Scheduler S
  world : World E.Rest
  entries : List (Entry S)
  count : Nat
  adds : List (Id × Process S)

namespace Config

section
variable {S : Sig} {E : Env S}

def new (w : World E.Rest) : Config E := ⟨.new, w, [], 0, []⟩

/-- A call of `add`. What it appended to the queue gets the next name. -/
def added (c : Config E) (p : Process S) : Config E :=
  let (r, s) := c.sched.add p
  let stored := s.processes.drop c.sched.processes.length
  { c with
    sched := s
    entries := c.entries ++ stored.map (Entry.mk c.count)
    count := c.count + 1
    adds := c.adds ++ r.toList.flatMap fun id => stored.map fun p => (id, p) }

def switchedOut (c : Config E) (st : State S) (tf : TrapFrame) : List (Entry S) :=
  match c.entries, c.sched.processes with
  | e :: es, cur :: _ => es ++ [⟨e.name, Scheduler.saved cur st tf⟩]
  | es, _ => es

def switched (c : Config E) (st : State S) (tf : TrapFrame) (r : Option (Nat × Id)) (s : Scheduler S)
    (w : World E.Rest) : Config E :=
  match r with
  | none => { c with sched := s, world := w }
  | some (k, _) => { c with sched := s, world := w, entries := (c.switchedOut st tf).rotate k }

/-- The steps of a run. Between calls the rest of the kernel may change the world. -/
inductive Step : Config E → Config E → Prop where
  | add {c : Config E} (p : Process S) : Step c (c.added p)
  | switch {c : Config E} {fuel : Nat} {st : State S} {tf tf' : TrapFrame} {r : Option (Nat × Id)}
    {s : Scheduler S} {w : World E.Rest} :
    c.sched.switchAt E fuel st tf c.world = .ok (r, tf', s, w) → Step c (c.switched st tf r s w)
  | elapse {c : Config E} {w : World E.Rest} : c.world.reads ≤ w.reads → Step c { c with world := w }

def Reachable (c : Config E) : Prop := ∃ w, Relation.ReflTransGen Step (new w) c

structure Inv (c : Config E) : Prop where
  tracked : List.Forall₂ (fun e p => Polled (Process.isReady E) e.image p) c.entries c.sched.processes
  names : (c.entries.map Entry.name).Nodup
  fresh : ∀ e ∈ c.entries, e.name < c.count
  currentId : c.sched.currentId = some 1
  adds : ∀ a ∈ c.adds, a.1 = 1 ∧ a.2.trapFrame.tpidr = 1
  adds_length : c.adds.length = c.count

/-! ## The invariant -/

variable {c c' : Config E}

theorem inv_new (w : World E.Rest) : (new w : Config E).Inv :=
  ⟨.nil, .nil, by simp [new], rfl, by simp [new], rfl⟩

def firstId (p : Process S) : Process S := { p with trapFrame := { p.trapFrame with tpidr := 1 } }

theorem added_eq (h : c.sched.currentId = some 1) (p : Process S) :
    c.added p =
      { sched := { c.sched with lastId := some 1, processes := c.sched.processes ++ [firstId p] }
        world := c.world
        entries := c.entries ++ [⟨c.count, firstId p⟩]
        count := c.count + 1
        adds := c.adds ++ [(1, firstId p)] } := by
  simp [added, Scheduler.add, h, firstId]

theorem Inv.added (hc : c.Inv) (p : Process S) : (c.added p).Inv := by
  rw [added_eq hc.currentId]
  refine ⟨?_, ?_, ?_, hc.currentId, ?_, ?_⟩
  · exact List.rel_append hc.tracked (.cons .refl .nil)
  · rw [List.map_append, List.nodup_append]
    refine ⟨hc.names, by simp, fun a ha b hb => ?_⟩
    obtain ⟨e, he, rfl⟩ := List.mem_map.mp ha
    have := hc.fresh e he
    simp only [List.map_cons, List.map_nil, List.mem_singleton] at hb
    omega
  · intro e he
    rcases List.mem_append.mp he with he | he
    · have := hc.fresh e he
      simp only
      omega
    · rw [List.mem_singleton.mp he]
      exact Nat.lt_succ_self _
  · intro a ha
    rcases List.mem_append.mp ha with ha | ha
    · exact hc.adds a ha
    · rw [List.mem_singleton.mp ha]
      exact ⟨rfl, rfl⟩
  · simp [hc.adds_length]

theorem Inv.entries_cons (hc : c.Inv) {cur : Process S} {rest : List (Process S)}
    (hq : c.sched.processes = cur :: rest) : ∃ e es, c.entries = e :: es ∧
      List.Forall₂ (fun e p => Polled (Process.isReady E) e.image p) es rest := by
  have ht := hc.tracked
  rw [hq] at ht
  obtain ⟨e, es, -, hes, he⟩ := List.forall₂_cons_right_iff.mp ht
  exact ⟨e, es, he, hes⟩

section
variable {fuel k : Nat} {st : State S} {tf tf' : TrapFrame} {id : Id} {s : Scheduler S} {w : World E.Rest}

theorem switchAt_nonempty (h : c.sched.switchAt E fuel st tf c.world = .ok (some (k, id), tf', s, w)) :
    ∃ cur rest, c.sched.processes = cur :: rest ∧ s.currentId = c.sched.currentId := by
  obtain ⟨-, hr, -⟩ | ⟨cur, rest, _, _, _, _, _, hq, -, -, rfl, -⟩ := Scheduler.switchAt_cases h
  · cases hr
  · exact ⟨cur, rest, hq, rfl⟩

/-- A switch between tracked processes. The frame returned is that of the
selected process, which is its entry's image but for polls of its own; so is
every other process of the queue. -/
theorem Inv.switchAt (hc : c.Inv) (h : c.sched.switchAt E fuel st tf c.world = .ok (some (k, id), tf', s, w)) :
    ∃ e es p ps, (c.switchedOut st tf).rotate k = e :: es ∧ s.processes = p :: ps ∧ tf' = p.trapFrame ∧
      id = tf'.tpidr ∧ Polled (Process.isReady E) e.image p ∧
      List.Forall₂ (fun e p => Polled (Process.isReady E) e.image p) es ps := by
  obtain ⟨cur, rest, hq, -⟩ := switchAt_nonempty h
  obtain ⟨e, es, he, hes⟩ := hc.entries_cons hq
  have hout : c.switchedOut st tf = es ++ [⟨e.name, Scheduler.saved cur st tf⟩] := by
    simp only [switchedOut, he, hq]
  have hes' : List.Forall₂ (fun e p => Polled (Process.isReady E) e.image p) (c.switchedOut st tf)
      (rest ++ [Scheduler.saved cur st tf]) := by
    rw [hout]
    exact List.rel_append hes (.cons .refl .nil)
  obtain ⟨e', es', a, p, ps, w₁, hrot, hs, htf, hid, hes', ha, hr⟩ :=
    Scheduler.switchAt_keeps (fun _ _ _ _ _ hpolled hr => hpolled.poll hr) h hq hes'
  exact ⟨e', es', p, ps, hrot, hs, htf, hid, ha.poll hr, hes'⟩

theorem Inv.switchedOut_names (hc : c.Inv) (st : State S) (tf : TrapFrame) (hq : c.sched.processes ≠ []) :
    ((c.switchedOut st tf).map Entry.name).Perm (c.entries.map Entry.name) := by
  cases hp : c.sched.processes with
  | nil => exact absurd hp hq
  | cons cur rest =>
    obtain ⟨e, es, he, -⟩ := hc.entries_cons hp
    simp only [switchedOut, he, hp, List.map_append, List.map_cons, List.map_nil]
    exact List.perm_append_singleton ..

end

theorem Inv.step (hc : c.Inv) (h : Step c c') : c'.Inv := by
  cases h with
  | add p => exact hc.added p
  | elapse hw => exact ⟨hc.tracked, hc.names, hc.fresh, hc.currentId, hc.adds, hc.adds_length⟩
  | @switch fuel st tf tf' r s w h =>
    cases r with
    | none =>
      obtain ⟨rfl, rfl⟩ := Scheduler.switchAt_none h
      exact hc
    | some t =>
      obtain ⟨k, id⟩ := t
      obtain ⟨cur, rest, hq, hid⟩ := switchAt_nonempty h
      obtain ⟨e, es, p, ps, hrot, hs, -, -, hep, heps⟩ := hc.switchAt h
      have hnames := hc.switchedOut_names st tf (by simp [hq])
      have hperm : (((c.switchedOut st tf).rotate k).map Entry.name).Perm (c.entries.map Entry.name) :=
        ((List.rotate_perm _ k).map _).trans hnames
      refine ⟨?_, hperm.nodup_iff.mpr hc.names, fun e he => ?_, hid.trans hc.currentId, hc.adds, hc.adds_length⟩
      · simp only [switched, hrot, hs]
        exact .cons hep heps
      · obtain ⟨e', he', hname⟩ := List.mem_map.mp (hperm.mem_iff.mp (List.mem_map_of_mem he))
        rw [← hname]
        exact hc.fresh e' he'

theorem Reachable.inv (h : Reachable c) : c.Inv := by
  obtain ⟨w, h⟩ := h
  induction h with
  | refl => exact inv_new w
  | tail _ hstep ih => exact ih.step hstep

def NamedAt (c : Config E) (a i : Nat) : Prop := c.entries[i]?.map Entry.name = some a

theorem Inv.namedAt_inj (hc : c.Inv) {a i j : Nat} (hi : c.NamedAt a i) (hj : c.NamedAt a j) : i = j := by
  unfold NamedAt at hi hj
  rw [← List.getElem?_map] at hi hj
  obtain ⟨hlt, -⟩ := List.getElem?_eq_some_iff.mp hi
  exact (List.getElem?_inj hlt hc.names).mp (hi.trans hj.symm)

end

end Config

/-- A frame whose fields all differ. -/
def numberedFrame (n : UInt64) : TrapFrame :=
  ⟨n, n + 1, n + 2, n + 3, fun i => .ofNat _ (n.toNat + 10 + i), fun i => n + 50 + .ofNat i, n + 4⟩

def bareProcess (stack : UInt64) : Process bareSig := ⟨numberedFrame (100 * stack), stack, .ready⟩

def twoProcesses : Config bareEnv := ((Config.new bareWorld).added (bareProcess 1)).added (bareProcess 2)

theorem twoProcesses_reachable : twoProcesses.Reachable :=
  ⟨bareWorld, .tail (.tail .refl (.add (bareProcess 1))) (.add (bareProcess 2))⟩

end Osymandias

import Mathlib

/-!
# Faults and fuel

A computation stops with a value, with a panic, or because the fuel that
bounds its loops ran out. `Returns fuel bound o P` is the total-correctness
judgment about such an outcome: the computation returns a value with `P`,
unless it was given less fuel than `bound`. It never panics. `Agrees` compares
an outcome with that of a specification, which may panic too.
-/

namespace Fuel

inductive Fault where
  | panic (msg : String)
  | outOfFuel
  deriving DecidableEq, Repr

section
variable {α β : Type}

def Returns (fuel bound : Nat) (o : Except Fault α) (P : α → Prop) : Prop :=
  (∃ a, o = .ok a ∧ P a) ∨ (o = .error .outOfFuel ∧ fuel < bound)

variable {fuel bound : Nat} {o : Except Fault α} {P Q : α → Prop}

theorem Returns.ok {a : α} (h : P a) : Returns fuel bound (.ok a) P := .inl ⟨a, rfl, h⟩

theorem Returns.mono (h : Returns fuel bound o P) (hPQ : ∀ a, P a → Q a) : Returns fuel bound o Q := by
  rcases h with ⟨a, ha, hP⟩ | h
  · exact .inl ⟨a, ha, hPQ a hP⟩
  · exact .inr h

theorem Returns.weaken {bound' : Nat} (h : Returns fuel bound o P) (hb : bound ≤ bound') :
    Returns fuel bound' o P := by
  rcases h with h | ⟨ho, hf⟩
  · exact .inl h
  · exact .inr ⟨ho, by omega⟩

theorem Returns.step (h : Returns fuel bound o P) : Returns (fuel + 1) (bound + 1) o P := by
  rcases h with h | ⟨ho, hf⟩
  · exact .inl h
  · exact .inr ⟨ho, by omega⟩

theorem Returns.bind {k : α → Except Fault β} {R : β → Prop} (h : Returns fuel bound o P)
    (hk : ∀ a, P a → Returns fuel bound (k a) R) : Returns fuel bound (o >>= k) R := by
  rcases h with ⟨a, rfl, hP⟩ | ⟨rfl, hf⟩
  · exact hk a hP
  · exact .inr ⟨rfl, hf⟩

theorem bind_ok {k : α → Except Fault β} {b : β} (h : (o >>= k) = .ok b) : ∃ a, o = .ok a ∧ k a = .ok b := by
  cases o with
  | error e => cases h
  | ok a => exact ⟨a, rfl, h⟩

theorem foldlM_invariant {I : β → Prop} {step : β → α → Except Fault β} : ∀ {xs : List α} {b : β}, I b →
    (∀ x ∈ xs, ∀ b, I b → ∃ b', step b x = .ok b' ∧ I b') → ∃ b', xs.foldlM step b = .ok b' ∧ I b'
  | [], b, hb, _ => ⟨b, rfl, hb⟩
  | x :: xs, b, hb, hstep => by
    obtain ⟨b', hx, hb'⟩ := hstep x (by simp) b hb
    obtain ⟨b'', hxs, hb''⟩ := foldlM_invariant hb' fun y hy => hstep y (List.mem_cons_of_mem x hy)
    refine ⟨b'', ?_, hb''⟩
    rw [List.foldlM_cons, hx]
    exact hxs

theorem map_ok {f : α → β} {b : β} (h : o.map f = .ok b) : ∃ a, o = .ok a ∧ f a = b := by
  cases o with
  | error e => cases h
  | ok a =>
    cases h
    exact ⟨a, rfl, rfl⟩

/-- The computation returns a value that passes the check. -/
def Passes (o : Except Fault α) (check : α → Bool) : Bool :=
  match o with
  | .ok a => check a
  | .error _ => false

theorem passes_ok {check : α → Bool} (h : Passes o check = true) : ∃ a, o = .ok a ∧ check a = true := by
  cases o with
  | ok a => exact ⟨a, rfl, h⟩
  | error e => cases h

theorem Returns.of_ok {a : α} (h : Returns fuel bound o P) (ho : o = .ok a) : P a := by
  rcases h with ⟨b, hb, hP⟩ | ⟨hb, -⟩
  · rw [ho] at hb; cases hb; exact hP
  · rw [ho] at hb; cases hb

theorem Returns.total (h : Returns fuel bound o P) (hf : bound ≤ fuel) : ∃ a, o = .ok a ∧ P a := by
  rcases h with h | ⟨-, hlt⟩
  · exact h
  · omega

end

/-! ## Agreement with a specification -/

section
variable {α β γ : Type}

/-- With fuel from `bound` on, `o` stops as `e` does: with related values, or
with the same panic. -/
def Agrees (fuel bound : Nat) (o : Except Fault α) (e : Except Fault β) (R : α → β → Prop) : Prop :=
  match e with
  | .ok b => Returns fuel bound o fun a => R a b
  | .error msg => o = .error msg ∨ (o = .error .outOfFuel ∧ fuel < bound)

variable {fuel bound : Nat} {o : Except Fault α} {e : Except Fault β} {R : α → β → Prop}

theorem Agrees.of_ok {a : α} (h : Agrees fuel bound o e R) (ho : o = .ok a) : ∃ b, e = .ok b ∧ R a b := by
  cases e with
  | ok b => exact ⟨b, rfl, Returns.of_ok (P := fun a => R a b) h ho⟩
  | error msg =>
    subst ho
    rcases h with h | ⟨h, -⟩ <;> cases h

theorem Agrees.ok {a : α} {b : β} (h : R a b) : Agrees fuel bound (.ok a) (.ok b) R := Returns.ok h

theorem Agrees.stops (h : Agrees fuel bound o e R) (hf : bound ≤ fuel) (he : e ≠ .error .outOfFuel) :
    o ≠ .error .outOfFuel := by
  cases e with
  | ok b =>
    obtain ⟨a, rfl, -⟩ := Returns.total (P := fun a => R a b) h hf
    simp
  | error msg =>
    rcases h with rfl | ⟨-, hlt⟩
    · intro h
      cases h
      exact he rfl
    · omega

theorem Agrees.bind_map {δ : Type} {k : α → Except Fault γ} {g : β → δ} {R' : γ → δ → Prop}
    (h : Agrees fuel bound o e R) (hk : ∀ a b, e = .ok b → R a b → Agrees fuel bound (k a) (.ok (g b)) R') :
    Agrees fuel bound (o >>= k) (e.map g) R' := by
  cases e with
  | ok b => exact Returns.bind (P := fun a => R a b) h fun a ha => hk a b rfl ha
  | error msg =>
    rcases h with rfl | ⟨rfl, hf⟩
    · exact .inl rfl
    · exact .inr ⟨rfl, hf⟩

theorem Agrees.map_eq {δ : Type} {o' : Except Fault γ} {R' : γ → β → Prop} (f : α → δ) (g : γ → δ)
    (h : Agrees fuel bound o e R) (h' : Agrees fuel bound o' e R') (hf : bound ≤ fuel)
    (hfg : ∀ a c b, R a b → R' c b → f a = g c) : o.map f = o'.map g := by
  cases e with
  | ok b =>
    obtain ⟨a, rfl, ha⟩ := Returns.total (P := fun a => R a b) h hf
    obtain ⟨c, rfl, hc⟩ := Returns.total (P := fun c => R' c b) h' hf
    exact congrArg Except.ok (hfg a c b ha hc)
  | error msg =>
    rcases h with rfl | ⟨-, hlt⟩
    · rcases h' with rfl | ⟨-, hlt⟩
      · rfl
      · omega
    · omega

end

/-! ## Computations as functions of their fuel -/

section
variable {α β : Type}

def Yields (f : Nat → Except Fault α) (a : α) : Prop := ∃ n, ∀ fuel, n ≤ fuel → f fuel = .ok a

def Completes (f : Nat → Except Fault α) : Prop := ∃ n, ∀ fuel, n ≤ fuel → ∃ a, f fuel = .ok a

/-- From some fuel on the computation returns, and what it returns satisfies `P`. -/
def Ensures (f : Nat → Except Fault α) (P : α → Prop) : Prop := ∃ n, ∀ fuel, n ≤ fuel → ∃ a, f fuel = .ok a ∧ P a

/-- From some fuel on the computation stops as it does with more: with a value or with a panic. -/
def Halts (f : Nat → Except Fault α) : Prop :=
  ∃ o, o ≠ .error .outOfFuel ∧ ∃ n, ∀ fuel, n ≤ fuel → f fuel = o

def Panics (f : Nat → Except Fault α) (msg : String) : Prop := ∃ n, ∀ fuel, n ≤ fuel → f fuel = .error (.panic msg)

variable {f : Nat → Except Fault α} {bound : Nat} {e : Except Fault β} {R : α → β → Prop}

theorem Yields.unique {a b : α} (ha : Yields f a) (hb : Yields f b) : a = b := by
  obtain ⟨n, hn⟩ := ha
  obtain ⟨k, hk⟩ := hb
  have h := (hn (max n k) (Nat.le_max_left ..)).symm.trans (hk (max n k) (Nat.le_max_right ..))
  cases h
  rfl

theorem Panics.not_completes {msg : String} (h : Panics f msg) : ¬ Completes f := by
  rintro ⟨n, hn⟩
  obtain ⟨k, hk⟩ := h
  obtain ⟨a, ha⟩ := hn (max n k) (Nat.le_max_left ..)
  rw [hk (max n k) (Nat.le_max_right ..)] at ha
  cases ha

theorem completes_of_returns {P : α → Prop} (h : ∀ fuel, Returns fuel bound (f fuel) P) : Completes f := by
  refine ⟨bound, fun fuel hf => ?_⟩
  obtain ⟨a, ha, -⟩ := (h fuel).total hf
  exact ⟨a, ha⟩

theorem ensures_of_returns {P : α → Prop} (h : ∀ fuel, Returns fuel bound (f fuel) P) : Ensures f P :=
  ⟨bound, fun fuel hf => (h fuel).total hf⟩

theorem yields_of_returns {a : α} (h : ∀ fuel, Returns fuel bound (f fuel) fun b => b = a) : Yields f a := by
  refine ⟨bound, fun fuel hf => ?_⟩
  obtain ⟨b, hb, rfl⟩ := (h fuel).total hf
  exact hb

theorem completes_iff (h : ∀ fuel, Agrees fuel bound (f fuel) e R) : Completes f ↔ ∃ b, e = .ok b := by
  constructor
  · rintro ⟨n, hn⟩
    obtain ⟨a, ha⟩ := hn n (Nat.le_refl n)
    obtain ⟨b, hb, -⟩ := (h n).of_ok ha
    exact ⟨b, hb⟩
  · rintro ⟨b, rfl⟩
    exact completes_of_returns (P := fun a => R a b) h

theorem panics_of_agrees {msg : String} (h : ∀ fuel, Agrees fuel bound (f fuel) e R)
    (he : e = .error (.panic msg)) : Panics f msg := by
  subst he
  refine ⟨bound, fun fuel hf => ?_⟩
  rcases h fuel with hp | ⟨-, hlt⟩
  · exact hp
  · omega

end

end Fuel

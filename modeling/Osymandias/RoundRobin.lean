import Osymandias.Fuel

/-!
# Polling a queue in turn

A queue whose elements are polled in order until one is ready. A poll may
change the element it is made on, and the world. The queue is then turned so
that the ready element is at its front; when a whole pass finds none, the world
idles and another pass begins.
-/

namespace RoundRobin

open Fuel

section
variable {α W : Type} (ready : α → W → Except Fault (Bool × α × W)) (idle : W → W)

def position : List α → W → Except Fault (Option Nat × List α × W)
  | [], w => .ok (none, [], w)
  | a :: as, w => do
    let (r, a', w₁) ← ready a w
    if r then return (some 0, a' :: as, w₁)
    else
      let (i, as', w₂) ← position as w₁
      return (i.map (· + 1), a' :: as', w₂)

inductive Pass : List α → W → List α → W → Prop where
  | nil {w : W} : Pass [] w [] w
  | cons {a a' : α} {as as' : List α} {w w₁ w₂ : W} :
    ready a w = .ok (false, a', w₁) → Pass as w₁ as' w₂ → Pass (a :: as) w (a' :: as') w₂

/-- A pass that finds the element at index `k`, and the turn that brings it to the front. -/
inductive Finds : List α → W → Nat → List α → W → Prop where
  | mk {pre pre' post : List α} {a a' : α} {w w₁ w₂ : W} :
    Pass ready pre w pre' w₁ → ready a w₁ = .ok (true, a', w₂) →
    Finds (pre ++ a :: post) w pre.length (a' :: (post ++ pre')) w₂

inductive Passes : List α → W → List α → W → Prop where
  | refl {q : List α} {w : W} : Passes q w q w
  | step {q q₁ q₂ : List α} {w w₁ w₂ : W} :
    Pass ready q w q₁ w₁ → Passes q₁ (idle w₁) q₂ w₂ → Passes q w q₂ w₂

def Poll (a a' : α) : Prop := ∃ r w w', ready a w = .ok (r, a', w')

def Polled : α → α → Prop := Relation.ReflTransGen (Poll ready)

end

/-! ## What a search does -/

section
variable {α W : Type} {ready : α → W → Except Fault (Bool × α × W)}

theorem position_cases : ∀ {q : List α} {w : W} {o : Option Nat} {q' : List α} {w' : W},
    position ready q w = .ok (o, q', w') →
    (o = none ∧ Pass ready q w q' w') ∨
    ∃ pre a post pre' a' w₁, o = some pre.length ∧ q = pre ++ a :: post ∧ q' = pre' ++ a' :: post ∧
      pre'.length = pre.length ∧ Pass ready pre w pre' w₁ ∧ ready a w₁ = .ok (true, a', w')
  | [], w, o, q', w', h => by
    cases h
    exact .inl ⟨rfl, .nil⟩
  | a :: as, w, o, q', w', h => by
    rw [position] at h
    obtain ⟨⟨r, a', w₁⟩, hr, h⟩ := bind_ok h
    cases r with
    | true =>
      cases h
      exact .inr ⟨[], a, as, [], a', w, rfl, rfl, rfl, rfl, .nil, hr⟩
    | false =>
      obtain ⟨⟨i, as', w₂⟩, hp, h⟩ := bind_ok h
      cases h
      rcases position_cases hp with ⟨rfl, hpass⟩ | ⟨pre, b, post, pre', b', w₃, rfl, rfl, rfl, hlen, hpass, hb⟩
      · exact .inl ⟨rfl, .cons hr hpass⟩
      · exact .inr ⟨a :: pre, b, post, a' :: pre', b', w₃, rfl, rfl, rfl, by simp [hlen], .cons hr hpass, hb⟩

theorem finds_of_position {q q' : List α} {w w' : W} {k : Nat} (h : position ready q w = .ok (some k, q', w')) :
    Finds ready q w k (q'.drop k ++ q'.take k) w' := by
  obtain ⟨hnone, -⟩ | ⟨pre, a, post, pre', a', w₁, hk, rfl, rfl, hlen, hpass, ha⟩ := position_cases h
  · cases hnone
  · cases hk
    rw [← hlen, List.drop_left, List.take_left, hlen]
    exact .mk hpass ha

theorem Finds.front {q q' : List α} {w w' : W} {k : Nat} (h : Finds ready q w k q' w') : ∃ a as, q' = a :: as := by
  cases h
  exact ⟨_, _, rfl⟩

end

/-! ## What a search keeps -/

section
variable {α β W : Type} {ready : α → W → Except Fault (Bool × α × W)} {idle : W → W}
  {R : β → α → Prop} {I : W → Prop}
  (keep : ∀ b a w a' w', I w → R b a → ready a w = .ok (false, a', w') → R b a')
  (world : ∀ a w r a' w', I w → ready a w = .ok (r, a', w') → I w')

include keep world in
theorem Pass.forall₂ {q q' : List α} {w w' : W} (h : Pass ready q w q' w') :
    ∀ {es : List β}, I w → List.Forall₂ R es q → List.Forall₂ R es q' ∧ I w' := by
  induction h with
  | nil => exact fun hw hes => ⟨hes, hw⟩
  | cons ha hpass ih =>
    intro es hw hes
    cases hes with
    | cons he hes =>
      obtain ⟨hes', hw'⟩ := ih (world _ _ _ _ _ hw ha) hes
      exact ⟨.cons (keep _ _ _ _ _ hw he ha) hes', hw'⟩

include keep world in
theorem Passes.forall₂ (hidle : ∀ w, I w → I (idle w)) {q q' : List α} {w w' : W}
    (h : Passes ready idle q w q' w') :
    ∀ {es : List β}, I w → List.Forall₂ R es q → List.Forall₂ R es q' ∧ I w' := by
  induction h with
  | refl => exact fun hw hes => ⟨hes, hw⟩
  | step hpass _ ih =>
    intro es hw hes
    obtain ⟨hes₁, hw₁⟩ := hpass.forall₂ keep world hw hes
    exact ih (hidle _ hw₁) hes₁

include keep world in
/-- The element found, and the others. A relation to the entries `es` that
fruitless polls keep is kept for all elements but the one found, and was true
of that one when it was polled. -/
theorem Finds.forall₂ {q q' : List α} {w w' : W} {k : Nat} (h : Finds ready q w k q' w') {es : List β} (hw : I w)
    (hes : List.Forall₂ R es q) :
    ∃ e es' a a' as' w₁, es.rotate k = e :: es' ∧ q' = a' :: as' ∧ List.Forall₂ R es' as' ∧ R e a ∧ I w₁ ∧
      ready a w₁ = .ok (true, a', w') := by
  obtain @⟨pre, pre', post, a, a', w, w₁, w₂, hpass, ha⟩ := h
  have hpre := List.forall₂_take_append _ _ _ hes
  have hpost := List.forall₂_drop_append _ _ _ hes
  obtain ⟨e, es', he, hes', hdrop⟩ := List.forall₂_cons_right_iff.mp hpost
  obtain ⟨hpre', hw₁⟩ := hpass.forall₂ keep world hw hpre
  refine ⟨e, es' ++ es.take pre.length, a, a', post ++ pre', w₁, ?_, rfl, ?_, he, hw₁, ha⟩
  · have hlen := hes.length_eq
    rw [List.rotate_eq_drop_append_take (by simp at hlen; omega), hdrop]
    rfl
  · exact List.rel_append hes' hpre'

end

/-! ## Polls -/

section
variable {α W : Type} {ready : α → W → Except Fault (Bool × α × W)} {idle : W → W}

theorem Polled.poll {a a' a'' : α} {r : Bool} {w w' : W} (h : Polled ready a a')
    (hr : ready a' w = .ok (r, a'', w')) : Polled ready a a'' := h.tail ⟨r, w, w', hr⟩

theorem Pass.not_mem {q q' : List α} {w w' : W} {a : α} (ha : ∀ w, ready a w = .ok (true, a, w))
    (h : Pass ready q w q' w') : a ∉ q := by
  induction h with
  | nil => simp
  | cons hb _ ih =>
    intro hmem
    rcases List.mem_cons.mp hmem with rfl | hmem
    · rw [ha] at hb
      cases hb
    · exact ih hmem

theorem Passes.eq_of_mem {q q' : List α} {w w' : W} {a : α} (ha : ∀ w, ready a w = .ok (true, a, w)) (hmem : a ∈ q)
    (h : Passes ready idle q w q' w') : q' = q ∧ w' = w := by
  cases h with
  | refl => exact ⟨rfl, rfl⟩
  | step hpass _ => exact absurd hmem (hpass.not_mem ha)

/-- It is found at the latest when its turn comes, and moves up by the turn. -/
theorem Finds.of_ready {q q' : List α} {w w' : W} {k j : Nat} {a : α} (ha : ∀ w, ready a w = .ok (true, a, w))
    (hj : q[j]? = some a) (h : Finds ready q w k q' w') : k ≤ j ∧ q'[j - k]? = some a := by
  obtain @⟨pre, pre', post, b, b', w, w₁, w₂, hpass, hb⟩ := h
  have hle : pre.length ≤ j := by
    by_contra hlt
    rw [List.getElem?_append_left (by omega)] at hj
    exact hpass.not_mem ha (List.mem_of_getElem? hj)
  refine ⟨hle, ?_⟩
  rw [List.getElem?_append_right hle] at hj
  cases hd : j - pre.length with
  | zero =>
    rw [hd] at hj
    simp only [List.getElem?_cons_zero, Option.some.injEq] at hj ⊢
    subst hj
    rw [ha] at hb
    cases hb
    rfl
  | succ d =>
    rw [hd] at hj
    simp only [List.getElem?_cons_succ] at hj ⊢
    rw [List.getElem?_append_left]
    · exact hj
    · exact (List.getElem?_eq_some_iff.mp hj).1

end

/-! ## That a search returns -/

section
variable {α W : Type} {ready : α → W → Except Fault (Bool × α × W)}

variable {f : W → Nat} (mono : ∀ a w r a' w', ready a w = .ok (r, a', w') → f w ≤ f w')

include mono in
theorem Pass.le {q q' : List α} {w w' : W} (h : Pass ready q w q' w') : f w ≤ f w' := by
  induction h with
  | nil => exact Nat.le_refl _
  | cons hr _ ih => exact Nat.le_trans (mono _ _ _ _ _ hr) ih

end

end RoundRobin

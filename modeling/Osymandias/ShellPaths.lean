import Osymandias.Shell

/-!
# Path resolution

`canonical_join` edits the text of a path. On an absolute path without `..` it
does what `resolve` does with the names of the path, so that joins compose, keep
the path canonical and fail only above the root.
-/

namespace Osymandias

namespace Shell

open UnixPath

structure Canonical (path : Text) : Prop where
  absolute : isAbsolute path = true
  normal : ∀ c ∈ (components path).tail, ∃ name, c = .normal name

/-- The path leads to the directory. -/
structure Denotes (path : Text) (dir : List Text) : Prop where
  root : hasRoot path = true
  names_eq : names path = dir.map .normal

section
variable {path : Text} {dir : List Text}

theorem Canonical.denotes (h : Canonical path) : ∃ dir, Denotes path dir := by
  have hnormal := h.normal
  rw [components_of_root h.absolute, List.tail_cons] at hnormal
  have hdir : ∀ cs : List Component, (∀ c ∈ cs, ∃ name, c = .normal name) →
      ∃ dir : List Text, cs = dir.map .normal := by
    intro cs hcs
    induction cs with
    | nil => exact ⟨[], rfl⟩
    | cons c cs ih =>
      obtain ⟨⟨name, rfl⟩, hrest⟩ := List.forall_mem_cons.mp hcs
      obtain ⟨dir, rfl⟩ := ih hrest
      exact ⟨name :: dir, rfl⟩
  obtain ⟨dir, hd⟩ := hdir _ hnormal
  exact ⟨dir, h.absolute, hd⟩

namespace Denotes

theorem canonical (h : Denotes path dir) : Canonical path := by
  refine ⟨h.root, ?_⟩
  rw [components_of_root h.root, List.tail_cons, h.names_eq]
  intro c hc
  obtain ⟨name, -, rfl⟩ := List.mem_map.mp hc
  exact ⟨name, rfl⟩

theorem components_eq (h : Denotes path dir) : components path = .rootDir :: dir.map .normal := by
  rw [components_of_root h.root, h.names_eq]

theorem same {q : Text} (h : Denotes path dir) (hq : Denotes q dir) : Same path q := by
  unfold Same
  rw [h.components_eq, hq.components_eq]

theorem length_names (h : Denotes path dir) : (names path).length = dir.length := by
  rw [h.names_eq, List.length_map]

end Denotes

/-! ## One component -/

theorem reset_denotes (path : Text) (hr : hasRoot path = true) : Denotes (reset path) [] := by
  induction hn : path.length using Nat.strongRecOn generalizing path with
  | _ n ih =>
    subst hn
    rw [reset]
    cases hp : parent path with
    | none =>
      rw [pop_none hp]
      exact ⟨hr, (parent_none_iff hr).mp hp⟩
    | some q =>
      rw [pop_eq hp]
      exact ih q.length (parent_isPrefix hp).2 q (parent_root hr hp).1 rfl

theorem parent_denotes (h : Denotes path dir) :
    if dir = [] then parent path = none else ∃ q, parent path = some q ∧ Denotes q dir.dropLast := by
  have hnone := parent_none_iff h.root
  rw [h.names_eq, List.map_eq_nil_iff] at hnone
  by_cases hd : dir = []
  · rw [if_pos hd]
    exact hnone.mpr hd
  · rw [if_neg hd]
    cases hp : parent path with
    | none => exact absurd (hnone.mp hp) hd
    | some q =>
      obtain ⟨hr, hq⟩ := parent_root h.root hp
      refine ⟨q, rfl, hr, ?_⟩
      rw [hq, h.names_eq, List.map_dropLast]

theorem push_denotes {name : Text} (h : Denotes path dir) (hn : parseSingleComponent name = some (.normal name))
    (hs : sep ∉ name) : Denotes (push path name) (dir ++ [name]) := by
  refine ⟨hasRoot_push h.root hs, ?_⟩
  rw [names_push hn hs, h.names_eq, List.map_append]
  rfl

def invalidTarget (other : Text) : Error := .path other "invalid target directory"

/-- What the text does for one component, the names do. -/
def Agrees (other : Text) (r : Except Error Text) : Option (List Text) → Prop
  | none => r = .error (invalidTarget other)
  | some dir => ∃ path, r = .ok path ∧ Denotes path dir

theorem joinStep_agrees {other : Text} {c : Component} (h : Denotes path dir) (hc : c ∈ components other) :
    Agrees other (joinStep other path c) (resolveStep dir c) := by
  cases c with
  | rootDir => exact ⟨reset path, rfl, reset_denotes path h.root⟩
  | curDir => exact ⟨path, rfl, h⟩
  | normal name =>
    obtain ⟨hn, hs⟩ := normal_mem hc
    exact ⟨push path name, rfl, push_denotes h hn hs⟩
  | parentDir =>
    have hp := parent_denotes h
    unfold joinStep resolveStep
    by_cases hd : dir = []
    · rw [if_pos hd] at hp ⊢
      rw [hp]
      rfl
    · rw [if_neg hd] at hp ⊢
      obtain ⟨q, hq, hden⟩ := hp
      rw [hq, pop_eq hq]
      exact ⟨q, rfl, hden⟩

/-! ## A whole path -/

theorem foldlM_agrees {other : Text} : ∀ (cs : List Component) {path : Text} {dir : List Text},
    (∀ c ∈ cs, c ∈ components other) → Denotes path dir →
      Agrees other (cs.foldlM (joinStep other) path) (resolve dir cs)
  | [], path, _, _, h => ⟨path, rfl, h⟩
  | c :: cs, path, dir, hcs, h => by
    obtain ⟨hc, hrest⟩ := List.forall_mem_cons.mp hcs
    have hstep := joinStep_agrees h hc
    unfold resolve
    rw [List.foldlM_cons, List.foldlM_cons]
    cases hr : resolveStep dir c with
    | none =>
      rw [hr] at hstep
      rw [show joinStep other path c = .error (invalidTarget other) from hstep]
      rfl
    | some dir' =>
      rw [hr] at hstep
      obtain ⟨path', hok, hden⟩ := hstep
      rw [hok]
      exact foldlM_agrees cs hrest hden

/-- Refinement. Joining a path's text resolves its components. -/
theorem canonicalJoin_agrees (other : Text) (h : Denotes path dir) :
    Agrees other (canonicalJoin path other) (resolve dir (components other)) :=
  foldlM_agrees (components other) (fun _ hc => hc) h

end

section
variable {path other r : Text} {dir : List Text}

theorem canonicalJoin_ok (h : Denotes path dir) (hok : canonicalJoin path other = .ok r) :
    ∃ dir', resolve dir (components other) = some dir' ∧ Denotes r dir' := by
  have hagrees := canonicalJoin_agrees other h
  cases hres : resolve dir (components other) with
  | none =>
    rw [hres] at hagrees
    cases hok.symm.trans hagrees
  | some dir' =>
    rw [hres] at hagrees
    obtain ⟨q, hq, hden⟩ := hagrees
    cases hok.symm.trans hq
    exact ⟨dir', rfl, hden⟩

theorem canonicalJoin_error {error : Error} (h : Denotes path dir) (he : canonicalJoin path other = .error error) :
    resolve dir (components other) = none ∧ error = invalidTarget other := by
  have hagrees := canonicalJoin_agrees other h
  cases hres : resolve dir (components other) with
  | none =>
    rw [hres] at hagrees
    cases he.symm.trans hagrees
    exact ⟨rfl, rfl⟩
  | some dir' =>
    rw [hres] at hagrees
    obtain ⟨q, hq, -⟩ := hagrees
    cases he.symm.trans hq

theorem canonicalJoin_fails_iff (h : Denotes path dir) (other : Text) :
    (∃ error, canonicalJoin path other = .error error) ↔ Climbs dir.length (components other) := by
  rw [← resolve_none_iff]
  refine ⟨?_, ?_⟩
  · rintro ⟨error, he⟩
    exact (canonicalJoin_error h he).1
  · intro hnone
    have hagrees := canonicalJoin_agrees other h
    rw [hnone] at hagrees
    exact ⟨_, hagrees⟩

theorem canonicalJoin_self {cwd : Text} (hcwd : hasRoot cwd = true) (h : Denotes path dir) :
    ∃ q, canonicalJoin cwd path = .ok q ∧ Denotes q dir := by
  have hmem : ∀ c ∈ dir.map Component.normal, c ∈ components path := by
    intro c hc
    rw [h.components_eq]
    exact List.mem_cons_of_mem _ hc
  have hagrees := foldlM_agrees _ hmem (reset_denotes cwd hcwd)
  rw [resolve_normals] at hagrees
  unfold canonicalJoin
  rw [h.components_eq]
  exact hagrees

/-! ## Two joins in a row -/

theorem joinStep_ok_iff (o o' p : Text) (c : Component) : joinStep o p c = .ok r ↔ joinStep o' p c = .ok r := by
  cases c with
  | parentDir =>
    unfold joinStep
    cases parent p with
    | none => exact ⟨fun h => (by cases h), fun h => (by cases h)⟩
    | some q => exact Iff.rfl
  | _ => exact Iff.rfl

theorem foldlM_ok_cons {f : Text → Component → Except Error Text} {c : Component} {cs : List Component} :
    (c :: cs).foldlM f path = .ok r ↔ ∃ q, f path c = .ok q ∧ cs.foldlM f q = .ok r := by
  rw [List.foldlM_cons]
  cases f path c with
  | error e => simp [bind, Except.bind]
  | ok q => simp [bind, Except.bind]

theorem foldlM_ok_iff (o o' : Text) : ∀ (cs : List Component) {p : Text},
    cs.foldlM (joinStep o) p = .ok r ↔ cs.foldlM (joinStep o') p = .ok r
  | [], _ => Iff.rfl
  | c :: cs, p => by
    rw [foldlM_ok_cons, foldlM_ok_cons]
    apply exists_congr
    intro q
    rw [joinStep_ok_iff o o' p c, foldlM_ok_iff o o' cs]

theorem foldlM_ok_append {f : Text → Component → Except Error Text} : ∀ (cs : List Component) {ds : List Component}
    {p : Text}, (cs ++ ds).foldlM f p = .ok r ↔ ∃ q, cs.foldlM f p = .ok q ∧ ds.foldlM f q = .ok r
  | [], _, p => ⟨fun h => ⟨p, rfl, h⟩, by
      rintro ⟨q, hq, h⟩
      cases hq
      exact h⟩
  | c :: cs, ds, p => by
    rw [List.cons_append, foldlM_ok_cons]
    simp only [foldlM_ok_append cs, foldlM_ok_cons]
    refine ⟨?_, ?_⟩
    · rintro ⟨q, hq, q', hq', h⟩
      exact ⟨q', ⟨q, hq, hq'⟩, h⟩
    · rintro ⟨q', ⟨q, hq, hq'⟩, h⟩
      exact ⟨q, hq, q', hq', h⟩

theorem foldlM_relative {b p : Text} (o : Text) (hb : hasRoot b = false) :
    (components b).foldlM (joinStep o) p = (names b).foldlM (joinStep o) p := by
  rw [UnixPath.components_eq]
  rcases start_of_relative hb with h | h
  · rw [h]
    rfl
  · rw [h]
    rfl

theorem canonicalJoin_append {cwd a b : Text} (ha : a ≠ []) (hb : hasRoot b = false) :
    canonicalJoin cwd (a ++ sep :: b) = .ok r ↔ ∃ p, canonicalJoin cwd a = .ok p ∧ canonicalJoin p b = .ok r := by
  unfold canonicalJoin
  rw [components_append ha, foldlM_ok_append]
  apply exists_congr
  intro p
  rw [foldlM_ok_iff _ a (components a), foldlM_ok_iff _ b (names b), foldlM_relative b hb]

end

/-- **Paths compose and normalise.** Joining `a/b` is joining `a` and then `b`; a join that succeeds gives a
canonical path that resolves to itself from every absolute directory, and a join fails when some
beginning of the components climbs above the root, and only then. -/
theorem canonicalJoin_resolves {cwd : Text} (hcwd : Canonical cwd) :
    (∀ a b r : Text, a ≠ [] → hasRoot b = false →
      (canonicalJoin cwd (a ++ sep :: b) = .ok r ↔
        ∃ p, canonicalJoin cwd a = .ok p ∧ canonicalJoin p b = .ok r)) ∧
    (∀ other r : Text, canonicalJoin cwd other = .ok r →
      Canonical r ∧ ∀ cwd' : Text, isAbsolute cwd' = true → ∃ q, canonicalJoin cwd' r = .ok q ∧ Same q r) ∧
    ∀ other : Text, (∃ error, canonicalJoin cwd other = .error error) ↔
      ∃ pre, pre <+: components other ∧ depth (components cwd).tail.length pre < 0 := by
  obtain ⟨dir, hdir⟩ := hcwd.denotes
  refine ⟨fun a b r ha hb => canonicalJoin_append ha hb, ?_, ?_⟩
  · intro other r hok
    obtain ⟨dir', -, hr⟩ := canonicalJoin_ok hdir hok
    refine ⟨hr.canonical, ?_⟩
    intro cwd' hroot
    obtain ⟨q, hq, hqd⟩ := canonicalJoin_self hroot hr
    exact ⟨q, hq, hqd.same hr⟩
  · intro other
    rw [components_of_root hcwd.absolute, List.tail_cons, hdir.length_names]
    exact canonicalJoin_fails_iff hdir other

theorem canonical_root : Canonical [sep] := by
  refine ⟨rfl, ?_⟩
  intro c hc
  cases hc

theorem canonicalJoin_resolves_root :
    canonicalJoin [sep] ([97] ++ sep :: [dot, dot]) = .ok [sep] ∧
      ∃ error, canonicalJoin [sep] [dot, dot] = .error error := by
  obtain ⟨happend, -, hfails⟩ := canonicalJoin_resolves canonical_root
  refine ⟨?_, ?_⟩
  · refine (happend [97] [dot, dot] [sep] (by decide) rfl).mpr ⟨[sep, 97], ?_, ?_⟩
    · rfl
    · rfl
  · exact (hfails [dot, dot]).mpr ⟨[.parentDir], by decide, by decide⟩

/-! ## The working directory -/

theorem cd_canonical {kernel : Kernel} {self self' : Shell} {args : List Text} (h : Canonical self.cwd)
    (hcd : self.cd kernel args = .ok self') : Canonical self'.cwd := by
  rcases args with _ | ⟨arg, _ | ⟨arg', args⟩⟩
  · cases hcd
  · unfold cd at hcd
    cases hj : canonicalJoin self.cwd arg with
    | error e => simp [hj, bind, Except.bind] at hcd
    | ok cwd =>
      obtain ⟨dir, hdir⟩ := h.denotes
      obtain ⟨dir', -, hd⟩ := canonicalJoin_ok hdir hj
      simp only [hj, bind, Except.bind] at hcd
      split at hcd
      · cases hcd
      · cases hcd
        exact hd.canonical
  · cases hcd

theorem dispatch_canonical {self : Shell} (kernel : Kernel) (command : Command) (h : Canonical self.cwd) :
    Canonical (self.dispatch kernel command).2.cwd := by
  cases hcd : self.cd kernel command.args.tail with
  | error e =>
    simp only [dispatch, hcd]
    split_ifs <;> exact h
  | ok self' =>
    have h' := cd_canonical h hcd
    simp only [dispatch, hcd]
    split_ifs <;> first | exact h | exact h'

theorem evalLine_canonical {self : Shell} (kernel : Kernel) (line : Text) (h : Canonical self.cwd) :
    Canonical (evalLine kernel self line).2.cwd := by
  unfold evalLine
  split
  · exact h
  · exact h
  · rename_i cmd _
    have hd := dispatch_canonical kernel cmd h
    split_ifs
    · exact h
    · split <;> rename_i heq <;> rw [heq] at hd <;> exact hd

theorem eval_canonical {kernel : Kernel} {self self' : Shell} {console out out' : Text} {turn : Turn}
    (h : Canonical self.cwd) (he : self.eval kernel console = (some (turn, self', out'), out)) :
    Canonical self'.cwd := by
  obtain ⟨e, -, -, rfl⟩ | ⟨stack, -, -, rfl⟩ := eval_cases he
  · exact h
  · exact evalLine_canonical kernel stack.items h

/-- The shells of a session, one after each line. -/
inductive Reaches (kernel : Kernel) (self : Shell) : Shell → Prop
  | start : Reaches kernel self self
  | turn {shell shell' : Shell} {console out out' : Text} {turn : Turn} : Reaches kernel self shell →
      shell.eval kernel console = (some (turn, shell', out'), out) → Reaches kernel self shell'

theorem reaches_canonical {kernel : Kernel} {prompt : Text} {shell : Shell}
    (h : Reaches kernel (new prompt) shell) :
    Canonical shell.cwd := by
  induction h with
  | start => exact canonical_root
  | turn _ he ih => exact eval_canonical ih he

end Shell

end Osymandias

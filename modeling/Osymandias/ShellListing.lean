import Osymandias.ShellPaths

/-!
# Listing directories

`ls` against its usage line, `ls [-a] [directory]`, and against `cd`. A directory
that is given is resolved as `cd` resolves it, unless it is absolute: then `ls`
opens it as it stands. A flag that stands alone is taken for a directory.
-/

namespace Osymandias

namespace Shell

open UnixPath

def flag : Text := bytes "-a"

/-- The usage line: the directory, if one is given, and whether hidden entries are shown. -/
def usageShape : List Text → Option (Option Text × Bool)
  | [] => some (none, false)
  | [arg] => if arg = flag then some (none, true) else some (some arg, false)
  | [arg, dir] => if arg = flag ∧ dir ≠ flag then some (some dir, true) else none
  | _ => none

/-- `ls` opens the path, whatever the file system has there. -/
def Lists (self : Shell) (args : List Text) (path : Text) (showHidden : Bool) : Prop :=
  ∀ kernel, self.ls kernel args = list kernel path showHidden

/-- `ls` opens the path that `cd` would open, and fails as `cd` does where there is none. -/
def DirAgrees (self : Shell) (args : List Text) (dir : Text) (showHidden : Bool) : Prop :=
  match canonicalJoin self.cwd dir with
  | .error error => ∀ kernel, self.ls kernel args = (.error error, [])
  | .ok resolved => ∃ path, Same path resolved ∧ Lists self args path showHidden

/-- `ls` does what its usage line says, with directories resolved as by `cd`. -/
def LsAgrees (self : Shell) (args : List Text) : Prop :=
  match usageShape args with
  | none => ∃ message, ∀ kernel, self.ls kernel args = usage message
  | some (none, showHidden) => ∃ path, Same path self.cwd ∧ Lists self args path showHidden
  | some (some dir, showHidden) => DirAgrees self args dir showHidden

/-- No flag stands in the place of the directory, and no absolute directory has a `..` in it. -/
structure PlainArgs (args : List Text) : Prop where
  not_flag : args ≠ [flag]
  not_flags : args ≠ [flag, flag]
  no_parent : ∀ dir showHidden, usageShape args = some (some dir, showHidden) → isAbsolute dir = true →
    .parentDir ∉ components dir

/-! ## What `ls` opens -/

def listDir (self : Shell) (kernel : Kernel) (dir : Text) (showHidden : Bool) : Printed Unit :=
  if isAbsolute dir then list kernel dir showHidden
  else match canonicalJoin self.cwd dir with
    | .error error => (.error error, [])
    | .ok path => list kernel path showHidden

section
variable {self : Shell} {kernel : Kernel} {dir : Text} {showHidden : Bool}

theorem listDir_absolute (h : isAbsolute dir = true) :
    listDir self kernel dir showHidden = list kernel dir showHidden :=
  if_pos h

theorem ls_one (dir : Text) : self.ls kernel [dir] = listDir self kernel dir false := rfl

theorem ls_flag (dir : Text) : self.ls kernel [flag, dir] = listDir self kernel dir true := by
  unfold ls
  simp only [flag, ne_eq, not_true, if_false]
  rfl

theorem ls_nil (h : isAbsolute self.cwd = true) : self.ls kernel [] = list kernel self.cwd false :=
  listDir_absolute h

theorem ls_other {arg : Text} (h : arg ≠ flag) :
    self.ls kernel [arg, dir] = usage "usage: ls [-a] [directory]" := by
  unfold ls
  exact if_pos h

end

def oneDirectory (path : Text) : Kernel :=
  ⟨fun p => if p = path then .ok (.ok []) else .error [], fun _ => .error [], fun ms => .ok ms⟩

theorem list_oneDirectory (path : Text) (showHidden : Bool) :
    list (oneDirectory path) path showHidden = (.ok (), []) := by
  unfold list oneDirectory
  simp

theorem list_injective {p q : Text} {a b : Bool} (h : ∀ kernel, list kernel p a = list kernel q b) : p = q := by
  by_contra hne
  have hp := h (oneDirectory p)
  rw [list_oneDirectory] at hp
  have hq : (oneDirectory p).openDir q = .error [] := if_neg fun he => hne he.symm
  unfold list at hp
  rw [hq] at hp
  cases hp

theorem list_ne_error {path : Text} {showHidden : Bool} {error : Error} {out : Text} :
    ¬ ∀ kernel, list kernel path showHidden = (.error error, out) := by
  intro h
  have hp := h (oneDirectory path)
  rw [list_oneDirectory] at hp
  cases hp

/-! ## Directories without a parent component -/

theorem mem_names {path : Text} {c : Component} (h : c ∈ names path) :
    c = .parentDir ∨ ∃ name, c = .normal name := by
  obtain ⟨comp, -, hparse⟩ := List.mem_filterMap.mp h
  unfold parseSingleComponent at hparse
  split_ifs at hparse
  · cases hparse
    exact .inl rfl
  · cases hparse
    exact .inr ⟨comp, rfl⟩

theorem canonical_of_no_parent {path : Text} (hr : isAbsolute path = true) (hp : .parentDir ∉ components path) :
    Canonical path := by
  refine ⟨hr, ?_⟩
  rw [components_of_root hr] at hp ⊢
  intro c hc
  rcases mem_names hc with rfl | hn
  · exact absurd (List.mem_cons_of_mem _ hc) hp
  · exact hn

theorem Canonical.no_parent {path : Text} (h : Canonical path) : .parentDir ∉ components path := by
  intro hp
  rw [components_of_root h.absolute] at hp
  rcases List.mem_cons.mp hp with hp | hp
  · cases hp
  · have hn := h.normal .parentDir (by rwa [components_of_root h.absolute])
    obtain ⟨name, hname⟩ := hn
    cases hname

theorem components_flag : components flag = [.normal flag] := by
  decide

theorem canonicalJoin_flag {cwd : Text} {dir : List Text} (h : Denotes cwd dir) :
    ∃ path, canonicalJoin cwd flag = .ok path ∧ Denotes path (dir ++ [flag]) := by
  have hagrees := canonicalJoin_agrees flag h
  rw [components_flag] at hagrees
  exact hagrees

/-! ## One directory argument -/

section
variable {self : Shell} {args : List Text} {dir : Text} {showHidden : Bool}

theorem dirAgrees_relative (hls : ∀ kernel, self.ls kernel args = listDir self kernel dir showHidden)
    (hrel : isAbsolute dir = false) : DirAgrees self args dir showHidden := by
  unfold DirAgrees Lists
  unfold listDir at hls
  simp only [hrel, Bool.false_eq_true, if_false] at hls
  cases hj : canonicalJoin self.cwd dir with
  | error error =>
    intro kernel
    rw [hls, hj]
  | ok resolved =>
    refine ⟨resolved, rfl, ?_⟩
    intro kernel
    rw [hls, hj]

theorem dirAgrees_absolute (hcwd : Canonical self.cwd)
    (hls : ∀ kernel, self.ls kernel args = listDir self kernel dir showHidden) (habs : isAbsolute dir = true) :
    DirAgrees self args dir showHidden ↔ .parentDir ∉ components dir := by
  have hlist : ∀ kernel, self.ls kernel args = list kernel dir showHidden := by
    intro kernel
    rw [hls, listDir_absolute habs]
  obtain ⟨cwdDir, hden⟩ := hcwd.denotes
  unfold DirAgrees Lists
  refine ⟨?_, ?_⟩
  · intro h hp
    cases hj : canonicalJoin self.cwd dir with
    | error error =>
      simp only [hj, hlist] at h
      exact list_ne_error h
    | ok resolved =>
      simp only [hj, hlist] at h
      obtain ⟨path, hsame, heq⟩ := h
      obtain rfl := list_injective heq
      obtain ⟨dir', -, hres⟩ := canonicalJoin_ok hden hj
      rw [show components dir = components resolved from hsame] at hp
      exact hres.canonical.no_parent hp
  · intro hp
    obtain ⟨dir', hdir⟩ := (canonical_of_no_parent habs hp).denotes
    obtain ⟨resolved, hj, hres⟩ := canonicalJoin_self hcwd.absolute hdir
    rw [hj]
    exact ⟨dir, hdir.same hres, hlist⟩

theorem dirAgrees_iff (hcwd : Canonical self.cwd)
    (hls : ∀ kernel, self.ls kernel args = listDir self kernel dir showHidden) :
    DirAgrees self args dir showHidden ↔ (isAbsolute dir = true → .parentDir ∉ components dir) := by
  cases habs : isAbsolute dir with
  | true => simp [dirAgrees_absolute hcwd hls habs]
  | false => simp [dirAgrees_relative hls habs]

end

/-! ## All argument lists -/

section
variable {self : Shell} (hcwd : Canonical self.cwd)
include hcwd

theorem lsAgrees_nil : LsAgrees self [] := by
  refine ⟨self.cwd, rfl, ?_⟩
  intro kernel
  exact ls_nil hcwd.absolute

theorem not_lsAgrees_flag : ¬LsAgrees self [flag] := by
  obtain ⟨dir, hden⟩ := hcwd.denotes
  obtain ⟨joined, hj, hjoined⟩ := canonicalJoin_flag hden
  have hls : ∀ kernel, self.ls kernel [flag] = list kernel joined false := by
    intro kernel
    rw [ls_one]
    unfold listDir
    rw [hj]
    rfl
  unfold LsAgrees Lists
  simp only [usageShape, if_true, hls]
  rintro ⟨path, hsame, heq⟩
  obtain rfl := list_injective heq
  have hlen := congrArg List.length (show components joined = components self.cwd from hsame)
  rw [hjoined.components_eq, hden.components_eq] at hlen
  simp at hlen

theorem not_lsAgrees_flags : ¬LsAgrees self [flag, flag] := by
  obtain ⟨dir, hden⟩ := hcwd.denotes
  obtain ⟨joined, hj, -⟩ := canonicalJoin_flag hden
  have hls : ∀ kernel, self.ls kernel [flag, flag] = list kernel joined true := by
    intro kernel
    rw [ls_flag]
    unfold listDir
    rw [hj]
    rfl
  unfold LsAgrees
  simp only [usageShape, ne_eq, not_true, and_false, if_false, hls]
  rintro ⟨message, h⟩
  exact list_ne_error h

theorem lsAgrees_dir {args : List Text} {dir : Text} {showHidden : Bool}
    (hshape : usageShape args = some (some dir, showHidden))
    (hls : ∀ kernel, self.ls kernel args = listDir self kernel dir showHidden)
    (hflag : args ≠ [flag]) (hflags : args ≠ [flag, flag]) : LsAgrees self args ↔ PlainArgs args := by
  unfold LsAgrees
  rw [hshape]
  refine (dirAgrees_iff hcwd hls).trans ⟨?_, ?_⟩
  · intro h
    refine ⟨hflag, hflags, ?_⟩
    intro dir' showHidden' hshape' habs
    rw [hshape] at hshape'
    cases hshape'
    exact h habs
  · intro h
    exact h.no_parent dir showHidden hshape

/-- **Listing.** `ls` agrees with its usage line and with `cd` exactly when no flag stands for a directory and
no absolute directory has a `..` in it. -/
theorem ls_agrees_iff (args : List Text) : LsAgrees self args ↔ PlainArgs args := by
  rcases args with _ | ⟨arg, _ | ⟨dir, _ | ⟨extra, rest⟩⟩⟩
  · refine ⟨fun _ => ⟨by simp, by simp, ?_⟩, fun _ => lsAgrees_nil hcwd⟩
    intro dir showHidden hshape
    cases hshape
  · by_cases ha : arg = flag
    · subst ha
      exact ⟨fun h => absurd h (not_lsAgrees_flag hcwd), fun h => absurd rfl h.not_flag⟩
    · have hshape : usageShape [arg] = some (some arg, false) := if_neg ha
      exact lsAgrees_dir hcwd hshape (fun _ => ls_one arg) (by simpa using ha) (by simp)
  · by_cases ha : arg = flag
    · subst ha
      by_cases hd : dir = flag
      · subst hd
        exact ⟨fun h => absurd h (not_lsAgrees_flags hcwd), fun h => absurd rfl h.not_flags⟩
      · have hshape : usageShape [flag, dir] = some (some dir, true) := if_pos ⟨rfl, hd⟩
        exact lsAgrees_dir hcwd hshape (fun _ => ls_flag dir) (by simp) (by simpa using hd)
    · have hshape : usageShape [arg, dir] = none := if_neg fun h => ha h.1
      refine ⟨fun _ => ⟨by simp, by simp [ha], ?_⟩, fun _ => ?_⟩
      · intro dir' showHidden h
        rw [hshape] at h
        cases h
      · unfold LsAgrees
        rw [hshape]
        exact ⟨_, fun _ => ls_other ha⟩
  · refine ⟨fun _ => ⟨by simp, by simp, ?_⟩, fun _ => ⟨"usage: ls [-a] [directory]", fun _ => rfl⟩⟩
    intro dir' showHidden hshape
    cases hshape

end

theorem ls_agrees_in_root : LsAgrees (new []) [flag, [97]] := by
  refine (ls_agrees_iff canonical_root [flag, [97]]).mpr ⟨by simp, by decide, ?_⟩
  intro dir showHidden hshape habs
  cases hshape
  cases habs

/-- `ls -a` lists a directory named `-a`. -/
theorem ls_disagrees : ¬ ∀ (self : Shell) (args : List Text), Canonical self.cwd → LsAgrees self args := by
  intro hall
  exact not_lsAgrees_flag canonical_root (hall (new []) [flag] canonical_root)

end Shell

end Osymandias

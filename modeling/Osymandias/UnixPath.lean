import Mathlib

/-!
# Unix paths

A path is its bytes. `std::path` reads it as a sequence of components: a root, or
a leading `.`, and then the pieces between separators, less the empty ones and
the dots. `parent`, `pop` and `push` work on the bytes.
-/

namespace UnixPath

abbrev Text := List UInt8

def sep : UInt8 := 47

def dot : UInt8 := 46

inductive Component where
  | rootDir
  | curDir
  | parentDir
  | normal (name : Text)
  deriving DecidableEq, Repr

def parseSingleComponent (comp : Text) : Option Component :=
  if comp = [dot] then none
  else if comp = [dot, dot] then some .parentDir
  else if comp = [] then none
  else some (.normal comp)

def hasRoot : Text → Bool
  | [] => false
  | b :: _ => b == sep

/-- A leading `.` counts as a component of its own. -/
def includeCurDir (path : Text) : Bool :=
  !hasRoot path &&
    match path with
    | [] => false
    | [b] => b == dot
    | b :: c :: _ => b == dot && c == sep

def start (path : Text) : List Component :=
  if hasRoot path then [.rootDir] else if includeCurDir path then [.curDir] else []

def lenBeforeBody (path : Text) : Nat := (start path).length

def body (path : Text) : Text := path.drop (lenBeforeBody path)

def pieces (text : Text) : List Text := text.splitOn sep

def components (path : Text) : List Component :=
  start path ++ (pieces (body path)).filterMap parseSingleComponent

/-! ## Editing -/

def join (ps : List Text) : Text := [sep].intercalate ps

def skipped (comp : Text) : Bool := (parseSingleComponent comp).isNone

def trimRight (ps : List Text) : List Text := ps.rdropWhile skipped

/-- What is before the last component; a root has no parent. -/
def parent (path : Text) : Option Text :=
  let ps := trimRight (pieces (body path))
  if ps = [] then
    if includeCurDir path then some [] else none
  else
    some (path.take (lenBeforeBody path) ++ join (trimRight ps.dropLast))

def pop (path : Text) : Bool × Text :=
  match parent path with
  | some p => (true, path.take p.length)
  | none => (false, path)

def isAbsolute (path : Text) : Bool := hasRoot path

def push (path other : Text) : Text :=
  let needSep := match path.getLast? with
    | some c => c != sep
    | none => false
  if isAbsolute other then other
  else if needSep then path ++ sep :: other
  else path ++ other

/-- `PathBuf` compares components, not bytes. -/
def Same (p q : Text) : Prop := components p = components q

/-! ## Pieces -/

theorem pieces_append (xs ys : Text) : pieces (xs ++ sep :: ys) = pieces xs ++ pieces ys :=
  List.splitOn_append_cons_self xs ys

@[simp] theorem pieces_nil : pieces [] = [[]] := List.splitOn_nil sep

theorem join_pieces (xs : Text) : join (pieces xs) = xs := List.intercalate_splitOn sep

theorem pieces_join {ps : List Text} (h : ∀ p ∈ ps, sep ∉ p) (hne : ps ≠ []) : pieces (join ps) = ps :=
  List.splitOn_intercalate sep h hne

theorem not_mem_of_mem_splitOn (sep : UInt8) : ∀ (xs : Text), ∀ p ∈ xs.splitOn sep, sep ∉ p := by
  intro xs
  induction xs with
  | nil => simp
  | cons b xs ih =>
    by_cases hb : b = sep
    · subst hb
      have hsplit := List.splitOn_append_cons_self (a := b) [] xs
      rw [List.nil_append] at hsplit
      rw [hsplit]
      simpa using ih
    · rw [List.splitOn_cons_eq_if_modifyHead, if_neg (by simpa using hb)]
      cases hs : List.splitOn sep xs with
      | nil => simp
      | cons q qs =>
        rw [hs] at ih
        obtain ⟨hq, hqs⟩ := List.forall_mem_cons.mp ih
        refine List.forall_mem_cons.mpr ⟨?_, hqs⟩
        simp only [List.mem_cons, not_or]
        exact ⟨fun he => hb he.symm, hq⟩

theorem sep_not_mem_pieces (xs : Text) : ∀ p ∈ pieces xs, sep ∉ p := not_mem_of_mem_splitOn sep xs

/-- The components a path has behind its root or its leading dot. -/
def names (path : Text) : List Component := (pieces path).filterMap parseSingleComponent

@[simp] theorem names_nil : names [] = [] := rfl

theorem names_append (xs ys : Text) : names (xs ++ sep :: ys) = names xs ++ names ys := by
  rw [names, pieces_append, List.filterMap_append]
  rfl

theorem names_sep (xs : Text) : names (sep :: xs) = names xs := names_append [] xs

theorem hasRoot_eq {path : Text} (h : hasRoot path = true) : ∃ t, path = sep :: t := by
  cases path with
  | nil => cases h
  | cons b t =>
    have hb : b = sep := by simpa [hasRoot] using h
    exact ⟨t, by rw [hb]⟩

theorem includeCurDir_eq {path : Text} (h : includeCurDir path = true) :
    path = [dot] ∨ ∃ t, path = dot :: sep :: t := by
  have h2 := (Bool.and_eq_true_iff.mp h).2
  rcases path with _ | ⟨b, _ | ⟨c, t⟩⟩
  · cases h2
  · have hb : b = dot := by simpa using h2
    exact .inl (by rw [hb])
  · have hbc : b = dot ∧ c = sep := by simpa using h2
    exact .inr ⟨t, by rw [hbc.1, hbc.2]⟩

theorem start_of_root {path : Text} (h : hasRoot path = true) : start path = [.rootDir] := if_pos h

theorem names_body (path : Text) : names (body path) = names path := by
  unfold body lenBeforeBody start
  by_cases hr : hasRoot path = true
  · obtain ⟨t, rfl⟩ := hasRoot_eq hr
    rw [if_pos hr, names_sep]
    rfl
  · rw [if_neg hr]
    by_cases hc : includeCurDir path = true
    · rw [if_pos hc]
      rcases includeCurDir_eq hc with rfl | ⟨t, rfl⟩
      · rfl
      · have h1 := names_append [dot] t
        have h2 := names_sep t
        simp only [List.length_singleton, List.drop_one, List.tail_cons]
        rw [h2]
        exact h1.symm
    · rw [if_neg hc]
      rfl

theorem components_eq (path : Text) : components path = start path ++ names path := by
  rw [← names_body]
  rfl

theorem components_of_root {path : Text} (h : hasRoot path = true) : components path = .rootDir :: names path := by
  rw [components_eq, start_of_root h]
  rfl

/-! ## Parents -/

theorem filterMap_trimRight (ps : List Text) :
    (trimRight ps).filterMap parseSingleComponent = ps.filterMap parseSingleComponent := by
  unfold trimRight
  induction ps using List.reverseRecOn with
  | nil => rfl
  | append_singleton ps p ih =>
    by_cases hp : skipped p = true
    · have hnone : parseSingleComponent p = none := by simpa [skipped] using hp
      rw [List.rdropWhile_concat_pos _ _ _ hp, ih, List.filterMap_append]
      simp [hnone]
    · rw [List.rdropWhile_concat_neg _ _ _ hp]

theorem names_join {ps : List Text} (h : ∀ p ∈ ps, sep ∉ p) :
    names (join ps) = ps.filterMap parseSingleComponent := by
  cases ps with
  | nil => rfl
  | cons p ps => rw [names, pieces_join h (List.cons_ne_nil p ps)]

theorem join_append {ps qs : List Text} (hp : ps ≠ []) (hq : qs ≠ []) :
    join (ps ++ qs) = join ps ++ sep :: join qs := by
  induction ps with
  | nil => exact absurd rfl hp
  | cons p ps ih =>
    cases ps with
    | nil =>
      obtain ⟨q, qs, rfl⟩ := List.exists_cons_of_ne_nil hq
      simp [join, List.intercalate]
    | cons p' ps =>
      have h := ih (List.cons_ne_nil p' ps)
      simp only [join, List.intercalate] at h ⊢
      simpa using h

theorem join_isPrefix {ps qs : List Text} (h : ps <+: qs) : join ps <+: join qs := by
  obtain ⟨rs, rfl⟩ := h
  by_cases hp : ps = []
  · subst hp
    exact List.nil_prefix
  · by_cases hr : rs = []
    · subst hr
      rw [List.append_nil]
    · rw [join_append hp hr]
      exact List.prefix_append _ _

theorem sep_not_mem_trimRight (path : Text) : ∀ p ∈ trimRight (pieces (body path)), sep ∉ p := by
  intro p hp
  exact sep_not_mem_pieces _ p ((List.rdropWhile_prefix _ _).subset hp)

section
variable {path q : Text}

theorem take_append_body (path : Text) : path.take (lenBeforeBody path) ++ body path = path :=
  List.take_append_drop ..

theorem trimRight_concat {ps qs : List Text} {p : Text} (h : trimRight qs = ps ++ [p]) :
    ∃ c, parseSingleComponent p = some c := by
  have hne : trimRight qs ≠ [] := by simp [h]
  have hlast : skipped p = false := by
    have := List.rdropWhile_last_not _ _ hne
    simpa [show List.rdropWhile skipped qs = ps ++ [p] from h] using this
  cases hp : parseSingleComponent p with
  | none => simp [skipped, hp] at hlast
  | some c => exact ⟨c, rfl⟩

theorem ne_nil_of_parse {p : Text} {c : Component} (h : parseSingleComponent p = some c) : p ≠ [] := by
  rintro rfl
  cases h

theorem parent_cases (h : parent path = some q) :
    (includeCurDir path = true ∧ q = []) ∨
    ∃ ps p, trimRight (pieces (body path)) = ps ++ [p] ∧
      q = path.take (lenBeforeBody path) ++ join (trimRight ps) := by
  unfold parent at h
  by_cases hps : trimRight (pieces (body path)) = []
  · simp only [hps, if_true] at h
    by_cases hc : includeCurDir path = true
    · simp only [hc, if_true, Option.some.injEq] at h
      exact .inl ⟨hc, h.symm⟩
    · simp only [hc] at h
      cases h
  · simp only [hps, if_false, Option.some.injEq] at h
    obtain ⟨ps, p, hpp⟩ := (List.eq_nil_or_concat (trimRight (pieces (body path)))).resolve_left hps
    rw [List.concat_eq_append] at hpp
    rw [hpp, List.dropLast_concat] at h
    exact .inr ⟨ps, p, hpp, h.symm⟩

theorem join_trimRight_isPrefix (qs : List Text) : join (trimRight qs) <+: join qs :=
  join_isPrefix (List.rdropWhile_prefix _ _)

theorem join_lt_concat (ps : List Text) {p : Text} (hp : p ≠ []) :
    (join ps).length < (join (ps ++ [p])).length := by
  by_cases hnil : ps = []
  · subst hnil
    simpa [join, List.intercalate] using List.length_pos_iff.mpr hp
  · rw [join_append hnil (List.cons_ne_nil p [])]
    simp

theorem parent_isPrefix (h : parent path = some q) : q <+: path ∧ q.length < path.length := by
  rcases parent_cases h with ⟨hc, rfl⟩ | ⟨ps, p, hpp, rfl⟩
  · rcases includeCurDir_eq hc with rfl | ⟨t, rfl⟩ <;> exact ⟨List.nil_prefix, Nat.succ_pos _⟩
  · obtain ⟨c, hc⟩ := trimRight_concat hpp
    have hbody : join (ps ++ [p]) <+: body path := by
      have hjoin := join_trimRight_isPrefix (pieces (body path))
      rwa [join_pieces, hpp] at hjoin
    have htrim := join_trimRight_isPrefix ps
    obtain ⟨t, ht⟩ := htrim.trans ((join_isPrefix (List.prefix_append ps [p])).trans hbody)
    refine ⟨⟨t, ?_⟩, ?_⟩
    · rw [List.append_assoc, ht, take_append_body]
    · have h1 := congrArg List.length (take_append_body path)
      have h2 := htrim.length_le
      have h3 := hbody.length_le
      have h4 := join_lt_concat ps (ne_nil_of_parse hc)
      simp only [List.length_append] at h1 ⊢
      omega

/-- Parents. The parent of an absolute path is absolute and lacks its last name. -/
theorem parent_root (hr : hasRoot path = true) (h : parent path = some q) :
    hasRoot q = true ∧ names q = (names path).dropLast := by
  obtain ⟨t, rfl⟩ := hasRoot_eq hr
  rcases parent_cases h with ⟨hc, -⟩ | ⟨ps, p, hpp, rfl⟩
  · simp [includeCurDir, hr] at hc
  · have hlb : lenBeforeBody (sep :: t) = 1 := by simp [lenBeforeBody, start_of_root hr]
    have hsep : ∀ r ∈ trimRight ps, sep ∉ r := by
      intro r hr
      have hmem := (List.rdropWhile_prefix _ _).subset hr
      exact sep_not_mem_trimRight (sep :: t) r (by rw [hpp]; simp [hmem])
    obtain ⟨c, hc⟩ := trimRight_concat hpp
    have hnames : names (sep :: t) = ps.filterMap parseSingleComponent ++ [c] := by
      rw [← names_body, names, ← filterMap_trimRight, hpp, List.filterMap_append]
      simp [hc]
    rw [hlb, hnames, List.dropLast_concat]
    refine ⟨rfl, ?_⟩
    rw [List.take_succ_cons, List.take_zero, List.singleton_append, names_sep, names_join hsep, filterMap_trimRight]

theorem parent_none_iff (hr : hasRoot path = true) : parent path = none ↔ names path = [] := by
  have hc : includeCurDir path = false := by simp [includeCurDir, hr]
  unfold parent
  by_cases hps : trimRight (pieces (body path)) = []
  · have : names path = [] := by
      rw [← names_body, names, ← filterMap_trimRight, hps]
      rfl
    simp [hps, hc, this]
  · have hlast := List.rdropWhile_last_not _ _ hps
    have : names path ≠ [] := by
      intro hn
      rw [← names_body, names, ← filterMap_trimRight, List.filterMap_eq_nil_iff] at hn
      have := hn _ (List.getLast_mem hps)
      exact hlast (by simp [skipped, trimRight] at this ⊢; exact this)
    simp [hps, this]

theorem pop_eq (h : parent path = some q) : pop path = (true, q) := by
  have hp := (List.prefix_iff_eq_take.mp (parent_isPrefix h).1).symm
  simp only [pop, h, hp]

theorem pop_none (h : parent path = none) : pop path = (false, path) := by
  simp only [pop, h]

theorem pop_length_lt (h : (pop path).1 = true) : (pop path).2.length < path.length := by
  cases hp : parent path with
  | none =>
    rw [pop_none hp] at h
    cases h
  | some q =>
    rw [pop_eq hp]
    exact (parent_isPrefix hp).2

end

/-! ## Pushing and popping names -/

section
variable {path name : Text}

theorem hasRoot_of_not_mem (hs : sep ∉ name) : hasRoot name = false := by
  cases name with
  | nil => rfl
  | cons b t =>
    simp only [List.mem_cons, not_or] at hs
    simpa [hasRoot] using fun he => hs.1 he.symm

theorem names_push (hn : parseSingleComponent name = some (.normal name)) (hs : sep ∉ name) :
    names (push path name) = names path ++ [.normal name] := by
  have hroot := hasRoot_of_not_mem hs
  have hname : names name = [.normal name] := by
    rw [names, pieces, List.splitOn_eq_singleton hs]
    simp [hn]
  unfold push isAbsolute
  rcases List.eq_nil_or_concat path with rfl | ⟨xs, c, rfl⟩
  · simpa [hroot] using hname
  · rw [List.concat_eq_append]
    by_cases hc : c = sep
    · subst hc
      have h1 := names_append xs name
      have h2 := names_append xs []
      simp only [names_nil, List.append_nil] at h2
      simp only [hroot, List.getLast?_append, List.getLast?_singleton, Option.some_or, bne_self_eq_false,
        Bool.false_eq_true, if_false, List.append_assoc, List.singleton_append]
      rw [h1, h2, hname]
    · have h1 := names_append (xs ++ [c]) name
      simp only [hroot, List.getLast?_append, List.getLast?_singleton, Option.some_or, bne_iff_ne, ne_eq, hc,
        not_false_eq_true, Bool.false_eq_true, if_false, if_true]
      rw [h1, hname]

theorem hasRoot_push (hr : hasRoot path = true) (hs : sep ∉ name) : hasRoot (push path name) = true := by
  obtain ⟨t, rfl⟩ := hasRoot_eq hr
  unfold push isAbsolute
  simp only [hasRoot_of_not_mem hs, Bool.false_eq_true, if_false]
  split
  · split <;> exact hr
  · split <;> exact hr

theorem parse_normal {comp : Text} (h : parseSingleComponent comp = some (.normal name)) : comp = name := by
  unfold parseSingleComponent at h
  split_ifs at h
  · cases h
  · simpa using h

theorem normal_mem (h : .normal name ∈ components path) :
    parseSingleComponent name = some (.normal name) ∧ sep ∉ name := by
  rw [components_eq, List.mem_append] at h
  rcases h with h | h
  · unfold start at h
    split_ifs at h <;> simp at h
  · obtain ⟨comp, hmem, hparse⟩ := List.mem_filterMap.mp h
    obtain rfl := parse_normal hparse
    exact ⟨hparse, sep_not_mem_pieces path _ hmem⟩

/-! ## Paths in a row -/

theorem start_append {a : Text} (ha : a ≠ []) (b : Text) : start (a ++ sep :: b) = start a := by
  obtain ⟨x, t, rfl⟩ := List.exists_cons_of_ne_nil ha
  have hr : hasRoot (x :: t ++ sep :: b) = hasRoot (x :: t) := rfl
  have hc : includeCurDir (x :: t ++ sep :: b) = includeCurDir (x :: t) := by
    cases t with
    | nil => simp [includeCurDir, hasRoot]
    | cons y t => rfl
  unfold start
  rw [hr, hc]

theorem components_append {a : Text} (ha : a ≠ []) (b : Text) :
    components (a ++ sep :: b) = components a ++ names b := by
  rw [components_eq, components_eq, start_append ha, names_append, List.append_assoc]

theorem start_of_relative {b : Text} (hb : hasRoot b = false) : start b = [] ∨ start b = [.curDir] := by
  unfold start
  rw [hb]
  by_cases hc : includeCurDir b = true
  · exact .inr (by simp [hc])
  · exact .inl (by simp [hc])

end

/-! ## Lexical resolution

A directory is the names that lead to it from the root. -/

def resolveStep (dir : List Text) : Component → Option (List Text)
  | .rootDir => some []
  | .curDir => some dir
  | .parentDir => if dir = [] then none else some dir.dropLast
  | .normal name => some (dir ++ [name])

def resolve (dir : List Text) (cs : List Component) : Option (List Text) := cs.foldlM resolveStep dir

/-- The depth below the root; above it the depth is negative. -/
def depth : Int → List Component → Int
  | n, [] => n
  | _, .rootDir :: cs => depth 0 cs
  | n, .curDir :: cs => depth n cs
  | n, .parentDir :: cs => depth (n - 1) cs
  | n, .normal _ :: cs => depth (n + 1) cs

def Climbs (n : Int) (cs : List Component) : Prop := ∃ pre, pre <+: cs ∧ depth n pre < 0

theorem climbs_cons {n m : Int} {c : Component} {cs : List Component} (hn : 0 ≤ n)
    (hstep : ∀ pre, depth n (c :: pre) = depth m pre) : Climbs n (c :: cs) ↔ Climbs m cs := by
  unfold Climbs
  refine ⟨?_, ?_⟩
  · rintro ⟨pre, hpre, hlt⟩
    cases pre with
    | nil => exact absurd hlt (not_lt.mpr hn)
    | cons d pre =>
      obtain ⟨rfl, htail⟩ := List.cons_prefix_cons.mp hpre
      exact ⟨pre, htail, by rwa [← hstep]⟩
  · rintro ⟨pre, hpre, hlt⟩
    exact ⟨c :: pre, List.cons_prefix_cons.mpr ⟨rfl, hpre⟩, by rwa [hstep]⟩

/-- Above the root. Resolution fails when some beginning of the components leads above the root, and only then. -/
theorem resolve_none_iff (dir : List Text) (cs : List Component) :
    resolve dir cs = none ↔ Climbs dir.length cs := by
  induction cs generalizing dir with
  | nil =>
    refine ⟨fun h => (by cases h), ?_⟩
    rintro ⟨pre, hpre, hlt⟩
    rw [List.prefix_nil.mp hpre] at hlt
    exact absurd hlt (not_lt.mpr (Int.natCast_nonneg _))
  | cons c cs ih =>
    have hn : (0 : Int) ≤ dir.length := Int.natCast_nonneg _
    unfold resolve at ih ⊢
    rw [List.foldlM_cons]
    cases c with
    | rootDir => exact (ih []).trans (climbs_cons hn fun _ => rfl).symm
    | curDir => exact (ih dir).trans (climbs_cons hn fun _ => rfl).symm
    | normal name =>
      refine (ih (dir ++ [name])).trans ?_
      rw [climbs_cons hn fun _ => rfl]
      simp
    | parentDir =>
      by_cases hd : dir = []
      · subst hd
        refine ⟨fun _ => ⟨[.parentDir], ?_, ?_⟩, fun _ => rfl⟩
        · exact List.cons_prefix_cons.mpr ⟨rfl, List.nil_prefix⟩
        · simp [depth]
      · have hpos : 0 < dir.length := List.length_pos_iff.mpr hd
        simp only [resolveStep, if_neg hd]
        refine (ih dir.dropLast).trans ?_
        rw [climbs_cons hn fun _ => rfl, List.length_dropLast]
        rw [Int.natCast_sub hpos]
        rfl

theorem resolve_normals (dir names : List Text) :
    resolve dir (names.map .normal) = some (dir ++ names) := by
  unfold resolve
  induction names generalizing dir with
  | nil => simp
  | cons name names ih =>
    rw [List.map_cons, List.foldlM_cons]
    refine (ih (dir ++ [name])).trans ?_
    simp

end UnixPath

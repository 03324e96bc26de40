import Osymandias.Shell

/-!
# Commands

`Command::parse` reads a line as words between spaces. It inverts writing the
words down, however many spaces stand between them.
-/

namespace Osymandias

namespace Shell

open UnixPath

def space : UInt8 := 32

structure Word (w : Text) : Prop where
  ne_nil : w ≠ []
  no_space : space ∉ w

/-- Words with some spaces behind each, after `lead` spaces. -/
def spaced (lead : Nat) (ws : List (Text × Nat)) : Text :=
  List.replicate lead space ++ (ws.map fun w => w.1 ++ List.replicate w.2 space).flatten

/-! ## Words of a line -/

theorem words_nil : words [] = [] := by
  decide

theorem words_append (xs ys : Text) : words (xs ++ space :: ys) = words xs ++ words ys := by
  unfold words
  rw [show (32 : UInt8) = space from rfl, List.splitOn_append_cons_self, List.filter_append]

theorem words_replicate (n : Nat) (ys : Text) : words (List.replicate n space ++ ys) = words ys := by
  induction n with
  | zero => rfl
  | succ n ih =>
    have h := words_append [] (List.replicate n space ++ ys)
    rw [words_nil, ih] at h
    exact h

theorem Word.words_eq {w : Text} (h : Word w) : words w = [w] := by
  unfold words
  rw [show (32 : UInt8) = space from rfl, List.splitOn_eq_singleton h.no_space]
  simp [h.ne_nil]

theorem Word.words_append {w : Text} (h : Word w) {n : Nat} {ys : Text} (hn : 0 < n ∨ ys = []) :
    words (w ++ List.replicate n space ++ ys) = w :: words ys := by
  cases n with
  | zero =>
    have hys : ys = [] := hn.resolve_left (Nat.lt_irrefl 0)
    subst hys
    simpa [words_nil] using h.words_eq
  | succ n =>
    rw [List.append_assoc, List.replicate_succ, List.cons_append, Shell.words_append, h.words_eq, words_replicate]
    rfl

theorem words_flatten : ∀ (ws : List (Text × Nat)), (∀ w ∈ ws, Word w.1) → (∀ w ∈ ws.dropLast, 0 < w.2) →
    words (ws.map fun w => w.1 ++ List.replicate w.2 space).flatten = ws.map Prod.fst
  | [], _, _ => words_nil
  | [w], hword, _ => by
    have hw := hword w List.mem_cons_self
    have h := hw.words_append (n := w.2) (.inr rfl)
    rw [words_nil] at h
    exact h
  | w :: w' :: ws, hword, hgap => by
    obtain ⟨hw, hrest⟩ := List.forall_mem_cons.mp hword
    obtain ⟨hpos, hgaps⟩ := List.forall_mem_cons.mp hgap
    rw [List.map_cons, List.flatten_cons, hw.words_append (.inl hpos), words_flatten (w' :: ws) hrest hgaps]
    rfl

theorem words_spaced {ws : List (Text × Nat)} (lead : Nat) (hword : ∀ w ∈ ws, Word w.1)
    (hgap : ∀ w ∈ ws.dropLast, 0 < w.2) : words (spaced lead ws) = ws.map Prod.fst := by
  unfold spaced
  rw [words_replicate, words_flatten ws hword hgap]

theorem word_of_mem_words {s w : Text} (h : w ∈ words s) : Word w := by
  obtain ⟨hmem, hne⟩ := List.mem_filter.mp h
  exact ⟨by simpa using hne, not_mem_of_mem_splitOn 32 s w hmem⟩

theorem words_intercalate {ws : List Text} (h : ∀ w ∈ ws, Word w) : words ([space].intercalate ws) = ws := by
  by_cases hnil : ws = []
  · subst hnil
    exact words_nil
  · unfold words
    rw [show (32 : UInt8) = space from rfl, List.splitOn_intercalate space (fun w hw => (h w hw).no_space) hnil]
    refine List.filter_eq_self.mpr ?_
    intro w hw
    simpa using (h w hw).ne_nil

/-! ## Parsing -/

theorem parseLoop_eq {cap : Nat} : ∀ (ws : List Text) (args : StackVec Text cap),
    (∃ args', parseLoop ws args = .ok args' ∧ args'.items = args.items ++ ws ∧
      args.items.length + ws.length ≤ cap) ∨
      (parseLoop ws args = .error .tooManyArgs ∧ cap < args.items.length + ws.length)
  | [], args => .inl ⟨args, rfl, (List.append_nil _).symm, args.length_le⟩
  | w :: ws, args => by
    unfold parseLoop StackVec.push
    by_cases h : args.items.length < cap
    · rw [dif_pos h]
      have ih := parseLoop_eq ws (⟨args.items ++ [w], by simpa using h⟩ : StackVec Text cap)
      simpa [Nat.add_assoc, Nat.add_comm 1] using ih
    · rw [dif_neg h]
      refine .inr ⟨rfl, ?_⟩
      rw [List.length_cons]
      omega

theorem parse_eq (cap : Nat) (s : Text) :
    Command.parse cap s =
      if cap < (words s).length then .error .tooManyArgs
      else if h : words s = [] then .error .empty else .ok ⟨words s, h⟩ := by
  unfold Command.parse
  rcases parseLoop_eq (words s) (.new : StackVec Text cap) with ⟨args, hok, hitems, hle⟩ | ⟨herr, hlt⟩
  · have hargs : args.items = words s := by simpa [StackVec.new] using hitems
    have hle' : ¬cap < (words s).length := by simpa [StackVec.new] using hle
    rw [if_neg hle', hok]
    simp only [bind, Except.bind, hargs]
    rfl
  · have hlt' : cap < (words s).length := by simpa [StackVec.new] using hlt
    rw [if_pos hlt', herr]
    rfl

theorem parse_ok {cap : Nat} {s : Text} {cmd : Command} (h : Command.parse cap s = .ok cmd) :
    cmd.args = words s ∧ (words s).length ≤ cap := by
  rw [parse_eq] at h
  split_ifs at h with hlt hnil
  cases h
  exact ⟨rfl, not_lt.mp hlt⟩

/-- **Parsing inverts joining.** Words written down with any spaces are read back, if they fit, and a command
is read back from its arguments joined by single spaces. -/
theorem parse_inverts_join (k : Nat) :
    (∀ (lead : Nat) (ws : List (Text × Nat)), (∀ w ∈ ws, Word w.1) → (∀ w ∈ ws.dropLast, 0 < w.2) →
      (1 ≤ ws.length → ws.length ≤ k →
        ∃ cmd, Command.parse k (spaced lead ws) = .ok cmd ∧ cmd.args = ws.map Prod.fst) ∧
      (k < ws.length → Command.parse k (spaced lead ws) = .error .tooManyArgs) ∧
      (ws = [] → Command.parse k (spaced lead ws) = .error .empty)) ∧
    ∀ (s : Text) (cmd : Command), Command.parse k s = .ok cmd →
      Command.parse k ((bytes " ").intercalate cmd.args) = .ok cmd := by
  refine ⟨?_, ?_⟩
  · intro lead ws hword hgap
    have hwords := words_spaced lead hword hgap
    have hlen : (words (spaced lead ws)).length = ws.length := by rw [hwords, List.length_map]
    rw [parse_eq, hlen]
    refine ⟨?_, ?_, ?_⟩
    · intro hpos hle
      have hnil : words (spaced lead ws) ≠ [] := List.length_pos_iff.mp (hlen ▸ hpos)
      rw [if_neg (not_lt.mpr hle), dif_neg hnil]
      exact ⟨_, rfl, hwords⟩
    · intro hlt
      rw [if_pos hlt]
    · intro hnil
      subst hnil
      have hempty : words (spaced lead []) = [] := hwords
      simp [hempty]
  · intro s cmd hok
    obtain ⟨hargs, hle⟩ := parse_ok hok
    have hjoin : words ((bytes " ").intercalate cmd.args) = cmd.args := by
      apply words_intercalate
      intro w hw
      rw [hargs] at hw
      exact word_of_mem_words hw
    rw [parse_eq, dif_neg (by rw [hjoin]; exact cmd.args_ne), if_neg (by rw [hjoin, hargs]; exact not_lt.mpr hle)]
    congr

theorem parse_two_words : ∃ cmd, Command.parse 2 (spaced 1 [([97], 2), ([98], 1)]) = .ok cmd ∧
    cmd.args = [[97], [98]] := by
  refine ((parse_inverts_join 2).1 1 [([97], 2), ([98], 1)] ?_ (by simp)).1 (by decide) (by decide)
  intro w hw
  rcases List.mem_cons.mp hw with rfl | hw
  · exact ⟨by simp, by decide⟩
  · rw [List.mem_singleton.mp hw]
    exact ⟨by simp, by decide⟩

end Shell

end Osymandias

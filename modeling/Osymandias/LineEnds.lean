import Mathlib.Data.List.Basic

/-!
# Ends of lines

A text ends its lines with `\n`, a terminal with `\r\n`.
-/

namespace LineEnds

/-- `\r` before every `\n` -/
def crlf (text : List UInt8) : List UInt8 := text.flatMap fun b => if b = 10 then [13, 10] else [b]

/-- What a terminal that takes `\r\n` for the end of a line makes of the bytes. -/
def lf : List UInt8 → List UInt8
  | [] => []
  | [b] => [b]
  | b :: c :: bytes => if b = 13 ∧ c = 10 then 10 :: lf bytes else b :: lf (c :: bytes)

theorem crlf_cons (b : UInt8) (text : List UInt8) :
    crlf (b :: text) = if b = 10 then 13 :: 10 :: crlf text else b :: crlf text := by
  by_cases hb : b = 10 <;> simp [crlf, hb]

theorem crlf_append (text text' : List UInt8) : crlf (text ++ text') = crlf text ++ crlf text' :=
  List.flatMap_append

theorem crlf_head (text : List UInt8) : (crlf text).head? ≠ some 10 := by
  cases text with
  | nil => simp [crlf]
  | cons b text =>
    rw [crlf_cons]
    by_cases hb : b = 10
    · simp [hb]
    · simp [hb]

theorem lf_cons {b : UInt8} : ∀ {bytes : List UInt8}, bytes.head? ≠ some 10 → lf (b :: bytes) = b :: lf bytes
  | [], _ => rfl
  | c :: bytes, h => by
    have hc : c ≠ 10 := by simpa using h
    rw [lf, if_neg fun h => hc h.2]

theorem lf_crlf : ∀ text : List UInt8, lf (crlf text) = text
  | [] => rfl
  | b :: text => by
    rw [crlf_cons]
    by_cases hb : b = 10
    · rw [if_pos hb, lf, if_pos ⟨rfl, rfl⟩, lf_crlf text, hb]
    · rw [if_neg hb, lf_cons (crlf_head text), lf_crlf text]

end LineEnds

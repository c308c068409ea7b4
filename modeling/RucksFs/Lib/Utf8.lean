import RucksFs.Lib.Bytes

/-!
# UTF-8 in byte strings

A byte string is cut from left to right into characters and maximal ill-formed parts: a part ends before the
first byte that no character could continue with.

* `Utf8.chunks` — the pieces; `Utf8.chunks_bytes` puts them together again.
* `Utf8.valid` — there are only characters; `Utf8.errorText` names the first other part.
* `Utf8.lossy` — every ill-formed part becomes U+FFFD; `Utf8.lossy_of_valid` leaves well-formed text alone.
-/

set_option autoImplicit false

namespace Utf8

/-- `10xxxxxx`. -/
def isTail (b : Fin 256) : Bool := decide (0x80 ≤ b.val ∧ b.val ≤ 0xBF)

/-- The second byte of a character of two or more bytes: overlong forms, surrogates and numbers above U+10FFFF
have none. -/
def isSecond (a b : Fin 256) : Bool :=
  if 0xC2 ≤ a.val ∧ a.val ≤ 0xDF then isTail b
  else if a.val = 0xE0 then decide (0xA0 ≤ b.val ∧ b.val ≤ 0xBF)
  else if 0xE1 ≤ a.val ∧ a.val ≤ 0xEC then isTail b
  else if a.val = 0xED then decide (0x80 ≤ b.val ∧ b.val ≤ 0x9F)
  else if 0xEE ≤ a.val ∧ a.val ≤ 0xEF then isTail b
  else if a.val = 0xF0 then decide (0x90 ≤ b.val ∧ b.val ≤ 0xBF)
  else if 0xF1 ≤ a.val ∧ a.val ≤ 0xF3 then isTail b
  else if a.val = 0xF4 then decide (0x80 ≤ b.val ∧ b.val ≤ 0x8F)
  else false

/-- A character, or a maximal part of none. -/
structure Chunk where
  isChar : Bool
  bytes : List (Fin 256)
  deriving DecidableEq

def chunks : List (Fin 256) → List Chunk
  | [] => []
  | a :: as =>
      if a.val < 0x80 then ⟨true, [a]⟩ :: chunks as
      else match as with
        | [] => [⟨false, [a]⟩]
        | b :: bs =>
            if !isSecond a b then ⟨false, [a]⟩ :: chunks (b :: bs)
            else if a.val < 0xE0 then ⟨true, [a, b]⟩ :: chunks bs
            else match bs with
              | [] => [⟨false, [a, b]⟩]
              | c :: cs =>
                  if !isTail c then ⟨false, [a, b]⟩ :: chunks (c :: cs)
                  else if a.val < 0xF0 then ⟨true, [a, b, c]⟩ :: chunks cs
                  else match cs with
                    | [] => [⟨false, [a, b, c]⟩]
                    | d :: ds =>
                        if !isTail d then ⟨false, [a, b, c]⟩ :: chunks (d :: ds)
                        else ⟨true, [a, b, c, d]⟩ :: chunks ds

/-- Nothing is lost by cutting. -/
theorem chunks_bytes (s : List (Fin 256)) : (chunks s).flatMap Chunk.bytes = s := by
  fun_induction chunks s <;> simp_all

/-- Well-formed UTF-8. -/
def valid (s : List (Fin 256)) : Bool := (chunks s).all Chunk.isChar

/-- The end of the text came in the middle of a character. -/
def Chunk.truncated : Chunk → Bool
  | ⟨_, [a]⟩ => decide (0xC2 ≤ a.val ∧ a.val ≤ 0xF4)
  | _ => true

/-- What a decoder says about the first ill-formed part. -/
def errorText (s : List (Fin 256)) : String :=
  let index := (((chunks s).takeWhile Chunk.isChar).flatMap Chunk.bytes).length
  match (chunks s).dropWhile Chunk.isChar with
  | [] => ""
  | c :: rest =>
      if rest.isEmpty && c.truncated then "incomplete utf-8 byte sequence from index " ++ toString index
      else "invalid utf-8 sequence of " ++ toString c.bytes.length ++ " bytes from index " ++ toString index

/-- The bytes of U+FFFD. -/
def replacement : List (Fin 256) := [0xEF, 0xBF, 0xBD]

def Chunk.shown (c : Chunk) : List (Fin 256) := if c.isChar then c.bytes else replacement

/-- Every maximal ill-formed part becomes U+FFFD. -/
def lossy (s : List (Fin 256)) : List (Fin 256) := (chunks s).flatMap Chunk.shown

/-- Well-formed text is left alone. -/
theorem lossy_of_valid {s : List (Fin 256)} (h : valid s = true) : lossy s = s := by
  have hshown : ∀ c ∈ chunks s, c.shown = c.bytes := by
    intro c hc
    unfold Chunk.shown
    rw [if_pos (List.all_eq_true.1 h c hc)]
  have hsame : (chunks s).flatMap Chunk.shown = (chunks s).flatMap Chunk.bytes := by
    rw [List.flatMap_def, List.flatMap_def, List.map_congr_left hshown]
  exact hsame.trans (chunks_bytes s)

end Utf8

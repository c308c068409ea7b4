import Mathlib.Algebra.Order.Ring.Int
import Mathlib.Data.List.Forall2
import Mathlib.Data.List.Lex
import Mathlib.Data.Fin.Basic
import Mathlib.Order.Fin.Basic

/-!
# Big-endian numbers

* `beBytes w n` — the low `w` bytes of `n`, the most significant one first; `beValue` reads bytes back.
* `beBytes_lt_iff` — byte order is numeric order; `beBytes_inj`.
* `beBytes_beValue` — every string of bytes is the encoding of the number it is read as.
* `encodeFields`, `decodeFields` — records of numbers of given widths: what was written is read back, whatever follows
  it (`FieldsFit.decode_encode`), and what was read is written back (`encode_decodeFields`).
* `append_lt_append_iff` — strings with heads of one length are ordered by their heads first.
-/

set_option autoImplicit false

/-- Bytes have numerals. -/
instance neZero_byteCard : NeZero 256 := ⟨by decide⟩

namespace Bytes

def beBytes : Nat → Nat → List (Fin 256)
  | 0, _ => []
  | w + 1, n => Fin.ofNat 256 (n / 256 ^ w) :: beBytes w n

def beValue : List (Fin 256) → Nat
  | [] => 0
  | b :: bs => b.val * 256 ^ bs.length + beValue bs

@[simp] theorem length_beBytes (w n : Nat) : (beBytes w n).length = w := by
  induction w with
  | zero => rfl
  | succ w ih => simp [beBytes, ih]

theorem beValue_beBytes (w n : Nat) : beValue (beBytes w n) = n % 256 ^ w := by
  induction w with
  | zero => simp [beBytes, beValue, Nat.mod_one]
  | succ w ih =>
      rw [Nat.mod_pow_succ, beBytes, beValue, ih, length_beBytes]
      simp only [Fin.val_ofNat]
      rw [Nat.mul_comm, Nat.add_comm]

/-- What fits is read back. -/
theorem beValue_of_lt {w n : Nat} (h : n < 256 ^ w) : beValue (beBytes w n) = n := by
  rw [beValue_beBytes, Nat.mod_eq_of_lt h]

/-- The bytes of `w + 1` digits: the first one, then the rest. -/
theorem mod_lt_mod_iff {w m n : Nat} : m % 256 ^ (w + 1) < n % 256 ^ (w + 1) ↔
    m / 256 ^ w % 256 < n / 256 ^ w % 256 ∨
      m / 256 ^ w % 256 = n / 256 ^ w % 256 ∧ m % 256 ^ w < n % 256 ^ w := by
  rw [Nat.mod_pow_succ, Nat.mod_pow_succ]
  have hm : m % 256 ^ w < 256 ^ w := Nat.mod_lt _ (Nat.pow_pos (by decide))
  have hn : n % 256 ^ w < 256 ^ w := Nat.mod_lt _ (Nat.pow_pos (by decide))
  generalize m / 256 ^ w % 256 = a
  generalize n / 256 ^ w % 256 = b
  generalize m % 256 ^ w = x at hm ⊢
  generalize n % 256 ^ w = y at hn ⊢
  generalize 256 ^ w = B at hm hn ⊢
  constructor
  · intro h
    rcases Nat.lt_trichotomy a b with hlt | rfl | hgt
    · exact Or.inl hlt
    · exact Or.inr ⟨rfl, by omega⟩
    · have hle : B * (b + 1) ≤ B * a := Nat.mul_le_mul_left B hgt
      rw [Nat.mul_succ] at hle
      omega
  · rintro (hlt | ⟨rfl, hlt⟩)
    · have hle : B * (a + 1) ≤ B * b := Nat.mul_le_mul_left B hlt
      rw [Nat.mul_succ] at hle
      omega
    · omega

/-- **Byte order is numeric order.** -/
theorem beBytes_lt_iff_mod (w m n : Nat) : beBytes w m < beBytes w n ↔ m % 256 ^ w < n % 256 ^ w := by
  induction w with
  | zero => simp [beBytes, Nat.mod_one]
  | succ w ih =>
      rw [beBytes, beBytes, List.cons_lt_cons_iff, ih, mod_lt_mod_iff]
      simp only [Fin.lt_def, Fin.ext_iff, Fin.val_ofNat]

theorem beBytes_lt_iff {w m n : Nat} (hm : m < 256 ^ w) (hn : n < 256 ^ w) : beBytes w m < beBytes w n ↔ m < n := by
  rw [beBytes_lt_iff_mod, Nat.mod_eq_of_lt hm, Nat.mod_eq_of_lt hn]

theorem beBytes_congr {w m n : Nat} (h : m % 256 ^ w = n % 256 ^ w) : beBytes w m = beBytes w n := by
  apply le_antisymm
  · rw [← not_lt, beBytes_lt_iff_mod]
    omega
  · rw [← not_lt, beBytes_lt_iff_mod]
    omega

theorem beValue_lt (bs : List (Fin 256)) : beValue bs < 256 ^ bs.length := by
  induction bs with
  | nil => exact Nat.one_pos
  | cons b bs ih =>
      have hb : b.val * 256 ^ bs.length ≤ 255 * 256 ^ bs.length := Nat.mul_le_mul_right _ (by omega)
      rw [beValue, List.length_cons, Nat.pow_succ]
      omega

/-- The bytes of the number that was read. -/
theorem beBytes_beValue (bs : List (Fin 256)) : beBytes bs.length (beValue bs) = bs := by
  induction bs with
  | nil => rfl
  | cons b bs ih =>
      have hlt := beValue_lt bs
      have hhead : (b.val * 256 ^ bs.length + beValue bs) / 256 ^ bs.length = b.val := by
        rw [Nat.mul_comm, Nat.mul_add_div (Nat.pow_pos (by decide)), Nat.div_eq_of_lt hlt, Nat.add_zero]
      have htail : beBytes bs.length (b.val * 256 ^ bs.length + beValue bs) = beBytes bs.length (beValue bs) :=
        beBytes_congr (Nat.mul_add_mod' ..)
      rw [List.length_cons, beBytes, beValue, hhead, htail, ih]
      simp

theorem beBytes_take {w : Nat} {bs : List (Fin 256)} (h : w ≤ bs.length) :
    beBytes w (beValue (bs.take w)) = bs.take w := by
  have hw : (bs.take w).length = w := List.length_take_of_le h
  nth_rewrite 1 [← hw]
  exact beBytes_beValue _

/-- Only the bytes of the number itself are read. -/
theorem beValue_take_append {w n : Nat} (h : n < 256 ^ w) (rest : List (Fin 256)) :
    beValue ((beBytes w n ++ rest).take w) = n := by
  rw [List.take_left' (length_beBytes ..), beValue_of_lt h]

/-! ## Records -/

/-- Numbers of the widths `ws`, one after the other. -/
def encodeFields : List Nat → List Nat → List (Fin 256)
  | w :: ws, n :: ns => beBytes w n ++ encodeFields ws ns
  | _, _ => []

def decodeFields : List Nat → List (Fin 256) → List Nat
  | [], _ => []
  | w :: ws, bs => beValue (bs.take w) :: decodeFields ws (bs.drop w)

/-- Every number fits its width. -/
abbrev FieldsFit (ws ns : List Nat) : Prop := List.Forall₂ (fun w n => n < 256 ^ w) ws ns

/-- **What was written is read back**, whatever follows it. -/
theorem FieldsFit.decode_encode {ws ns : List Nat} (h : FieldsFit ws ns) (rest : List (Fin 256)) :
    decodeFields ws (encodeFields ws ns ++ rest) = ns := by
  induction h with
  | nil => rfl
  | cons hfit _ ih =>
      rw [encodeFields, List.append_assoc, decodeFields, beValue_take_append hfit, List.drop_left' (length_beBytes ..),
        ih]

/-- **What was read is written back.** -/
theorem encode_decodeFields (ws : List Nat) : ∀ {bs : List (Fin 256)}, ws.sum ≤ bs.length →
    encodeFields ws (decodeFields ws bs) = bs.take ws.sum := by
  induction ws with
  | nil => exact fun _ => rfl
  | cons w ws ih =>
      intro bs hlen
      rw [List.sum_cons] at hlen ⊢
      have hrest : ws.sum ≤ (bs.drop w).length := by
        rw [List.length_drop]
        omega
      rw [decodeFields, encodeFields, beBytes_take (by omega), ih hrest, List.take_add]

theorem fieldsFit_decode (ws : List Nat) : ∀ bs : List (Fin 256), FieldsFit ws (decodeFields ws bs) := by
  induction ws with
  | nil => exact fun _ => List.Forall₂.nil
  | cons w ws ih =>
      intro bs
      apply List.Forall₂.cons _ (ih _)
      exact Nat.lt_of_lt_of_le (beValue_lt _) (Nat.pow_le_pow_right (by decide) (List.length_take_le ..))

/-! ## Heads of one length -/

section

variable {α : Type} [LinearOrder α]

theorem append_lt_append_iff {a b : List α} (hlen : a.length = b.length) (s t : List α) :
    a ++ s < b ++ t ↔ a < b ∨ a = b ∧ s < t := by
  induction a generalizing b with
  | nil =>
      have hb : b = [] := List.length_eq_zero_iff.1 hlen.symm
      subst hb
      simp
  | cons x a ih =>
      cases b with
      | nil => cases hlen
      | cons y b =>
          rw [List.cons_append, List.cons_append, List.cons_lt_cons_iff, List.cons_lt_cons_iff,
            ih (Nat.succ.inj hlen), List.cons.injEq]
          constructor
          · rintro (h | ⟨rfl, h | ⟨rfl, h⟩⟩)
            · exact Or.inl (Or.inl h)
            · exact Or.inl (Or.inr ⟨rfl, h⟩)
            · exact Or.inr ⟨⟨rfl, rfl⟩, h⟩
          · rintro ((h | ⟨rfl, h⟩) | ⟨⟨rfl, rfl⟩, h⟩)
            · exact Or.inl h
            · exact Or.inr ⟨rfl, Or.inl h⟩
            · exact Or.inr ⟨rfl, Or.inr ⟨rfl, h⟩⟩

end

end Bytes

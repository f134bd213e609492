import Mathlib.Data.List.Basic

/-!
# `Vertz.Lib.Bits`: the low bits of a word, highest first
-/

namespace Vertz.Lib

variable {w : ℕ} {v : BitVec w}

/-- The low `n` bits of a word, highest first. -/
def lowBits (v : BitVec w) : ℕ → List Bool
  | 0 => []
  | n + 1 => v.getLsbD n :: lowBits v n

@[simp] theorem length_lowBits (n : ℕ) : (lowBits v n).length = n := by
  induction n with
  | zero => rfl
  | succ n ih => simp [lowBits, ih]

theorem lowBits_congr {w' : ℕ} {v' : BitVec w'} {n : ℕ}
    (h : ∀ i < n, v.getLsbD i = v'.getLsbD i) : lowBits v n = lowBits v' n := by
  induction n with
  | zero => rfl
  | succ n ih => rw [lowBits, lowBits, h n (by omega), ih fun i hi => h i (by omega)]

theorem lowBits_inj {v' : BitVec w} (h : lowBits v w = lowBits v' w) : v = v' := by
  have key : ∀ n, lowBits v n = lowBits v' n → ∀ i < n, v.getLsbD i = v'.getLsbD i := by
    intro n
    induction n with
    | zero => intro _ i hi; omega
    | succ n ih =>
      intro h i hi
      rw [lowBits, lowBits, List.cons.injEq] at h
      by_cases hn : i = n
      · rw [hn, h.1]
      · exact ih h.2 i (by omega)
  exact BitVec.eq_of_getLsbD_eq (key w h)

theorem lowBits_add (m n : ℕ) : lowBits v (m + n) = lowBits (v >>> n) m ++ lowBits v n := by
  induction m with
  | zero => simp [lowBits]
  | succ m ih =>
    rw [show m + 1 + n = m + n + 1 by omega, lowBits, ih, lowBits, List.cons_append,
      BitVec.getLsbD_ushiftRight, Nat.add_comm n m]

theorem lowBits_push (d : BitVec w) (m n : ℕ) (hw : m + n ≤ w)
    (hd : ∀ i, n ≤ i → d.getLsbD i = false) :
    lowBits (v <<< n ||| d) (m + n) = lowBits v m ++ lowBits d n := by
  rw [lowBits_add]
  congr 1 <;> refine lowBits_congr fun i hi => ?_
  · rw [BitVec.getLsbD_ushiftRight, BitVec.getLsbD_or, hd (n + i) (by omega),
      BitVec.getLsbD_shiftLeft]
    simp [show n + i < w by omega]
  · rw [BitVec.getLsbD_or, BitVec.getLsbD_shiftLeft]
    simp [hi]

end Vertz.Lib

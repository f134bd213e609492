import Mathlib.Algebra.Group.Nat.Defs
import Vertz.Lib.Bits
import Vertz.Server.Auth.Totp

/-!
# `Vertz.Proofs.Base32`: Base32 there and back

Both loops are read as regrouping one stream of bits. Of the accumulator
only the low `bits` bits count: they are what has come in and not yet gone
out, and the shifts never push them past bit 12.
-/

namespace Vertz.Server.Auth

open Vertz.Lib List

variable (v : BitVec 32) (bits : ℕ)

/-- The five bits a character stands for. -/
def charBits (c : Char) : List Bool := lowBits (BitVec.ofNat 32 (BASE32_ALPHABET.idxOf c)) 5

def byteBits (byte : BitVec 8) : List Bool := lowBits byte 8

theorem getLsbD_mask (n i : ℕ) (hn : n ≤ 32) :
    (v &&& BitVec.ofNat 32 (2 ^ n - 1)).getLsbD i = (v.getLsbD i && decide (i < n)) := by
  rw [BitVec.getLsbD_and, BitVec.getLsbD_ofNat, Nat.testBit_two_pow_sub_one]
  by_cases hi : i < n
  · simp [hi, show i < 32 by omega]
  · simp [hi]

theorem alphabetAt_spec : ∀ i : Fin 32, alphabetAt (BitVec.ofNat 32 i) ∈ BASE32_ALPHABET ∧
    BASE32_ALPHABET.idxOf (alphabetAt (BitVec.ofNat 32 i)) = i.val := by
  decide +kernel

theorem idxOf?_alphabet : ∀ c ∈ BASE32_ALPHABET,
    BASE32_ALPHABET.idxOf? c = some (BASE32_ALPHABET.idxOf c) := by
  have hall : (BASE32_ALPHABET.all fun c =>
      decide (BASE32_ALPHABET.idxOf? c = some (BASE32_ALPHABET.idxOf c))) = true := by
    decide +kernel
  exact fun c hc => of_decide_eq_true (all_eq_true.mp hall c hc)

/-- A character holds the low five bits it was picked by. -/
theorem alphabetAt_mask :
    alphabetAt (v &&& 0x1f) ∈ BASE32_ALPHABET ∧ charBits (alphabetAt (v &&& 0x1f)) = lowBits v 5 := by
  have hlt : (v &&& 0x1f).toNat < 32 := by
    rw [BitVec.toNat_and]
    exact Nat.and_lt_two_pow (n := 5) _ (by decide)
  obtain ⟨hmem, hidx⟩ := alphabetAt_spec ⟨_, hlt⟩
  rw [BitVec.ofNat_toNat, BitVec.setWidth_eq] at hmem hidx
  refine ⟨hmem, ?_⟩
  rw [charBits, hidx, BitVec.ofNat_toNat, BitVec.setWidth_eq]
  refine lowBits_congr fun i hi => ?_
  rw [show (0x1f : BitVec 32) = BitVec.ofNat 32 (2 ^ 5 - 1) from rfl, getLsbD_mask v 5 i (by omega)]
  simp [hi]

/-! ### Encoding -/

/-- The loop emits from the top and leaves fewer than five bits. -/
theorem emitChars_spec :
    (emitChars v bits).1.flatMap charBits ++ lowBits v (emitChars v bits).2 = lowBits v bits ∧
      (emitChars v bits).2 < 5 ∧ ∀ c ∈ (emitChars v bits).1, c ∈ BASE32_ALPHABET := by
  fun_induction emitChars v bits with
  | case1 bits chars left hrest ih =>
    obtain ⟨hbits, hleft, hmem⟩ := ih
    obtain ⟨hchar, hcode⟩ := alphabetAt_mask (v >>> bits)
    rw [hrest] at hbits hleft hmem
    refine ⟨?_, hleft, by simpa using ⟨hchar, hmem⟩⟩
    show _ = lowBits v (bits + 5)
    rw [flatMap_cons, hcode, append_assoc, hbits, Nat.add_comm bits 5, lowBits_add]
  | case2 bits hbits =>
    refine ⟨rfl, ?_, by simp⟩
    by_contra h
    exact hbits (bits - 5) (by omega)

/-- The characters hold the pending bits, the bits of the bytes and a
padding of zeros. -/
theorem encodeLoop_spec (buffer : List (BitVec 8)) (hbits : bits < 5) :
    (∃ pad < 5, (encodeLoop buffer bits v).flatMap charBits =
      lowBits v bits ++ buffer.flatMap byteBits ++ List.replicate pad false) ∧
      ∀ c ∈ encodeLoop buffer bits v, c ∈ BASE32_ALPHABET := by
  induction buffer generalizing bits v with
  | nil =>
    by_cases hzero : 0 < bits
    · obtain ⟨hmem, hcode⟩ := alphabetAt_mask (v <<< (5 - bits))
      refine ⟨⟨5 - bits, by omega, ?_⟩, by simpa [encodeLoop, hzero] using hmem⟩
      have hpush := lowBits_push (v := v) 0#32 bits (5 - bits) (by omega) (by simp)
      have hzeros : ∀ n, lowBits 0#32 n = List.replicate n false := by
        intro n
        induction n with
        | zero => rfl
        | succ n ih => simp [lowBits, ih, replicate_succ]
      rw [BitVec.or_zero, show bits + (5 - bits) = 5 by omega, hzeros] at hpush
      rw [encodeLoop, if_pos hzero, flatMap_singleton, hcode, hpush]
      simp
    · obtain rfl : bits = 0 := by omega
      exact ⟨⟨0, by omega, by simp [encodeLoop, lowBits]⟩, by simp [encodeLoop]⟩
  | cons byte buffer ih =>
    have hpush : lowBits (v <<< 8 ||| byte.setWidth 32) (bits + 8) =
        lowBits v bits ++ byteBits byte := by
      rw [lowBits_push _ bits 8 (by omega) (fun i hi => by simp [BitVec.getLsbD_of_ge byte i hi])]
      rfl
    obtain ⟨hout, hleft, hmem⟩ := emitChars_spec (v <<< 8 ||| byte.setWidth 32) (bits + 8)
    obtain ⟨⟨pad, hpad, hrest⟩, hrestmem⟩ := ih (v <<< 8 ||| byte.setWidth 32) _ hleft
    refine ⟨⟨pad, hpad, ?_⟩, fun c hc => (mem_append.mp hc).elim (hmem c) (hrestmem c)⟩
    have hstep : encodeLoop (byte :: buffer) bits v =
        (emitChars (v <<< 8 ||| byte.setWidth 32) (bits + 8)).1 ++
          encodeLoop buffer (emitChars (v <<< 8 ||| byte.setWidth 32) (bits + 8)).2
            (v <<< 8 ||| byte.setWidth 32) := rfl
    rw [hstep, flatMap_append, hrest, ← append_assoc, ← append_assoc, hout, hpush,
      flatMap_cons, append_assoc (lowBits v bits)]

/-! ### Decoding -/

/-- Decoding a text of the alphabet gives back its bits but for the last
ones, too few for a byte. -/
theorem decodeLoop_spec (str : List Char) (hmem : ∀ c ∈ str, c ∈ BASE32_ALPHABET)
    (hbits : bits < 8) : ∃ rest, rest.length < 8 ∧
      (decodeLoop str bits v).flatMap byteBits ++ rest = lowBits v bits ++ str.flatMap charBits := by
  induction str generalizing bits v with
  | nil => exact ⟨lowBits v bits, by simpa using hbits, by simp [decodeLoop]⟩
  | cons c str ih =>
    have hc : c ∈ BASE32_ALPHABET := hmem c mem_cons_self
    have hlt : BASE32_ALPHABET.idxOf c < 32 := idxOf_lt_length_of_mem hc
    have htail : ∀ c ∈ str, c ∈ BASE32_ALPHABET := fun c hc => hmem c (mem_cons_of_mem _ hc)
    generalize hd : BitVec.ofNat 32 (BASE32_ALPHABET.idxOf c) = d
    have hpush : lowBits (v <<< 5 ||| d) (bits + 5) = lowBits v bits ++ charBits c := by
      rw [charBits, hd]
      refine lowBits_push _ bits 5 (by omega) fun i hi => ?_
      rw [← hd, BitVec.getLsbD_ofNat, Nat.testBit_lt_two_pow (lt_of_lt_of_le hlt
        (Nat.pow_le_pow_right (by omega) hi : 2 ^ 5 ≤ 2 ^ i)), Bool.and_false]
    simp only [decodeLoop, idxOf?_alphabet c hc, hd]
    by_cases hfull : 8 ≤ bits + 5
    · -- a byte is complete: its bits are the top eight of the pending ones
      obtain ⟨left, hleft⟩ := Nat.exists_eq_add_of_le hfull
      rw [hleft] at hpush
      obtain ⟨rest, hrest, heq⟩ := ih (v <<< 5 ||| d) left htail (by omega)
      refine ⟨rest, hrest, ?_⟩
      rw [if_pos hfull, hleft, Nat.add_sub_cancel_left, flatMap_cons, append_assoc, heq,
        ← append_assoc, flatMap_cons, ← append_assoc, ← hpush, lowBits_add]
      congr 2
      refine lowBits_congr fun i hi => ?_
      rw [show (0xff : BitVec 32) = BitVec.ofNat 32 (2 ^ 8 - 1) from rfl, BitVec.getLsbD_setWidth,
        getLsbD_mask _ 8 i (by omega)]
      simp [hi]
    · obtain ⟨rest, hrest, heq⟩ := ih (v <<< 5 ||| d) (bits + 5) htail (by omega)
      refine ⟨rest, hrest, ?_⟩
      rw [if_neg hfull, heq, hpush, flatMap_cons, append_assoc]

theorem bytes_inj {bs cs : List (BitVec 8)} {r s : List Bool} (hlength : bs.length = cs.length)
    (h : bs.flatMap byteBits ++ r = cs.flatMap byteBits ++ s) : bs = cs := by
  induction bs generalizing cs with
  | nil => exact (eq_nil_of_length_eq_zero hlength.symm).symm
  | cons b bs ih =>
    cases cs with
    | nil => cases hlength
    | cons c cs =>
      simp only [flatMap_cons, append_assoc] at h
      obtain ⟨hhead, htail⟩ := append_inj h (by simp [byteBits])
      rw [lowBits_inj hhead, ih (Nat.succ.inj hlength) htail]

/-- Decoding what was encoded gives the bytes back; the characters are of
the alphabet and hold the bits of the bytes, padded with zeros to a whole
group. -/
theorem base32_round_trip (toUpperCase : List Char → List Char)
    (hupper : ∀ s, (∀ c ∈ s, c ∈ BASE32_ALPHABET) → toUpperCase s = s) (b : List (BitVec 8)) :
    base32Decode toUpperCase (base32Encode b) = b ∧
      (∀ c ∈ base32Encode b, c ∈ BASE32_ALPHABET) ∧
      ∃ pad < 5, (base32Encode b).flatMap charBits =
        b.flatMap byteBits ++ List.replicate pad false := by
  obtain ⟨⟨pad, hpad, hcode⟩, hmem⟩ := encodeLoop_spec 0 0 b (by omega)
  rw [show encodeLoop b 0 0 = base32Encode b from rfl] at hcode hmem
  obtain ⟨rest, hrest, hdecode⟩ := decodeLoop_spec 0 0 _ hmem (by omega)
  have hstrip : (base32Encode b).rdropWhile (· == '=') = base32Encode b := by
    rw [rdropWhile_eq_self_iff]
    intro hne heq
    have hlast := hmem _ (getLast_mem hne)
    rw [beq_iff_eq.mp heq] at hlast
    exact absurd hlast (by decide +kernel)
  refine ⟨?_, hmem, pad, hpad, by simpa [lowBits] using hcode⟩
  rw [base32Decode, hstrip, hupper _ hmem]
  rw [hcode] at hdecode
  have hbits : ∀ bs : List (BitVec 8), (bs.flatMap byteBits).length = 8 * bs.length := by
    intro bs
    induction bs with
    | nil => rfl
    | cons b bs ih => simp [byteBits, ih]; omega
  have hlength := congrArg List.length hdecode
  simp only [length_append, hbits, length_lowBits, length_replicate] at hlength
  exact bytes_inj (r := rest) (s := List.replicate pad false) (by omega)
    (by simpa [lowBits] using hdecode)

/-- Upper-casing letter by letter, as the text is ASCII. -/
theorem hi_round_trip : base32Decode (List.map Char.toUpper) (base32Encode [0x48, 0x69]) =
    [0x48, 0x69] := by
  have hall : (BASE32_ALPHABET.all fun c => decide (c.toUpper = c)) = true := by decide +kernel
  have hupper : ∀ c ∈ BASE32_ALPHABET, c.toUpper = c := fun c hc =>
    of_decide_eq_true (all_eq_true.mp hall c hc)
  refine (base32_round_trip _ (fun s hs => ?_) [0x48, 0x69]).1
  exact (map_congr_left fun c hc => hupper c (hs c hc)).trans (map_id s)

end Vertz.Server.Auth

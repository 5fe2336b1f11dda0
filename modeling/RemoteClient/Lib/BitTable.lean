/-
# Bits of an eight-byte block, and permuting them by a table

Bit `k` of a block is bit `k % 8`, counted from the highest, of byte `k / 8`.  A block is
determined by its 64 bits (`ext_bit`), and a loop that sets bit `i` of a fresh block when
bit `t i` of the source is set gives the block whose bit `i` is that bit (`bit_gather`).
-/
import RemoteClient.Lib.Bytes
import Mathlib.Data.Vector.Basic
import Mathlib.Data.List.FinRange

namespace RemoteClient

/-- Eight bytes. -/
abbrev Block : Type := Vector Byte 8

namespace BitTable

/-- The mask of each bit of a byte, highest bit first. -/
def mask : Vector Byte 8 := #v[0x80, 0x40, 0x20, 0x10, 0x08, 0x04, 0x02, 0x01]

/-- The byte in which bit `k` lies. -/
def byteOf (k : ℕ) : Fin 8 := Fin.ofNat 8 (k >>> 3)

/-- The place of bit `k` within its byte. -/
def placeOf (k : ℕ) : Fin 8 := Fin.ofNat 8 (k &&& 7)

/-- Bit `k` of a block. -/
def bit (b : Block) (k : ℕ) : Bool := b[byteOf k] &&& mask[placeOf k] != 0

/-- Set bit `k` of a block. -/
def setBit (b : Block) (k : ℕ) : Block :=
  b.set (byteOf k) (b[byteOf k] ||| mask[placeOf k])

lemma mask_test : ∀ (x : Byte) (i : Fin 8), (x &&& mask.get i != 0) = x.getMsbD i := by
  decide +kernel

lemma mask_bit : ∀ i j : Fin 8, (mask.get i).getMsbD j = decide (i = j) := by decide

lemma bit_eq_getMsbD (b : Block) (k : ℕ) :
    bit b k = b[byteOf k].getMsbD (placeOf k) := mask_test _ _

/-- The bit at place `j` of byte `i`. -/
lemma bit_at (b : Block) (i j : Fin 8) : bit b (8 * i + j) = (b.get i).getMsbD j := by
  have hbyte : byteOf (8 * i + j) = i := by revert i j; decide
  have hplace : placeOf (8 * i + j) = j := by revert i j; decide
  simp only [bit_eq_getMsbD, hbyte, hplace]
  rfl

/-- A block is determined by its bits. -/
lemma ext_bit {a b : Block} (h : ∀ k < 64, bit a k = bit b k) : a = b := by
  apply Vector.ext
  intro i hi
  apply BitVec.eq_of_getMsbD_eq
  intro j hj
  have hij := h (8 * i + j) (by omega)
  rw [bit_at a ⟨i, hi⟩ ⟨j, hj⟩, bit_at b ⟨i, hi⟩ ⟨j, hj⟩] at hij
  exact hij

lemma byteOf_placeOf_inj : ∀ k < 64, ∀ l < 64, byteOf k = byteOf l → placeOf k = placeOf l →
    k = l := by
  decide +kernel

lemma bit_setBit {b : Block} {k l : ℕ} (hk : k < 64) (hl : l < 64) :
    bit (setBit b k) l = (decide (k = l) || bit b l) := by
  rw [bit_eq_getMsbD, bit_eq_getMsbD, setBit]
  by_cases hbyte : byteOf k = byteOf l
  · have hget : (b.set (byteOf k) (b[byteOf k] ||| mask[placeOf k]))[byteOf l] =
        b[byteOf l] ||| mask[placeOf k] := by
      simp only [← hbyte]
      simp
    have hkl : placeOf k = placeOf l ↔ k = l :=
      ⟨byteOf_placeOf_inj k hk l hl hbyte, fun h => by rw [h]⟩
    have hmask : mask[placeOf k].getMsbD (placeOf l) = decide (placeOf k = placeOf l) :=
      mask_bit _ _
    rw [hget, BitVec.getMsbD_or, hmask, Bool.or_comm, decide_eq_decide.mpr hkl]
  · have hne : k ≠ l := fun h => hbyte (by rw [h])
    have hget : (b.set (byteOf k) (b[byteOf k] ||| mask[placeOf k]))[byteOf l] =
        b[byteOf l] := by
      have hval : (byteOf k).val ≠ (byteOf l).val := fun h => hbyte (Fin.ext h)
      simp [hval]
    rw [hget, decide_eq_false hne, Bool.false_or]

lemma bit_zero (k : ℕ) : bit (Vector.replicate 8 0) k = false := by
  rw [bit_eq_getMsbD]
  simp

/-- The bits a loop over `ks` sets: those at the places of the `k` that pass the test. -/
lemma bit_foldl_setBit {β : Type} {p : β → Bool} {t : β → ℕ} {ks : List β} {b : Block} {l : ℕ}
    (hks : ∀ k ∈ ks, t k < 64) (hl : l < 64) :
    bit (ks.foldl (fun tmp k => if p k then setBit tmp (t k) else tmp) b) l =
      (ks.any (fun k => p k && decide (t k = l)) || bit b l) := by
  induction ks generalizing b with
  | nil => simp
  | cons k ks ih =>
    have hk : t k < 64 := hks k (by simp)
    rw [List.foldl_cons, ih fun k' hk' => hks k' (by simp [hk']), List.any_cons]
    cases hp : p k with
    | false => simp
    | true =>
      rw [if_pos rfl, bit_setBit hk hl]
      cases decide (t k = l) <;> simp

/-- Setting each bit of a fresh block by a test gives the block with those bits. -/
lemma bit_gather {p : Fin 64 → Bool} {l : ℕ} (hl : l < 64) :
    bit ((List.finRange 64).foldl
      (fun tmp k => if p k then setBit tmp k.val else tmp) (Vector.replicate 8 0)) l =
      p ⟨l, hl⟩ := by
  rw [bit_foldl_setBit (fun k _ => k.isLt) hl, bit_zero, Bool.or_false]
  cases hb : p ⟨l, hl⟩ with
  | true =>
    rw [List.any_eq_true]
    exact ⟨⟨l, hl⟩, List.mem_finRange _, by simp [hb]⟩
  | false =>
    rw [List.any_eq_false]
    intro k _ hand
    simp only [Bool.and_eq_true, decide_eq_true_eq] at hand
    obtain ⟨hk, rfl⟩ := hand
    rw [hb] at hk
    exact absurd hk (by simp)

end BitTable
end RemoteClient

/-
# Byte strings and little-endian words

Reading a word at an offset of a byte string, writing one, and the lemmas that let a
parser's cursor be followed: if the bytes from offset `p` on are `l ++ r`, then `l` is read
at `p` and the bytes from `p + l.length` on are `r`.
-/
import RemoteClient.Lib.Exec
import Mathlib.Data.BitVec
import Mathlib.Tactic.Ring

namespace RemoteClient

/-- A byte. -/
abbrev Byte : Type := BitVec 8

/-! The bytes of a block are counted modulo 8 or 16. -/

instance neZero_eight : NeZero 8 := ⟨by decide⟩

instance neZero_sixteen : NeZero 16 := ⟨by decide⟩

namespace Bytes

open Exec

variable {ε α : Type}

/-! ## Little-endian numbers -/

/-- The `k` low bytes of `n`, lowest first. -/
def leBytes : ℕ → ℕ → List Byte
  | 0, _ => []
  | k + 1, n => BitVec.ofNat 8 n :: leBytes k (n / 256)

/-- The number whose little-endian bytes are given. -/
def leNat : List Byte → ℕ
  | [] => 0
  | b :: bs => b.toNat + 256 * leNat bs

@[simp] lemma length_leBytes (k n : ℕ) : (leBytes k n).length = k := by
  induction k generalizing n with
  | zero => rfl
  | succ k ih => simp [leBytes, ih]

/-- The `k` low bytes of `n` give `n` back when `n` fits in `k` bytes. -/
lemma leNat_leBytes {k n : ℕ} (h : n < 256 ^ k) : leNat (leBytes k n) = n := by
  induction k generalizing n with
  | zero => simp only [pow_zero] at h; simp only [leBytes, leNat]; omega
  | succ k ih =>
    have hdiv : n / 256 < 256 ^ k := by
      rw [pow_succ] at h
      exact Nat.div_lt_of_lt_mul (by omega)
    simp only [leBytes, leNat, ih hdiv, BitVec.toNat_ofNat]
    omega

lemma leNat_lt (l : List Byte) : leNat l < 256 ^ l.length := by
  induction l with
  | nil => exact Nat.one_pos
  | cons b l ih =>
    have hb := b.isLt
    rw [leNat, List.length_cons, pow_succ]
    omega

/-- The high part of a number lies behind its low part. -/
lemma leNat_append (l r : List Byte) : leNat (l ++ r) = leNat l + 256 ^ l.length * leNat r := by
  induction l with
  | nil => simp [leNat]
  | cons b l ih =>
    rw [List.cons_append, leNat, leNat, ih, List.length_cons, pow_succ]
    ring

/-- Splitting the low bytes off a number. -/
lemma leBytes_add (k l n : ℕ) : leBytes (k + l) n = leBytes k n ++ leBytes l (n / 256 ^ k) := by
  induction k generalizing n with
  | zero => simp [leBytes]
  | succ k ih =>
    have hsum : k + 1 + l = (k + l) + 1 := by omega
    rw [hsum]
    simp only [leBytes, List.cons_append, ih, Nat.div_div_eq_div_mul, pow_succ]
    rw [Nat.mul_comm 256]

lemma leBytes_mod (k n : ℕ) : leBytes k (n % 256 ^ k) = leBytes k n := by
  induction k generalizing n with
  | zero => rfl
  | succ k ih =>
    have hlow : n % 256 ^ (k + 1) % 256 = n % 256 := by
      rw [pow_succ, Nat.mod_mul_left_mod]
    have hhigh : n % 256 ^ (k + 1) / 256 = n / 256 % 256 ^ k := by
      rw [pow_succ, Nat.mul_comm, Nat.mod_mul_right_div_self]
    have hbyte : BitVec.ofNat 8 (n % 256 ^ (k + 1)) = BitVec.ofNat 8 n := by
      apply BitVec.eq_of_toNat_eq
      simp only [BitVec.toNat_ofNat]
      exact hlow
    simp only [leBytes, hbyte, hhigh, ih]

/-! ## Cursors -/

/-- Behind `l`, the cursor stands at `r`. -/
lemma drop_of_drop {data l r : List α} {p : ℕ} (h : data.drop p = l ++ r) :
    data.drop (p + l.length) = r := by
  rw [← List.drop_drop, h, List.drop_left]

lemma drop_of_drop_eq {data l r : List α} {p q : ℕ} (h : data.drop p = l ++ r)
    (hq : q = p + l.length) : data.drop q = r := by
  rw [hq]; exact drop_of_drop h

/-- A cursor with something in front of it is within the data. -/
lemma le_length_of_drop {data l : List α} {p : ℕ} (h : data.drop p = l) (hl : l ≠ []) :
    p + l.length = data.length := by
  have hlen := congrArg List.length h
  have hpos : 0 < l.length := List.length_pos_iff.mpr hl
  rw [List.length_drop] at hlen
  omega

lemma index_of_drop {data r : List α} {p : ℕ} {a : α} (h : data.drop p = a :: r) :
    (index data p : Exec ε α) = .ok a := by
  apply index_eq_of_getElem?
  have h0 : (data.drop p)[0]? = some a := by rw [h]; rfl
  rwa [List.getElem?_drop, Nat.add_zero] at h0

lemma slice_of_drop {data l r : List α} {p q : ℕ} (h : data.drop p = l ++ r)
    (hq : q = p + l.length) (hp : p ≤ data.length) :
    (slice data p q : Exec ε (List α)) = .ok l := by
  have hlen := congrArg List.length h
  rw [List.length_drop, List.length_append] at hlen
  rw [slice_eq (by omega) (by omega), h, hq, Nat.add_sub_cancel_left, List.take_left]

/-- Slicing off the front of what was put together. -/
lemma slice_front {x : List α} (t : List α) {q : ℕ} (h : x.length = q) :
    (slice (x ++ t) 0 q : Exec ε (List α)) = .ok x :=
  slice_of_drop rfl (by omega) (Nat.zero_le _)

/-- Slicing off what is behind the front. -/
lemma slice_back {x : List α} (t : List α) {p q : ℕ} (h : x.length = p)
    (hq : q = p + t.length) : (slice (x ++ t) p q : Exec ε (List α)) = .ok t := by
  refine slice_of_drop (r := []) ?_ hq (by rw [List.length_append]; omega)
  rw [List.append_nil]
  exact List.drop_left' h

/-! ## Numbers at an offset -/

/-- The little-endian number in the `k` bytes at offset `p`. -/
def leAt (l : List Byte) (p k : ℕ) : ℕ := leNat ((l.drop p).take k)

lemma leAt_lt (l : List Byte) (p k : ℕ) : leAt l p k < 256 ^ k := by
  refine (leNat_lt _).trans_le (Nat.pow_le_pow_right (by decide) ?_)
  rw [List.length_take]
  exact min_le_left _ _

/-- What stands behind the cursor decides the numbers there. -/
lemma leAt_congr {a b : List Byte} {p q : ℕ} (h : a.drop p = b.drop p) (hpq : p ≤ q) (k : ℕ) :
    leAt a q k = leAt b q k := by
  obtain ⟨d, rfl⟩ := Nat.exists_eq_add_of_le hpq
  rw [leAt, leAt, ← List.drop_drop, ← List.drop_drop, h]

/-- The number in the bytes behind the cursor. -/
lemma leAt_of_drop {data l r : List Byte} {p k : ℕ} (h : data.drop p = l ++ r)
    (hl : l.length = k) : leAt data p k = leNat l := by
  rw [leAt, h, List.take_left' hl]

lemma leAt_one {l : List Byte} {p : ℕ} {b : Byte} (h : l[p]? = some b) : leAt l p 1 = b.toNat := by
  obtain ⟨hp, rfl⟩ := List.getElem?_eq_some_iff.mp h
  rw [leAt, List.drop_eq_getElem_cons hp, List.take_succ_cons, List.take_zero]
  simp [leNat]

/-! ## 32-bit words at an offset -/

/-- `u32_le`: the little-endian word at offset `off`. -/
def u32Le (b : List Byte) (off : ℕ) : Exec ε (BitVec 32) := do
  let b0 ← index b off
  let b1 ← index b (off + 1)
  let b2 ← index b (off + 2)
  let b3 ← index b (off + 3)
  return BitVec.ofNat 32 (leNat [b0, b1, b2, b3])

/-- A word is read wherever four bytes are left. -/
lemma u32Le_ok {b : List Byte} {p : ℕ} (h : p + 4 ≤ b.length) :
    ∃ w, (u32Le b p : Exec ε (BitVec 32)) = .ok w := by
  unfold u32Le
  rw [index_eq (show p < b.length by omega), ok_bind,
    index_eq (show p + 1 < b.length by omega), ok_bind,
    index_eq (show p + 2 < b.length by omega), ok_bind,
    index_eq (show p + 3 < b.length by omega), ok_bind]
  exact ⟨_, rfl⟩

lemma ends_u32Le {b : List Byte} {p : ℕ} {P : BitVec 32 → Prop} (h : p + 4 ≤ b.length)
    (hP : ∀ w, P w) : Ends (u32Le b p : Exec ε (BitVec 32)) P := by
  obtain ⟨w, hw⟩ := u32Le_ok (ε := ε) h
  exact Ends.of_eq_ok hw (hP w)

/-- The word in four bytes behind the cursor. -/
lemma u32Le_of_drop_bytes {data l r : List Byte} {p : ℕ} (h : data.drop p = l ++ r)
    (hl : l.length = 4) : (u32Le data p : Exec ε (BitVec 32)) = .ok (BitVec.ofNat 32 (leNat l)) := by
  obtain ⟨b0, b1, b2, b3, rfl⟩ := List.length_eq_four.mp hl
  have h1 : data.drop (p + 1) = _ := drop_of_drop (l := [b0]) h
  have h2 : data.drop (p + 2) = _ := drop_of_drop (l := [b1]) h1
  have h3 : data.drop (p + 3) = _ := drop_of_drop (l := [b2]) h2
  unfold u32Le
  rw [index_of_drop h, ok_bind, index_of_drop h1, ok_bind, index_of_drop h2, ok_bind,
    index_of_drop h3, ok_bind]
  rfl

/-- What is read is the number of four bytes. -/
lemma u32Le_eq_ok {b : List Byte} {p : ℕ} {w : BitVec 32}
    (h : (u32Le b p : Exec ε (BitVec 32)) = .ok w) : w.toNat = leAt b p 4 := by
  have hp : p + 3 < b.length := by
    unfold u32Le at h
    obtain ⟨_, _, h⟩ := bind_eq_ok.mp h
    obtain ⟨_, _, h⟩ := bind_eq_ok.mp h
    obtain ⟨_, _, h⟩ := bind_eq_ok.mp h
    obtain ⟨_, h3, _⟩ := bind_eq_ok.mp h
    exact (List.getElem?_eq_some_iff.mp (index_eq_ok.mp h3)).1
  have hfour : ((b.drop p).take 4).length = 4 := by
    rw [List.length_take, List.length_drop]
    omega
  have hsplit : b.drop p = (b.drop p).take 4 ++ (b.drop p).drop 4 := by rw [List.take_append_drop]
  have hlt : leAt b p 4 < 2 ^ 32 := leAt_lt b p 4
  rw [u32Le_of_drop_bytes hsplit hfour] at h
  rw [← Except.ok.inj h, BitVec.toNat_ofNat]
  exact Nat.mod_eq_of_lt hlt

/-- The word that was written is read back. -/
lemma u32Le_of_drop {data r : List Byte} {p n : ℕ} (h : data.drop p = leBytes 4 n ++ r) :
    (u32Le data p : Exec ε (BitVec 32)) = .ok (BitVec.ofNat 32 n) := by
  have hnum : leNat (leBytes 4 (n % 256 ^ 4)) = n % 256 ^ 4 :=
    leNat_leBytes (Nat.mod_lt _ (by decide))
  rw [leBytes_mod] at hnum
  rw [u32Le_of_drop_bytes h (length_leBytes 4 n), hnum]
  congr 1
  apply BitVec.eq_of_toNat_eq
  simp

end Bytes
end RemoteClient

/-
# Decrypting what the script encrypts

The ciphers of the script are those of the decoder, CHAM runs backwards through its rounds,
and each way to encrypt a tail is undone by the decoder of its cipher, at every length.
-/
import RemoteClient.Grf.Generate
import Mathlib.Tactic.IntervalCases

namespace RemoteClient
namespace Grf

open Exec Bytes Blocks Ciphers

/-! ## The ciphers of both sides -/

namespace Generate

lemma rotateLeft_eq (value : BitVec 32) {count : ℕ} (h : count < 32) :
    rotateLeft value count = value.rotateLeft count := by
  rw [BitVec.rotateLeft_def, Nat.mod_eq_of_lt h, rotateLeft]

lemma maskedRol_eq (value : BitVec 32) (count : ℕ) :
    maskedRol value count = value.rotateLeft count := by
  rw [BitVec.rotateLeft_def, maskedRol]
  by_cases h : count % 32 = 0
  · -- A shift by 32 leaves nothing, a shift by 0 everything.
    have hnone : value >>> 32 = 0#32 := BitVec.ushiftRight_eq_zero (le_refl 32)
    simp [h, hnone]
  · have hcount : (32 - count % 32) % 32 = 32 - count % 32 := by omega
    simp only [hcount]

lemma chamKeys_eq (key : Vector Byte 16) : chamKeys key = Ciphers.chamKeys key := by
  simp only [chamKeys, Ciphers.chamKeys, rotateLeft_eq _ (show 1 < 32 by decide),
    rotateLeft_eq _ (show 8 < 32 by decide), rotateLeft_eq _ (show 11 < 32 by decide)]

/-- A word read to the left of bit 0 is read from the top. -/
lemma getLsbD_rotateLeft {x : BitVec 128} {r i : ℕ} (h : i < 128) :
    (x.rotateLeft r).getLsbD i = x.getLsbD ((i + (128 - r % 128)) % 128) := by
  rw [BitVec.getLsbD_rotateLeft]
  by_cases hi : i < r % 128
  · have hsum : (i + (128 - r % 128)) % 128 = 128 - r % 128 + i := by omega
    simp [hi, hsum]
  · have hsum : (i + (128 - r % 128)) % 128 = i - r % 128 := by omega
    simp [hi, h, hsum]

lemma rotateLeft_rotateLeft (x : BitVec 128) (r s : ℕ) :
    (x.rotateLeft r).rotateLeft s = x.rotateLeft (r + s) := by
  apply BitVec.eq_of_getLsbD_eq
  intro i hi
  rw [getLsbD_rotateLeft hi, getLsbD_rotateLeft (Nat.mod_lt _ (by decide)),
    getLsbD_rotateLeft hi]
  congr 1
  omega

lemma ideaWords_getElem? (n : ℕ) (value : BitVec 128) {i : ℕ} (h : i < 8 * n) :
    (ideaWords n value)[i]? =
      some ((value.rotateLeft (25 * (i / 8)) >>> (112 - 16 * (i % 8))).truncate 16) := by
  induction n generalizing value i with
  | zero => omega
  | succ n ih =>
    have hturn : (value <<< 25) ||| (value >>> 103) = value.rotateLeft 25 := by
      rw [BitVec.rotateLeft_def]
    rw [ideaWords, hturn]
    by_cases hi : i < 8
    · have hnone : value >>> 128 = 0#128 := BitVec.ushiftRight_eq_zero (le_refl 128)
      have hzero : value.rotateLeft 0 = value := by simp [BitVec.rotateLeft_def, hnone]
      rw [List.getElem?_append_left (by simpa using hi), Nat.div_eq_of_lt hi, Nat.mod_eq_of_lt hi,
        Nat.mul_zero, hzero]
      simp [hi]
    · have hdiv : 25 + 25 * ((i - 8) / 8) = 25 * (i / 8) := by omega
      have hmod : (i - 8) % 8 = i % 8 := by omega
      rw [List.getElem?_append_right (by simpa using Nat.le_of_not_lt hi)]
      simp only [List.length_map, List.length_range]
      rw [ih (value.rotateLeft 25) (by omega), rotateLeft_rotateLeft, hdiv, hmod]

lemma ideaKeys_eq (key : Vector Byte 16) : ideaKeys key = Ciphers.ideaKeys key := by
  apply Vector.ext
  intro i hi
  have hword := ideaWords_getElem? 7
    (key.foldl (fun v b => (v <<< 8) ||| b.zeroExtend 128) 0) (show i < 8 * 7 by omega)
  have htake := List.getElem?_take_of_lt (l := ideaWords 7
    (key.foldl (fun v b => (v <<< 8) ||| b.zeroExtend 128) 0)) hi
  rw [hword] at htake
  obtain ⟨hlt, hget⟩ := List.getElem?_eq_some_iff.mp htake
  simp only [ideaKeys, Ciphers.ideaKeys, Vector.getElem_mk, List.getElem_toArray,
    Vector.getElem_ofFn]
  exact hget

lemma multiply_eq (a b : BitVec 16) : multiply a b = ideaMultiply a b := rfl

lemma ideaEncryptRound_eq (keys : Vector (BitVec 16) 52) (s : Vector (BitVec 16) 4) (r : Fin 8) :
    ideaEncryptRound keys s r = ideaRound keys s r := by
  simp only [ideaEncryptRound, ideaRound, multiply_eq]

lemma ideaEncrypt_eq (block : Vector Byte 8) (keys : Vector (BitVec 16) 52) :
    ideaEncrypt block keys = Ciphers.ideaEncrypt block keys := by
  have hround : ideaEncryptRound keys = ideaRound keys := by
    funext s r
    exact ideaEncryptRound_eq keys s r
  simp only [ideaEncrypt, Ciphers.ideaEncrypt, multiply_eq, hround]

lemma bodyMask_eq (key source : Vector Byte 16) (iv : Vector Byte 8) :
    bodyMask key source iv = ideaMask key source iv := by
  simp only [bodyMask, ideaMask, ideaKeys_eq, ideaEncrypt_eq]

lemma rc6Step_eq (s : Rc6Schedule) : rc6Step s = s.step := by
  have hcount : ∀ (x a b : BitVec 32), x.rotateLeft (a.toNat + b.toNat) =
      x.rotateLeft (a + b).toNat := by
    intro x a b
    rw [BitVec.rotateLeft_def, BitVec.rotateLeft_def, BitVec.toNat_add]
    have hmod : (a.toNat + b.toNat) % 2 ^ 32 % 32 = (a.toNat + b.toNat) % 32 := by omega
    rw [hmod]
  simp only [rc6Step, Rc6Schedule.step, maskedRol_eq, hcount]

lemma rc6Keys_eq (key : Vector Byte 16) : rc6Keys key = Ciphers.rc6Keys key := by
  simp only [rc6Keys, Ciphers.rc6Keys, rc6Step_eq]

lemma rc6EncryptRound_eq (keys : Vector (BitVec 32) 44) (s : Vector (BitVec 32) 4) (i : Fin 20) :
    rc6EncryptRound keys s i = rc6Round keys s i := by
  have hdouble : ∀ x : BitVec 32, maskedRol (x * ((2 : BitVec 32) * x + 1)) 5 =
      (x * (x * 2 + 1)).rotateLeft 5 := by
    intro x
    rw [maskedRol_eq, BitVec.mul_comm 2]
  simp only [rc6EncryptRound, rc6Round, hdouble, maskedRol_eq]

lemma rc6Encrypt_eq (block : Vector Byte 16) (keys : Vector (BitVec 32) 44) :
    rc6Encrypt block keys = Ciphers.rc6Encrypt block keys := by
  have hround : rc6EncryptRound keys = rc6Round keys := by
    funext s i
    exact rc6EncryptRound_eq keys s i
  unfold rc6Encrypt Ciphers.rc6Encrypt
  -- The arrays are compared without the proofs of their sizes, which name the rounds.
  refine congrArg joinLe (Vector.toArray_inj.mp ?_)
  simp only [hround]

lemma theta_eq (a b c : BitVec 32) : theta a b c = threewayTheta a b c := by
  simp only [theta, threewayTheta, rotateLeft_eq _ (show 16 < 32 by decide),
    rotateLeft_eq _ (show 8 < 32 by decide)]

lemma threewayEncryptRound_eq (k : Vector (BitVec 32) 3)
    (s : (BitVec 32 × BitVec 32 × BitVec 32) × BitVec 32) :
    threewayEncryptRound k s = threewayRound k s := by
  simp only [threewayEncryptRound, threewayRound, theta_eq,
    rotateLeft_eq _ (show 22 < 32 by decide), rotateLeft_eq _ (show 1 < 32 by decide)]

lemma threewayEncrypt_eq (key block : Vector Byte 12) :
    threewayEncrypt key block = Ciphers.threewayEncrypt key block := by
  simp only [threewayEncrypt, Ciphers.threewayEncrypt, theta_eq, threewayEncryptRound_eq]

end Generate

/-! ## CHAM runs backwards -/

lemma append_bytes (x : BitVec 32) :
    x.extractLsb' 24 8 ++ x.extractLsb' 16 8 ++ x.extractLsb' 8 8 ++ x.extractLsb' 0 8 = x := by
  apply BitVec.eq_of_getLsbD_eq
  intro i hi
  simp only [BitVec.getLsbD_append, BitVec.getLsbD_extractLsb']
  grind

lemma extract_append (p q r s : Byte) {j : ℕ} (hj : j < 4) :
    (p ++ q ++ r ++ s).extractLsb' (8 * (3 - j)) 8 = #v[p, q, r, s][j] := by
  apply BitVec.eq_of_getLsbD_eq
  intro i hi
  interval_cases j <;> simp [hi] <;> grind

lemma joinBe_getElem {n : ℕ} (ws : Vector (BitVec 32) n) {k : ℕ} (h : k < n * 4) :
    (joinBe ws)[k] = ws[k / 4].extractLsb' (8 * (3 - k % 4)) 8 := by
  simp only [joinBe, wordBytes, Vector.getElem_flatten, Vector.getElem_map, Vector.getElem_reverse,
    Vector.getElem_ofFn]

lemma beWord_joinBe (ws : Vector (BitVec 32) 4) :
    Vector.ofFn (beWord (n := 4) (joinBe ws)) = ws := by
  apply Vector.ext
  intro i hi
  simp only [Vector.getElem_ofFn, beWord, joinBe_getElem]
  have hword : ∀ j < 4, (4 * i + j) / 4 = i ∧ (4 * i + j) % 4 = j := by
    intro j hj
    omega
  obtain ⟨h1, m1⟩ := hword 1 (by decide)
  obtain ⟨h2, m2⟩ := hword 2 (by decide)
  obtain ⟨h3, m3⟩ := hword 3 (by decide)
  simp only [Nat.mul_div_cancel_left i (show 0 < 4 by decide), Nat.mul_mod_right, h1, m1, h2, m2,
    h3, m3]
  exact append_bytes ws[i]

lemma joinBe_beWord (b : Vector Byte 16) :
    joinBe (Vector.ofFn (beWord (n := 4) b)) = b := by
  apply Vector.ext
  intro k hk
  rw [joinBe_getElem, Vector.getElem_ofFn, beWord,
    extract_append _ _ _ _ (Nat.mod_lt k (by decide))]
  interval_cases k <;> rfl

lemma rotateRight_rotateLeft (x : BitVec 32) {c : ℕ} (hc : c < 32) :
    (x.rotateLeft c).rotateRight c = x := by
  apply BitVec.eq_of_getLsbD_eq
  intro i hi
  rw [BitVec.getLsbD_rotateRight, Nat.mod_eq_of_lt hc, BitVec.getLsbD_rotateLeft,
    BitVec.getLsbD_rotateLeft, Nat.mod_eq_of_lt hc]
  by_cases h : i < 32 - c
  · have hback : ¬c + i < c := by omega
    have hin : c + i < 32 := by omega
    simp [h, hback, hin]
  · have hback : i - (32 - c) < c := by omega
    have hi' : 32 - c + (i - (32 - c)) = i := by omega
    simp [h, hi, hback, hi']

lemma chamRound_encryptRound (keys : Vector (BitVec 32) 8) (words : Vector (BitVec 32) 4) (r : ℕ) :
    chamRound keys (Generate.chamEncryptRound keys words r) r = words := by
  have hne : (Fin.ofNat 4 r).val ≠ (Fin.ofNat 4 r + 1).val := by
    generalize Fin.ofNat 4 r = i
    revert i
    decide
  have hlt : ∀ a b : ℕ, a < 32 → b < 32 → (if r &&& 1 = 1 then a else b) < 32 := by
    intro a b ha hb
    by_cases h : r &&& 1 = 1
    · rwa [if_pos h]
    · rwa [if_neg h]
  have hturn : ∀ z : BitVec 32, (Generate.rotateLeft z (if r &&& 1 = 1 then 1 else 8)).rotateRight
      (if r &&& 1 = 1 then 1 else 8) = z := by
    intro z
    have hcount := hlt 1 8 (by decide) (by decide)
    rw [Generate.rotateLeft_eq z hcount, rotateRight_rotateLeft z hcount]
  have hnext : ∀ z : BitVec 32, Generate.rotateLeft z (if r &&& 1 = 1 then 8 else 1) =
      z.rotateLeft (if r &&& 1 = 1 then 8 else 1) := by
    intro z
    exact Generate.rotateLeft_eq z (hlt 8 1 (by decide) (by decide))
  unfold chamRound Generate.chamEncryptRound
  simp only [Fin.getElem_fin, Vector.getElem_set_self, Vector.getElem_set_ne _ _ hne, hturn, hnext,
    BitVec.add_sub_cancel, BitVec.xor_assoc, BitVec.xor_self, BitVec.xor_zero, Vector.set_set,
    Vector.set_getElem_self]

/-- CHAM decrypts what the script's CHAM encrypts, under any round keys. -/
lemma chamBlock_encrypt (keys : Vector (BitVec 32) 8) (block : Vector Byte 16) :
    chamBlock keys (Generate.chamEncrypt block keys) = block := by
  unfold chamBlock Generate.chamEncrypt
  simp only [beWord_joinBe]
  rw [foldl_reverse_cancel fun r _ words => chamRound_encryptRound keys words r]
  exact joinBe_beWord block

/-! ## Chained blocks -/

variable {C : Crypto} {E : Generate.Encoders} {z : Flate}

lemma xorBlocks_cancel {n : ℕ} (a b : Vector Byte n) : xorBlocks (xorBlocks a b) b = a := by
  apply Vector.ext
  intro i hi
  simp only [xorBlocks, Vector.getElem_zipWith, BitVec.xor_assoc, BitVec.xor_self,
    BitVec.xor_zero]

lemma xorBlocks_comm {n : ℕ} (a b : Vector Byte n) : xorBlocks a b = xorBlocks b a := by
  apply Vector.ext
  intro i hi
  simp only [xorBlocks, Vector.getElem_zipWith, BitVec.xor_comm]

/-- The mask is taken off by putting it on again. -/
lemma xorMask_cancel (mask : Vector Byte 16) (l : List Byte) :
    xorMask mask (xorMask mask l) = l := by
  apply List.ext_getElem
  · simp
  · intro i hi hi'
    simp only [xorMask, List.getElem_mapIdx, BitVec.xor_assoc, BitVec.xor_self, BitVec.xor_zero]

/-- CBC: a block cipher that is undone block by block is undone in a chain. -/
lemma cbc_cancel (encrypt : Vector Byte 16 → Vector Byte 16)
    {decrypt : Vector Byte 16 → Vector Byte 16} (h : ∀ b, decrypt (encrypt b) = b) (n : ℕ)
    (iv : Vector Byte 16) (data : List Byte) (hlen : n * 16 ≤ data.length) :
    ∃ r s', r.length = n * 16 ∧
      (mapChunks (fun previous block =>
          (encrypt (xorBlocks block previous), encrypt (xorBlocks block previous))) n iv data :
        Exec Empty (List Byte × Vector Byte 16)) = .ok (r ++ data.drop (n * 16), s') ∧
      cbcDecrypt decrypt r iv = .ok (data.take (n * 16)) := by
  obtain ⟨r, s', hr, henc, hdec⟩ := mapChunks_cancel_front (ε := Empty)
    (f := fun previous block =>
      (encrypt (xorBlocks block previous), encrypt (xorBlocks block previous)))
    (g := fun previous block => (xorBlocks (decrypt block) previous, block))
    (fun s block => by simp only [h, xorBlocks_cancel]) n iv hlen
  refine ⟨r, s', hr, henc, ?_⟩
  rw [cbcDecrypt, hr, Nat.mul_div_cancel n (by decide)]
  simp only [hdec, ok_bind]
  rfl

/-- AES over whole blocks and back. -/
lemma aesCbc_cancel (hE : E.Lawful z C) (data : List Byte) (key iv : Vector Byte 16)
    (h : data.length % 16 = 0) :
    ∃ r, Generate.aesCbcEncrypt E data key iv = .ok r ∧ r.length = data.length ∧
      aesCbcDecrypt C r key iv = .ok data := by
  have hblocks : data.length / 16 * 16 = data.length := by omega
  obtain ⟨r, s', hr, henc, hdec⟩ := cbc_cancel (E.aesEncryptBlock key) (hE.aes key)
    (data.length / 16) iv data hblocks.le
  rw [hblocks, List.drop_length, List.append_nil] at henc
  rw [hblocks, List.take_length] at hdec
  refine ⟨r, ?_, hr.trans hblocks, hdec⟩
  rw [Generate.aesCbcEncrypt, if_neg (by omega)]
  simp only [henc, ok_bind]
  rfl

/-- A window of a buffer goes through AES and comes back. -/
lemma window_cancel (hE : E.Lawful z C) {data : List Byte} (key iv : Vector Byte 16)
    {start size : ℕ} (hsize : size % 16 = 0) (h : start + size ≤ data.length) :
    ∃ r, Generate.aesCbcEncrypt E ((data.drop start).take size) key iv = .ok r ∧
      r.length = size ∧
      (slice (splice data start r) start (start + size) >>= fun block =>
        aesCbcDecrypt C block key iv >>= fun block =>
          .ok (splice (splice data start r) start block) : Exec Empty (List Byte)) =
        .ok data := by
  have hlen : ((data.drop start).take size).length = size := by
    rw [List.length_take, List.length_drop]
    omega
  obtain ⟨r, henc, hr, hdec⟩ := aesCbc_cancel hE ((data.drop start).take size) key iv
    (by rw [hlen]; exact hsize)
  rw [hlen] at hr
  have hslice := slice_splice (ε := Empty) (l := data) (s := r) (p := start) (by omega)
  have hrest := splice_restore (l := data) (s := r) (p := start) (by omega)
  rw [hr] at hslice hrest
  refine ⟨r, henc, hr, ?_⟩
  rw [hslice, ok_bind, hdec, ok_bind, hrest]

/-! ## Cipher 128 -/

lemma aes_tail (hE : E.Lawful z C) (params : Vector Byte 64) (nameHash outputHash : Vector Byte 16)
    (tail : List Byte) {maskIv : Vector Byte 8}
    (hiv : (subarray params.toList 49 57 : Exec Empty (Vector Byte 8)) = .ok maskIv) :
    ∃ enc, Generate.encryptAes E params (xorMask (ideaMask outputHash nameHash maskIv) tail) =
        .ok enc ∧ enc.length = tail.length ∧
      decryptBodyTail C 128 params nameHash outputHash enc = .ok tail := by
  obtain ⟨key, hkey⟩ := subarray_vector params 44 60 (by decide) (by decide)
  obtain ⟨iv, hiv'⟩ := subarray_vector params 28 44 (by decide) (by decide)
  generalize hmask : ideaMask outputHash nameHash maskIv = mask
  generalize hdata : xorMask mask tail = data
  have hlen : data.length = tail.length := by rw [← hdata, length_xorMask]
  have hback : xorMask mask data = tail := by rw [← hdata, xorMask_cancel]
  -- Both sides cut the same window, as the length does not change.
  obtain ⟨start, size, hwindow, hsize, hin⟩ : ∃ start size,
      (if data.length < 3072 then (0, data.length / 16 * 16) else (2048, 1024)) = (start, size) ∧
        size % 16 = 0 ∧ start + size ≤ data.length := by
    by_cases h : data.length < 3072
    · exact ⟨_, _, if_pos h, Nat.mul_mod_left .., by omega⟩
    · exact ⟨_, _, if_neg h, by decide, by omega⟩
  obtain ⟨r, henc, hr, hdec⟩ := window_cancel hE key iv hsize hin
  have hdecrypt : ∀ enc : List Byte, enc.length = data.length →
      (slice enc start (start + size) >>= fun block => aesCbcDecrypt C block key iv >>= fun block =>
        (.ok (splice enc start block) : Exec Empty (List Byte))) = .ok data →
      decryptBodyTail C 128 params nameHash outputHash enc = .ok tail := by
    intro enc hlen' hok
    obtain ⟨block, hslice, hok⟩ := bind_eq_ok.mp hok
    obtain ⟨block', haes, hok⟩ := bind_eq_ok.mp hok
    unfold decryptBodyTail
    simp only [hiv, hkey, hiv', hlen', hwindow, hmask, ok_bind, if_true, hslice, haes]
    rw [Except.ok.inj hok, hback]
    rfl
  unfold Generate.encryptAes
  simp only [hwindow]
  by_cases h0 : size = 0
  · -- No block: the script leaves the bytes alone, the decoder decrypts none.
    have hnil : r = [] := List.length_eq_zero_iff.mp (hr.trans h0)
    have hid : splice data start r = data := by rw [hnil, splice]; simp
    rw [hid] at hdec
    exact ⟨data, if_pos h0, hlen, hdecrypt data rfl hdec⟩
  · have hlen' : (splice data start r).length = data.length := length_splice (by omega)
    refine ⟨splice data start r, ?_, hlen'.trans hlen, hdecrypt _ hlen' hdec⟩
    rw [if_neg h0, hkey, ok_bind, hiv', ok_bind, henc]
    rfl

/-! ## Cipher 133 -/

lemma rc6_tail (params : Vector Byte 64) (nameHash outputHash : Vector Byte 16) (tail : List Byte)
    {maskIv : Vector Byte 8}
    (hiv : (subarray params.toList 49 57 : Exec Empty (Vector Byte 8)) = .ok maskIv) :
    ∃ enc, Generate.encryptRc6 params (xorMask (ideaMask nameHash outputHash maskIv) tail) =
        .ok enc ∧ enc.length = tail.length ∧
      decryptBodyTail C 133 params nameHash outputHash enc = .ok tail := by
  obtain ⟨key, hkey⟩ := subarray_vector params 24 40 (by decide) (by decide)
  obtain ⟨prev, hprev⟩ := subarray_vector params 40 56 (by decide) (by decide)
  generalize hmask : ideaMask nameHash outputHash maskIv = mask
  generalize hdata : xorMask mask tail = data
  have hlen : data.length = tail.length := by rw [← hdata, length_xorMask]
  have hback : xorMask mask data = tail := by rw [← hdata, xorMask_cancel]
  -- The script and the decoder take the minimum in different orders.
  generalize hn : min 1024 (data.length / 16 * 16) / 16 = n
  have hsize : min (data.length / 16 * 16) 1024 = n * 16 := by omega
  obtain ⟨r, s', hr, henc, hdec⟩ := mapChunks_cancel_front (ε := Empty)
    (f := fun prev block => (xorBlocks block (Ciphers.rc6Encrypt prev (Ciphers.rc6Keys key)),
      xorBlocks block (Ciphers.rc6Encrypt prev (Ciphers.rc6Keys key))))
    (g := fun prev block =>
      (xorBlocks block (Ciphers.rc6Encrypt prev (Ciphers.rc6Keys key)), block))
    (fun s block => by simp only [xorBlocks_cancel]) n prev (l := data) (by omega)
  obtain ⟨hrlen, hslice, hrestore⟩ := restore_front (ε := Empty) (l := data) hr (by omega)
  refine ⟨r ++ data.drop (n * 16), ?_, hrlen.trans hlen, ?_⟩
  · unfold Generate.encryptRc6
    simp only [hkey, hprev, ok_bind, hn, Generate.rc6Encrypt_eq, Generate.rc6Keys_eq, henc]
    rfl
  · unfold decryptBodyTail
    simp only [hiv, ok_bind, show ¬(133 : BitVec 16) = 128 by decide, if_false, hkey, hprev,
      hrlen, hsize, hslice, hr, Nat.mul_div_cancel n (show 0 < 16 by decide), hdec, hrestore,
      hmask, hback]
    rfl

/-! ## Ciphers 5 and 7 -/

/-- Key, vector and mask are the same on both sides. -/
lemma legacy_material (cid : BitVec 16) (params : Vector Byte 64)
    (nameHash outputHash : Vector Byte 16) :
    ∃ key iv mask, legacyMaterial cid params nameHash outputHash = .ok (key, iv, mask) ∧
      ∀ tail, Generate.encryptLegacy E cid params nameHash outputHash tail =
        (Generate.aesCbcEncrypt E
          (tail.take (min tail.length 1024) ++
            List.replicate (16 - min tail.length 1024 % 16)
              (BitVec.ofNat 8 (16 - min tail.length 1024 % 16))) key iv >>= fun front =>
          .ok (front ++ xorMask mask (tail.drop (min tail.length 1024)))) := by
  by_cases h : cid = 5
  · obtain ⟨maskIv, hmask⟩ := subarray_vector params 48 56 (by decide) (by decide)
    obtain ⟨key, hkey⟩ := subarray_vector params 0 16 (by decide) (by decide)
    obtain ⟨iv, hiv⟩ := subarray_vector params 16 32 (by decide) (by decide)
    refine ⟨key, iv, ideaMask nameHash outputHash maskIv, ?_, fun tail => ?_⟩
    · rw [legacyMaterial, if_pos h, hkey, ok_bind, hiv, ok_bind, hmask]
      rfl
    · rw [Generate.encryptLegacy, if_pos h, hmask, ok_bind, hkey, ok_bind, hiv,
        Generate.bodyMask_eq]
      rfl
  · obtain ⟨maskIv, hmask⟩ := subarray_vector params 52 60 (by decide) (by decide)
    obtain ⟨key, hkey⟩ := subarray_vector params 28 44 (by decide) (by decide)
    obtain ⟨iv, hiv⟩ := subarray_vector params 44 60 (by decide) (by decide)
    refine ⟨key, iv, ideaMask outputHash nameHash maskIv, ?_, fun tail => ?_⟩
    · rw [legacyMaterial, if_neg h, hkey, ok_bind, hiv, ok_bind, hmask]
      rfl
    · rw [Generate.encryptLegacy, if_neg h, hmask, ok_bind, hkey, ok_bind, hiv,
        Generate.bodyMask_eq]
      rfl

/-- The padding is found and removed, and the suffix behind it unmasked; as many bytes stay
behind as were padded. -/
lemma removePadding_ok (mask : Vector Byte 16) (front suffix : List Byte) {pad : ℕ}
    (hpos : 1 ≤ pad) (hpad : pad ≤ 16) :
    ∃ junk, junk.length = pad ∧
      removePadding mask front.length (front.length + pad) (front.length + suffix.length)
        (front ++ (List.replicate pad (BitVec.ofNat 8 pad) ++ xorMask mask suffix)) =
        .ok (front ++ (suffix ++ junk)) := by
  have hbyte : (BitVec.ofNat 8 pad).toNat = pad := by
    rw [BitVec.toNat_ofNat]
    exact Nat.mod_eq_of_lt (by omega)
  generalize hmasked : xorMask mask suffix = masked
  have hlen : masked.length = suffix.length := by rw [← hmasked, length_xorMask]
  generalize hbuffer : front ++ (List.replicate pad (BitVec.ofNat 8 pad) ++ masked) = buffer
  have hdrop : buffer.drop front.length = List.replicate pad (BitVec.ofNat 8 pad) ++ masked := by
    rw [← hbuffer, List.drop_left]
  have hblen : buffer.length = front.length + pad + masked.length := by
    rw [← hbuffer, List.length_append, List.length_append, List.length_replicate]
    omega
  have hlast : (index buffer (front.length + pad - 1) : Exec IoError Byte) =
      .ok (BitVec.ofNat 8 pad) := by
    apply index_eq_of_getElem?
    rw [← hbuffer, List.getElem?_append_right (by omega),
      List.getElem?_append_left (by rw [List.length_replicate]; omega),
      List.getElem?_replicate, if_pos (by omega)]
  have hslice : (slice buffer front.length (front.length + pad) : Exec IoError (List Byte)) =
      .ok (List.replicate pad (BitVec.ofNat 8 pad)) :=
    slice_of_drop hdrop (by rw [List.length_replicate]) (by omega)
  have hsame : (List.replicate pad (BitVec.ofNat 8 pad)).any (fun byte => byte.toNat != pad) =
      false := by
    rw [List.any_eq_false]
    intro byte hmem
    rw [List.eq_of_mem_replicate hmem, hbyte]
    simp
  have hmoved : (slice buffer (front.length + pad) buffer.length : Exec IoError (List Byte)) =
      .ok masked := by
    have htail : buffer.drop (front.length + pad) = masked ++ [] := by
      rw [List.append_nil]
      exact drop_of_drop_eq hdrop (by rw [List.length_replicate])
    exact slice_of_drop htail (by omega) (by omega)
  -- `copy_within` leaves the last bytes of the buffer standing behind the moved suffix.
  have hcopy : splice buffer front.length masked =
      front ++ (masked ++ buffer.drop (front.length + masked.length)) := by
    rw [splice, ← hbuffer, List.take_left, List.append_assoc]
  have hrest : (slice (splice buffer front.length masked) front.length
      (front.length + suffix.length) : Exec IoError (List Byte)) = .ok masked := by
    refine slice_of_drop (r := buffer.drop (front.length + masked.length)) ?_ (by omega) ?_
    · rw [hcopy, List.drop_left]
    · rw [hcopy, List.length_append]
      omega
  refine ⟨buffer.drop (front.length + masked.length), ?_, ?_⟩
  · rw [List.length_drop]
    omega
  · unfold removePadding
    rw [sub_eq (by omega), ok_bind, hlast, ok_bind]
    simp only [hbyte]
    rw [if_neg (by omega), sub_eq (by omega), ok_bind, if_neg (by omega), hslice, ok_bind, hsame,
      if_neg (by decide), hmoved, ok_bind, sub_eq (by omega), ok_bind, if_neg (by omega), hrest,
      ok_bind, ← hmasked, xorMask_cancel, hmasked, hcopy, splice_append rfl hlen]
    rfl

lemma legacy_tail (hE : E.Lawful z C) (cid : BitVec 16) (params : Vector Byte 64)
    (nameHash outputHash : Vector Byte 16) (tail : List Byte) :
    ∃ enc junk, Generate.encryptLegacy E cid params nameHash outputHash tail = .ok enc ∧
      enc.length = tail.length + junk.length ∧ junk.length ≤ 16 ∧
      decryptLegacyTail C cid params nameHash outputHash enc tail.length = .ok (tail ++ junk) := by
  obtain ⟨key, iv, mask, hmaterial, hencrypt⟩ :=
    legacy_material (E := E) cid params nameHash outputHash
  specialize hencrypt tail
  -- The prefix is padded even when it fills its blocks, so `pad` is never 0.
  generalize hlength : min tail.length 1024 = length at hencrypt
  generalize hpad : 16 - length % 16 = pad at hencrypt
  have hlen : (tail.take length).length = length := by
    rw [List.length_take]
    omega
  have hdata : (tail.take length ++ List.replicate pad (BitVec.ofNat 8 pad)).length =
      (length / 16 + 1) * 16 := by
    rw [List.length_append, hlen, List.length_replicate]
    omega
  obtain ⟨r, haes, hr, hdec⟩ := aesCbc_cancel hE
    (tail.take length ++ List.replicate pad (BitVec.ofNat 8 pad)) key iv (by omega)
  obtain ⟨junk, hjunk, hremove⟩ := removePadding_ok mask (tail.take length) (tail.drop length)
    (show 1 ≤ pad by omega) (by omega)
  have hrlen : (length / 16 + 1) * 16 = r.length := by omega
  refine ⟨r ++ xorMask mask (tail.drop length), junk, ?_, ?_, by omega, ?_⟩
  · rw [hencrypt, haes, ok_bind]
  · rw [List.length_append, length_xorMask, List.length_drop]
    omega
  · have hslice : (slice (r ++ xorMask mask (tail.drop length)) 0 r.length :
        Exec IoError (List Byte)) = .ok r :=
      slice_front _ rfl
    rw [hlen, List.length_drop] at hremove
    have hsum : length + pad = r.length := by omega
    have htotal : length + (tail.length - length) = tail.length := by omega
    rw [hsum, htotal] at hremove
    unfold decryptLegacyTail
    simp only [hlength, hrlen, List.length_append, length_xorMask, List.length_drop]
    rw [if_neg (by omega), sub_eq (by omega), ok_bind, sub_eq (by omega), ok_bind,
      if_neg (by omega), hmaterial, ok_bind]
    simp only [hslice, ok_bind, hdec, lift_ok]
    rw [splice_front _ hr, List.append_assoc, hremove, ← List.append_assoc, List.take_append_drop]

/-! ## Cipher 1 -/

lemma chamUnchain_chain (m previous block : Vector Byte 16) :
    chamUnchain m previous (Generate.chamChain m previous block) = block := by
  apply Vector.ext
  intro i hi
  have hturn : (⟨i, hi⟩ : Fin 16) + 12 + 4 = ⟨i, hi⟩ := by
    apply Fin.ext
    simp only [Fin.val_add]
    omega
  have hcancel : ∀ b p n : Byte, b ^^^ p ^^^ n ^^^ n ^^^ p = b := by
    intro b p n
    rw [BitVec.xor_assoc (b ^^^ p), BitVec.xor_self, BitVec.xor_zero, BitVec.xor_assoc,
      BitVec.xor_self, BitVec.xor_zero]
  simp only [chamUnchain, Generate.chamChain, Vector.getElem_ofFn, xorBlocks, Fin.getElem_fin,
    Vector.getElem_zipWith, hturn, Fin.eta, hcancel]

/-- The bytes behind the last full block are masked by the same XOR on both sides. -/
lemma rest_cancel (m previous : Vector Byte 16) (rest : List Byte) (h : rest.length ≤ 16) :
    (((rest.zip (m.toList.zip previous.toList)).map fun (a, b, c) => a ^^^ b ^^^ c).zipIdx.mapM
      fun (value, i) => do
        let name ← index m.toList i
        let chained ← index previous.toList i
        return value ^^^ (name ^^^ chained) : Exec Empty (List Byte)) = .ok rest := by
  -- The induction is on the bytes, with `k` the index of the first one in both masks.
  have hall : ∀ (l : List Byte) (a b : List Byte) (k : ℕ), k + l.length ≤ a.length →
      a.length = b.length →
      (((l.zip ((a.zip b).drop k)).map fun (x, n, c) => x ^^^ n ^^^ c).zipIdx k).mapM
        (fun (value, i) => do
          let name ← index a i
          let chained ← index b i
          return value ^^^ (name ^^^ chained) : Byte × ℕ → Exec Empty Byte) = .ok l := by
    intro l a b k hk hab
    induction l generalizing k with
    | nil => rfl
    | cons x l ih =>
      rw [List.length_cons] at hk
      have hlen : k < (a.zip b).length := by
        rw [List.length_zip]
        omega
      have hcancel : ∀ n c : Byte, x ^^^ n ^^^ c ^^^ (n ^^^ c) = x := by
        intro n c
        rw [BitVec.xor_assoc x, BitVec.xor_assoc, BitVec.xor_self, BitVec.xor_zero]
      rw [List.drop_eq_getElem_cons hlen, List.zip_cons_cons, List.map_cons, List.zipIdx_cons,
        List.mapM_cons, List.getElem_zip, ih (k + 1) (by omega)]
      simp only [index_eq (show k < a.length by omega), index_eq (show k < b.length by omega),
        ok_bind, hcancel]
      rfl
  have hrest := hall rest m.toList previous.toList 0 (by simpa using h) (by simp)
  rwa [List.drop_zero] at hrest

/-- The chain over the full blocks, and the bytes left behind them. -/
lemma chain_cancel (m outputHash : Vector Byte 16) (tail : List Byte) {full : ℕ}
    (hfull : tail.length / 16 * 16 = full) :
    ∃ r previous masked,
      (mapChunks (fun previous block =>
          (Generate.chamChain m previous block, Generate.chamChain m previous block)) (full / 16)
          outputHash (tail.take full) : Exec Empty (List Byte × Vector Byte 16)) =
        .ok (r, previous) ∧
      ((tail.drop full).zip (m.toList.zip previous.toList)).map (fun (a, b, c) => a ^^^ b ^^^ c) =
        masked ∧
      r.length = full ∧ masked.length = tail.length - full ∧
      (mapChunks (fun previous original => (chamUnchain m previous original, original)) (full / 16)
          outputHash r : Exec Empty (List Byte × Vector Byte 16)) =
        .ok (tail.take full, previous) ∧
      (masked.zipIdx.mapM fun (value, i) => do
        let name ← index m.toList i
        let chained ← index previous.toList i
        return value ^^^ (name ^^^ chained) : Exec Empty (List Byte)) = .ok (tail.drop full) := by
  obtain ⟨r, previous, henc, hr, hdec⟩ := mapChunks_cancel (ε := Empty)
    (f := fun previous block =>
      (Generate.chamChain m previous block, Generate.chamChain m previous block))
    (g := fun previous original => (chamUnchain m previous original, original))
    (fun s block => by simp only [chamUnchain_chain]) (full / 16) outputHash
    (l := tail.take full) (by rw [List.length_take]; omega)
  rw [List.length_take, Nat.min_eq_left (by omega)] at hr
  refine ⟨r, previous, _, henc, rfl, hr, ?_, hdec,
    rest_cancel m previous (tail.drop full) (by rw [List.length_drop]; omega)⟩
  rw [List.length_map, List.length_zip, List.length_zip, List.length_drop, Vector.length_toList,
    Vector.length_toList]
  omega

lemma cham_tail (params : Vector Byte 64) (name : List Byte) (outSize : BitVec 32)
    (outputHash : Vector Byte 16) (tail : List Byte) :
    ∃ enc, Generate.encryptCham C params name outSize.toNat outputHash tail = .ok enc ∧
      enc.length = tail.length ∧
      decryptChamTail C params (Protected.seededFilenameHash C name outSize) outputHash enc =
        .ok tail := by
  have hm : wordBytes 16 (C.xxh3_128WithSeed name (BitVec.ofNat 64 outSize.toNat)) =
      Protected.seededFilenameHash C name outSize := by
    rw [Protected.seededFilenameHash, BitVec.ofNat_toNat]
  generalize Protected.seededFilenameHash C name outSize = m at hm
  obtain ⟨high, hhigh⟩ := subarray_vector m 8 16 (by decide) (by decide)
  have hmaterial : (slice params.toList 0 60 : Exec Empty (List Byte)) =
      .ok (params.toList.take 60) := by
    rw [slice_eq (by decide) (by simp), List.drop_zero]
  generalize hkeys : Ciphers.chamKeys (wordBytes 16 (C.xxh3_128WithSeed (params.toList.take 60)
    (BitVec.ofNat 64 (leNat high.toList)))) = keys
  generalize hfull : tail.length / 16 * 16 = full
  generalize hn : min 1024 full / 16 = n
  have hsize : min full 1024 = n * 16 := by omega
  obtain ⟨r, previous, masked, henc, hmasked, hr, hmlen, hdec, hrest⟩ :=
    chain_cancel m outputHash tail hfull
  have hdlen : (r ++ masked).length = tail.length := by
    rw [List.length_append]
    omega
  -- The first of the chained blocks go through CHAM.
  obtain ⟨x, last, hx, hcham, huncham⟩ := cbc_cancel
    (fun block => Generate.chamEncrypt block keys) (chamBlock_encrypt keys) n outputHash
    (r ++ masked) (by omega)
  generalize hdata : r ++ masked = data at hdlen hcham huncham
  obtain ⟨hxlen, hslice, hrestore⟩ := restore_front (ε := Empty) (l := data) hx (by omega)
  rw [hdlen] at hxlen
  have hfront : (tail.take full).length = full := by
    rw [List.length_take]
    omega
  refine ⟨x ++ data.drop (n * 16), ?_, hxlen, ?_⟩
  · unfold Generate.encryptCham
    simp only [hm, hhigh, ok_bind, Generate.chamKeys_eq, hkeys, hfull, henc, hmasked, hdata, hn,
      hcham]
    rfl
  · -- Behind CHAM the buffer holds the chained blocks, then the blocks themselves.
    have hblocks : (slice data 0 full : Exec Empty (List Byte)) = .ok r := by
      rw [← hdata]
      exact slice_front _ hr
    have hback : splice data 0 (tail.take full) = tail.take full ++ masked := by
      rw [← hdata]
      exact splice_front _ (hr.trans hfront.symm)
    have hbehind : (slice (tail.take full ++ masked) full tail.length : Exec Empty (List Byte)) =
        .ok masked := slice_back _ hfront (by omega)
    have hlast : splice (tail.take full ++ masked) full (tail.drop full) = tail := by
      rw [splice_back hfront.symm (by rw [List.length_drop]; exact hmlen), List.take_append_drop]
    have htotal : (tail.take full ++ masked).length = tail.length := by
      rw [List.length_append, hfront]
      omega
    unfold decryptChamTail
    simp only [hhigh, hmaterial, ok_bind, hkeys, hxlen, hfull, hsize, hslice, chamCbcDecrypt,
      huncham, hrestore, hblocks, hr, hdec, hback, htotal, hbehind, hrest, hlast]
    rfl

end Grf
end RemoteClient

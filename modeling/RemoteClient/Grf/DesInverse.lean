/-
# Encrypting undoes decrypting

The two bit permutations are mutually inverse because their tables are; the round function
is an involution because the half it changes does not enter the mask it is changed by; the
byte shuffle is a permutation of seven places and a substitution that swaps pairs.  The
loops of mode 0 visit the same blocks in both directions, since the running counter never
looks at the bytes: `schedule` is that list of blocks, and `mixed_eq` says that a mode works
through it.  `decodeFull_encodeFull` and `decodeHeader_decodeHeader` are the results, and
`modes_bijective` puts them together with what the modes leave alone.
-/
import RemoteClient.Grf.Des
import Mathlib.Tactic.FinCases

namespace RemoteClient
namespace Des

open Exec BitTable Blocks

/-! ## The bit permutations -/

lemma bit_permuteBits (table : Vector ℕ 64) (b : Block) {k : ℕ} (hk : k < 64) :
    bit (permuteBits table 0 b) k = bit b (table[k] - 1) := by
  have hgather := bit_gather (p := fun k => bit b (table[k] - 1)) hk
  simpa [permuteBits] using hgather

lemma initial_final_table : ∀ k : Fin 64,
    finalPermutationTable[k] - 1 < 64 ∧
      initialPermutationTable.toList[finalPermutationTable[k] - 1]? = some (k.val + 1) := by
  decide

lemma final_initial_table : ∀ k : Fin 64,
    initialPermutationTable[k] - 1 < 64 ∧
      finalPermutationTable.toList[initialPermutationTable[k] - 1]? = some (k.val + 1) := by
  decide

/-- A permutation by a table undoes the permutation by its inverse table. -/
lemma permuteBits_permuteBits {s t : Vector ℕ 64}
    (h : ∀ k : Fin 64, s[k] - 1 < 64 ∧ t.toList[s[k] - 1]? = some (k.val + 1)) (b : Block) :
    permuteBits s 0 (permuteBits t 0 b) = b := by
  apply ext_bit
  intro k hk
  obtain ⟨hlt, ht⟩ := h ⟨k, hk⟩
  have hlt' : s[k] - 1 < 64 := hlt
  have ht' : t[s[k] - 1] = k + 1 := by
    have hsome : t.toList[s[k] - 1]? = some (k + 1) := ht
    rw [List.getElem?_eq_some_iff] at hsome
    obtain ⟨_, hget⟩ := hsome
    simpa using hget
  rw [bit_permuteBits s _ hk, bit_permuteBits t _ hlt', ht', Nat.add_sub_cancel]

lemma initialPermutation_finalPermutation (b : Block) :
    initialPermutation (finalPermutation b) = b :=
  permuteBits_permuteBits final_initial_table b

lemma finalPermutation_initialPermutation (b : Block) :
    finalPermutation (initialPermutation b) = b :=
  permuteBits_permuteBits initial_final_table b

/-! ## The round -/

lemma and_mask_lt : ∀ x : Byte, (x &&& 0x3f).toNat < 64 := by decide

/-- The expansion makes six-bit bytes, so the S-boxes are never indexed out of range. -/
lemma expansion_lt (s : Block) (k : Fin 8) : ((expansion s).get k).toNat < 64 := by
  fin_cases k <;> exact and_mask_lt _

lemma substitute_ok (i : Fin 4) {x : Byte} (hx : x.toNat < 64) :
    ∃ y, substitute i x = .ok y := by
  rw [substitute, index_eq (by simpa using hx)]
  exact ⟨_, rfl⟩

lemma substitutionBox_ok {s : Block} (hs : ∀ k : Fin 8, (s.get k).toNat < 64) :
    ∃ t, substitutionBox s = .ok t := by
  apply foldlM_ok
  intro i _ tmp
  obtain ⟨high, hhigh⟩ := substitute_ok i (hs ⟨i.val * 2, by omega⟩)
  obtain ⟨low, hlow⟩ := substitute_ok i (hs ⟨i.val * 2 + 1, by omega⟩)
  have hhigh' : substitute i s[i.val * 2] = .ok high := hhigh
  have hlow' : substitute i s[i.val * 2 + 1] = .ok low := hlow
  rw [hhigh', ok_bind, hlow', ok_bind]
  exact ⟨_, rfl⟩

/-- The round changes the first half by a mask of the second one, so a second round
changes it back. -/
lemma roundFunction_involutive (b : Block) :
    ∃ c, roundFunction b = .ok c ∧ roundFunction c = .ok b := by
  obtain ⟨m, hm⟩ := substitutionBox_ok (expansion_lt b)
  let t := transposition m
  let c : Block := #v[b[0] ^^^ t[4], b[1] ^^^ t[5], b[2] ^^^ t[6], b[3] ^^^ t[7],
    b[4], b[5], b[6], b[7]]
  have hexp : expansion c = expansion b := expansion_congr rfl rfl rfl rfl
  refine ⟨c, ?_, ?_⟩
  · rw [roundFunction, hm]
    rfl
  · rw [roundFunction, hexp, hm, ok_bind]
    have hback : ∀ x y : Byte, x ^^^ y ^^^ y = x := fun x y => by
      rw [BitVec.xor_assoc, BitVec.xor_self, BitVec.xor_zero]
    refine congrArg Except.ok (Vector.ext ?_)
    intro i hi
    have hcase : i = 0 ∨ i = 1 ∨ i = 2 ∨ i = 3 ∨ i = 4 ∨ i = 5 ∨ i = 6 ∨ i = 7 := by omega
    rcases hcase with rfl | rfl | rfl | rfl | rfl | rfl | rfl | rfl
    · exact hback b[0] t[4]
    · exact hback b[1] t[5]
    · exact hback b[2] t[6]
    · exact hback b[3] t[7]
    · rfl
    · rfl
    · rfl
    · rfl

lemma cipherBlock_involutive (b : Block) :
    ∃ c, cipherBlock b = .ok c ∧ cipherBlock c = .ok b := by
  obtain ⟨r, hr, hback⟩ := roundFunction_involutive (initialPermutation b)
  refine ⟨finalPermutation r, ?_, ?_⟩
  · rw [cipherBlock, hr]
    rfl
  · rw [cipherBlock, initialPermutation_finalPermutation, hback]
    exact congrArg Except.ok (finalPermutation_initialPermutation b)

/-- The transform of one block, which never stops. -/
def cipher (b : Block) : Block := (cipherBlock b).toOption.getD b

lemma cipherBlock_eq (b : Block) : cipherBlock b = .ok (cipher b) := by
  obtain ⟨c, hc, -⟩ := cipherBlock_involutive b
  rw [cipher, hc]
  rfl

lemma cipher_cipher (b : Block) : cipher (cipher b) = b := by
  obtain ⟨c, hc, hback⟩ := cipherBlock_involutive b
  have hcb : cipher b = c := by rw [cipher, hc]; rfl
  rw [hcb, cipher, hback]
  rfl

/-! ## The shuffle -/

/-- What the table does to a byte, read off the pairs it swaps. -/
def swapPairs (x : Byte) : Byte :=
  (List.finRange 7).foldl
    (fun y i =>
      let a := shuffleList[i.val * 2]
      let b := shuffleList[i.val * 2 + 1]
      if x = a then b else if x = b then a else y)
    x

lemma swapPairs_involutive : ∀ x : Byte, swapPairs (swapPairs x) = x := by
  decide +kernel

/-- The table is written out once, for all its bytes together. -/
lemma shuffleDecTable_toList :
    shuffleDecTable.toList = (List.finRange 256).map fun i => swapPairs (BitVec.ofFin i) := by
  decide +kernel

lemma shuffleDecTable_get (x : Byte) : shuffleDecTable.get x.toFin = swapPairs x := by
  have hlist : shuffleDecTable.toList[x.toNat]? = some (swapPairs x) := by
    rw [shuffleDecTable_toList, List.getElem?_map, List.getElem?_eq_getElem (by simp [x.isLt])]
    simp
  obtain ⟨hlt, hget⟩ := List.getElem?_eq_some_iff.mp hlist
  rw [Vector.getElem_toList] at hget
  exact hget

lemma shuffleDecTable_involutive (x : Byte) :
    shuffleDecTable.get (shuffleDecTable.get x.toFin).toFin = x := by
  rw [shuffleDecTable_get, shuffleDecTable_get, swapPairs_involutive]

lemma unshuffle_reshuffle (s : Block) :
    unshuffle shuffleDecTable (reshuffle shuffleDecTable s) = s := by
  have hback := shuffleDecTable_involutive s[7]
  rw [unshuffle_eq, reshuffle_eq]
  generalize shuffleDecTable = table at hback ⊢
  apply Vector.ext
  intro i hi
  have hcase : i = 0 ∨ i = 1 ∨ i = 2 ∨ i = 3 ∨ i = 4 ∨ i = 5 ∨ i = 6 ∨ i = 7 := by omega
  rcases hcase with rfl | rfl | rfl | rfl | rfl | rfl | rfl | rfl
  on_goal 8 => exact hback
  all_goals rfl

lemma reshuffle_unshuffle (s : Block) :
    reshuffle shuffleDecTable (unshuffle shuffleDecTable s) = s := by
  have hback := shuffleDecTable_involutive s[7]
  rw [reshuffle_eq, unshuffle_eq]
  generalize shuffleDecTable = table at hback ⊢
  apply Vector.ext
  intro i hi
  have hcase : i = 0 ∨ i = 1 ∨ i = 2 ∨ i = 3 ∨ i = 4 ∨ i = 5 ∨ i = 6 ∨ i = 7 := by omega
  rcases hcase with rfl | rfl | rfl | rfl | rfl | rfl | rfl | rfl
  on_goal 8 => exact hback
  all_goals rfl

/-! ## The schedule -/

/-- What mode 0 does to a block it visits. -/
inductive BlockOp where
  | cipher
  | shuffle
deriving DecidableEq, Repr

/-- The blocks the second loop of mode 0 visits, from the running counter `j` on. -/
def mixedSchedule (cycle : ℕ) : ℤ → List ℕ → List (ℕ × BlockOp)
  | _, [] => []
  | j, i :: is =>
    if i % cycle = 0 then (i, .cipher) :: mixedSchedule cycle j is
    else if j + 1 ≠ 0 ∧ (j + 1) % 7 = 0 then (i, .shuffle) :: mixedSchedule cycle (j + 1) is
    else mixedSchedule cycle (j + 1) is

/-- The blocks both modes begin with. -/
def leadSchedule (nblocks : ℕ) : List (ℕ × BlockOp) :=
  (List.range (min 20 nblocks)).map fun i => (i, .cipher)

/-- The blocks mode 0 visits, in order. -/
def schedule (nblocks : ℕ) (entryLength : BitVec 32) : List (ℕ × BlockOp) :=
  leadSchedule nblocks ++
    mixedSchedule (cycleFor entryLength) (-1) (List.range' 20 (nblocks - 20))

lemma mixedSchedule_sublist (cycle : ℕ) (j : ℤ) (is : List ℕ) :
    ((mixedSchedule cycle j is).map Prod.fst).Sublist is := by
  induction is generalizing j with
  | nil => exact List.Sublist.slnil
  | cons i is ih =>
    unfold mixedSchedule
    split
    · exact (ih j).cons_cons i
    · split
      · exact (ih (j + 1)).cons_cons i
      · exact (ih (j + 1)).cons i

/-- The schedule visits no block twice. -/
lemma schedule_nodup (nblocks : ℕ) (entryLength : BitVec 32) :
    ((schedule nblocks entryLength).map Prod.fst).Nodup := by
  rw [schedule, List.map_append, List.nodup_append]
  refine ⟨?_, ?_, ?_⟩
  · have hfst : (leadSchedule nblocks).map Prod.fst = List.range (min 20 nblocks) := by
      simp [leadSchedule, Function.comp_def]
    rw [hfst]
    exact List.nodup_range
  · exact (mixedSchedule_sublist _ _ _).nodup (List.nodup_range' _)
  · intro a ha b hb
    obtain ⟨x, hx, rfl⟩ := List.mem_map.mp ha
    obtain ⟨i, hi, rfl⟩ := List.mem_map.mp hx
    have hlt := List.mem_range.mp hi
    have hge := List.mem_range'_1.mp ((mixedSchedule_sublist _ _ _).subset hb)
    simp only
    omega

/-! ## The loops work through the schedule -/

/-- What a visit does to a block, given the shuffle of the direction. -/
def applyOp (shuf : Block → Block) : BlockOp → Block → Block
  | .cipher => cipher
  | .shuffle => shuf

/-- Work through a list of visits. -/
def runSchedule (shuf : Block → Block) (ops : List (ℕ × BlockOp)) (bs : List Block) : List Block :=
  ops.foldl (fun bs x => bs.modify x.1 (applyOp shuf x.2)) bs

lemma length_runSchedule (shuf : Block → Block) (ops : List (ℕ × BlockOp)) (bs : List Block) :
    (runSchedule shuf ops bs).length = bs.length :=
  length_foldl_modify ops bs

lemma runSchedule_append (shuf : Block → Block) (ops ops' : List (ℕ × BlockOp))
    (bs : List Block) :
    runSchedule shuf (ops ++ ops') bs = runSchedule shuf ops' (runSchedule shuf ops bs) :=
  List.foldl_append

lemma updateBlock_flat {f : Block → Exec Empty Block} {g : Block → Block}
    (hfg : ∀ b, f b = .ok (g b)) {bs : List Block} {i : ℕ} (t : List Byte) (hi : i < bs.length) :
    updateBlock f (flat bs ++ t) (i * 8) = .ok (flat (bs.modify i g) ++ t) := by
  have hset : bs.modify i g = bs.set i (g bs[i]) := by
    rw [List.modify_eq_set_getElem?, List.getElem?_eq_getElem hi]
    rfl
  unfold updateBlock
  rw [slice_flat hi rfl rfl, ok_bind, toArray_toList, ok_bind, hfg, ok_bind, hset]
  exact congrArg Except.ok (splice_flat _ hi rfl)

lemma decryptBlock_flat {bs : List Block} {i : ℕ} (t : List Byte) (hi : i < bs.length) :
    decryptBlock (flat bs ++ t) (i * 8) = .ok (flat (bs.modify i cipher) ++ t) :=
  updateBlock_flat cipherBlock_eq t hi

lemma leadBlocks_flat {nblocks : ℕ} {bs : List Block} (t : List Byte) (h : nblocks ≤ bs.length)
    (shuf : Block → Block) :
    leadBlocks nblocks (flat bs ++ t) =
      .ok (flat (runSchedule shuf (leadSchedule nblocks) bs) ++ t) := by
  have hloop : ∀ is : List ℕ, (∀ i ∈ is, i < bs.length) → ∀ cs : List Block,
      cs.length = bs.length →
      is.foldlM (fun src i => decryptBlock src (i * 8)) (flat cs ++ t) =
        .ok (flat (runSchedule shuf (is.map fun i => (i, .cipher)) cs) ++ t) := by
    intro is his
    induction is with
    | nil => intro cs _; rfl
    | cons i is ih =>
      intro cs hcs
      have hi : i < cs.length := by rw [hcs]; exact his i (by simp)
      rw [List.foldlM_cons, decryptBlock_flat t hi, ok_bind,
        ih (fun i' hi' => his i' (by simp [hi'])) _ (by rw [List.length_modify, hcs])]
      rfl
  refine hloop _ (fun i hi => ?_) bs rfl
  have := List.mem_range.mp hi
  omega

/-- The second loop of mode 0, in the direction whose shuffle is `shuf`. -/
lemma mixedLoop_flat {shuffle : List Byte → ℕ → Vector Byte 256 → Exec Empty (List Byte)}
    {shuf : Block → Block}
    (hshuf : ∀ (bs : List Block) (t : List Byte) (i : ℕ), i < bs.length →
      shuffle (flat bs ++ t) (i * 8) shuffleDecTable = .ok (flat (bs.modify i shuf) ++ t))
    (cycle : ℕ) (t : List Byte) (is : List ℕ) {bs : List Block} (his : ∀ i ∈ is, i < bs.length)
    (j : ℤ) :
    ∃ j', is.foldlM (mixedStep shuffle cycle) (flat bs ++ t, j) =
      .ok (flat (runSchedule shuf (mixedSchedule cycle j is) bs) ++ t, j') := by
  induction is generalizing bs j with
  | nil => exact ⟨j, rfl⟩
  | cons i is ih =>
    have hi : i < bs.length := his i (by simp)
    have his' : ∀ g : Block → Block, ∀ i' ∈ is, i' < (bs.modify i g).length := fun g i' hi' => by
      rw [List.length_modify]; exact his i' (by simp [hi'])
    rw [List.foldlM_cons]
    unfold mixedStep mixedSchedule
    by_cases hcycle : i % cycle = 0
    · simp only [if_pos hcycle, decryptBlock_flat t hi, ok_bind]
      exact ih (his' cipher) j
    · by_cases hseven : j + 1 ≠ 0 ∧ (j + 1) % 7 = 0
      · simp only [if_neg hcycle, if_pos hseven, hshuf bs t i hi, ok_bind]
        exact ih (his' shuf) (j + 1)
      · simp only [if_neg hcycle, if_neg hseven, ok_bind]
        exact ih (fun i' hi' => his i' (by simp [hi'])) (j + 1)

/-- Mode 0 works through its schedule. -/
lemma mixed_eq {shuffle : List Byte → ℕ → Vector Byte 256 → Exec Empty (List Byte)}
    {shuf : Block → Block}
    (hshuf : ∀ (bs : List Block) (t : List Byte) (i : ℕ), i < bs.length →
      shuffle (flat bs ++ t) (i * 8) shuffleDecTable = .ok (flat (bs.modify i shuf) ++ t))
    {bs : List Block} (t : List Byte) {length nblocks : ℕ} (entryLength : BitVec 32)
    (hn : blockCount (flat bs ++ t) length = nblocks) (h : nblocks ≤ bs.length) :
    mixed shuffle (flat bs ++ t) length entryLength =
      .ok (flat (runSchedule shuf (schedule nblocks entryLength) bs) ++ t) := by
  have hrange : ∀ i ∈ List.range' 20 (nblocks - 20),
      i < (runSchedule shuf (leadSchedule nblocks) bs).length := by
    intro i hi
    have := List.mem_range'_1.mp hi
    rw [length_runSchedule]
    omega
  obtain ⟨j', hj'⟩ := mixedLoop_flat hshuf (cycleFor entryLength) t
    (List.range' 20 (nblocks - 20)) hrange (-1)
  unfold mixed
  simp only [hn, leadBlocks_flat t h shuf, ok_bind, hj']
  rw [schedule, runSchedule_append]
  rfl

/-! ## Both modes -/

lemma blockCount_le (src : List Byte) (length : ℕ) : blockCount src length * 8 ≤ src.length := by
  unfold blockCount
  rw [Nat.shiftRight_eq_div_pow]
  omega

lemma blockCount_congr {a b : List Byte} (h : a.length = b.length) (length : ℕ) :
    blockCount a length = blockCount b length := by
  unfold blockCount; rw [h]

lemma shuffleDec_flat (bs : List Block) (t : List Byte) (i : ℕ) (hi : i < bs.length) :
    shuffleDec (flat bs ++ t) (i * 8) shuffleDecTable =
      .ok (flat (bs.modify i (unshuffle shuffleDecTable)) ++ t) :=
  updateBlock_flat (fun _ => rfl) t hi

lemma shuffleEnc_flat (bs : List Block) (t : List Byte) (i : ℕ) (hi : i < bs.length) :
    shuffleEnc (flat bs ++ t) (i * 8) shuffleDecTable =
      .ok (flat (bs.modify i (reshuffle shuffleDecTable)) ++ t) :=
  updateBlock_flat (fun _ => rfl) t hi

/-- Mode 0 decrypts every buffer, and keeps its length. -/
lemma decodeFull_ok (src : List Byte) (length : ℕ) (entryLength : BitVec 32) :
    ∃ out, decodeFull src length entryLength = .ok out ∧ out.length = src.length := by
  obtain ⟨bs, t, hsrc, hbs⟩ := exists_flat (w := 8) src (blockCount_le src length)
  have hdec := mixed_eq shuffleDec_flat t entryLength (by rw [← hsrc]) hbs.ge
  rw [← hsrc] at hdec
  refine ⟨_, hdec, ?_⟩
  rw [List.length_append, length_flat, length_runSchedule, hsrc, List.length_append, length_flat]

/-- A direction of mode 0 is undone by the direction whose shuffle undoes its shuffle: the
two work through the same schedule, which visits no block twice. -/
lemma mixed_cancel {shuffle shuffle' : List Byte → ℕ → Vector Byte 256 → Exec Empty (List Byte)}
    {f g : Block → Block}
    (hf : ∀ (bs : List Block) (t : List Byte) (i : ℕ), i < bs.length →
      shuffle (flat bs ++ t) (i * 8) shuffleDecTable = .ok (flat (bs.modify i f) ++ t))
    (hg : ∀ (bs : List Block) (t : List Byte) (i : ℕ), i < bs.length →
      shuffle' (flat bs ++ t) (i * 8) shuffleDecTable = .ok (flat (bs.modify i g) ++ t))
    (hgf : ∀ b, g (f b) = b) (src : List Byte) (length : ℕ) (entryLength : BitVec 32) :
    ∃ out, mixed shuffle src length entryLength = .ok out ∧ out.length = src.length ∧
      mixed shuffle' out length entryLength = .ok src := by
  obtain ⟨bs, t, hsrc, hbs⟩ := exists_flat (w := 8) src (blockCount_le src length)
  let ops := schedule (blockCount src length) entryLength
  let cs := runSchedule f ops bs
  have hcs : cs.length = bs.length := length_runSchedule _ _ _
  have hlen : (flat cs ++ t).length = src.length := by
    rw [hsrc, List.length_append, List.length_append, length_flat, length_flat, hcs]
  have hback : runSchedule g ops cs = bs := by
    refine foldl_modify_cancel (schedule_nodup _ _) ?_ bs
    rintro ⟨i, op⟩ - b
    cases op with
    | cipher => exact cipher_cipher b
    | shuffle => exact hgf b
  refine ⟨flat cs ++ t, ?_, hlen, ?_⟩
  · conv_lhs => rw [hsrc]
    exact mixed_eq hf t entryLength (by rw [← hsrc]) hbs.ge
  · have hdec := mixed_eq hg t entryLength (blockCount_congr hlen length) (hbs.ge.trans hcs.ge)
    rw [hdec]
    change Except.ok (flat (runSchedule g ops cs) ++ t) = _
    rw [hback, ← hsrc]

/-- **Mode 0 decrypts what it encrypted**, for every buffer, length and entry length. -/
theorem decodeFull_encodeFull (src : List Byte) (length : ℕ) (entryLength : BitVec 32) :
    ∃ enc, encodeFull src length entryLength = .ok enc ∧ enc.length = src.length ∧
      decodeFull enc length entryLength = .ok src :=
  mixed_cancel shuffleEnc_flat shuffleDec_flat unshuffle_reshuffle src length entryLength

/-- Mode 0 encrypts what it decrypted. -/
theorem encodeFull_decodeFull (src : List Byte) (length : ℕ) (entryLength : BitVec 32) :
    ∃ dec, decodeFull src length entryLength = .ok dec ∧ dec.length = src.length ∧
      encodeFull dec length entryLength = .ok src :=
  mixed_cancel shuffleDec_flat shuffleEnc_flat reshuffle_unshuffle src length entryLength

/-- **Mode 1 is its own inverse**, for every buffer and length. -/
theorem decodeHeader_decodeHeader (src : List Byte) (length : ℕ) :
    ∃ enc, decodeHeader src length = .ok enc ∧ enc.length = src.length ∧
      decodeHeader enc length = .ok src := by
  obtain ⟨bs, t, hsrc, hbs⟩ := exists_flat (w := 8) src (blockCount_le src length)
  let ops := leadSchedule (blockCount src length)
  let cs := runSchedule id ops bs
  have hcs : cs.length = bs.length := length_runSchedule _ _ _
  have hlen : (flat cs ++ t).length = src.length := by
    rw [hsrc, List.length_append, List.length_append, length_flat, length_flat, hcs]
  have hnd : (ops.map Prod.fst).Nodup := by
    have happ := schedule_nodup (blockCount src length) 0
    rw [schedule, List.map_append] at happ
    exact (List.nodup_append.mp happ).1
  have hback : runSchedule id ops cs = bs := by
    refine foldl_modify_cancel hnd ?_ bs
    rintro ⟨i, op⟩ - b
    cases op with
    | cipher => exact cipher_cipher b
    | shuffle => rfl
  refine ⟨flat cs ++ t, ?_, hlen, ?_⟩
  · rw [decodeHeader]
    conv_lhs => arg 2; rw [hsrc]
    exact leadBlocks_flat t hbs.ge id
  · rw [decodeHeader, blockCount_congr hlen length, leadBlocks_flat t (by omega) id]
    change Except.ok (flat (runSchedule id ops cs) ++ t) = _
    rw [hback, ← hsrc]

/-! ## What the modes leave alone -/

lemma drop_flat (bs : List Block) (t : List Byte) {n : ℕ} (h : bs.length = n) :
    (flat bs ++ t).drop (n * 8) = t :=
  List.drop_left' (by rw [length_flat, h])

/-- Mode 0 keeps the length, and what lies behind the whole blocks. -/
lemma mixed_keeps {shuffle : List Byte → ℕ → Vector Byte 256 → Exec Empty (List Byte)}
    {shuf : Block → Block}
    (hshuf : ∀ (bs : List Block) (t : List Byte) (i : ℕ), i < bs.length →
      shuffle (flat bs ++ t) (i * 8) shuffleDecTable = .ok (flat (bs.modify i shuf) ++ t))
    {src out : List Byte} {length : ℕ} {entryLength : BitVec 32}
    (h : mixed shuffle src length entryLength = .ok out) :
    out.length = src.length ∧
      out.drop (blockCount src length * 8) = src.drop (blockCount src length * 8) := by
  obtain ⟨bs, t, hsrc, hbs⟩ := exists_flat (w := 8) src (blockCount_le src length)
  have hmixed := mixed_eq hshuf t entryLength (by rw [← hsrc]) hbs.ge
  rw [← hsrc, h] at hmixed
  obtain rfl := Except.ok.inj hmixed
  constructor
  · conv_rhs => rw [hsrc]
    simp only [List.length_append, length_flat, length_runSchedule]
  · have hrest : src.drop (blockCount src length * 8) = t := by
      conv_lhs => arg 2; rw [hsrc]
      exact drop_flat bs t hbs
    rw [hrest, drop_flat _ t (by rw [length_runSchedule, hbs])]

/-- The loop both modes begin with keeps the length, and what lies behind the first 20
blocks or behind the whole ones. -/
lemma leadBlocks_keeps {src out : List Byte} {nblocks : ℕ} (hn : nblocks * 8 ≤ src.length)
    (h : leadBlocks nblocks src = .ok out) :
    out.length = src.length ∧
      ∀ p, min 20 nblocks * 8 ≤ p → out.drop p = src.drop p := by
  obtain ⟨bs, t, hsrc, hbs⟩ := exists_flat (w := 8) (n := min 20 nblocks) src (by omega)
  have hmin : leadBlocks nblocks src = leadBlocks (min 20 nblocks) src := by
    rw [leadBlocks, leadBlocks, min_eq_right (min_le_left 20 nblocks)]
  have hlead := leadBlocks_flat t hbs.ge id
  rw [← hsrc, ← hmin, h] at hlead
  obtain rfl := Except.ok.inj hlead
  constructor
  · conv_rhs => rw [hsrc]
    simp only [List.length_append, length_flat, length_runSchedule]
  · intro p hp
    obtain ⟨k, rfl⟩ := Nat.exists_eq_add_of_le hp
    conv_rhs => rw [hsrc]
    rw [← List.drop_drop, ← List.drop_drop,
      drop_flat _ t (by rw [length_runSchedule, hbs]), drop_flat bs t hbs]

/-- What one of the three functions returns has the length of the buffer and its last bytes. -/
lemma modes_keep {src out : List Byte} {length : ℕ} {entryLength : BitVec 32}
    (h : encodeFull src length entryLength = .ok out ∨
      decodeFull src length entryLength = .ok out ∨ decodeHeader src length = .ok out) :
    out.length = src.length ∧
      out.drop (blockCount src length * 8) = src.drop (blockCount src length * 8) := by
  rcases h with henc | hdec | hheader
  · exact mixed_keeps shuffleEnc_flat henc
  · exact mixed_keeps shuffleDec_flat hdec
  · obtain ⟨hlen, hdrop⟩ := leadBlocks_keeps (blockCount_le src length) hheader
    exact ⟨hlen, hdrop _ (by omega)⟩

/-- **The mixed mode is a bijection.**  Each direction undoes the other and mode 1 undoes
itself; all keep what lies behind the whole blocks within `length`, mode 1 also what lies
behind byte 160; and all work through a schedule of distinct blocks that is computed from
lengths alone, never from the bytes. -/
theorem modes_bijective (b : List Byte) (length : ℕ) (entryLength : BitVec 32) :
    (∃ enc, encodeFull b length entryLength = .ok enc ∧
      decodeFull enc length entryLength = .ok b) ∧
    (∃ dec, decodeFull b length entryLength = .ok dec ∧
      encodeFull dec length entryLength = .ok b) ∧
    (∃ dec, decodeHeader b length = .ok dec ∧ decodeHeader dec length = .ok b) ∧
    (∀ out, encodeFull b length entryLength = .ok out ∨
        decodeFull b length entryLength = .ok out ∨ decodeHeader b length = .ok out →
      out.length = b.length ∧
        out.drop (min length b.length / 8 * 8) = b.drop (min length b.length / 8 * 8)) ∧
    (∀ out, decodeHeader b length = .ok out → out.drop 160 = b.drop 160) ∧
    (∃ (bs : List Block) (t : List Byte), b = flat bs ++ t ∧
      bs.length = min length b.length / 8 ∧
      encodeFull b length entryLength = .ok (flat (runSchedule (reshuffle shuffleDecTable)
        (schedule (min length b.length / 8) entryLength) bs) ++ t) ∧
      decodeFull b length entryLength = .ok (flat (runSchedule (unshuffle shuffleDecTable)
        (schedule (min length b.length / 8) entryLength) bs) ++ t) ∧
      decodeHeader b length = .ok (flat (runSchedule id
        (leadSchedule (min length b.length / 8)) bs) ++ t)) ∧
    ((schedule (min length b.length / 8) entryLength).map Prod.fst).Nodup := by
  have hcount : blockCount b length = min length b.length / 8 := by
    rw [blockCount, Nat.shiftRight_eq_div_pow]
  rw [← hcount]
  refine ⟨?_, ?_, ?_, ?_, ?_, ?_, schedule_nodup _ _⟩
  · obtain ⟨enc, henc, -, hdec⟩ := decodeFull_encodeFull b length entryLength
    exact ⟨enc, henc, hdec⟩
  · obtain ⟨dec, hdec, -, henc⟩ := encodeFull_decodeFull b length entryLength
    exact ⟨dec, hdec, henc⟩
  · obtain ⟨dec, hdec, -, hback⟩ := decodeHeader_decodeHeader b length
    exact ⟨dec, hdec, hback⟩
  · intro out hout
    exact modes_keep hout
  · intro out hout
    exact (leadBlocks_keeps (blockCount_le b length) hout).2 160 (by omega)
  · obtain ⟨bs, t, rfl, hbs⟩ := exists_flat (w := 8) b (blockCount_le b length)
    refine ⟨bs, t, rfl, hbs, ?_, ?_, ?_⟩
    · exact mixed_eq shuffleEnc_flat t entryLength rfl hbs.ge
    · exact mixed_eq shuffleDec_flat t entryLength rfl hbs.ge
    · exact leadBlocks_flat t hbs.ge id

end Des
end RemoteClient

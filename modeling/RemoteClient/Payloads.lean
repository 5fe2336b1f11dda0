/-
# What a batch carries

A batch sends files as texts in base64.  `base64Encode` takes three bytes as one number and cuts
it into four letters, which is the Base64 of the standard (`base64Encode_eq`); so a strict
decoder reads the file back, and reads it from no other text (`base64_decodes`).  Whatever a
batch holds for a path is the text of a file that was found for that path (`batch_decodes`).
-/
import RemoteClient.Lib.Base64
import RemoteClient.Routes

namespace RemoteClient

/-! ## The code's letters -/

lemma base64Alphabet_eq : ∀ (i : ℕ) (h : i < 64), base64Alphabet[i] = Base64.letter i := by decide

variable (x y z : Byte)

/-- Three bytes are one number of 24 bits, and its letters are the bits of the bytes. -/
lemma base64Chunk_full : base64Chunk [x, y, z] = Base64.full x y z := by
  have hx := x.isLt
  have hy := y.isLt
  have hz := z.isLt
  have hfirst : (x.toNat * 2 ^ 16 + y.toNat * 2 ^ 8 + z.toNat) / 2 ^ 18 % 64 = x.toNat / 4 := by
    omega
  have hsecond : (x.toNat * 2 ^ 16 + y.toNat * 2 ^ 8 + z.toNat) / 2 ^ 12 % 64 =
      x.toNat % 4 * 16 + y.toNat / 16 := by omega
  have hthird : (x.toNat * 2 ^ 16 + y.toNat * 2 ^ 8 + z.toNat) / 2 ^ 6 % 64 =
      y.toNat % 16 * 4 + z.toNat / 64 := by omega
  have hlast : (x.toNat * 2 ^ 16 + y.toNat * 2 ^ 8 + z.toNat) % 64 = z.toNat % 64 := by omega
  simp only [base64Chunk, List.headD_cons, List.getD_cons_succ, List.getD_cons_zero,
    List.length_cons, List.length_nil, base64Alphabet_eq, hfirst, hsecond, hthird, hlast,
    Base64.full]
  rfl

lemma base64Chunk_two : base64Chunk [x, y] = Base64.two x y := by
  have hx := x.isLt
  have hy := y.isLt
  have hfirst : (x.toNat * 2 ^ 16 + y.toNat * 2 ^ 8 + 0) / 2 ^ 18 % 64 = x.toNat / 4 := by omega
  have hsecond : (x.toNat * 2 ^ 16 + y.toNat * 2 ^ 8 + 0) / 2 ^ 12 % 64 =
      x.toNat % 4 * 16 + y.toNat / 16 := by omega
  have hthird : (x.toNat * 2 ^ 16 + y.toNat * 2 ^ 8 + 0) / 2 ^ 6 % 64 = y.toNat % 16 * 4 := by
    omega
  have hzero : ((0 : Byte)).toNat = 0 := rfl
  simp only [base64Chunk, List.headD_cons, List.getD_cons_succ, List.getD_cons_zero,
    List.getD_nil, List.length_cons, List.length_nil, base64Alphabet_eq, hzero, hfirst, hsecond,
    hthird, Base64.two]
  rfl

lemma base64Chunk_one : base64Chunk [x] = Base64.one x := by
  have hx := x.isLt
  have hfirst : (x.toNat * 2 ^ 16 + 0 * 2 ^ 8 + 0) / 2 ^ 18 % 64 = x.toNat / 4 := by omega
  have hsecond : (x.toNat * 2 ^ 16 + 0 * 2 ^ 8 + 0) / 2 ^ 12 % 64 = x.toNat % 4 * 16 := by omega
  have hzero : ((0 : Byte)).toNat = 0 := rfl
  simp only [base64Chunk, List.headD_cons, List.getD_cons_succ, List.getD_nil, List.length_cons,
    List.length_nil, base64Alphabet_eq, hzero, hfirst, hsecond, Base64.one]
  rfl

/-- **The code's text is the standard one.** -/
lemma base64Encode_eq (data : List Byte) : base64Encode data = Base64.encode data := by
  induction data using Base64.encode.induct with
  | case1 => rfl
  | case2 x => exact base64Chunk_one x
  | case3 x y => exact base64Chunk_two x y
  | case4 x y z rest ih => rw [base64Encode, ih, base64Chunk_full, Base64.encode]

/-- **Batch payloads decode to the file.**  The text of some bytes has four letters for every
three of them, in the letters of Base64 but for the equals signs that its length requires, and
it is the one text that a strict decoder reads as these bytes. -/
theorem base64_decodes (data : List Byte) :
    (base64Encode data).length = 4 * ((data.length + 2) / 3) ∧
    (∃ letters, base64Encode data = letters ++ List.replicate (Base64.padding data.length) '=' ∧
      ∀ c ∈ letters, c.isAlphanum = true ∨ c = '+' ∨ c = '/') ∧
    ∀ text, Base64.decode text = some data ↔ text = base64Encode data := by
  rw [base64Encode_eq]
  obtain ⟨letters, hletters, hvalue⟩ := Base64.encode_shape data
  refine ⟨Base64.length_encode data, ⟨letters, hletters, fun c hc => ?_⟩, fun text => ?_⟩
  · obtain ⟨i, hi⟩ := Option.isSome_iff_exists.mp (hvalue c hc)
    obtain ⟨hlt, rfl⟩ := Base64.letter_of_value hi
    have hall : ∀ i < 64, (Base64.letter i).isAlphanum = true ∨ Base64.letter i = '+' ∨
      Base64.letter i = '/' := by decide
    exact hall i hlt
  · rw [Base64.decode_eq_some_iff]
    exact eq_comm

example : base64Encode [0xFF, 0xFE, 0xFD] = "//79".toList := by decide

/-! ## Batches -/

namespace Client

variable {c : Client} {gameData : Bool}

/-- The files of a batch, as far as they are found, are put to what there is. -/
lemma fetchFiles_returns {files : List Str} {results out : Std.TreeMap Str Str}
    (h : (c.fetchFiles gameData files results).Returns out) {path text : Str}
    (hout : out[path]? = some text) : results[path]? = some text ∨ path ∈ files ∧
      ∃ file, (c.getFileWith path gameData).Returns (some file) ∧
        Base64.decode text = some file.data := by
  induction files generalizing results with
  | nil =>
    obtain rfl : results = out := h
    exact .inl hout
  | cons first files ih =>
    rw [fetchFiles] at h
    obtain ⟨found, hfound, h⟩ := Prog.returns_bind.mp h
    cases found with
    | none =>
      rcases ih h with hold | ⟨hmem, hfile⟩
      · exact .inl hold
      · exact .inr ⟨List.mem_cons_of_mem _ hmem, hfile⟩
    | some file =>
      rcases ih h with hold | ⟨hmem, hfile⟩
      · rw [Std.TreeMap.getElem?_insert] at hold
        split at hold
        · next heq =>
          obtain rfl := Option.some.inj hold
          obtain rfl := Std.LawfulEqCmp.eq_of_compare heq
          refine .inr ⟨List.mem_cons_self, file, hfound, ?_⟩
          rw [base64Encode_eq]
          exact Base64.decode_encode _
        · exact .inl hold
      · exact .inr ⟨List.mem_cons_of_mem _ hmem, hfile⟩

/-- **What a batch holds for a path decodes to a file that was found for it**, and it holds
nothing for other paths. -/
theorem batch_decodes {headers : HeaderMap} {files : Option (List Str)} {resp : Response}
    (h : (c.serveBatch headers files gameData).Returns resp) (hsome : files.getD [] ≠ [])
    (hmax : (files.getD []).length ≤ maxBatchFiles) : ∃ results : Std.TreeMap Str Str,
      resp = c.jsonResponse headers (c.platform.jsonFiles results.toList) none ∧
      ∀ path text, (path, text) ∈ results.toList → path ∈ files.getD [] ∧
        ∃ file, (c.getFileWith path gameData).Returns (some file) ∧
          Base64.decode text = some file.data := by
  simp only [serveBatch] at h
  rw [if_neg (not_or.mpr ⟨hsome, not_lt.mpr hmax⟩)] at h
  obtain ⟨results, hresults, rfl⟩ := Prog.returns_bind.mp h
  refine ⟨results, rfl, fun path text hmem => ?_⟩
  have hget := Std.TreeMap.mem_toList_iff_getElem?_eq_some.mp hmem
  rcases fetchFiles_returns hresults hget with hold | hfound
  · exact absurd hold (by simp)
  · exact hfound

end Client

end RemoteClient

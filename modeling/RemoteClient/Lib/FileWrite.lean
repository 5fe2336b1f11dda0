/-
# Writing a file in several steps

Opening a file for writing empties it.  A writer then puts the next part of its content at its
own offset, whoever else has opened the file meanwhile, and it may stop at any time.

When all writers have the same content, the one that emptied the file last puts every part of
it in place, and the others only put in place what belongs there.  So the file is whole once
every writer has come to its end (`Sound.whole`).
-/
import Mathlib.Data.List.Basic

namespace RemoteClient
namespace FileWrite

variable {α : Type} (filler : α)

/-! ## One write -/

/-- Put a part at an offset; a gap between the end of the file and the offset is filled. -/
def pwrite (file : List α) (offset : ℕ) (part : List α) : List α :=
  (file ++ List.replicate (offset - file.length) filler).take offset ++ part ++
    file.drop (offset + part.length)

/-- The next `k` items of a content that is written up to `done`. -/
def part (content : List α) (done k : ℕ) : List α := (content.drop done).take k

lemma length_part {content : List α} {done k : ℕ} (h : done + k ≤ content.length) :
    (part content done k).length = k := by
  rw [part, List.length_take, List.length_drop]
  omega

lemma length_pwrite (file : List α) (offset : ℕ) (part : List α) :
    (pwrite filler file offset part).length = max file.length (offset + part.length) := by
  simp only [pwrite, List.length_append, List.length_take, List.length_replicate, List.length_drop]
  omega

/-- Before the offset the file stays, as far as it goes. -/
lemma getElem?_pwrite_before {file part : List α} {offset i : ℕ} (hi : i < offset)
    (hfile : i < file.length) : (pwrite filler file offset part)[i]? = file[i]? := by
  have hlen : i < ((file ++ List.replicate (offset - file.length) filler).take offset).length := by
    simp only [List.length_take, List.length_append, List.length_replicate]
    omega
  rw [pwrite, List.append_assoc, List.getElem?_append_left hlen, List.getElem?_take_of_lt hi,
    List.getElem?_append_left hfile]

lemma length_start (file : List α) (offset : ℕ) :
    ((file ++ List.replicate (offset - file.length) filler).take offset).length = offset := by
  simp only [List.length_take, List.length_append, List.length_replicate]
  omega

/-- Then comes the part. -/
lemma getElem?_pwrite_part {file part : List α} {offset i : ℕ} (hi : offset ≤ i)
    (hpart : i < offset + part.length) :
    (pwrite filler file offset part)[i]? = part[i - offset]? := by
  have hstart := length_start filler file offset
  rw [pwrite, List.append_assoc, List.getElem?_append_right (by omega), hstart,
    List.getElem?_append_left (by omega)]

/-- Behind it the file stays. -/
lemma getElem?_pwrite_after {file part : List α} {offset i : ℕ} (hi : offset + part.length ≤ i) :
    (pwrite filler file offset part)[i]? = file[i]? := by
  have hstart := length_start filler file offset
  rw [pwrite, List.append_assoc, List.getElem?_append_right (by omega), hstart,
    List.getElem?_append_right (by omega), List.getElem?_drop]
  congr 1
  omega

/-! ## A write of what belongs there -/

section

variable {file data : List α} {i done k : ℕ}

/-- What is in place stays in place. -/
lemma take_pwrite (h : done + k ≤ data.length) (hi : i ≤ file.length)
    (hfile : file.take i = data.take i) :
    (pwrite filler file done (part data done k)).take i = data.take i := by
  have hlen := length_part h
  refine List.ext_getElem? fun m => ?_
  by_cases hm : m < i
  · rw [List.getElem?_take_of_lt hm, List.getElem?_take_of_lt hm]
    have hsame : file[m]? = data[m]? := by
      rw [← List.getElem?_take_of_lt hm, hfile, List.getElem?_take_of_lt hm]
    rcases Nat.lt_or_ge m done with hbefore | hge
    · rw [getElem?_pwrite_before filler hbefore (by omega), hsame]
    · rcases Nat.lt_or_ge m (done + k) with hpart | hafter
      · rw [getElem?_pwrite_part filler hge (by omega), part,
          List.getElem?_take_of_lt (by omega), List.getElem?_drop]
        congr 1
        omega
      · rw [getElem?_pwrite_after filler (by omega), hsame]
  · rw [List.getElem?_take_eq_none (by omega), List.getElem?_take_eq_none (by omega)]

/-- A part that follows what is in place is in place. -/
lemma take_pwrite_next (h : done + k ≤ data.length) (hdone : done ≤ file.length)
    (hfile : file.take done = data.take done) :
    (pwrite filler file done (part data done k)).take (done + k) = data.take (done + k) := by
  have hlen := length_part h
  refine List.ext_getElem? fun m => ?_
  by_cases hm : m < done + k
  · rw [List.getElem?_take_of_lt hm, List.getElem?_take_of_lt hm]
    rcases Nat.lt_or_ge m done with hbefore | hge
    · rw [getElem?_pwrite_before filler hbefore (by omega),
        ← List.getElem?_take_of_lt hbefore, hfile, List.getElem?_take_of_lt hbefore]
    · rw [getElem?_pwrite_part filler hge (by omega), part,
        List.getElem?_take_of_lt (by omega), List.getElem?_drop]
      congr 1
      omega
  · rw [List.getElem?_take_eq_none (by omega), List.getElem?_take_eq_none (by omega)]

end

/-! ## Writers of one content -/

/-- A file, how far each of its writers is, and whether one stopped short since it was last
emptied. -/
structure OneFile (α : Type) where
  content : Option (List α)
  writers : List ℕ
  torn : Bool

/-- A step of a writer of `data`. -/
inductive Step (data : List α) : OneFile α → OneFile α → Prop
  | create (content : Option (List α)) (writers : List ℕ) (torn : Bool) :
    Step data ⟨content, writers, torn⟩ ⟨some [], writers ++ [0], false⟩
  | write (file : List α) (pre post : List ℕ) (done k : ℕ) (torn : Bool)
      (h : done + k ≤ data.length) :
    Step data ⟨some file, pre ++ done :: post, torn⟩
      ⟨some (pwrite filler file done (part data done k)), pre ++ (done + k) :: post, torn⟩
  | stop (content : Option (List α)) (pre post : List ℕ) (done : ℕ) (torn : Bool) :
    Step data ⟨content, pre ++ done :: post, torn⟩
      ⟨content, pre ++ post, torn || decide (done < data.length)⟩

/-- All that a writer has written is in place, and it still has something to write. -/
def Covers (data file : List α) (done : ℕ) : Prop :=
  done < data.length ∧ done ≤ file.length ∧ file.take done = data.take done

/-- The file is no longer than the content.  It is whole, or torn, or someone is at work who
will put all the rest in place. -/
def Sound (data : List α) (s : OneFile α) : Prop :=
  ∀ file, s.content = some file → file.length ≤ data.length ∧
    (file = data ∨ s.torn = true ∨ ∃ done ∈ s.writers, Covers data file done)

variable {filler} {data : List α} {s s' : OneFile α}

/-- Each step keeps the file sound. -/
lemma Step.sound (h : Step filler data s s') (hs : Sound data s) : Sound data s' := by
  cases h with
  | create content writers torn =>
    rintro file heq
    obtain rfl := Option.some.inj heq
    refine ⟨Nat.zero_le _, ?_⟩
    -- An empty file is whole when it is created; any other is for its writer to fill.
    cases data with
    | nil => exact .inl rfl
    | cons x data =>
      exact .inr (.inr ⟨0, by simp, Nat.succ_pos _, Nat.le_refl _, rfl⟩)
  | write file pre post done k torn h =>
    rintro file' heq
    obtain rfl := Option.some.inj heq
    obtain ⟨hlen, hfile⟩ := hs file rfl
    have hpart := length_part h
    have hlength := length_pwrite filler file done (part data done k)
    refine ⟨by omega, ?_⟩
    rcases hfile with rfl | htorn | ⟨done', hmem, hless, hle, htake⟩
    · -- a whole file is written over with itself
      have hall := take_pwrite filler h (Nat.le_refl _) rfl
      rw [List.take_length, List.take_of_length_le (by omega)] at hall
      exact .inl hall
    · exact .inr (.inl htorn)
    -- Either the writer that writes is the one that covers the file, or another one still does.
    · by_cases heq : done' = done
      · subst heq
        have hnext := take_pwrite_next filler h hle htake
        rcases Nat.lt_or_ge (done' + k) data.length with hmore | hend
        · refine .inr (.inr ⟨done' + k, by simp, hmore, by omega, hnext⟩)
        · rw [List.take_of_length_le (by omega), List.take_of_length_le hend] at hnext
          exact .inl hnext
      · have hother : done' ∈ pre ++ (done + k) :: post := by
          rcases List.mem_append.mp hmem with hmem | hmem
          · exact List.mem_append_left _ hmem
          · rcases List.mem_cons.mp hmem with rfl | hmem
            · exact absurd rfl heq
            · exact List.mem_append_right _ (List.mem_cons_of_mem _ hmem)
        exact .inr (.inr ⟨done', hother, hless, by omega, take_pwrite filler h hle htake⟩)
  | stop content pre post done torn =>
    intro file heq
    obtain ⟨hlen, hfile⟩ := hs file heq
    refine ⟨hlen, ?_⟩
    rcases hfile with rfl | htorn | ⟨done', hmem, hcovers⟩
    · exact .inl rfl
    · refine .inr (.inl ?_)
      change (torn || _) = true
      rw [show torn = true from htorn, Bool.true_or]
    -- A writer that stops short leaves the file torn.
    · rcases List.mem_append.mp hmem with hmem | hmem
      · exact .inr (.inr ⟨done', List.mem_append_left _ hmem, hcovers⟩)
      · rcases List.mem_cons.mp hmem with rfl | hmem
        · refine .inr (.inl ?_)
          change (torn || decide (done' < data.length)) = true
          rw [decide_eq_true hcovers.1, Bool.or_true]
        · exact .inr (.inr ⟨done', List.mem_append_right _ hmem, hcovers⟩)

/-- **The file is whole when every writer has come to its end.** -/
lemma Sound.whole (hs : Sound data s) (htorn : s.torn = false)
    (hwriters : ∀ done ∈ s.writers, data.length ≤ done) :
    s.content = none ∨ s.content = some data := by
  cases hcontent : s.content with
  | none => exact .inl rfl
  | some file =>
    obtain ⟨-, rfl | htorn' | ⟨done, hmem, hless, -⟩⟩ := hs file hcontent
    · exact .inr rfl
    · exact absurd (htorn'.symm.trans htorn) (by simp)
    · exact absurd (hwriters done hmem) (by omega)

end FileWrite
end RemoteClient

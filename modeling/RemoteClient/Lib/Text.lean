/-
# Characters, blanks and lines of a text

Trimming takes the Unicode blanks off both ends of a text.  A text is cut into lines at its line
feeds; a carriage return before one belongs to the line end, and behind the last line end there
is no line unless there is some text.
-/
import Mathlib.Data.List.DropRight

namespace RemoteClient
namespace Text

/-! ## Characters -/

/-- A fact about the first characters is one about numbers, and can be computed. -/
lemma forall_char_lt {bound : ℕ} (P : Char → Prop) (h : ∀ n < bound, P (Char.ofNat n))
    {c : Char} (hc : c.toNat < bound) : P c := by
  have hchar := h c.toNat hc
  rwa [Char.ofNat_toNat] at hchar

/-- Only letters have a lower case. -/
lemma toLower_eq_iff {c d : Char} (hd : d.isAlpha = false) : c.toLower = d ↔ c = d := by
  have hletter : ¬(65 ≤ d.toNat ∧ d.toNat ≤ 90) ∧ ¬(97 ≤ d.toNat ∧ d.toNat ≤ 122) := by
    change (decide ('A'.val ≤ d.val ∧ d.val ≤ 'Z'.val) ||
      (decide ('a'.val ≤ d.val) && decide (d.val ≤ 'z'.val))) = false at hd
    simp only [Bool.or_eq_false_iff, Bool.and_eq_false_iff, decide_eq_false_iff_not,
      UInt32.le_iff_toNat_le] at hd
    change ¬(65 ≤ d.toNat ∧ d.toNat ≤ 90) ∧ (¬97 ≤ d.toNat ∨ ¬d.toNat ≤ 122) at hd
    omega
  by_cases hupper : c.val ≥ 'A'.val ∧ c.val ≤ 'Z'.val
  · have hge : 65 ≤ c.toNat := UInt32.le_iff_toNat_le.mp hupper.1
    have hle : c.toNat ≤ 90 := UInt32.le_iff_toNat_le.mp hupper.2
    have hval : c.toLower.toNat = c.toNat + 32 := by
      rw [show c.toLower = _ from dif_pos hupper]
      change (c.val + 32).toNat = c.val.toNat + 32
      rw [UInt32.toNat_add]
      change (c.val.toNat + 32) % _ = _
      change c.val.toNat ≤ 90 at hle
      omega
    constructor
    · rintro rfl
      omega
    · rintro rfl
      exact absurd ⟨hge, hle⟩ hletter.1
  · rw [show c.toLower = c from dif_neg hupper]

/-! ## Blanks -/

/-- Unicode's `White_Space`. -/
def isWhite (c : Char) : Bool :=
  let n := c.toNat
  9 ≤ n && n ≤ 13 || 0x2000 ≤ n && n ≤ 0x200A ||
    n ∈ [0x20, 0x85, 0xA0, 0x1680, 0x2028, 0x2029, 0x202F, 0x205F, 0x3000]

/-- Without the blanks at both ends. -/
def trim (s : List Char) : List Char := (s.dropWhile isWhite).rdropWhile isWhite

lemma trim_cons_of_white {c : Char} (hc : isWhite c = true) (s : List Char) :
    trim (c :: s) = trim s := by
  rw [trim, List.dropWhile_cons_of_pos hc, trim]

/-- A text without blanks stays. -/
lemma trim_eq_self {s : List Char} (hs : ∀ c ∈ s, isWhite c = false) : trim s = s := by
  have hleft : s.dropWhile isWhite = s := by
    cases s with
    | nil => rfl
    | cons c s => exact List.dropWhile_cons_of_neg (by simp [hs c (by simp)])
  rw [trim, hleft, List.rdropWhile_eq_self_iff]
  exact fun hne => by simp [hs _ (List.getLast_mem hne)]

/-- A text stays that has no blanks at its ends. -/
lemma trim_of_ends {c d : Char} (hc : isWhite c = false) (hd : isWhite d = false)
    (s : List Char) : trim (c :: (s ++ [d])) = c :: (s ++ [d]) := by
  rw [trim, List.dropWhile_cons_of_neg (by simp [hc]), List.rdropWhile_eq_self_iff]
  intro hne
  rw [List.getLast_cons (by simp), List.getLast_append_singleton]
  simp [hd]

/-! ## Lines -/

/-- The lines of a text. -/
def lines : List Char → List (List Char)
  | [] => []
  | c :: s =>
    if c = '\n' then [] :: lines s
    -- the end of a line, which comes next
    else if c = '\r' ∧ s.head? = some '\n' then lines s
    else if s = [] then [[c]]
    else (lines s).modifyHead (c :: ·)

/-- A text is written as some lines, each with a line feed or a carriage return and a line feed
behind it, the last one perhaps with neither. -/
inductive Lined : List (List Char) → List Char → Prop
  | nil : Lined [] []
  | last {line : List Char} (hne : line ≠ []) (hlf : '\n' ∉ line) : Lined [line] line
  | lf {line rest : List Char} {lines : List (List Char)} (hlf : '\n' ∉ line)
      (hcr : line.getLast? ≠ some '\r') (h : Lined lines rest) :
    Lined (line :: lines) (line ++ '\n' :: rest)
  | crlf {line rest : List Char} {lines : List (List Char)} (hlf : '\n' ∉ line)
      (h : Lined lines rest) : Lined (line :: lines) (line ++ '\r' :: '\n' :: rest)

lemma lines_last {line : List Char} (hne : line ≠ []) (hlf : '\n' ∉ line) :
    lines line = [line] := by
  induction line with
  | nil => exact absurd rfl hne
  | cons c line ih =>
    have hc : c ≠ '\n' := fun heq => hlf (by simp [heq])
    have hhead : ¬(c = '\r' ∧ line.head? = some '\n') := fun h =>
      hlf (List.mem_cons_of_mem _ (List.mem_of_head? h.2))
    rw [lines, if_neg hc, if_neg hhead]
    split
    · next hnil => rw [hnil]
    · next hne' =>
      rw [ih hne' fun h => hlf (List.mem_cons_of_mem _ h)]
      rfl

/-- A line ends at its line feed. -/
lemma lines_lf {line : List Char} (hlf : '\n' ∉ line) (hcr : line.getLast? ≠ some '\r')
    (rest : List Char) : lines (line ++ '\n' :: rest) = line :: lines rest := by
  induction line with
  | nil => rfl
  | cons c line ih =>
    have hc : c ≠ '\n' := fun heq => hlf (by simp [heq])
    have hlf' : '\n' ∉ line := fun h => hlf (List.mem_cons_of_mem _ h)
    have hhead : ¬(c = '\r' ∧ (line ++ '\n' :: rest).head? = some '\n') := by
      rintro ⟨rfl, hhead⟩
      cases line with
      | nil => exact hcr rfl
      | cons d line => exact hlf' (by simp [Option.some.inj hhead])
    have hcr' : line.getLast? ≠ some '\r' := by
      intro h
      cases line with
      | nil => exact absurd h (by simp)
      | cons d line => exact hcr (by rw [List.getLast?_cons_cons]; exact h)
    rw [List.cons_append, lines, if_neg hc, if_neg hhead, if_neg (by simp), ih hlf' hcr']
    rfl

/-- A carriage return before the line feed belongs to the line end. -/
lemma lines_crlf {line : List Char} (hlf : '\n' ∉ line) (rest : List Char) :
    lines (line ++ '\r' :: '\n' :: rest) = line :: lines rest := by
  induction line with
  | nil => rfl
  | cons c line ih =>
    have hc : c ≠ '\n' := fun heq => hlf (by simp [heq])
    have hlf' : '\n' ∉ line := fun h => hlf (List.mem_cons_of_mem _ h)
    have hhead : ¬(c = '\r' ∧ (line ++ '\r' :: '\n' :: rest).head? = some '\n') := by
      rintro ⟨-, hhead⟩
      cases line with
      | nil => exact absurd (Option.some.inj hhead) (by decide)
      | cons d line => exact hlf' (by simp [Option.some.inj hhead])
    rw [List.cons_append, lines, if_neg hc, if_neg hhead, if_neg (by simp), ih hlf']
    rfl

/-- The lines of a text are those it is written as. -/
lemma Lined.lines_eq {ls : List (List Char)} {text : List Char} (h : Lined ls text) :
    lines text = ls := by
  induction h with
  | nil => rfl
  | last hne hlf => exact lines_last hne hlf
  | lf hlf hcr _ ih => rw [lines_lf hlf hcr, ih]
  | crlf hlf _ ih => rw [lines_crlf hlf, ih]

/-- Every text is written as some lines. -/
lemma exists_lined (text : List Char) : ∃ ls, Lined ls text := by
  induction hn : text.length using Nat.strongRecOn generalizing text with
  | _ n ih =>
    by_cases hlf : '\n' ∈ text
    · obtain ⟨line, rest, rfl, hline⟩ := List.eq_append_cons_of_mem hlf
      have hshorter : rest.length < n := by
        rw [← hn, List.length_append, List.length_cons]
        omega
      obtain ⟨ls, hls⟩ := ih rest.length hshorter rest rfl
      by_cases hcr : line.getLast? = some '\r'
      · obtain ⟨line', rfl⟩ := List.getLast?_eq_some_iff.mp hcr
        refine ⟨line' :: ls, ?_⟩
        rw [List.append_assoc]
        exact .crlf (fun h => hline (List.mem_append_left _ h)) hls
      · exact ⟨line :: ls, .lf hline hcr hls⟩
    · rcases eq_or_ne text [] with rfl | hne
      · exact ⟨[], .nil⟩
      · exact ⟨[text], .last hne hlf⟩

/-! ## Parts -/

/-- The parts of a text lack the separator, and have no symbols of their own. -/
lemma splitOn_spec {α : Type} [DecidableEq α] {sep : α} {s part : List α}
    (h : part ∈ s.splitOn sep) : sep ∉ part ∧ part ⊆ s := by
  induction s generalizing part with
  | nil =>
    rw [List.mem_singleton.mp h]
    exact ⟨by simp, fun _ hch => hch⟩
  | cons ch s ih =>
    rw [List.splitOn_cons_eq_if_modifyHead] at h
    split at h
    · rcases List.mem_cons.mp h with rfl | h
      · exact ⟨by simp, by simp⟩
      · exact ⟨(ih h).1, List.subset_cons_of_subset ch (ih h).2⟩
    · next hne =>
      obtain ⟨first, parts, hparts⟩ := List.exists_cons_of_ne_nil (List.splitOn_ne_nil sep s)
      rw [hparts] at h ih
      rcases List.mem_cons.mp h with rfl | h
      · obtain ⟨hslash, hsub⟩ := ih (List.mem_cons_self ..)
        have hch : sep ≠ ch := fun heq => hne (by simp [← heq])
        exact ⟨List.not_mem_cons_of_ne_of_not_mem hch hslash, List.cons_subset_cons ch hsub⟩
      · obtain ⟨hslash, hsub⟩ := ih (List.mem_cons_of_mem _ h)
        exact ⟨hslash, List.subset_cons_of_subset ch hsub⟩

end Text
end RemoteClient

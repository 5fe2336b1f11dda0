/-
# Lines

Cutting a list at the first place where a separator stands, and the head of a message: lines
that each end in a separator of two symbols, up to an empty one, and behind it whatever follows.

`cut_append` says that a cut stays where it is when more arrives, and `reads_unlines` that a
message whose lines do not contain the first symbol of the separator is read as it was written,
and in no other way.  `cut_unlines` and `split_intercalate` say the same of a reader that cuts the
head off first and then splits it.
-/
import Mathlib.Data.List.Infix

namespace RemoteClient
namespace Lines

variable {α : Type} [DecidableEq α]

/-! ## Cutting -/

/-- What is before and behind the first place where `sep` stands. -/
def cut (sep : List α) : List α → Option (List α × List α)
  | [] => if sep = [] then some ([], []) else none
  | a :: l =>
    if sep.isPrefixOf (a :: l) then some ([], (a :: l).drop sep.length)
    else (cut sep l).map fun parts => (a :: parts.1, parts.2)

variable {sep l head rest : List α}

lemma cut_of_starts (h : sep <+: l) : cut sep l = some ([], l.drop sep.length) := by
  cases l with
  | nil => rw [cut, if_pos (List.prefix_nil.mp h)]; simp
  | cons a l => rw [cut, if_pos (List.isPrefixOf_iff_prefix.mpr h)]

lemma cut_cons_of_not_starts {a : α} (h : ¬sep <+: a :: l) :
    cut sep (a :: l) = (cut sep l).map fun parts => (a :: parts.1, parts.2) := by
  rw [cut, if_neg (by rwa [List.isPrefixOf_iff_prefix])]

/-- The parts of a cut make the whole. -/
lemma cut_eq_append (h : cut sep l = some (head, rest)) : l = head ++ sep ++ rest := by
  induction l generalizing head with
  | nil =>
    rw [cut] at h
    split at h
    · next hsep =>
      obtain ⟨rfl, rfl⟩ := Prod.mk.inj (Option.some.inj h)
      simp [hsep]
    · exact absurd h (by simp)
  | cons a l ih =>
    by_cases hstarts : sep <+: a :: l
    · rw [cut_of_starts hstarts] at h
      obtain ⟨rfl, rfl⟩ := Prod.mk.inj (Option.some.inj h)
      exact List.prefix_append_drop hstarts
    · rw [cut_cons_of_not_starts hstarts] at h
      obtain ⟨⟨head', rest'⟩, hcut, heq⟩ := Option.map_eq_some_iff.mp h
      obtain ⟨rfl, rfl⟩ := Prod.mk.inj heq
      rw [ih hcut]
      simp

/-- A cut is at the first place. -/
lemma cut_first (h : cut sep l = some (head, rest)) {x y : List α} (hl : l = x ++ sep ++ y) :
    head.length ≤ x.length := by
  induction l generalizing head x with
  | nil =>
    have hlen := congrArg List.length (cut_eq_append h)
    simp only [List.length_nil, List.length_append] at hlen
    omega
  | cons a l ih =>
    by_cases hstarts : sep <+: a :: l
    · rw [cut_of_starts hstarts] at h
      obtain ⟨rfl, rfl⟩ := Prod.mk.inj (Option.some.inj h)
      exact Nat.zero_le _
    · rw [cut_cons_of_not_starts hstarts] at h
      obtain ⟨⟨head', rest'⟩, hcut, heq⟩ := Option.map_eq_some_iff.mp h
      obtain ⟨rfl, rfl⟩ := Prod.mk.inj heq
      cases x with
      | nil => exact absurd ⟨y, hl.symm⟩ hstarts
      | cons b x => exact Nat.succ_le_succ (ih hcut (List.cons.inj hl).2)

/-- Where the separator stands, there is a cut. -/
lemma cut_isSome (sep x y : List α) :
    ∃ head rest, cut sep (x ++ sep ++ y) = some (head, rest) := by
  induction x with
  | nil => exact ⟨_, _, cut_of_starts (by simp)⟩
  | cons a x ih =>
    obtain ⟨head, rest, hcut⟩ := ih
    by_cases hstarts : sep <+: a :: (x ++ sep ++ y)
    · exact ⟨_, _, cut_of_starts hstarts⟩
    · refine ⟨a :: head, rest, ?_⟩
      rw [List.cons_append, List.cons_append, cut_cons_of_not_starts hstarts, hcut]
      rfl

/-- A cut is the first place where the separator stands. -/
lemma cut_eq_some_iff : cut sep l = some (head, rest) ↔
    l = head ++ sep ++ rest ∧ ∀ x y, l = x ++ sep ++ y → head.length ≤ x.length := by
  constructor
  · exact fun h => ⟨cut_eq_append h, fun x y => cut_first h⟩
  · rintro ⟨rfl, hfirst⟩
    obtain ⟨head', rest', hcut⟩ := cut_isSome sep head rest
    have hparts := cut_eq_append hcut
    have hlen : head.length = head'.length :=
      le_antisymm (hfirst head' rest' hparts) (cut_first hcut rfl)
    simp only [List.append_assoc] at hparts
    obtain ⟨rfl, htail⟩ := List.append_inj hparts hlen
    obtain rfl := List.append_cancel_left htail
    exact hcut

/-- A cut stays where it is when more arrives. -/
lemma cut_append (h : cut sep l = some (head, rest)) (more : List α) :
    cut sep (l ++ more) = some (head, rest ++ more) := by
  induction l generalizing head with
  | nil =>
    rw [cut] at h
    split at h
    · next hsep =>
      obtain ⟨rfl, rfl⟩ := Prod.mk.inj (Option.some.inj h)
      rw [cut_of_starts (by simp [hsep])]
      simp [hsep]
    · exact absurd h (by simp)
  | cons a l ih =>
    by_cases hstarts : sep <+: a :: l
    · rw [cut_of_starts hstarts] at h
      obtain ⟨rfl, rfl⟩ := Prod.mk.inj (Option.some.inj h)
      rw [cut_of_starts (hstarts.trans (List.prefix_append _ _)),
        List.drop_append_of_le_length hstarts.length_le]
    · rw [cut_cons_of_not_starts hstarts] at h
      obtain ⟨⟨head', rest'⟩, hcut, heq⟩ := Option.map_eq_some_iff.mp h
      obtain ⟨rfl, rfl⟩ := Prod.mk.inj heq
      -- The separator is in `l`, so it cannot start before it and end behind it.
      have hnot : ¬sep <+: a :: (l ++ more) := by
        intro hlong
        have hlen := congrArg List.length (cut_eq_append hcut)
        simp only [List.length_append] at hlen
        refine hstarts (List.prefix_of_prefix_length_le hlong ⟨more, rfl⟩ ?_)
        rw [List.length_cons]
        omega
      rw [List.cons_append, cut_cons_of_not_starts hnot, ih hcut]
      rfl

/-- A part that lacks the first symbol of the separator has no cut in it. -/
lemma cut_of_notMem {cr : α} (hsep : sep.head? = some cr) (hhead : cr ∉ head) :
    cut sep (head ++ sep ++ rest) = some (head, rest) := by
  obtain ⟨sep, rfl⟩ := List.head?_eq_some_iff.mp hsep
  induction head with
  | nil => rw [List.nil_append, cut_of_starts (List.prefix_append _ _), List.drop_left]
  | cons a head ih =>
    have hne : ¬cr :: sep <+: a :: (head ++ (cr :: sep) ++ rest) := by
      rintro ⟨t, ht⟩
      exact hhead (by rw [(List.cons.inj ht).1]; simp)
    rw [List.cons_append, List.cons_append, cut_cons_of_not_starts hne,
      ih fun h => hhead (List.mem_cons_of_mem _ h)]
    rfl

/-- Nor does a cut start in such a part when it is somewhere behind. -/
lemma cut_append_of_notMem {cr : α} (hsep : sep.head? = some cr) {line : List α}
    (hline : cr ∉ line) (l : List α) :
    cut sep (line ++ l) = (cut sep l).map fun parts => (line ++ parts.1, parts.2) := by
  obtain ⟨sep, rfl⟩ := List.head?_eq_some_iff.mp hsep
  induction line with
  | nil => exact Option.map_id'.symm
  | cons a line ih =>
    have hne : ¬cr :: sep <+: a :: (line ++ l) := by
      rintro ⟨t, ht⟩
      exact hline (by rw [(List.cons.inj ht).1]; simp)
    rw [List.cons_append, cut_cons_of_not_starts hne, ih fun h => hline (List.mem_cons_of_mem _ h),
      Option.map_map]
    rfl

/-! ## Splitting -/

/-- The parts between the places where the two symbols stand. -/
def split (cr lf : α) : List α → List (List α)
  | [] => [[]]
  | [a] => [[a]]
  | a :: b :: l =>
    if a = cr ∧ b = lf then [] :: split cr lf l
    else (split cr lf (b :: l)).modifyHead (a :: ·)

lemma split_of_notMem {cr lf : α} {line : List α} (h : cr ∉ line) : split cr lf line = [line] := by
  induction line with
  | nil => rfl
  | cons a line ih =>
    cases line with
    | nil => rfl
    | cons b line =>
      have ha : ¬(a = cr ∧ b = lf) := fun hab => h (by simp [hab.1])
      rw [split, if_neg ha, ih fun hcr => h (List.mem_cons_of_mem _ hcr)]
      rfl

lemma split_append {cr lf : α} {line : List α} (h : cr ∉ line) (l : List α) :
    split cr lf (line ++ cr :: lf :: l) = line :: split cr lf l := by
  induction line with
  | nil => exact if_pos ⟨rfl, rfl⟩
  | cons a line ih =>
    have hcons : a :: line ++ cr :: lf :: l = a :: (line ++ cr :: lf :: l) := rfl
    obtain ⟨b, rest, hrest⟩ := List.exists_cons_of_ne_nil (l := line ++ cr :: lf :: l) (by simp)
    have ha : ¬(a = cr ∧ b = lf) := fun hab => h (by simp [hab.1])
    rw [hcons, hrest, split, if_neg ha, ← hrest, ih fun hcr => h (List.mem_cons_of_mem _ hcr)]
    rfl

/-- Lines that are put together come apart again. -/
lemma split_intercalate {cr lf : α} {lines : List (List α)} (hne : lines ≠ [])
    (hlines : ∀ line ∈ lines, cr ∉ line) :
    split cr lf ([cr, lf].intercalate lines) = lines := by
  induction lines with
  | nil => exact absurd rfl hne
  | cons line lines ih =>
    have hline : cr ∉ line := hlines line (by simp)
    cases lines with
    | nil => rw [List.intercalate_singleton, split_of_notMem hline]
    | cons next lines =>
      rw [List.intercalate_cons_cons, List.append_assoc, List.cons_append, List.cons_append,
        List.nil_append, split_append hline,
        ih (List.cons_ne_nil _ _) fun l hl => hlines l (List.mem_cons_of_mem _ hl)]

/-! ## Heads -/

/-- The message starts with some lines and an empty one, and goes on with `rest`. -/
inductive Reads (sep : List α) : List α → List (List α) → List α → Prop
  | blank {l rest : List α} (h : cut sep l = some ([], rest)) : Reads sep l [] rest
  | line {l line rest rest' : List α} {lines : List (List α)} (h : cut sep l = some (line, rest'))
      (hne : line ≠ []) (hrest : Reads sep rest' lines rest) : Reads sep l (line :: lines) rest

/-- Lines and an empty one, each with its end. -/
def unlines (sep : List α) (lines : List (List α)) : List α :=
  lines.flatMap (· ++ sep) ++ sep

omit [DecidableEq α] in
lemma unlines_cons (line : List α) (lines : List (List α)) :
    unlines sep (line :: lines) = line ++ sep ++ unlines sep lines := by
  simp [unlines]

/-- There is one way to read a message. -/
lemma Reads.unique {lines lines' : List (List α)} {rest' : List α} (h : Reads sep l lines rest)
    (h' : Reads sep l lines' rest') : lines' = lines ∧ rest' = rest := by
  induction h generalizing lines' with
  | blank hcut =>
    cases h' with
    | blank hcut' =>
      rw [hcut] at hcut'
      exact ⟨rfl, (Prod.mk.inj (Option.some.inj hcut')).2.symm⟩
    | line hcut' hne _ =>
      rw [hcut] at hcut'
      exact absurd (Prod.mk.inj (Option.some.inj hcut')).1.symm hne
  | line hcut hne _ ih =>
    cases h' with
    | blank hcut' =>
      rw [hcut] at hcut'
      exact absurd (Prod.mk.inj (Option.some.inj hcut')).1 hne
    | line hcut' _ hrest' =>
      rw [hcut] at hcut'
      obtain ⟨rfl, rfl⟩ := Prod.mk.inj (Option.some.inj hcut')
      obtain ⟨rfl, hrest⟩ := ih hrest'
      exact ⟨rfl, hrest⟩

/-- What was written is read. -/
lemma reads_unlines {cr : α} (hsep : sep.head? = some cr) {lines : List (List α)}
    (hlines : ∀ line ∈ lines, line ≠ [] ∧ cr ∉ line) :
    Reads sep (unlines sep lines ++ rest) lines rest := by
  induction lines with
  | nil =>
    refine .blank ?_
    exact cut_of_notMem hsep (List.not_mem_nil : cr ∉ [])
  | cons line lines ih =>
    obtain ⟨hne, hcr⟩ := hlines line (by simp)
    refine .line ?_ hne (ih fun line' h => hlines line' (List.mem_cons_of_mem _ h))
    rw [unlines_cons, List.append_assoc]
    exact cut_of_notMem hsep hcr

/-- The end of the head is where the empty line is. -/
lemma cut_unlines {cr lf : α} (hcrlf : cr ≠ lf) {lines : List (List α)} (hne : lines ≠ [])
    (hlines : ∀ line ∈ lines, line ≠ [] ∧ cr ∉ line) :
    cut [cr, lf, cr, lf] (unlines [cr, lf] lines ++ rest) =
      some ([cr, lf].intercalate lines, rest) := by
  induction lines with
  | nil => exact absurd rfl hne
  | cons line lines ih =>
    obtain ⟨-, hline⟩ := hlines line (by simp)
    rw [unlines_cons, List.append_assoc, List.append_assoc, cut_append_of_notMem rfl hline]
    cases lines with
    | nil =>
      have hend : [cr, lf] ++ (unlines [cr, lf] [] ++ rest) = [cr, lf, cr, lf] ++ rest := rfl
      rw [hend, cut_of_starts (List.prefix_append _ _), List.drop_left, List.intercalate_singleton]
      simp
    | cons next lines =>
      obtain ⟨hnext, hcr⟩ := hlines next (by simp)
      obtain ⟨a, next, rfl⟩ := List.exists_cons_of_ne_nil hnext
      have ha : a ≠ cr := fun heq => hcr (by simp [heq])
      -- A line comes next, so the separator does not start at the end of this one.
      have hfirst : ∀ t, ¬[cr, lf, cr, lf] <+: cr :: lf :: a :: t := by
        rintro t ⟨t', ht⟩
        exact ha (List.cons.inj (List.cons.inj (List.cons.inj ht).2).2).1.symm
      have hsecond : ∀ t, ¬[cr, lf, cr, lf] <+: lf :: t := by
        rintro t ⟨t', ht⟩
        exact hcrlf (List.cons.inj ht).1
      have htail := ih (List.cons_ne_nil _ _) fun l hl => hlines l (List.mem_cons_of_mem _ hl)
      rw [unlines_cons, List.append_assoc, List.append_assoc] at htail ⊢
      rw [List.cons_append, List.cons_append, List.nil_append, List.cons_append,
        cut_cons_of_not_starts (hfirst _), cut_cons_of_not_starts (hsecond _), ← List.cons_append,
        htail, List.intercalate_cons_cons, Option.map_some, Option.map_some, Option.map_some]
      simp

end Lines
end RemoteClient

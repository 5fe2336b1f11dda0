/-
# Dot segments

A path leads down from the root, segment by segment; `.` stays where it is and `..` goes up
again.  `normalize` removes the two, as RFC 3986 does in section 5.2.4, after their dots were
decoded.

A walk is followed relative to some directory with two numbers (`follow`): how many of the
directory's own segments are above the place, and how many others are below them.  The place is
in the directory when none of its segments is missing (`At.base_prefix_iff`).
-/
import RemoteClient.Lib.Text
import Mathlib.Data.List.Infix

namespace RemoteClient
namespace DotSegments

/-! ## Walks -/

inductive Move (α : Type) where
  | stay
  | up
  | down (a : α)
deriving DecidableEq

section

variable {α : Type} [DecidableEq α]

/-- Go from a place, given as the segments above it. -/
def go (place : List α) : Move α → List α
  | .stay => place
  | .up => place.dropLast
  | .down a => place ++ [a]

/-- Follow a walk by how many segments of `base` are above the place, and how many others. -/
def follow (base : List α) (p : ℕ × ℕ) : Move α → ℕ × ℕ
  | .stay => p
  | .up => if p.2 = 0 then (p.1 - 1, 0) else (p.1, p.2 - 1)
  | .down a => if p.2 = 0 ∧ base[p.1]? = some a then (p.1 + 1, 0) else (p.1, p.2 + 1)

/-- A place is below the first `p.1` segments of `base`, and below `p.2` others. -/
def At (base place : List α) (p : ℕ × ℕ) : Prop :=
  ∃ others, place = base.take p.1 ++ others ∧ others.length = p.2 ∧ p.1 ≤ base.length ∧
    ∀ a, others.head? = some a → base[p.1]? ≠ some a

variable {base place : List α} {p : ℕ × ℕ}

omit [DecidableEq α] in
lemma at_base (base : List α) : At base base (base.length, 0) :=
  ⟨[], by simp, rfl, le_rfl, fun a h => absurd h (by simp)⟩

/-- Going up removes one of the others, or a segment of the directory. -/
lemma At.up (h : At base place p) : At base (go place .up) (follow base p .up) := by
  obtain ⟨others, rfl, hlength, hle, hhead⟩ := h
  rw [follow]
  rcases List.eq_nil_or_concat others with rfl | ⟨init, last, rfl⟩
  · rw [if_pos (show p.2 = 0 from hlength.symm)]
    refine ⟨[], ?_, rfl, (Nat.sub_le _ _).trans hle, fun a h => absurd h (by simp)⟩
    rw [go, List.append_nil, List.append_nil, List.dropLast_eq_take, List.length_take,
      List.take_take]
    congr 1
    omega
  · rw [List.concat_eq_append, List.length_append, List.length_singleton] at hlength
    rw [if_neg (by omega)]
    refine ⟨init, ?_, by omega, hle, fun a ha => hhead a ?_⟩
    · rw [go, List.concat_eq_append, ← List.append_assoc, List.dropLast_concat]
    · rw [List.concat_eq_append, List.head?_append, ha]
      rfl

/-- Going down from the directory's own segments by the next of them stays among them. -/
lemma At.down (h : At base place p) (a : α) :
    At base (go place (.down a)) (follow base p (.down a)) := by
  obtain ⟨others, rfl, hlength, hle, hhead⟩ := h
  rw [follow]
  split
  · next hdown =>
    obtain ⟨hnil, hnext⟩ := hdown
    obtain rfl := List.length_eq_zero_iff.mp (hlength.trans hnil)
    obtain ⟨hlt, hget⟩ := List.getElem?_eq_some_iff.mp hnext
    refine ⟨[], ?_, rfl, hlt, fun b h => absurd h (by simp)⟩
    rw [go, List.append_nil, List.append_nil, List.take_add_one, hnext]
    rfl
  · next hother =>
    refine ⟨others ++ [a], by rw [go, List.append_assoc], by simp [hlength], hle, ?_⟩
    intro b hb
    cases others with
    | nil =>
      obtain rfl := Option.some.inj hb
      exact fun hnext => hother ⟨hlength.symm, hnext⟩
    | cons c others => exact hhead b hb

lemma At.go (h : At base place p) (move : Move α) : At base (go place move) (follow base p move) := by
  cases move with
  | stay => exact h
  | up => exact h.up
  | down a => exact h.down a

lemma At.walk (h : At base place p) (moves : List (Move α)) :
    At base (moves.foldl DotSegments.go place) (moves.foldl (follow base) p) := by
  induction moves generalizing place p with
  | nil => exact h
  | cons move moves ih => exact ih (h.go move)

omit [DecidableEq α] in
/-- A place is in the directory when none of the directory's segments is missing above it. -/
lemma At.base_prefix_iff (h : At base place p) : base <+: place ↔ p.1 = base.length := by
  obtain ⟨others, rfl, -, hle, hhead⟩ := h
  constructor
  · intro hprefix
    by_contra hne
    have hlt : p.1 < base.length := lt_of_le_of_ne hle hne
    -- The segment that comes next in the directory would be the first of the others.
    obtain ⟨rest, hrest⟩ := hprefix
    have hothers : base.drop p.1 ++ rest = others := by
      refine @List.append_cancel_left _ (base.take p.1) _ _ ?_
      rw [← List.append_assoc, List.take_append_drop, hrest]
    rw [List.drop_eq_getElem_cons hlt] at hothers
    exact hhead base[p.1] (by rw [← hothers]; rfl) (List.getElem?_eq_getElem hlt)
  · intro heq
    rw [heq, List.take_length]
    exact List.prefix_append _ _

omit [DecidableEq α] in
lemma At.length (h : At base place p) : place.length = p.1 + p.2 := by
  obtain ⟨others, rfl, hlength, hle, -⟩ := h
  rw [List.length_append, List.length_take, hlength]
  omega

omit [DecidableEq α] in
/-- Going down the segments of the directory leads there. -/
lemma walk_base (rest : List (Move α)) :
    (base.map Move.down ++ rest).foldl DotSegments.go [] = rest.foldl DotSegments.go base := by
  have hdown : ∀ place : List α, (base.map Move.down).foldl DotSegments.go place = place ++ base := by
    induction base with
    | nil => simp
    | cons a base ih =>
      intro place
      rw [List.map_cons, List.foldl_cons, ih]
      simp [DotSegments.go]
  rw [List.foldl_append, hdown]
  rfl

end

/-! ## Paths -/

/-- Decode the dots of a path. -/
def decodeDots : List Char → List Char
  | '%' :: '2' :: 'e' :: path => '.' :: decodeDots path
  | '%' :: '2' :: 'E' :: path => '.' :: decodeDots path
  | c :: path => c :: decodeDots path
  | [] => []

def Move.ofSegment (segment : List Char) : Move (List Char) :=
  if segment = ['.'] then .stay else if segment = ['.', '.'] then .up else .down segment

/-- The walk along some segments.  Behind a dot segment at the end there is an empty one. -/
def moves (segments : List (List Char)) : List (Move (List Char)) :=
  segments.map Move.ofSegment ++
    if segments.getLast? = some ['.'] ∨ segments.getLast? = some ['.', '.'] then [.down []] else []

/-- The path of a place. -/
def join (place : List (List Char)) : List Char := place.flatMap ('/' :: ·)

/-- An absolute path without its query, its dots decoded and its dot segments removed. -/
def normalize (path : List Char) : List Char :=
  join ((moves ((decodeDots (path.takeWhile (· ≠ '?'))).splitOn '/').tail).foldl go [])

example : normalize "/a/b/c/./../../g".toList = "/a/g".toList := by decide

example : normalize "/a/%2e%2E/b//..?/../c".toList = "/b/".toList := by decide

/-! ## Paths below a directory -/

/-- A segment that is its own name: no separator, no dot segment and nothing that is decoded. -/
structure Plain (segment : List Char) : Prop where
  slash : '/' ∉ segment
  query : '?' ∉ segment
  percent : '%' ∉ segment
  down : Move.ofSegment segment = .down segment

section

variable {base place : List (List Char)} {path rest : List Char}

lemma join_cons (segment : List Char) (place : List (List Char)) :
    join (segment :: place) = '/' :: (segment ++ join place) := rfl

lemma mem_join {c : Char} (hc : c ∈ join place) : c = '/' ∨ ∃ segment ∈ place, c ∈ segment := by
  obtain ⟨segment, hsegment, hc⟩ := List.mem_flatMap.mp hc
  rcases List.mem_cons.mp hc with rfl | hc
  · exact .inl rfl
  · exact .inr ⟨segment, hsegment, hc⟩

lemma notMem_join_slash {c : Char} (hc : c ≠ '/') (h : ∀ segment ∈ place, c ∉ segment) :
    c ∉ join place ++ ['/'] := by
  intro hmem
  rcases List.mem_append.mp hmem with hmem | hmem
  · rcases mem_join hmem with heq | ⟨segment, hsegment, hin⟩
    · exact hc heq
    · exact h segment hsegment hin
  · exact hc (List.mem_singleton.mp hmem)

/-- There is a slash in front of everything below the root. -/
lemma exists_slash_join (place : List (List Char)) (rest : List Char) :
    ∃ path, join place ++ '/' :: rest = '/' :: path := by
  cases place with
  | nil => exact ⟨rest, rfl⟩
  | cons segment place => exact ⟨_, rfl⟩

lemma join_nil_or_slash (place : List (List Char)) :
    join place = [] ∨ (join place).head? = some '/' := by
  cases place with
  | nil => exact .inl rfl
  | cons segment place => exact .inr rfl

/-- A segment ends at a slash. -/
lemma segment_eq {b s u v : List Char} (hb : '/' ∉ b) (hs : '/' ∉ s)
    (hv : v = [] ∨ v.head? = some '/') (h : b ++ '/' :: u <+: s ++ v) : b = s := by
  obtain ⟨t, ht⟩ := h
  rw [List.append_assoc, List.cons_append] at ht
  rcases List.append_eq_append_iff.mp ht with ⟨a, rfl, hrest⟩ | ⟨a, rfl, hrest⟩
  · cases a with
    | nil => simp
    | cons c a =>
      obtain ⟨rfl, -⟩ := List.cons.inj hrest
      exact absurd hs (by simp)
  · cases a with
    | nil => simp
    | cons c a =>
      rcases hv with rfl | hv
      · exact absurd hrest (by simp)
      · rw [hrest] at hv
        obtain rfl := Option.some.inj hv
        exact absurd hb (by simp)

/-- Paths below a directory start with its path and a slash. -/
lemma join_prefix_iff (hbase : ∀ s ∈ base, '/' ∉ s) (hplace : ∀ s ∈ place, '/' ∉ s) :
    join base ++ ['/'] <+: join place ↔ base <+: place ∧ base.length < place.length := by
  induction base generalizing place with
  | nil =>
    cases place with
    | nil => simp [join]
    | cons s place => simp [join]
  | cons b base ih =>
    cases place with
    | nil => simp [join]
    | cons s place =>
      have hrest := ih (fun x hx => hbase x (by simp [hx]))
        (fun x hx => hplace x (List.mem_cons_of_mem _ hx))
      rw [join_cons, join_cons, List.cons_append, List.cons_prefix_cons, List.append_assoc,
        List.cons_prefix_cons, List.length_cons, List.length_cons, Nat.add_lt_add_iff_right]
      constructor
      · rintro ⟨-, hprefix⟩
        obtain ⟨path, hpath⟩ := exists_slash_join base []
        obtain rfl : b = s := segment_eq (hbase b (by simp)) (hplace s (by simp))
          (join_nil_or_slash place) (hpath ▸ hprefix)
        obtain ⟨hle, hlt⟩ := hrest.mp ((List.prefix_append_right_inj b).mp hprefix)
        exact ⟨⟨rfl, hle⟩, hlt⟩
      · rintro ⟨⟨rfl, hle⟩, hlt⟩
        exact ⟨rfl, (List.prefix_append_right_inj b).mpr (hrest.mpr ⟨hle, hlt⟩)⟩

/-- The segments of a path below a directory. -/
lemma splitOn_join (hbase : ∀ s ∈ base, '/' ∉ s) (rest : List Char) :
    (join base ++ '/' :: rest).splitOn '/' = [] :: base ++ rest.splitOn '/' := by
  have hslash : ∀ path : List Char, ('/' :: path).splitOn '/' = [] :: path.splitOn '/' :=
    fun path => List.splitOn_append_cons_self [] path
  induction base with
  | nil => exact hslash rest
  | cons b base ih =>
    obtain ⟨path, hpath⟩ := exists_slash_join base rest
    have ih := ih fun s hs => hbase s (by simp [hs])
    rw [hpath, hslash] at ih
    rw [join_cons, List.cons_append, List.append_assoc, hpath, hslash,
      List.splitOn_append_cons_self_of_not_mem (hbase b (by simp)), (List.cons.inj ih).2]
    rfl

lemma decodeDots_append {path : List Char} (hpath : '%' ∉ path) (rest : List Char) :
    decodeDots (path ++ rest) = path ++ decodeDots rest := by
  induction path with
  | nil => rfl
  | cons c path ih =>
    have hc : c ≠ '%' := fun heq => hpath (by simp [heq])
    have hcons : ∀ path, decodeDots (c :: path) = c :: decodeDots path := by
      intro path
      rw [decodeDots]
      · exact fun _ heq => absurd heq hc
      · exact fun _ heq => absurd heq hc
    rw [List.cons_append, hcons, ih fun h => hpath (List.mem_cons_of_mem _ h)]
    rfl

/-- Walks down plain segments first. -/
lemma moves_append (hbase : ∀ s ∈ base, Plain s) {segments : List (List Char)}
    (hne : segments ≠ []) : moves (base ++ segments) = base.map Move.down ++ moves segments := by
  have hmap : base.map Move.ofSegment = base.map Move.down :=
    List.map_congr_left fun s hs => (hbase s hs).down
  rw [moves, moves, List.map_append, hmap, List.getLast?_append_of_ne_nil _ hne,
    List.append_assoc]

/-- A walk is along its own segments. -/
lemma mem_walk {α : Type} {walk : List (Move α)} {place : List α} {a : α}
    (ha : a ∈ walk.foldl go place) : a ∈ place ∨ .down a ∈ walk := by
  induction walk generalizing place with
  | nil => exact .inl ha
  | cons move walk ih =>
    rcases ih ha with ha | ha
    · cases move with
      | stay => exact .inl ha
      | up => exact .inl (List.dropLast_subset _ ha)
      | down b =>
        rcases List.mem_append.mp ha with ha | ha
        · exact .inl ha
        · rw [List.mem_singleton.mp ha]
          exact .inr (by simp)
    · exact .inr (List.mem_cons_of_mem _ ha)

lemma slash_notMem_of_mem_moves {segments : List (List Char)} (h : ∀ s ∈ segments, '/' ∉ s)
    {s : List Char} (hs : Move.down s ∈ moves segments) : '/' ∉ s := by
  rcases List.mem_append.mp hs with hs | hs
  · obtain ⟨s', hs', heq⟩ := List.mem_map.mp hs
    unfold Move.ofSegment at heq
    split at heq
    · exact absurd heq (by simp)
    · split at heq
      · exact absurd heq (by simp)
      · rw [← Move.down.inj heq]
        exact h s' hs'
  · split at hs
    · rw [Move.down.inj (List.mem_singleton.mp hs)]
      simp
    · exact absurd hs (by simp)

/-- How far below a directory a path leads that starts in it: how many of the directory's own
segments are above the place in the end, and how many others. -/
def depth (base : List (List Char)) (rest : List Char) : ℕ × ℕ :=
  (moves ((decodeDots (rest.takeWhile (· ≠ '?'))).splitOn '/')).foldl (follow base) (base.length, 0)

/-- A path that starts in a directory is followed from there. -/
lemma normalize_join (hbase : ∀ s ∈ base, Plain s) (rest : List Char) :
    normalize (join base ++ '/' :: rest) =
      join ((moves ((decodeDots (rest.takeWhile (· ≠ '?'))).splitOn '/')).foldl go base) := by
  have hquery : ∀ c ∈ join base ++ ['/'], decide (c ≠ '?') = true := fun c hc =>
    decide_eq_true fun heq =>
      notMem_join_slash (by decide) (fun s hs => (hbase s hs).query) (heq ▸ hc)
  have hpercent : '%' ∉ join base ++ ['/'] :=
    notMem_join_slash (by decide) fun s hs => (hbase s hs).percent
  have hcons : join base ++ '/' :: rest = join base ++ ['/'] ++ rest := by simp
  rw [normalize, hcons, List.takeWhile_append_of_pos hquery, decodeDots_append hpercent,
    List.append_assoc, List.singleton_append, splitOn_join fun s hs => (hbase s hs).slash,
    List.cons_append, List.tail_cons, moves_append hbase (List.splitOn_ne_nil _ _), walk_base]

/-- A path that starts in a directory stays there when it ends below all of it. -/
lemma normalize_below_iff (hbase : ∀ s ∈ base, Plain s) (rest : List Char) :
    join base ++ ['/'] <+: normalize (join base ++ '/' :: rest) ↔
      (depth base rest).1 = base.length ∧ 0 < (depth base rest).2 := by
  have hslash : ∀ s ∈ base, '/' ∉ s := fun s hs => (hbase s hs).slash
  have hwalk := (at_base base).walk
    (moves ((decodeDots (rest.takeWhile (· ≠ '?'))).splitOn '/'))
  have hplace : ∀ s ∈ (moves ((decodeDots (rest.takeWhile (· ≠ '?'))).splitOn '/')).foldl go base,
      '/' ∉ s := by
    intro s hs
    rcases mem_walk hs with hs | hs
    · exact hslash s hs
    · exact slash_notMem_of_mem_moves (fun s hs => (Text.splitOn_spec hs).1) hs
  rw [normalize_join hbase, join_prefix_iff hslash hplace, hwalk.base_prefix_iff, hwalk.length, depth]
  constructor
  · rintro ⟨hall, hlt⟩
    exact ⟨hall, by omega⟩
  · rintro ⟨hall, hlt⟩
    exact ⟨hall, by omega⟩

end

end DotSegments
end RemoteClient

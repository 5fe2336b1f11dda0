/-
# The record of misses

A miss is noted once: `Missing.record` asks the set of paths seen so far, and puts a new one
into a ring that drops its oldest entry when it is full.  After any sequence of misses the ring
holds the last first-time misses in order (`entries_recordAll`), but nothing is ever taken out
of the set, which holds all of them (`seen_recordAll`): it stays within the bound of the ring
exactly as long as no more paths than that have missed (`record_bounded_iff`).
-/
import RemoteClient.Routes

namespace RemoteClient

/-! ## The paths that missed -/

/-- The paths of a sequence of misses, each where it missed first. -/
def firstMisses (misses : List Str) : List Str := misses.eraseDups

lemma firstMisses_concat (misses : List Str) (path : Str) :
    firstMisses (misses ++ [path]) =
      if path ∈ misses then firstMisses misses else firstMisses misses ++ [path] := by
  rw [firstMisses, List.eraseDups_append]
  split
  · next hmem =>
    have hnone : [path].removeAll misses = [] := by simp [List.removeAll, hmem]
    rw [hnone, List.eraseDups_nil, List.append_nil, firstMisses]
  · next hmem =>
    have hall : [path].removeAll misses = [path] := by simp [List.removeAll, hmem]
    rw [hall, firstMisses]
    rfl

@[simp] lemma mem_firstMisses {misses : List Str} {path : Str} :
    path ∈ firstMisses misses ↔ path ∈ misses := List.mem_eraseDups

/-- No path is there twice. -/
lemma nodup_firstMisses (misses : List Str) : (firstMisses misses).Nodup := by
  induction misses using List.reverseRecOn with
  | nil => exact List.nodup_nil
  | append_singleton misses path ih =>
    rw [firstMisses_concat]
    split
    · exact ih
    · next hmem =>
      refine ih.append (List.nodup_singleton path) ?_
      rw [List.disjoint_singleton]
      exact fun h => hmem (mem_firstMisses.mp h)

lemma firstMisses_of_nodup {misses : List Str} (h : misses.Nodup) : firstMisses misses = misses := by
  induction misses using List.reverseRecOn with
  | nil => rfl
  | append_singleton misses path ih =>
    obtain ⟨hmisses, -, hdisjoint⟩ := List.nodup_append.mp h
    have hnew : path ∉ misses := fun hmem => hdisjoint path hmem path (List.mem_singleton_self _) rfl
    rw [firstMisses_concat, if_neg hnew, ih hmisses]

/-- What missed first stays so when more misses follow. -/
lemma firstMisses_mono {earlier misses : List Str} (h : earlier <+: misses) :
    firstMisses earlier <+: firstMisses misses := by
  obtain ⟨later, rfl⟩ := h
  rw [firstMisses, firstMisses, List.eraseDups_append]
  exact List.prefix_append _ _

/-! ## The ring and the set -/

namespace Missing

/-- Nothing has missed. -/
def new : Missing := ⟨[], []⟩

/-- The record after a sequence of misses. -/
def recordAll (misses : List Str) : Missing := misses.foldl record new

lemma recordAll_concat (misses : List Str) (path : Str) :
    recordAll (misses ++ [path]) = (recordAll misses).record path := by
  rw [recordAll, List.foldl_append]
  rfl

/-- The entry of a path. -/
def entryOf (path : Str) : MissingEntry := ⟨path, toBackward path⟩

/-- The last entries, as many as the ring has room for. -/
def newest (paths : List Str) : List Str := paths.drop (paths.length - maxMissingTracked)

/-- A path put behind the newest ones drops the oldest of them from a full ring. -/
lemma newest_concat (paths : List Str) (path : Str) :
    newest (paths ++ [path]) =
      if maxMissingTracked < (newest paths).length + 1 then (newest paths ++ [path]).tail
      else newest paths ++ [path] := by
  have hlen : (newest paths).length = paths.length - (paths.length - maxMissingTracked) :=
    List.length_drop
  have hmax : 0 < maxMissingTracked := by decide
  rw [hlen, newest, newest, List.length_append, List.length_singleton]
  split
  · next hfull =>
    have hdrop : paths.length + 1 - maxMissingTracked = paths.length - maxMissingTracked + 1 := by
      omega
    rw [hdrop, List.drop_append_of_le_length (by omega), ← List.tail_drop]
    have hne : paths.drop (paths.length - maxMissingTracked) ≠ [] := by
      rw [Ne, List.drop_eq_nil_iff]
      omega
    exact (List.tail_append_of_ne_nil hne).symm
  · next hroom =>
    have hzero : paths.length - maxMissingTracked = 0 := by omega
    have hzero' : paths.length + 1 - maxMissingTracked = 0 := by omega
    rw [hzero, hzero', List.drop_zero, List.drop_zero]

/-- **Every path that ever missed is remembered.** -/
lemma seen_recordAll (misses : List Str) : (recordAll misses).seen = firstMisses misses := by
  induction misses using List.reverseRecOn with
  | nil => rfl
  | append_singleton misses path ih =>
    rw [recordAll_concat, record, ih, firstMisses_concat]
    simp only [mem_firstMisses]
    split
    · exact ih
    · rfl

/-- **The ring holds the last paths that missed for the first time**, in order. -/
lemma entries_recordAll (misses : List Str) :
    (recordAll misses).entries = (newest (firstMisses misses)).map entryOf := by
  induction misses using List.reverseRecOn with
  | nil => rfl
  | append_singleton misses path ih =>
    rw [recordAll_concat, record, seen_recordAll, firstMisses_concat]
    simp only [mem_firstMisses]
    split
    · exact ih
    · rw [newest_concat, ih]
      simp only [List.length_append, List.length_map, List.length_singleton]
      split
      · rw [List.map_tail, List.map_append]
        rfl
      · rw [List.map_append]
        rfl

/-- The paths in the ring. -/
def ring (missing : Missing) : List Str := missing.entries.map MissingEntry.requestedPath

lemma ring_recordAll (misses : List Str) : (recordAll misses).ring = newest (firstMisses misses) := by
  rw [ring, entries_recordAll, List.map_map]
  exact List.map_id _

lemma length_newest_le (paths : List Str) : (newest paths).length ≤ maxMissingTracked := by
  rw [newest, List.length_drop]
  omega

/-! ## Bounded and exact -/

/-- What the record should be after a sequence of misses: distinct paths, the newest ones, and
no more than the bound in the ring and in the set. -/
structure BoundedExact (misses : List Str) (missing : Missing) : Prop where
  nodup : missing.ring.Nodup
  newest : missing.ring = newest (firstMisses misses)
  ring_le : missing.ring.length ≤ maxMissingTracked
  seen_le : missing.seen.length ≤ maxMissingTracked

/-- All but the bound on the set holds after every sequence of misses. -/
lemma boundedExact_iff (misses : List Str) :
    BoundedExact misses (recordAll misses) ↔ (firstMisses misses).length ≤ maxMissingTracked := by
  constructor
  · intro h
    rw [← seen_recordAll]
    exact h.seen_le
  · intro h
    refine ⟨?_, ring_recordAll misses, ?_, by rwa [seen_recordAll]⟩
    · rw [ring_recordAll]
      exact (nodup_firstMisses misses).sublist (List.drop_sublist _ _)
    · rw [ring_recordAll]
      exact length_newest_le _

/-- **When the record stays bounded and exact**: in every state of a run of misses, exactly when
no more paths miss in the run than the ring has room for. -/
theorem record_bounded_iff (misses : List Str) :
    (∀ earlier, earlier <+: misses → BoundedExact earlier (recordAll earlier)) ↔
      (firstMisses misses).length ≤ maxMissingTracked := by
  constructor
  · intro h
    exact (boundedExact_iff misses).mp (h misses List.prefix_rfl)
  · intro h earlier hearlier
    exact (boundedExact_iff earlier).mpr ((firstMisses_mono hearlier).length_le.trans h)

/-- One path more than the ring has room for: `a`, `aa` and so on. -/
def manyMisses : List Str :=
  (List.range (maxMissingTracked + 1)).map fun n => List.replicate (n + 1) 'a'

/-- After that many misses all paths are still in the set. -/
theorem seen_outgrows_ring : (recordAll manyMisses).seen.length = maxMissingTracked + 1 ∧
    ¬BoundedExact manyMisses (recordAll manyMisses) := by
  have hnodup : manyMisses.Nodup := by
    refine List.Nodup.map (fun m n h => ?_) List.nodup_range
    have hlen := congrArg List.length h
    rw [List.length_replicate, List.length_replicate] at hlen
    exact Nat.succ_injective hlen
  have hseen : (recordAll manyMisses).seen.length = maxMissingTracked + 1 := by
    rw [seen_recordAll, firstMisses_of_nodup hnodup, manyMisses, List.length_map, List.length_range]
  refine ⟨hseen, fun h => ?_⟩
  have hle := h.seen_le
  omega

end Missing

/-! ## The record of the server -/

variable {c : Client} {s s' : Server}

/-- An action notes one miss, or leaves the record alone. -/
lemma perform_missing {a : Action} {r : a.Answer}
    (h : s.perform c.platform.md5 a = .ok (r, s')) :
    (∃ path, a = .logMissing path ∧ s'.missing = s.missing.record path) ∨
      (∀ path, a ≠ .logMissing path) ∧ s'.missing = s.missing := by
  cases a with
  | logMissing path =>
    obtain rfl := (Prod.mk.inj (Except.ok.inj h)).2
    exact .inl ⟨path, rfl, rfl⟩
  | cacheGet | isFile | read | metadata | canonicalize | extract =>
    obtain rfl := (Prod.mk.inj (Except.ok.inj h)).2
    exact .inr ⟨by simp, rfl⟩
  | cacheInsert | addEncoding | slotGet =>
    obtain ⟨x, -, h⟩ := Exec.bind_eq_ok.mp h
    obtain rfl := (Prod.mk.inj (Except.ok.inj h)).2
    exact .inr ⟨by simp, rfl⟩
  | slotInit i coding value =>
    obtain ⟨e, -, h⟩ := Exec.bind_eq_ok.mp h
    simp only at h
    split at h <;> (obtain rfl := (Prod.mk.inj (Except.ok.inj h)).2; exact .inr ⟨by simp, rfl⟩)

/-- Whatever requests have come, the record of the server is that of some sequence of misses. -/
lemma reachable_missing {frozen : PathBuf → Prop} {disk : FileSystem}
    {pool : Pool Action Action.Answer Server Job (Option Response)}
    (h : (c.machine frozen).Reachable (Client.start c.cfg disk) pool) :
    ∃ misses, pool.state.missing = Missing.recordAll misses := by
  induction h with
  | start => exact ⟨[], rfl⟩
  | step _ hstep ih =>
    obtain ⟨misses, hmisses⟩ := ih
    cases hstep with
    | arrive => exact ⟨misses, hmisses⟩
    | turn hperform =>
      rcases perform_missing hperform with ⟨path, -, hnew⟩ | ⟨-, hsame⟩
      · exact ⟨misses ++ [path], by rw [Missing.recordAll_concat, ← hmisses, hnew]⟩
      · exact ⟨misses, hsame.trans hmisses⟩
    | env henv => cases henv <;> exact ⟨misses, hmisses⟩

end RemoteClient

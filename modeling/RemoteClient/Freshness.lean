/-
# The age of a cache hit

A hit should be the file that was last inserted under its key.  A file that is too large is
refused before the older one under its key is looked at, which then stays: `Supersedes` says
that a call does not do so, and while all calls of a run do, its hits are fresh
(`hits_fresh_iff`).
-/
import RemoteClient.CacheRuns

namespace RemoteClient
namespace Calls

open Exec

/-! ## What was inserted last -/

/-- The data that was last inserted under each key. -/
abbrev Inserted : Type := Str → Option (List Byte)

def record (last : Inserted) : Op → Inserted
  | .get _ => last
  | .insert key data => Function.update last key (some data)
  | .addEncoding _ _ _ => last

def inserted (ops : List Op) : Inserted := ops.foldl record fun _ => none

lemma inserted_append (ops : List Op) (op : Op) :
    inserted (ops ++ [op]) = record (inserted ops) op :=
  List.foldl_append ..

variable (md5 : List Byte → Vector Byte 16)

/-- Every hit is what was last inserted under its key, with its ETag. -/
def Fresh (last : Inserted) (cache : FileCache) : Prop :=
  ∀ (key : Str) (file : CachedFile), (cache.get key).1 = some file →
    last key = some file.data ∧ file.etag = computeEtag md5 file.data

/-- A call that leaves no older file behind: what it inserts is kept, or there is nothing under
its key. -/
def Supersedes (cache : FileCache) : Op → Prop
  | .get _ => True
  | .insert key data => cache.keeps data.length = true ∨ cache.inner.map[key]? = none
  | .addEncoding _ _ _ => True

variable {md5} {lim : Lru.Limits}

/-! ## On the ideal cache -/

/-- The cached files are of a kept size and have the ETags of their data. -/
structure Filed (md5 : List Byte → Vector Byte 16) (lim : Lru.Limits) (l : Ideal) : Prop where
  nodup : (l.map Lru.Item.key).Nodup
  keeps : ∀ it ∈ l, Keeps lim it.value.data.length
  etag : ∀ it ∈ l, it.value.etag = computeEtag md5 it.value.data

/-- The cached files are the ones that were inserted last. -/
def Current (last : Inserted) (l : Ideal) : Prop := ∀ it ∈ l, last it.key = some it.value.data

/-- Where a cached file comes from: it was cached before, and not replaced, or it is inserted. -/
lemma mem_idealCall {s : Calls Ideal} (hnodup : (s.cache.map Lru.Item.key).Nodup) {op : Op}
    {it : Lru.Item Str CachedFile} (h : it ∈ (idealCall md5 lim s op).cache) :
    (∃ old ∈ s.cache, old.key = it.key ∧ old.value = it.value ∧
      ∀ data, op = .insert it.key data → ¬Keeps lim data.length) ∨
    ∃ data, op = .insert it.key data ∧ Keeps lim data.length ∧
      it.value = ⟨data, computeEtag md5 data, s.allocated⟩ := by
  cases op with
  -- a hit only moves an item
  | get key => exact Or.inl ⟨it, (Lru.hit_perm key hnodup).subset h, rfl, rfl, by simp⟩
  | insert key data =>
    simp only [idealCall] at h
    split at h
    · next hkeeps =>
      rcases List.mem_append.mp h with hold | hnew
      · obtain ⟨hmem, hne⟩ := Lru.mem_trim_others _ _ _ it hold
        refine Or.inl ⟨it, hmem, rfl, rfl, ?_⟩
        rintro data' heq
        exact absurd (Op.insert.inj heq).1.symm hne
      · obtain rfl := List.mem_singleton.mp hnew
        exact Or.inr ⟨data, rfl, hkeeps, rfl⟩
    · next hkeeps =>
      refine Or.inl ⟨it, h, rfl, rfl, ?_⟩
      rintro data' heq
      rwa [← (Op.insert.inj heq).2]
  | addEncoding key file bytes =>
    simp only [idealCall] at h
    split at h
    · -- the file that got an encoding keeps its data, only its cost is another
      rcases Lru.mem_grow hnodup h with ⟨hmem, -⟩ | ⟨old, hold, hkey, rfl⟩
      · exact Or.inl ⟨it, hmem, rfl, rfl, by simp⟩
      · exact Or.inl ⟨old, hold, rfl, rfl, by simp⟩
    · exact Or.inl ⟨it, h, rfl, rfl, by simp⟩

lemma Filed.step {s : Calls Ideal} (h : Filed md5 lim s.cache) {op : Op}
    (hnodup : ((idealCall md5 lim s op).cache.map Lru.Item.key).Nodup) :
    Filed md5 lim (idealCall md5 lim s op).cache := by
  refine ⟨hnodup, ?_, ?_⟩
  · intro it hit
    rcases mem_idealCall h.nodup hit with ⟨old, hold, -, hvalue, -⟩ | ⟨data, -, hkeeps, hvalue⟩
    · rw [← hvalue]
      exact h.keeps old hold
    · rwa [hvalue]
  · intro it hit
    rcases mem_idealCall h.nodup hit with ⟨old, hold, -, hvalue, -⟩ | ⟨data, -, -, hvalue⟩
    · rw [← hvalue]
      exact h.etag old hold
    · rw [hvalue]

/-- A call that leaves nothing behind keeps the cache current. -/
lemma Current.step {last : Inserted} {s : Calls Ideal} (h : Current last s.cache)
    (hfiled : Filed md5 lim s.cache) {op : Op}
    (hop : ∀ key data, op = .insert key data → Keeps lim data.length ∨
      key ∉ s.cache.map Lru.Item.key) :
    Current (record last op) (idealCall md5 lim s op).cache := by
  intro it hit
  rcases mem_idealCall hfiled.nodup hit with ⟨old, hold, hkey, hvalue, hkept⟩ |
    ⟨data, rfl, -, hvalue⟩
  · have hlast := h old hold
    rw [hkey, hvalue] at hlast
    cases op with
    | get key => exact hlast
    | addEncoding key file bytes => exact hlast
    | insert key data =>
      -- The old file is under another key, or else it would have been replaced.
      have hne : it.key ≠ key := by
        rintro rfl
        rcases hop it.key data rfl with hkeeps | hnone
        · exact hkept data rfl hkeeps
        · exact hnone (hkey ▸ List.mem_map_of_mem hold)
      rw [record, Function.update_of_ne hne, hlast]
  · rw [record, Function.update_self, hvalue]

/-- A call that leaves a file behind makes the cache older than what was inserted. -/
lemma not_current_of_refused {last : Inserted} {s : Calls Ideal} (hfiled : Filed md5 lim s.cache)
    {key : Str} {data : List Byte} (hkeeps : ¬Keeps lim data.length)
    (hkey : key ∈ s.cache.map Lru.Item.key) :
    ¬Current (record last (.insert key data)) (idealCall md5 lim s (.insert key data)).cache := by
  intro hcurrent
  obtain ⟨it, hit, rfl⟩ := List.mem_map.mp hkey
  have hsame : (idealCall md5 lim s (.insert it.key data)).cache = s.cache := if_neg hkeeps
  have hlast := hcurrent it (hsame ▸ hit)
  rw [record, Function.update_self] at hlast
  -- The file left behind is of a kept size, the one that was inserted is not.
  rw [Option.some.inj hlast] at hkeeps
  exact hkeeps (hfiled.keeps it hit)

/-! ## On the real one -/

lemma fresh_iff {last : Inserted} {cache : FileCache} (hsound : cache.Sound)
    (hfiled : Filed md5 lim cache.recency) :
    Fresh md5 last cache ↔ Current last cache.recency := by
  constructor
  · intro h it hit
    refine (h it.key it.value ?_).1
    rw [(FileCache.get_spec hsound it.key).1, Lru.find?_of_mem hfiled.nodup hit, Option.map_some]
  · intro h key file hget
    rw [(FileCache.get_spec hsound key).1] at hget
    obtain ⟨it, hfind, rfl⟩ := Option.map_eq_some_iff.mp hget
    obtain ⟨hit, rfl⟩ := Lru.find?_key hfind
    exact ⟨h it hit, hfiled.etag it hit⟩

lemma map_eq_none_iff {cache : FileCache} (hsound : cache.Sound) (key : Str) :
    cache.inner.map[key]? = none ↔ key ∉ cache.recency.map Lru.Item.key := by
  obtain ⟨l, hrep⟩ := hsound
  have hfind := hrep.find?_recency key
  have hnone : (cache.recency.find? fun it => it.key = key) = none ↔
      key ∉ cache.recency.map Lru.Item.key := by
    simp [List.find?_eq_none]
  rw [← hnone, FileCache.recency, hfind, Option.map_eq_none_iff]

lemma supersedes_iff {cache : FileCache} (hsound : cache.Sound) (op : Op) :
    Supersedes cache op ↔ ∀ key data, op = .insert key data →
      Keeps cache.limits data.length ∨ key ∉ cache.recency.map Lru.Item.key := by
  cases op with
  | get key => exact iff_of_true trivial nofun
  | addEncoding key file bytes => exact iff_of_true trivial nofun
  | insert key data =>
    rw [Supersedes, keeps_iff, map_eq_none_iff hsound]
    constructor
    · rintro h _ _ ⟨rfl, rfl⟩
      exact h
    · exact fun h => h key data rfl

lemma run_append {s s' : Calls FileCache} {ops : List Op} {op : Op} :
    (ops ++ [op]).foldlM (call md5) s = .ok s' ↔
      ∃ t, ops.foldlM (call md5) s = .ok t ∧ t.call md5 op = .ok s' := by
  rw [List.foldlM_append, bind_eq_ok]
  simp

/-- The files of a cache are filed in every state that a run reaches. -/
lemma run_filed {maxSize maxMemoryBytes : ℕ} {ops : List Op} {s : Calls FileCache}
    (h : ops.foldlM (call md5) (start maxSize maxMemoryBytes) = .ok s) :
    s.cache.Sound ∧ s.cache.limits = ⟨maxSize, maxMemoryBytes⟩ ∧
      Filed md5 ⟨maxSize, maxMemoryBytes⟩ s.cache.recency := by
  induction ops using List.reverseRecOn generalizing s with
  | nil =>
    obtain rfl := Except.ok.inj h
    refine ⟨sound_withBudget maxSize maxMemoryBytes, rfl, ?_⟩
    change Filed md5 _ (FileCache.withBudget maxSize maxMemoryBytes).recency
    rw [recency_withBudget]
    constructor <;> simp
  | append_singleton ops op ih =>
    obtain ⟨t, hrun, hcall⟩ := run_append.mp h
    obtain ⟨hsound, hlimits, hfiled⟩ := ih hrun
    obtain ⟨hsound', hlimits', hideal⟩ := call_ideal md5 hsound hcall
    have hrecency : s.cache.recency = _ := congrArg Calls.cache hideal
    rw [hlimits] at hrecency
    refine ⟨hsound', hlimits'.trans hlimits, ?_⟩
    have hnodup := hsound'.nodup_keys
    rw [hrecency] at hnodup ⊢
    exact Filed.step (s := t.ideal) hfiled hnodup

section

variable {maxSize maxMemoryBytes : ℕ} {ops : List Op} {s s' : Calls FileCache} {op : Op}
  {last : Inserted}

/-- After one call more of a run, the cache is fresh when the ideal one is current. -/
lemma fresh_call_iff (hrun : ops.foldlM (call md5) (start maxSize maxMemoryBytes) = .ok s)
    (hcall : s.call md5 op = .ok s') :
    Fresh md5 last s'.cache ↔
      Current last (idealCall md5 ⟨maxSize, maxMemoryBytes⟩ s.ideal op).cache := by
  obtain ⟨hsound, hlimits, -⟩ := run_filed hrun
  obtain ⟨hsound', -, hfiled'⟩ := run_filed (run_append.mpr ⟨s, hrun, hcall⟩)
  obtain ⟨-, -, hideal⟩ := call_ideal md5 hsound hcall
  rw [fresh_iff hsound' hfiled', ← hlimits, ← hideal]
  rfl

lemma fresh_call (hrun : ops.foldlM (call md5) (start maxSize maxMemoryBytes) = .ok s)
    (hcall : s.call md5 op = .ok s') (hfresh : Fresh md5 last s.cache)
    (hop : Supersedes s.cache op) : Fresh md5 (record last op) s'.cache := by
  obtain ⟨hsound, hlimits, hfiled⟩ := run_filed hrun
  rw [fresh_iff hsound hfiled] at hfresh
  rw [supersedes_iff hsound, hlimits] at hop
  rw [fresh_call_iff hrun hcall]
  exact Current.step (s := s.ideal) hfresh hfiled hop

/-- A fresh cache shows that the last call left nothing behind. -/
lemma supersedes_of_fresh_call
    (hrun : ops.foldlM (call md5) (start maxSize maxMemoryBytes) = .ok s)
    (hcall : s.call md5 op = .ok s') (hfresh : Fresh md5 (record last op) s'.cache) :
    Supersedes s.cache op := by
  obtain ⟨hsound, hlimits, hfiled⟩ := run_filed hrun
  rw [fresh_call_iff hrun hcall] at hfresh
  rw [supersedes_iff hsound, hlimits]
  rintro key data rfl
  by_contra hleft
  rw [not_or, not_not] at hleft
  exact not_current_of_refused (s := s.ideal) hfiled hleft.1 hleft.2 hfresh

lemma fresh_start : Fresh md5 (inserted []) (start maxSize maxMemoryBytes).cache := by
  intro key file hget
  have hnone : ((start maxSize maxMemoryBytes).cache.get key).1 = none := get_withBudget _ _ key
  rw [hnone] at hget
  exact absurd hget (by simp)

end

/-- **When hits are fresh.**  In every run, every hit in every state is what was last inserted
under its key, if and only if no call of the run leaves an older file behind. -/
theorem hits_fresh_iff (md5 : List Byte → Vector Byte 16) (maxSize maxMemoryBytes : ℕ)
    (ops : List Op) :
    (∀ before after s, ops = before ++ after →
      before.foldlM (call md5) (start maxSize maxMemoryBytes) = .ok s →
      Fresh md5 (inserted before) s.cache) ↔
    ∀ before op after s, ops = before ++ op :: after →
      before.foldlM (call md5) (start maxSize maxMemoryBytes) = .ok s →
      Supersedes s.cache op := by
  constructor
  · intro hfresh before op after s hops hrun
    obtain ⟨s', hcall, -⟩ := call_spec md5 (run_filed hrun).1 op
    have hfresh' := hfresh (before ++ [op]) after s' (by rw [hops]; simp)
      (run_append.mpr ⟨s, hrun, hcall⟩)
    rw [inserted_append] at hfresh'
    exact supersedes_of_fresh_call hrun hcall hfresh'
  · intro hall before
    induction before using List.reverseRecOn with
    | nil =>
      intro after s _ hrun
      obtain rfl := Except.ok.inj hrun
      exact fresh_start
    | append_singleton before op ih =>
      intro after s' hops hrun'
      rw [List.append_assoc, List.singleton_append] at hops
      obtain ⟨s, hrun, hcall⟩ := run_append.mp hrun'
      rw [inserted_append]
      exact fresh_call hrun hcall (ih _ s hops hrun) (hall before op after s hops hrun)

/-- Two bytes and then eleven under one key, in a cache of a hundred. -/
def staleOps : List Op := [.insert ['a'] [1, 2], .insert ['a'] (List.replicate 11 3)]

/-- **An old file is served.**  The second file is refused, and the first one stays. -/
theorem stale_hit : ∃ s, staleOps.foldlM (call sampleMd5) (start 4 100) = .ok s ∧
    inserted staleOps ['a'] = some (List.replicate 11 3) ∧
    (s.cache.get ['a']).1 = some ⟨[1, 2], computeEtag sampleMd5 [1, 2], 0⟩ := by
  obtain ⟨s, hrun, hsound, -, hideal⟩ := run_spec sampleMd5 (s := start 4 100)
    (sound_withBudget 4 100) staleOps
  refine ⟨s, hrun, by decide, ?_⟩
  have hstart : (start 4 100).ideal = ⟨[], [], 0⟩ := by
    simp [ideal, start, recency_withBudget]
  rw [hstart] at hideal
  have hcache : s.cache.recency = _ := congrArg Calls.cache hideal
  rw [(FileCache.get_spec hsound ['a']).1, hcache]
  decide +kernel

end Calls
end RemoteClient

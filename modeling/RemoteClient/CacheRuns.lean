/-
# Runs of the cache

Callers of the cache hold the files it gave them and report the encodings they make of them.
`Calls` is a cache with what its callers hold, and a run is a list of calls.

Every run on the real cache is the run on the ideal one (`run_refines`): the two make the
same calls on `Calls FileCache` and `Calls` of a list.  Under the protocol that every stored
file's encoding is reported at most once and is smaller than the file, the byte counter also
stays within the budget (`cache_invariant`).
-/
import RemoteClient.Cache

namespace RemoteClient

open Exec

/-! ## Calls -/

/-- A call of the cache. -/
inductive Op where
  | get (key : Str)
  | insert (key : Str) (data : List Byte)
  | addEncoding (key : Str) (file : CachedFile) (bytes : ℕ)

/-- A cache, the files its callers were given, and how many places for encodings have been
allocated. -/
structure Calls (σ : Type) where
  cache : σ
  files : List CachedFile
  allocated : ℕ

/-- The ideal cache. -/
abbrev Ideal : Type := List (Lru.Item Str CachedFile)

/-- True when the ideal cache keeps a file of `len` bytes. -/
def Keeps (lim : Lru.Limits) (len : ℕ) : Prop := lim.maxSize ≠ 0 ∧ 10 * len ≤ lim.budget

instance (lim : Lru.Limits) (len : ℕ) : Decidable (Keeps lim len) :=
  inferInstanceAs (Decidable (_ ∧ _))

namespace Calls

variable (md5 : List Byte → Vector Byte 16) (lim : Lru.Limits)

/-- One call of the cache. -/
def call (s : Calls FileCache) : Op → Exec Empty (Calls FileCache)
  | .get key =>
    let (hit, cache) := s.cache.get key
    .ok ⟨cache, s.files ++ hit.toList, s.allocated⟩
  | .insert key data => do
    let (file, cache) ← s.cache.insert md5 key data s.allocated
    return ⟨cache, s.files ++ [file], s.allocated + 1⟩
  | .addEncoding key file bytes => do
    let cache ← s.cache.addEncoding key file bytes
    return { s with cache := cache }

/-- The same call on the ideal cache. -/
def idealCall (s : Calls Ideal) : Op → Calls Ideal
  | .get key =>
    let hit := (s.cache.find? fun it => it.key = key).map Lru.Item.value
    ⟨Lru.hit key s.cache, s.files ++ hit.toList, s.allocated⟩
  | .insert key data =>
    let file := ⟨data, computeEtag md5 data, s.allocated⟩
    let cache := if Keeps lim data.length then Lru.insert lim ⟨key, file, data.length⟩ s.cache
      else s.cache
    ⟨cache, s.files ++ [file], s.allocated + 1⟩
  | .addEncoding key file bytes =>
    let cache := if ∃ it ∈ s.cache, it.key = key ∧ it.value.encodings = file.encodings then
      Lru.grow lim key bytes s.cache else s.cache
    { s with cache := cache }

/-- An empty cache before the first call. -/
def start (maxSize maxMemoryBytes : ℕ) : Calls FileCache :=
  ⟨FileCache.withBudget maxSize maxMemoryBytes, [], 0⟩

/-- The ideal cache that a cache stands for. -/
def ideal (s : Calls FileCache) : Calls Ideal := ⟨s.cache.recency, s.files, s.allocated⟩

end Calls

/-! ## The real cache makes the ideal cache's moves -/

lemma sound_withBudget (maxSize maxMemoryBytes : ℕ) :
    (FileCache.withBudget maxSize maxMemoryBytes).Sound := by
  refine ⟨[], List.Pairwise.nil, List.nodup_nil, fun k e => ?_, fun s k => ?_, by simp, rfl⟩
  · simp [FileCache.withBudget, Inner.empty]
  · simp [FileCache.withBudget, Inner.empty]

lemma recency_withBudget (maxSize maxMemoryBytes : ℕ) :
    (FileCache.withBudget maxSize maxMemoryBytes).recency = [] := by
  simp [FileCache.recency, Inner.recency, FileCache.withBudget, Inner.empty]

lemma get_withBudget (maxSize maxMemoryBytes : ℕ) (key : Str) :
    ((FileCache.withBudget maxSize maxMemoryBytes).get key).1 = none := by
  rw [(FileCache.get_spec (sound_withBudget maxSize maxMemoryBytes) key).1, recency_withBudget]
  rfl

lemma keeps_iff (cache : FileCache) (len : ℕ) : cache.keeps len = true ↔ Keeps cache.limits len := by
  simp [FileCache.keeps, Keeps, FileCache.limits]

namespace Calls

variable (md5 : List Byte → Vector Byte 16)

/-- One call: it returns, and does what the ideal call does. -/
lemma call_spec {s : Calls FileCache} (h : s.cache.Sound) (op : Op) :
    ∃ s', s.call md5 op = .ok s' ∧ s'.cache.Sound ∧ s'.cache.limits = s.cache.limits ∧
      s'.ideal = idealCall md5 s.cache.limits s.ideal op := by
  cases op with
  | get key =>
    obtain ⟨hhit, hsound, hlimits, hrecency⟩ := FileCache.get_spec h key
    refine ⟨⟨(s.cache.get key).2, s.files ++ (s.cache.get key).1.toList, s.allocated⟩, rfl,
      hsound, hlimits, ?_⟩
    simp only [ideal, idealCall, hhit, hrecency]
  | insert key data =>
    obtain ⟨cache', hok, hsound, hlimits, hrecency⟩ :=
      FileCache.insert_spec md5 h key data s.allocated
    refine ⟨⟨cache', s.files ++ [⟨data, computeEtag md5 data, s.allocated⟩], s.allocated + 1⟩,
      ?_, hsound, hlimits, ?_⟩
    · simp only [call, hok, ok_bind]
      rfl
    · simp only [ideal, idealCall, hrecency, keeps_iff]
  | addEncoding key file bytes =>
    obtain ⟨cache', hok, hsound, hlimits, hrecency⟩ := FileCache.addEncoding_spec h key file bytes
    refine ⟨{ s with cache := cache' }, ?_, hsound, hlimits, ?_⟩
    · simp only [call, hok, ok_bind]
      rfl
    · simp only [ideal, hrecency]
      rfl

/-- What a call that returned has done. -/
lemma call_ideal {s s' : Calls FileCache} (h : s.cache.Sound) {op : Op}
    (hcall : s.call md5 op = .ok s') :
    s'.cache.Sound ∧ s'.cache.limits = s.cache.limits ∧
      s'.ideal = idealCall md5 s.cache.limits s.ideal op := by
  obtain ⟨s₁, hcall₁, hspec⟩ := call_spec md5 h op
  obtain rfl := Except.ok.inj (hcall₁.symm.trans hcall)
  exact hspec

/-- A run of calls: it returns, and is the ideal run. -/
lemma run_spec {s : Calls FileCache} (h : s.cache.Sound) (ops : List Op) :
    ∃ s', ops.foldlM (call md5) s = .ok s' ∧ s'.cache.Sound ∧
      s'.cache.limits = s.cache.limits ∧
      s'.ideal = ops.foldl (idealCall md5 s.cache.limits) s.ideal := by
  induction ops generalizing s with
  | nil => exact ⟨s, rfl, h, rfl, rfl⟩
  | cons op ops ih =>
    obtain ⟨s₁, hcall, hsound, hlimits, hideal⟩ := call_spec md5 h op
    obtain ⟨s₂, hrun, hsound₂, hlimits₂, hideal₂⟩ := ih hsound
    refine ⟨s₂, ?_, hsound₂, hlimits₂.trans hlimits, ?_⟩
    · rw [List.foldlM_cons, hcall, ok_bind, hrun]
    · rw [hideal₂, hlimits, hideal, List.foldl_cons]

/-! ## Minimal eviction -/

/-- What a call may cost the cached files.  A hit costs none.  The file that is inserted or
that grows stays, and no other leaves while both limits would hold with it. -/
def Spares (lim : Lru.Limits) (before after : Ideal) : Op → Prop
  | .get _ => ∀ it ∈ before, it ∈ after
  | .insert key data =>
    (Keeps lim data.length → key ∈ after.map Lru.Item.key) ∧
      Lru.NoNeedlessVictim (lim.HasRoom data.length) key before after
  | .addEncoding key _ bytes =>
    (∀ it ∈ before, it.key = key → key ∈ after.map Lru.Item.key ∧
      Lru.NoNeedlessVictim (lim.HasBytes (it.size + bytes)) key before after) ∧
    (key ∉ before.map Lru.Item.key → after = before)

lemma noNeedlessVictim_self (fits : Ideal → Prop) (key : Str) (l : Ideal) :
    Lru.NoNeedlessVictim fits key l l := by
  intro pre it post hothers hgone
  have hmem : it ∈ Lru.others key l := by
    rw [hothers]
    exact List.mem_append_right _ List.mem_cons_self
  exact absurd (List.mem_map_of_mem (Lru.mem_others.mp hmem).1) hgone

lemma idealCall_spares (lim : Lru.Limits) {s : Calls Ideal}
    (hnodup : (s.cache.map Lru.Item.key).Nodup) (op : Op) :
    Spares lim s.cache (idealCall md5 lim s op).cache op := by
  cases op with
  | get key => exact fun it hit => (Lru.hit_perm key hnodup).symm.subset hit
  | insert key data =>
    simp only [Spares, idealCall]
    split
    · refine ⟨fun _ => ?_, Lru.insert_noNeedlessVictim lim ⟨key, _, data.length⟩ s.cache⟩
      rw [Lru.insert, List.map_append]
      exact List.mem_append_right _ (List.mem_singleton_self _)
    · next hkeeps => exact ⟨fun h => absurd h hkeeps, noNeedlessVictim_self _ key s.cache⟩
  | addEncoding key file bytes =>
    simp only [Spares, idealCall]
    split
    · next hex =>
      obtain ⟨it, hit, rfl, -⟩ := hex
      have hfind := Lru.find?_of_mem hnodup hit
      refine ⟨fun it' hit' hkey => ?_, fun hnot => absurd (List.mem_map_of_mem hit) hnot⟩
      rw [List.inj_on_of_nodup_map hnodup hit' hit hkey]
      exact ⟨Lru.key_mem_grow lim bytes (List.mem_map_of_mem hit),
        Lru.grow_noNeedlessVictim lim bytes hfind⟩
    · refine ⟨fun it hit hkey => ⟨?_, noNeedlessVictim_self _ key s.cache⟩, fun _ => rfl⟩
      rw [← hkey]
      exact List.mem_map_of_mem hit

variable {md5}

/-- **The cache is an ideal LRU list with minimal eviction.**  Every run of calls returns, and
the cached files in order of use are those of the ideal cache after the same calls, which
gave its callers the same files.  After it, no call evicts the file it is about, nor any other
while both limits would hold with that one kept. -/
theorem run_refines (maxSize maxMemoryBytes : ℕ) (ops : List Op) :
    ∃ s, ops.foldlM (call md5) (start maxSize maxMemoryBytes) = .ok s ∧
      s.ideal = ops.foldl (idealCall md5 ⟨maxSize, maxMemoryBytes⟩) ⟨[], [], 0⟩ ∧
      ∀ op s', s.call md5 op = .ok s' →
        Spares ⟨maxSize, maxMemoryBytes⟩ s.cache.recency s'.cache.recency op := by
  have hstart : (start maxSize maxMemoryBytes).ideal = ⟨[], [], 0⟩ := by
    simp [ideal, start, recency_withBudget]
  obtain ⟨s, hrun, hsound, hlimits, hideal⟩ :=
    run_spec md5 (s := start maxSize maxMemoryBytes)
      (sound_withBudget maxSize maxMemoryBytes) ops
  refine ⟨s, hrun, by rw [hideal, hstart]; rfl, fun op s' hcall => ?_⟩
  obtain ⟨-, -, hideal₁⟩ := call_ideal md5 hsound hcall
  have hspares := idealCall_spares md5 s.cache.limits (s := s.ideal) hsound.nodup_keys op
  rw [← hideal₁, hlimits] at hspares
  exact hspares

/-! ## The budget -/

/-- A call that respects the protocol: an encoding is reported for a file the cache gave out,
at most once, and is smaller than the file. -/
def Allowed (files : List CachedFile) (counted : List ℕ) : Op → Prop
  | .get _ => True
  | .insert _ _ => True
  | .addEncoding _ file bytes =>
    file ∈ files ∧ file.encodings ∉ counted ∧ bytes < file.data.length

/-- The files whose encodings a call reports. -/
def counts : Op → List ℕ
  | .get _ => []
  | .insert _ _ => []
  | .addEncoding _ file _ => [file.encodings]

/-- The states of a cache, with the files whose encodings were reported, that runs respecting
the protocol reach. -/
inductive Reachable (md5 : List Byte → Vector Byte 16) (maxSize maxMemoryBytes : ℕ) :
    Calls FileCache → List ℕ → Prop
  | start : Reachable md5 maxSize maxMemoryBytes (start maxSize maxMemoryBytes) []
  | call {s s' : Calls FileCache} {counted : List ℕ} (op : Op)
      (h : Reachable md5 maxSize maxMemoryBytes s counted) (hallowed : Allowed s.files counted op)
      (hcall : s.call md5 op = .ok s') :
      Reachable md5 maxSize maxMemoryBytes s' (counts op ++ counted)

/-- The account of an ideal cache: every cached file was given out under its own number, is of
a kept size, and takes at most its bytes, or twice that once its encoding is counted; and the
limits hold. -/
structure Accounted (lim : Lru.Limits) (s : Calls Ideal) (counted : List ℕ) : Prop where
  nodup : (s.cache.map Lru.Item.key).Nodup
  files_lt : ∀ f ∈ s.files, f.encodings < s.allocated
  files_inj : ∀ f ∈ s.files, ∀ g ∈ s.files, f.encodings = g.encodings → f = g
  cached : ∀ it ∈ s.cache, it.value ∈ s.files
  keeps : ∀ it ∈ s.cache, Keeps lim it.value.data.length
  size_le : ∀ it ∈ s.cache, it.size ≤
    if it.value.encodings ∈ counted then 2 * it.value.data.length else it.value.data.length
  length_le : s.cache.length ≤ lim.maxSize
  total_le : Lru.total s.cache ≤ lim.budget

namespace Accounted

variable {lim : Lru.Limits} {s : Calls Ideal} {counted : List ℕ}

lemma get (h : Accounted lim s counted) (key : Str) :
    Accounted lim (idealCall md5 lim s (.get key)) counted := by
  have hperm := Lru.hit_perm key h.nodup
  have hfiles : ∀ f ∈ s.files ++ ((s.cache.find? fun it => it.key = key).map
      Lru.Item.value).toList, f ∈ s.files := by
    intro f hf
    rcases List.mem_append.mp hf with hf | hf
    · exact hf
    · obtain ⟨it, hit, rfl⟩ := Option.map_eq_some_iff.mp (Option.mem_toList.mp hf)
      exact h.cached it (List.mem_of_find?_eq_some hit)
  exact {
    nodup := (hperm.map Lru.Item.key).nodup_iff.mpr h.nodup
    files_lt := fun f hf => h.files_lt f (hfiles f hf)
    files_inj := fun f hf g hg => h.files_inj f (hfiles f hf) g (hfiles g hg)
    cached := fun it hit => List.mem_append_left _ (h.cached it (hperm.subset hit))
    keeps := fun it hit => h.keeps it (hperm.subset hit)
    size_le := fun it hit => h.size_le it (hperm.subset hit)
    length_le := hperm.length_eq.trans_le h.length_le
    total_le := (Lru.total_perm hperm).trans_le h.total_le }

lemma insert (h : Accounted lim s counted) (key : Str) (data : List Byte) :
    Accounted lim (idealCall md5 lim s (.insert key data)) counted := by
  let file : CachedFile := ⟨data, computeEtag md5 data, s.allocated⟩
  have hlt : ∀ f ∈ s.files ++ [file], f.encodings < s.allocated + 1 := by
    intro f hf
    rcases List.mem_append.mp hf with hf | hf
    · exact Nat.lt_succ_of_lt (h.files_lt f hf)
    · rw [List.mem_singleton.mp hf]
      exact Nat.lt_succ_self _
  have hinj : ∀ f ∈ s.files ++ [file], ∀ g ∈ s.files ++ [file],
      f.encodings = g.encodings → f = g := by
    -- A fresh number is larger than those of all older files.
    intro f hf g hg heq
    rcases List.mem_append.mp hf with hf | hf <;> rcases List.mem_append.mp hg with hg | hg
    · exact h.files_inj f hf g hg heq
    · rw [List.mem_singleton.mp hg] at heq
      exact absurd heq (ne_of_lt (h.files_lt f hf))
    · rw [List.mem_singleton.mp hf] at heq
      exact absurd heq.symm (ne_of_lt (h.files_lt g hg))
    · rw [List.mem_singleton.mp hf, List.mem_singleton.mp hg]
  by_cases hkeeps : Keeps lim data.length
  · let it : Lru.Item Str CachedFile := ⟨key, file, data.length⟩
    have hcache : (idealCall md5 lim s (.insert key data)).cache = Lru.insert lim it s.cache :=
      if_pos hkeeps
    have hold := Lru.mem_trim_others (lim.HasRoom it.size) key s.cache
    have hmem : ∀ x ∈ Lru.insert lim it s.cache, x ∈ s.cache ∨ x = it := by
      intro x hx
      rcases List.mem_append.mp hx with hx | hx
      · exact .inl (hold x hx).1
      · exact .inr (List.mem_singleton.mp hx)
    -- The loop stops when the file fits or when nothing is left; a kept file alone fits.
    have hroom : (Lru.insert lim it s.cache).length ≤ lim.maxSize ∧
        Lru.total (Lru.insert lim it s.cache) ≤ lim.budget := by
      obtain ⟨hmax, hbudget⟩ := hkeeps
      rw [Lru.insert, List.length_append, Lru.total_append]
      change _ + 1 ≤ _ ∧ _ + (data.length + 0) ≤ _
      rcases Lru.trim_fits (p := lim.HasRoom it.size) (Lru.others it.key s.cache) with hfits | hnil
      · exact ⟨hfits.1, hfits.2⟩
      · rw [hnil, List.length_nil, Lru.total_nil]
        omega
    have hnodup : ((Lru.insert lim it s.cache).map Lru.Item.key).Nodup := by
      have hsub : (Lru.trim (lim.HasRoom it.size) (Lru.others key s.cache)).Sublist s.cache :=
        (Lru.trim_suffix _).sublist.trans List.filter_sublist
      rw [Lru.insert, List.map_append]
      refine (h.nodup.sublist (hsub.map Lru.Item.key)).append (List.nodup_singleton _) ?_
      intro k hk hk'
      obtain ⟨x, hx, rfl⟩ := List.mem_map.mp hk
      exact (hold x hx).2 (List.mem_singleton.mp hk')
    exact {
      nodup := hcache ▸ hnodup
      files_lt := hlt
      files_inj := hinj
      cached := fun x hx => by
        rcases hmem x (hcache ▸ hx) with hx | rfl
        · exact List.mem_append_left _ (h.cached x hx)
        · exact List.mem_append_right _ (List.mem_singleton_self _)
      keeps := fun x hx => by
        rcases hmem x (hcache ▸ hx) with hx | rfl
        · exact h.keeps x hx
        · exact hkeeps
      size_le := fun x hx => by
        rcases hmem x (hcache ▸ hx) with hx | rfl
        · exact h.size_le x hx
        · change data.length ≤ if s.allocated ∈ counted then 2 * data.length else data.length
          split <;> omega
      length_le := hcache ▸ hroom.1
      total_le := hcache ▸ hroom.2 }
  · have hcache : (idealCall md5 lim s (.insert key data)).cache = s.cache := if_neg hkeeps
    exact {
      nodup := hcache ▸ h.nodup
      files_lt := hlt
      files_inj := hinj
      cached := fun x hx => List.mem_append_left _ (h.cached x (hcache ▸ hx))
      keeps := fun x hx => h.keeps x (hcache ▸ hx)
      size_le := fun x hx => h.size_le x (hcache ▸ hx)
      length_le := hcache ▸ h.length_le
      total_le := hcache ▸ h.total_le }

/-- Counting one more file only loosens the account. -/
lemma size_le_cons (h : Accounted lim s counted) (n : ℕ) : ∀ it ∈ s.cache, it.size ≤
    if it.value.encodings ∈ n :: counted then 2 * it.value.data.length
    else it.value.data.length := by
  intro it hit
  have hsize := h.size_le it hit
  by_cases hcounted : it.value.encodings ∈ counted
  · rw [if_pos (List.mem_cons_of_mem n hcounted)]
    rwa [if_pos hcounted] at hsize
  · rw [if_neg hcounted] at hsize
    split <;> omega

lemma addEncoding (h : Accounted lim s counted) {key : Str} {file : CachedFile} {bytes : ℕ}
    (hallowed : Allowed s.files counted (.addEncoding key file bytes)) :
    Accounted lim (idealCall md5 lim s (.addEncoding key file bytes))
      (file.encodings :: counted) := by
  obtain ⟨hfile, hnew, hsmaller⟩ := hallowed
  by_cases hex : ∃ it ∈ s.cache, it.key = key ∧ it.value.encodings = file.encodings
  · have hcache : (idealCall md5 lim s (.addEncoding key file bytes)).cache =
        Lru.grow lim key bytes s.cache := if_pos hex
    obtain ⟨it, hit, hkey, hsame⟩ := hex
    have hvalue : it.value = file := h.files_inj _ (h.cached it hit) _ hfile hsame
    have hperm := Lru.grow_perm lim bytes h.nodup hit hkey
    have hold := Lru.mem_trim_others (lim.HasBytes (it.size + bytes)) key s.cache
    -- The file was not charged before, so the entry has the size of its bytes alone.
    have hsize : it.size ≤ file.data.length := by
      have hle := h.size_le it hit
      rwa [hvalue, if_neg hnew] at hle
    have hkeeps : Keeps lim file.data.length := hvalue ▸ h.keeps it hit
    have hkept : ((({ it with size := it.size + bytes } : Lru.Item Str CachedFile) ::
        Lru.trim (lim.HasBytes (it.size + bytes)) (Lru.others key s.cache)).map
          Lru.Item.key).Nodup ∧ (Lru.trim (lim.HasBytes (it.size + bytes))
            (Lru.others key s.cache)).length + 1 ≤ s.cache.length := by
      have hwhole : (it :: Lru.others it.key s.cache).Perm s.cache :=
        Lru.perm_filter_ne h.nodup hit
      rw [hkey] at hwhole
      have hsub := (Lru.trim_suffix (p := lim.HasBytes (it.size + bytes))
        (Lru.others key s.cache)).sublist
      have hnodup := (hwhole.map Lru.Item.key).nodup_iff.mpr h.nodup
      rw [List.map_cons] at hnodup
      refine ⟨?_, ?_⟩
      · rw [List.map_cons]
        exact hnodup.sublist ((hsub.map Lru.Item.key).cons_cons it.key)
      · rw [← hwhole.length_eq, List.length_cons]
        exact Nat.succ_le_succ hsub.length_le
    have hmem : ∀ x ∈ Lru.grow lim key bytes s.cache,
        x = { it with size := it.size + bytes } ∨ x ∈ s.cache := by
      intro x hx
      rcases List.mem_cons.mp (hperm.subset hx) with rfl | hx
      · exact .inl rfl
      · exact .inr (hold x hx).1
    -- An emptied cache has room for twice a kept file, and an encoding is smaller than its file.
    have htotal : Lru.total (Lru.grow lim key bytes s.cache) ≤ lim.budget := by
      rw [Lru.total_perm hperm, Lru.total_cons]
      rcases Lru.trim_fits (p := lim.HasBytes (it.size + bytes)) (Lru.others key s.cache)
        with hfits | hnil
      · have hfits' : _ + (it.size + bytes) ≤ lim.budget := hfits
        change it.size + bytes + _ ≤ _
        omega
      · rw [hnil, Lru.total_nil]
        obtain ⟨-, hbudget⟩ := hkeeps
        change it.size + bytes + 0 ≤ _
        omega
    exact {
      nodup := by
        rw [hcache, (hperm.map Lru.Item.key).nodup_iff]
        exact hkept.1
      files_lt := h.files_lt
      files_inj := h.files_inj
      cached := fun x hx => by
        rcases hmem x (hcache ▸ hx) with rfl | hx
        · exact h.cached it hit
        · exact h.cached x hx
      keeps := fun x hx => by
        rcases hmem x (hcache ▸ hx) with rfl | hx
        · exact h.keeps it hit
        · exact h.keeps x hx
      size_le := fun x hx => by
        rcases hmem x (hcache ▸ hx) with rfl | hx
        · rw [if_pos (hsame ▸ List.mem_cons_self)]
          change it.size + bytes ≤ 2 * it.value.data.length
          rw [hvalue]
          omega
        · exact h.size_le_cons file.encodings x hx
      length_le := by
        rw [hcache, hperm.length_eq, List.length_cons]
        exact hkept.2.trans h.length_le
      total_le := hcache ▸ htotal }
  · have hcache : (idealCall md5 lim s (.addEncoding key file bytes)).cache = s.cache :=
      if_neg hex
    exact {
      nodup := hcache ▸ h.nodup
      files_lt := h.files_lt
      files_inj := h.files_inj
      cached := fun x hx => h.cached x (hcache ▸ hx)
      keeps := fun x hx => h.keeps x (hcache ▸ hx)
      size_le := fun x hx => h.size_le_cons file.encodings x (hcache ▸ hx)
      length_le := hcache ▸ h.length_le
      total_le := hcache ▸ h.total_le }

/-- One call keeps the account. -/
lemma idealCall (h : Accounted lim s counted) {op : Op} (hallowed : Allowed s.files counted op) :
    Accounted lim (idealCall md5 lim s op) (counts op ++ counted) := by
  cases op with
  | get key => exact h.get key
  | insert key data => exact h.insert key data
  | addEncoding key file bytes => exact h.addEncoding hallowed

end Accounted

/-- Every state a run reaches is sound, and its account holds. -/
lemma Reachable.accounted {maxSize maxMemoryBytes : ℕ} {s : Calls FileCache} {counted : List ℕ}
    (h : Reachable md5 maxSize maxMemoryBytes s counted) :
    s.cache.Sound ∧ s.cache.limits = ⟨maxSize, maxMemoryBytes⟩ ∧
      Accounted ⟨maxSize, maxMemoryBytes⟩ s.ideal counted := by
  induction h with
  | start =>
    have hideal : (Calls.start maxSize maxMemoryBytes).ideal = ⟨[], [], 0⟩ := by
      simp [ideal, Calls.start, recency_withBudget]
    refine ⟨sound_withBudget maxSize maxMemoryBytes, rfl, ?_⟩
    rw [hideal]
    constructor <;> simp
  | @call s s' counted op _ hallowed hcall ih =>
    obtain ⟨hsound, hlimits, haccount⟩ := ih
    obtain ⟨hsound₁, hlimits₁, hideal⟩ := call_ideal md5 hsound hcall
    refine ⟨hsound₁, hlimits₁.trans hlimits, ?_⟩
    rw [hideal, hlimits]
    exact haccount.idealCall hallowed

/-- The map and the order hold the same entries, the counters are right, and both limits
hold. -/
structure Invariant (cache : FileCache) : Prop where
  order_iff : ∀ (seq : ℕ) (key : Str), cache.inner.order[seq]? = some key ↔
    ∃ entry : Entry, cache.inner.map[key]? = some entry ∧ entry.seq = seq
  seq_lt : ∀ (key : Str) (entry : Entry), cache.inner.map[key]? = some entry → entry.seq < cache.inner.nextSeq
  memory_eq : cache.inner.currentMemory = (cache.inner.map.toList.map fun x => x.2.size).sum
  size_le : cache.inner.map.size ≤ cache.maxSize
  memory_le : cache.inner.currentMemory ≤ cache.maxMemoryBytes

/-- **The cache keeps its invariant and its limits**, for every number of entries and every
budget, in every state that a run respecting the protocol reaches; and the next call returns:
its eviction loops end, and nothing is subtracted below zero. -/
theorem cache_invariant {maxSize maxMemoryBytes : ℕ} {s : Calls FileCache} {counted : List ℕ}
    (h : Reachable md5 maxSize maxMemoryBytes s counted) :
    Invariant s.cache ∧ s.cache.maxSize = maxSize ∧ s.cache.maxMemoryBytes = maxMemoryBytes ∧
      ∀ op, ∃ s', s.call md5 op = .ok s' := by
  obtain ⟨hsound, hlimits, haccount⟩ := h.accounted
  have hcalls : ∀ op, ∃ s', s.call md5 op = .ok s' := fun op => by
    obtain ⟨s', hcall, -⟩ := call_spec md5 hsound op
    exact ⟨s', hcall⟩
  obtain ⟨hmax, hbudget⟩ := Lru.Limits.mk.inj hlimits
  obtain ⟨l, hrep⟩ := hsound
  have hrecency : s.ideal.cache = l.map toItem := hrep.recency_eq
  have hlength := haccount.length_le
  have htotal := haccount.total_le
  rw [hrecency, List.length_map] at hlength
  rw [hrecency, total_map_toItem] at htotal
  refine ⟨⟨fun seq key => ?_, fun key entry hget => ?_, ?_, ?_, ?_⟩, hmax, hbudget, hcalls⟩
  · rw [hrep.order_iff]
    exact exists_congr fun e => and_congr_left fun _ => (hrep.map_iff key e).symm
  · exact hrep.seq_lt _ ((hrep.map_iff key entry).mp hget)
  · rw [hrep.memory, (hrep.map_perm.map fun x => x.2.size).sum_eq]
  · rw [hrep.map_size, hmax]
    exact hlength
  · rw [hrep.memory, hbudget]
    exact htotal

/-- The digest of the samples: the first byte of the content, or zero. -/
def sampleMd5 (data : List Byte) : Vector Byte 16 := Vector.replicate 16 (data.headD 0)

/-- After a file of five bytes and its encoding of four, in a cache of one entry and fifty
bytes. -/
theorem cache_invariant_sample :
    ∃ s s', (start 1 50).call sampleMd5 (.insert ['a'] [1, 1, 1, 1, 1]) = .ok s ∧
      s.call sampleMd5 (.addEncoding ['a']
        ⟨[1, 1, 1, 1, 1], computeEtag sampleMd5 [1, 1, 1, 1, 1], 0⟩ 4) = .ok s' ∧
      Invariant s'.cache := by
  obtain ⟨s, hinsert, hsound, -, hideal⟩ := call_spec sampleMd5
    (s := start 1 50) (sound_withBudget 1 50) (.insert ['a'] [1, 1, 1, 1, 1])
  obtain ⟨s', hadd, -⟩ := call_spec sampleMd5 hsound (.addEncoding ['a']
    ⟨[1, 1, 1, 1, 1], computeEtag sampleMd5 [1, 1, 1, 1, 1], 0⟩ 4)
  have hfiles : s.files = [⟨[1, 1, 1, 1, 1], computeEtag sampleMd5 [1, 1, 1, 1, 1], 0⟩] :=
    congrArg Calls.files hideal
  have hallowed : Allowed s.files [] (.addEncoding ['a']
      ⟨[1, 1, 1, 1, 1], computeEtag sampleMd5 [1, 1, 1, 1, 1], 0⟩ 4) := by
    rw [hfiles]
    exact ⟨by simp, by simp, by decide⟩
  exact ⟨s, s', hinsert, hadd,
    (cache_invariant ((Reachable.start.call (.insert ['a'] [1, 1, 1, 1, 1]) trivial hinsert).call
      _ hallowed hadd)).1⟩

end Calls
end RemoteClient

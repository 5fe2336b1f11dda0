/-
# A warm cache

The warm-up goes through the list of files and stores those that the client always asks for, each
under the key that the browser's request for it has.  It is nothing but these insertions
(`warmFiles_eq`), the first `limit` of them; and when the cache has room for them all, each of the
files is a hit from then on (`warm_cache_hits`).
-/
import RemoteClient.CacheRuns
import RemoteClient.Copies
import RemoteClient.Grf.NoPanic
import RemoteClient.Listing

namespace RemoteClient

open Exec

/-! ## What is warmed -/

namespace Client

variable (c : Client)

/-- The files that are listed under some numbers. -/
def filesOf (reachable : List (BitVec 32)) : List IndexedFile :=
  reachable.filterMap fun i => c.index.files[i.toNat]?

/-- The listed files. -/
def listed : List IndexedFile := c.filesOf c.index.reachable

/-- The bytes of a file that is to be warm, if it can be read. -/
def warmData (file : IndexedFile) : Option (List Byte) :=
  if c.isWarm file.name then (c.readFound file).toOption else none

/-- The key that the browser's request for a file has. -/
def warmKey (file : IndexedFile) : Str :=
  normForward c.platform.text (Encoding.toMojibake c.platform.text file.name)

/-- The files to warm, with their bytes. -/
def toWarm (files : List IndexedFile) : List (IndexedFile × List Byte) :=
  files.filterMap fun file => (c.warmData file).map fun data => (file, data)

/-- Store some bytes, each under its key. -/
def storeAll : List (Str × List Byte) → Work Unit
  | [] => return ()
  | (key, data) :: items => do
    let _ ← Work.cacheInsert key data
    storeAll items

/-- Every file of the list is there, and reading it ends. -/
structure Sturdy (reachable : List (BitVec 32)) : Prop where
  there : ∀ i ∈ reachable, ∃ file, c.index.files[i.toNat]? = some file ∧
    Ends (c.readFound file) fun _ => True

variable {c}

lemma toWarm_cons (file : IndexedFile) (files : List IndexedFile) :
    c.toWarm (file :: files) = ((c.warmData file).map fun data => (file, data)).toList ++
      c.toWarm files := by
  rw [toWarm, List.filterMap_cons, ← toWarm]
  cases c.warmData file <;> rfl

/-- **The warm-up is nothing but insertions**: those of the first files to warm, in the order of
the list. -/
lemma warmFiles_eq (limit : ℕ) {reachable : List (BitVec 32)} (h : c.Sturdy reachable)
    (warmed : ℕ) {files : List (IndexedFile × List Byte)}
    (hfiles : files = (c.toWarm (c.filesOf reachable)).take (limit - warmed)) :
    c.warmFiles limit reachable warmed =
      storeAll (files.map fun x => (c.warmKey x.1, x.2)) >>= fun _ =>
        .ret (.ok (warmed + files.length)) := by
  induction reachable generalizing warmed files with
  | nil =>
    obtain rfl : files = [] := hfiles.trans List.take_nil
    rfl
  | cons i reachable ih =>
    obtain ⟨file, hfile, hends⟩ := h.there i List.mem_cons_self
    have hrest : c.Sturdy reachable := ⟨fun j hj => h.there j (List.mem_cons_of_mem i hj)⟩
    have hcons : c.filesOf (i :: reachable) = file :: c.filesOf reachable :=
      List.filterMap_cons_some hfile
    rw [hcons, toWarm_cons] at hfiles
    rw [warmFiles, index_eq_of_getElem? hfile]
    simp only
    split
    · next hlimit =>
      obtain rfl : files = [] := by rw [hfiles, Nat.sub_eq_zero_of_le hlimit, List.take_zero]
      rfl
    · next hlimit =>
      have hleft : limit - warmed = limit - (warmed + 1) + 1 := by omega
      split
      · next hcold =>
        have hdata : c.warmData file = none := if_neg (by simpa using hcold)
        rw [hdata, Option.map_none, Option.toList_none, List.nil_append] at hfiles
        exact ih hrest warmed hfiles
      · next hwarm =>
        rw [Bool.not_eq_true', Bool.not_eq_false] at hwarm
        have hdata : c.warmData file = (c.readFound file).toOption := if_pos hwarm
        cases hread : c.readFound file with
        | ok data =>
          rw [hdata, hread] at hfiles
          change files = ((file, data) :: c.toWarm _).take (limit - warmed) at hfiles
          rw [hleft, List.take_succ_cons] at hfiles
          subst hfiles
          have htail := @ih hrest (warmed + 1) _ rfl
          rw [List.map_cons, storeAll, List.length_cons, ← Nat.add_assoc, Nat.add_right_comm]
          simp only [htail]
          rfl
        | error stop =>
          rw [hread] at hends
          cases stop with
          | err e =>
            rw [hdata, hread] at hfiles
            exact ih hrest warmed hfiles
          | panic => exact hends.elim
          | hang => exact hends.elim

end Client

/-! ## What is kept -/

/-- There is room for values of some sizes, beside what is there. -/
structure Roomy (lim : Lru.Limits) (l : List (Lru.Item Str CachedFile)) (sizes : List ℕ) : Prop where
  keeps : ∀ n ∈ sizes, Keeps lim n
  count : l.length + sizes.length ≤ lim.maxSize
  bytes : Lru.total l + sizes.sum ≤ lim.budget

section

variable (md5 : List Byte → Vector Byte 16) {s : Server}

lemma copy_eq (hsound : s.cache.Sound) (key : Str) : s.copy key =
    (s.cache.recency.find? fun it => it.key = key).map fun it => it.value.data := by
  rw [Server.copy, (FileCache.get_spec hsound key).1, Option.map_map]
  rfl

/-- **The step lemma.**  An insertion that there is room for leaves room for the next ones, and
the copies of other keys. -/
lemma insert_roomy (hsound : s.cache.Sound) (key : Str) {data : List Byte} {sizes : List ℕ}
    (hroomy : Roomy s.cache.limits s.cache.recency (data.length :: sizes)) :
    ∃ file s', s.perform md5 (.cacheInsert key data) = .ok (file, s') ∧ s'.cache.Sound ∧
      Roomy s'.cache.limits s'.cache.recency sizes ∧
      ∀ key', s'.copy key' = if key = key' then some data else s.copy key' := by
  obtain ⟨cache, hinsert, hsound', hlimits, hrecency⟩ :=
    FileCache.insert_spec md5 hsound key data s.encodings.length
  have hkeeps : s.cache.keeps data.length = true :=
    (keeps_iff _ _).mpr (hroomy.keeps _ List.mem_cons_self)
  have hcount := hroomy.count
  have hbytes := hroomy.bytes
  rw [List.length_cons] at hcount
  rw [List.sum_cons] at hbytes
  have hroom : s.cache.limits.HasRoom data.length s.cache.recency := ⟨by omega, by omega⟩
  rw [if_pos hkeeps] at hrecency
  have hinserted : cache.recency = Lru.others key s.cache.recency ++
      [⟨key, ⟨data, computeEtag md5 data, s.encodings.length⟩, data.length⟩] :=
    hrecency.trans (Lru.insert_of_room hroom)
  let s' : Server := { s with cache := cache, encodings := s.encodings ++ [⟨key, data, none⟩] }
  have hperform : s.perform md5 (.cacheInsert key data) =
      .ok (⟨data, computeEtag md5 data, s.encodings.length⟩, s') := by
    simp only [Server.perform, hinsert, ok_bind]
    rfl
  refine ⟨_, s', hperform, hsound', ?_, fun key' => ?_⟩
  · change Roomy cache.limits cache.recency sizes
    rw [hlimits, hinserted]
    have hshorter := (Lru.others_sublist key s.cache.recency).length_le
    have hsmaller := Lru.total_others_le key s.cache.recency
    refine ⟨fun n hn => hroomy.keeps n (List.mem_cons_of_mem _ hn), ?_, ?_⟩
    · rw [List.length_append, List.length_singleton]
      omega
    · simp only [Lru.total_append, Lru.total_cons, Lru.total_nil]
      omega
  · rw [copy_eq hsound', copy_eq hsound]
    change (cache.recency.find? _).map _ = _
    rw [hrecency, Lru.find?_insert_of_room hroom]
    split <;> rfl

/-- With room or without, all are stored: what is no longer there was evicted. -/
lemma storeAll_exec (items : List (Str × List Byte)) (hsound : s.cache.Sound) :
    ∃ s', (Client.storeAll items).exec (Server.perform md5) s = .ok ((), s') := by
  induction items generalizing s with
  | nil => exact ⟨s, rfl⟩
  | cons item items ih =>
    obtain ⟨key, data⟩ := item
    obtain ⟨cache, hinsert, hsound', -⟩ :=
      FileCache.insert_spec md5 hsound key data s.encodings.length
    have hperform : s.perform md5 (.cacheInsert key data) =
        .ok (⟨data, computeEtag md5 data, s.encodings.length⟩,
          { s with cache := cache, encodings := s.encodings ++ [⟨key, data, none⟩] }) := by
      change (s.cache.insert md5 key data s.encodings.length >>= _) = _
      rw [hinsert]
      rfl
    obtain ⟨s', hexec⟩ :=
      @ih { s with cache := cache, encodings := s.encodings ++ [⟨key, data, none⟩] } hsound'
    refine ⟨s', ?_⟩
    change (Prog.act (Action.cacheInsert key data) fun _ => Client.storeAll items).exec
      (Server.perform md5) s = _
    rw [Prog.exec, hperform]
    exact hexec

/-- **The run lemma.**  When there is room for all of them, the last value under a key stays, and
the copies of other keys stay. -/
lemma storeAll_roomy {items : List (Str × List Byte)} (hsound : s.cache.Sound)
    (hroomy : Roomy s.cache.limits s.cache.recency (items.map fun x => x.2.length)) :
    ∃ s', (Client.storeAll items).exec (Server.perform md5) s = .ok ((), s') ∧ s'.cache.Sound ∧
      (∀ key, (∀ x ∈ items, x.1 ≠ key) → s'.copy key = s.copy key) ∧
      ∀ before key data after, items = before ++ (key, data) :: after →
        (∀ x ∈ after, x.1 ≠ key) → s'.copy key = some data := by
  induction items generalizing s with
  | nil => exact ⟨s, rfl, hsound, fun _ _ => rfl, fun before _ _ _ h => absurd h (by simp)⟩
  | cons item items ih =>
    obtain ⟨key, data⟩ := item
    obtain ⟨file, s₁, hperform, hsound₁, hroomy₁, hcopy⟩ := insert_roomy md5 hsound key hroomy
    obtain ⟨s', hexec, hsound', hkept, hlast⟩ := ih hsound₁ hroomy₁
    refine ⟨s', ?_, hsound', fun key' hne => ?_, fun before key' data' after hitems hafter => ?_⟩
    · change (Prog.act (Action.cacheInsert key data) fun _ => Client.storeAll items).exec
        (Server.perform md5) s = _
      rw [Prog.exec, hperform]
      exact hexec
    · rw [hkept key' fun x hx => hne x (List.mem_cons_of_mem _ hx), hcopy,
        if_neg (hne (key, data) List.mem_cons_self)]
    · cases before with
      | nil =>
        obtain ⟨heq, rfl⟩ := List.cons.inj hitems
        obtain ⟨rfl, rfl⟩ := Prod.mk.inj heq
        rw [hkept _ hafter, hcopy, if_pos rfl]
      | cons first before => exact hlast before key' data' after (List.cons.inj hitems).2 hafter

end

/-! ## Warm files are hits -/

/-- In a new client every listed file is there. -/
lemma sturdy_new (platform : Platform) (cfg : Config) {grfs : List Grf}
    (hgrfs : grfs.length ≤ 65536) (hcount : (AssetIndex.catalog grfs).length ≤ 2 ^ 32) :
    (Client.new platform cfg grfs).Sturdy (Client.new platform cfg grfs).index.reachable where
  there := by
    intro i hi
    rw [Client.index_new, AssetIndex.build_eq, ← AssetIndex.added, AssetIndex.reachable_eq] at hi
    obtain ⟨x, hx, rfl⟩ := List.mem_map.mp hi
    obtain ⟨pre, post, hcat, hlen, -⟩ := AssetIndex.mem_winners.mp hx
    have hplace : x.2 < 2 ^ 32 := by
      rw [hcat, List.length_append, List.length_cons] at hcount
      omega
    have hmem : x.1 ∈ AssetIndex.catalog grfs := by rw [hcat]; simp
    refine ⟨AssetIndex.indexed x.1, ?_, ?_⟩
    · rw [Client.index_new, AssetIndex.build_eq, ← AssetIndex.added, AssetIndex.files_added,
        BitVec.toNat_ofNat, Nat.mod_eq_of_lt hplace, hcat, ← hlen]
      simp
    · have hlt := AssetIndex.fst_lt_of_mem_catalog hmem
      rw [← AssetIndex.toNat_grf_indexed hgrfs hmem] at hlt
      have hgrf : (Exec.index grfs (AssetIndex.indexed x.1).grf.toNat : Exec Empty Grf) =
          .ok (grfs.get ⟨_, hlt⟩) := index_eq_of_getElem? (List.getElem?_eq_getElem hlt)
      change Ends (lift (Exec.index grfs _) >>= fun grf => Grf.readEntry _ _ grf _) _
      rw [hgrf, lift_ok, ok_bind]
      exact Grf.ends_readEntry _ _ _ _

/-- **A warm cache is a cache that hits.**  The warm-up of a new server stores the first `limit`
of the listed files that are to be warm and can be read, does nothing else, and returns how many
they are.  When there is room for them, a request for any path with the key of such a file, and of
none behind it, is answered with its bytes out of the cache. -/
theorem warm_cache_hits {platform : Platform} {cfg : Config} {grfs : List Grf} {c : Client}
    (hc : c = .new platform cfg grfs) (T : FileSystem) (limit : ℕ) (hgrfs : grfs.length ≤ 65536)
    (hcount : (AssetIndex.catalog grfs).length ≤ 2 ^ 32) {files : List (IndexedFile × List Byte)}
    (hfiles : files = (c.toWarm c.listed).take limit) :
    ∃ s, (c.warmCache limit).exec (Server.perform c.platform.md5) (Client.start c.cfg T) =
        .ok (.ok files.length, s) ∧
      (Client.storeAll (files.map fun x => (c.warmKey x.1, x.2))).exec
        (Server.perform c.platform.md5) (Client.start c.cfg T) = .ok ((), s) ∧
      (Roomy (Client.newCache c.cfg).limits [] (files.map fun x => x.2.length) →
        ∀ before file data after path, files = before ++ (file, data) :: after →
          (∀ x ∈ after, c.warmKey x.1 ≠ c.warmKey file) →
          publicAssetPath path = true → c.cacheKey path = c.warmKey file →
          ∃ hit s', (c.getFile path).exec (Server.perform c.platform.md5) s = .ok (some hit, s') ∧
            hit.data = data) := by
  have hsturdy : c.Sturdy c.index.reachable := hc ▸ sturdy_new platform cfg hgrfs hcount
  have hrun := Client.warmFiles_eq limit hsturdy 0 hfiles
  have hsound : (Client.start c.cfg T).cache.Sound := sound_withBudget _ _
  have hempty : (Client.start c.cfg T).cache.recency = [] := recency_withBudget _ _
  obtain ⟨s, hexec⟩ := storeAll_exec c.platform.md5
    (files.map fun x => (c.warmKey x.1, x.2)) hsound
  refine ⟨s, ?_, hexec, fun hroomy before file data after path hsplit hafter hpublic hkey => ?_⟩
  · rw [Client.warmCache, hrun, Prog.exec_bind, hexec, Nat.zero_add]
    rfl
  · have hroom : Roomy (Client.start c.cfg T).cache.limits (Client.start c.cfg T).cache.recency
        ((files.map fun x => (c.warmKey x.1, x.2)).map fun x => x.2.length) := by
      rw [hempty, List.map_map]
      exact hroomy
    obtain ⟨s₁, hexec₁, -, -, hlast⟩ := storeAll_roomy c.platform.md5 hsound hroom
    obtain ⟨-, rfl⟩ := Prod.mk.inj (Except.ok.inj (hexec.symm.trans hexec₁))
    have hcopy := hlast (before.map fun x => (c.warmKey x.1, x.2)) (c.warmKey file) data
      (after.map fun x => (c.warmKey x.1, x.2))
      (by rw [hsplit, List.map_append, List.map_cons]) (by
        rintro x hx
        obtain ⟨y, hy, rfl⟩ := List.mem_map.mp hx
        exact hafter y hy)
    obtain ⟨hit, hhit, hdata⟩ := Option.map_eq_some_iff.mp hcopy
    rw [← hkey] at hhit
    refine ⟨hit, { s with cache := (s.cache.get (c.cacheKey path)).2 }, ?_, hdata⟩
    simp only [Client.getFile, Client.cached, hpublic, Bool.not_true, Bool.false_eq_true, if_false]
    change (Prog.act (Action.cacheGet (c.cacheKey path)) _).exec (Server.perform c.platform.md5) s = _
    simp only [Prog.exec, Server.perform, hhit]
    rfl

/-- The one file of the sample archive is a hit under its name. -/
theorem warm_cache_hits_sample :
    ∃ s, (warmClient.warmCache 1).exec (Server.perform warmClient.platform.md5)
        (Client.start warmClient.cfg translatedDisk) = .ok (.ok 1, s) ∧
      ∃ hit s', (warmClient.getFile warmName).exec (Server.perform warmClient.platform.md5) s =
        .ok (some hit, s') ∧ hit.data = [1] := by
  have hfiles : [(storedFile warmName, [1])] = (warmClient.toWarm warmClient.listed).take 1 := by
    rw [Client.listed, warmClient_reachable]
    rfl
  have hroomy : Roomy (Client.newCache warmClient.cfg).limits [] [1] :=
    ⟨by decide, by decide, by decide⟩
  obtain ⟨s, hwarm, -, hhits⟩ := warm_cache_hits rfl translatedDisk 1 (by decide) (by decide) hfiles
  exact ⟨s, hwarm, hhits hroomy [] (storedFile warmName) [1] [] warmName rfl (by simp) (by decide)
    (by decide)⟩

end RemoteClient

/-
# Kept encodings are counted once

A request that fills a slot reports the encoding to the cache with its very next action, and
no other request reports it.  In between the cached copy may have been replaced or evicted; the
report then finds another file under the key, or none, and changes nothing.

`Booked` says how the cache, the slots and the reports under way fit together, and
`booked_perform` is its step lemma.  `encodings_counted_once` is what follows for every run.
-/
import RemoteClient.Etags

namespace RemoteClient

open Exec Http

/-! ## Reports -/

/-- The report an answer obliges to: the place of the encoding and its length. -/
def Action.owes : (a : Action) → a.Answer → Option (ℕ × ℕ)
  | .slotInit i _ _, (some bytes, true) => some (i, bytes.length)
  | _, _ => none

/-- The report an action makes. -/
def Action.pays : Action → Option (ℕ × ℕ)
  | .addEncoding _ file bytes => some (file.encodings, bytes)
  | _ => none

/-- An action that has nothing to do with reports. -/
def Plain : Action → Prop
  | .slotInit _ _ _ => False
  | .addEncoding _ _ _ => False
  | _ => True

lemma Plain.silent {a : Action} (h : Plain a) : a.pays = none ∧ ∀ r, a.owes r = none := by
  cases a with
  | slotInit | addEncoding => exact absurd h id
  | _ => exact ⟨rfl, fun _ => rfl⟩

lemma LooksAt.plain {served : PathBuf → Prop} {a : Action} (h : LooksAt served a) : Plain a := by
  cases a with
  | isFile | read | metadata => trivial
  | _ => exact absurd h (by simp [LooksAt])

/-- A program that reports each encoding it makes at once, and nothing else. -/
def Tidy {α : Type} (p : Work α) : Prop := p.Prompt Action.owes Action.pays none

section

variable {α β : Type} {c : Client}

lemma Tidy.ret (a : α) : Tidy (.ret a) := rfl

lemma Tidy.bind {p : Work α} {f : α → Work β} (h : Tidy p) (hf : ∀ a, Tidy (f a)) :
    Tidy (p >>= f) := Prog.Prompt.bind h hf

lemma Tidy.act {a : Action} {next : a.Answer → Work α} (ha : Plain a) (h : ∀ r, Tidy (next r)) :
    Tidy (.act a next) := by
  refine ⟨ha.silent.1, fun r => ?_⟩
  rw [ha.silent.2 r]
  exact h r

lemma Tidy.looks {served : PathBuf → Prop} {P : α → Prop} {p : Work α}
    (h : p.All (LooksAt served) P) : Tidy p :=
  Prog.Prompt.of_all (fun _ ha => ha.plain.silent) h

/-! ## Every job is tidy -/

lemma tidy_store (key : Str) (content : List Byte) (source : Source) :
    Tidy (Client.store key content source) := .act trivial fun _ => .ret _

lemma tidy_missed (reqPath : Str) : Tidy (Client.missed reqPath) := .act trivial fun _ => .ret _

lemma tidy_extractFile (reqPath : Str) (content : List Byte) :
    Tidy (c.extractFile reqPath content) := by
  unfold Client.extractFile
  split
  · exact .ret _
  · exact .act trivial fun _ => .ret _

lemma tidy_resolveGameData (key reqPath : Str) (gameData : Bool) :
    Tidy (c.resolveGameData key reqPath gameData) := by
  unfold Client.resolveGameData
  split
  · unfold Client.resolveArchive
    split
    · exact .ret _
    · exact tidy_missed reqPath
    · split
      · split
        · exact (tidy_extractFile reqPath _).bind fun _ => tidy_store key _ _
        · exact tidy_store key _ _
      · exact tidy_missed reqPath
      · exact .ret _
      · exact .ret _
  · exact .ret _

lemma tidy_storeFile (key : Str) (path : PathBuf) (source : Source) {next : Work Resolved}
    (hnext : Tidy next) : Tidy (Client.storeFile key path source next) := by
  refine .act trivial fun content => ?_
  cases content with
  | some content => exact tidy_store key content source
  | none => exact hnext

lemma tidy_resolveOverride (key reqPath : Str) (gameData : Bool) :
    Tidy (c.resolveOverride key reqPath gameData) := by
  have hnext : Tidy (c.resolveGameData key reqPath gameData) := tidy_resolveGameData key reqPath _
  unfold Client.resolveOverride
  split
  · exact hnext
  · refine .act trivial fun isFile => ?_
    cases isFile with
    | true => exact tidy_storeFile key _ .dataOverride hnext
    | false => exact hnext

lemma tidy_confinedFile (root : PathBuf) (rel : Str) : Tidy (Client.confinedFile root rel) := by
  unfold Client.confinedFile
  split
  · exact .ret _
  · refine .act trivial fun base => ?_
    cases base with
    | none => exact .ret _
    | some base =>
      refine .act trivial fun file => ?_
      cases file with
      | none => exact .ret _
      | some file =>
        change Tidy (if base.isPrefixOf file then _ else _)
        split
        · refine .act trivial fun isFile => ?_
          cases isFile <;> exact .ret _
        · exact .ret _

lemma tidy_resolveClientDirectory (key reqPath : Str) (gameData : Bool) :
    Tidy (c.resolveClientDirectory key reqPath gameData) := by
  have hnext : Tidy (c.resolveOverride key reqPath gameData) := tidy_resolveOverride key reqPath _
  unfold Client.resolveClientDirectory
  split
  · exact hnext
  · refine (tidy_confinedFile _ _).bind fun path => ?_
    cases path with
    | some path => exact tidy_storeFile key path .clientDirectory hnext
    | none => exact hnext

lemma tidy_resolveLocal (key reqPath : Str) (path : PathBuf) (gameData : Bool) :
    Tidy (c.resolveLocal key reqPath path gameData) := by
  have hnext : Tidy (c.resolveClientDirectory key reqPath gameData) :=
    tidy_resolveClientDirectory key reqPath _
  refine .act trivial fun isFile => ?_
  cases isFile with
  | true => exact tidy_storeFile key path .localFile hnext
  | false => exact hnext

lemma tidy_resolveWith (reqPath : Str) (gameData : Bool) :
    Tidy (c.resolveWith reqPath gameData) := by
  unfold Client.resolveWith
  split
  · exact .ret _
  · split
    · exact .ret _
    · split
      · refine .act trivial fun hit => ?_
        cases hit with
        | some hit => exact .ret _
        | none => exact tidy_resolveLocal _ reqPath _ _
      · exact tidy_resolveLocal _ reqPath _ _

lemma tidy_getFileWith (reqPath : Str) (gameData : Bool) :
    Tidy (c.getFileWith reqPath gameData) := by
  have hjoined : ∀ gameData, Tidy (Client.joined <$> c.resolveWith reqPath gameData) :=
    fun _ => (tidy_resolveWith reqPath _).bind fun _ => .ret _
  have hcached : Tidy (c.cached reqPath) := by
    unfold Client.cached
    split
    · exact .ret _
    · exact .act trivial fun _ => .ret _
  unfold Client.getFileWith
  split
  · refine hcached.bind fun hit => ?_
    cases hit with
    | some hit => exact .ret _
    | none => exact hjoined true
  · exact hjoined false

/-- **Who fills a slot with an encoding reports it next.** -/
lemma tidy_encoded (reqPath : Str) (file : CachedFile) (coding : Coding) :
    Tidy (c.encoded reqPath file coding) := by
  refine .act trivial fun done => ?_
  cases done with
  | some done => exact .ret _
  | none =>
    change Tidy (if !c.keeps file.data.length then _ else _)
    split
    · exact .ret _
    · refine ⟨rfl, fun r => ?_⟩
      match r with
      | (some bytes, true) => exact ⟨rfl, fun _ => rfl⟩
      | (some bytes, false) => exact Tidy.ret _
      | (none, _) => exact Tidy.ret _

lemma tidy_serveResolved (headers : HeaderMap) (relative : Str) (gameData : Bool) :
    Tidy (c.serveResolved headers relative gameData) := by
  refine (tidy_getFileWith relative gameData).bind fun file => ?_
  cases file with
  | none => exact .ret _
  | some file =>
    change Tidy (c.serveAsset headers relative file)
    unfold Client.serveAsset
    dsimp only
    split
    · exact .ret _
    · split
      · exact .ret _
      · refine (tidy_encoded relative file _).bind fun encoded => ?_
        cases encoded <;> exact .ret _

lemma tidy_serveFile (headers : HeaderMap) (relative : Str) (gameData : Bool) :
    Tidy (c.serveFile headers relative gameData) := by
  have hfallback : Tidy (c.serveFallback headers relative gameData) := by
    unfold Client.serveFallback
    split
    · exact .looks (serveRoot_looks headers served_indexPage)
    · exact tidy_serveResolved headers relative gameData
  unfold Client.serveFile
  split
  · refine (Tidy.looks (serveStatic_looks headers serves_static)).bind fun response => ?_
    cases response with
    | some response => exact .ret _
    | none => exact hfallback
  · exact hfallback

lemma tidy_servePath (headers : HeaderMap) (method : Method) (rawPath : Str) (gameData : Bool) :
    Tidy (c.servePath headers method rawPath gameData) := by
  unfold Client.servePath
  split
  · exact .ret _
  · refine Tidy.bind ?_ fun _ => .ret _
    unfold Client.serveGet
    split
    · exact .ret _
    · split
      · exact tidy_serveFile headers _ gameData
      · refine .act trivial fun bytes => ?_
        cases bytes with
        | some bytes => exact .ret _
        | none => exact tidy_serveFile headers _ gameData

lemma tidy_fetchFiles (gameData : Bool) (files : List Str) (results : Std.TreeMap Str Str) :
    Tidy (c.fetchFiles gameData files results) := by
  induction files generalizing results with
  | nil => exact .ret _
  | cons path files ih =>
    refine (tidy_getFileWith path gameData).bind fun file => ?_
    cases file <;> exact ih _

lemma tidy_warmFiles (limit : ℕ) (reachable : List (BitVec 32)) (warmed : ℕ) :
    Tidy (c.warmFiles limit reachable warmed) := by
  induction reachable generalizing warmed with
  | nil => exact .ret _
  | cons i reachable ih =>
    unfold Client.warmFiles
    split
    · exact .ret _
    · split
      · exact .ret _
      · split
        · exact ih warmed
        · split
          · exact .act trivial fun _ => ih (warmed + 1)
          · exact ih warmed
          · exact .ret _
          · exact .ret _

lemma tidy_run (job : Job) : Tidy (c.run job) := by
  cases job with
  | warmUp limit => exact (tidy_warmFiles limit _ 0).bind fun _ => .ret _
  | request r =>
    change Tidy (c.handle r)
    unfold Client.handle
    split
    · exact .ret _
    · exact .ret _
    · refine Tidy.bind ?_ fun _ => .ret _
      simp only [Client.serveBatch]
      split
      · exact .ret _
      · exact (tidy_fetchFiles _ _ _).bind fun _ => .ret _
    · exact (tidy_servePath r.headers _ _ _).bind fun _ => .ret _

end

/-! ## The books -/

/-- The length of the encoding a file keeps, if it keeps any. -/
def Encodings.kept (e : Encodings) : Option ℕ := e.gzip.join.map List.length

namespace Server

variable (s : Server)

def kept (i : ℕ) : Option ℕ := s.encodings[i]?.bind Encodings.kept

/-- What the reports so far say of a file: the length of its encoding, or nothing yet. -/
def counted (i : ℕ) : ℕ := if i ∈ s.reported then (s.kept i).getD 0 else 0

end Server

/-- Every encoding that is kept was reported or is about to be, once; and the size of a cached
file is its own with what was reported of it. -/
structure Booked (s : Server) (dues : List (ℕ × ℕ)) : Prop where
  once : (s.reported ++ dues.map Prod.fst).Nodup
  reported : ∀ i ∈ s.reported, (s.kept i).isSome
  due : ∀ d ∈ dues, s.kept d.1 = some d.2
  booked : ∀ i n, s.kept i = some n → i ∈ s.reported ∨ (i, n) ∈ dues
  sizes : ∀ it ∈ s.cache.recency, it.size = it.value.data.length + s.counted it.value.encodings

/-- What a report under way does when its turn comes. -/
structure CountsOnce (s s' : Server) (file : CachedFile) (bytes : ℕ) : Prop where
  first : file.encodings ∉ s.reported
  kept : s.kept file.encodings = some bytes
  /-- Only the file that owns the encoding grows. -/
  grows : ∀ it' ∈ s'.cache.recency, ∃ it ∈ s.cache.recency, it.key = it'.key ∧
    it.value = it'.value ∧
    it'.size = it.size + if it.value.encodings = file.encodings then bytes else 0
  /-- The encoding of a file that is no longer cached changes nothing. -/
  stale : (∀ it ∈ s.cache.recency, it.value.encodings ≠ file.encodings) → s'.cache = s.cache

section

variable {c : Client} {frozen : PathBuf → Prop} {T : FileSystem} {s s' : Server}
  {dues : List (ℕ × ℕ)}

lemma Booked.perm {dues' : List (ℕ × ℕ)} (h : Booked s dues) (hperm : dues.Perm dues') :
    Booked s dues' where
  once := ((hperm.map Prod.fst).append_left s.reported).nodup_iff.mp h.once
  reported := h.reported
  due := fun d hd => h.due d (hperm.mem_iff.mpr hd)
  booked := fun i n hn => (h.booked i n hn).imp_right hperm.mem_iff.mp
  sizes := h.sizes

/-- What neither fills a slot nor reports may reorder the cache and evict from it. -/
lemma Booked.of_kept (h : Booked s dues) (hkept : ∀ i, s'.kept i = s.kept i)
    (hreported : s'.reported = s.reported)
    (hcache : ∀ it ∈ s'.cache.recency, it ∈ s.cache.recency ∨
      it.size = it.value.data.length ∧ it.value.encodings ∉ s.reported) : Booked s' dues where
  once := hreported ▸ h.once
  reported := fun i hi => by
    rw [hkept]
    exact h.reported i (hreported ▸ hi)
  due := fun d hd => (hkept d.1).trans (h.due d hd)
  booked := fun i n hn => by
    rw [hreported]
    exact h.booked i n ((hkept i).symm.trans hn)
  sizes := fun it hit => by
    rw [Server.counted, hreported, hkept]
    rcases hcache it hit with hold | ⟨hsize, hnew⟩
    · exact h.sizes it hold
    · rw [if_neg hnew]
      exact hsize

/-! ## One action -/

/-- The slots of a new file are empty. -/
lemma kept_insert (cache : FileCache) (key : Str) (data : List Byte) (i : ℕ) :
    Server.kept { s with cache := cache, encodings := s.encodings ++ [⟨key, data, none⟩] } i =
      s.kept i := by
  unfold Server.kept
  rcases Nat.lt_trichotomy i s.encodings.length with hlt | rfl | hgt
  · rw [List.getElem?_append_left hlt]
  · rw [List.getElem?_concat_length, List.getElem?_eq_none le_rfl]
    rfl
  · have hlen : (s.encodings ++ [(⟨key, data, none⟩ : Encodings)]).length ≤ i := by
      rw [List.length_append]
      exact hgt
    rw [List.getElem?_eq_none hlen, List.getElem?_eq_none (Nat.le_of_lt hgt)]

lemma lt_of_kept {i n : ℕ} (h : s.kept i = some n) : i < s.encodings.length := by
  obtain ⟨e, he, -⟩ := Option.bind_eq_some_iff.mp h
  exact (List.getElem?_eq_some_iff.mp he).1

lemma Booked.insert (h : Booked s dues) (hsane : Sane c frozen T s) (key : Str)
    (data : List Byte) {file : CachedFile}
    (hperform : s.perform c.platform.md5 (.cacheInsert key data) = .ok (file, s')) :
    Booked s' dues := by
  obtain ⟨cache, hok, -, -, hrecency⟩ :=
    FileCache.insert_spec c.platform.md5 hsane.sound key data s.encodings.length
  simp only [Server.perform, hok, ok_bind] at hperform
  obtain ⟨-, rfl⟩ := Prod.mk.inj (Except.ok.inj hperform)
  refine h.of_kept (kept_insert cache key data) rfl fun it hit => ?_
  change it ∈ cache.recency at hit
  rw [hrecency] at hit
  split at hit
  · rcases List.mem_append.mp hit with hold | hnew
    · exact .inl (Lru.mem_trim_others _ _ _ it hold).1
    · rw [List.mem_singleton.mp hnew]
      refine .inr ⟨rfl, fun hin => ?_⟩
      obtain ⟨n, hn⟩ := Option.isSome_iff_exists.mp (h.reported _ hin)
      exact absurd (lt_of_kept hn) (lt_irrefl _)
  · exact .inl hit

/-- What a filled slot keeps. -/
lemma kept_fill {i : ℕ} {e : Encodings} (he : s.encodings[i]? = some e) (coding : Coding)
    (value : Option (List Byte)) (j : ℕ) :
    Server.kept { s with encodings := s.encodings.set i (e.setSlot coding value) } j =
      if i = j then value.map List.length else s.kept j := by
  unfold Server.kept
  split
  · next hij =>
    subst hij
    rw [List.getElem?_set_self (List.getElem?_eq_some_iff.mp he).1]
    cases coding
    rfl
  · next hij => rw [List.getElem?_set_ne hij]

/-- Who fills a slot owes the report. -/
lemma Booked.fill (h : Booked s dues) {i : ℕ} {coding : Coding} {value : Option (List Byte)}
    {r : Option (List Byte) × Bool}
    (hperform : s.perform c.platform.md5 (.slotInit i coding value) = .ok (r, s')) :
    Booked s' ((Action.owes (.slotInit i coding value) r).toList ++ dues) := by
  obtain ⟨e, hindex, hrest⟩ := bind_eq_ok.mp hperform
  have he : s.encodings[i]? = some e := index_eq_ok.mp hindex
  -- Who comes second finds the slot filled and owes nothing.
  cases hslot : e.slot coding with
  | some done =>
    rw [hslot] at hrest
    obtain ⟨rfl, rfl⟩ := Prod.mk.inj (Except.ok.inj hrest)
    cases done <;> exact h
  | none =>
    rw [hslot] at hrest
    obtain ⟨rfl, rfl⟩ := Prod.mk.inj (Except.ok.inj hrest)
    have hempty : s.kept i = none := by
      cases coding
      rw [Server.kept, he, Option.bind_some, Encodings.kept]
      change e.gzip = none at hslot
      rw [hslot]
      rfl
    have hunreported : i ∉ s.reported := by
      intro hin
      have := h.reported i hin
      rw [hempty] at this
      exact absurd this (by simp)
    have hkept := kept_fill he coding value
    -- A failed encoding takes no room, so nothing is owed for it.
    cases value with
    | none =>
      refine h.of_kept (fun j => ?_) rfl fun it hit => .inl hit
      rw [hkept j]
      split
      · next hij => rw [← hij, hempty]; rfl
      · rfl
    | some bytes =>
      have hother : ∀ j, i ≠ j → Server.kept
          { s with encodings := s.encodings.set i (e.setSlot coding (some bytes)) } j = s.kept j :=
        fun j hij => by rw [hkept j, if_neg hij]
      have hnotdue : i ∉ dues.map Prod.fst := by
        intro hin
        obtain ⟨d, hd, rfl⟩ := List.mem_map.mp hin
        exact absurd ((h.due d hd).symm.trans hempty) (by simp)
      exact {
        once := by
          refine (List.perm_middle (a := i)).nodup_iff.mpr (List.nodup_cons.mpr ⟨?_, h.once⟩)
          rw [List.mem_append]
          exact fun hin => hin.elim hunreported hnotdue
        reported := fun j hj => by
          rw [hother j fun hij => hunreported (hij ▸ hj)]
          exact h.reported j hj
        due := fun d hd => by
          rcases List.mem_cons.mp hd with rfl | hd
          · exact (hkept i).trans (if_pos rfl)
          · rw [hother d.1 fun hij => hnotdue (hij ▸ List.mem_map_of_mem hd)]
            exact h.due d hd
        booked := fun j n hn => by
          rw [hkept j] at hn
          split at hn
          · next hij =>
            subst hij
            obtain rfl := Option.some.inj hn
            exact .inr List.mem_cons_self
          · exact (h.booked j n hn).imp_right (List.mem_cons_of_mem _)
        sizes := fun it hit => by
          rw [h.sizes it hit, Server.counted, Server.counted]
          split
          · next hin => rw [hother _ fun hij => hunreported (hij ▸ hin)]
          · rfl }

/-- A cached file that owns an encoding is the one under the key it is reported with. -/
lemma owner_key (hsane : Sane c frozen T s) {key : Str} {file : CachedFile}
    (hknown : s.Known c.platform.md5 key file) {it : Lru.Item Str CachedFile}
    (hit : it ∈ s.cache.recency) (howner : it.value.encodings = file.encodings) :
    it.key = key := by
  obtain ⟨-, e, he, hkey, -⟩ := hsane.cached it hit
  obtain ⟨-, e', he', hkey', -⟩ := hknown
  rw [howner] at he
  obtain rfl := Option.some.inj (he.symm.trans he')
  exact hkey.symm.trans hkey'

/-- A report makes its file's entry grow, and no other. -/
lemma addEncoding_grows (hsane : Sane c frozen T s) {key : Str} {file : CachedFile} {bytes : ℕ}
    (hknown : s.Known c.platform.md5 key file) {cache : FileCache}
    (hcache : s.cache.addEncoding key file bytes = .ok cache) :
    ∀ it' ∈ cache.recency, ∃ it ∈ s.cache.recency, it.key = it'.key ∧ it.value = it'.value ∧
      it'.size = it.size + if it.value.encodings = file.encodings then bytes else 0 := by
  obtain ⟨cache', hok, -, -, hrecency⟩ := FileCache.addEncoding_spec hsane.sound key file bytes
  obtain rfl := Except.ok.inj (hok.symm.trans hcache)
  have hnodup := hsane.sound.nodup_keys
  intro it' hit'
  rw [hrecency] at hit'
  split at hit'
  · next howner =>
    obtain ⟨owner, hmem, hkey, hsame⟩ := howner
    -- Keys are unique, so the entry that grew is the owner.
    rcases Lru.mem_grow hnodup hit' with ⟨hold, hne⟩ | ⟨old, hold, hkey', rfl⟩
    · refine ⟨it', hold, rfl, rfl, ?_⟩
      rw [if_neg fun heq => hne (owner_key hsane hknown hold heq)]
      rfl
    · obtain rfl := List.inj_on_of_nodup_map hnodup hold hmem (hkey'.trans hkey.symm)
      exact ⟨old, hold, rfl, rfl, by rw [if_pos hsame]⟩
  · next hnone =>
    refine ⟨it', hit', rfl, rfl, ?_⟩
    rw [if_neg fun heq => hnone ⟨it', hit', owner_key hsane hknown hit' heq, heq⟩]
    rfl

/-- A report counts an encoding once. -/
lemma Booked.countsOnce (hsane : Sane c frozen T s) {key : Str} {file : CachedFile} {bytes : ℕ}
    (h : Booked s ((file.encodings, bytes) :: dues)) (hknown : s.Known c.platform.md5 key file)
    (hperform : s.perform c.platform.md5 (.addEncoding key file bytes) = .ok ((), s')) :
    CountsOnce s s' file bytes := by
  obtain ⟨cache, hcache, hret⟩ := bind_eq_ok.mp hperform
  obtain ⟨-, rfl⟩ := Prod.mk.inj (Except.ok.inj hret)
  exact {
    first := fun hin => List.disjoint_of_nodup_append h.once hin List.mem_cons_self
    kept := h.due _ List.mem_cons_self
    grows := addEncoding_grows hsane hknown hcache
    stale := fun hstale => by
      have hsame : s.cache.addEncoding key file bytes = .ok s.cache :=
        FileCache.addEncoding_eq_self hsane.sound (fun it hit _ => hstale it hit) bytes
      exact Except.ok.inj (hcache.symm.trans hsame) }

/-- A report that is made is off the list. -/
lemma Booked.report (hsane : Sane c frozen T s) {key : Str} {file : CachedFile} {bytes : ℕ}
    (h : Booked s ((file.encodings, bytes) :: dues)) (hknown : s.Known c.platform.md5 key file)
    (hperform : s.perform c.platform.md5 (.addEncoding key file bytes) = .ok ((), s')) :
    Booked s' dues := by
  have hcounts := h.countsOnce hsane hknown hperform
  obtain ⟨cache, hcache, hret⟩ := bind_eq_ok.mp hperform
  obtain ⟨-, rfl⟩ := Prod.mk.inj (Except.ok.inj hret)
  have hmem : ∀ i, i ∈ s.reported ++ [file.encodings] ↔ i ∈ s.reported ∨ i = file.encodings :=
    fun i => by rw [List.mem_append, List.mem_singleton]
  exact {
    once := by
      have := h.once
      rw [List.append_assoc]
      exact this
    reported := fun i hi => by
      rcases (hmem i).mp hi with hi | rfl
      · exact h.reported i hi
      · exact Option.isSome_iff_exists.mpr ⟨bytes, hcounts.kept⟩
    due := fun d hd => h.due d (List.mem_cons_of_mem _ hd)
    booked := fun i n hn => by
      rcases h.booked i n hn with hin | hin
      · exact .inl ((hmem i).mpr (.inl hin))
      · rcases List.mem_cons.mp hin with heq | hin
        · exact .inl ((hmem i).mpr (.inr (Prod.mk.inj heq).1))
        · exact .inr hin
    sizes := fun it' hit' => by
      obtain ⟨it, hit, -, hvalue, hsize⟩ := hcounts.grows it' hit'
      rw [hsize, h.sizes it hit, ← hvalue, Server.counted, Server.counted, Nat.add_assoc]
      congr 1
      -- The owner grew by the encoding that is now counted; for the others nothing new counts.
      by_cases howner : it.value.encodings = file.encodings
      · rw [howner, if_neg hcounts.first, if_pos rfl, if_pos ((hmem _).mpr (.inr rfl))]
        change _ = (s.kept file.encodings).getD 0
        rw [hcounts.kept, Nat.zero_add]
        rfl
      · have hiff : it.value.encodings ∈ s.reported ++ [file.encodings] ↔
            it.value.encodings ∈ s.reported :=
          (hmem _).trans (or_iff_left howner)
        rw [if_neg howner, Nat.add_zero]
        exact (if_congr hiff rfl rfl).symm }

/-- **The step lemma.**  An action pays its report and leaves the one it owes. -/
lemma booked_perform (hsane : Sane c frozen T s) {a : Action} {r : a.Answer}
    (ha : Allowed c s a) (hperform : s.perform c.platform.md5 a = .ok (r, s'))
    (h : Booked s (a.pays.toList ++ dues)) : Booked s' ((a.owes r).toList ++ dues) := by
  cases a with
  | cacheGet key =>
    obtain ⟨-, -, -, hrecency⟩ := FileCache.get_spec hsane.sound key
    obtain ⟨-, rfl⟩ := Prod.mk.inj (Except.ok.inj hperform)
    refine h.of_kept (fun _ => rfl) rfl fun it hit => .inl ?_
    exact (Lru.hit_perm key hsane.sound.nodup_keys).subset (hrecency ▸ hit)
  | cacheInsert key data => exact h.insert hsane key data hperform
  | addEncoding key file bytes => exact h.report hsane ha hperform
  | slotGet i coding =>
    obtain ⟨e, -, hret⟩ := bind_eq_ok.mp hperform
    obtain ⟨-, rfl⟩ := Prod.mk.inj (Except.ok.inj hret)
    exact h
  | slotInit i coding value => exact h.fill hperform
  | isFile | read | metadata | canonicalize =>
    obtain ⟨-, rfl⟩ := Prod.mk.inj (Except.ok.inj hperform)
    exact h
  | extract | logMissing =>
    obtain ⟨-, rfl⟩ := Prod.mk.inj (Except.ok.inj hperform)
    exact h.of_kept (fun _ => rfl) rfl fun it hit => .inl hit

/-! ## Runs -/

/-- The reports under way. -/
def reportsDue (pool : Pool Action Action.Answer Server Job (Option Response)) : List (ℕ × ℕ) :=
  pool.threads.filterMap fun t => t.2.debt Action.pays

lemma reachable_sane {disk : FileSystem}
    {pool : Pool Action Action.Answer Server Job (Option Response)}
    (h : (c.machine fun _ => False).Reachable (Client.start c.cfg disk) pool) :
    Sane c (fun _ => False) disk pool.state :=
  (h.safe (contract guarded_nothing disk) (stable_getTagsContent guarded_nothing)
    (fun job _ _ => safe_run guarded_nothing job)
    (sane_start disk fun _ hpath => absurd hpath id)).1

lemma reachable_allowed {disk : FileSystem}
    {pool : Pool Action Action.Answer Server Job (Option Response)}
    (h : (c.machine fun _ => False).Reachable (Client.start c.cfg disk) pool) {job : Job}
    {a : Action} {next : a.Answer → Work (Option Response)}
    (hact : (job, .act a next) ∈ pool.threads) : Allowed c pool.state a :=
  h.may (contract guarded_nothing disk) (stable_getTagsContent guarded_nothing)
    (fun job _ _ => safe_run guarded_nothing job)
    (sane_start disk fun _ hpath => absurd hpath id) hact

/-- The run lemma. -/
lemma reachable_booked {disk : FileSystem}
    {pool : Pool Action Action.Answer Server Job (Option Response)}
    (h : (c.machine fun _ => False).Reachable (Client.start c.cfg disk) pool) :
    Booked pool.state (reportsDue pool) := by
  induction h with
  | start =>
    exact {
      once := List.nodup_nil
      reported := fun _ hi => absurd hi (by simp [Client.start])
      due := fun _ hd => absurd hd (by simp [reportsDue])
      booked := fun i n hn => absurd hn (by simp [Server.kept, Client.start])
      sizes := fun it hit => absurd hit (by
        simp [Client.start, Client.newCache, FileCache.new, recency_withBudget]) }
  | @step p p' hreach hstep ih =>
    cases hstep with
    | arrive s threads job =>
      have hnone : (c.run job).debt Action.pays = none := (tidy_run job).debt_eq
      have hdues : reportsDue ⟨s, threads ++ [(job, c.run job)]⟩ =
          reportsDue (⟨s, threads⟩ : Pool _ _ _ _ _) := by
        simp [reportsDue, List.filterMap_append, hnone]
      exact hdues ▸ ih
    | @turn s s' a r job next pre post hperform =>
      have hmem : (job, Prog.act a next) ∈ pre ++ (job, .act a next) :: post := by simp
      have hprompt := hreach.prompt tidy_run (job, .act a next) hmem
      have hnext : (next r).debt Action.pays = a.owes r := (hprompt.2 r).debt_eq
      -- The job's own report comes to the front of the list.
      have hfront : ∀ p : Work (Option Response), (reportsDue
          (⟨s, pre ++ (job, p) :: post⟩ : Pool _ _ _ _ _)).Perm
          ((p.debt Action.pays).toList ++ reportsDue ⟨s, pre ++ post⟩) := by
        intro p
        have hsplit : ((job, p) :: post).filterMap (fun t => t.2.debt Action.pays) =
            (p.debt Action.pays).toList ++ post.filterMap fun t => t.2.debt Action.pays := by
          rw [List.filterMap_cons]
          cases p.debt Action.pays <;> rfl
        simp only [reportsDue, List.filterMap_append, hsplit]
        exact List.perm_append_comm_assoc _ _ _
      have hbooked := booked_perform (reachable_sane hreach) (reachable_allowed hreach hmem)
        hperform (ih.perm (hfront (.act a next)))
      rw [← hnext] at hbooked
      exact hbooked.perm (hfront (next r)).symm
    | env henv =>
      cases henv with
      | extraction | log | others => exact ih.of_kept (fun _ => rfl) rfl fun it hit => .inl hit

/-- **Kept encodings are counted exactly once.**  Whatever jobs ran in whatever order: no
encoding was reported twice, and a report under way is the first of its encoding, counts its
length for the file that owns it and for no other, and changes nothing if that file is no
longer cached.  A cached file's size is its own with what was reported of it; and when no
report is under way, with the encoding it keeps. -/
theorem encodings_counted_once {disk : FileSystem}
    {pool : Pool Action Action.Answer Server Job (Option Response)}
    (h : (c.machine fun _ => False).Reachable (Client.start c.cfg disk) pool) :
    pool.state.reported.Nodup ∧
    (∀ job key file bytes next,
      (job, Prog.act (.addEncoding key file bytes) next) ∈ pool.threads →
      ∃ s', pool.state.perform c.platform.md5 (.addEncoding key file bytes) = .ok ((), s') ∧
        CountsOnce pool.state s' file bytes) ∧
    (∀ it ∈ pool.state.cache.recency,
      it.size = it.value.data.length + pool.state.counted it.value.encodings) ∧
    (reportsDue pool = [] → ∀ it ∈ pool.state.cache.recency,
      it.size = it.value.data.length + (pool.state.kept it.value.encodings).getD 0) := by
  have hbooked := reachable_booked h
  have hsane := reachable_sane h
  refine ⟨hbooked.once.of_append_left, ?_, hbooked.sizes, fun hnone it hit => ?_⟩
  · intro job key file bytes next hmem
    have hknown : pool.state.Known c.platform.md5 key file := reachable_allowed h hmem
    obtain ⟨cache, hok, -⟩ := FileCache.addEncoding_spec hsane.sound key file bytes
    have hperform : pool.state.perform c.platform.md5 (.addEncoding key file bytes) = .ok ((),
        { pool.state with cache := cache, reported := pool.state.reported ++ [file.encodings] }) := by
      simp only [Server.perform, hok, ok_bind]
      rfl
    have hdue : (file.encodings, bytes) ∈ reportsDue pool :=
      List.mem_filterMap.mpr ⟨_, hmem, rfl⟩
    have hfront := hbooked.perm (List.perm_cons_erase hdue)
    exact ⟨_, hperform, hfront.countsOnce hsane hknown hperform⟩
  · rw [hbooked.sizes it hit, Server.counted]
    cases hkept : pool.state.kept it.value.encodings with
    | none => simp
    | some n =>
      -- What is kept and not due was reported.
      rcases hbooked.booked _ n hkept with hin | hin
      · rw [if_pos hin]
      · rw [hnone] at hin
        exact absurd hin (by simp)

end

/-- A request has made an encoding and reported it. -/
theorem encodings_counted_once_sample :
    ∃ pool, (sampleClient.machine fun _ => False).Reachable
        (Client.start sampleClient.cfg sampleDisk) pool ∧
      pool.state.reported = [0] ∧ pool.state.kept 0 = some 1 ∧ pool.state.reported.Nodup ∧
      ∀ it ∈ pool.state.cache.recency,
        it.size = it.value.data.length + (pool.state.kept it.value.encodings).getD 0 := by
  obtain ⟨s, h, -, -, hencodings, hreported⟩ := sample_reachable
    (m := sampleClient.machine fun _ => False) (s := Client.start sampleClient.cfg sampleDisk)
    rfl rfl .start (sound_withBudget _ _) rfl
  obtain ⟨hnodup, -, -, hsizes⟩ := encodings_counted_once h
  refine ⟨_, h, hreported, ?_, hnodup, hsizes rfl⟩
  rw [Server.kept, hencodings]
  rfl

end RemoteClient

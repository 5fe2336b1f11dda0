/-
# What requests can rely on

Between two steps of a request any other may act on the state they share.  What all of them
keep is `Sane`: a cached file is one that was stored under its key, and a filled slot holds
the encoding of the file it belongs to, made at the settings of kept files.  What they leave
alone is `Grown`: a place for encodings stays that of its file.

`contract` puts the two together, and `safe_perform` is the rule for one action: what it
answers is told by `Answers`.  Part of the disk, `frozen`, may be taken to stay as in `T`.
-/
import RemoteClient.CacheRuns
import RemoteClient.Routes

namespace RemoteClient

open Exec Http

namespace Server

/-- A file that was stored under a key. -/
def Known (md5 : List Byte → Vector Byte 16) (s : Server) (key : Str) (file : CachedFile) : Prop :=
  file.etag = computeEtag md5 file.data ∧
    ∃ e : Encodings, s.encodings[file.encodings]? = some e ∧ e.key = key ∧ e.data = file.data

/-- Every place for encodings is still that of its file. -/
def Grown (s s' : Server) : Prop :=
  ∀ (i : ℕ) (e : Encodings), s.encodings[i]? = some e →
    ∃ e' : Encodings, s'.encodings[i]? = some e' ∧ e'.key = e.key ∧ e'.data = e.data

lemma Grown.of_eq {s s' : Server} (h : s'.encodings = s.encodings) : s.Grown s' :=
  fun _ e he => ⟨e, h ▸ he, rfl, rfl⟩

lemma Grown.trans {s t u : Server} (h : s.Grown t) (h' : t.Grown u) : s.Grown u := by
  intro i e he
  obtain ⟨e₁, he₁, hkey₁, hdata₁⟩ := h i e he
  obtain ⟨e₂, he₂, hkey₂, hdata₂⟩ := h' i e₁ he₁
  exact ⟨e₂, he₂, hkey₂.trans hkey₁, hdata₂.trans hdata₁⟩

lemma Known.grown {md5 : List Byte → Vector Byte 16} {s s' : Server} {key : Str}
    {file : CachedFile} (h : s.Known md5 key file) (hgrown : s.Grown s') :
    s'.Known md5 key file := by
  obtain ⟨hetag, e, he, hkey, hdata⟩ := h
  obtain ⟨e', he', hkey', hdata'⟩ := hgrown _ e he
  exact ⟨hetag, e', he', hkey'.trans hkey, hdata'.trans hdata⟩

end Server

namespace Encodings

@[simp] lemma setSlot_key (e : Encodings) (coding : Coding) (value : Option (List Byte)) :
    (e.setSlot coding value).key = e.key := rfl

@[simp] lemma setSlot_data (e : Encodings) (coding : Coding) (value : Option (List Byte)) :
    (e.setSlot coding value).data = e.data := rfl

@[simp] lemma slot_setSlot (e : Encodings) (coding coding' : Coding) (value : Option (List Byte)) :
    (e.setSlot coding value).slot coding' = some value := rfl

end Encodings

section

variable (c : Client) (frozen : PathBuf → Prop) (T : FileSystem)

/-- The encoding that the slot of a kept file holds. -/
def Client.made (coding : Coding) (data : List Byte) : Option (List Byte) :=
  encodeAsset c.platform.gzip coding data true

/-! ## The contract -/

/-- The state of a server whose requests all keep to the contract. -/
structure Sane (s : Server) : Prop where
  sound : s.cache.Sound
  limits : s.cache.limits = (Client.newCache c.cfg).limits
  cached : ∀ it ∈ s.cache.recency, s.Known c.platform.md5 it.key it.value
  filled : ∀ (i : ℕ) (e : Encodings), s.encodings[i]? = some e → ∀ coding v,
    e.slot coding = some v → v = c.made coding e.data ∧ c.keeps e.data.length = true
  untouched : ∀ path, frozen path → s.disk.node path = T.node path
  extracted : c.cfg.clientAutoextract = false → s.extractions = []

/-- What a request has to know before it acts. -/
def Allowed (s : Server) : Action → Prop
  | .slotInit i coding value => ∃ e : Encodings, s.encodings[i]? = some e ∧
    value = c.made coding e.data ∧ c.keeps e.data.length = true
  | .addEncoding key file _ => s.Known c.platform.md5 key file
  | .extract _ _ => c.cfg.clientAutoextract = true
  | _ => True

/-- What a request learns from the answer of its action. -/
def Answers (s : Server) : (a : Action) → a.Answer → Prop
  | .cacheGet key, hit => ∀ file, hit = some file → s.Known c.platform.md5 key file
  | .cacheInsert key data, file => file.data = data ∧ s.Known c.platform.md5 key file
  | .slotGet i coding, r => ∀ v (e : Encodings), r = some v → s.encodings[i]? = some e →
    v = c.made coding e.data ∧ c.keeps e.data.length = true
  | .slotInit i coding _, r => ∀ e : Encodings, s.encodings[i]? = some e → r.1 = c.made coding e.data
  | .isFile path, r => frozen path → r = T.isFile path
  | .read path, r => frozen path → r = T.read path
  | .metadata path, r => frozen path → r = T.metadata path
  | _, _ => True

variable {c frozen T}

lemma Allowed.grown {s s' : Server} {a : Action} (h : Allowed c s a) (hgrown : s.Grown s') :
    Allowed c s' a := by
  cases a with
  | slotInit i coding value =>
    obtain ⟨e, he, hvalue, hkeeps⟩ := h
    obtain ⟨e', he', -, hdata⟩ := hgrown i e he
    exact ⟨e', he', hdata ▸ hvalue, hdata ▸ hkeeps⟩
  | addEncoding key file bytes => exact Server.Known.grown h hgrown
  | _ => exact h

/-! ## One action -/

/-- The cache may change by a call that adds no file of its own. -/
lemma Sane.setCache {s : Server} (h : Sane c frozen T s) {cache : FileCache} {reported : List ℕ}
    (hsound : cache.Sound) (hlimits : cache.limits = s.cache.limits)
    (hcached : ∀ it ∈ cache.recency, ∃ old ∈ s.cache.recency,
      old.key = it.key ∧ old.value = it.value) :
    Sane c frozen T { s with cache := cache, reported := reported } where
  sound := hsound
  limits := hlimits.trans h.limits
  cached := fun it hit => by
    obtain ⟨old, hold, hkey, hvalue⟩ := hcached it hit
    rw [← hkey, ← hvalue]
    exact h.cached old hold
  filled := h.filled
  untouched := h.untouched
  extracted := h.extracted

lemma Sane.insert {s : Server} (h : Sane c frozen T s) (key : Str) (data : List Byte) :
    ∃ cache, s.perform c.platform.md5 (.cacheInsert key data) =
        .ok (⟨data, computeEtag c.platform.md5 data, s.encodings.length⟩,
          { s with cache := cache, encodings := s.encodings ++ [⟨key, data, none⟩] }) ∧
      Sane c frozen T
        { s with cache := cache, encodings := s.encodings ++ [⟨key, data, none⟩] } := by
  let e : Encodings := ⟨key, data, none⟩
  let file : CachedFile := ⟨data, computeEtag c.platform.md5 data, s.encodings.length⟩
  obtain ⟨cache, hok, hsound, hlimits, hrecency⟩ :=
    FileCache.insert_spec c.platform.md5 h.sound key data s.encodings.length
  -- Slots are only appended, so those that are known stay where they are.
  have hgrown : s.Grown { s with cache := cache, encodings := s.encodings ++ [e] } := by
    intro i x hx
    exact ⟨x, by rw [List.getElem?_append_left (List.getElem?_eq_some_iff.mp hx).1, hx], rfl, rfl⟩
  have hknown : Server.Known c.platform.md5
      { s with cache := cache, encodings := s.encodings ++ [e] } key file :=
    ⟨rfl, e, List.getElem?_concat_length, rfl, rfl⟩
  refine ⟨cache, by simp only [Server.perform, hok, ok_bind]; rfl, ?_⟩
  exact {
    sound := hsound
    limits := hlimits.trans h.limits
    cached := fun it hit => by
      change it ∈ cache.recency at hit
      rw [hrecency] at hit
      split at hit
      · rcases List.mem_append.mp hit with hit | hit
        · exact (h.cached it (Lru.mem_trim_others _ _ _ it hit).1).grown hgrown
        · rw [List.mem_singleton.mp hit]
          exact hknown
      · exact (h.cached it hit).grown hgrown
    filled := fun i x hx coding v hv => by
      rcases List.mem_append.mp (List.mem_of_getElem? hx) with hold | hnew
      · obtain ⟨j, hj⟩ := List.mem_iff_getElem?.mp hold
        exact h.filled j x hj coding v hv
      · rw [List.mem_singleton.mp hnew] at hv
        cases coding
        exact absurd hv (by simp [Encodings.slot])
    untouched := h.untouched
    extracted := h.extracted }

lemma Sane.fill {s : Server} (h : Sane c frozen T s) {i : ℕ} {e : Encodings}
    (he : s.encodings[i]? = some e) (hkeeps : c.keeps e.data.length = true) (coding : Coding) :
    Sane c frozen T
      { s with encodings := s.encodings.set i (e.setSlot coding (c.made coding e.data)) } ∧
    s.Grown { s with encodings := s.encodings.set i (e.setSlot coding (c.made coding e.data)) } := by
  have hgrown : s.Grown
      { s with encodings := s.encodings.set i (e.setSlot coding (c.made coding e.data)) } := by
    intro j x hx
    by_cases hij : i = j
    · subst hij
      obtain rfl := Option.some.inj (he.symm.trans hx)
      exact ⟨_, List.getElem?_set_self (List.getElem?_eq_some_iff.mp he).1, rfl, rfl⟩
    · exact ⟨x, by rw [List.getElem?_set_ne hij, hx], rfl, rfl⟩
  refine ⟨?_, hgrown⟩
  exact {
    sound := h.sound
    limits := h.limits
    cached := fun it hit => (h.cached it hit).grown hgrown
    filled := fun j x hx coding' v hv => by
      by_cases hij : i = j
      · subst hij
        rw [List.getElem?_set_self (List.getElem?_eq_some_iff.mp he).1] at hx
        obtain rfl := Option.some.inj hx
        cases coding
        cases coding'
        exact ⟨(Option.some.inj hv).symm, hkeeps⟩
      · rw [List.getElem?_set_ne hij] at hx
        exact h.filled j x hx coding' v hv
    untouched := h.untouched
    extracted := h.extracted }

/-- What the frozen part of the disk shows. -/
lemma Sane.disk_eq {s : Server} (h : Sane c frozen T s) {path : PathBuf} (hpath : frozen path) :
    s.disk.metadata path = T.metadata path ∧ s.disk.isFile path = T.isFile path ∧
      s.disk.read path = T.read path := by
  simp only [FileSystem.isFile, FileSystem.metadata, FileSystem.read, h.untouched path hpath,
    and_self]

/-- **The step lemma.**  An allowed action keeps the contract, and answers as it says. -/
lemma perform_spec {s s' : Server} (h : Sane c frozen T s) {a : Action} {r : a.Answer}
    (ha : Allowed c s a) (hperform : s.perform c.platform.md5 a = .ok (r, s')) :
    Sane c frozen T s' ∧ s.Grown s' ∧ Answers c frozen T s' a r := by
  cases a with
  | cacheGet key =>
    obtain ⟨hhit, hsound, hlimits, hrecency⟩ := FileCache.get_spec h.sound key
    have hr : (s.cache.get key).1 = r := (Prod.mk.inj (Except.ok.inj hperform)).1
    have hs : { s with cache := (s.cache.get key).2 } = s' :=
      (Prod.mk.inj (Except.ok.inj hperform)).2
    subst hs
    -- A hit moves its entry to the end and changes nothing else.
    have hperm := Lru.hit_perm key h.sound.nodup_keys
    refine ⟨h.setCache hsound hlimits fun it hit => ?_, .of_eq rfl, fun file hfile => ?_⟩
    · exact ⟨it, hperm.subset (hrecency ▸ hit), rfl, rfl⟩
    · rw [← hr, hhit] at hfile
      obtain ⟨it, hfind, rfl⟩ := Option.map_eq_some_iff.mp hfile
      obtain ⟨hmem, rfl⟩ := Lru.find?_key hfind
      exact h.cached it hmem
  | cacheInsert key data =>
    obtain ⟨cache, hok, hsane⟩ := h.insert key data
    obtain ⟨rfl, rfl⟩ := Prod.mk.inj (Except.ok.inj (hok.symm.trans hperform))
    refine ⟨hsane, fun i x hx => ⟨x, ?_, rfl, rfl⟩, rfl, rfl, ⟨key, data, none⟩, ?_, rfl, rfl⟩
    · exact (List.getElem?_append_left (List.getElem?_eq_some_iff.mp hx).1).trans hx
    · exact List.getElem?_concat_length
  | addEncoding key file bytes =>
    obtain ⟨cache, hok, hsound, hlimits, hrecency⟩ :=
      FileCache.addEncoding_spec h.sound key file bytes
    simp only [Server.perform, hok, ok_bind] at hperform
    obtain ⟨rfl, rfl⟩ := Prod.mk.inj (Except.ok.inj hperform)
    refine ⟨h.setCache hsound hlimits fun it hit => ?_, .of_eq rfl, trivial⟩
    rw [hrecency] at hit
    split at hit
    · rcases Lru.mem_grow h.sound.nodup_keys hit with ⟨hold, -⟩ | ⟨old, hold, -, rfl⟩
      · exact ⟨it, hold, rfl, rfl⟩
      · exact ⟨old, hold, rfl, rfl⟩
    · exact ⟨it, hit, rfl, rfl⟩
  | slotGet i coding =>
    obtain ⟨e, he, hret⟩ := bind_eq_ok.mp hperform
    obtain ⟨rfl, rfl⟩ := Prod.mk.inj (Except.ok.inj hret)
    exact ⟨h, .of_eq rfl, fun v x hv hx => h.filled i x hx coding v (by
      rw [index_eq_of_getElem? hx] at he
      rw [Except.ok.inj he, hv])⟩
  | slotInit i coding value =>
    obtain ⟨e, he, rfl, hkeeps⟩ := ha
    simp only [Server.perform, index_eq_of_getElem? he, ok_bind] at hperform
    -- Only the first request fills the slot; the others get what it holds.
    cases hslot : e.slot coding with
    | some done =>
      rw [hslot] at hperform
      obtain ⟨rfl, rfl⟩ := Prod.mk.inj (Except.ok.inj hperform)
      refine ⟨h, .of_eq rfl, fun x hx => ?_⟩
      exact (h.filled i x hx coding done (Option.some.inj (he.symm.trans hx) ▸ hslot)).1
    | none =>
      rw [hslot] at hperform
      obtain ⟨rfl, rfl⟩ := Prod.mk.inj (Except.ok.inj hperform)
      obtain ⟨hsane, hgrown⟩ := h.fill he hkeeps coding
      refine ⟨hsane, hgrown, fun x hx => ?_⟩
      obtain ⟨e', he', -, hdata⟩ := hgrown i e he
      rw [Option.some.inj (hx.symm.trans he'), hdata]
  | isFile path =>
    obtain ⟨rfl, rfl⟩ := Prod.mk.inj (Except.ok.inj hperform)
    exact ⟨h, .of_eq rfl, fun hpath => (h.disk_eq hpath).2.1⟩
  | read path =>
    obtain ⟨rfl, rfl⟩ := Prod.mk.inj (Except.ok.inj hperform)
    exact ⟨h, .of_eq rfl, fun hpath => (h.disk_eq hpath).2.2⟩
  | metadata path =>
    obtain ⟨rfl, rfl⟩ := Prod.mk.inj (Except.ok.inj hperform)
    exact ⟨h, .of_eq rfl, fun hpath => (h.disk_eq hpath).1⟩
  | canonicalize path =>
    obtain ⟨-, rfl⟩ := Prod.mk.inj (Except.ok.inj hperform)
    exact ⟨h, .of_eq rfl, trivial⟩
  | extract path content =>
    obtain ⟨-, rfl⟩ := Prod.mk.inj (Except.ok.inj hperform)
    refine ⟨⟨h.sound, h.limits, h.cached, h.filled, h.untouched, fun hoff => ?_⟩, .of_eq rfl, trivial⟩
    exact absurd (hoff.symm.trans ha) (by simp)
  | logMissing reqPath =>
    obtain ⟨-, rfl⟩ := Prod.mk.inj (Except.ok.inj hperform)
    exact ⟨⟨h.sound, h.limits, h.cached, h.filled, h.untouched, h.extracted⟩, .of_eq rfl, trivial⟩

/-- A look at an empty cache leaves it empty. -/
lemma perform_cacheGet_empty (md5 : List Byte → Vector Byte 16) {s : Server}
    (hsound : s.cache.Sound) (hempty : s.cache.recency = []) (key : Str) :
    ∃ cache : FileCache, s.perform md5 (.cacheGet key) = .ok (none, { s with cache := cache }) ∧
      cache.Sound ∧ cache.recency = [] ∧ cache.limits = s.cache.limits := by
  obtain ⟨hget, hsound', hlimits, hrecency⟩ := FileCache.get_spec hsound key
  rw [hempty] at hget hrecency
  refine ⟨(s.cache.get key).2, ?_, hsound', hrecency, hlimits⟩
  rw [show (none : Option CachedFile) = (s.cache.get key).1 from hget.symm]
  rfl

/-! ## The contract -/

/-- Nothing is extracted when part of the disk is to stay: extraction may write anywhere. -/
def Guarded (c : Client) (frozen : PathBuf → Prop) : Prop :=
  ∀ path, frozen path → c.cfg.clientAutoextract = false

lemma guarded_nothing : Guarded c fun _ => False := fun _ hpath => absurd hpath id

lemma Sane.setDisk {s : Server} (h : Sane c frozen T s) {disk : FileSystem}
    (hdisk : ∀ path, frozen path → disk.node path = s.disk.node path) :
    Sane c frozen T { s with disk := disk } where
  sound := h.sound
  limits := h.limits
  cached := h.cached
  filled := h.filled
  untouched := fun path hpath => (hdisk path hpath).trans (h.untouched path hpath)
  extracted := h.extracted

/-- What requests and the world around them keep. -/
def contract (hguarded : Guarded c frozen) (T : FileSystem) : Contract (c.machine frozen) where
  inv := Sane c frozen T
  rel := Server.Grown
  may := Allowed c
  refl := fun _ => .of_eq rfl
  trans := Server.Grown.trans
  env := by
    intro s s' h hout
    cases hout with
    | extraction hdisk =>
      refine ⟨h.setDisk fun path hpath => hdisk path fun e he => ?_, .of_eq rfl⟩
      rw [h.extracted (hguarded path hpath)] at he
      exact absurd he (by simp)
    | log hdisk =>
      exact ⟨h.setDisk fun path hpath => hdisk path (.inl hpath), .of_eq rfl⟩
    | others hdisk => exact ⟨h.setDisk hdisk, .of_eq rfl⟩

lemma sane_start (disk : FileSystem) (hdisk : ∀ path, frozen path → disk.node path = T.node path) :
    Sane c frozen T (Client.start c.cfg disk) where
  sound := sound_withBudget _ _
  limits := rfl
  cached := fun it hit => absurd hit (by
    simp [Client.start, Client.newCache, FileCache.new, recency_withBudget])
  filled := fun i e he => absurd he (by simp [Client.start])
  untouched := hdisk
  extracted := fun _ => rfl

/-! ## Programs within the contract -/

section Programs

variable {α : Type} {Post : α → Server → Prop} {s : Server} (hguarded : Guarded c frozen)

/-- The rule for one action. -/
lemma safe_act {a : Action} {next : a.Answer → Work α} (ha : Allowed c s a)
    (h : ∀ r s', s.Grown s' → Answers c frozen T s' a r →
      (contract hguarded T).Safe Post (next r) s') :
    (contract hguarded T).Safe Post (.act a next) s := by
  intro s₁ hgrown hsane
  refine ⟨ha.grown hgrown, fun r s₂ hperform => ?_⟩
  obtain ⟨hsane₂, hgrown₂, hanswers⟩ := perform_spec hsane (ha.grown hgrown) hperform
  exact ⟨hsane₂, hgrown₂, h r s₂ (hgrown.trans hgrown₂) hanswers⟩

end Programs

end

end RemoteClient

/-
# Where an answer comes from

Any number of requests and warm-ups share one cache, and a copy that one of them stored answers
the others.  `Sourced` says which bytes may be stored under a key at all: what one of the sources
has for a path of that key, or what the warm-up read for it.  Every copy in every state that the
server can be in is `Sourced` (`Traced`), and so is the content of every answer.

The disk is that of `T` where it is frozen; of other files nothing is known.  What a path leads
to once its links are followed is never anything but what `links` says.
-/
import RemoteClient.Copies

namespace RemoteClient

open Exec Http

/-! ## The sources of a key -/

namespace Client

variable (c : Client) (frozen : PathBuf → Prop) (links : PathBuf → PathBuf → Prop)
  (T : FileSystem)

/-- What one of the sources may have for a path. -/
inductive Finds (reqPath : Str) (data : List Byte) : Prop
  | loose {path : PathBuf} (hjoin : safeJoin c.cfg.root reqPath = some path)
      (h : frozen path → T.fileData path = some data)
  /-- Its file in a client directory, which lies below the directory once links are followed. -/
  | client {dir base candidate path : PathBuf} {relative : Str}
      (hdir : c.clientDirectory reqPath = some (dir, relative))
      (hjoin : safeJoin dir relative = some candidate)
      (hbase : links dir base) (hfile : links candidate path) (hbelow : base <+: path)
      (h : frozen path → T.fileData path = some data)
  | override {dir path : PathBuf} (hdir : c.cfg.dataOverridePath = some dir)
      (hjoin : safeJoin dir (stripLeadingData reqPath) = some path)
      (h : frozen path → T.fileData path = some data)
  | archive (h : c.archiveData reqPath = .ok (some data))

/-- What may be stored under a key. -/
inductive Sourced (key : Str) (data : List Byte) : Prop
  | request {reqPath : Str} (hpublic : publicAssetPath reqPath = true)
      (hkey : c.cacheKey reqPath = key) (h : c.Finds frozen links T reqPath data)
  | warmUp (h : c.Warmed key data)

/-- What an action may store and extract. -/
def StoresSourced : Action → Prop
  | .cacheInsert key data => c.Sourced frozen links T key data
  | .extract _ _ => c.cfg.clientAutoextract = true
  | _ => True

/-- What an answer tells. -/
def TellsSourced : (a : Action) → a.Answer → Prop
  | .cacheGet key, hit => ∀ file, hit = some file → c.Sourced frozen links T key file.data
  | .cacheInsert _ data, file => file.data = data
  | .isFile path, r => frozen path → r = T.isFile path
  | .read path, r => frozen path → r = T.read path
  | .canonicalize path, r => ∀ file, r = some file → links path file
  | _, _ => True

/-- What resolving a path returns has a source; and when the archives have the path, something
is returned. -/
structure Traces (reqPath : Str) (gameData : Bool) (r : Resolved) : Prop where
  sourced : ∀ file source, r = .ok (some (file, source)) →
    c.Sourced frozen links T (c.cacheKey reqPath) file.data
  found : c.looksFor reqPath = true → gameData = true →
    (∃ data, c.archiveData reqPath = .ok (some data)) → ∃ x, r = .ok (some x)

/-- A program that stores only what has a source. -/
abbrev Tracing {α : Type} (P : α → Prop) (p : Work α) : Prop :=
  p.Within (c.TellsSourced frozen links T) (c.StoresSourced frozen links T) P

end Client

/-! ## Resolving -/

section

variable {c : Client} {frozen : PathBuf → Prop} {links : PathBuf → PathBuf → Prop} {T : FileSystem}
  {reqPath : Str} {gameData : Bool}

lemma tracing_store {content : List Byte}
    (h : c.Sourced frozen links T (c.cacheKey reqPath) content) (source : Source) :
    c.Tracing frozen links T (c.Traces frozen links T reqPath gameData)
      (Client.store (c.cacheKey reqPath) content source) := by
  refine ⟨h, fun file hfile => ⟨?_, fun _ _ _ => ⟨_, rfl⟩⟩⟩
  intro file' source' heq
  obtain ⟨rfl, -⟩ := Prod.mk.inj (Option.some.inj (Except.ok.inj heq))
  rw [show file.data = content from hfile]
  exact h

/-- Nothing is returned when the archives have nothing, or are not asked. -/
lemma traces_nothing {r : Resolved} (h : ∀ x, r ≠ .ok (some x))
    (hnone : c.looksFor reqPath = true → gameData = true →
      ∀ data, c.archiveData reqPath ≠ .ok (some data)) :
    c.Traces frozen links T reqPath gameData r where
  sourced := fun file source heq => absurd heq (h _)
  found := by
    rintro hlooks hgame ⟨data, hdata⟩
    exact absurd hdata (hnone hlooks hgame data)

lemma tracing_missed (hnone : ∀ data, c.archiveData reqPath ≠ .ok (some data)) :
    c.Tracing frozen links T (c.Traces frozen links T reqPath gameData) (Client.missed reqPath) :=
  ⟨trivial, fun _ _ => traces_nothing (by simp) fun _ _ => hnone⟩

lemma tracing_extractFile (content : List Byte) (hextract : c.cfg.clientAutoextract = true) :
    c.Tracing frozen links T (fun _ => True) (c.extractFile reqPath content) := by
  unfold Client.extractFile
  split
  · trivial
  · exact ⟨hextract, fun _ _ => trivial⟩

lemma tracing_resolveArchive (hpublic : publicAssetPath reqPath = true) :
    c.Tracing frozen links T (c.Traces frozen links T reqPath gameData)
      (c.resolveArchive (c.cacheKey reqPath) reqPath) := by
  have hnone : (∀ data, c.archiveData reqPath ≠ .ok (some data)) → ∀ stop : Stop Empty,
      c.Tracing frozen links T (c.Traces frozen links T reqPath gameData) (.ret (.error stop)) :=
    fun hnone stop => traces_nothing (by simp) fun _ _ => hnone
  unfold Client.resolveArchive
  cases hhit : c.archiveHit reqPath with
  | error stop => exact hnone (by simp [Client.archiveData, hhit]) stop
  | ok hit =>
    cases hit with
    | none => exact tracing_missed (by simp [Client.archiveData, hhit])
    | some found =>
      simp only
      cases hread : c.readFound found with
      | ok content =>
        have hdata : c.archiveData reqPath = .ok (some content) := by
          simp [Client.archiveData, hhit, hread]
        have hstore : c.Tracing frozen links T (c.Traces frozen links T reqPath gameData)
            (Client.store (c.cacheKey reqPath) content (.grf found.grf)) :=
          tracing_store (.request hpublic rfl (.archive hdata)) _
        change c.Tracing frozen links T _ (if c.cfg.clientAutoextract = true then _ else _)
        split
        · next hextract => exact (tracing_extractFile content hextract).bind fun _ _ => hstore
        · exact hstore
      | error stop =>
        cases stop with
        | err _ => exact tracing_missed (by simp [Client.archiveData, hhit, hread])
        | panic => exact hnone (by simp [Client.archiveData, hhit, hread]) _
        | hang => exact hnone (by simp [Client.archiveData, hhit, hread]) _

lemma tracing_resolveGameData (hpublic : publicAssetPath reqPath = true) (gameData : Bool) :
    c.Tracing frozen links T (c.Traces frozen links T reqPath gameData)
      (c.resolveGameData (c.cacheKey reqPath) reqPath gameData) := by
  cases gameData with
  | true => exact tracing_resolveArchive hpublic
  | false => exact traces_nothing (by simp) fun _ heq => absurd heq (by simp)

lemma tracing_storeFile {path : PathBuf} (source : Source) {next : Work Resolved}
    (hfinds : ∀ data, (frozen path → T.read path = some data) →
      c.Sourced frozen links T (c.cacheKey reqPath) data)
    (hnext : c.Tracing frozen links T (c.Traces frozen links T reqPath gameData) next) :
    c.Tracing frozen links T (c.Traces frozen links T reqPath gameData)
      (Client.storeFile (c.cacheKey reqPath) path source next) := by
  refine ⟨trivial, fun content hcontent => ?_⟩
  cases content with
  | some content => exact tracing_store (hfinds content fun hpath => (hcontent hpath).symm) source
  | none => exact hnext

/-- A file is read if it is there. -/
lemma tracing_file {path : PathBuf} (source : Source) {next : Work Resolved}
    (hfinds : ∀ data, (frozen path → T.fileData path = some data) →
      c.Sourced frozen links T (c.cacheKey reqPath) data)
    (hnext : c.Tracing frozen links T (c.Traces frozen links T reqPath gameData) next) :
    c.Tracing frozen links T (c.Traces frozen links T reqPath gameData) (do
      if ← Work.isFile path then Client.storeFile (c.cacheKey reqPath) path source next
      else next) := by
  refine ⟨trivial, fun isFile hisFile => ?_⟩
  cases isFile with
  | true =>
    refine tracing_storeFile source (fun data hdata => hfinds data fun hpath => ?_) hnext
    rw [FileSystem.fileData, ← hisFile hpath, if_pos rfl]
    exact hdata hpath
  | false => exact hnext

lemma tracing_resolveOverride (hpublic : publicAssetPath reqPath = true) (gameData : Bool) :
    c.Tracing frozen links T (c.Traces frozen links T reqPath gameData)
      (c.resolveOverride (c.cacheKey reqPath) reqPath gameData) := by
  unfold Client.resolveOverride
  cases hdir : c.cfg.dataOverridePath with
  | none => exact tracing_resolveGameData hpublic gameData
  | some dir =>
    rw [Option.bind_some]
    cases hjoin : safeJoin dir (stripLeadingData reqPath) with
    | none => exact tracing_resolveGameData hpublic gameData
    | some path =>
      exact tracing_file .dataOverride
        (fun data hdata => .request hpublic rfl (.override hdir hjoin hdata))
        (tracing_resolveGameData hpublic gameData)

/-- What is found within a directory: where a path below it leads, and not out of it. -/
structure Within (frozen : PathBuf → Prop) (links : PathBuf → PathBuf → Prop) (T : FileSystem)
    (root : PathBuf) (rel : Str) (path : PathBuf) : Prop where
  joined : ∃ candidate, safeJoin root rel = some candidate ∧ links candidate path
  below : ∃ base, links root base ∧ base <+: path
  file : frozen path → T.isFile path = true

lemma tracing_confinedFile (root : PathBuf) (rel : Str) :
    c.Tracing frozen links T
      (fun found => ∀ path, found = some path → Within frozen links T root rel path)
      (Client.confinedFile root rel) := by
  have hnone : ∀ path, (none : Option PathBuf) = some path → Within frozen links T root rel path :=
    fun path heq => absurd heq (by simp)
  unfold Client.confinedFile
  cases hjoin : safeJoin root rel with
  | none => exact hnone
  | some candidate =>
    refine ⟨trivial, fun base hbase => ?_⟩
    cases base with
    | none => exact hnone
    | some base =>
      refine ⟨trivial, fun file hfile => ?_⟩
      cases file with
      | none => exact hnone
      | some file =>
        change Prog.Within _ _ _ (if base.isPrefixOf file then _ else _)
        split
        · next hbelow =>
          refine ⟨trivial, fun isFile hisFile => ?_⟩
          cases isFile with
          | true =>
            intro path heq
            obtain rfl := Option.some.inj heq
            exact ⟨⟨candidate, hjoin, hfile file rfl⟩,
              ⟨base, hbase base rfl, List.isPrefixOf_iff_prefix.mp hbelow⟩,
              fun hpath => (hisFile hpath).symm⟩
          | false => exact hnone
        · exact hnone

lemma tracing_resolveClientDirectory (hpublic : publicAssetPath reqPath = true) (gameData : Bool) :
    c.Tracing frozen links T (c.Traces frozen links T reqPath gameData)
      (c.resolveClientDirectory (c.cacheKey reqPath) reqPath gameData) := by
  have hnext : c.Tracing frozen links T (c.Traces frozen links T reqPath gameData)
      (c.resolveOverride (c.cacheKey reqPath) reqPath gameData) :=
    tracing_resolveOverride hpublic gameData
  unfold Client.resolveClientDirectory
  cases hdir : (c.clientDirectory reqPath).filter fun _ => gameData with
  | none => exact hnext
  | some x =>
    refine (tracing_confinedFile x.1 x.2).bind fun found hfound => ?_
    cases found with
    | none => exact hnext
    | some path =>
      refine tracing_storeFile .clientDirectory (fun data hdata => ?_) hnext
      obtain ⟨⟨candidate, hjoin, hlink⟩, ⟨base, hbase, hbelow⟩, hisFile⟩ := hfound path rfl
      have hfile : frozen path → T.fileData path = some data := by
        intro hpath
        rw [FileSystem.fileData, if_pos (hisFile hpath)]
        exact hdata hpath
      exact .request hpublic rfl
        (.client (Option.filter_eq_some_iff.mp hdir).1 hjoin hbase hlink hbelow hfile)

/-- **What a path resolves to has a source.** -/
lemma tracing_resolveWith (reqPath : Str) (gameData : Bool) :
    c.Tracing frozen links T (c.Traces frozen links T reqPath gameData)
      (c.resolveWith reqPath gameData) := by
  unfold Client.resolveWith
  cases hpublic : publicAssetPath reqPath with
  | false =>
    refine traces_nothing (by simp) fun hlooks => ?_
    rw [Client.looksFor, hpublic] at hlooks
    exact absurd hlooks (by simp)
  | true =>
    cases hjoin : safeJoin c.cfg.root reqPath with
    | none =>
      refine traces_nothing (by simp) fun hlooks => ?_
      rw [Client.looksFor, hjoin] at hlooks
      exact absurd hlooks (by simp)
    | some path =>
      have hlocal : c.Tracing frozen links T (c.Traces frozen links T reqPath gameData)
          (c.resolveLocal (c.cacheKey reqPath) reqPath path gameData) :=
        tracing_file .localFile (fun data hdata => .request hpublic rfl (.loose hjoin hdata))
          (tracing_resolveClientDirectory hpublic gameData)
      cases gameData with
      | false => exact hlocal
      | true =>
        refine ⟨trivial, fun hit hhit => ?_⟩
        cases hit with
        | none => exact hlocal
        | some file =>
          refine ⟨?_, fun _ _ _ => ⟨_, rfl⟩⟩
          intro file' source heq
          obtain ⟨rfl, -⟩ := Prod.mk.inj (Option.some.inj (Except.ok.inj heq))
          exact hhit file rfl

/-- What is found has a source; and when the archives have the path, something is found. -/
structure Client.TracesFile (c : Client) (frozen : PathBuf → Prop)
    (links : PathBuf → PathBuf → Prop) (T : FileSystem) (reqPath : Str) (gameData : Bool)
    (found : Option CachedFile) : Prop where
  sourced : ∀ file, found = some file → c.Sourced frozen links T (c.cacheKey reqPath) file.data
  found : c.looksFor reqPath = true → gameData = true →
    (∃ data, c.archiveData reqPath = .ok (some data)) → ∃ file, found = some file

lemma Client.Traces.joined {r : Resolved} (h : c.Traces frozen links T reqPath gameData r) :
    c.TracesFile frozen links T reqPath gameData (Client.joined r) where
  sourced := by
    intro file hfile
    match r, h with
    | .ok (some (file', source)), h =>
      obtain rfl : file' = file := Option.some.inj hfile
      exact h.sourced file' source rfl
  found := by
    intro hlooks hgame hdata
    obtain ⟨x, rfl⟩ := h.found hlooks hgame hdata
    exact ⟨x.1, rfl⟩

lemma tracing_getFileWith (reqPath : Str) (gameData : Bool) :
    c.Tracing frozen links T (c.TracesFile frozen links T reqPath gameData)
      (c.getFileWith reqPath gameData) := by
  have hjoined : ∀ gameData, c.Tracing frozen links T (c.TracesFile frozen links T reqPath gameData)
      (Client.joined <$> c.resolveWith reqPath gameData) :=
    fun gameData => (tracing_resolveWith reqPath gameData).bind fun _ h => h.joined
  unfold Client.getFileWith
  cases gameData with
  | false => exact hjoined false
  | true =>
    change c.Tracing frozen links T _ (c.getFile reqPath)
    unfold Client.getFile Client.cached
    cases publicAssetPath reqPath with
    | false => exact hjoined true
    | true =>
      refine ⟨trivial, fun hit hhit => ?_⟩
      cases hit with
      | none => exact hjoined true
      | some file =>
        refine ⟨fun file' heq => ?_, fun _ _ _ => ⟨file, rfl⟩⟩
        obtain rfl := Option.some.inj heq
        exact hhit file rfl

/-! ## The other programs -/

/-- An action that neither stores nor extracts. -/
def Stays : Action → Prop
  | .cacheInsert _ _ => False
  | .extract _ _ => False
  | _ => True

lemma Stays.stores {a : Action} (h : Stays a) : c.StoresSourced frozen links T a := by
  cases a with
  | cacheInsert key data => exact h.elim
  | extract path content => exact h.elim
  | _ => trivial

lemma tracing_of_stays {α : Type} {P : α → Prop} {p : Work α} (h : p.All Stays P) :
    c.Tracing frozen links T P p := h.within (fun _ ha => ha.stores) fun _ ha => ha

lemma tracing_looks {α : Type} {served : PathBuf → Prop} {P : α → Prop} {p : Work α}
    (h : p.All (LooksAt served) P) : c.Tracing frozen links T (fun _ => True) p := by
  refine tracing_of_stays (h.mono (fun a ha => ?_) fun _ _ => trivial)
  cases a with
  | isFile | read | metadata => trivial
  | _ => exact absurd ha (by simp [LooksAt])

lemma tracing_serveAsset (headers : HeaderMap) (relative : Str) (file : CachedFile) :
    c.Tracing frozen links T (fun _ => True) (c.serveAsset headers relative file) := by
  refine tracing_of_stays ?_
  unfold Client.serveAsset
  simp only
  split
  · trivial
  · split
    · trivial
    · refine Prog.All.bind (P := fun _ => True) ?_ fun made _ => by cases made <;> trivial
      unfold Client.encoded
      refine ⟨trivial, fun done => ?_⟩
      cases done with
      | some done => trivial
      | none =>
        change Prog.All _ _ (if !c.keeps file.data.length then _ else _)
        split
        · trivial
        · refine ⟨trivial, fun r => ?_⟩
          match r with
          | (some bytes, true) => exact ⟨trivial, fun _ => trivial⟩
          | (some bytes, false) => trivial
          | (none, _) => trivial

lemma tracing_serveResolved (headers : HeaderMap) (relative : Str) (gameData : Bool) :
    c.Tracing frozen links T (fun _ => True) (c.serveResolved headers relative gameData) := by
  refine (tracing_getFileWith relative gameData).bind fun file _ => ?_
  cases file with
  | some file => exact tracing_serveAsset headers relative file
  | none => trivial

lemma tracing_serveFile (headers : HeaderMap) (relative : Str) (gameData : Bool) :
    c.Tracing frozen links T (fun _ => True) (c.serveFile headers relative gameData) := by
  have hfallback : c.Tracing frozen links T (fun _ => True)
      (c.serveFallback headers relative gameData) := by
    unfold Client.serveFallback
    split
    · exact tracing_looks (serveRoot_looks headers served_indexPage)
    · exact tracing_serveResolved headers relative gameData
  unfold Client.serveFile
  split
  · refine (tracing_looks (serveStatic_looks headers serves_static)).bind fun r _ => ?_
    cases r with
    | some resp => trivial
    | none => exact hfallback
  · exact hfallback

lemma tracing_serveGet (headers : HeaderMap) (relative : Str) (gameData : Bool) :
    c.Tracing frozen links T (fun _ => True) (c.serveGet headers relative gameData) := by
  unfold Client.serveGet
  split
  · trivial
  · split
    · exact tracing_serveFile headers relative gameData
    · refine ⟨trivial, fun bytes _ => ?_⟩
      cases bytes with
      | some bytes => trivial
      | none => exact tracing_serveFile headers relative gameData

lemma tracing_fetchFiles (gameData : Bool) (files : List Str) (results : Std.TreeMap Str Str) :
    c.Tracing frozen links T (fun _ => True) (c.fetchFiles gameData files results) := by
  induction files generalizing results with
  | nil => trivial
  | cons path files ih =>
    refine (tracing_getFileWith path gameData).bind fun file _ => ?_
    cases file with
    | some file => exact ih _
    | none => exact ih _

lemma tracing_warmFiles (limit : ℕ) {reachable : List (BitVec 32)}
    (h : ∀ i ∈ reachable, i ∈ c.index.reachable) (warmed : ℕ) :
    c.Tracing frozen links T (fun _ => True) (c.warmFiles limit reachable warmed) := by
  induction reachable generalizing warmed with
  | nil => trivial
  | cons i reachable ih =>
    have hrest : ∀ j ∈ reachable, j ∈ c.index.reachable := fun j hj =>
      h j (List.mem_cons_of_mem i hj)
    unfold Client.warmFiles
    split
    · trivial
    · next file hfile =>
      split
      · trivial
      · split
        · exact ih hrest warmed
        · next hwarm =>
          rw [Bool.not_eq_true', Bool.not_eq_false] at hwarm
          split
          · next content hread =>
            have hwarmed : c.Warmed (normForward c.platform.text
                (Encoding.toMojibake c.platform.text file.name)) content :=
              ⟨i, h i List.mem_cons_self, file, hfile, hwarm, hread, rfl⟩
            exact ⟨.warmUp hwarmed, fun _ _ => ih hrest (warmed + 1)⟩
          · exact ih hrest warmed
          · trivial
          · trivial

/-- **Every job stores only what has a source.** -/
lemma tracing_run (job : Job) : c.Tracing frozen links T (fun _ => True) (c.run job) := by
  cases job with
  | warmUp limit =>
    exact (tracing_warmFiles limit (fun _ hi => hi) 0).bind fun _ _ => trivial
  | request r =>
    change c.Tracing frozen links T _ (c.handle r)
    unfold Client.handle
    split
    · trivial
    · trivial
    · refine Prog.Within.bind (P := fun _ => True) ?_ fun _ _ => trivial
      simp only [Client.serveBatch]
      split
      · trivial
      · exact (tracing_fetchFiles _ _ _).bind fun _ _ => trivial
    · refine Prog.Within.bind (P := fun _ => True) ?_ fun _ _ => trivial
      unfold Client.servePath
      split
      · trivial
      · exact (tracing_serveGet _ _ _).bind fun _ _ => trivial

/-! ## Runs -/

/-- Links lead nowhere but where `links` says. -/
def FileSystem.LinksTo (fs : FileSystem) (links : PathBuf → PathBuf → Prop) : Prop :=
  ∀ path file, fs.canonicalize path = some file → links path file

/-- The server on disks whose links lead where `links` says. -/
def Client.linked (c : Client) (frozen : PathBuf → Prop) (links : PathBuf → PathBuf → Prop) :
    Machine Action Action.Answer Server Job (Option Response) :=
  (c.machine frozen).keeping fun s => s.disk.LinksTo links

/-- Every copy has a source. -/
structure Traced (c : Client) (frozen : PathBuf → Prop) (links : PathBuf → PathBuf → Prop)
    (T : FileSystem) (s : Server) : Prop where
  sound : s.cache.Sound
  cached : ∀ it ∈ s.cache.recency, c.Sourced frozen links T it.key it.value.data
  untouched : ∀ path, frozen path → s.disk.node path = T.node path
  linksTo : s.disk.LinksTo links
  extracted : c.cfg.clientAutoextract = false → s.extractions = []

lemma Traced.setCache {s : Server} (h : Traced c frozen links T s) {cache : FileCache}
    {encodings : List Encodings} {reported : List ℕ} (hsound : cache.Sound)
    (hcached : ∀ it ∈ cache.recency, c.Sourced frozen links T it.key it.value.data) :
    Traced c frozen links T { s with cache := cache, encodings := encodings, reported := reported } :=
  ⟨hsound, hcached, h.untouched, h.linksTo, h.extracted⟩

lemma traced_perform {s s' : Server} (h : Traced c frozen links T s) {a : Action} {r : a.Answer}
    (ha : c.StoresSourced frozen links T a) (hperform : s.perform c.platform.md5 a = .ok (r, s')) :
    Traced c frozen links T s' ∧ c.TellsSourced frozen links T a r := by
  cases a with
  | cacheGet key =>
    obtain ⟨hhit, hsound, -, hrecency⟩ := FileCache.get_spec h.sound key
    have hr : (s.cache.get key).1 = r := (Prod.mk.inj (Except.ok.inj hperform)).1
    have hs : { s with cache := (s.cache.get key).2 } = s' :=
      (Prod.mk.inj (Except.ok.inj hperform)).2
    subst hs
    refine ⟨h.setCache hsound fun it hit => h.cached it ?_, fun file hfile => ?_⟩
    · exact (Lru.hit_perm key h.sound.nodup_keys).subset (hrecency ▸ hit)
    · rw [← hr, hhit] at hfile
      obtain ⟨it, hfind, rfl⟩ := Option.map_eq_some_iff.mp hfile
      obtain ⟨hmem, rfl⟩ := Lru.find?_key hfind
      exact h.cached it hmem
  | cacheInsert key data =>
    obtain ⟨cache, hok, hsound, -, hrecency⟩ :=
      FileCache.insert_spec c.platform.md5 h.sound key data s.encodings.length
    simp only [Server.perform, hok, ok_bind] at hperform
    obtain ⟨rfl, rfl⟩ := Prod.mk.inj (Except.ok.inj hperform)
    refine ⟨h.setCache hsound fun it hit => ?_, rfl⟩
    rw [hrecency] at hit
    split at hit
    · rcases List.mem_append.mp hit with hit | hit
      · exact h.cached it (Lru.mem_trim_others _ _ _ it hit).1
      · rw [List.mem_singleton.mp hit]
        exact ha
    · exact h.cached it hit
  | addEncoding key file bytes =>
    obtain ⟨cache, hok, hsound, -, hrecency⟩ := FileCache.addEncoding_spec h.sound key file bytes
    simp only [Server.perform, hok, ok_bind] at hperform
    obtain ⟨rfl, rfl⟩ := Prod.mk.inj (Except.ok.inj hperform)
    refine ⟨h.setCache hsound fun it hit => ?_, trivial⟩
    rw [hrecency] at hit
    split at hit
    · rcases Lru.mem_grow h.sound.nodup_keys hit with ⟨hold, -⟩ | ⟨old, hold, -, rfl⟩
      · exact h.cached it hold
      · exact h.cached old hold
    · exact h.cached it hit
  | slotGet i coding =>
    obtain ⟨e, -, hret⟩ := bind_eq_ok.mp hperform
    obtain ⟨-, rfl⟩ := Prod.mk.inj (Except.ok.inj hret)
    exact ⟨h, trivial⟩
  | slotInit i coding value =>
    obtain ⟨e, -, hret⟩ := bind_eq_ok.mp hperform
    refine ⟨?_, trivial⟩
    cases hslot : e.slot coding with
    | some done =>
      rw [hslot] at hret
      obtain ⟨-, rfl⟩ := Prod.mk.inj (Except.ok.inj hret)
      exact h
    | none =>
      rw [hslot] at hret
      obtain ⟨-, rfl⟩ := Prod.mk.inj (Except.ok.inj hret)
      exact h.setCache h.sound h.cached
  | isFile path =>
    obtain ⟨rfl, rfl⟩ := Prod.mk.inj (Except.ok.inj hperform)
    refine ⟨h, fun hpath => ?_⟩
    rw [FileSystem.isFile, FileSystem.metadata, h.untouched path hpath]
    rfl
  | read path =>
    obtain ⟨rfl, rfl⟩ := Prod.mk.inj (Except.ok.inj hperform)
    refine ⟨h, fun hpath => ?_⟩
    rw [FileSystem.read, h.untouched path hpath]
    rfl
  | metadata path =>
    obtain ⟨-, rfl⟩ := Prod.mk.inj (Except.ok.inj hperform)
    exact ⟨h, trivial⟩
  | canonicalize path =>
    obtain ⟨rfl, rfl⟩ := Prod.mk.inj (Except.ok.inj hperform)
    exact ⟨h, fun file hfile => h.linksTo path file hfile⟩
  | extract path content =>
    obtain ⟨-, rfl⟩ := Prod.mk.inj (Except.ok.inj hperform)
    refine ⟨⟨h.sound, h.cached, h.untouched, h.linksTo, fun hoff => ?_⟩, trivial⟩
    exact absurd (hoff.symm.trans ha) (by simp)
  | logMissing reqPath =>
    obtain ⟨-, rfl⟩ := Prod.mk.inj (Except.ok.inj hperform)
    exact ⟨⟨h.sound, h.cached, h.untouched, h.linksTo, h.extracted⟩, trivial⟩

/-- What jobs keep about the copies. -/
def tracingContract (hguarded : Guarded c frozen) (links : PathBuf → PathBuf → Prop)
    (T : FileSystem) : Contract (c.linked frozen links) where
  inv := Traced c frozen links T
  rel := fun _ _ => True
  may := fun _ => c.StoresSourced frozen links T
  refl := fun _ => trivial
  trans := fun _ _ => trivial
  env := by
    rintro s s' h ⟨hout, hlinks⟩
    have hdisk : ∀ disk : FileSystem, (∀ path, frozen path → disk.node path = s.disk.node path) →
        disk.LinksTo links → Traced c frozen links T { s with disk := disk } :=
      fun disk hsame hlinks => ⟨h.sound, h.cached,
        fun path hpath => (hsame path hpath).trans (h.untouched path hpath), hlinks, h.extracted⟩
    cases hout with
    | extraction hsame =>
      refine ⟨hdisk _ (fun path hpath => hsame path fun e he => ?_) hlinks, trivial⟩
      rw [h.extracted (hguarded path hpath)] at he
      exact absurd he (by simp)
    | log hsame => exact ⟨hdisk _ (fun path hpath => hsame path (.inl hpath)) hlinks, trivial⟩
    | others hsame => exact ⟨hdisk _ hsame hlinks, trivial⟩

lemma traced_start {disk : FileSystem} (hdisk : ∀ path, frozen path → disk.node path = T.node path)
    (hlinks : disk.LinksTo links) : Traced c frozen links T (Client.start c.cfg disk) where
  sound := sound_withBudget _ _
  cached := fun it hit => absurd hit (by
    simp [Client.start, Client.newCache, FileCache.new, recency_withBudget])
  untouched := hdisk
  linksTo := hlinks
  extracted := fun _ => rfl

lemma safe_tracing (hguarded : Guarded c frozen) {α : Type} {P : α → Prop} {p : Work α} {s : Server}
    (h : c.Tracing frozen links T P p) :
    (tracingContract hguarded links T).Safe (fun a _ => P a) p s := by
  refine Contract.Safe.of_within (fun a ha s htraced => ⟨ha, fun r s' hperform => ?_⟩) h
  obtain ⟨htraced', htells⟩ := traced_perform htraced ha hperform
  exact ⟨htraced', trivial, htells⟩

/-! ## Answers -/

/-- The answer for some bytes that were stored under the key of the path, and have a source. -/
def Client.FromSource (c : Client) (frozen : PathBuf → Prop) (links : PathBuf → PathBuf → Prop)
    (T : FileSystem) (headers : HeaderMap) (relative : Str) (resp : Response) (s : Server) : Prop :=
  ∃ e ∈ s.encodings, e.key = c.cacheKey relative ∧
    c.Sourced frozen links T (c.cacheKey relative) e.data ∧
    resp = c.assetAnswer headers relative e.data

lemma Client.FromSource.grown {s s' : Server} {headers : HeaderMap} {relative : Str}
    {resp : Response} (h : c.FromSource frozen links T headers relative resp s) (hgrown : s.Grown s') :
    c.FromSource frozen links T headers relative resp s' := by
  obtain ⟨e, he, hkey, hsourced, hresp⟩ := h
  obtain ⟨i, hi⟩ := List.mem_iff_getElem?.mp he
  obtain ⟨e', he', hkey', hdata⟩ := hgrown i e hi
  exact ⟨e', List.mem_of_getElem? he', hkey'.trans hkey, hdata ▸ hsourced, hdata ▸ hresp⟩

/-- A path that nothing but resolving answers. -/
structure Client.OnlyAsset (c : Client) (relative : Str) : Prop where
  static : c.cfg.enableStaticServe = false
  generated : Client.generatedName relative = none
  looks : c.looksFor relative = true

/-- An answer that is under a strong tag is for an asset; and so is every answer for a path that
the archives have and nothing but resolving answers. -/
structure Client.AnswersFrom (c : Client) (frozen : PathBuf → Prop)
    (links : PathBuf → PathBuf → Prop) (T : FileSystem) (headers : HeaderMap) (relative : Str)
    (gameData : Bool) (resp : Response) (s : Server) : Prop where
  sourced : Untagged resp ∨ c.FromSource frozen links T headers relative resp s
  found : c.OnlyAsset relative → gameData = true →
    (∃ data, c.archiveData relative = .ok (some data)) →
      c.FromSource frozen links T headers relative resp s

lemma Client.AnswersFrom.grown {s s' : Server} {headers : HeaderMap} {relative : Str}
    {gameData : Bool} {resp : Response}
    (h : c.AnswersFrom frozen links T headers relative gameData resp s) (hgrown : s.Grown s') :
    c.AnswersFrom frozen links T headers relative gameData resp s' where
  sourced := h.sourced.imp_right fun hfrom => hfrom.grown hgrown
  found := fun hasset hgame hdata => (h.found hasset hgame hdata).grown hgrown

/-- All that jobs keep. -/
abbrev wholeContract (hguarded : Guarded c frozen) (links : PathBuf → PathBuf → Prop)
    (T : FileSystem) : Contract (c.linked frozen links) :=
  ((contract hguarded T).keeping _).both (tracingContract hguarded links T)

variable (hguarded : Guarded c frozen) {s : Server} {headers : HeaderMap} {relative : Str}

lemma safe_answer {resp : Response} (huntagged : Untagged resp)
    (hnot : ¬(c.OnlyAsset relative ∧ gameData = true)) :
    (wholeContract hguarded links T).Safe
      (c.AnswersFrom frozen links T headers relative gameData) (.ret resp) s :=
  ⟨.inl huntagged, fun hasset hgame => absurd ⟨hasset, hgame⟩ hnot⟩

lemma answers_serveResolved (headers : HeaderMap) (relative : Str) (gameData : Bool) :
    (wholeContract hguarded links T).Safe
      (c.AnswersFrom frozen links T headers relative gameData)
      (c.serveResolved headers relative gameData) s := by
  refine ((safe_getFileWith hguarded relative gameData).keeping.both
    (safe_tracing hguarded (tracing_getFileWith relative gameData))).bind fun found s₁ _ hfound => ?_
  obtain ⟨hdelivers, htraces⟩ := hfound
  cases found with
  | none =>
    refine ⟨.inl (untagged_of_none rfl), fun hasset hgame hdata => ?_⟩
    obtain ⟨file, hfile⟩ := htraces.found hasset.looks hgame hdata
    exact absurd hfile (by simp)
  | some file =>
    refine ((safe_serveAsset hguarded headers (hdelivers file rfl)).keeping.both
      (safe_tracing hguarded (tracing_serveAsset headers relative file))).mono ?_
    rintro resp s₂ ⟨hgrown, -⟩ ⟨hresp, -⟩
    obtain ⟨-, e, he, hkey, hdata⟩ := (hdelivers file rfl).grown hgrown
    have hfrom : c.FromSource frozen links T headers relative resp s₂ :=
      ⟨e, List.mem_of_getElem? he, hkey, hdata ▸ htraces.sourced file rfl, hdata ▸ hresp⟩
    exact ⟨.inr hfrom, fun _ _ _ => hfrom⟩

lemma answers_looks {α : Type} {served : PathBuf → Prop} {P : α → Prop} {p : Work α}
    (h : p.All (LooksAt served) P) :
    (wholeContract hguarded links T).Safe (fun a _ => P a) p s :=
  ((safe_looks hguarded h).keeping.both (safe_tracing hguarded (tracing_looks h))).mono fun _ _ _ h => h.1

lemma answers_serveFile (headers : HeaderMap) (relative : Str) (gameData : Bool) :
    (wholeContract hguarded links T).Safe
      (c.AnswersFrom frozen links T headers relative gameData)
      (c.serveFile headers relative gameData) s := by
  have hfallback : ∀ s', (wholeContract hguarded links T).Safe
      (c.AnswersFrom frozen links T headers relative gameData)
      (c.serveFallback headers relative gameData) s' := by
    intro s'
    unfold Client.serveFallback
    split
    · next hroot =>
      refine (answers_looks hguarded (serveRoot_looks headers served_indexPage)).mono
        fun resp _ _ hresp => ⟨.inl hresp.untagged, fun hasset => ?_⟩
      rw [hroot] at hasset
      exact absurd hasset.generated (by simp [Client.generatedName])
    · exact answers_serveResolved hguarded headers relative gameData
  unfold Client.serveFile
  split
  · next hstatic =>
    refine (answers_looks hguarded (serveStatic_looks headers serves_static)).bind
      fun r s' _ hr => ?_
    cases r with
    | none => exact hfallback s'
    | some resp =>
      refine safe_answer hguarded (hr resp rfl).untagged fun hasset => ?_
      exact absurd (hstatic.symm.trans hasset.1.static) (by simp)
  · exact hfallback s

lemma answers_serveGet (headers : HeaderMap) (relative : Str) (gameData : Bool) :
    (wholeContract hguarded links T).Safe
      (c.AnswersFrom frozen links T headers relative gameData)
      (c.serveGet headers relative gameData) s := by
  unfold Client.serveGet
  split
  · next hprivate =>
    refine safe_answer hguarded (untagged_of_none rfl) fun hasset => ?_
    have hlooks := hasset.1.looks
    rw [Client.looksFor, Bool.and_eq_true] at hlooks
    rw [hlooks.1] at hprivate
    exact absurd hprivate (by simp)
  · split
    · exact answers_serveFile hguarded headers relative gameData
    · next name hname =>
      have hlooks : (Work.read (c.cfg.root ++ [name])).All (LooksAt fun _ => True) fun _ => True :=
        ⟨trivial, fun _ => trivial⟩
      refine (answers_looks hguarded hlooks).bind fun bytes s' _ _ => ?_
      cases bytes with
      | none => exact answers_serveFile hguarded headers relative gameData
      | some bytes =>
        refine safe_answer hguarded (untagged_of_none rfl) fun hasset => ?_
        exact absurd (hname.symm.trans hasset.1.generated) (by simp)

/-- What a job promises about its answer: a GET is answered from the sources of its path. -/
def GetAnswersFrom (c : Client) (frozen : PathBuf → Prop) (links : PathBuf → PathBuf → Prop)
    (T : FileSystem) (job : Job) (a : Option Response) (s : Server) : Prop :=
  ∀ r raw, job = .request r → r.endpoint = .path .get raw →
    ∃ resp, a = some resp ∧
      c.AnswersFrom frozen links T r.headers (c.decoded raw) (r.gameData c.cfg) resp s

lemma stable_getAnswersFrom (job : Job) :
    (wholeContract hguarded links T).Stable (GetAnswersFrom c frozen links T job) := by
  intro a s s' hrel hjob r raw hr hget
  obtain ⟨resp, ha, hfrom⟩ := hjob r raw hr hget
  exact ⟨resp, ha, hfrom.grown hrel.1⟩

lemma answers_run (job : Job) :
    (wholeContract hguarded links T).Safe (GetAnswersFrom c frozen links T job) (c.run job) s := by
  -- Only a GET of a path promises anything; every job keeps both contracts.
  have hother : (∀ r raw, job = .request r → r.endpoint ≠ .path .get raw) →
      (wholeContract hguarded links T).Safe (GetAnswersFrom c frozen links T job) (c.run job) s := by
    intro hne
    refine ((safe_run hguarded job).keeping.both (safe_tracing hguarded (tracing_run job))).mono ?_
    intro a s' _ _ r raw heq hget
    exact absurd hget (hne r raw heq)
  cases job with
  | warmUp limit => exact hother fun r raw heq => absurd heq (by simp)
  | request r =>
    by_cases hget : ∃ raw, r.endpoint = .path .get raw
    · obtain ⟨raw, hget⟩ := hget
      change (wholeContract hguarded links T).Safe _ (c.handle r) s
      unfold Client.handle
      rw [hget]
      have hpath : (wholeContract hguarded links T).Safe
          (c.AnswersFrom frozen links T r.headers (c.decoded raw) (r.gameData c.cfg))
          (c.servePath r.headers .get raw (r.gameData c.cfg)) s :=
        (answers_serveGet hguarded r.headers (c.decoded raw) (r.gameData c.cfg)).bind
          fun _ _ _ hresp => hresp
      refine hpath.bind fun resp s' _ hresp => ?_
      intro r' raw' heq hget'
      obtain rfl := Job.request.inj heq
      obtain rfl := (Endpoint.path.inj (hget.symm.trans hget')).2
      exact ⟨resp, rfl, hresp⟩
    · refine hother fun r' raw heq hget' => hget ⟨raw, ?_⟩
      rw [Job.request.inj heq]
      exact hget'

end

/-- **Every asset that is answered has a source.**  Whatever requests and warm-ups run in
whatever order, while others change what is not frozen: an answer to a GET that is under a strong
tag is the one for bytes that a source has for a path of the same key.  And a GET for a path that
the archives have, by someone who may have the game data, is never a miss. -/
theorem answers_are_sourced {c : Client} {frozen : PathBuf → Prop}
    {links : PathBuf → PathBuf → Prop} {T disk : FileSystem} (hguarded : Guarded c frozen)
    (hdisk : ∀ path, frozen path → disk.node path = T.node path) (hlinks : disk.LinksTo links)
    {pool : Pool Action Action.Answer Server Job (Option Response)}
    (h : (c.linked frozen links).Reachable (Client.start c.cfg disk) pool)
    {r : Request} {raw : Str} (hget : r.endpoint = .path .get raw) {a : Option Response}
    (hdone : (Job.request r, .ret a) ∈ pool.threads) :
    ∃ resp, a = some resp ∧
      c.AnswersFrom frozen links T r.headers (c.decoded raw) (r.gameData c.cfg) resp pool.state := by
  have hjob : GetAnswersFrom c frozen links T (.request r) a pool.state :=
    h.post (wholeContract hguarded links T) (stable_getAnswersFrom hguarded)
      (fun job _ _ => answers_run hguarded job)
      ⟨sane_start disk hdisk, traced_start hdisk hlinks⟩ hdone
  exact hjob r raw rfl hget

/-! ## A sample -/

/-- A server with music elsewhere: the directory is a link to another one. -/
def musicClient : Client :=
  { sampleClient with cfg := { sampleClient.cfg with bgmPath := some [['l']] } }

def musicContent : List Byte := [1]

/-- Beside the music there is a file that nobody is to have. -/
def musicDisk : FileSystem where
  node := fun path =>
    if path = [['m'], sampleName] then some (⟨false, true, 1, 0⟩, some musicContent)
    else if path = [['x']] then some (⟨false, true, 1, 0⟩, some [2])
    else none
  canonicalize := fun path =>
    if path = [['l']] then some [['m']]
    else if path = [['l'], sampleName] then some [['m'], sampleName]
    else none

def musicLinks (path file : PathBuf) : Prop := musicDisk.canonicalize path = some file

def musicName : Str := "BGM/a.txt".toList

/-- The key of the music. -/
def musicKey : Str := "bgm/a.txt".toList

def musicRequest : Request where
  loopback := true
  headers := {}
  endpoint := .path .get ('/' :: musicName)

def musicFile : CachedFile := ⟨musicContent, computeEtag Calls.sampleMd5 musicContent, 0⟩

/-- What a request is answered that stores the only copy. -/
abbrev musicAnswer : (a : Action) → a.Answer := firstAnswer musicDisk musicFile

def musicResponse : Response where
  status := 200
  contentType := some "text/plain; charset=utf-8".toList
  cacheControl := some "public, max-age=86400, immutable".toList
  etag := some (quoted "0101010101010101".toList)
  body := musicContent

/-- What is looked for, in this order. -/
def musicActions : List Action :=
  [.cacheGet musicKey, .cacheGet musicKey, .isFile ([['s']] ++ ["BGM".toList, sampleName]),
    .canonicalize [['l']], .canonicalize [['l'], sampleName], .isFile [['m'], sampleName],
    .read [['m'], sampleName], .cacheInsert musicKey musicContent]

lemma music_actions : (musicClient.handle musicRequest).actions musicAnswer = musicActions := by
  rfl

lemma music_eval : (musicClient.handle musicRequest).eval musicAnswer = some musicResponse := by
  rfl

/-- A look at the disk leaves the state as it is. -/
lemma music_look {s : Server} (hdisk : s.disk = musicDisk) (path : PathBuf) :
    s.perform Calls.sampleMd5 (.isFile path) = .ok (musicDisk.isFile path, s) ∧
    s.perform Calls.sampleMd5 (.read path) = .ok (musicDisk.read path, s) ∧
    s.perform Calls.sampleMd5 (.canonicalize path) = .ok (musicDisk.canonicalize path, s) := by
  simp only [Server.perform, hdisk, true_and]

/-- On the new server this stores the music. -/
lemma music_serial : ∃ s, Serial (Server.perform Calls.sampleMd5) musicAnswer musicActions
    (Client.start musicClient.cfg musicDisk) s := by
  let s : Server := Client.start musicClient.cfg musicDisk
  obtain ⟨cache, hget, hsound, hempty, -⟩ := perform_cacheGet_empty Calls.sampleMd5 (s := s)
    (sound_withBudget _ _) (recency_withBudget _ _) musicKey
  let s₁ : Server := { s with cache := cache }
  obtain ⟨cache', hget', hsound', -⟩ := perform_cacheGet_empty Calls.sampleMd5 (s := s₁) hsound
    hempty musicKey
  let s₂ : Server := { s₁ with cache := cache' }
  obtain ⟨cache'', hinsert, -⟩ :=
    FileCache.insert_spec Calls.sampleMd5 hsound' musicKey musicContent 0
  let s₃ : Server := { s₂ with cache := cache'', encodings := [⟨musicKey, musicContent, none⟩] }
  have hlook := music_look (s := s₂) rfl
  have hstore : s₂.perform Calls.sampleMd5 (.cacheInsert musicKey musicContent) =
      .ok (musicFile, s₃) := by
    change (cache'.insert Calls.sampleMd5 musicKey musicContent 0 >>= _) = _
    rw [hinsert]
    rfl
  exact ⟨s₃, .cons hget (.cons hget' (.cons (hlook _).1 (.cons (hlook _).2.2 (.cons (hlook _).2.2
    (.cons (hlook _).1 (.cons (hlook _).2.1 (.cons hstore (.nil _))))))))⟩

/-- A request with these actions may run on its own. -/
lemma music_reachable (frozen : PathBuf → Prop) (links : PathBuf → PathBuf → Prop) {c : Client}
    {r : Request} (hmd5 : c.platform.md5 = Calls.sampleMd5)
    (hcfg : c.cfg = musicClient.cfg) (hactions : (c.handle r).actions musicAnswer = musicActions) :
    ∃ s, (c.linked frozen links).Reachable (Client.start c.cfg musicDisk)
      ⟨s, [(.request r, .ret ((c.handle r).eval musicAnswer))]⟩ := by
  obtain ⟨s, hserial⟩ := music_serial
  have hperform : (c.linked frozen links).perform = Server.perform Calls.sampleMd5 :=
    congrArg Server.perform hmd5
  rw [← hactions, ← hperform, ← hcfg] at hserial
  exact ⟨s, (Machine.Reachable.start (m := c.linked frozen links)).serial hserial⟩

lemma musicDisk_fileData {path : PathBuf} {data : List Byte}
    (h : musicDisk.fileData path = some data) :
    path = [['m'], sampleName] ∧ data = musicContent ∨ path = [['x']] := by
  by_cases hmusic : path = [['m'], sampleName]
  · subst hmusic
    exact .inl ⟨rfl, (Option.some.inj h).symm⟩
  · by_cases hother : path = [['x']]
    · exact .inr hother
    · have hnode : musicDisk.node path = none := by
        change (if _ then _ else _) = _
        rw [if_neg hmusic, if_neg hother]
      simp [FileSystem.fileData, FileSystem.isFile, FileSystem.metadata, hnode] at h

/-- Nothing but the music has a source. -/
lemma music_sourced {c : Client} (hcfg : c.cfg = musicClient.cfg)
    (hindex : c.index = AssetIndex.empty) {key : Str} {data : List Byte}
    (h : c.Sourced (fun _ => True) musicLinks musicDisk key data) : data = musicContent := by
  cases h with
  | warmUp h =>
    obtain ⟨i, hi, -⟩ := h
    rw [hindex] at hi
    exact absurd hi (by simp [AssetIndex.empty])
  | @request reqPath hpublic hkey hfinds =>
    cases hfinds with
    | loose hjoin h =>
      obtain ⟨parts, rfl, -⟩ := safeJoin_public hpublic hjoin
      rcases musicDisk_fileData (h trivial) with ⟨-, hdata⟩ | hother
      · exact hdata
      · rw [hcfg] at hother
        exact absurd (List.cons.inj hother).1 (by decide)
    | @client dir base candidate path relative hdir hjoin hbase hfile hbelow h =>
      have hdir' : dir = [['l']] := by
        unfold Client.clientDirectory at hdir
        rw [hcfg] at hdir
        split at hdir
        · exact absurd hdir (by simp)
        · split at hdir
          · exact (Prod.mk.inj (Option.some.inj hdir)).1.symm
          · simp [musicClient, sampleClient] at hdir
      rw [hdir'] at hbase
      obtain rfl : [['m']] = base := Option.some.inj hbase
      rcases musicDisk_fileData (h trivial) with ⟨-, hdata⟩ | rfl
      · exact hdata
      · exact absurd hbelow (by decide)
    | override hdir =>
      rw [hcfg] at hdir
      exact absurd hdir (by simp [musicClient, sampleClient])
    | archive h =>
      rw [Client.archiveData, Client.archiveHit_empty hindex] at h
      exact absurd h (by simp)

/-- The music is sent, and only the music can be. -/
theorem answers_are_sourced_sample : ∃ s resp,
    (musicClient.linked (fun _ => True) musicLinks).Reachable
      (Client.start musicClient.cfg musicDisk)
      ⟨s, [(.request musicRequest, .ret (some musicResponse))]⟩ ∧
    some musicResponse = some resp ∧
    musicClient.AnswersFrom (fun _ => True) musicLinks musicDisk musicRequest.headers musicName
      true resp s ∧
    (∀ data, musicClient.Sourced (fun _ => True) musicLinks musicDisk musicKey data →
      data = musicContent) ∧
    resp.body = musicContent := by
  have hguarded : Guarded musicClient fun _ => True := fun _ _ => rfl
  have hlinks : musicDisk.LinksTo musicLinks := fun _ _ h => h
  obtain ⟨s, hreach⟩ := music_reachable (fun _ => True) musicLinks rfl rfl music_actions
  rw [music_eval] at hreach
  have hget : musicRequest.endpoint = .path .get ('/' :: musicName) := rfl
  obtain ⟨resp, hresp, hfrom⟩ := answers_are_sourced hguarded (fun _ _ => rfl) hlinks hreach hget
    (List.mem_singleton_self _)
  obtain rfl := Option.some.inj hresp
  exact ⟨s, _, hreach, rfl, hfrom, fun _ => music_sourced (c := musicClient) rfl rfl, rfl⟩

end RemoteClient
